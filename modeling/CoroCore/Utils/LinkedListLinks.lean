import CoroCore.Lib.DoublyLinked
import CoroCore.Utils.LinkedList
import Mathlib.Data.List.TakeWhile

/-!
# Linking and unlinking nodes of a list

`Rep` is the invariant of all lists. A node that was taken out of a list or made is `Held` until it
is linked or freed.

* `Rep.put`: one list is written;
* `Rep.linkBefore`, `Rep.linkAfter`, `Rep.unlink`: the writes of the source at a place in a list;
* `Rep.allocNode`, `Rep.freeNode`: the node caches;
* `seqBefore_split`, `seqAfter_split`, `seqErase_split`: the operations on sequences, at a place.
-/

namespace CoroCore

open Lib

namespace LinkedList

variable {N D ι : Type*}

/-! ## What the lists keep -/

def nodes (l : List (N × D)) : List N := l.map Prod.fst

/-- The sentinels, the nodes in use and the nodes in the cache. -/
def cells (o : LinkedList N) (l : List (N × D)) : List N :=
  o.head :: o.tail :: (nodes l ++ o.nodeCache)

/-- One list holds a sequence. -/
structure Good (m : Mem N D) (o : LinkedList N) (l : List (N × D)) : Prop where
  links : Linked m.next m.prev (o.head :: nodes l ++ [o.tail])
  data : ∀ e ∈ l, m.data e.1 = e.2
  size : o.size = l.length
  nodup : (cells o l).Nodup

/-- All lists hold their sequences, and share no cells. -/
structure Rep (s : Sys N D ι) (a : ι → List (N × D)) : Prop where
  good : ∀ i, Good s.mem (s.lists i) (a i)
  owner : ∀ i j, ∀ x ∈ cells (s.lists i) (a i), x ∈ cells (s.lists j) (a j) → i = j
  live : ∀ i, ∀ x ∈ nodes (a i) ++ (s.lists i).nodeCache, x ∈ s.live
  card : s.live.card ≤ maxNodes

/-- A node that is in no list and no cache. -/
structure Held (s : Sys N D ι) (a : ι → List (N × D)) (n : N) : Prop where
  live : n ∈ s.live
  apart : ∀ i, n ∉ cells (s.lists i) (a i)

/-- Nothing is written to the cell. -/
def Same (m m' : Mem N D) (x : N) : Prop :=
  m'.next x = m.next x ∧ m'.prev x = m.prev x ∧ m'.data x = m.data x

variable {s s' : Sys N D ι} {a a' : ι → List (N × D)} {m m' : Mem N D} {o o' : LinkedList N}
  {l l' u v : List (N × D)} {i j : ι} {n p : N} {d : D} {e : N × D} {fresh : Option N}
  {act : Act N D ι}

theorem mem_cells {x : N} : x ∈ cells o l ↔ x = o.head ∨ x = o.tail ∨ x ∈ nodes l ∨
    x ∈ o.nodeCache := by
  simp only [cells, List.mem_cons, List.mem_append]

theorem Good.congr (h : Good m o l) (hm : ∀ x ∈ cells o l, Same m m' x) : Good m' o l := by
  have hcell : ∀ x ∈ o.head :: nodes l ++ [o.tail], x ∈ cells o l := by
    intro x hx
    simp only [List.cons_append, List.mem_cons, List.mem_append, List.not_mem_nil, or_false] at hx
    rw [mem_cells]
    tauto
  refine ⟨h.links.congr (fun x hx => (hm x (hcell x hx)).1) fun x hx => (hm x (hcell x hx)).2.1,
    fun e he => ?_, h.size, h.nodup⟩
  rw [(hm e.1 (mem_cells.mpr (.inr (.inr (.inl (List.mem_map_of_mem he)))))).2.2, h.data e he]

section Frame

variable [DecidableEq ι]

/-- One list is written, and may take in a node that was held. -/
theorem Rep.put (h : Rep s a) {live' : Finset N} (hgood : Good m' o' l')
    (hcells : ∀ x ∈ cells o' l', x ∈ cells (s.lists i) (a i) ∨ ∀ j, x ∉ cells (s.lists j) (a j))
    (hsame : ∀ x, x ∉ cells o' l' → x ∉ cells (s.lists i) (a i) → Same s.mem m' x)
    (hlive : ∀ x ∈ nodes l' ++ o'.nodeCache, x ∈ live')
    (hkeep : ∀ x ∈ s.live, x ∉ cells (s.lists i) (a i) → (∃ j, x ∈ cells (s.lists j) (a j)) →
      x ∈ live')
    (hcard : live'.card ≤ maxNodes) :
    Rep ⟨m', Function.update s.lists i o', live'⟩ (Function.update a i l') := by
  -- the cells of another list are neither old nor new cells of list `i`
  have hother : ∀ k, k ≠ i → ∀ x ∈ cells (s.lists k) (a k),
      x ∉ cells (s.lists i) (a i) ∧ x ∉ cells o' l' := by
    intro k hk x hx
    have hi : x ∉ cells (s.lists i) (a i) := fun hxi => hk (h.owner k i x hx hxi)
    exact ⟨hi, fun hx' => (hcells x hx').elim hi fun hall => hall k hx⟩
  refine ⟨fun k => ?_, fun k k' x hx hx' => ?_, fun k x hx => ?_, hcard⟩
  · by_cases hk : k = i
    · subst hk
      simpa using hgood
    · simp only [Function.update_of_ne hk]
      exact (h.good k).congr fun x hx => hsame x (hother k hk x hx).2 (hother k hk x hx).1
  · by_cases hk : k = i <;> by_cases hk' : k' = i
    · rw [hk, hk']
    · subst hk
      simp only [Function.update_self, Function.update_of_ne hk'] at hx hx'
      exact absurd hx (hother k' hk' x hx').2
    · subst hk'
      simp only [Function.update_self, Function.update_of_ne hk] at hx hx'
      exact absurd hx' (hother k hk x hx).2
    · simp only [Function.update_of_ne hk, Function.update_of_ne hk'] at hx hx'
      exact h.owner k k' x hx hx'
  · by_cases hk : k = i
    · subst hk
      simp only [Function.update_self] at hx
      exact hlive x hx
    · simp only [Function.update_of_ne hk] at hx
      have hxk : x ∈ cells (s.lists k) (a k) := List.mem_cons_of_mem _ (List.mem_cons_of_mem _ hx)
      exact hkeep x (h.live k x hx) (hother k hk x hxk).1 ⟨k, hxk⟩

end Frame

/-! ## Writing the links -/

/-- `n` is linked between `p` and `q`, and nothing else is written but its data. -/
structure Inserted (m m' : Mem N D) (p n q : N) (d : D) : Prop where
  next_left : m'.next p = n
  prev_new : m'.prev n = p
  next_new : m'.next n = q
  prev_right : m'.prev q = n
  next_other : ∀ x, x ≠ p → x ≠ n → m'.next x = m.next x
  prev_other : ∀ x, x ≠ q → x ≠ n → m'.prev x = m.prev x
  data_new : m'.data n = d
  data_other : ∀ x, x ≠ n → m'.data x = m.data x

/-- `p` and `q` are linked, and nothing else is written. -/
structure Joined (m m' : Mem N D) (p q : N) : Prop where
  next_left : m'.next p = q
  prev_right : m'.prev q = p
  next_other : ∀ x, x ≠ p → m'.next x = m.next x
  prev_other : ∀ x, x ≠ q → m'.prev x = m.prev x
  data : m'.data = m.data

/-- The nodes from `f` to `b` are linked between `p` and `t`, and `oh` to `ot`. -/
structure Spliced (m m' : Mem N D) (p t f b oh ot : N) : Prop where
  next_left : m'.next p = f
  prev_first : m'.prev f = p
  next_last : m'.next b = t
  prev_right : m'.prev t = b
  next_head : m'.next oh = ot
  prev_tail : m'.prev ot = oh
  next_other : ∀ x, x ≠ p → x ≠ b → x ≠ oh → m'.next x = m.next x
  prev_other : ∀ x, x ≠ f → x ≠ t → x ≠ ot → m'.prev x = m.prev x
  data : m'.data = m.data

section Links

variable [DecidableEq N] {q : N}

theorem inserted_linkBefore (hp : n ≠ p) (hq : n ≠ q) (h : m.prev q = p) :
    Inserted m ((m.linkBefore n q).setData n d) p n q d := by
  subst h
  refine ⟨?_, ?_, ?_, ?_, fun x hx hn => ?_, fun x hx hn => ?_, ?_, fun x hn => ?_⟩ <;>
    simp [Mem.linkBefore, Mem.setNext, Mem.setPrev, Mem.setData, *, hq.symm]

theorem inserted_linkAfter (hp : n ≠ p) (hq : n ≠ q) (h : m.next p = q) :
    Inserted m ((m.linkAfter n p).setData n d) p n q d := by
  subst h
  refine ⟨?_, ?_, ?_, ?_, fun x hx hn => ?_, fun x hx hn => ?_, ?_, fun x hn => ?_⟩ <;>
    simp [Mem.linkAfter, Mem.setNext, Mem.setPrev, Mem.setData, *, hp.symm]

theorem joined_unlink (hp : n ≠ m.prev n) : Joined m (m.unlink n) (m.prev n) (m.next n) := by
  have hnext : (m.unlink n).next = Function.update m.next (m.prev n) (m.next n) := rfl
  have hprev : (m.unlink n).prev = Function.update m.prev (m.next n) (m.prev n) := by
    simp [Mem.unlink, Mem.setNext, Mem.setPrev, Function.update_of_ne hp]
  refine ⟨?_, ?_, fun x hx => ?_, fun x hx => ?_, rfl⟩
  · rw [hnext, Function.update_self]
  · rw [hprev, Function.update_self]
  · rw [hnext, Function.update_of_ne hx]
  · rw [hprev, Function.update_of_ne hx]

/-- `merge(other, it)` is `unlink` and a node put in front of the tail. -/
theorem inserted_transfer (hn : n ≠ m.prev n) (hp : n ≠ p) (hq : n ≠ q)
    (h : (m.unlink n).prev q = p) :
    Inserted (m.unlink n) (m.transfer n q) p n q (m.data n) := by
  subst h
  have hunlink : m.unlink n = (m.setNext (m.prev n) (m.next n)).setPrev (m.next n) (m.prev n) := by
    simp [Mem.unlink, Mem.setNext, Mem.setPrev, Function.update_of_ne hn]
  have htransfer : m.transfer n q = ((((m.unlink n).setNext ((m.unlink n).prev q) n).setPrev n
      ((m.unlink n).prev q)).setPrev q n).setNext n q := by
    rw [hunlink]
    rfl
  clear hunlink
  rw [htransfer]
  refine ⟨?_, ?_, ?_, ?_, fun x hx hxn => ?_, fun x hx hxn => ?_, rfl, fun x _ => rfl⟩ <;>
    simp [Mem.setNext, Mem.setPrev, *, hp.symm]

theorem spliced_splice {t f b oh ot : N} (hp : m.prev t = p) (hf : m.next oh = f)
    (hb : m.prev ot = b) (hpo : p ≠ oh) (hpb : p ≠ b) (hbo : b ≠ oh) (hft : f ≠ t) (hfo : f ≠ ot)
    (hto : t ≠ ot) : Spliced m (m.splice t oh ot) p t f b oh ot := by
  subst hp hf hb
  refine ⟨?_, ?_, ?_, ?_, ?_, ?_, fun x h1 h2 h3 => ?_, fun x h1 h2 h3 => ?_, rfl⟩ <;>
    simp [Mem.splice, Mem.setNext, Mem.setPrev, *, hpo.symm, hfo.symm, hto.symm]

end Links

/-! ## Putting an element in and taking one out -/

theorem nodes_append : nodes (u ++ v) = nodes u ++ nodes v := List.map_append

theorem nodes_cons : nodes (e :: l) = e.1 :: nodes l := List.map_cons

@[simp] theorem length_nodes : (nodes l).length = l.length := List.length_map _

theorem Good.nodup_links (h : Good m o l) : (o.head :: nodes l ++ [o.tail]).Nodup := by
  have hperm : (o.head :: nodes l ++ [o.tail]).Perm (o.head :: o.tail :: nodes l) :=
    (List.perm_append_singleton _ _).cons o.head
  have hsub : (o.head :: o.tail :: nodes l).Sublist (cells o l) :=
    ((List.sublist_append_left _ _).cons_cons _).cons_cons _
  exact hperm.nodup_iff.mpr (hsub.nodup h.nodup)

theorem cells_perm : (cells o (u ++ e :: v)).Perm (e.1 :: cells o (u ++ v)) := by
  simp only [cells, nodes_append, nodes_cons, List.append_assoc, List.cons_append]
  exact ((List.perm_middle.cons _).trans (List.Perm.swap _ _ _) |>.cons _).trans
    (List.Perm.swap _ _ _)

/-- The neighbours of a place in the list are its cells. -/
theorem mem_cells_sides {U V : List N} {q : N} (hu : o.head :: nodes u = U ++ [p])
    (hv : nodes v ++ [o.tail] = q :: V) : p ∈ cells o (u ++ v) ∧ q ∈ cells o (u ++ v) := by
  have hp : p ∈ o.head :: nodes u := hu ▸ List.mem_append_right U List.mem_cons_self
  have hq : q ∈ nodes v ++ [o.tail] := hv ▸ List.mem_cons_self
  simp only [mem_cells, nodes_append, List.mem_append, List.mem_cons, List.not_mem_nil,
    or_false] at hp hq ⊢
  tauto

/-- An element with a new node is put in. -/
theorem Good.insert (h : Good m o (u ++ v)) {U V : List N} {q : N}
    (hu : o.head :: nodes u = U ++ [p]) (hv : nodes v ++ [o.tail] = q :: V)
    (hins : Inserted m m' p n q d) (hn : n ∉ cells o (u ++ v))
    (ho : o' = { o with size := o.size + 1 }) : Good m' o' (u ++ (n, d) :: v) := by
  subst ho
  have hold : o.head :: nodes (u ++ v) ++ [o.tail] = U ++ p :: q :: V := by
    rw [nodes_append, ← List.cons_append, List.append_assoc, hu, hv, List.append_assoc]
    rfl
  have hnew : o.head :: nodes (u ++ (n, d) :: v) ++ [o.tail] = U ++ p :: n :: q :: V := by
    rw [nodes_append, nodes_cons, ← List.cons_append, List.append_assoc, hu, List.cons_append, hv,
      List.append_assoc]
    rfl
  have hnc : ∀ x ∈ U ++ p :: q :: V, x ≠ n := by
    rintro x hx rfl
    rw [← hold] at hx
    simp only [List.cons_append, List.mem_cons, List.mem_append, List.not_mem_nil, or_false] at hx
    rw [mem_cells] at hn
    tauto
  refine ⟨?_, fun e he => ?_, ?_, ?_⟩
  · rw [hnew]
    have hlinks := h.links
    have hnodup := h.nodup_links
    rw [hold] at hlinks hnodup
    exact hlinks.insert hnodup (fun x hx hxp => hins.next_other x hxp (hnc x hx))
      (fun x hx hxq => hins.prev_other x hxq (hnc x hx)) hins.next_left hins.prev_new hins.next_new
      hins.prev_right
  · by_cases hne : e ∈ u ++ v
    · rw [hins.data_other, h.data e hne]
      rintro rfl
      exact hn (mem_cells.mpr (.inr (.inr (.inl (List.mem_map_of_mem hne)))))
    · have heq : e = (n, d) := by
        simp only [List.mem_append, List.mem_cons] at he hne
        tauto
      subst heq
      exact hins.data_new
  · simp only [h.size, List.length_append, List.length_cons]
    omega
  · exact cells_perm.nodup_iff.mpr (List.nodup_cons.mpr ⟨hn, h.nodup⟩)

/-- An element is taken out. -/
theorem Good.remove (h : Good m o (u ++ e :: v)) {U V : List N} {q : N}
    (hu : o.head :: nodes u = U ++ [p]) (hv : nodes v ++ [o.tail] = q :: V)
    (hj : Joined m m' p q) (ho : o' = { o with size := o.size - 1 }) :
    Good m' o' (u ++ v) ∧ e.1 ∉ cells o (u ++ v) := by
  subst ho
  have hold : o.head :: nodes (u ++ e :: v) ++ [o.tail] = U ++ p :: ([e.1] ++ q :: V) := by
    rw [nodes_append, nodes_cons, ← List.cons_append, List.append_assoc, hu, List.cons_append, hv,
      List.append_assoc]
    rfl
  have hnew : o.head :: nodes (u ++ v) ++ [o.tail] = U ++ p :: q :: V := by
    rw [nodes_append, ← List.cons_append, List.append_assoc, hu, hv, List.append_assoc]
    rfl
  obtain ⟨he, hnodup⟩ := List.nodup_cons.mp (cells_perm.nodup_iff.mp h.nodup)
  refine ⟨⟨?_, fun x hx => ?_, ?_, hnodup⟩, he⟩
  · rw [hnew]
    have hlinks := h.links
    have hnodup := h.nodup_links
    rw [hold] at hlinks hnodup
    refine Linked.remove (hnodup.sublist ?_) (fun x _ hxp => hj.next_other x hxp)
      (fun x _ hxq => hj.prev_other x hxq) hlinks hj.next_left hj.prev_right
    exact (List.Sublist.refl U).append ((List.sublist_append_right _ _).cons_cons p)
  · rw [hj.data]
    refine h.data x ?_
    simp only [List.mem_append, List.mem_cons] at hx ⊢
    tauto
  · simp only [h.size, List.length_append, List.length_cons]
    omega

/-- Both sentinels are linked, and the size is 0. -/
theorem Good.empty (h : Good m o l) {cache : List N} (hj : Joined m m' o.head o.tail)
    (hcache : cache.Sublist o.nodeCache) :
    Good m' { o with size := 0, nodeCache := cache } ([] : List (N × D)) := by
  refine ⟨?_, nofun, rfl, h.nodup.sublist ?_⟩
  · exact List.isChain_cons_cons.mpr ⟨⟨hj.next_left, hj.prev_right⟩, .singleton _⟩
  · exact ((hcache.trans (List.sublist_append_right _ _)).cons_cons _).cons_cons _

/-- The nodes of a list fit in memory, so an `int` counts them. -/
theorem Rep.length_le (h : Rep s a) {w : List N} (hw : w.Nodup) (hlive : ∀ x ∈ w, x ∈ s.live) :
    w.length ≤ maxNodes := by
  classical
  have hsub : w.toFinset ⊆ s.live := fun x hx => hlive x (List.mem_toFinset.mp hx)
  calc w.length = w.toFinset.card := (List.toFinset_card_of_nodup hw).symm
    _ ≤ s.live.card := Finset.card_le_card hsub
    _ ≤ maxNodes := h.card

theorem Good.nodup_nodes (h : Good m o l) : (nodes l).Nodup :=
  (List.nodup_append.mp (List.nodup_cons.mp (List.nodup_cons.mp h.nodup).2).2).1

/-- The elements of another list are put in at the end. -/
theorem Good.append (h : Good m o l) {U w W : List N} {f b : N}
    (hu : o.head :: nodes l = U ++ [p]) (hf : nodes l' = f :: w) (hb : nodes l' = W ++ [b])
    (hlinks : Linked m'.next m'.prev (nodes l')) (hp : m'.next p = f ∧ m'.prev f = p)
    (ht : m'.next b = o.tail ∧ m'.prev o.tail = b)
    (hnext : ∀ x ∈ cells o l, x ≠ p → m'.next x = m.next x)
    (hprev : ∀ x ∈ cells o l, x ≠ o.tail → m'.prev x = m.prev x) (hdata : m'.data = m.data)
    (hdata' : ∀ e ∈ l', m.data e.1 = e.2) (hnodup : (nodes l').Nodup)
    (hapart : ∀ x ∈ nodes l', x ∉ cells o l) :
    Good m' { o with size := o.size + l'.length } (l ++ l') := by
  have hold : o.head :: nodes l ++ [o.tail] = U ++ p :: o.tail :: [] := by
    rw [hu, List.append_assoc]
    rfl
  have hnew : o.head :: nodes (l ++ l') ++ [o.tail] = U ++ p :: (f :: w ++ o.tail :: []) := by
    rw [nodes_append, ← List.cons_append, hu, hf, List.append_assoc, List.append_assoc]
    rfl
  have hmem : ∀ x ∈ U ++ p :: o.tail :: [], x ∈ cells o l := by
    intro x hx
    rw [← hold] at hx
    simp only [List.cons_append, List.mem_cons, List.mem_append, List.not_mem_nil, or_false] at hx
    rw [mem_cells]
    tauto
  have hlast : (f :: w).getLast (by simp) = b := by
    simp only [← hf, hb, List.getLast_append_singleton]
  refine ⟨?_, fun e he => ?_, ?_, ?_⟩
  · rw [hnew]
    have hl := h.links
    have hnd := h.nodup_links
    rw [hold] at hl hnd
    rw [hf] at hlinks
    exact hl.splice hnd (fun x hx => hnext x (hmem x hx)) (fun x hx => hprev x (hmem x hx)) hlinks
      hp.1 hp.2 (by rw [hlast]; exact ht.1) (by rw [hlast]; exact ht.2)
  · rw [hdata]
    exact (List.mem_append.mp he).elim (h.data e) (hdata' e)
  · simp [h.size]
  · have hperm : (cells { o with size := o.size + l'.length } (l ++ l')).Perm
        (nodes l' ++ cells o l) := by
      simp only [cells, nodes_append]
      rw [List.append_assoc]
      have hswap : (nodes l ++ (nodes l' ++ o.nodeCache)).Perm
          (nodes l' ++ (nodes l ++ o.nodeCache)) := by
        rw [← List.append_assoc, ← List.append_assoc]
        exact List.perm_append_comm.append_right _
      exact ((hswap.cons _).cons _).trans
        ((List.perm_middle.symm.cons _).trans List.perm_middle.symm)
    refine hperm.nodup_iff.mpr (List.nodup_append.mpr ⟨hnodup, h.nodup, fun x hx y hy hxy => ?_⟩)
    exact hapart x hx (hxy ▸ hy)

theorem Good.ends_notMem (h : Good m o l) : o.head ∉ nodes l ∧ o.tail ∉ nodes l := by
  have h1 := List.nodup_cons.mp h.nodup
  have h2 := List.nodup_cons.mp h1.2
  exact ⟨fun hx => h1.1 (List.mem_cons_of_mem _ (List.mem_append_left _ hx)),
    fun hx => h2.1 (List.mem_append_left _ hx)⟩

section Update

variable [DecidableEq ι]

theorem addSize_eq {k : Int} (h0 : 0 ≤ (s.lists i).size + k)
    (h1 : (s.lists i).size + k ≤ maxNodes) :
    s.addSize i k = s.setList i { s.lists i with size := (s.lists i).size + k } := by
  rw [Sys.addSize, Int.bmod_eq_of_le]
  · omega
  · simp only [maxNodes] at h1
    omega

theorem Rep.insert (h : Rep s a) (hheld : Held s a n) (hsplit : a i = u ++ v) {U V : List N} {q : N}
    (hu : (s.lists i).head :: nodes u = U ++ [p]) (hv : nodes v ++ [(s.lists i).tail] = q :: V)
    (hins : Inserted s.mem m' p n q d) :
    Rep (Sys.addSize { s with mem := m' } i 1) (Function.update a i (u ++ (n, d) :: v)) := by
  have hgood := h.good i
  rw [hsplit] at hgood
  have hn := hheld.apart i
  rw [hsplit] at hn
  have hnodup : (n :: nodes (u ++ v)).Nodup := by
    refine List.nodup_cons.mpr ⟨fun hx => hn ?_, hgood.nodup_nodes⟩
    exact mem_cells.mpr (.inr (.inr (.inl hx)))
  have hlen : (n :: nodes (u ++ v)).length ≤ maxNodes := by
    refine h.length_le hnodup fun x hx => ?_
    rcases List.mem_cons.mp hx with rfl | hx
    · exact hheld.live
    · exact h.live i x (List.mem_append_left _ (hsplit ▸ hx))
  have hsize := hgood.size
  rw [List.length_cons, length_nodes] at hlen
  have hadd := addSize_eq (s := { s with mem := m' }) (i := i) (k := 1)
    (by simp only [hsize]; omega) (by simp only [hsize]; omega)
  rw [hadd]
  have hcells : ∀ x, x ∈ cells (s.lists i) (u ++ (n, d) :: v) ↔
      x = n ∨ x ∈ cells (s.lists i) (u ++ v) := fun x => cells_perm.mem_iff.trans List.mem_cons
  obtain ⟨hp, hq⟩ := mem_cells_sides hu hv
  refine Rep.put h (hgood.insert hu hv hins hn rfl) (fun x hx => ?_) (fun x hx hx' => ?_)
    (fun x hx => ?_) (fun x hx _ _ => hx) h.card
  · rcases (hcells x).mp hx with rfl | hx
    · exact .inr hheld.apart
    · exact .inl (hsplit ▸ hx)
  · rw [hsplit] at hx'
    have hxn : x ≠ n := fun hxn => hx ((hcells x).mpr (.inl hxn))
    exact ⟨hins.next_other x (fun hxp => hx' (hxp ▸ hp)) hxn,
      hins.prev_other x (fun hxq => hx' (hxq ▸ hq)) hxn, hins.data_other x hxn⟩
  · rw [nodes_append, nodes_cons] at hx
    have hlive := h.live i
    rw [hsplit, nodes_append] at hlive
    simp only [List.mem_append, List.mem_cons] at hx hlive
    rcases hx with (hx | rfl | hx) | hx
    · exact hlive x (.inl (.inl hx))
    · exact hheld.live
    · exact hlive x (.inl (.inr hx))
    · exact hlive x (.inr hx)

/-- What a list gave away is held. -/
theorem Rep.held (h : Rep s a) {x : N} {live' : Finset N} (hx : x ∈ cells (s.lists i) (a i))
    (hx' : x ∉ cells o' l') (hlive : x ∈ live') :
    Held ⟨m', Function.update s.lists i o', live'⟩ (Function.update a i l') x := by
  refine ⟨hlive, fun k => ?_⟩
  by_cases hk : k = i
  · subst hk
    simpa using hx'
  · simp only [Function.update_of_ne hk]
    exact fun hxk => hk (h.owner k i x hxk hx)

theorem Rep.remove (h : Rep s a) (hsplit : a i = u ++ e :: v) {U V : List N} {q : N}
    (hu : (s.lists i).head :: nodes u = U ++ [p]) (hv : nodes v ++ [(s.lists i).tail] = q :: V)
    (hj : Joined s.mem m' p q) :
    Rep (Sys.addSize { s with mem := m' } i (-1)) (Function.update a i (u ++ v)) ∧
      Held (Sys.addSize { s with mem := m' } i (-1)) (Function.update a i (u ++ v)) e.1 := by
  have hgood := h.good i
  rw [hsplit] at hgood
  have hsize := hgood.size
  have hlen : (nodes (a i)).length ≤ maxNodes :=
    h.length_le (h.good i).nodup_nodes fun x hx => h.live i x (List.mem_append_left _ hx)
  rw [length_nodes, hsplit] at hlen
  simp only [List.length_append, List.length_cons] at hsize hlen
  have hadd := addSize_eq (s := { s with mem := m' }) (i := i) (k := -1)
    (by simp only [hsize]; omega) (by simp only [hsize]; omega)
  rw [hadd]
  obtain ⟨hgood', he⟩ := hgood.remove hu hv hj rfl
  have hcells : ∀ x, x ∈ cells (s.lists i) (a i) ↔ x = e.1 ∨ x ∈ cells (s.lists i) (u ++ v) := by
    intro x
    rw [hsplit]
    exact cells_perm.mem_iff.trans List.mem_cons
  obtain ⟨hp, hq⟩ := mem_cells_sides hu hv
  have hlive := h.live i
  rw [hsplit] at hlive
  refine ⟨Rep.put h hgood' (fun x hx => .inl ((hcells x).mpr (.inr hx))) (fun x hx _ => ?_)
    (fun x hx => hlive x ?_) (fun x hx _ _ => hx) h.card,
    h.held ((hcells e.1).mpr (.inl rfl)) he (hlive e.1 ?_)⟩
  · exact ⟨hj.next_other x fun hxp => hx (hxp ▸ hp), hj.prev_other x fun hxq => hx (hxq ▸ hq),
      congrFun hj.data x⟩
  · simp only [nodes_append, nodes_cons, List.mem_append, List.mem_cons] at hx ⊢
    tauto
  · simp only [nodes_append, nodes_cons, List.mem_append, List.mem_cons]
    tauto

/-- The list is emptied, and its nodes are held. -/
theorem Rep.drop (h : Rep s a) (hj : Joined s.mem m' (s.lists j).head (s.lists j).tail) :
    Rep ⟨m', Function.update s.lists j { s.lists j with size := 0 }, s.live⟩
        (Function.update a j []) ∧
      ∀ x ∈ nodes (a j), Held
        ⟨m', Function.update s.lists j { s.lists j with size := 0 }, s.live⟩
        (Function.update a j []) x := by
  have hgood := h.good j
  have hnodup := hgood.nodup
  refine ⟨Rep.put h (hgood.empty hj (List.Sublist.refl _)) (fun x hx => .inl ?_) (fun x hx _ => ?_)
    (fun x hx => h.live j x (List.mem_append_right _ hx)) (fun x hx _ _ => hx) h.card,
    fun x hx => h.held (mem_cells.mpr (.inr (.inr (.inl hx)))) (fun hx' => ?_)
      (h.live j x (List.mem_append_left _ hx))⟩
  · rw [mem_cells] at hx ⊢
    simp only [nodes, List.map_nil, List.not_mem_nil] at hx
    tauto
  · rw [mem_cells, not_or, not_or] at hx
    exact ⟨hj.next_other x hx.1, hj.prev_other x hx.2.1, congrFun hj.data x⟩
  · rcases mem_cells.mp hx' with rfl | rfl | hn | hc
    · exact hgood.ends_notMem.1 hx
    · exact hgood.ends_notMem.2 hx
    · simp [nodes] at hn
    · have htl := (List.nodup_cons.mp (List.nodup_cons.mp hnodup).2).2
      exact (List.nodup_append.mp htl).2.2 x hx x hc rfl

end Update

section Nodes

variable [DecidableEq N] [DecidableEq ι]

/-- A cache or `operator new` gives a node that is in no list. -/
theorem Rep.allocNode (h : Rep s a) (hnew : s.CanNew fresh)
    (halloc : allocNode i fresh s = (some n, s')) :
    Rep s' a ∧ Held s' a n ∧ s'.mem = s.mem ∧
      ∀ k, (s'.lists k).head = (s.lists k).head ∧ (s'.lists k).tail = (s.lists k).tail := by
  unfold LinkedList.allocNode newNode at halloc
  split at halloc
  · rename_i x cache hcache
    obtain ⟨hx, rfl⟩ := Prod.mk.inj halloc
    obtain rfl := Option.some.inj hx
    have hperm : (cells (s.lists i) (a i)).Perm
        (x :: cells { s.lists i with nodeCache := cache } (a i)) := by
      simp only [cells, hcache]
      exact ((List.perm_middle.cons _).trans (List.Perm.swap _ _ _) |>.cons _).trans
        (List.Perm.swap _ _ _)
    have hcells : ∀ y, y ∈ cells (s.lists i) (a i) ↔
        y = x ∨ y ∈ cells { s.lists i with nodeCache := cache } (a i) :=
      fun y => hperm.mem_iff.trans List.mem_cons
    obtain ⟨hx, hnodup⟩ := List.nodup_cons.mp (hperm.nodup_iff.mp (h.good i).nodup)
    have hlive := h.live i
    rw [hcache] at hlive
    have hrep : Rep ⟨s.mem, Function.update s.lists i { s.lists i with nodeCache := cache }, s.live⟩
        (Function.update a i (a i)) := Rep.put h
      ⟨(h.good i).links, (h.good i).data, (h.good i).size, hnodup⟩
      (fun y hy => .inl ((hcells y).mpr (.inr hy))) (fun y _ _ => ⟨rfl, rfl, rfl⟩)
      (fun y hy => hlive y ?_) (fun y hy _ _ => hy) h.card
    · have hheld : Held ⟨s.mem, Function.update s.lists i { s.lists i with nodeCache := cache },
          s.live⟩ (Function.update a i (a i)) x :=
        h.held ((hcells x).mpr (.inl rfl)) hx (hlive x (by simp))
      rw [Function.update_eq_self] at hrep hheld
      refine ⟨hrep, hheld, rfl, fun k => ?_⟩
      by_cases hk : k = i
      · subst hk
        simp [Sys.setList]
      · simp [Sys.setList, Function.update_of_ne hk]
    · simp only [List.mem_append, List.mem_cons] at hy ⊢
      tauto
  · cases fresh with
    | none => simp at halloc
    | some x =>
      obtain ⟨hx, rfl⟩ := Prod.mk.inj halloc
      obtain rfl := Option.some.inj hx
      obtain ⟨hlive, hends, hcard⟩ := hnew x rfl
      refine ⟨⟨h.good, h.owner, fun k y hy => Finset.mem_insert_of_mem (h.live k y hy), ?_⟩,
        ⟨Finset.mem_insert_self _ _, fun k hk => ?_⟩, rfl, fun k => ⟨rfl, rfl⟩⟩
      · rw [Finset.card_insert_of_notMem hlive]
        exact hcard
      · rcases mem_cells.mp hk with hk | hk | hk
        · exact (hends k).1 hk
        · exact (hends k).2 hk
        · exact hlive (h.live k x (List.mem_append.mpr hk))

theorem allocNode_none (halloc : allocNode i fresh s = (none, s')) : s' = s := by
  unfold allocNode newNode at halloc
  split at halloc
  · simp at halloc
  · cases fresh with
    | none => exact (Prod.mk.inj halloc).2.symm
    | some x => simp at halloc

/-- A held node goes to a cache or is deleted. -/
theorem Rep.freeNode (h : Rep s a) (hheld : Held s a n) : Rep (freeNode i n s) a := by
  unfold LinkedList.freeNode
  split
  · have hperm : (cells { s.lists i with nodeCache := n :: (s.lists i).nodeCache } (a i)).Perm
        (n :: cells (s.lists i) (a i)) := by
      simp only [cells]
      exact ((List.perm_middle.cons _).trans (List.Perm.swap _ _ _) |>.cons _).trans
        (List.Perm.swap _ _ _)
    have hrep : Rep ⟨s.mem, Function.update s.lists i
        { s.lists i with nodeCache := n :: (s.lists i).nodeCache }, s.live⟩
        (Function.update a i (a i)) := Rep.put h
      ⟨(h.good i).links, (h.good i).data, (h.good i).size,
        hperm.nodup_iff.mpr (List.nodup_cons.mpr ⟨hheld.apart i, (h.good i).nodup⟩)⟩
      (fun x hx => ?_) (fun x _ _ => ⟨rfl, rfl, rfl⟩) (fun x hx => ?_) (fun x hx _ _ => hx) h.card
    · rw [Function.update_eq_self] at hrep
      exact hrep
    · rcases List.mem_cons.mp (hperm.mem_iff.mp hx) with rfl | hx
      · exact .inr hheld.apart
      · exact .inl hx
    · have hlive := h.live i
      simp only [List.mem_append, List.mem_cons] at hx hlive
      rcases hx with hx | rfl | hx
      · exact hlive x (.inl hx)
      · exact hheld.live
      · exact hlive x (.inr hx)
  · refine ⟨h.good, h.owner, fun k x hx => Finset.mem_erase.mpr ⟨?_, h.live k x hx⟩,
      (Finset.card_le_card (Finset.erase_subset _ _)).trans h.card⟩
    rintro rfl
    exact hheld.apart k (List.mem_cons_of_mem _ (List.mem_cons_of_mem _ hx))

/-! ## The writes of the source at a place in a list -/

omit [DecidableEq N] [DecidableEq ι] in
theorem exists_sides (o : LinkedList N) (u v : List (N × D)) :
    ∃ U p q V, o.head :: nodes u = U ++ [p] ∧ nodes v ++ [o.tail] = q :: V := by
  obtain ⟨q, V, hv⟩ := List.exists_cons_of_ne_nil
    (List.append_ne_nil_of_right_ne_nil (nodes v) (List.cons_ne_nil o.tail []))
  exact ⟨_, _, q, V, (List.dropLast_append_getLast (List.cons_ne_nil o.head (nodes u))).symm, hv⟩

omit [DecidableEq N] [DecidableEq ι] in
theorem Good.adjacent (h : Good m o (u ++ v)) {U V : List N} {q : N}
    (hu : o.head :: nodes u = U ++ [p]) (hv : nodes v ++ [o.tail] = q :: V) :
    m.next p = q ∧ m.prev q = p := by
  have hlinks := h.links
  rw [nodes_append, ← List.cons_append, List.append_assoc, hu, hv, List.append_assoc] at hlinks
  exact (linked_split.mp hlinks).2.1

section Place

variable {q : N} {U V : List N}

theorem Rep.linkBefore (h : Rep s a) (hheld : Held s a n) (hsplit : a i = u ++ v)
    (hv : nodes v ++ [(s.lists i).tail] = q :: V) :
    Rep (Sys.addSize { s with mem := (s.mem.linkBefore n q).setData n d } i 1)
      (Function.update a i (u ++ (n, d) :: v)) := by
  obtain ⟨U, p, _, _, hu, -⟩ := exists_sides (s.lists i) u v
  have hgood := h.good i
  have hn := hheld.apart i
  rw [hsplit] at hgood hn
  obtain ⟨hp, hq⟩ := mem_cells_sides hu hv
  exact h.insert hheld hsplit hu hv (inserted_linkBefore (fun hnp => hn (hnp ▸ hp))
    (fun hnq => hn (hnq ▸ hq)) (hgood.adjacent hu hv).2)

theorem Rep.linkAfter (h : Rep s a) (hheld : Held s a n) (hsplit : a i = u ++ v)
    (hu : (s.lists i).head :: nodes u = U ++ [p]) :
    Rep (Sys.addSize { s with mem := (s.mem.linkAfter n p).setData n d } i 1)
      (Function.update a i (u ++ (n, d) :: v)) := by
  obtain ⟨_, _, q, V, -, hv⟩ := exists_sides (s.lists i) u v
  have hgood := h.good i
  have hn := hheld.apart i
  rw [hsplit] at hgood hn
  obtain ⟨hp, hq⟩ := mem_cells_sides hu hv
  exact h.insert hheld hsplit hu hv (inserted_linkAfter (fun hnp => hn (hnp ▸ hp))
    (fun hnq => hn (hnq ▸ hq)) (hgood.adjacent hu hv).1)

omit [DecidableEq N] [DecidableEq ι] in
/-- The links of an element. -/
theorem Good.around (h : Good m o (u ++ e :: v)) (hu : o.head :: nodes u = U ++ [p])
    (hv : nodes v ++ [o.tail] = q :: V) :
    m.prev e.1 = p ∧ m.next e.1 = q ∧ e.1 ≠ p ∧ e.1 ≠ q := by
  have hu' : o.head :: nodes (u ++ [e]) = (o.head :: nodes u) ++ [e.1] := by
    rw [nodes_append]
    rfl
  have hv' : nodes (e :: v) ++ [o.tail] = e.1 :: (nodes v ++ [o.tail]) := rfl
  have h' : Good m o ((u ++ [e]) ++ v) := by
    rw [List.append_assoc]
    exact h
  obtain ⟨hp, hq⟩ := mem_cells_sides hu hv
  have hne := (List.nodup_cons.mp (cells_perm.nodup_iff.mp h.nodup)).1
  exact ⟨(h.adjacent hu hv').2, (h'.adjacent hu' hv).1, fun he => hne (he ▸ hp),
    fun he => hne (he ▸ hq)⟩

theorem Rep.unlink (h : Rep s a) (hsplit : a i = u ++ e :: v) :
    Rep (Sys.addSize { s with mem := s.mem.unlink e.1 } i (-1)) (Function.update a i (u ++ v)) ∧
      Held (Sys.addSize { s with mem := s.mem.unlink e.1 } i (-1))
        (Function.update a i (u ++ v)) e.1 := by
  obtain ⟨U, p, q, V, hu, hv⟩ := exists_sides (s.lists i) u v
  have hgood := h.good i
  rw [hsplit] at hgood
  obtain ⟨hp, hq, hne, -⟩ := hgood.around hu hv
  have hj := joined_unlink (m := s.mem) (n := e.1) (by rwa [hp])
  rw [hp, hq] at hj
  exact h.remove hsplit hu hv hj

end Place

theorem freeNode_addSize {k : Int} :
    freeNode i n (s.addSize i k) = (freeNode i n s).addSize i k := by
  unfold LinkedList.freeNode Sys.addSize Sys.setList
  simp only [Function.update_self, Function.update_idem]
  split <;> simp

theorem Rep.removeNode (h : Rep s a) (hsplit : a i = u ++ e :: v) :
    Rep (LinkedList.remove i e.1 s) (Function.update a i (u ++ v)) := by
  obtain ⟨hrep, hheld⟩ := h.unlink hsplit
  rw [LinkedList.remove, ← freeNode_addSize]
  exact hrep.freeNode hheld

/-! ## Sequences -/

omit [DecidableEq N] [DecidableEq ι] in
/-- An iterator of a list points at an element. -/
theorem Rep.at_iff (h : Rep s a) : s.At i n ↔ n ∈ nodes (a i) := by
  have hgood := h.good i
  have htail : (s.lists i).tail ∉ nodes (a i) := by
    have hnodup := hgood.nodup_links
    rw [← List.concat_eq_append, List.nodup_concat] at hnodup
    exact fun hx => hnodup.1 (List.mem_cons_of_mem _ hx)
  exact (hgood.links.chain_next htail).onChain_iff

omit [DecidableEq N] [DecidableEq ι] in
theorem Good.exists_split (h : Good m o l) (hn : n ∈ nodes l) :
    ∃ u d v, l = u ++ (n, d) :: v ∧ n ∉ nodes u ∧ n ∉ nodes v := by
  obtain ⟨⟨_, d⟩, he, rfl⟩ := List.mem_map.mp hn
  obtain ⟨u, v, rfl⟩ := List.append_of_mem he
  have hnodup := h.nodup_nodes
  rw [nodes_append, nodes_cons, List.nodup_middle, List.nodup_cons, List.mem_append, not_or]
    at hnodup
  exact ⟨u, d, v, rfl, hnodup.1⟩

end Nodes

section Sequence

variable [DecidableEq N]

theorem seqErase_of_notMem (hn : n ∉ nodes l) : seqErase n l = l :=
  List.filter_eq_self.mpr fun _ he =>
    decide_eq_true fun hen => hn (hen ▸ List.mem_map_of_mem he)

theorem seqAt_of_notMem (hn : n ∉ nodes l) : seqAt n l = [] :=
  List.filter_eq_nil_iff.mpr fun _ he hen =>
    hn (of_decide_eq_true hen ▸ List.mem_map_of_mem he)

theorem seqErase_split (hu : n ∉ nodes u) (hv : n ∉ nodes v) :
    seqErase n (u ++ (n, d) :: v) = u ++ v := by
  have h := congrArg₂ (· ++ ·) (seqErase_of_notMem hu) (seqErase_of_notMem hv)
  simpa [seqErase] using h

theorem seqAt_split (hu : n ∉ nodes u) (hv : n ∉ nodes v) :
    seqAt n (u ++ (n, d) :: v) = [(n, d)] := by
  have hu' := seqAt_of_notMem hu
  have hv' := seqAt_of_notMem hv
  simp only [seqAt] at hu' hv' ⊢
  simp [hu', hv']

theorem seqBefore_of_notMem (hp : p ∉ nodes l) : seqBefore p e l = l ++ [e] := by
  have hne : ∀ x ∈ l, decide (x.1 ≠ p) = true := fun x hx =>
    decide_eq_true fun hxp : x.1 = p => hp (hxp ▸ List.mem_map_of_mem hx)
  rw [seqBefore, List.takeWhile_eq_self_iff.mpr hne, List.dropWhile_eq_nil_iff.mpr hne]

theorem seqBefore_split (hu : p ∉ nodes u) :
    seqBefore p e (u ++ (p, d) :: v) = u ++ e :: (p, d) :: v := by
  have hne : ∀ x ∈ u, decide (x.1 ≠ p) = true := fun x hx =>
    decide_eq_true fun hxp : x.1 = p => hu (hxp ▸ List.mem_map_of_mem hx)
  rw [seqBefore, List.takeWhile_append_of_pos hne, List.dropWhile_append_of_pos hne]
  simp

omit [DecidableEq N] in
theorem nodes_reverse : nodes l.reverse = (nodes l).reverse := List.map_reverse

theorem seqAfter_of_notMem (hp : p ∉ nodes l) : seqAfter p e l = e :: l := by
  rw [seqAfter, seqBefore_of_notMem (by rwa [nodes_reverse, List.mem_reverse])]
  simp

theorem seqAfter_split (hv : p ∉ nodes v) :
    seqAfter p e (u ++ (p, d) :: v) = u ++ (p, d) :: e :: v := by
  have hrev : (u ++ (p, d) :: v).reverse = v.reverse ++ (p, d) :: u.reverse := by simp
  rw [seqAfter, hrev, seqBefore_split (by rwa [nodes_reverse, List.mem_reverse])]
  simp

end Sequence

end LinkedList

end CoroCore
