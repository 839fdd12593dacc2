import CoroCore.Utils.LinkedListLinks

/-!
# Runs of the linked lists

Each operation keeps `Rep`, with the sequences that `absStep` gives.

`run_refines`: after any operations on any number of lists, each list holds its sequence in both
directions with the right size, and no node is in two places (`Refines`). Valid iterators cause no
panic and `clear` ends (`Proceeds`), and operations that move nodes keep the elements (`Moves`).
-/

namespace CoroCore

open Lib

namespace LinkedList

variable {N D ι : Type*} [DecidableEq N] [DecidableEq ι] {s s' : Sys N D ι}
  {a a' : ι → List (N × D)} {m : Mem N D} {i j : ι} {n p : N} {d : D} {fresh : Option N}
  {act : Act N D ι}

/-! ## Operations on one list -/

theorem Rep.pushBack (h : Rep s a) (hnew : s.CanNew fresh) : Rep (pushBack i d fresh s)
    (Function.update a i (a i ++ ((LinkedList.allocNode i fresh s).1.map (·, d)).toList)) := by
  unfold LinkedList.pushBack
  split
  · rename_i s' halloc
    obtain rfl := allocNode_none halloc
    simpa [halloc] using h
  · rename_i n s' halloc
    obtain ⟨hrep, hheld, -, -⟩ := h.allocNode hnew halloc
    rw [halloc]
    exact hrep.linkBefore hheld (List.append_nil _).symm rfl

theorem Rep.pushFront (h : Rep s a) (hnew : s.CanNew fresh) : Rep (pushFront i d fresh s)
    (Function.update a i (((LinkedList.allocNode i fresh s).1.map (·, d)).toList ++ a i)) := by
  unfold LinkedList.pushFront
  split
  · rename_i s' halloc
    obtain rfl := allocNode_none halloc
    simpa [halloc] using h
  · rename_i n s' halloc
    obtain ⟨hrep, hheld, -, -⟩ := h.allocNode hnew halloc
    rw [halloc]
    exact hrep.linkAfter hheld (List.nil_append _).symm (List.nil_append _).symm

theorem Rep.popFront (h : Rep s a) :
    Rep (popFront i s) (Function.update a i (a i).tail) := by
  have hgood := h.good i
  unfold LinkedList.popFront
  cases hl : a i with
  | nil =>
    rw [hl] at hgood
    have hnext := (hgood.adjacent (u := []) (v := []) (U := []) rfl rfl).1
    rw [if_pos hnext, List.tail_nil, ← hl, Function.update_eq_self]
    exact h
  | cons e v =>
    rw [hl] at hgood
    have hnext : s.mem.next (s.lists i).head = e.1 :=
      (hgood.adjacent (u := []) (v := e :: v) (U := []) rfl rfl).1
    have htail : e.1 ≠ (s.lists i).tail := by
      obtain ⟨U, p, q, V, hu, hv⟩ := exists_sides (s.lists i) ([] : List (N × D)) v
      have hne := (List.nodup_cons.mp ((cells_perm (u := [])).nodup_iff.mp hgood.nodup)).1
      exact fun he => hne (mem_cells.mpr (.inr (.inl he)))
    simp only [hnext, if_neg htail, List.tail_cons]
    exact h.removeNode (u := []) hl

theorem Rep.popBack (h : Rep s a) :
    Rep (popBack i s) (Function.update a i (a i).dropLast) := by
  have hgood := h.good i
  unfold LinkedList.popBack
  rcases List.eq_nil_or_concat (a i) with hl | ⟨u, e, hl⟩
  · rw [hl] at hgood ⊢
    have hprev := (hgood.adjacent (u := []) (v := []) (U := []) rfl rfl).2
    rw [if_pos hprev, List.dropLast_nil, ← hl, Function.update_eq_self]
    exact h
  · rw [List.concat_eq_append] at hl
    rw [hl] at hgood ⊢
    have hne := (List.nodup_cons.mp (cells_perm.nodup_iff.mp hgood.nodup)).1
    have hprev : s.mem.prev (s.lists i).tail = e.1 := by
      have hgood' : Good s.mem (s.lists i) ((u ++ [e]) ++ []) := by rwa [List.append_nil]
      refine (hgood'.adjacent (U := (s.lists i).head :: nodes u) ?_ rfl).2
      rw [nodes_append]
      rfl
    have hhead : e.1 ≠ (s.lists i).head := fun he => hne (mem_cells.mpr (.inl he))
    simp only [hprev, if_neg hhead, List.dropLast_concat]
    have hrem := h.removeNode (v := []) hl
    rwa [List.append_nil] at hrem

theorem Rep.erase (h : Rep s a) (hat : s.At i n) (herase : erase i n s = some s') :
    Rep s' (Function.update a i (seqErase n (a i))) := by
  obtain ⟨u, d, v, hl, hu, hv⟩ := (h.good i).exists_split (h.at_iff.mp hat)
  unfold LinkedList.erase at herase
  split at herase
  · simp at herase
  · obtain rfl := Option.some.inj herase
    rw [hl, seqErase_split hu hv]
    exact h.removeNode hl

theorem Rep.insertBefore (h : Rep s a) (hnew : s.CanNew fresh)
    (hat : s.At i p ∨ p = (s.lists i).tail) (halloc : (LinkedList.allocNode i fresh s).1 = some n)
    (hins : insertBefore i p d fresh s = some s') :
    Rep s' (Function.update a i (seqBefore p (n, d) (a i))) := by
  unfold LinkedList.insertBefore at hins
  split at hins
  · simp at hins
  split at hins
  · simp at hins
  rename_i n' s1 halloc'
  obtain rfl : n' = n := by simpa [halloc'] using halloc
  obtain rfl := Option.some.inj hins
  obtain ⟨hrep, hheld, -, hends⟩ := h.allocNode hnew halloc'
  rcases hat with hat | rfl
  · obtain ⟨u, d', v, hl, hu, hv⟩ := (h.good i).exists_split (h.at_iff.mp hat)
    rw [hl, seqBefore_split hu]
    exact hrep.linkBefore hheld hl rfl
  · rw [seqBefore_of_notMem (h.good i).ends_notMem.2, ← (hends i).2]
    exact hrep.linkBefore hheld (List.append_nil _).symm rfl

theorem Rep.insertAfter (h : Rep s a) (hnew : s.CanNew fresh)
    (hat : s.At i p ∨ p = (s.lists i).head) (halloc : (LinkedList.allocNode i fresh s).1 = some n)
    (hins : insertAfter i p d fresh s = some s') :
    Rep s' (Function.update a i (seqAfter p (n, d) (a i))) := by
  unfold LinkedList.insertAfter at hins
  split at hins
  · simp at hins
  split at hins
  · simp at hins
  rename_i n' s1 halloc'
  obtain rfl : n' = n := by simpa [halloc'] using halloc
  obtain rfl := Option.some.inj hins
  obtain ⟨hrep, hheld, -, hends⟩ := h.allocNode hnew halloc'
  rcases hat with hat | rfl
  · obtain ⟨u, d', v, hl, hu, hv⟩ := (h.good i).exists_split (h.at_iff.mp hat)
    rw [hl, seqAfter_split hv]
    have hl' : a i = (u ++ [(p, d')]) ++ v := by rw [hl, List.append_assoc]; rfl
    have hlink := hrep.linkAfter (d := d) (U := (s1.lists i).head :: nodes u) (p := p) hheld hl'
      (by rw [nodes_append]; rfl)
    rw [List.append_assoc] at hlink
    exact hlink
  · rw [seqAfter_of_notMem (h.good i).ends_notMem.1, ← (hends i).1]
    exact hrep.linkAfter hheld (List.nil_append _).symm (List.nil_append _).symm

omit [DecidableEq N] in
theorem addSize_addSize (h : Rep s a) (hj : 0 < (a i).length) (m' m'' : Mem N D) :
    Sys.addSize { Sys.addSize { s with mem := m' } i (-1) with mem := m'' } i 1 =
      { s with mem := m'' } := by
  have hsize := (h.good i).size
  have hlen : (nodes (a i)).length ≤ maxNodes :=
    h.length_le (h.good i).nodup_nodes fun x hx => h.live i x (List.mem_append_left _ hx)
  rw [length_nodes] at hlen
  have hback : (((s.lists i).size + -1).bmod (2 ^ 32) + 1).bmod (2 ^ 32) = (s.lists i).size := by
    rw [Int.bmod_add_bmod, Int.neg_add_cancel_right, Int.bmod_eq_of_le]
    · omega
    · simp only [maxNodes] at hlen
      omega
  simp only [Sys.addSize, Sys.setList, Function.update_self, Function.update_idem, hback,
    Function.update_eq_self]

theorem Rep.moveToFront (h : Rep s a) (hat : s.At i n) (hmove : moveToFront i n s = some s') :
    Rep s' (Function.update a i (seqAt n (a i) ++ seqErase n (a i))) := by
  obtain ⟨u, d, v, hl, hu, hv⟩ := (h.good i).exists_split (h.at_iff.mp hat)
  rw [hl, seqAt_split hu hv, seqErase_split hu hv]
  have hgood := h.good i
  rw [hl] at hgood
  unfold LinkedList.moveToFront at hmove
  split at hmove
  · simp at hmove
  split at hmove
  · rename_i hprev
    obtain rfl := Option.some.inj hmove
    -- the element is the first one already
    obtain ⟨U, p, q, V, hU, hV⟩ := exists_sides (s.lists i) u v
    have hp : p = (s.lists i).head := (hgood.around hU hV).1.symm.trans hprev
    have hnil : u = [] := by
      cases u with
      | nil => rfl
      | cons e u =>
        exfalso
        have hU' : U ≠ [] := by
          rintro rfl
          simp [nodes_cons] at hU
        obtain ⟨x, U, rfl⟩ := List.exists_cons_of_ne_nil hU'
        obtain ⟨rfl, htl⟩ := List.cons.inj (hU.trans (List.cons_append ..))
        refine hgood.ends_notMem.1 ?_
        rw [nodes_append, htl, ← hp]
        simp
    subst hnil
    rw [List.nil_append, List.singleton_append, ← List.nil_append ((n, d) :: v), ← hl,
      Function.update_eq_self]
    exact h
  · obtain rfl := Option.some.inj hmove
    obtain ⟨hrep, hheld⟩ := h.unlink hl
    have hlink := hrep.linkAfter (d := d) (i := i) (u := []) (v := u ++ v)
      (p := (s.lists i).head) hheld (by simp) (U := []) (by simp [Sys.addSize, Sys.setList, nodes])
    have hdata : d = s.mem.data n := (hgood.data (n, d) (by simp)).symm
    have hmem : ((s.mem.unlink n).linkAfter n (s.lists i).head).setData n d =
        (s.mem.unlink n).linkAfter n (s.lists i).head := by
      rw [Mem.setData, hdata]
      exact congrArg _ (Function.update_eq_self n s.mem.data)
    have hpos : 0 < (a i).length := by
      rw [hl, List.length_append, List.length_cons]
      omega
    have hback := addSize_addSize h (i := i) hpos (s.mem.unlink n)
      ((s.mem.unlink n).linkAfter n (s.lists i).head)
    rw [Function.update_idem] at hlink
    rw [← hback, ← hmem]
    exact hlink

/-! ## Operations that empty a list -/

theorem clearLoop_chain {tail : N} {w : List N} : ∀ {fuel : Nat} {n : N} {live : Finset N},
    Chain m.next tail n w → clearLoop m tail fuel n live =
      if w.length < fuel then some (w.foldl Finset.erase live) else none := by
  intro fuel
  induction fuel generalizing w with
  | zero => exact fun _ => rfl
  | succ fuel ih =>
    intro n live h
    cases w with
    | nil =>
      rw [clearLoop, if_pos (chain_nil.mp h)]
      rfl
    | cons x w =>
      obtain ⟨rfl, hne, hw⟩ := h
      rw [clearLoop, if_neg hne, ih hw, List.length_cons]
      simp only [Nat.add_lt_add_iff_right, List.foldl_cons]

theorem mem_foldl_erase {w : List N} {x : N} : ∀ {live : Finset N},
    x ∈ w.foldl Finset.erase live ↔ x ∈ live ∧ x ∉ w := by
  induction w with
  | nil => simp
  | cons y w ih =>
    intro live
    rw [List.foldl_cons, ih, Finset.mem_erase, List.mem_cons]
    tauto

theorem Rep.clear (h : Rep s a) {fuel : Nat} (hclear : clear fuel i s = some s') :
    Rep s' (Function.update a i []) := by
  have hgood := h.good i
  have hchain := hgood.links.chain_next hgood.ends_notMem.2
  unfold LinkedList.clear at hclear
  dsimp only at hclear
  rw [clearLoop_chain hchain] at hclear
  split at hclear
  · obtain rfl := Option.some.inj hclear
    have hne : (s.lists i).head ≠ (s.lists i).tail := fun he =>
      (List.nodup_cons.mp hgood.nodup).1 (he ▸ List.mem_cons_self)
    have hj : Joined s.mem ((s.mem.setNext (s.lists i).head (s.lists i).tail).setPrev
        (s.lists i).tail (s.lists i).head) (s.lists i).head (s.lists i).tail := by
      refine ⟨?_, ?_, fun x hx => ?_, fun x hx => ?_, rfl⟩ <;> simp [Mem.setNext, Mem.setPrev, *]
    refine Rep.put h (hgood.empty hj (List.nil_sublist _)) (fun x hx => .inl ?_)
      (fun x hx _ => ?_) (fun _ hx => absurd hx List.not_mem_nil) (fun x hx hi _ => ?_) ?_
    · rw [mem_cells] at hx ⊢
      simp only [nodes, List.map_nil, List.not_mem_nil, or_false] at hx
      tauto
    · rw [mem_cells, not_or, not_or] at hx
      exact ⟨hj.next_other x hx.1, hj.prev_other x hx.2.1, rfl⟩
    · rw [mem_cells] at hi
      exact mem_foldl_erase.mpr ⟨mem_foldl_erase.mpr ⟨hx, fun hn => hi (.inr (.inr (.inl hn)))⟩,
        fun hc => hi (.inr (.inr (.inr hc)))⟩
    · refine (Finset.card_le_card fun x hx => ?_).trans h.card
      exact (mem_foldl_erase.mp (mem_foldl_erase.mp hx).1).1
  · simp at hclear

/-! ## Operations on two lists -/

omit [DecidableEq N] in
theorem addSize_comm {k k' : Int} (hij : i ≠ j) :
    (s.addSize i k).addSize j k' = (s.addSize j k').addSize i k := by
  simp only [Sys.addSize, Sys.setList, Function.update_of_ne hij, Function.update_of_ne hij.symm]
  rw [Function.update_comm hij]

theorem Rep.mergeAt (h : Rep s a) (hij : i ≠ j) (hat : s.At j n ∨ n = (s.lists j).tail) :
    Rep (mergeAt i j n s)
      (Function.update (Function.update a i (a i ++ seqAt n (a j))) j (seqErase n (a j))) := by
  unfold LinkedList.mergeAt
  split
  · rename_i hn
    have hmem : n ∉ nodes (a j) := hn ▸ (h.good j).ends_notMem.2
    rw [seqAt_of_notMem hmem, seqErase_of_notMem hmem, List.append_nil, Function.update_eq_self,
      Function.update_eq_self]
    exact h
  · rename_i hn
    obtain ⟨u, d, v, hl, hu, hv⟩ :=
      (h.good j).exists_split (h.at_iff.mp (hat.resolve_right hn))
    rw [hl, seqAt_split hu hv, seqErase_split hu hv, Function.update_comm hij]
    have hgood := h.good j
    rw [hl] at hgood
    obtain ⟨U, p, q, V, hU, hV⟩ := exists_sides (s.lists j) u v
    have hprev : n ≠ s.mem.prev n := by
      rw [(hgood.around hU hV).1]
      exact (hgood.around hU hV).2.2.1
    obtain ⟨hrep, hheld⟩ := h.unlink hl
    have hai : Function.update a j (u ++ v) i = a i ++ [] := by
      rw [Function.update_of_ne hij, List.append_nil]
    obtain ⟨U, p, _, _, hU, -⟩ :=
      exists_sides ((Sys.addSize { s with mem := s.mem.unlink n } j (-1)).lists i) (a i) []
    have hgood' := hrep.good i
    have hn' := hheld.apart i
    rw [hai] at hgood' hn'
    obtain ⟨hp, ht⟩ := mem_cells_sides (v := []) hU rfl
    have hlists : (Sys.addSize { s with mem := s.mem.unlink n } j (-1)).lists i = s.lists i :=
      Function.update_of_ne hij _ _
    have hins := inserted_transfer hprev (fun hnp => hn' (hnp ▸ hp)) (fun hnt => hn' (hnt ▸ ht))
      (hgood'.adjacent hU rfl).2
    have hrep' := hrep.insert hheld hai hU rfl hins
    rw [hlists] at hrep'
    have hd : s.mem.data n = d := hgood.data (n, d) (by simp)
    rw [hd] at hrep'
    rw [addSize_comm hij]
    exact hrep'

theorem Rep.merge (h : Rep s a) (hij : i ≠ j) : Rep (merge i j s)
    (Function.update (Function.update a i (a i ++ a j)) j []) := by
  have hgood := h.good j
  unfold LinkedList.merge
  rcases List.eq_nil_or_concat (a j) with hl | ⟨W, g, hl⟩
  · rw [hl] at hgood
    have hnext := (hgood.adjacent (u := []) (v := []) (U := []) rfl rfl).1
    rw [if_pos hnext, hl, List.append_nil, Function.update_eq_self, ← hl, Function.update_eq_self]
    exact h
  rw [List.concat_eq_append] at hl
  obtain ⟨e, w, hl'⟩ := List.exists_cons_of_ne_nil
    (by rw [hl]; simp : a j ≠ [])
  have hf : nodes (a j) = e.1 :: nodes w := by rw [hl', nodes_cons]
  have hb : nodes (a j) = nodes W ++ [g.1] := by rw [hl, nodes_append]; rfl
  have hmf : e.1 ∈ nodes (a j) := hf ▸ List.mem_cons_self
  have hmb : g.1 ∈ nodes (a j) := by rw [hb]; simp
  -- the links that are read
  have hnext : s.mem.next (s.lists j).head = e.1 := by
    have hg := hgood
    rw [hl'] at hg
    exact (hg.adjacent (u := []) (v := e :: w) (U := []) rfl rfl).1
  have hprev : s.mem.prev (s.lists j).tail = g.1 := by
    have hg : Good s.mem (s.lists j) (a j ++ []) := by rwa [List.append_nil]
    refine (hg.adjacent (U := (s.lists j).head :: nodes W) ?_ rfl).2
    rw [hb]
    rfl
  obtain ⟨U, p, _, _, hU, -⟩ := exists_sides (s.lists i) (a i) []
  have hgi : Good s.mem (s.lists i) (a i ++ []) := by
    rw [List.append_nil]
    exact h.good i
  have hp : s.mem.prev (s.lists i).tail = p := (hgi.adjacent hU rfl).2
  have hpi : p ∈ cells (s.lists i) (a i) := by
    have hpi := (mem_cells_sides (v := []) (o := s.lists i) hU rfl).1
    rwa [List.append_nil] at hpi
  -- cells of the two lists differ
  have hne : ∀ x ∈ cells (s.lists i) (a i), ∀ y ∈ cells (s.lists j) (a j), x ≠ y :=
    fun x hx y hy hxy => hij (h.owner i j x hx (hxy ▸ hy))
  have hjn : ∀ x ∈ nodes (a j), x ∈ cells (s.lists j) (a j) := fun x hx =>
    mem_cells.mpr (.inr (.inr (.inl hx)))
  have hti : (s.lists i).tail ∈ cells (s.lists i) (a i) := mem_cells.mpr (.inr (.inl rfl))
  have hhj : (s.lists j).head ∈ cells (s.lists j) (a j) := mem_cells.mpr (.inl rfl)
  have htj : (s.lists j).tail ∈ cells (s.lists j) (a j) := mem_cells.mpr (.inr (.inl rfl))
  have hends := hgood.ends_notMem
  have hsp := spliced_splice hp hnext hprev (hne p hpi _ hhj) (hne p hpi _ (hjn _ hmb))
    (fun he => hends.1 (he ▸ hmb)) (hne _ hti _ (hjn _ hmf)).symm (fun he => hends.2 (he ▸ hmf))
    (hne _ hti _ htj)
  have hhead : e.1 ≠ (s.lists j).tail := fun he => hends.2 (he ▸ hmf)
  simp only [hnext, if_neg hhead]
  -- first the other list is emptied, then its nodes are put in
  have hjoin : Joined s.mem ((s.mem.setNext (s.lists j).head (s.lists j).tail).setPrev
      (s.lists j).tail (s.lists j).head) (s.lists j).head (s.lists j).tail := by
    refine ⟨?_, ?_, fun x hx => ?_, fun x hx => ?_, rfl⟩ <;> simp [Mem.setNext, Mem.setPrev, *]
  obtain ⟨hdrop, hheld⟩ := h.drop hjoin
  have hgood' := hdrop.good i
  simp only [Function.update_of_ne hij] at hgood'
  have hnodup := hgood.nodup_nodes
  have hlinks : Linked (s.mem.splice (s.lists i).tail (s.lists j).head (s.lists j).tail).next
      (s.mem.splice (s.lists i).tail (s.lists j).head (s.lists j).tail).prev (nodes (a j)) := by
    have hlj : Linked s.mem.next s.mem.prev (nodes (a j)) :=
      (List.isChain_append.mp hgood.links).1.tail
    refine hlj.congr_ends (fun x hx => ?_) fun x hx => ?_
    · have hxn := List.dropLast_subset _ hx
      rw [hb, List.dropLast_concat] at hx
      rw [hb, ← List.concat_eq_append, List.nodup_concat] at hnodup
      exact hsp.next_other x (hne p hpi x (hjn x hxn)).symm (fun he => hnodup.1 (he ▸ hx))
        fun he => hends.1 (he ▸ hxn)
    · have hxn := List.mem_of_mem_tail hx
      rw [hf, List.tail_cons] at hx
      rw [hf, List.nodup_cons] at hnodup
      exact hsp.prev_other x (fun he => hnodup.1 (he ▸ hx)) (hne _ hti x (hjn x hxn)).symm
        fun he => hends.2 (he ▸ hxn)
  have happend := hgood'.append hU hf hb hlinks ⟨hsp.next_left, hsp.prev_first⟩
    ⟨hsp.next_last, hsp.prev_right⟩ (fun x hx hxp => ?_) (fun x hx hxt => ?_) hsp.data hgood.data
    hnodup fun x hx hxi => hne x hxi x (hjn x hx) rfl
  rotate_left
  · rw [hjoin.next_other x (hne x hx _ hhj)]
    exact hsp.next_other x hxp (hne x hx _ (hjn _ hmb)) (hne x hx _ hhj)
  · rw [hjoin.prev_other x (hne x hx _ htj)]
    exact hsp.prev_other x (hne x hx _ (hjn _ hmf)) hxt (hne x hx _ htj)
  have hlen : (nodes (a i) ++ nodes (a j)).length ≤ maxNodes := by
    refine h.length_le (List.nodup_append.mpr ⟨(h.good i).nodup_nodes, hnodup, ?_⟩) fun x hx => ?_
    · exact fun x hx y hy => hne x (mem_cells.mpr (.inr (.inr (.inl hx)))) y (hjn y hy)
    · exact (List.mem_append.mp hx).elim (fun hx => h.live i x (List.mem_append_left _ hx))
        fun hx => h.live j x (List.mem_append_left _ hx)
  have hput := Rep.put (i := i) hdrop happend (fun x hx => ?_) (fun x hx hx' => ?_) (fun x hx => ?_)
    (fun x hx _ _ => hx) h.card
  rotate_left
  · simp only [Function.update_of_ne hij]
    rw [mem_cells, nodes_append, List.mem_append] at hx
    rw [mem_cells]
    rcases hx with hx | hx | (hx | hx) | hx
    · exact .inl (.inl hx)
    · exact .inl (.inr (.inl hx))
    · exact .inl (.inr (.inr (.inl hx)))
    · exact .inr (hheld x hx).apart
    · exact .inl (.inr (.inr (.inr hx)))
  · simp only [Function.update_of_ne hij] at hx'
    have hxj : x ∉ nodes (a j) := fun hxj => hx
      (mem_cells.mpr (.inr (.inr (.inl (by rw [nodes_append]; exact List.mem_append_right _ hxj)))))
    refine ⟨?_, ?_, congrFun hsp.data x⟩
    · by_cases hxh : x = (s.lists j).head
      · rw [hxh, hsp.next_head, hjoin.next_left]
      · rw [hjoin.next_other x hxh, hsp.next_other x (fun he => hx' (he ▸ hpi))
          (fun he => hxj (he ▸ hmb)) hxh]
    · by_cases hxt : x = (s.lists j).tail
      · rw [hxt, hsp.prev_tail, hjoin.prev_right]
      · rw [hjoin.prev_other x hxt, hsp.prev_other x (fun he => hxj (he ▸ hmf))
          (fun he => hx' (he ▸ hti)) hxt]
  · rw [nodes_append, List.mem_append, List.mem_append] at hx
    rcases hx with (hx | hx) | hx
    · exact h.live i x (List.mem_append_left _ hx)
    · exact h.live j x (List.mem_append_left _ hx)
    · exact h.live i x (List.mem_append_right _ hx)
  rw [List.length_append, length_nodes, length_nodes] at hlen
  have hsize := (h.good i).size
  have hsize' := hgood.size
  rw [addSize_eq (by simp only [hsize, hsize']; omega) (by simp only [hsize, hsize']; omega)]
  simp only [Sys.setList, Function.update_of_ne hij.symm, hsize']
  rw [Function.update_comm hij, Function.update_comm hij]
  exact hput

/-! ## Runs -/

theorem Rep.step (h : Rep s a) (hstep : Step s act s') : Rep s' (absStep a act) := by
  cases hstep with
  | pushFront hnew => exact h.pushFront hnew
  | pushBack hnew => exact h.pushBack hnew
  | popFront => exact h.popFront
  | popBack => exact h.popBack
  | erase hat he => exact h.erase hat he
  | insertBefore hnew hat halloc hins => exact h.insertBefore hnew hat halloc hins
  | insertAfter hnew hat halloc hins => exact h.insertAfter hnew hat halloc hins
  | moveToFront hat hmove => exact h.moveToFront hat hmove
  | clear hclear => exact h.clear hclear
  | merge hij => exact h.merge hij
  | mergeAt hij hat => exact h.mergeAt hij hat

theorem Rep.run (hrun : Run s a s' a') (h : Rep s a) : Rep s' a' := by
  induction hrun with
  | nil => exact h
  | snoc _ hstep ih => exact (ih h).step hstep

omit [DecidableEq N] [DecidableEq ι] in
theorem Initial.rep (h : Initial s) : Rep s fun _ => [] := by
  have hcells : ∀ i, cells (s.lists i) ([] : List (N × D)) = [(s.lists i).head, (s.lists i).tail] :=
    fun i => by simp [cells, nodes, h.cache i]
  refine ⟨fun i => ⟨?_, fun _ hx => absurd hx List.not_mem_nil, h.size i, ?_⟩,
    fun i j x hx hx' => ?_, fun i x hx => ?_, ?_⟩
  · exact List.isChain_cons_cons.mpr ⟨h.empty i, .singleton _⟩
  · rw [hcells]
    simpa using (h.sentinels i i).1
  · rw [hcells] at hx hx'
    have hij := h.sentinels i j
    have hji := h.sentinels j i
    simp only [List.mem_cons, List.not_mem_nil, or_false] at hx hx'
    rcases hx with rfl | rfl <;> rcases hx' with hx' | hx'
    · exact hij.2.1 hx'
    · exact absurd hx' hij.1
    · exact absurd hx'.symm hji.1
    · exact hij.2.2 hx'
  · simp [nodes, h.cache i] at hx
  · simp [h.live]

omit [DecidableEq N] [DecidableEq ι] in
theorem Rep.refines (h : Rep s a) : Refines s a := by
  have hsub : ∀ i, ∀ x ∈ nodes (a i) ++ (s.lists i).nodeCache, x ∈ cells (s.lists i) (a i) :=
    fun i x hx => List.mem_cons_of_mem _ (List.mem_cons_of_mem _ hx)
  refine ⟨fun i => ?_, fun i => ?_, fun i => (h.good i).data, fun i => (h.good i).size,
    fun i => ?_, fun i j hij x hx hx' => hij (h.owner i j x (hsub i x hx) (hsub j x hx'))⟩
  · exact (h.good i).links.chain_next (h.good i).ends_notMem.2
  · exact (h.good i).links.chain_prev (h.good i).ends_notMem.1
  · exact (List.nodup_cons.mp (List.nodup_cons.mp (h.good i).nodup).2).2

theorem Rep.proceeds (h : Rep s a) : Proceeds s := by
  have hends : ∀ i n, s.At i n → n ≠ (s.lists i).head ∧ n ≠ (s.lists i).tail := fun i n hat =>
    ⟨fun he => (h.good i).ends_notMem.1 (he ▸ h.at_iff.mp hat),
      fun he => (h.good i).ends_notMem.2 (he ▸ h.at_iff.mp hat)⟩
  have hne : ∀ i, (s.lists i).head ≠ (s.lists i).tail := fun i he =>
    (List.nodup_cons.mp (h.good i).nodup).1 (he ▸ List.mem_cons_self)
  refine ⟨fun i n hat => ?_, fun i n hat => ?_, fun i p d fresh n hat halloc => ?_,
    fun i p d fresh n hat halloc => ?_, fun i => ?_⟩
  · exact ⟨_, if_neg (not_or.mpr (hends i n hat))⟩
  · rw [LinkedList.moveToFront, if_neg (not_or.mpr (hends i n hat))]
    split <;> exact ⟨_, rfl⟩
  · have hp : p ≠ (s.lists i).head :=
      hat.elim (fun hat => (hends i p hat).1) fun he hp => hne i (hp.symm.trans he)
    rw [LinkedList.insertBefore, if_neg hp]
    split
    · rename_i heq
      simp [heq] at halloc
    · exact ⟨_, rfl⟩
  · have hp : p ≠ (s.lists i).tail :=
      hat.elim (fun hat => (hends i p hat).2) fun he hp => hne i (he.symm.trans hp)
    rw [LinkedList.insertAfter, if_neg hp]
    split
    · rename_i heq
      simp [heq] at halloc
    · exact ⟨_, rfl⟩
  · have hchain := (h.good i).links.chain_next (h.good i).ends_notMem.2
    refine ⟨(nodes (a i)).length + 1, Option.isSome_iff_exists.mp ?_⟩
    simp only [LinkedList.clear, clearLoop_chain hchain, if_pos (Nat.lt_succ_self _)]
    rfl

theorem Rep.moves (h : Rep s a) (hstep : Step s act s') : Moves a act := by
  cases hstep with
  | @moveToFront _ i n hat _ =>
    obtain ⟨u, d, v, hl, hu, hv⟩ := (h.good i).exists_split (h.at_iff.mp hat)
    simp only [Moves, absStep, Function.update_self]
    rw [hl, seqAt_split hu hv, seqErase_split hu hv, List.singleton_append]
    exact List.perm_middle.symm
  | @merge i j hij =>
    simp only [Moves, absStep, Function.update_self, Function.update_of_ne hij, List.append_nil]
    exact List.Perm.refl _
  | @mergeAt i j n hij hat =>
    simp only [Moves, absStep, Function.update_self, Function.update_of_ne hij]
    rcases hat with hat | rfl
    · obtain ⟨u, d, v, hl, hu, hv⟩ := (h.good j).exists_split (h.at_iff.mp hat)
      rw [hl, seqAt_split hu hv, seqErase_split hu hv, List.append_assoc, List.singleton_append]
      exact List.perm_middle.symm.append_left (a i)
    · have hn := (h.good j).ends_notMem.2
      rw [seqAt_of_notMem hn, seqErase_of_notMem hn, List.append_nil]
  | _ => exact True.intro

/-- After any operations the lists hold the sequences that the operations make. -/
theorem run_refines (hinit : Initial s) (hrun : Run s (fun _ => []) s' a') :
    Refines s' a' ∧ Proceeds s' ∧ ∀ act s'', Step s' act s'' → Moves a' act := by
  have h := Rep.run hrun hinit.rep
  exact ⟨h.refines, h.proceeds, fun _ _ hstep => h.moves hstep⟩

/-- Two new lists, with the sentinels 0, 1 and 2, 3. -/
def twoLists : Sys Nat Nat Bool where
  mem := ⟨fun n => if n = 0 then 1 else 3, fun n => if n = 1 then 0 else 2, fun _ => 0⟩
  lists
    | false => ⟨0, 1, 0, []⟩
    | true => ⟨2, 3, 0, []⟩
  live := ∅

theorem run_refines_merge :
    Refines (merge true false (pushBack false 7 (some 10) (pushFront true 5 (some 11) twoLists)))
      (fun i => if i then [(11, 5), (10, 7)] else []) := by
  have hinit : Initial twoLists :=
    ⟨by decide, by decide, by decide, rfl, by decide⟩
  have hfirst : twoLists.CanNew (some 11) := by
    intro n hn
    obtain rfl := Option.some.inj hn
    decide
  have hsecond : (pushFront true 5 (some 11) twoLists).CanNew (some 10) := by
    intro n hn
    obtain rfl := Option.some.inj hn
    decide
  have hrun := (((Run.nil (a := fun _ => [])).snoc (.pushFront (i := true) (d := 5) hfirst)).snoc
    (.pushBack (i := false) (d := 7) hsecond)).snoc (.merge (i := true) (j := false) (by decide))
  have h := (run_refines hinit hrun).1
  convert h using 1
  funext i
  cases i <;> decide

end LinkedList

end CoroCore
