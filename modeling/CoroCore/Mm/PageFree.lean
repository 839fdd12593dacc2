import CoroCore.Mm.PageMap
import Mathlib.Data.List.Nodup

/-!
# Giving page tables back: `mm/vmem.cc`

* `walkaddr`: the address of a page of the user, which the map knows (`walkaddr_ne_zero`);
* `mappages_page`: `mappages` of a single page, and the panic if it is mapped (`mappages_remap`);
* `freeTablesAt_frees`: `free_pagetable_pages` frees the pages of a tree once, or it panics before
  it frees a page that holds a leaf;
* `freePagetablePages_spec`: if nothing is mapped, it frees the pages of the tree, and no others.
-/

namespace CoroCore.Vmem

open Lib

/-- `allocator::alloc_page`. -/
def Vm.allocPage (s : Vm) : Option (Nat × Vm) :=
  match s.free with
  | [] => none
  | p :: free => some (p, { s with free := free })

/-- `walkaddr`: 0 if the page is not mapped for the user. -/
def walkaddr (root va : Nat) (s : Vm) : Nat :=
  if maxVa ≤ va then 0
  else
    match (walkLevels va false 2 root s).1 with
    | none => 0
    | some (x, i) =>
      if ¬ valid (s.mem x i) then 0
      else if s.mem x i &&& pteU = 0 then 0
      else pte2pa (s.mem x i)

/-- A round of the loop of `free_pagetable_pages`, with the recursive call. -/
def freeEntry (freeChild : Nat → Vm → Except Panic Vm) (table : Nat) (s : Vm) (i : Nat) :
    Except Panic Vm :=
  if valid (s.mem table i) then
    if HasRwx (s.mem table i) then .error .validPage
    else do
      let s ← freeChild (pte2pa (s.mem table i)) s
      return s.write table i 0
  else .ok s

/-- The loop of `free_pagetable_pages` for a table with `levels` levels. Entries below level 0 are
not tables, and to follow them ends nowhere. -/
def freeTables : Nat → Nat → Vm → Except Panic Vm
  | 0, _, _ => .error .runaway
  | levels + 1, table, s => do
    let s ← (List.range 512).foldlM (freeEntry (freeTables levels) table) s
    s.freePage table

/-- `free_pagetable_pages`. -/
def freePagetablePages (root : Nat) (s : Vm) : Except Panic Vm :=
  if root = 0 then .ok s else freeTables 3 root s

/-- `freeEntry`, with the state in which it panics. -/
def freeEntryAt (freeChild : Nat → Vm → Except (Panic × Vm) Vm) (table : Nat) (s : Vm) (i : Nat) :
    Except (Panic × Vm) Vm :=
  if valid (s.mem table i) then
    if HasRwx (s.mem table i) then .error (.validPage, s)
    else do
      let s ← freeChild (pte2pa (s.mem table i)) s
      return s.write table i 0
  else .ok s

/-- `freeTables`, with the state in which it panics. -/
def freeTablesAt : Nat → Nat → Vm → Except (Panic × Vm) Vm
  | 0, _, s => .error (.runaway, s)
  | levels + 1, table, s => do
    let s ← (List.range 512).foldlM (freeEntryAt (freeTablesAt levels) table) s
    (s.freePage table).mapError (·, s)

/-- `free_pagetable_pages`, with the state in which it panics. -/
def freePagetablePagesAt (root : Nat) (s : Vm) : Except (Panic × Vm) Vm :=
  if root = 0 then .ok s else freeTablesAt 3 root s

/-! ## Pages of the user -/

variable {root va x i e n k pa perm d table : Nat} {s s' : Vm} {m : PageMap}

/-- The flags of a mapped page are those that it was mapped with. -/
theorem leafPte_and_user (pa perm : Nat) : leafPte pa perm &&& pteU = perm &&& pteU := by
  have hpa : pa2pte pa &&& pteU = 0 := by
    have hmod : (pa2pte pa &&& pteU) % 2 ^ 10 = 0 := by
      have h0 : pa2pte pa % 2 ^ 10 = 0 := Nat.mul_mod_left _ _
      rw [Nat.and_mod_two_pow, h0, Nat.zero_and]
    have hle : pa2pte pa &&& pteU ≤ pteU := Nat.and_le_right
    rwa [Nat.mod_eq_of_lt (hle.trans_lt (by decide))] at hmod
  have hv : pteV &&& pteU = 0 := rfl
  rw [leafPte, Nat.and_or_distrib_right, Nat.and_or_distrib_right, hpa, hv,
    Nat.zero_or, Nat.or_zero]

/-- `walkaddr` goes by the entry that `walk` finds. -/
theorem walkaddr_lookup (hva : va < maxVa) : walkaddr root va s =
    ((lookup root va s).map fun e => if e &&& pteU = 0 then 0 else pte2pa e).getD 0 := by
  rw [walkaddr, if_neg hva.not_ge, walkLevels_read, lookup, walk_read hva]
  cases Radix.node child s.mem root (path 2 va) with
  | none => rfl
  | some x =>
    by_cases hv : valid (s.mem x (px 0 va))
    · simp [hv]
    · simp [hv]

/-- `walkaddr` finds the pages that are mapped for the user. -/
theorem walkaddr_ne_zero (hr : Refines root s m) (hva : va < maxVa) :
    walkaddr root va s ≠ 0 ↔
      ∃ f, m (va / pgSize) = some f ∧ f.2 &&& pteU ≠ 0 ∧ frame f ≠ 0 := by
  rw [walkaddr_lookup hva, hr.lookup va hva]
  cases m (va / pgSize) with
  | none => simp
  | some f =>
    simp only [Option.map_some, Option.getD_some, leafPte_and_user, Option.some.injEq,
      exists_eq_left']
    split
    · rename_i hu
      simp [hu]
    · rename_i hu
      exact ⟨fun h => ⟨hu, h⟩, fun h => h.2⟩

/-- It finds the frame. -/
theorem walkaddr_eq_frame (hr : Refines root s m) (hva : va < maxVa) {f : Nat × Nat}
    (hf : m (va / pgSize) = some f) (hu : f.2 &&& pteU ≠ 0) : walkaddr root va s = frame f := by
  rw [walkaddr_lookup hva, hr.lookup va hva, hf]
  simp only [Option.map_some, Option.getD_some, leafPte_and_user]
  exact if_neg hu

/-! ## One page -/

/-- `walk` does not allocate where it finds all tables. -/
theorem walkLevels_of_node (va : Nat) (alloc : Bool) : ∀ (level table : Nat),
    Radix.node child s.mem table (path level va) = some x →
    walkLevels va alloc level table s = (some (x, px 0 va), s)
  | 0, table, hx => by
    cases hx
    rfl
  | level + 1, table, hx => by
    rw [path] at hx
    cases hy : child (s.mem table (px (level + 1) va)) with
    | none =>
      rw [Radix.node, List.foldlM_cons, hy] at hx
      cases hx
    | some y =>
      rw [Radix.node_cons hy] at hx
      rw [child] at hy
      split at hy
      · rename_i hv
        rw [walkLevels, if_pos hv, Option.some.inj hy]
        exact walkLevels_of_node va alloc level y hx
      · cases hy

theorem pageCount_page (hva : va % pgSize = 0) : pageCount va pgSize = 1 := by
  simp only [pageCount, pgSize] at *
  omega

/-- `mappages` of a single page. -/
theorem mappages_page (hva : va % pgSize = 0) (hlt : va < maxVa) :
    mappages root va pa pgSize perm s =
      match walkLevels va true 2 root s with
      | (none, s) => .ok (-1, s)
      | (some (x, i), s) =>
        if valid (s.mem x i) then .error .remap else .ok (0, s.write x i (leafPte pa perm)) := by
  have hend : va + pgSize ≤ maxVa := by
    simp only [pgSize, maxVa] at *
    omega
  have hround : va / pgSize * pgSize = va := Nat.div_mul_cancel (Nat.dvd_of_mod_eq_zero hva)
  have hlast : lastPage va pgSize = va := by
    rw [lastPage_eq (by decide) hend, pageCount_page hva, Nat.sub_self, Nat.add_zero, hround]
  obtain ⟨fuel, hfuel⟩ : ∃ fuel, maxVa / pgSize - va / pgSize = fuel + 1 := by
    refine ⟨maxVa / pgSize - va / pgSize - 1, ?_⟩
    simp only [pgSize, maxVa] at *
    omega
  rw [mappages, hlast, hfuel, mapLoop, pgRoundDown, hround, walk, if_neg hlt.not_ge]
  cases walkLevels va true 2 root s with
  | mk r s1 =>
    cases r with
    | none => rfl
    | some xi =>
      simp only [bind, Except.bind]
      split
      · rfl
      · rw [if_pos True.intro]
        rfl

/-- A page that is mapped is not mapped again. -/
theorem mappages_remap (hr : Refines root s m) (hva : va % pgSize = 0) (hlt : va < maxVa)
    (hm : m (va / pgSize) ≠ none) : mappages root va pa pgSize perm s = .error .remap := by
  obtain ⟨f, hf⟩ := Option.ne_none_iff_exists'.mp hm
  have hlook := hr.lookup va hlt
  rw [hf] at hlook
  obtain ⟨hentry, hv⟩ := lookup_eq_some hlt hlook
  obtain ⟨x, hx⟩ := node_of_valid (hentry.symm ▸ hv)
  have hvalid : valid (s.mem x (px 0 va)) := by
    rw [entry_of_node hx, hentry]
    exact hv
  rw [mappages_page hva hlt, walkLevels_of_node va true 2 root hx]
  exact if_pos hvalid

/-! ## `free_pagetable_pages` -/

/-- A page that `free_page` takes back. -/
def Managed (s : Vm) (x : Nat) : Prop := x ≠ 0 ∧ x % pgSize = 0 ∧ s.start ≤ x ∧ x < s.stop

/-- The pages in `B` were freed, and only pages in `A` were written. -/
structure Freed (A B : Set Nat) (s s' : Vm) : Prop where
  mem : ∀ x, x ∉ A → s'.mem x = s.mem x
  free : ∀ x, x ∈ s'.free ↔ x ∈ s.free ∨ x ∈ B
  start : s'.start = s.start
  stop : s'.stop = s.stop

variable {A A' : Set Nat}

theorem Freed.managed (h : Freed A A' s s') (hx : Managed s x) : Managed s' x := by
  rwa [Managed, h.start, h.stop]

theorem freePage_managed (h : Managed s x) : ∃ s', s.freePage x = .ok s' ∧ Freed {x} {x} s s' := by
  obtain ⟨h0, hmod, hstart, hstop⟩ := h
  have hok : ¬ (x % pgSize ≠ 0 ∨ x < s.start ∨ s.stop ≤ x) := by omega
  refine ⟨_, by rw [Vm.freePage, if_neg h0, if_neg hok], ?_⟩
  refine ⟨fun _ hy => Function.update_of_ne hy _ _, fun y => ?_, rfl, rfl⟩
  rw [List.mem_cons, Set.mem_singleton_iff]
  exact or_comm

/-! ## Up to a panic -/

theorem mapError_bind {α β ε ε' : Type} {f : ε → ε'} {r : Except ε α} {g : α → Except ε β} :
    (r >>= g).mapError f = r.mapError f >>= fun a => (g a).mapError f := by
  cases r with
  | error e => rfl
  | ok a => rfl

theorem freeEntryAt_forget {freeChild : Nat → Vm → Except Panic Vm}
    {freeChildAt : Nat → Vm → Except (Panic × Vm) Vm}
    (h : ∀ y t, (freeChildAt y t).mapError Prod.fst = freeChild y t) :
    (freeEntryAt freeChildAt table s i).mapError Prod.fst = freeEntry freeChild table s i := by
  rw [freeEntryAt, freeEntry]
  split
  · split
    · rfl
    · rw [mapError_bind, h]
      rfl
  · rfl

/-- The state at a panic is all that is added. -/
theorem freeTablesAt_forget : ∀ (levels table : Nat) (s : Vm),
    (freeTablesAt levels table s).mapError Prod.fst = freeTables levels table s
  | 0, _, _ => rfl
  | levels + 1, table, s => by
    have hloop : ∀ (l : List Nat) (s : Vm),
        (l.foldlM (freeEntryAt (freeTablesAt levels) table) s).mapError Prod.fst =
          l.foldlM (freeEntry (freeTables levels) table) s := by
      intro l
      induction l with
      | nil => exact fun _ => rfl
      | cons i l ih =>
        intro s
        rw [List.foldlM_cons, List.foldlM_cons, mapError_bind,
          freeEntryAt_forget (freeTablesAt_forget levels)]
        exact congrArg _ (funext ih)
    rw [freeTablesAt, freeTables, mapError_bind, hloop]
    refine congrArg _ (funext fun t => ?_)
    cases t.freePage table with
    | error e => rfl
    | ok t' => rfl

theorem freePagetablePagesAt_forget :
    (freePagetablePagesAt root s).mapError Prod.fst = freePagetablePages root s := by
  rw [freePagetablePagesAt, freePagetablePages]
  split
  · rfl
  · exact freeTablesAt_forget 3 root s

/-- How it ends when it frees the pages `A` and writes the entries in `W`. The pages in `P` are
not freed: all pages are if `N`, and otherwise it panics before. -/
inductive Frees (P : Nat → Prop) (E : Panic → Prop) (N : Prop) (A : Set Nat)
    (W : Nat → Nat → Prop) (s : Vm) : Except (Panic × Vm) Vm → Prop
  | all {t : Vm} {l : List Nat} : N → (∀ x ∈ A, ¬ P x) → t.free = l ++ s.free → l.Nodup →
      (∀ x, x ∈ l ↔ x ∈ A) → (∀ x i, ¬ W x i → t.mem x i = s.mem x i) → t.start = s.start →
      t.stop = s.stop → Frees P E N A W s (.ok t)
  | panic {e : Panic} {t : Vm} {l : List Nat} : ¬ N → E e → t.free = l ++ s.free → l.Nodup →
      (∀ x ∈ l, x ∈ A ∧ ¬ P x) → Frees P E N A W s (.error (e, t))

section Frees

variable {P : Nat → Prop} {E : Panic → Prop} {N N' : Prop} {W W' : Nat → Nat → Prop}
  {r : Except (Panic × Vm) Vm} {M : Nat → Nat → Nat} {y : Nat}

theorem Frees.mono (h : Frees P E N A W s r) (hN : N ↔ N') (hA : A = A')
    (hW : ∀ x i, W x i → W' x i) : Frees P E N' A' W' s r := by
  subst hA
  cases h with
  | all hn hP hfree hnodup hl hmem hstart hstop =>
    exact .all (hN.mp hn) hP hfree hnodup hl (fun x i hx => hmem x i fun hw => hx (hW x i hw))
      hstart hstop
  | panic hn hE hfree hnodup hl => exact .panic (fun hn' => hn (hN.mpr hn')) hE hfree hnodup hl

/-- One after the other. -/
theorem Frees.bind {f : Vm → Except (Panic × Vm) Vm} (h : Frees P E N A W s r)
    (hf : ∀ t, N → (∀ x i, ¬ W x i → t.mem x i = s.mem x i) →
      (∀ x, Managed s x → Managed t x) → Frees P E N' A' W' t (f t))
    (hd : ∀ x ∈ A, x ∉ A') :
    Frees P E (N ∧ N') (A ∪ A') (fun x i => W x i ∨ W' x i) s (r >>= f) := by
  cases h with
  | panic hn hE hfree hnodup hl =>
    exact .panic (fun h => hn h.1) hE hfree hnodup fun x hx => ⟨.inl (hl x hx).1, (hl x hx).2⟩
  | @all t l hn hP hfree hnodup hl hmem hstart hstop =>
    have hmanaged : ∀ x, Managed s x → Managed t x := fun x hx => by
      rwa [Managed, hstart, hstop]
    have hrest := hf t hn hmem hmanaged
    change Frees P E (N ∧ N') (A ∪ A') _ s (f t)
    generalize f t = r' at hrest
    have happend : ∀ {l' : List Nat}, l'.Nodup → (∀ x ∈ l', x ∈ A') → (l' ++ l).Nodup := by
      intro l' hnodup' hl'
      have hdisj : l'.Disjoint l := fun x hx' hx =>
        hd x ((hl x).mp hx) (hl' x hx')
      exact List.nodup_append'.mpr ⟨hnodup', hnodup, hdisj⟩
    cases hrest with
    | panic hn' hE' hfree' hnodup' hl' =>
      refine .panic (fun h => hn' h.2) hE' ?_ (happend hnodup' fun x hx => (hl' x hx).1)
        fun x hx => ?_
      · rw [hfree', hfree, List.append_assoc]
      · rcases List.mem_append.mp hx with hx | hx
        · exact ⟨.inr (hl' x hx).1, (hl' x hx).2⟩
        · exact ⟨.inl ((hl x).mp hx), hP x ((hl x).mp hx)⟩
    | all hn' hP' hfree' hnodup' hl' hmem' hstart' hstop' =>
      refine .all ⟨hn, hn'⟩ ?_ ?_ (happend hnodup' fun x hx => (hl' x).mp hx) (fun x => ?_)
        (fun x i hx => ?_) (hstart'.trans hstart) (hstop'.trans hstop)
      · rintro x (hx | hx)
        · exact hP x hx
        · exact hP' x hx
      · rw [hfree', hfree, List.append_assoc]
      · rw [List.mem_append, hl', hl, or_comm, Set.mem_union]
      · rw [not_or] at hx
        rw [hmem' x i hx.2, hmem x i hx.1]

/-- A loop whose rounds free different pages, and each write only what they read. -/
theorem Frees.loop {f : Vm → Nat → Except (Panic × Vm) Vm} {S : Nat → Set Nat} {V : Nat → Prop}
    {U : Nat → Nat → Nat → Prop}
    (hround : ∀ i s, (∀ x j, U i x j → s.mem x j = M x j) → (∀ x ∈ S i, Managed s x) →
      Frees P E (V i) (S i) (U i) s (f s i))
    (hU : ∀ i j x k, i ≠ j → U j x k → ¬ U i x k) (hS : ∀ i j x, i ≠ j → x ∈ S i → x ∉ S j) :
    ∀ (l : List Nat) (s : Vm), l.Nodup → (∀ i ∈ l, ∀ x j, U i x j → s.mem x j = M x j) →
      (∀ i ∈ l, ∀ x ∈ S i, Managed s x) →
      Frees P E (∀ i ∈ l, V i) {x | ∃ i ∈ l, x ∈ S i} (fun x j => ∃ i ∈ l, U i x j) s
        (l.foldlM f s)
  | [], s, _, _, _ => by
    refine .all (l := []) ?_ ?_ rfl List.nodup_nil ?_ (fun _ _ _ => rfl) rfl rfl
    · exact fun i hi => absurd hi List.not_mem_nil
    · rintro x ⟨i, hi, -⟩
      exact absurd hi List.not_mem_nil
    · intro x
      simp
  | i :: l, s, hl, hmem, hmanaged => by
    obtain ⟨hi, hl⟩ := List.nodup_cons.mp hl
    have hne : ∀ j ∈ l, i ≠ j := fun j hj hij => hi (hij ▸ hj)
    rw [List.foldlM_cons]
    have hfirst := hround i s (hmem i List.mem_cons_self) (hmanaged i List.mem_cons_self)
    refine (hfirst.bind (fun t _ hsame hkeep => Frees.loop hround hU hS l t hl ?_ ?_) ?_).mono
      List.forall_mem_cons.symm ?_ ?_
    · intro j hj x k hx
      rw [hsame x k (hU i j x k (hne j hj) hx)]
      exact hmem j (List.mem_cons_of_mem i hj) x k hx
    · exact fun j hj x hx => hkeep x (hmanaged j (List.mem_cons_of_mem i hj) x hx)
    · rintro x hx ⟨j, hj, hxj⟩
      exact hS i j x (hne j hj) hx hxj
    · ext x
      simp only [Set.mem_union, Set.mem_ofPred_eq, List.mem_cons, exists_eq_or_imp]
    · rintro x k (hx | ⟨j, hj, hx⟩)
      · exact ⟨i, List.mem_cons_self, hx⟩
      · exact ⟨j, List.mem_cons_of_mem i hj, hx⟩

/-- The entries with a valid flag are among the 512 that `free_pagetable_pages` looks at. -/
def InTable (_depth i e : Nat) : Prop := valid e → i < 512

/-- A tree of depth `d` in which the pages that hold a leaf are those in `P`. Valid entries at depth
`d` are leaves; one without access flags would be followed to nowhere. -/
structure LeavesIn (P : Nat → Prop) (E : Panic → Prop) (d : Nat) (M : Nat → Nat → Nat)
    (table : Nat) : Prop where
  separated : Radix.Separated child d M table
  index : Radix.Entries InTable child d M table
  leaf : ∀ p x, p.length ≤ d → Radix.node child M table p = some x →
    (P x ↔ ∃ i, valid (M x i) ∧ (p.length = d ∨ HasRwx (M x i)))
  flags : ∀ p x i, p.length = d → Radix.node child M table p = some x → valid (M x i) →
    ¬ HasRwx (M x i) → E .runaway

/-- The pages below the entry `i` of the table. -/
def entryPages (d : Nat) (M : Nat → Nat → Nat) (table i : Nat) : Set Nat :=
  {x | ∃ d', d = d' + 1 ∧ ∃ y, child (M table i) = some y ∧ x ∈ Radix.pages child d' M y}

theorem LeavesIn.subtree (h : LeavesIn P E (d + 1) M table) (hy : child (M table i) = some y) :
    LeavesIn P E d M y where
  separated := h.separated.subtree hy
  index p x j hp hx := h.index.subtree hy p x j hp hx
  leaf p x hp hx := by
    rw [h.leaf (i :: p) x (Nat.succ_le_succ hp) ((Radix.node_cons hy).trans hx), List.length_cons]
    simp only [Nat.add_right_cancel_iff]
  flags p x j hp hx := h.flags (i :: p) x j (congrArg (· + 1) hp) ((Radix.node_cons hy).trans hx)

theorem LeavesIn.table_iff (h : LeavesIn P E d M table) :
    P table ↔ ∃ i, valid (M table i) ∧ (d = 0 ∨ HasRwx (M table i)) := by
  rw [h.leaf [] table (Nat.zero_le d) rfl, List.length_nil]
  simp only [eq_comm]

theorem child_pte (hv : valid (M table i)) : child (M table i) = some (pte2pa (M table i)) :=
  if_pos hv

theorem valid_of_child (hy : child (M table i) = some y) : valid (M table i) := by
  by_contra hv
  rw [child_of_not_valid hv] at hy
  cases hy

/-- A tree is its table with what is below the entries. -/
theorem mem_pages_iff (h : LeavesIn P E d M table) (x : Nat) :
    x ∈ Radix.pages child d M table ↔
      x = table ∨ ∃ i ∈ List.range 512, x ∈ entryPages d M table i := by
  have hrange : ∀ {i y : Nat}, child (M table i) = some y → i ∈ List.range 512 := fun hy =>
    List.mem_range.mpr (h.index [] table _ (Nat.zero_le d) rfl (valid_of_child hy))
  cases d with
  | zero =>
    constructor
    · rintro ⟨p, hp, hx⟩
      obtain rfl : p = [] := List.length_eq_zero_iff.mp (Nat.le_zero.mp hp)
      exact .inl (Option.some.inj hx).symm
    · rintro (rfl | ⟨i, -, d', hd, -⟩)
      · exact Radix.root_mem_pages
      · cases hd
  | succ d =>
    rw [Radix.pages_succ]
    refine or_congr_right ⟨?_, ?_⟩
    · rintro ⟨i, y, hy, hx⟩
      exact ⟨i, hrange hy, d, rfl, y, hy, hx⟩
    · rintro ⟨i, -, d', hd, y, hy, hx⟩
      cases hd
      exact ⟨i, y, hy, hx⟩

/-- What a call with a tree of depth `d` does. -/
def FreesAt (P : Nat → Prop) (E : Panic → Prop) (d : Nat) (M : Nat → Nat → Nat)
    (freeChild : Nat → Vm → Except (Panic × Vm) Vm) : Prop :=
  ∀ table s, LeavesIn P E d M table → (∀ x ∈ Radix.pages child d M table, s.mem x = M x) →
    (∀ x ∈ Radix.pages child d M table, Managed s x) →
    Frees P E (∀ x ∈ Radix.pages child d M table, ¬ P x) (Radix.pages child d M table)
      (fun x _ => x ∈ Radix.pages child d M table) s (freeChild table s)

/-- A round of the loop frees what is below its entry. -/
theorem freeEntryAt_frees (h : LeavesIn P E d M table) (hE : E .validPage)
    {freeChild : Nat → Vm → Except (Panic × Vm) Vm}
    (hzero : d = 0 → ∀ y s, freeChild y s = .error (.runaway, s))
    (hsucc : ∀ d', d = d' + 1 → FreesAt P E d' M freeChild)
    (hmem : ∀ x j, x = table ∧ j = i ∨ x ∈ entryPages d M table i → s.mem x j = M x j)
    (hmanaged : ∀ x ∈ entryPages d M table i, Managed s x) :
    Frees P E (¬ (valid (M table i) ∧ (d = 0 ∨ HasRwx (M table i))) ∧
        ∀ x ∈ entryPages d M table i, ¬ P x)
      (entryPages d M table i) (fun x j => x = table ∧ j = i ∨ x ∈ entryPages d M table i) s
      (freeEntryAt freeChild table s i) := by
  have hentry : s.mem table i = M table i := hmem table i (.inl ⟨rfl, rfl⟩)
  rw [freeEntryAt, hentry]
  split
  · rename_i hv
    split
    · rename_i hrwx
      exact .panic (l := []) (fun hn => hn.1 ⟨hv, .inr hrwx⟩) hE rfl List.nodup_nil
        fun x hx => absurd hx List.not_mem_nil
    · rename_i hrwx
      cases d with
      | zero =>
        rw [hzero rfl]
        exact .panic (l := []) (fun hn => hn.1 ⟨hv, .inl rfl⟩)
          (h.flags [] table i rfl rfl hv hrwx) rfl List.nodup_nil
          fun x hx => absurd hx List.not_mem_nil
      | succ d =>
        have hy := child_pte hv
        have hpages : entryPages (d + 1) M table i =
            Radix.pages child d M (pte2pa (M table i)) := by
          ext x
          simp [entryPages, hy]
        rw [hpages] at hmem hmanaged ⊢
        have hchild := hsucc d rfl _ s (h.subtree hy)
          (fun x hx => funext fun j => hmem x j (.inr hx))
          hmanaged
        have hwrite : ∀ t : Vm, Frees P E True ∅ (fun x j => x = table ∧ j = i) t
            (.ok (t.write table i 0)) := fun t =>
          .all (l := []) trivial (fun x hx => absurd hx (Set.notMem_empty x)) rfl List.nodup_nil
            (fun x => by simp) (fun x j hx => Radix.write_of_ne hx) rfl rfl
        refine (hchild.bind (fun t _ _ _ => hwrite t) fun x _ => Set.notMem_empty x).mono ?_
          (Set.union_empty _) fun x j => Or.symm
        rw [and_true]
        refine ⟨fun hn => ⟨?_, hn⟩, fun hn => hn.2⟩
        rintro ⟨-, hd | hd⟩
        · cases hd
        · exact hrwx hd
  · rename_i hv
    have hnone : entryPages d M table i = ∅ := by
      ext x
      simp [entryPages, child_of_not_valid hv]
    rw [hnone]
    exact .all (l := []) ⟨fun hn => hv hn.1, fun x hx => absurd hx (Set.notMem_empty x)⟩
      (fun x hx => absurd hx (Set.notMem_empty x)) rfl List.nodup_nil (fun x => by simp)
      (fun _ _ _ => rfl) rfl rfl

theorem freePage_frees (hx : Managed s x) (hP : ¬ P x) :
    Frees P E True {x} (fun y _ => y = x) s ((s.freePage x).mapError (·, s)) := by
  obtain ⟨h0, hmod, hstart, hstop⟩ := hx
  have hok : ¬ (x % pgSize ≠ 0 ∨ x < s.start ∨ s.stop ≤ x) := by omega
  rw [Vm.freePage, if_neg h0, if_neg hok]
  refine .all (l := [x]) trivial ?_ rfl (List.nodup_cons.mpr ⟨List.not_mem_nil, List.nodup_nil⟩)
    (fun y => by simp)
    (fun y j hy => ?_) rfl rfl
  · rintro y rfl
    exact hP
  · exact congrFun (Function.update_of_ne hy _ _) j

/-- The loop over the entries, and the page itself. -/
theorem freeTablesAt_step (hE : E .validPage)
    {levels : Nat} (hzero : d = 0 → levels = 0)
    (hsucc : ∀ d', d = d' + 1 → FreesAt P E d' M (freeTablesAt levels)) :
    FreesAt P E d M (freeTablesAt (levels + 1)) := by
  intro table s h hmem hmanaged
  have hpages := mem_pages_iff h
  have hbelow : ∀ {i x : Nat}, x ∈ entryPages d M table i → i ∈ List.range 512 := by
    rintro i x ⟨d', -, y, hy, -⟩
    exact List.mem_range.mpr (h.index [] table i (Nat.zero_le d) rfl (valid_of_child hy))
  have hmem_pages : ∀ {i x : Nat}, x ∈ entryPages d M table i → x ∈ Radix.pages child d M table :=
    fun hx => (hpages _).mpr (.inr ⟨_, hbelow hx, hx⟩)
  have htable : ∀ i, table ∉ entryPages d M table i := by
    rintro i ⟨d', rfl, y, hy, hx⟩
    exact h.separated.root_not_mem hy hx
  have hdisj : ∀ i j x, i ≠ j → x ∈ entryPages d M table i → x ∉ entryPages d M table j := by
    rintro i j x hij ⟨d', rfl, y, hy, hx⟩ ⟨d'', hd, z, hz, hx'⟩
    cases hd
    exact h.separated.disjoint hy hz hij hx hx'
  have hloop := Frees.loop (M := M) (fun i t hm hman => freeEntryAt_frees (i := i) h hE
      (fun hd y t => by rw [hzero hd]; rfl) hsucc hm hman)
    (fun i j x k hij hj hi => by
      rcases hj with ⟨rfl, rfl⟩ | hj
      · rcases hi with ⟨-, rfl⟩ | hi
        · exact hij rfl
        · exact htable i hi
      · rcases hi with ⟨rfl, -⟩ | hi
        · exact htable j hj
        · exact hdisj i j x hij hi hj)
    hdisj (List.range 512) s List.nodup_range
    (fun i _ x j hx => by
      rcases hx with ⟨rfl, -⟩ | hx
      · rw [hmem x Radix.root_mem_pages]
      · rw [hmem x (hmem_pages hx)])
    (fun i _ x hx => hmanaged x (hmem_pages hx))
  -- if no entry is a leaf, the table does not hold one
  have hfree : (∀ i ∈ List.range 512, ¬ (valid (M table i) ∧ (d = 0 ∨ HasRwx (M table i))) ∧
      ∀ x ∈ entryPages d M table i, ¬ P x) ↔ ∀ x ∈ Radix.pages child d M table, ¬ P x := by
    constructor
    · intro hn x hx
      rcases (hpages x).mp hx with rfl | ⟨i, hi, hx⟩
      · rw [h.table_iff]
        rintro ⟨i, hv, hleaf⟩
        have hi := List.mem_range.mpr (h.index [] x i (Nat.zero_le d) rfl hv)
        exact (hn i hi).1 ⟨hv, hleaf⟩
      · exact (hn i hi).2 x hx
    · intro hn i _
      exact ⟨fun hleaf => hn table Radix.root_mem_pages (h.table_iff.mpr ⟨i, hleaf⟩),
        fun x hx => hn x (hmem_pages hx)⟩
  rw [freeTablesAt]
  refine (hloop.bind (fun t hn _ hkeep => freePage_frees
    (hkeep table (hmanaged table Radix.root_mem_pages))
    (hfree.mp hn table Radix.root_mem_pages)) ?_).mono ?_ ?_ ?_
  · rintro x ⟨i, -, hx⟩ rfl
    exact htable i hx
  · rw [and_true]
    exact hfree
  · ext x
    rw [hpages, or_comm]
    rfl
  · rintro x j (⟨i, -, ⟨rfl, -⟩ | hx⟩ | rfl)
    · exact Radix.root_mem_pages
    · exact hmem_pages hx
    · exact Radix.root_mem_pages

/-- The recursion of `free_pagetable_pages` frees the pages of the tree if none holds a leaf, and
it panics before it frees one that does. -/
theorem freeTablesAt_frees (hE : E .validPage) :
    ∀ d, FreesAt P E d M (freeTablesAt (d + 1))
  | 0 => freeTablesAt_step hE (fun _ => rfl) nofun
  | d + 1 => freeTablesAt_step hE nofun fun d' hd => by
    cases hd
    exact freeTablesAt_frees hE d

end Frees

/-! ## Nothing is mapped -/

/-- The entries of a tree of depth `d` in which nothing is mapped. -/
def EmptyEntry (d depth i e : Nat) : Prop := valid e → i < 512 ∧ depth < d ∧ ¬ HasRwx e

/-- `freeTables` frees a tree of depth `d`. -/
def FreesTrees (d : Nat) (freeChild : Nat → Vm → Except Panic Vm) : Prop :=
  ∀ table s, Radix.Separated child d s.mem table →
    Radix.Entries (EmptyEntry d) child d s.mem table →
    (∀ x ∈ Radix.pages child d s.mem table, Managed s x) →
    ∃ s', freeChild table s = .ok s' ∧
      Freed (Radix.pages child d s.mem table) (Radix.pages child d s.mem table) s s'

theorem leavesIn_empty {M : Nat → Nat → Nat} (hs : Radix.Separated child d M table)
    (hE : Radix.Entries (EmptyEntry d) child d M table) :
    LeavesIn (fun _ => False) (fun _ => True) d M table where
  separated := hs
  index p x j hp hx hv := (hE p x j hp hx hv).1
  leaf p x hp hx := by
    refine ⟨False.elim, ?_⟩
    rintro ⟨i, hv, hleaf⟩
    obtain ⟨-, hlt, hrwx⟩ := hE p x i hp hx hv
    exact hleaf.elim hlt.ne hrwx
  flags _ _ _ _ _ _ _ := trivial

/-- The recursion of `free_pagetable_pages` frees a tree in which nothing is mapped. -/
theorem freeTables_spec (d : Nat) : FreesTrees d (freeTables (d + 1)) := by
  intro table s hs hE hmanaged
  have hfrees := freeTablesAt_frees (E := fun _ => True) trivial d table s (leavesIn_empty hs hE)
    (fun _ _ => rfl) hmanaged
  rw [← freeTablesAt_forget]
  generalize freeTablesAt (d + 1) table s = r at hfrees ⊢
  cases hfrees with
  | panic hn => exact absurd (fun _ _ => id) hn
  | all _ _ hfree _ hl hmem hstart hstop =>
    refine ⟨_, rfl, fun x hx => funext fun i => hmem x i hx, fun x => ?_, hstart, hstop⟩
    rw [hfree, List.mem_append, hl, or_comm]

/-- The address with given indices. -/
theorem exists_va {i2 i1 i0 : Nat} (h2 : i2 < width 0) (h1 : i1 < width 1) (h0 : i0 < width 2) :
    ∃ va < maxVa, path 2 va = [i2, i1] ∧ px 0 va = i0 := by
  refine ⟨((i2 * 512 + i1) * 512 + i0) * 4096, ?_⟩
  simp only [path, px, width, maxVa, List.cons.injEq, and_true, if_true] at *
  rw [if_neg (by decide)] at h1 h0
  omega

theorem valid_of_node {p : List Nat} {y : Nat}
    (h : Radix.node child s.mem root (p ++ [i]) = some y) :
    ∃ x, Radix.node child s.mem root p = some x ∧ valid (s.mem x i) := by
  obtain ⟨x, hx, hy⟩ := Radix.node_snoc_eq_some.mp h
  refine ⟨x, hx, ?_⟩
  by_contra hv
  rw [child_of_not_valid hv] at hy
  cases hy

/-- A valid entry at level 0 is the entry of an address. -/
theorem exists_lookup (hplain : Plain root s) {p : List Nat} (hp : p.length = 2)
    (hx : Radix.node child s.mem root p = some x) (hv : valid (s.mem x i)) :
    ∃ va < maxVa, lookup root va s = some (s.mem x i) := by
  obtain ⟨i2, i1, rfl⟩ := List.length_eq_two.mp hp
  obtain ⟨y, hy, hv1⟩ := valid_of_node (p := [i2]) hx
  obtain ⟨z, hz, hv2⟩ := valid_of_node (p := []) hy
  obtain ⟨va, hva, hpath, hpx⟩ := exists_va (hplain [] z i2 (Nat.zero_le 2) hz hv2).1
    (hplain [i2] y i1 one_le_two hy hv1).1 (hplain [i2, i1] x i le_rfl hx hv).1
  refine ⟨va, hva, ?_⟩
  rw [← hpath] at hx
  rw [lookup_eq hva, ← entry_of_node hx, hpx, if_pos hv]

theorem width_le (depth : Nat) : width depth ≤ 512 := by
  rw [width]
  split
  · decide
  · exact le_rfl

theorem Plain.inTable (hplain : Plain root s) : Radix.Entries InTable child 2 s.mem root :=
  fun p x i hp hx hv => (hplain p x i hp hx hv).1.trans_le (width_le _)

/-- If nothing is mapped, `free_pagetable_pages` frees exactly the pages of the tree. -/
theorem freePagetablePages_spec (hr : Refines root s m) (hplain : Plain root s)
    (hm : ∀ n, m n = none) (hroot : root ≠ 0) (hmanaged : ∀ x ∈ tables root s, Managed s x) :
    ∃ s', freePagetablePages root s = .ok s' ∧ Freed (tables root s) (tables root s) s s' := by
  rw [freePagetablePages, if_neg hroot]
  refine freeTables_spec 2 root s hr.tree ?_ hmanaged
  intro p x i hp hx hv
  have hlt : p.length < 2 := by
    refine lt_of_le_of_ne hp fun h2 => ?_
    obtain ⟨va, hva, hlook⟩ := exists_lookup hplain h2 hx hv
    rw [hr.lookup va hva, hm] at hlook
    cases hlook
  exact ⟨hplain.inTable p x i hp hx hv, hlt, (hplain p x i hp hx hv).2 hlt⟩

end CoroCore.Vmem
