import CoroCore.Mm.Routing
import Mathlib.Data.Finset.Union
import Mathlib.Data.Set.Card

/-!
# Large allocations without enough pages: `mm/allocator.cc`

`large_mem_allocator::alloc` takes the pages of an allocation one by one, and `kvmmap` takes pages
for the tables from the same pool. When there is no page for the data, the pages so far are unmapped
and given back; when there is none for a table, `kvmmap` panics.

* `MapEnds.of_pool`: how the loop ends, from the number of free pages and of missing tables alone;
* `undone_iff`: an allocation that cannot be satisfied is undone if and only if it is a data page
  that is missing;
* `ready_run`: the states that this is about.
-/

namespace CoroCore

open Lib KernelMem HeapSystem

namespace NewSystem

/-! ## `alloc` with its `int` -/

/-- A `uint64` as an `int`. -/
def toInt (n : Nat) : Int := (n : Int).bmod (2 ^ 32)

/-- An `int` as a `uint64`. -/
def toSize (x : Int) : Nat := (x % 2 ^ 64).toNat

/-- `page_count` of `large_mem_allocator::alloc`. -/
def intPageCount (size : Int) : Int :=
  toInt ((toSize size + largeInfoSize + pgSize - 1) % 2 ^ 64 / pgSize)

/-- `large_mem_allocator::alloc`, of an `int`. A store to a page that is not mapped ends in a
trap. -/
def allocInt (s : NewSystem) (size : Int) : Option (Nat × NewSystem) :=
  let count := intPageCount size
  (mapLoop count.toNat s.vmemTop s).bind fun r =>
    if count ≤ r.1 then
      let info := s.vmemTop
      let t : NewSystem := { r.2 with vmemTop := toSize (info + (count * pgSize).bmod (2 ^ 32))
                                      large := ⟨info, count.toNat⟩ :: r.2.large }
      if t.vmap info = 0 then none
      else some (info + largeInfoSize,
        (t.writeV info (toSize count)).writeV (info + 8) (toSize size))
    else if 0 < r.1 then (kvmunmap r.1 s.vmemTop r.2).map fun s => (0, s)
    else some (0, r.2)

/-! ## The pool and the page table -/

/-- The free list has the free pages, and mapped pages and tables are pages of clients. -/
structure Pool (start n : Nat) (s : NewSystem) : Prop where
  aligned : ∀ p, s.hs.owner p ≠ .outside → p % pgSize = 0 ∧ p ≠ 0
  freeList : FreeListOk s.hs.k s.hs.owner
  range : ∀ p, s.hs.owner p ≠ .outside → start ≤ p ∧ p < start + n * pgSize
  data : ∀ v, s.vmap v ≠ 0 → s.hs.owner (s.vmap v) = .client ∧ s.use (s.vmap v) = .data v
  table : ∀ l i, s.table l i ≠ 0 →
    s.hs.owner (s.table l i) = .client ∧ s.use (s.table l i) = .table l i

/-- The number of free pages. -/
noncomputable def freeCount (s : NewSystem) : Nat := {p | s.hs.owner p = .free}.ncard

/-- The tables on the way of `va`, from `level` down. -/
def tablesAt (va : Nat) : Nat → Finset (Nat × Nat)
  | 0 => ∅
  | level + 1 => insert (level + 1, entryOf (level + 1) va) (tablesAt va level)

/-- The tables of `k` pages from `va` on. -/
def tablesOf (va k : Nat) : Finset (Nat × Nat) :=
  (Finset.range k).biUnion fun i => tablesAt (va + i * pgSize) 2

/-- Those of the tables that do not exist. -/
def absent (s : NewSystem) (T : Finset (Nat × Nat)) : Finset (Nat × Nat) :=
  T.filter fun x => s.table x.1 x.2 = 0

/-- The pages that `k` pages from `va` on take, with their tables. -/
def mapCost (s : NewSystem) (va k : Nat) : Nat := k + (s.absent (tablesOf va k)).card

variable {s s' t : NewSystem} {start n va pa p k level : Nat} {T : Finset (Nat × Nat)}

theorem Pool.of_vmInv (h : VmInv start n s) : Pool start n s :=
  ⟨h.heap.aligned, h.heap.freeList, h.pool, h.data, h.table⟩

theorem freeCount_eq {F : List Nat} (hnodup : F.Nodup) (hmem : ∀ p, p ∈ F ↔ s.hs.owner p = .free) :
    s.freeCount = F.length := by
  have hset : {p | s.hs.owner p = .free} = (F.toFinset : Set Nat) := by
    ext p
    simp [hmem]
  rw [freeCount, hset, Set.ncard_coe_finset, List.toFinset_card_of_nodup hnodup]

/-- There are not more pages than the pool began with. -/
theorem Pool.ncard_le {P : Set Nat} (h : Pool start n s) (hP : ∀ p ∈ P, s.hs.owner p ≠ .outside) :
    P.ncard ≤ n := by
  have hin : ∀ p ∈ P, p % pgSize = 0 ∧ start ≤ p ∧ p < start + n * pgSize := fun p hp =>
    ⟨(h.aligned p (hP p hp)).1, h.range p (hP p hp)⟩
  rw [← Finset.card_range n, ← Set.ncard_coe_finset]
  refine Set.ncard_le_ncard_of_injOn (fun p => (p - start) / pgSize) (fun p hp => ?_)
    (fun p hp q hq heq => ?_) (Finset.finite_toSet _)
  · have := hin p hp
    rw [Finset.mem_coe, Finset.mem_range, Nat.div_lt_iff_lt_mul (by decide)]
    omega
  · have hp' := hin p hp
    have hq' := hin q hq
    simp only [pgSize] at *
    omega

theorem Pool.freeCount_le (h : Pool start n s) : s.freeCount ≤ n :=
  h.ncard_le fun p hp => by
    rw [show s.hs.owner p = .free from hp]
    exact nofun

/-! ## Pages that are taken -/

/-- The page `p` was taken from the pool. -/
structure Taken (start n : Nat) (s s' : NewSystem) (p : Nat) (u : PageUse) : Prop where
  pool : Pool start n s'
  count : s.freeCount = s'.freeCount + 1
  ne_zero : p ≠ 0
  free : s.hs.owner p = .free
  owner : s'.hs.owner = Function.update s.hs.owner p .client
  use : s'.use = Function.update s.use p u
  table : s'.table = s.table
  vmap : s'.vmap = s.vmap
  top : s'.vmemTop = s.vmemTop
  large : s'.large = s.large

theorem Pool.take (h : Pool start n s) (u : PageUse) :
    s.freeCount = 0 ∧ s.takePage u = (0, s) ∨
      ∃ p s', s.takePage u = (p, s') ∧ Taken start n s s' p u := by
  obtain ⟨F, hF, hnodup, hmem⟩ := h.freeList
  have hcount := freeCount_eq hnodup hmem
  by_cases hp : s.hs.k.freePageList = 0
  · refine .inl ⟨?_, by simp [takePage, KernelMem.allocPage, hp]⟩
    cases F with
    | nil => exact hcount
    | cons x F => exact absurd (hF.1.symm.trans hp) hF.2.1
  · obtain ⟨F', rfl, hF'⟩ := hF.uncons hp
    have hfree : s.hs.owner s.hs.k.freePageList = .free := (hmem _).mp List.mem_cons_self
    obtain ⟨hout, hnodup'⟩ := List.nodup_cons.mp hnodup
    have hne : ∀ q, s.hs.owner q = .client → q ≠ s.hs.k.freePageList := by
      rintro q hq rfl
      rw [hfree] at hq
      cases hq
    have hmem' : ∀ q, q ∈ F' ↔
        Function.update s.hs.owner s.hs.k.freePageList .client q = .free := by
      intro q
      rcases eq_or_ne q s.hs.k.freePageList with rfl | hq
      · simp [hout]
      · rw [Function.update_of_ne hq, ← hmem, List.mem_cons, or_iff_right hq]
    have htake : s.takePage u = (s.hs.k.freePageList, { s with
        hs := { s.hs with k := s.hs.k.allocPage.2
                          owner := Function.update s.hs.owner s.hs.k.freePageList .client }
        use := Function.update s.use s.hs.k.freePageList u }) := by
      simp [takePage, KernelMem.allocPage, hp]
    refine .inr ⟨_, _, htake,
      ⟨fun q hq => ?_, ⟨F', ?_, hnodup', hmem'⟩, fun q hq => ?_, fun v hv => ?_, fun l i hl => ?_⟩,
      ?_, hp, hfree, rfl, rfl, rfl, rfl, rfl, rfl⟩
    · rcases eq_or_ne q s.hs.k.freePageList with rfl | hne
      · exact h.aligned _ (by simp [hfree])
      · exact h.aligned q fun hout => hq ((Function.update_of_ne hne _ _).trans hout)
    · simpa [KernelMem.allocPage, hp] using hF'
    · rcases eq_or_ne q s.hs.k.freePageList with rfl | hne
      · exact h.range _ (by simp [hfree])
      · exact h.range q fun hout => hq ((Function.update_of_ne hne _ _).trans hout)
    · obtain ⟨hown, huse⟩ := h.data v hv
      exact ⟨(Function.update_of_ne (hne _ hown) _ _).trans hown,
        (Function.update_of_ne (hne _ hown) _ _).trans huse⟩
    · obtain ⟨hown, huse⟩ := h.table l i hl
      exact ⟨(Function.update_of_ne (hne _ hown) _ _).trans hown,
        (Function.update_of_ne (hne _ hown) _ _).trans huse⟩
    · rw [hcount, freeCount_eq hnodup' hmem', List.length_cons]

/-! ## Tables -/

/-- The tables in `T` that did not exist were made. -/
structure Walked (start n : Nat) (s s' : NewSystem) (T : Finset (Nat × Nat)) : Prop where
  pool : Pool start n s'
  count : s.freeCount = s'.freeCount + (s.absent T).card
  absent : ∀ l i, s'.table l i = 0 ↔ s.table l i = 0 ∧ (l, i) ∉ T
  kept : ∀ l i, s.table l i ≠ 0 → s'.table l i = s.table l i
  owner : ∀ q, s.hs.owner q ≠ .free → s'.hs.owner q = s.hs.owner q ∧ s'.use q = s.use q
  used : ∀ q, s.hs.owner q = .free → s'.hs.owner q = .free ∨ q ≠ 0 ∧ ∃ l i, s'.table l i = q
  vmap : s'.vmap = s.vmap
  top : s'.vmemTop = s.vmemTop
  large : s'.large = s.large

theorem card_absent_union (habsent : ∀ l i, s'.table l i = 0 ↔ s.table l i = 0 ∧ (l, i) ∉ T)
    (T' : Finset (Nat × Nat)) :
    (s.absent (T ∪ T')).card = (s.absent T).card + (s'.absent T').card := by
  have hdisj : Disjoint (s.absent T) (s'.absent T') := by
    refine Finset.disjoint_left.mpr fun x hx hx' => ?_
    exact ((habsent x.1 x.2).mp (Finset.mem_filter.mp hx').2).2 (Finset.mem_filter.mp hx).1
  rw [← Finset.card_union_of_disjoint hdisj]
  congr 1
  ext x
  simp only [absent, Finset.mem_union, Finset.mem_filter, habsent x.1 x.2]
  tauto

theorem Walked.refl (h : Pool start n s) : Walked start n s s ∅ :=
  ⟨h, rfl, fun _ _ => by simp, fun _ _ _ => rfl, fun _ _ => ⟨rfl, rfl⟩, fun _ h => .inl h, rfl, rfl,
    rfl⟩

theorem Walked.trans {T' : Finset (Nat × Nat)} (h : Walked start n s s' T)
    (h' : Walked start n s' t T') : Walked start n s t (T ∪ T') := by
  refine ⟨h'.pool, ?_, fun l i => ?_, fun l i hl => ?_, fun q hq => ?_, fun q hq => ?_,
    h'.vmap.trans h.vmap, h'.top.trans h.top, h'.large.trans h.large⟩
  · rw [h.count, h'.count, card_absent_union h.absent, Nat.add_right_comm, Nat.add_assoc]
  · rw [h'.absent, h.absent, Finset.mem_union, not_or, and_assoc]
  · have hk := h.kept l i hl
    rw [h'.kept l i (hk ▸ hl), hk]
  · obtain ⟨ho, hu⟩ := h.owner q hq
    obtain ⟨ho', hu'⟩ := h'.owner q (ho ▸ hq)
    exact ⟨ho'.trans ho, hu'.trans hu⟩
  · rcases h.used q hq with hfree | ⟨hne, l, i, rfl⟩
    · exact h'.used q hfree
    · exact .inr ⟨hne, l, i, h'.kept l i hne⟩

/-- A missing table is made of a free page. -/
theorem Taken.walked {l i : Nat} (h : Taken start n s s' p (.table l i)) (h0 : s.table l i = 0) :
    Walked start n s (s'.setTable l i p) {(l, i)} := by
  have hset : ∀ l' i', (s'.setTable l i p).table l' i' =
      if l' = l ∧ i' = i then p else s.table l' i' := by
    intro l' i'
    rw [setTable, h.table]
    rcases eq_or_ne l' l with rfl | hl
    · rcases eq_or_ne i' i with rfl | hi
      · simp
      · simp [hi]
    · simp [hl]
  refine ⟨⟨h.pool.aligned, h.pool.freeList, h.pool.range, h.pool.data, fun l' i' hl => ?_⟩, ?_,
    fun l' i' => ?_, fun l' i' hl => ?_, fun q hq => ?_, fun q hq => ?_, h.vmap, h.top, h.large⟩
  · rw [hset] at hl ⊢
    split
    · rename_i heq
      obtain ⟨rfl, rfl⟩ := heq
      refine ⟨?_, ?_⟩
      · exact (congrFun h.owner p).trans (Function.update_self _ _ _)
      · exact (congrFun h.use p).trans (Function.update_self _ _ _)
    · rename_i hne
      rw [if_neg hne] at hl
      rw [← h.table] at hl ⊢
      exact h.pool.table l' i' hl
  · have hone : s.absent {(l, i)} = {(l, i)} := by
      rw [NewSystem.absent, Finset.filter_singleton, if_pos h0]
    rw [hone, Finset.card_singleton]
    exact h.count
  · rw [hset, Finset.mem_singleton, Prod.mk.injEq]
    split
    · rename_i heq
      simp [heq, h.ne_zero]
    · rename_i hne
      simp [hne]
  · rw [hset, if_neg]
    rintro ⟨rfl, rfl⟩
    exact hl h0
  · have hne : q ≠ p := by
      rintro rfl
      exact hq h.free
    refine ⟨?_, ?_⟩
    · exact (congrFun h.owner q).trans (Function.update_of_ne hne _ _)
    · exact (congrFun h.use q).trans (Function.update_of_ne hne _ _)
  · rcases eq_or_ne q p with rfl | hne
    · exact .inr ⟨h.ne_zero, l, i, by rw [hset, if_pos ⟨rfl, rfl⟩]⟩
    · exact .inl ((congrFun h.owner q).trans ((Function.update_of_ne hne _ _).trans hq))

theorem Walked.present {l i : Nat} (h : Pool start n s) (hl : s.table l i ≠ 0) :
    Walked start n s s {(l, i)} := by
  refine ⟨h, ?_, fun l' i' => ?_, fun _ _ _ => rfl, fun _ _ => ⟨rfl, rfl⟩, fun _ h => .inl h, rfl,
    rfl, rfl⟩
  · rw [NewSystem.absent, Finset.filter_singleton, if_neg hl]
    rfl
  · rw [Finset.mem_singleton, Prod.mk.injEq]
    refine ⟨fun h0 => ⟨h0, ?_⟩, And.left⟩
    rintro ⟨rfl, rfl⟩
    exact hl h0

/-- `walk` makes the missing tables, or there are not so many pages. -/
theorem Pool.walk (va : Nat) : ∀ (level : Nat) (s : NewSystem), Pool start n s →
    (walkLevels va level s = none ∧ s.freeCount < (s.absent (tablesAt va level)).card) ∨
      ∃ s', walkLevels va level s = some s' ∧ Walked start n s s' (tablesAt va level)
  | 0, s, h => .inr ⟨s, rfl, Walked.refl h⟩
  | level + 1, s, h => by
    rw [walkLevels, tablesAt, Finset.insert_eq]
    dsimp only
    by_cases h0 : s.table (level + 1) (entryOf (level + 1) va) = 0
    · rw [if_neg (not_not_intro h0)]
      rcases h.take (.table (level + 1) (entryOf (level + 1) va)) with
        ⟨hzero, htake⟩ | ⟨p, s1, htake, htaken⟩
      · refine .inl ⟨by rw [htake, if_pos rfl], ?_⟩
        rw [hzero]
        exact Finset.card_pos.mpr ⟨_, Finset.mem_filter.mpr
          ⟨Finset.mem_union_left _ (Finset.mem_singleton_self _), h0⟩⟩
      · have hfirst := htaken.walked h0
        rw [htake, if_neg htaken.ne_zero, card_absent_union hfirst.absent, hfirst.count]
        rcases Pool.walk va level _ hfirst.pool with ⟨hno, hlt⟩ | ⟨s', hw, hwalked⟩
        · exact .inl ⟨hno, by omega⟩
        · exact .inr ⟨s', hw, hfirst.trans hwalked⟩
    · have hfirst := Walked.present h h0
      rw [if_pos h0, card_absent_union hfirst.absent]
      rcases Pool.walk va level s h with ⟨hno, hlt⟩ | ⟨s', hw, hwalked⟩
      · exact .inl ⟨hno, Nat.lt_add_left _ hlt⟩
      · exact .inr ⟨s', hw, hfirst.trans hwalked⟩

/-! ## The loop of `alloc` -/

/-- `k` pages were mapped from `va` on. -/
structure PagesMapped (start n : Nat) (s s' : NewSystem) (va k : Nat) : Prop where
  pool : Pool start n s'
  count : s.freeCount = s'.freeCount + mapCost s va k
  absent : ∀ l i, s'.table l i = 0 ↔ s.table l i = 0 ∧ (l, i) ∉ tablesOf va k
  kept : ∀ l i, s.table l i ≠ 0 → s'.table l i = s.table l i
  mapped : ∀ i < k, s'.vmap (va + i * pgSize) ≠ 0
  taken : ∀ i < k, s.hs.owner (s'.vmap (va + i * pgSize)) = .free
  other : ∀ v, (∀ i < k, v ≠ va + i * pgSize) → s'.vmap v = s.vmap v
  owner : ∀ q, s.hs.owner q ≠ .free → s'.hs.owner q = s.hs.owner q ∧ s'.use q = s.use q
  used : ∀ q, s.hs.owner q = .free → s'.hs.owner q = .free ∨ q ≠ 0 ∧
    ((∃ i < k, s'.vmap (va + i * pgSize) = q) ∨ ∃ l i, s'.table l i = q)
  top : s'.vmemTop = s.vmemTop
  large : s'.large = s.large

/-- How the loop of `alloc` ends: all pages are mapped, or there is no page for the data of page
`j`, or none for one of its tables. -/
inductive MapEnds (start n : Nat) (s : NewSystem) (va k : Nat) : Option (Nat × NewSystem) → Prop
  | all {s' : NewSystem} : PagesMapped start n s s' va k → MapEnds start n s va k (some (k, s'))
  | data {j : Nat} {s' : NewSystem} : j < k → PagesMapped start n s s' va j → s'.freeCount = 0 →
      MapEnds start n s va k (some (j, s'))
  | table {j : Nat} : j < k → mapCost s va j < s.freeCount → s.freeCount < mapCost s va (j + 1) →
      MapEnds start n s va k none

theorem tablesOf_one : tablesOf va 1 = tablesAt va 2 := by
  simp [tablesOf]

theorem tablesOf_succ : tablesOf va (k + 1) = tablesOf va 1 ∪ tablesOf (va + pgSize) k := by
  have hadd : ∀ i, va + (i + 1) * pgSize = va + pgSize + i * pgSize := fun i => by
    rw [Nat.succ_mul, Nat.add_comm (i * pgSize), Nat.add_assoc]
  ext x
  simp only [tablesOf, Finset.mem_biUnion, Finset.mem_range, Finset.mem_union]
  constructor
  · rintro ⟨i, hi, hx⟩
    cases i with
    | zero => exact .inl ⟨0, Nat.one_pos, hx⟩
    | succ i => exact .inr ⟨i, Nat.lt_of_succ_lt_succ hi, hadd i ▸ hx⟩
  · rintro (⟨i, hi, hx⟩ | ⟨i, hi, hx⟩)
    · obtain rfl : i = 0 := Nat.lt_one_iff.mp hi
      exact ⟨0, k.succ_pos, hx⟩
    · exact ⟨i + 1, Nat.succ_lt_succ hi, (hadd i).symm ▸ hx⟩

theorem mapCost_succ
    (habsent : ∀ l i, s'.table l i = 0 ↔ s.table l i = 0 ∧ (l, i) ∉ tablesOf va 1) :
    mapCost s va (k + 1) = mapCost s va 1 + mapCost s' (va + pgSize) k := by
  rw [mapCost, tablesOf_succ, card_absent_union habsent, mapCost, mapCost]
  omega

theorem PagesMapped.refl (h : Pool start n s) : PagesMapped start n s s va 0 :=
  ⟨h, rfl, fun _ _ => by simp [tablesOf], fun _ _ _ => rfl, nofun, nofun, fun _ _ => rfl,
    fun _ _ => ⟨rfl, rfl⟩, fun _ h => .inl h, rfl, rfl⟩

/-- A page is mapped. -/
theorem Taken.mapped {s1 : NewSystem} (h : Taken start n s s1 p (.data va))
    (hw : Walked start n s1 s' (tablesAt va 2)) (hva : s.vmap va = 0) :
    PagesMapped start n s (s'.setPage va p) va 1 := by
  have hown : s1.hs.owner p = .client := by rw [h.owner, Function.update_self]
  have huse : s1.use p = .data va := by rw [h.use, Function.update_self]
  obtain ⟨hown', huse'⟩ := hw.owner p (by rw [hown]; exact nofun)
  have hset : ∀ v, v ≠ va → (s'.setPage va p).vmap v = s.vmap v := fun v hv =>
    (Function.update_of_ne hv _ _).trans (by rw [hw.vmap, h.vmap])
  have hself : (s'.setPage va p).vmap va = p := Function.update_self _ _ _
  have hone : ∀ v, (∀ i < 1, v ≠ va + i * pgSize) → v ≠ va := fun v hv => by
    simpa using hv 0 Nat.one_pos
  refine ⟨⟨hw.pool.aligned, hw.pool.freeList, hw.pool.range, fun v hv => ?_, hw.pool.table⟩, ?_,
    fun l i => ?_, fun l i hl => ?_, fun i hi => ?_, fun i hi => ?_,
    fun v hv => hset v (hone v hv), fun q hq => ?_, fun q hq => ?_, hw.top.trans h.top,
    hw.large.trans h.large⟩
  · rcases eq_or_ne v va with rfl | hne
    · rw [hself]
      exact ⟨hown'.trans hown, huse'.trans huse⟩
    · rw [hset v hne, ← h.vmap, ← hw.vmap] at hv ⊢
      exact hw.pool.data v hv
  · have habsent : s1.absent (tablesAt va 2) = s.absent (tablesOf va 1) := by
      rw [NewSystem.absent, NewSystem.absent, h.table, tablesOf_one]
    rw [h.count, hw.count, habsent, mapCost]
    change _ = s'.freeCount + _
    omega
  · rw [tablesOf_one, ← h.table]
    exact hw.absent l i
  · rw [← h.table] at hl ⊢
    exact hw.kept l i hl
  · obtain rfl : i = 0 := Nat.lt_one_iff.mp hi
    rw [Nat.zero_mul, Nat.add_zero, hself]
    exact h.ne_zero
  · obtain rfl : i = 0 := Nat.lt_one_iff.mp hi
    rw [Nat.zero_mul, Nat.add_zero, hself]
    exact h.free
  · have hne : q ≠ p := by
      rintro rfl
      exact hq h.free
    have ho : s1.hs.owner q = s.hs.owner q := by rw [h.owner, Function.update_of_ne hne]
    have hu : s1.use q = s.use q := by rw [h.use, Function.update_of_ne hne]
    obtain ⟨ho', hu'⟩ := hw.owner q (ho ▸ hq)
    exact ⟨ho'.trans ho, hu'.trans hu⟩
  · rcases eq_or_ne q p with rfl | hne
    · refine .inr ⟨h.ne_zero, .inl ⟨0, Nat.one_pos, ?_⟩⟩
      rw [Nat.zero_mul, Nat.add_zero, hself]
    · have ho : s1.hs.owner q = .free := by rw [h.owner, Function.update_of_ne hne, hq]
      exact (hw.used q ho).imp id fun h => ⟨h.1, .inr h.2⟩

theorem PagesMapped.succ (h : PagesMapped start n s s' va 1)
    (h' : PagesMapped start n s' t (va + pgSize) k) : PagesMapped start n s t va (k + 1) := by
  have hadd : ∀ i, va + (i + 1) * pgSize = va + pgSize + i * pgSize := fun i => by
    rw [Nat.succ_mul, Nat.add_comm (i * pgSize), Nat.add_assoc]
  have hne : ∀ i < k, va ≠ va + pgSize + i * pgSize := fun i _ => by
    simp only [pgSize]
    omega
  have hfirst : t.vmap va = s'.vmap va := h'.other va hne
  refine ⟨h'.pool, ?_, fun l i => ?_, fun l i hl => ?_, fun i hi => ?_, fun i hi => ?_,
    fun v hv => ?_, fun q hq => ?_, fun q hq => ?_, h'.top.trans h.top, h'.large.trans h.large⟩
  · rw [h.count, h'.count, mapCost_succ (k := k) h.absent]
    omega
  · rw [h'.absent, h.absent, tablesOf_succ (k := k), Finset.mem_union, not_or, and_assoc]
  · have hk := h.kept l i hl
    rw [h'.kept l i (hk ▸ hl), hk]
  · cases i with
    | zero =>
      have h0 := h.mapped 0 Nat.one_pos
      rw [Nat.zero_mul, Nat.add_zero] at h0 ⊢
      rwa [hfirst]
    | succ i =>
      rw [hadd]
      exact h'.mapped i (Nat.lt_of_succ_lt_succ hi)
  · cases i with
    | zero =>
      have h0 := h.taken 0 Nat.one_pos
      rw [Nat.zero_mul, Nat.add_zero] at h0 ⊢
      rwa [hfirst]
    | succ i =>
      have hfree := h'.taken i (Nat.lt_of_succ_lt_succ hi)
      rw [hadd]
      by_contra hne
      exact hne ((h.owner _ hne).1.symm.trans hfree)
  · rw [h'.other v fun i hi => hadd i ▸ hv (i + 1) (Nat.succ_lt_succ hi), h.other v fun i hi => ?_]
    obtain rfl : i = 0 := Nat.lt_one_iff.mp hi
    exact hv 0 k.succ_pos
  · obtain ⟨ho, hu⟩ := h.owner q hq
    obtain ⟨ho', hu'⟩ := h'.owner q (ho ▸ hq)
    exact ⟨ho'.trans ho, hu'.trans hu⟩
  · rcases h.used q hq with hfree | ⟨hne, ⟨i, hi, hmap⟩ | ⟨l, i, rfl⟩⟩
    · refine (h'.used q hfree).imp id fun hused => ⟨hused.1, hused.2.imp ?_ id⟩
      rintro ⟨i, hi, hmap⟩
      exact ⟨i + 1, Nat.succ_lt_succ hi, by rwa [hadd]⟩
    · obtain rfl : i = 0 := Nat.lt_one_iff.mp hi
      rw [Nat.zero_mul, Nat.add_zero, ← hfirst] at hmap
      exact .inr ⟨hne, .inl ⟨0, k.succ_pos, by rwa [Nat.zero_mul, Nat.add_zero]⟩⟩
    · exact .inr ⟨hne, .inr ⟨l, i, h'.kept l i hne⟩⟩

theorem MapEnds.succ {r : Option (Nat × NewSystem)} (h : PagesMapped start n s s' va 1)
    (hr : MapEnds start n s' (va + pgSize) k r) :
    MapEnds start n s va (k + 1) (r.map fun r => (r.1 + 1, r.2)) := by
  cases hr with
  | all h' => exact .all (h.succ h')
  | data hj h' h0 => exact .data (Nat.succ_lt_succ hj) (h.succ h') h0
  | table hj hlt hgt =>
    have hcount := h.count
    refine .table (Nat.succ_lt_succ hj) ?_ ?_
    · rw [mapCost_succ h.absent]
      omega
    · rw [mapCost_succ h.absent]
      omega

theorem MapEnds.of_pool : ∀ (k va : Nat) (s : NewSystem), Pool start n s →
    (∀ i < k, s.vmap (va + i * pgSize) = 0) → va + k * pgSize ≤ maxVirt →
    MapEnds start n s va k (mapLoop k va s)
  | 0, va, s, h, _, _ => .all (PagesMapped.refl h)
  | k + 1, va, s, h, hnone, hmax => by
    have hva : va < maxVirt := by
      simp only [pgSize, maxVirt] at *
      omega
    have h0 : s.vmap va = 0 := by simpa using hnone 0 k.succ_pos
    rw [mapLoop]
    rcases h.take (.data va) with ⟨hzero, htake⟩ | ⟨p, s1, htake, htaken⟩
    · rw [htake, if_pos rfl]
      exact .data k.succ_pos (PagesMapped.refl h) hzero
    · rw [htake, if_neg htaken.ne_zero, kvmmap, if_neg hva.not_ge]
      dsimp only
      rcases htaken.pool.walk va 2 with ⟨hno, hlt⟩ | ⟨s2, hw, hwalked⟩
      · rw [hno]
        have habsent : s1.absent (tablesAt va 2) = s.absent (tablesOf va 1) := by
          rw [NewSystem.absent, NewSystem.absent, htaken.table, tablesOf_one]
        rw [habsent] at hlt
        refine .table k.succ_pos ?_ ?_
        · rw [htaken.count]
          exact Nat.succ_pos _
        · rw [htaken.count, Nat.zero_add, mapCost]
          omega
      · have hfirst := htaken.mapped hwalked h0
        rw [hw, Option.bind_some, hwalked.vmap, htaken.vmap, if_neg (not_not_intro h0),
          Option.bind_some]
        refine MapEnds.succ hfirst (MapEnds.of_pool k (va + pgSize) _ hfirst.pool ?_ ?_)
        · intro i hi
          rw [hfirst.other]
          · have := hnone (i + 1) (Nat.succ_lt_succ hi)
            rwa [Nat.succ_mul, Nat.add_comm (i * pgSize), ← Nat.add_assoc] at this
          · intro j hj
            simp only [pgSize]
            omega
        · simp only [pgSize, maxVirt] at *
          omega

/-! ## Giving the pages back -/

/-- `k` pages were unmapped from `va` on and given back. -/
structure PagesFreed (start n : Nat) (s s' : NewSystem) (va k : Nat) : Prop where
  pool : Pool start n s'
  count : s'.freeCount = s.freeCount + k
  unmapped : ∀ i < k, s'.vmap (va + i * pgSize) = 0
  other : ∀ v, (∀ i < k, v ≠ va + i * pgSize) → s'.vmap v = s.vmap v
  owner : ∀ q, (∀ i < k, q ≠ s.vmap (va + i * pgSize)) → s'.hs.owner q = s.hs.owner q
  freed : ∀ i < k, s'.hs.owner (s.vmap (va + i * pgSize)) = .free
  table : s'.table = s.table
  use : s'.use = s.use
  top : s'.vmemTop = s.vmemTop
  large : s'.large = s.large

theorem PagesFreed.refl (h : Pool start n s) : PagesFreed start n s s va 0 :=
  ⟨h, rfl, nofun, fun _ _ => rfl, fun _ _ => rfl, nofun, rfl, rfl, rfl, rfl⟩

theorem Pool.give (h : Pool start n s) (hva : s.vmap va ≠ 0) :
    PagesFreed start n s ((s.givePage (s.vmap va)).setPage va 0) va 1 := by
  obtain ⟨hown, huse⟩ := h.data va hva
  obtain ⟨F, hF, hnodup, hmem⟩ := h.freeList
  have hpF : s.vmap va ∉ F := fun hin => by
    have hfree := (hmem _).mp hin
    rw [hown] at hfree
    cases hfree
  have hnodup' : (s.vmap va :: F).Nodup := List.nodup_cons.mpr ⟨hpF, hnodup⟩
  have hmem' : ∀ q, q ∈ s.vmap va :: F ↔
      Function.update s.hs.owner (s.vmap va) .free q = .free := by
    intro q
    rcases eq_or_ne q (s.vmap va) with rfl | hq
    · simp
    · rw [Function.update_of_ne hq, List.mem_cons, or_iff_right hq, hmem]
  have hone : ∀ i < 1, va + i * pgSize = va := fun i hi => by
    rw [Nat.lt_one_iff.mp hi, Nat.zero_mul, Nat.add_zero]
  have hset : ∀ v, v ≠ va → ((s.givePage (s.vmap va)).setPage va 0).vmap v = s.vmap v := fun v hv =>
    Function.update_of_ne hv _ _
  have hself : ((s.givePage (s.vmap va)).setPage va 0).vmap va = 0 := Function.update_self _ _ _
  have hout : s.hs.owner (s.vmap va) ≠ .outside := by rw [hown]; exact nofun
  refine ⟨⟨fun q hq => ?_, ⟨s.vmap va :: F, ?_, hnodup', hmem'⟩, fun q hq => ?_, fun v hv => ?_,
    fun l i hl => ?_⟩, ?_, fun i hi => ?_, fun v hv => hset v ?_, fun q hq => ?_,
    fun i hi => ?_, rfl, rfl, rfl, rfl⟩
  · rcases eq_or_ne q (s.vmap va) with rfl | hne
    · exact h.aligned _ hout
    · exact h.aligned q fun ho => hq ((Function.update_of_ne hne _ _).trans ho)
  · refine ⟨rfl, (h.aligned _ hout).2, ?_⟩
    change Chain (s.hs.k.freePage (s.vmap va)).mem 0
      ((s.hs.k.freePage (s.vmap va)).mem (s.vmap va)) F
    have hlink : (s.hs.k.freePage (s.vmap va)).mem (s.vmap va) = s.hs.k.freePageList := by
      simp [KernelMem.freePage]
    rw [hlink]
    refine hF.congr fun q hq => ?_
    have hne : q ≠ s.vmap va := by
      rintro rfl
      exact hpF hq
    simp [KernelMem.freePage, write_mem_of_ne hne]
  · rcases eq_or_ne q (s.vmap va) with rfl | hne
    · exact h.range _ hout
    · exact h.range q fun ho => hq ((Function.update_of_ne hne _ _).trans ho)
  · rcases eq_or_ne v va with rfl | hne
    · exact absurd hself hv
    · rw [hset v hne] at hv ⊢
      obtain ⟨hown', huse'⟩ := h.data v hv
      have hpage : s.vmap v ≠ s.vmap va := by
        intro heq
        rw [heq, huse] at huse'
        exact hne (PageUse.data.inj huse').symm
      exact ⟨(Function.update_of_ne hpage _ _).trans hown', huse'⟩
  · obtain ⟨hown', huse'⟩ := h.table l i hl
    have hpage : s.table l i ≠ s.vmap va := by
      intro heq
      rw [heq, huse] at huse'
      cases huse'
    exact ⟨(Function.update_of_ne hpage _ _).trans hown', huse'⟩
  · rw [freeCount_eq hnodup hmem]
    exact freeCount_eq hnodup' hmem'
  · rw [hone i hi]
    exact hself
  · exact fun heq => hv 0 Nat.one_pos (heq.trans (hone 0 Nat.one_pos).symm)
  · refine Function.update_of_ne (fun heq => hq 0 Nat.one_pos ?_) _ _
    rw [hone 0 Nat.one_pos, heq]
  · rw [hone i hi]
    exact Function.update_self _ _ _

theorem PagesFreed.succ (h : PagesFreed start n s s' va 1)
    (h' : PagesFreed start n s' t (va + pgSize) k) : PagesFreed start n s t va (k + 1) := by
  have hadd : ∀ i, va + (i + 1) * pgSize = va + pgSize + i * pgSize := fun i => by
    rw [Nat.succ_mul, Nat.add_comm (i * pgSize), Nat.add_assoc]
  have hzero : va + 0 * pgSize = va := by rw [Nat.zero_mul, Nat.add_zero]
  have hlater : ∀ i, s'.vmap (va + pgSize + i * pgSize) = s.vmap (va + pgSize + i * pgSize) :=
    fun i => h.other _ fun j hj => by
      simp only [pgSize]
      omega
  refine ⟨h'.pool, ?_, fun i hi => ?_, fun v hv => ?_, fun q hq => ?_, fun i hi => ?_,
    h'.table.trans h.table, h'.use.trans h.use, h'.top.trans h.top, h'.large.trans h.large⟩
  · rw [h'.count, h.count, Nat.add_assoc, Nat.add_comm 1 k]
  · cases i with
    | zero =>
      rw [h'.other _ fun j hj => by simp only [pgSize]; omega]
      exact h.unmapped 0 Nat.one_pos
    | succ i =>
      rw [hadd]
      exact h'.unmapped i (Nat.lt_of_succ_lt_succ hi)
  · rw [h'.other v fun i hi => hadd i ▸ hv (i + 1) (Nat.succ_lt_succ hi), h.other v fun i hi => ?_]
    obtain rfl : i = 0 := Nat.lt_one_iff.mp hi
    exact hv 0 k.succ_pos
  · rw [h'.owner q fun i hi => ?_, h.owner q fun i hi => ?_]
    · obtain rfl : i = 0 := Nat.lt_one_iff.mp hi
      exact hq 0 k.succ_pos
    · rw [hlater, ← hadd]
      exact hq (i + 1) (Nat.succ_lt_succ hi)
  · cases i with
    | zero =>
      have hfree := h.freed 0 Nat.one_pos
      by_cases hin : ∃ i < k, s.vmap (va + 0 * pgSize) = s'.vmap (va + pgSize + i * pgSize)
      · obtain ⟨i, hi, heq⟩ := hin
        rw [heq]
        exact h'.freed i hi
      · rw [h'.owner _ fun i hi heq => hin ⟨i, hi, heq⟩, hfree]
    | succ i =>
      rw [hadd, ← hlater]
      exact h'.freed i (Nat.lt_of_succ_lt_succ hi)

/-- `kvmunmap` of pages that are mapped. -/
theorem Pool.unmap : ∀ (k va : Nat) (s : NewSystem), Pool start n s →
    va + (k + 1) * pgSize ≤ maxVirt →
    (∀ i < k + 1, s.vmap (va + i * pgSize) ≠ 0 ∧ s.table 2 (entryOf 2 (va + i * pgSize)) ≠ 0 ∧
      s.table 1 (entryOf 1 (va + i * pgSize)) ≠ 0) →
    ∃ s', kvmunmap (k + 1) va s = some s' ∧ PagesFreed start n s s' va (k + 1)
  | k, va, s, h, hmax, hmap => by
    have hva : va < maxVirt := by
      simp only [pgSize, maxVirt] at *
      omega
    obtain ⟨hpage, h2, h1⟩ := hmap 0 k.succ_pos
    rw [Nat.zero_mul, Nat.add_zero] at hpage h2 h1
    have hfirst := h.give hpage
    have hok : ¬ (maxVirt ≤ va ∨ s.table 2 (entryOf 2 va) = 0 ∨ s.table 1 (entryOf 1 va) = 0 ∨
        s.vmap va = 0) := by
      simp only [not_or]
      exact ⟨hva.not_ge, h2, h1, hpage⟩
    rw [kvmunmap, if_neg hok]
    dsimp only
    cases k with
    | zero => exact ⟨_, rfl, hfirst⟩
    | succ k =>
      rw [if_neg k.succ_ne_zero]
      have hadd : ∀ i, va + (i + 1) * pgSize = va + pgSize + i * pgSize := fun i => by
        rw [Nat.succ_mul, Nat.add_comm (i * pgSize), Nat.add_assoc]
      obtain ⟨s', hok', hrest⟩ := Pool.unmap k (va + pgSize) _ hfirst.pool (by
          simp only [pgSize, maxVirt] at *
          omega) fun i hi => by
        have hm := hmap (i + 1) (Nat.succ_lt_succ hi)
        rw [hadd] at hm
        rw [hfirst.table, hfirst.other _ fun j hj => by simp only [pgSize]; omega]
        exact hm
      exact ⟨s', hok', hfirst.succ hrest⟩

/-! ## `alloc` -/

/-- Nothing is mapped from `vmem_top` on. -/
def Above (s : NewSystem) : Prop := ∀ v, s.vmemTop ≤ v → s.vmap v = 0

/-- What `alloc` relies on; `vmem_top` is not higher than the pool allows. -/
structure Ready (start n : Nat) (s : NewSystem) : Prop extends Pool start n s where
  above : Above s
  whole : s.vmemTop % pgSize = 0
  top : s.vmemTop ≤ vmemStart + n * 2 ^ 21

/-- There are pages enough for the allocation and its tables. -/
def Satisfiable (s : NewSystem) (size : Int) : Prop :=
  mapCost s s.vmemTop (intPageCount size).toNat ≤ s.freeCount

/-- Nothing but the tables that were made is left of an allocation. -/
structure Restored (s s' : NewSystem) : Prop where
  top : s'.vmemTop = s.vmemTop
  vmap : s'.vmap = s.vmap
  table : ∀ l i, s.table l i ≠ 0 → s'.table l i = s.table l i
  owner : ∀ q, s.hs.owner q ≠ .free → s'.hs.owner q = s.hs.owner q
  free : ∀ q, s.hs.owner q = .free → s'.hs.owner q = .free ∨ q ≠ 0 ∧ ∃ l i, s'.table l i = q
  large : s'.large = s.large

/-- `alloc` returns null, what it took is given back, and an allocation for which there are pages
enough then begins at the same address. -/
def Undone (s : NewSystem) (size : Int) : Prop :=
  ∃ s', s.allocInt size = some (0, s') ∧ Restored s s' ∧
    ∀ size', 1024 < size' → size' < 2 ^ 31 → Satisfiable s' size' →
      ∃ s'', s'.allocInt size' = some (s.vmemTop + largeInfoSize, s'')

theorem mapCost_strictMono : StrictMono (mapCost s va) := by
  refine strictMono_nat_of_lt_succ fun k => ?_
  have hsub : s.absent (tablesOf va k) ⊆ s.absent (tablesOf va (k + 1)) :=
    Finset.filter_subset_filter _
      (Finset.biUnion_subset_biUnion_of_subset_left _ (Finset.range_mono k.le_succ))
  exact Nat.add_lt_add_of_lt_of_le k.lt_succ_self (Finset.card_le_card hsub)

/-- The table of a page of the range is one of its tables. -/
theorem mem_tablesOf {i l : Nat} (hi : i < k) (hl : l = 1 ∨ l = 2) :
    (l, entryOf l (va + i * pgSize)) ∈ tablesOf va k := by
  refine Finset.mem_biUnion.mpr ⟨i, Finset.mem_range.mpr hi, ?_⟩
  rcases hl with rfl | rfl
  · simp [tablesAt]
  · simp [tablesAt]

theorem PagesMapped.restored {j : Nat} (h : PagesMapped start n s s' va j)
    (h' : PagesFreed start n s' t va j) (hnone : ∀ i < j, s.vmap (va + i * pgSize) = 0) :
    Restored s t := by
  refine ⟨h'.top.trans h.top, funext fun v => ?_, fun l i hl => ?_, fun q hq => ?_, fun q hq => ?_,
    h'.large.trans h.large⟩
  · by_cases hin : ∃ i < j, v = va + i * pgSize
    · obtain ⟨i, hi, rfl⟩ := hin
      rw [h'.unmapped i hi, hnone i hi]
    · have hout : ∀ i < j, v ≠ va + i * pgSize := fun i hi heq => hin ⟨i, hi, heq⟩
      rw [h'.other v hout, h.other v hout]
  · rw [h'.table, h.kept l i hl]
  · rw [h'.owner q fun i hi heq => hq (heq ▸ h.taken i hi)]
    exact (h.owner q hq).1
  · rw [h'.table]
    rcases h.used q hq with hfree | ⟨hne, ⟨i, hi, rfl⟩ | htable⟩
    · by_cases hin : ∃ i < j, q = s'.vmap (va + i * pgSize)
      · obtain ⟨i, hi, rfl⟩ := hin
        exact .inl (h'.freed i hi)
      · exact .inl ((h'.owner q fun i hi heq => hin ⟨i, hi, heq⟩).trans hfree)
    · exact .inl (h'.freed i hi)
    · exact .inr ⟨hne, htable⟩

/-- What `alloc` leaves behind when it returns a pointer. -/
structure LargeMapped (s s' : NewSystem) (count : Nat) : Prop where
  large : s'.large = ⟨s.vmemTop, count⟩ :: s.large
  top : s'.vmemTop = s.vmemTop + count * pgSize
  mapped : ∀ i < count, s'.vmap (s.vmemTop + i * pgSize) ≠ 0
  other : ∀ v, (∀ i < count, v ≠ s.vmemTop + i * pgSize) → s'.vmap v = s.vmap v

/-- How `alloc` of `count` pages ends. -/
inductive LargeEnds (start n : Nat) (s : NewSystem) (count : Nat) : Option (Nat × NewSystem) → Prop
  | mapped {s' : NewSystem} : mapCost s s.vmemTop count ≤ s.freeCount → LargeMapped s s' count →
      LargeEnds start n s count (some (s.vmemTop + largeInfoSize, s'))
  | null {j : Nat} {s' : NewSystem} : j < count → s.freeCount = mapCost s s.vmemTop j →
      Restored s s' → Pool start n s' → s'.freeCount = j →
      (∀ l i, s'.table l i = 0 ↔ s.table l i = 0 ∧ (l, i) ∉ tablesOf s.vmemTop j) →
      LargeEnds start n s count (some (0, s'))
  | panic {j : Nat} : j < count → mapCost s s.vmemTop j < s.freeCount →
      s.freeCount < mapCost s s.vmemTop (j + 1) → LargeEnds start n s count none

/-- The product of two `int`s does not overflow, as there are not so many pages. -/
theorem toSize_top {top count : Nat} (hcount : count < 2 ^ 19)
    (hroom : top + count * pgSize ≤ maxVirt) :
    toSize (top + ((count : Int) * pgSize).bmod (2 ^ 32)) = top + count * pgSize := by
  simp only [toSize, pgSize, maxVirt] at *
  rw [Int.bmod_eq_of_le (by omega) (by omega)]
  omega

theorem LargeEnds.of_pool {size : Int} (h : Pool start n s) (hn : n < 2 ^ 19)
    (habove : ∀ v, s.vmemTop ≤ v → s.vmap v = 0) (hpos : 0 < intPageCount size)
    (hroom : s.vmemTop + (intPageCount size).toNat * pgSize ≤ maxVirt) :
    LargeEnds start n s (intPageCount size).toNat (s.allocInt size) := by
  obtain ⟨count, hcount⟩ : ∃ count : Nat, intPageCount size = count :=
    ⟨_, (Int.toNat_of_nonneg hpos.le).symm⟩
  rw [hcount, Int.toNat_natCast] at hroom
  rw [allocInt]
  simp only [hcount, Int.toNat_natCast]
  have hcount0 : 0 < count := Int.natCast_pos.mp (hcount ▸ hpos)
  have hnone : ∀ i < count, s.vmap (s.vmemTop + i * pgSize) = 0 := fun i _ =>
    habove _ (Nat.le_add_right _ _)
  have hends := MapEnds.of_pool count s.vmemTop s h hnone hroom
  generalize mapLoop count s.vmemTop s = r at hends
  cases hends with
  | @all s1 hmapped =>
    have hcost : mapCost s s.vmemTop count ≤ s.freeCount := hmapped.count ▸ Nat.le_add_left _ _
    have hle : count ≤ n := (Nat.le_add_right _ _).trans (hcost.trans h.freeCount_le)
    have hfirst := hmapped.mapped 0 hcount0
    rw [Nat.zero_mul, Nat.add_zero] at hfirst
    rw [Option.bind_some, if_pos le_rfl]
    dsimp only
    rw [if_neg hfirst]
    refine .mapped hcost ⟨congrArg _ hmapped.large, ?_, hmapped.mapped, hmapped.other⟩
    rw [writeV_vmemTop, writeV_vmemTop]
    dsimp only
    rw [toSize_top (hle.trans_lt hn) hroom]
  | @data j s1 hj hmapped hzero =>
    have hcost : s.freeCount = mapCost s s.vmemTop j := by
      rw [hmapped.count, hzero, Nat.zero_add]
    rw [Option.bind_some, if_neg (by dsimp only; omega)]
    dsimp only
    cases j with
    | zero =>
      rw [if_neg (lt_irrefl 0)]
      exact .null hj hcost (hmapped.restored (PagesFreed.refl hmapped.pool) nofun)
        hmapped.pool hzero
        hmapped.absent
    | succ j =>
      have hroom' : s.vmemTop + (j + 1) * pgSize ≤ maxVirt :=
        (Nat.add_le_add_left (Nat.mul_le_mul_right _ hj.le) _).trans hroom
      obtain ⟨s2, hunmap, hfreed⟩ := hmapped.pool.unmap j s.vmemTop s1 hroom' fun i hi =>
        ⟨hmapped.mapped i hi, fun h0 => ((hmapped.absent _ _).mp h0).2 (mem_tablesOf hi (.inr rfl)),
          fun h0 => ((hmapped.absent _ _).mp h0).2 (mem_tablesOf hi (.inl rfl))⟩
      rw [if_pos j.succ_pos, hunmap]
      refine .null hj hcost (hmapped.restored hfreed fun i _ => habove _ (Nat.le_add_right _ _))
        hfreed.pool ?_ fun l i => ?_
      · rw [hfreed.count, hzero, Nat.zero_add]
      · rw [hfreed.table]
        exact hmapped.absent l i
  | table hj hlt hgt => exact .panic hj hlt hgt

/-! ## Allocations that cannot be satisfied -/

theorem toInt_of_lt {m : Nat} (h : m < 2 ^ 31) : toInt m = m := by
  have hmod : (m : Int).bmod (2 ^ 32) = m := by rw [Int.bmod_eq_of_le (by omega) (by omega)]
  exact hmod

theorem toSize_of_nonneg {x : Int} (h0 : 0 ≤ x) (hlt : x < 2 ^ 31) : toSize x = x.toNat := by
  rw [toSize]
  omega

theorem intPageCount_eq {size : Int} (h0 : 0 ≤ size) (hlt : size < 2 ^ 31) :
    intPageCount size = pageCount size.toNat := by
  have hcount : (size.toNat + largeInfoSize + pgSize - 1) % 2 ^ 64 / pgSize =
      pageCount size.toNat := by
    simp only [pageCount, largeInfoSize, pgSize]
    omega
  have hle : pageCount size.toNat < 2 ^ 31 := by
    simp only [pageCount, largeInfoSize, pgSize]
    omega
  rw [intPageCount, toSize_of_nonneg h0 hlt, hcount, toInt_of_lt hle]

/-- The pages of the pool lie in the memory of the machine. -/
theorem pool_small (hstart : kernBase ≤ start) (hend : start + n * pgSize ≤ ioMemStart) :
    n ≤ 2 ^ 15 := by
  simp only [kernBase, ioMemStart, pgSize] at *
  omega

theorem Ready.room {size : Int} (h : Ready start n s) (hn : n ≤ 2 ^ 15) (h0 : 0 ≤ size)
    (hlt : size < 2 ^ 31) : s.vmemTop + (intPageCount size).toNat * pgSize ≤ maxVirt := by
  have htop := h.top
  rw [intPageCount_eq h0 hlt, Int.toNat_natCast]
  simp only [pageCount, largeInfoSize, pgSize, vmemStart, maxVirt] at *
  omega

theorem intPageCount_pos {size : Int} (h0 : 0 ≤ size) (hlt : size < 2 ^ 31) :
    0 < intPageCount size := by
  rw [intPageCount_eq h0 hlt]
  exact Int.natCast_pos.mpr (pageCount_pos _)

theorem LargeEnds.of_ready {size : Int} (h : Ready start n s) (hn : n ≤ 2 ^ 15) (h0 : 0 ≤ size)
    (hlt : size < 2 ^ 31) : LargeEnds start n s (intPageCount size).toNat (s.allocInt size) :=
  LargeEnds.of_pool h.toPool (hn.trans_lt (by decide)) h.above (intPageCount_pos h0 hlt)
    (h.room hn h0 hlt)

theorem Restored.ready (h : Restored s s') (hs : Ready start n s) (hpool : Pool start n s') :
    Ready start n s' := by
  refine ⟨hpool, fun v hv => ?_, h.top ▸ hs.whole, h.top ▸ hs.top⟩
  rw [h.vmap]
  exact hs.above v (h.top ▸ hv)

/-- An allocation that cannot be satisfied is undone if and only if the pool runs out of pages at a
data page, and not at a page for a table. -/
theorem undone_iff {size : Int} (h : Ready start n s) (hstart : kernBase ≤ start)
    (hend : start + n * pgSize ≤ ioMemStart) (hsize : 1024 < size) (hlt : size < 2 ^ 31)
    (hunsat : ¬ Satisfiable s size) : Undone s size ↔
      ∃ j < (intPageCount size).toNat, s.freeCount = mapCost s s.vmemTop j := by
  have hn := pool_small hstart hend
  have h0 : 0 ≤ size := (by decide : (0 : Int) ≤ 1024).trans hsize.le
  have hends := LargeEnds.of_ready h hn h0 hlt
  rw [Undone]
  cases hr : s.allocInt size with
  | none =>
    rw [hr] at hends
    cases hends with
    | @panic j hj hlow hhigh =>
      refine iff_of_false (by rintro ⟨s', hs', -⟩; cases hs') ?_
      rintro ⟨i, -, heq⟩
      rw [heq] at hlow hhigh
      exact absurd (mapCost_strictMono.lt_iff_lt.mp hhigh)
        (Nat.lt_succ_iff.not.mpr (mapCost_strictMono.lt_iff_lt.mp hlow).not_ge)
  | some r =>
    rw [hr] at hends
    cases hends with
    | mapped hle => exact absurd hle hunsat
    | @null j s' hj hcost hrestored hpool =>
      refine iff_of_true ⟨s', rfl, hrestored, fun size' hsize' hlt' hsat => ?_⟩ ⟨j, hj, hcost⟩
      have h0' : 0 ≤ size' := (by decide : (0 : Int) ≤ 1024).trans hsize'.le
      have hends' := LargeEnds.of_ready (hrestored.ready h hpool) hn h0' hlt'
      rw [← hrestored.top]
      generalize s'.allocInt size' = r at hends'
      cases hends' with
      | mapped hle hmapped => exact ⟨_, rfl⟩
      | null hi hcost' =>
        exact absurd (hsat.trans_eq hcost') (mapCost_strictMono.lt_iff_lt.mpr hi).not_ge
      | panic hi _ hhigh =>
        exact absurd (hsat.trans_lt hhigh)
          (mapCost_strictMono.monotone (Nat.succ_le_of_lt hi)).not_gt

/-! ## The states of a run -/

/-- On sizes that an `int` holds, `alloc` is the one of `NewDelete`. -/
theorem allocInt_eq {size : Nat} (h : Ready start n s) (hn : n ≤ 2 ^ 15) (hlt : size < 2 ^ 31) :
    s.allocInt size = s.largeAlloc size := by
  have hlt' : (size : Int) < 2 ^ 31 := by exact_mod_cast hlt
  have hcount : intPageCount size = pageCount size := by
    rw [intPageCount_eq (Int.natCast_nonneg size) hlt', Int.toNat_natCast]
  have hroom := h.room hn (Int.natCast_nonneg size) hlt'
  rw [hcount, Int.toNat_natCast] at hroom
  have hends := MapEnds.of_pool (pageCount size) s.vmemTop s h.toPool
    (fun i _ => h.above _ (Nat.le_add_right _ _)) hroom
  have hpos := pageCount_pos size
  rw [allocInt, largeAlloc]
  simp only [hcount, Int.toNat_natCast]
  generalize mapLoop (pageCount size) s.vmemTop s = r at hends
  cases hends with
  | @all s1 hmapped =>
    have hle : pageCount size ≤ n := by
      have hfree := h.freeCount_le
      have hcost := hmapped.count
      rw [mapCost] at hcost
      omega
    have hfirst := hmapped.mapped 0 hpos
    rw [Nat.zero_mul, Nat.add_zero] at hfirst
    rw [Option.bind_some, Option.bind_some, if_pos le_rfl, if_pos rfl]
    dsimp only
    rw [if_neg hfirst, toSize_top (by omega) hroom, toSize_of_nonneg (Int.natCast_nonneg _) hlt',
      toSize_of_nonneg (Int.natCast_nonneg _) (by omega)]
    rfl
  | @data j s1 hj hmapped hzero =>
    rw [Option.bind_some, Option.bind_some, if_neg (by dsimp only; omega), if_neg hj.ne]
  | table => rw [Option.bind_none, Option.bind_none]

theorem NewInv.ready (h : NewInv start n s) (ha : Above s) : Ready start n s :=
  ⟨Pool.of_vmInv h.toVmInv, ha, h.top.2, h.top_le⟩

theorem tryAlloc_above {size : Nat} {r : Nat × NewSystem} (h : Ready start n s) (hn : n ≤ 2 ^ 15)
    (hsize : size < 2 ^ 31) (ha : s.tryAlloc size = some r) : Above r.2 := by
  rw [tryAlloc] at ha
  split at ha
  · have hlt : (size : Int) < 2 ^ 31 := by exact_mod_cast hsize
    have hends := LargeEnds.of_ready h hn (Int.natCast_nonneg size) hlt
    rw [allocInt_eq h hn hsize, ha] at hends
    cases hends with
    | mapped _ hmapped =>
      intro v hv
      rw [hmapped.top] at hv
      rw [hmapped.other v fun i hi => ?_]
      · exact h.above v (le_trans (Nat.le_add_right _ _) hv)
      · have hmul : (i + 1) * pgSize ≤ (intPageCount size).toNat * pgSize :=
          Nat.mul_le_mul_right _ hi
        simp only [pgSize] at *
        omega
    | null _ _ hrestored hpool => exact (hrestored.ready h hpool).above
  · obtain ⟨c, -, rfl⟩ := Option.map_eq_some_iff.mp ha
    exact h.above

theorem defaultAlloc_above {fuel size : Nat} {r : Nat × NewSystem} (h : NewInv start n s)
    (ha : Above s) (hn : n ≤ 2 ^ 15) (hsize : size < 2 ^ 31) (hok : s.NewOk (.new size r.1))
    (hr : s.defaultAlloc fuel size = some r) : Above r.2 := by
  rw [defaultAlloc] at hr
  obtain ⟨⟨ptr, t⟩, hfirst, hr⟩ := Option.bind_eq_some_iff.mp hr
  obtain ⟨hinv, hnull⟩ := tryAlloc_spec h hfirst
  have habove := tryAlloc_above (h.ready ha) hn hsize hfirst
  split at hr
  · obtain rfl := Option.some.inj hr
    exact habove
  · rename_i hz
    obtain rfl : ptr = 0 := not_not.mp hz
    obtain ⟨hs, ht, hr⟩ := Option.bind_eq_some_iff.mp hr
    obtain ⟨lo, hi, hf⟩ := hnull rfl
    obtain rfl := truncateAll_id hinv.heap
      (fun c => truncateOk_frame h.heap hf (hok ⟨t, hfirst⟩ c)) ht
    exact tryAlloc_above (hinv.ready habove) hn hsize hr

/-- `kvmunmap` maps nothing. -/
theorem kvmunmap_above : ∀ (m va : Nat) (s : NewSystem), kvmunmap m va s = some s' →
    Above s → Above s'
  | 0, _, _, hu, _ => by cases hu
  | m + 1, va, s, hu, ha => by
    have hfirst : Above ((s.givePage (s.vmap va)).setPage va 0) := fun v hv => by
      rcases eq_or_ne v va with rfl | hne
      · exact Function.update_self _ _ _
      · exact (Function.update_of_ne hne _ _).trans (ha v hv)
    rw [kvmunmap] at hu
    split at hu
    · cases hu
    · dsimp only at hu
      split at hu
      · obtain rfl := Option.some.inj hu
        exact hfirst
      · exact kvmunmap_above m _ _ hu hfirst

theorem delete_above {ptr : Nat} (ha : Above s) (hd : s.delete ptr = some s') : Above s' := by
  rw [delete] at hd
  split at hd
  · obtain ⟨k, -, rfl⟩ := Option.map_eq_some_iff.mp hd
    exact ha
  · rw [largeFree] at hd
    split at hd
    · cases hd
    · exact kvmunmap_above _ _ _ hd ha
  · cases hd
  · cases hd

theorem above_step {op : NewOp} (h : NewInv start n s) (hn : n ≤ 2 ^ 15) (ha : Above s)
    (hok : s.NewOk op) (hs : Step s op s') : Above s' := by
  cases hs with
  | new hsize hr => exact defaultAlloc_above h ha hn (hsize.trans_lt (by decide)) hok hr
  | deleteSmall _ hd => exact fun v hv => delete_above ha hd v hv
  | deleteLarge _ hd => exact fun v hv => delete_above ha hd v hv
  | takePage =>
    rw [takePage]
    dsimp only
    split
    · exact ha
    · exact ha
  | givePage => exact ha
  | store => exact ha

/-- Runs of requests, deletions, page requests of others and stores, in which no truncation after a
failed request meets an empty block, lead to states that are ready. -/
theorem ready_run (mem : Nat → Nat) {ops : List NewOp} (hal : start % pgSize = 0)
    (hstart : kernBase ≤ start) (hend : start + n * pgSize ≤ ioMemStart)
    (hrun : Run (Guarded Step NewOk) (boot mem start n) ops s) : Ready start n s := by
  have hinv : NewInv start n s ∧ Above s :=
    hrun.invariant (I := fun s => NewInv start n s ∧ Above s)
      (fun _ _ _ h hs => ⟨newInv_step hend hstart h.1 hs.1 hs.2,
        above_step h.1 (pool_small hstart hend) h.2 hs.1 hs.2⟩)
      ⟨newInv_boot mem hal hstart, fun _ _ => rfl⟩
  exact hinv.1.ready hinv.2

theorem boot_freeCount (mem : Nat → Nat) (hal : start % pgSize = 0) :
    (boot mem start n).freeCount = n := by
  have hnodup : ((List.range n).map fun i => start + i * pgSize).Nodup :=
    List.nodup_range.map fun i j hij => by
      simp only [pgSize] at hij
      omega
  rw [freeCount_eq hnodup fun p => ?_, List.length_map, List.length_range]
  have hown : (boot mem start n).hs.owner p = .free ↔
      p % pgSize = 0 ∧ start ≤ p ∧ p < start + n * pgSize := by
    simp only [boot, HeapSystem.boot]
    split
    · exact iff_of_true rfl ‹_›
    · exact iff_of_false (by simp) ‹_›
  rw [hown, List.mem_map]
  constructor
  · rintro ⟨i, hi, rfl⟩
    rw [List.mem_range] at hi
    simp only [pgSize] at *
    omega
  · rintro ⟨hmod, hge, hlt⟩
    refine ⟨(p - start) / pgSize, List.mem_range.mpr ?_, ?_⟩
    · simp only [pgSize] at *
      omega
    · simp only [pgSize] at *
      omega

theorem boot_ready (mem : Nat → Nat) (hal : start % pgSize = 0) (hstart : kernBase ≤ start) :
    Ready start n (boot mem start n) :=
  (newInv_boot mem hal hstart).ready fun _ _ => rfl

theorem intPageCount_5000 : intPageCount 5000 = 2 := by
  rw [intPageCount_eq (by decide) (by decide)]
  rfl

theorem unsatisfiable_5000 (hn : n < 4) (hal : start % pgSize = 0) :
    ¬ Satisfiable (boot (fun _ => 0) start n) 5000 := by
  have hzero : mapCost (boot (fun _ => 0) 0 0) vmemStart 2 = 4 := by decide +kernel
  have hcost : mapCost (boot (fun _ => 0) start n) vmemStart 2 = 4 := hzero
  rw [Satisfiable, intPageCount_5000, boot_freeCount _ hal]
  change ¬ mapCost (boot (fun _ => 0) start n) vmemStart 2 ≤ n
  rw [hcost]
  exact hn.not_ge

/-- 5000 bytes take two pages and two tables. With three pages in the pool, the second page is the
one that is missing. -/
theorem undone_iff_three : Undone (boot (fun _ => 0) 0x80300000 3) 5000 := by
  have hcost : mapCost (boot (fun _ => 0) 0x80300000 3) vmemStart 1 = 3 := by decide +kernel
  refine (undone_iff (boot_ready _ (by decide) (by decide)) (by decide) (by decide) (by decide)
    (by decide) (unsatisfiable_5000 (by decide) (by decide))).mpr ⟨1, ?_, ?_⟩
  · rw [intPageCount_5000]
    decide
  · rw [boot_freeCount _ (by decide)]
    exact hcost.symm

/-- With two pages it is the second table. -/
theorem table_page_missing : Ready 0x80300000 2 (boot (fun _ => 0) 0x80300000 2) ∧
    ¬ Satisfiable (boot (fun _ => 0) 0x80300000 2) 5000 ∧
    (boot (fun _ => 0) 0x80300000 2).allocInt 5000 = none ∧
    ¬ Undone (boot (fun _ => 0) 0x80300000 2) 5000 := by
  have hnone : (boot (fun _ => 0) 0x80300000 2).allocInt 5000 = none := by
    have hfails : ((boot (fun _ => 0) 0x80300000 2).allocInt 5000).isNone = true := by
      decide +kernel
    exact Option.isNone_iff_eq_none.mp hfails
  refine ⟨boot_ready _ (by decide) (by decide),
    unsatisfiable_5000 (by decide) (by decide), hnone, ?_⟩
  rintro ⟨s', hs', -⟩
  rw [hnone] at hs'
  cases hs'

end NewSystem

end CoroCore
