import CoroCore.Lib.Result
import CoroCore.Lib.Run
import CoroCore.Mm.PageTable

/-!
# What a page table is for

A page table stands for a map from page numbers to frames and flags (`PageMap`). `Refines` says
that the tree in memory is such a map: its pages are different, and `walk` finds a valid entry for
an address if and only if the map has its page, namely the entry made of the frame and the flags.

* `mappages_spec`, `uvmunmap_spec`: the two functions on the map;
* `page_table_refines`: every page table built by them from an empty root stands for a map, on
  which they act as they should.
-/

namespace CoroCore.Vmem

open Lib

/-- Page numbers to frames and flags. -/
abbrev PageMap := Nat → Option (Nat × Nat)

namespace PageMap

/-- Map `k` pages from page `n` on to the frames from `pa` on. -/
def map (m : PageMap) (n k pa perm : Nat) : PageMap :=
  fun j => if n ≤ j ∧ j < n + k then some (pa + (j - n) * pgSize, perm) else m j

/-- Unmap `k` pages from page `n` on. -/
def unmap (m : PageMap) (n k : Nat) : PageMap := fun j => if n ≤ j ∧ j < n + k then none else m j

end PageMap

/-- The valid entry that `walk` with `alloc` 0 finds. -/
def lookup (root va : Nat) (s : Vm) : Option Nat :=
  match walk root va false s with
  | .ok (some (x, i), _) => if valid (s.mem x i) then some (s.mem x i) else none
  | _ => none

/-- The tree stands for the map. -/
structure Refines (root : Nat) (s : Vm) (m : PageMap) : Prop where
  tree : Tree root s
  lookup : ∀ va < maxVa, lookup root va s = (m (va / pgSize)).map fun f => leafPte f.1 f.2
  flags : ∀ n f, m n = some f → HasFlag f.2

variable {root va x i e n k pa perm fuel : Nat} {s s' : Vm} {m : PageMap}

/-! ## One page -/

theorem lookup_eq (hva : va < maxVa) : lookup root va s =
    if valid (entry root s va) then some (entry root s va) else none := by
  rw [lookup, walk_read hva, entry, Radix.leaf]
  cases Radix.node child s.mem root (path 2 va) with
  | none => rfl
  | some x => rfl

theorem lookup_eq_some (hva : va < maxVa) (h : lookup root va s = some e) :
    entry root s va = e ∧ valid e := by
  rw [lookup_eq hva] at h
  split at h
  · cases h
    exact ⟨rfl, ‹_›⟩
  · cases h

theorem not_valid_of_lookup (hva : va < maxVa) (h : lookup root va s = none) :
    ¬ valid (entry root s va) := by
  intro hv
  rw [lookup_eq hva, if_pos hv] at h
  cases h

/-- The indices of two addresses agree if and only if they are in the same page. -/
theorem slot_eq_iff {a : Nat} (ha : a < maxVa) (hva : va < maxVa) :
    (path 2 a = path 2 va ∧ px 0 a = px 0 va) ↔ a / pgSize = va / pgSize := by
  simp only [path, px, List.cons.injEq, and_true, pgSize, maxVa] at *
  omega

theorem entry_of_node (hx : Radix.node child s.mem root (path 2 va) = some x) :
    s.mem x (px 0 va) = entry root s va := by
  rw [entry, Radix.leaf, hx]
  rfl

theorem node_of_valid (h : valid (entry root s va)) :
    ∃ x, Radix.node child s.mem root (path 2 va) = some x := by
  cases hx : Radix.node child s.mem root (path 2 va) with
  | none =>
    rw [entry, Radix.leaf, hx] at h
    exact absurd h not_valid_zero
  | some x => exact ⟨x, rfl⟩

theorem tables_write (ht : Tree root s)
    (hx : Radix.node child s.mem root (path 2 va) = some x) :
    tables root (s.write x i e) = tables root s :=
  Radix.pages_write_leaf ht (path_length 2) hx

theorem Fresh.write (hf : Fresh root s) (ht : Tree root s)
    (hx : Radix.node child s.mem root (path 2 va) = some x) : Fresh root (s.write x i e) :=
  ⟨hf.nodup, hf.aligned, hf.bound, fun p hp => by
    rw [tables_write ht hx]
    exact hf.outside p hp⟩

theorem Plain.write (h : Plain root s) (ht : Tree root s)
    (hx : Radix.node child s.mem root (path 2 va) = some x) (hi : i < width 2) :
    Plain root (s.write x i e) :=
  Radix.Entries.write_leaf h ht (path_length 2) hx fun _ => ⟨hi, fun h => absurd h (lt_irrefl 2)⟩

theorem Uses.write (hf : Fresh root s) (ht : Tree root s)
    (hx : Radix.node child s.mem root (path 2 va) = some x) (hi : i < width 2) :
    Uses root s (s.write x i e) :=
  ⟨hf.write ht hx, ⟨[], rfl, by rw [tables_write ht hx]; simp⟩, rfl, rfl,
    fun hplain => Plain.write hplain ht hx hi⟩

/-- Tables do not matter to the map. -/
theorem Refines.grown (hr : Refines root s m) (h : Grown root s s') : Refines root s' m :=
  ⟨h.tree, fun va hva => by
    rw [lookup_eq hva, h.entry, ← lookup_eq hva, hr.lookup va hva], hr.flags⟩

/-- The entry of `va` is written. -/
theorem Refines.write (hr : Refines root s m) (hva : va < maxVa)
    (hx : Radix.node child s.mem root (path 2 va) = some x) {v : Option (Nat × Nat)}
    (hv : ∀ f, v = some f → HasFlag f.2)
    (he : (if valid e then some e else none) = v.map fun f => leafPte f.1 f.2) :
    Refines root (s.write x (px 0 va) e) (Function.update m (va / pgSize) v) := by
  refine ⟨Radix.Separated.write_leaf hr.tree (path_length 2) hx, fun a ha => ?_, fun j f hj => ?_⟩
  · have hentry : entry root (s.write x (px 0 va) e) a =
        if path 2 a = path 2 va ∧ px 0 a = px 0 va then e else entry root s a :=
      Radix.leaf_write hr.tree (path_length 2) hx (path_length 2)
    rw [lookup_eq ha, hentry]
    simp only [slot_eq_iff ha hva]
    rcases eq_or_ne (a / pgSize) (va / pgSize) with hp | hp
    · rw [if_pos hp, hp, Function.update_self, he]
    · rw [if_neg hp, Function.update_of_ne hp, ← lookup_eq ha, hr.lookup a ha]
  · rcases eq_or_ne j (va / pgSize) with rfl | hne
    · rw [Function.update_self] at hj
      exact hv f hj
    · rw [Function.update_of_ne hne] at hj
      exact hr.flags j f hj

/-! ## `mappages` -/

theorem PageMap.map_succ (m : PageMap) (n k pa perm : Nat) :
    PageMap.map (Function.update m n (some (pa, perm))) (n + 1) k (pa + pgSize) perm =
      m.map n (k + 1) pa perm := by
  funext j
  simp only [PageMap.map]
  rcases eq_or_ne j n with rfl | hne
  · rw [if_neg (by omega), if_pos (by omega), Function.update_self, Nat.sub_self, Nat.zero_mul,
      Nat.add_zero]
  · rw [Function.update_of_ne hne]
    by_cases hj : n + 1 ≤ j ∧ j < n + 1 + k
    · rw [if_pos hj, if_pos (by omega)]
      have hsub : j - n = j - (n + 1) + 1 := by omega
      rw [hsub, Nat.succ_mul, Nat.add_assoc, Nat.add_comm pgSize]
    · rw [if_neg hj, if_neg (by omega)]

theorem PageMap.map_zero (m : PageMap) (n pa perm : Nat) : m.map n 0 pa perm = m := by
  funext j
  exact if_neg (by omega)

theorem PageMap.map_one (m : PageMap) (n pa perm : Nat) :
    m.map n 1 pa perm = Function.update m n (some (pa, perm)) := by
  rw [← PageMap.map_succ, PageMap.map_zero]

/-- How `mappages` ends, with `k` pages to map: all of them are mapped, or the first ones, and
there is no page left for a table. -/
structure Mapped (root : Nat) (s : Vm) (m : PageMap) (n k pa perm : Nat) (r : Int) (s' : Vm) :
    Prop where
  uses : Uses root s s'
  cases : r = 0 ∧ Refines root s' (m.map n k pa perm) ∨
    r = -1 ∧ s'.free = [] ∧ ∃ j < k, Refines root s' (m.map n j pa perm)

theorem mapLoop_spec (hperm : HasFlag perm) : ∀ (k fuel n pa : Nat) (s : Vm) (m : PageMap),
    Refines root s m → Fresh root s → n + k < maxVa / pgSize → k < fuel →
    pa + k * pgSize < 2 ^ 64 → (∀ j ≤ k, m (n + j) = none) →
    ∃ r s', mapLoop root ((n + k) * pgSize) perm fuel (n * pgSize) pa s = .ok (r, s') ∧
      Mapped root s m n (k + 1) pa perm r s'
  | k, 0, _, _, _, _, _, _, _, hfuel, _, _ => absurd hfuel (Nat.not_lt_zero k)
  | k, fuel + 1, n, pa, s, m, hr, hf, hlt, hfuel, hpa, hnone => by
    have hva : n * pgSize < maxVa := by
      simp only [pgSize, maxVa] at hlt ⊢
      omega
    have hn : n * pgSize / pgSize = n := Nat.mul_div_cancel n (by decide)
    obtain ⟨r, s1, hwalk, hgrown, hno, hfound⟩ := walk_alloc hr.tree hf hva
    rw [mapLoop, hwalk]
    cases r with
    | none =>
      refine ⟨-1, s1, rfl, hgrown.toUses, .inr ⟨rfl, hno rfl, 0, Nat.succ_pos k, ?_⟩⟩
      rw [PageMap.map_zero]
      exact hr.grown hgrown
    | some xi =>
      obtain ⟨x, i⟩ := xi
      obtain ⟨rfl, hx⟩ := hfound x i rfl
      have hr1 := hr.grown hgrown
      have hlook : lookup root (n * pgSize) s1 = none := by
        rw [hr1.lookup _ hva, hn]
        exact congrArg _ (hnone 0 (Nat.zero_le k))
      have hinv : ¬ valid (s1.mem x (px 0 (n * pgSize))) := by
        rw [entry_of_node hx]
        exact not_valid_of_lookup hva hlook
      have hr2 : Refines root (s1.write x (px 0 (n * pgSize)) (leafPte pa perm))
          (Function.update m n (some (pa, perm))) := by
        have := hr1.write hva hx (v := some (pa, perm)) (by rintro _ ⟨rfl⟩; exact hperm)
          (if_pos (valid_or _))
        rwa [hn] at this
      have huses : Uses root s (s1.write x (px 0 (n * pgSize)) (leafPte pa perm)) :=
        hgrown.toUses.trans (Uses.write hgrown.fresh hgrown.tree hx (px_lt hva rfl))
      simp only [bind, Except.bind, if_neg hinv]
      cases k with
      | zero =>
        refine ⟨0, _, ?_, huses, .inl ⟨rfl, ?_⟩⟩
        · rw [if_pos (by rw [Nat.add_zero])]
          rfl
        · rw [PageMap.map_one]
          exact hr2
      | succ k =>
        have hstep : n * pgSize + pgSize = (n + 1) * pgSize := (Nat.succ_mul n pgSize).symm
        have hpa1 : pa + pgSize + k * pgSize < 2 ^ 64 := by
          rwa [Nat.succ_mul, Nat.add_comm _ pgSize, ← Nat.add_assoc] at hpa
        have hpa' : (pa + pgSize) % 2 ^ 64 = pa + pgSize :=
          Nat.mod_eq_of_lt (Nat.lt_of_le_of_lt (Nat.le_add_right _ _) hpa1)
        have hne : n * pgSize ≠ (n + (k + 1)) * pgSize := by
          simp only [pgSize]
          omega
        have hlast : n + (k + 1) = n + 1 + k := Nat.add_left_comm n k 1 ▸ Nat.add_comm k (n + 1)
        obtain ⟨r, s', hloop, hmapped⟩ := mapLoop_spec hperm k fuel (n + 1) (pa + pgSize) _ _ hr2
          huses.fresh (hlast ▸ hlt) (Nat.lt_of_succ_lt_succ hfuel) hpa1 (fun j hj => by
            rw [Function.update_of_ne (by omega)]
            have := hnone (j + 1) (by omega)
            rwa [← Nat.add_assoc, Nat.add_right_comm] at this)
        refine ⟨r, s', ?_, huses.trans hmapped.uses, ?_⟩
        · rw [if_neg hne, hstep, hpa', hlast]
          exact hloop
        · rcases hmapped.cases with ⟨rfl, h⟩ | ⟨rfl, hfree, j, hj, h⟩
          · rw [PageMap.map_succ] at h
            exact .inl ⟨rfl, h⟩
          · rw [PageMap.map_succ] at h
            exact .inr ⟨rfl, hfree, j + 1, Nat.succ_lt_succ hj, h⟩

/-- The number of pages that a range touches. -/
def pageCount (va size : Nat) : Nat := (va + size - 1) / pgSize - va / pgSize + 1

theorem lastPage_eq {size : Nat} (hsize : 1 ≤ size) (hva : va + size ≤ maxVa) :
    lastPage va size = (va / pgSize + (pageCount va size - 1)) * pgSize := by
  simp only [lastPage, pageCount, pgRoundDown, pgSize, maxVa] at *
  omega

theorem last_lt {size : Nat} (hsize : 1 ≤ size) (hva : va + size ≤ maxVa) :
    va / pgSize + (pageCount va size - 1) < maxVa / pgSize := by
  simp only [pageCount, pgSize, maxVa] at *
  omega

theorem mappages_spec {size : Nat} (hr : Refines root s m) (hf : Fresh root s) (hsize : 1 ≤ size)
    (hva : va + size ≤ maxVa) (hpa : pa < 2 ^ 55) (hperm : HasFlag perm)
    (hnone : ∀ j < pageCount va size, m (va / pgSize + j) = none) :
    ∃ r s', mappages root va pa size perm s = .ok (r, s') ∧
      Mapped root s m (va / pgSize) (pageCount va size) pa perm r s' := by
  have hlt := last_lt hsize hva
  have hcount : pageCount va size - 1 + 1 = pageCount va size := Nat.sub_add_cancel (Nat.succ_pos _)
  have hpa' : pa + (pageCount va size - 1) * pgSize < 2 ^ 64 := by
    simp only [pgSize, maxVa] at *
    omega
  obtain ⟨r, s', hloop, hmapped⟩ := mapLoop_spec hperm (pageCount va size - 1)
    (maxVa / pgSize - va / pgSize) (va / pgSize) pa s m hr hf hlt
    (Nat.lt_sub_of_add_lt (Nat.add_comm _ _ ▸ hlt)) hpa'
    fun j hj => hnone j (Nat.lt_of_le_of_lt hj (Nat.lt_of_succ_le hcount.le))
  rw [hcount] at hmapped
  refine ⟨r, s', ?_, hmapped⟩
  rw [mappages, lastPage_eq hsize hva]
  exact hloop

/-! ## `uvmunmap` -/

/-- `free_page` takes the page back, and it is not a page of the tree. -/
def Freeable (root : Nat) (s : Vm) (pa : Nat) : Prop :=
  pa = 0 ∨ s.start ≤ pa ∧ pa < s.stop ∧ pa ∉ tables root s

/-- The frame of an entry. -/
def frame (f : Nat × Nat) : Nat := pte2pa (leafPte f.1 f.2)

theorem frame_eq (hpa : pa % pgSize = 0) (hlt : pa < 2 ^ 55) (hperm : perm < 1024) :
    frame (pa, perm) = pa := by
  have hflags : perm ||| pteV < 2 ^ 10 := Nat.or_lt_two_pow hperm (by decide)
  rw [frame, leafPte, Nat.or_assoc, pte2pa_or hpa (hlt.trans (by decide)) hflags]

/-- The tree and the allocator's range are as before. -/
structure Kept (root : Nat) (s s' : Vm) : Prop where
  mem : ∀ x ∈ tables root s, s'.mem x = s.mem x
  start : s'.start = s.start
  stop : s'.stop = s.stop

theorem Kept.tables (h : Kept root s s') : tables root s' = tables root s := Radix.pages_congr h.mem

theorem Kept.plain (h : Kept root s s') (hp : Plain root s) : Plain root s' :=
  Radix.Entries.congr hp h.mem

theorem Kept.refines (h : Kept root s s') (hr : Refines root s m) : Refines root s' m := by
  refine ⟨Radix.Separated.congr hr.tree h.mem, fun va hva => ?_, hr.flags⟩
  have hentry : entry root s' va = entry root s va := Radix.leaf_congr h.mem (path_length 2).le
  rw [lookup_eq hva, hentry, ← lookup_eq hva, hr.lookup va hva]

theorem pte2pa_aligned (pte : Nat) : pte2pa pte % pgSize = 0 := by
  rw [pte2pa, Nat.mod_mod_of_dvd _ (by decide), Nat.mul_mod_left]

theorem freePage_spec {pte : Nat} (h : Freeable root s (pte2pa pte)) :
    ∃ s', s.freePage (pte2pa pte) = .ok s' ∧ Kept root s s' ∧
      ∀ y, y ∈ s'.free ↔ y ∈ s.free ∨ y ≠ 0 ∧ y = pte2pa pte := by
  rw [Vm.freePage]
  split
  · rename_i h0
    refine ⟨s, rfl, ⟨fun _ _ => rfl, rfl, rfl⟩, fun y => ?_⟩
    rw [h0]
    tauto
  · rename_i h0
    obtain ⟨hstart, hstop, hout⟩ := h.resolve_left h0
    rw [if_neg (by rw [pte2pa_aligned]; omega)]
    refine ⟨_, rfl, ⟨Radix.write_outside hout, rfl, rfl⟩, fun y => ?_⟩
    change y ∈ pte2pa pte :: s.free ↔ _
    rw [List.mem_cons]
    constructor
    · rintro (rfl | hy)
      · exact .inr ⟨h0, rfl⟩
      · exact .inl hy
    · rintro (hy | ⟨-, hy⟩)
      · exact .inr hy
      · exact .inl hy

/-- How `uvmunmap` ends, with `k` pages to unmap. -/
structure Unmapped (root : Nat) (s : Vm) (m : PageMap) (n k : Nat) (doFree : Bool) (s' : Vm) :
    Prop where
  refines : Refines root s' (m.unmap n k)
  tables : tables root s' = tables root s
  start : s'.start = s.start
  stop : s'.stop = s.stop
  plain : Plain root s → Plain root s'
  free : ∀ y, y ∈ s'.free ↔ y ∈ s.free ∨
    doFree = true ∧ y ≠ 0 ∧ ∃ j f, n ≤ j ∧ j < n + k ∧ m j = some f ∧ y = frame f

theorem PageMap.unmap_succ (m : PageMap) (n k : Nat) :
    PageMap.unmap (Function.update m n none) (n + 1) k = m.unmap n (k + 1) := by
  funext j
  simp only [PageMap.unmap]
  rcases eq_or_ne j n with rfl | hne
  · rw [if_neg (by omega), if_pos (by omega), Function.update_self]
  · rw [Function.update_of_ne hne]
    by_cases hj : n + 1 ≤ j ∧ j < n + 1 + k
    · rw [if_pos hj, if_pos (by omega)]
    · rw [if_neg hj, if_neg (by omega)]

theorem PageMap.unmap_one (m : PageMap) (n : Nat) : m.unmap n 1 = Function.update m n none := by
  rw [← PageMap.unmap_succ]
  funext j
  exact if_neg (by omega)

/-- The first page of the range is unmapped. -/
theorem unmap_first {doFree : Bool} (hr : Refines root s m) (hva : va < maxVa) {f : Nat × Nat}
    (hf : m (va / pgSize) = some f) (hfree : doFree = true → Freeable root s (frame f)) :
    ∃ x s1, walk root va false s = .ok (some (x, px 0 va), s) ∧
      valid (s.mem x (px 0 va)) ∧ s.mem x (px 0 va) % 1024 ≠ pteV ∧
      s.freeIf doFree (pte2pa (s.mem x (px 0 va))) = .ok s1 ∧
      Unmapped root s m (va / pgSize) 1 doFree (s1.write x (px 0 va) 0) := by
  have hlook := hr.lookup va hva
  rw [hf] at hlook
  obtain ⟨hentry, hv⟩ := lookup_eq_some hva hlook
  obtain ⟨x, hx⟩ := node_of_valid (hentry.symm ▸ hv)
  have hpte : s.mem x (px 0 va) = leafPte f.1 f.2 := (entry_of_node hx).trans hentry
  have hflag : leafPte f.1 f.2 % 1024 ≠ pteV := leafPte_ne_table (hr.flags _ f hf)
  have hkeep : ∃ s1, s.freeIf doFree (frame f) = .ok s1 ∧ Kept root s s1 ∧
      ∀ y, y ∈ s1.free ↔ y ∈ s.free ∨ doFree = true ∧ y ≠ 0 ∧ y = frame f := by
    cases doFree with
    | false => exact ⟨s, rfl, ⟨fun _ _ => rfl, rfl, rfl⟩, fun y => by simp⟩
    | true =>
      obtain ⟨s1, h1, hkept, hmem⟩ := freePage_spec (hfree rfl)
      exact ⟨s1, h1, hkept, fun y => by rw [hmem y, frame]; tauto⟩
  obtain ⟨s1, hs1, hkept, hmem⟩ := hkeep
  have hr1 := hkept.refines hr
  have hx1 : Radix.node child s1.mem root (path 2 va) = some x :=
    (Radix.node_congr hkept.mem (path_length 2).le).trans hx
  refine ⟨x, s1, ?_, hpte ▸ hv, hpte ▸ hflag, ?_, ?_, ?_, hkept.start, hkept.stop,
    fun hplain => (hkept.plain hplain).write hr1.tree hx1 (px_lt hva rfl), fun y => ?_⟩
  · rw [walk_read hva, hx]
    rfl
  · rw [hpte]
    exact hs1
  · rw [PageMap.unmap_one]
    exact hr1.write hva hx1 (v := none) nofun rfl
  · rw [tables_write hr1.tree hx1, hkept.tables]
  · refine (hmem y).trans (or_congr_right (and_congr_right fun _ => and_congr_right fun _ => ?_))
    constructor
    · rintro rfl
      exact ⟨_, f, le_rfl, Nat.lt_succ_self _, hf, rfl⟩
    · rintro ⟨j, f', h1, h2, hj, rfl⟩
      obtain rfl : j = va / pgSize := by omega
      rw [hf] at hj
      exact congrArg frame (Option.some.inj hj).symm

theorem Freeable.congr (h : Freeable root s pa) (ht : tables root s' = tables root s)
    (hstart : s'.start = s.start) (hstop : s'.stop = s.stop) : Freeable root s' pa := by
  rwa [Freeable, ht, hstart, hstop]

theorem Unmapped.succ {doFree : Bool} {t : Vm} (h : Unmapped root s m n 1 doFree s')
    (h' : Unmapped root s' (Function.update m n none) (n + 1) k doFree t) :
    Unmapped root s m n (k + 1) doFree t := by
  refine ⟨PageMap.unmap_succ m n k ▸ h'.refines, h'.tables.trans h.tables,
    h'.start.trans h.start, h'.stop.trans h.stop, h'.plain ∘ h.plain, fun y => ?_⟩
  rw [h'.free, h.free, or_assoc, ← and_or_left, ← and_or_left]
  refine or_congr_right (and_congr_right fun _ => and_congr_right fun _ => ?_)
  constructor
  · rintro (⟨j, f, h1, h2, hj, rfl⟩ | ⟨j, f, h1, h2, hj, rfl⟩)
    · exact ⟨j, f, h1, by omega, hj, rfl⟩
    · rw [Function.update_of_ne (by omega)] at hj
      exact ⟨j, f, by omega, by omega, hj, rfl⟩
  · rintro ⟨j, f, h1, h2, hj, rfl⟩
    rcases eq_or_ne j n with rfl | hne
    · exact .inl ⟨j, f, le_rfl, Nat.lt_succ_self _, hj, rfl⟩
    · exact .inr ⟨j, f, by omega, by omega, by rwa [Function.update_of_ne hne], rfl⟩

theorem unmapLoop_spec (doFree : Bool) : ∀ (k fuel n : Nat) (s : Vm) (m : PageMap),
    Refines root s m → n + k < maxVa / pgSize → k < fuel →
    (∀ j ≤ k, ∃ f, m (n + j) = some f ∧ (doFree = true → Freeable root s (frame f))) →
    ∃ s', unmapLoop root ((n + k) * pgSize) doFree fuel (n * pgSize) s = .ok s' ∧
      Unmapped root s m n (k + 1) doFree s'
  | k, 0, _, _, _, _, _, hfuel, _ => absurd hfuel (Nat.not_lt_zero k)
  | k, fuel + 1, n, s, m, hr, hlt, hfuel, hmap => by
    have hva : n * pgSize < maxVa := by
      simp only [pgSize, maxVa] at hlt ⊢
      omega
    have hn : n * pgSize / pgSize = n := Nat.mul_div_cancel n (by decide)
    obtain ⟨f, hf, hfree⟩ := hmap 0 (Nat.zero_le k)
    obtain ⟨x, s1, hwalk, hv, hflag, hs1, hun⟩ :=
      unmap_first hr hva (hn.symm ▸ hf) hfree
    rw [hn] at hun
    rw [unmapLoop, hwalk]
    simp only [bind, Except.bind, if_neg (not_not_intro hv), if_neg hflag, hs1]
    cases k with
    | zero =>
      refine ⟨_, ?_, hun⟩
      rw [if_pos (by rw [Nat.add_zero])]
      rfl
    | succ k =>
      have hstep : n * pgSize + pgSize = (n + 1) * pgSize := (Nat.succ_mul n pgSize).symm
      have hne : n * pgSize ≠ (n + (k + 1)) * pgSize := by
        simp only [pgSize]
        omega
      have hlast : n + (k + 1) = n + 1 + k := Nat.add_left_comm n k 1 ▸ Nat.add_comm k (n + 1)
      have hr1 : Refines root (s1.write x (px 0 (n * pgSize)) 0) (Function.update m n none) :=
        PageMap.unmap_one m n ▸ hun.refines
      obtain ⟨s', hloop, hun'⟩ := unmapLoop_spec doFree k fuel (n + 1) _ _ hr1 (hlast ▸ hlt)
        (Nat.lt_of_succ_lt_succ hfuel) (fun j hj => by
          obtain ⟨f, hf, hfree⟩ := hmap (j + 1) (Nat.succ_le_succ hj)
          refine ⟨f, ?_, fun hd => (hfree hd).congr hun.tables hun.start hun.stop⟩
          rw [Function.update_of_ne (by omega)]
          rwa [← Nat.add_assoc, Nat.add_right_comm] at hf)
      refine ⟨s', ?_, hun.succ hun'⟩
      rw [if_neg hne, hstep, hlast]
      exact hloop

theorem uvmunmap_spec {size : Nat} {doFree : Bool} (hr : Refines root s m)
    (hva : va % pgSize = 0) (hsize : size % pgSize = 0) (hpos : 1 ≤ size)
    (hend : va + size ≤ maxVa) (hmap : ∀ j < pageCount va size,
      ∃ f, m (va / pgSize + j) = some f ∧ (doFree = true → Freeable root s (frame f))) :
    ∃ s', uvmunmap root va size doFree s = .ok s' ∧
      Unmapped root s m (va / pgSize) (pageCount va size) doFree s' := by
  have hlt := last_lt hpos hend
  have hcount : pageCount va size - 1 + 1 = pageCount va size := Nat.sub_add_cancel (Nat.succ_pos _)
  obtain ⟨s', hloop, hun⟩ := unmapLoop_spec doFree (pageCount va size - 1)
    (maxVa / pgSize - va / pgSize) (va / pgSize) s m hr hlt
    (Nat.lt_sub_of_add_lt (Nat.add_comm _ _ ▸ hlt))
    fun j hj => hmap j (Nat.lt_of_le_of_lt hj (Nat.lt_of_succ_le hcount.le))
  rw [hcount] at hun
  refine ⟨s', ?_, hun⟩
  rw [uvmunmap, if_neg (by rw [hva, hsize]; simp), lastPage_eq hpos hend]
  rwa [Nat.div_mul_cancel (Nat.dvd_of_mod_eq_zero hva)] at hloop

/-! ## Page tables over their life -/

/-- The pages of `[va, va + size)`, rounded at both ends. -/
def InRange (va size a : Nat) : Prop :=
  va / pgSize ≤ a / pgSize ∧ a / pgSize ≤ (va + size - 1) / pgSize

/-- What `mappages` may be called with: no page of the range is mapped. -/
structure MapPre (root : Nat) (s : Vm) (va pa size perm : Nat) : Prop where
  pos : 1 ≤ size
  range : va + size ≤ maxVa
  aligned : pa % pgSize = 0
  below : pa < 2 ^ 55
  flags : HasRwx perm
  unmapped : ∀ a < maxVa, InRange va size a → lookup root a s = none
  fresh : Fresh root s

/-- A range of whole pages that are all mapped. -/
structure Covered (root : Nat) (s : Vm) (va size : Nat) : Prop where
  start : va % pgSize = 0
  whole : size % pgSize = 0
  pos : 1 ≤ size
  mapped : ∀ a, va ≤ a → a < va + size → ∃ pte, lookup root a s = some pte

/-- What `uvmunmap` may be called with: if it frees the frames, they are the allocator's, and not
pages of the tree. -/
structure UnmapPre (root : Nat) (s : Vm) (va size : Nat) (doFree : Bool) : Prop
    extends Covered root s va size where
  frames : doFree = true → ∀ a pte, va ≤ a → a < va + size → lookup root a s = some pte →
    Freeable root s (pte2pa pte)

inductive Op
  | mappages (va pa size perm : Nat)
  | uvmunmap (va size : Nat) (doFree : Bool)
  | others

/-- A call, or what others do: they allocate and free pages, and write to memory outside the
tree. -/
inductive Step (root : Nat) : Vm → Op → Vm → Prop
  | mappages {s s' : Vm} {va pa size perm : Nat} {r : Int} : MapPre root s va pa size perm →
      mappages root va pa size perm s = .ok (r, s') → Step root s (.mappages va pa size perm) s'
  | uvmunmap {s s' : Vm} {va size : Nat} {doFree : Bool} : UnmapPre root s va size doFree →
      uvmunmap root va size doFree s = .ok s' → Step root s (.uvmunmap va size doFree) s'
  | others {s s' : Vm} : Kept root s s' → Step root s .others s'

theorem lookup_of_le (h : maxVa ≤ va) : lookup root va s = none := by
  rw [lookup, walk, if_pos h]

theorem Covered.range {size : Nat} (h : Covered root s va size) : va + size ≤ maxVa := by
  have hva := h.start
  have hsize := h.whole
  have hpos := h.pos
  obtain ⟨pte, hlook⟩ := h.mapped (va + size - 1) (by omega) (by omega)
  by_contra hgt
  rw [lookup_of_le ?_] at hlook
  · cases hlook
  · simp only [pgSize, maxVa] at *
    omega

theorem MapPre.none {size : Nat} (h : MapPre root s va pa size perm) (hr : Refines root s m) :
    ∀ j < pageCount va size, m (va / pgSize + j) = none := by
  intro j hj
  have hsize := h.pos
  have hrange := h.range
  have hdiv : (va / pgSize + j) * pgSize / pgSize = va / pgSize + j :=
    Nat.mul_div_cancel _ (by decide)
  have ha : (va / pgSize + j) * pgSize < maxVa := by
    simp only [pageCount, pgSize, maxVa] at *
    omega
  have hin : InRange va size ((va / pgSize + j) * pgSize) := by
    rw [InRange, hdiv]
    simp only [pageCount, pgSize, maxVa] at *
    omega
  have hlook := hr.lookup _ ha
  rw [h.unmapped _ ha hin, hdiv] at hlook
  exact Option.map_eq_none_iff.mp hlook.symm

theorem UnmapPre.frame {size : Nat} {doFree : Bool} (h : UnmapPre root s va size doFree)
    (hr : Refines root s m) : ∀ j < pageCount va size,
      ∃ f, m (va / pgSize + j) = some f ∧ (doFree = true → Freeable root s (frame f)) := by
  intro j hj
  have hva := h.start
  have hsize := h.whole
  have hpos := h.pos
  have hrange := h.range
  have hdiv : (va / pgSize + j) * pgSize / pgSize = va / pgSize + j :=
    Nat.mul_div_cancel _ (by decide)
  have hlow : va ≤ (va / pgSize + j) * pgSize := by
    simp only [pgSize] at *
    omega
  have hhigh : (va / pgSize + j) * pgSize < va + size := by
    simp only [pageCount, pgSize] at *
    omega
  obtain ⟨pte, hlook⟩ := h.mapped _ hlow hhigh
  have hm := hr.lookup _ (hhigh.trans_le hrange)
  rw [hlook, hdiv] at hm
  obtain ⟨f, hf, rfl⟩ := Option.map_eq_some_iff.mp hm.symm
  exact ⟨f, hf, fun hd => h.frames hd _ _ hlow hhigh hlook⟩

theorem MapPre.spec {size : Nat} (h : MapPre root s va pa size perm) (hr : Refines root s m) :
    ∃ r s', Vmem.mappages root va pa size perm s = .ok (r, s') ∧
      Mapped root s m (va / pgSize) (pageCount va size) pa perm r s' :=
  mappages_spec hr h.fresh h.pos h.range h.below h.flags.hasFlag (h.none hr)

theorem UnmapPre.spec {size : Nat} {doFree : Bool} (h : UnmapPre root s va size doFree)
    (hr : Refines root s m) : ∃ s', Vmem.uvmunmap root va size doFree s = .ok s' ∧
      Unmapped root s m (va / pgSize) (pageCount va size) doFree s' :=
  uvmunmap_spec hr h.start h.whole h.pos h.range (h.frame hr)

theorem Refines.empty (h : ∀ i, s.mem root i = 0) : Refines root s fun _ => none := by
  have hnode : ∀ i p, Radix.node child s.mem root (i :: p) = none := by
    intro i p
    rw [Radix.node, List.foldlM_cons, h, child_of_not_valid not_valid_zero]
    rfl
  refine ⟨?_, fun va hva => ?_, fun _ _ h => absurd h (Option.some_ne_none _).symm⟩
  · intro p q x _ _ hp hq
    cases p with
    | nil =>
      cases q with
      | nil => rfl
      | cons j q => exact absurd hq (by simp [hnode])
    | cons i p => exact absurd hp (by simp [hnode])
  · rw [Vmem.lookup, walk_read hva, path, hnode]
    rfl

/-- The tree of an empty table. -/
theorem tables_empty (h : ∀ i, s.mem root i = 0) : tables root s = {root} := by
  ext x
  constructor
  · rintro ⟨q, -, hx⟩
    cases q with
    | nil => exact (Option.some.inj hx).symm
    | cons i q =>
      rw [Radix.node, List.foldlM_cons, h, child_of_not_valid not_valid_zero] at hx
      cases hx
  · rintro rfl
    exact Radix.root_mem_pages

theorem plain_empty (h : ∀ i, s.mem root i = 0) : Plain root s := by
  intro q x i hq hx hv
  have hmem : x ∈ tables root s := ⟨q, hq, hx⟩
  rw [tables_empty h] at hmem
  rw [Set.mem_singleton_iff.mp hmem, h] at hv
  exact absurd hv not_valid_zero

theorem Step.refines {op : Op} (hs : Step root s op s') (hr : Refines root s m) :
    ∃ m', Refines root s' m' := by
  cases hs with
  | mappages hpre hcall =>
    obtain ⟨r, t, hok, hmapped⟩ := hpre.spec hr
    rw [hcall] at hok
    cases hok
    rcases hmapped.cases with ⟨-, h⟩ | ⟨-, -, j, -, h⟩
    · exact ⟨_, h⟩
    · exact ⟨_, h⟩
  | uvmunmap hpre hcall =>
    obtain ⟨t, hok, hun⟩ := hpre.spec hr
    rw [hcall] at hok
    cases hok
    exact ⟨_, hun.refines⟩
  | others hkept => exact ⟨m, hkept.refines hr⟩

/-- A page table built from an empty root by calls of `mappages` and `uvmunmap`, with others at
work beside them, stands for a map. On the map `mappages` adds the pages of the range, all of them
if it returns 0 and otherwise the first ones, and `uvmunmap` removes those of its range. -/
theorem page_table_refines {s0 : Vm} {ops : List Op} (h0 : ∀ i, s0.mem root i = 0)
    (hrun : Run (Step root) s0 ops s) :
    ∃ m : PageMap, Refines root s m ∧
      (∀ va pa size perm, MapPre root s va pa size perm →
        ∃ r s', mappages root va pa size perm s = .ok (r, s') ∧
          (r = 0 ∧ Refines root s' (m.map (va / pgSize) (pageCount va size) pa perm) ∨
            r = -1 ∧ ∃ j < pageCount va size, Refines root s' (m.map (va / pgSize) j pa perm))) ∧
      (∀ va size doFree, UnmapPre root s va size doFree →
        ∃ s', uvmunmap root va size doFree s = .ok s' ∧
          Refines root s' (m.unmap (va / pgSize) (pageCount va size))) := by
  obtain ⟨m, hr⟩ : ∃ m, Refines root s m := hrun.invariant
    (I := fun s => ∃ m, Refines root s m) (fun _ _ _ hm hs => hm.elim fun _ hr => hs.refines hr)
    ⟨_, Refines.empty h0⟩
  refine ⟨m, hr, fun va pa size perm hpre => ?_, fun va size doFree hpre => ?_⟩
  · obtain ⟨r, s', hcall, hmapped⟩ := hpre.spec hr
    refine ⟨r, s', hcall, ?_⟩
    rcases hmapped.cases with ⟨rfl, h⟩ | ⟨rfl, -, h⟩
    · exact .inl ⟨rfl, h⟩
    · exact .inr ⟨rfl, h⟩
  · obtain ⟨s', hcall, hun⟩ := hpre.spec hr
    exact ⟨s', hcall, hun.refines⟩

/-- An empty root at 4096, and two free pages. -/
def startVm : Vm := ⟨fun _ _ => 0, [8192, 12288], 4096, 409600⟩

theorem startVm_tables : tables 4096 startVm = {4096} := tables_empty fun _ => rfl

/-- Page 2 of the empty table may be mapped. -/
theorem startVm_pre : MapPre 4096 startVm 8192 262144 1 pteR where
  pos := le_rfl
  range := by decide
  aligned := rfl
  below := by decide
  flags := by decide
  unmapped a ha _ := (Refines.empty fun _ => rfl).lookup a ha
  fresh := by
    refine ⟨by decide, by decide, by decide, ?_⟩
    rw [startVm_tables]
    decide

theorem page_table_refines_page :
    ∃ s, Run (Step 4096) startVm [.mappages 8192 262144 1 pteR] s ∧ ∃ m, Refines 4096 s m := by
  obtain ⟨r, s, hcall, -⟩ := startVm_pre.spec (Refines.empty fun _ => rfl)
  have hrun : Run (Step 4096) startVm [.mappages 8192 262144 1 pteR] s :=
    Run.single (.mappages startVm_pre hcall)
  obtain ⟨m, hr, -⟩ := page_table_refines (fun _ => rfl) hrun
  exact ⟨s, hrun, m, hr⟩

/-- Page 2 is mapped, and then page 1, to the frame 8192, which is a table of the tree. With
`do_free` set, `uvmunmap` of page 1 gives the table back to the allocator, whose link overwrites
the entry on the way to page 2. -/
theorem uvmunmap_frees_table : ∃ s s', Run (Step 4096) startVm
      [.mappages 8192 262144 1 pteR, .mappages 4096 8192 1 pteR] s ∧
    Covered 4096 s 4096 4096 ∧ uvmunmap 4096 4096 4096 true s = .ok s' ∧
    (lookup 4096 8192 s).isSome ∧ lookup 4096 8192 s' = none := by
  have hcalls : (do
      let p1 ← mappages 4096 8192 262144 1 pteR startVm
      let p2 ← mappages 4096 4096 8192 1 pteR p1.2
      let s' ← uvmunmap 4096 4096 4096 true p2.2
      return (p1.1, p2.1, (lookup 4096 8192 p2.2).isSome,
        (lookup 4096 8192 s').isSome)).toOption = some (0, 0, true, false) := by
    decide +kernel
  obtain ⟨⟨r1, s1⟩, h1, hcalls⟩ := bind_ok (toOption_ok hcalls)
  obtain ⟨⟨r2, s2⟩, h2, hcalls⟩ := bind_ok hcalls
  obtain ⟨s3, h3, hcalls⟩ := bind_ok hcalls
  simp only [pure, Except.pure, Except.ok.injEq, Prod.mk.injEq] at hcalls
  obtain ⟨rfl, hzero, hbefore, hafter⟩ := hcalls
  have hr0 : Refines 4096 startVm fun _ => none := Refines.empty fun _ => rfl
  obtain ⟨r, s, hcall, hmapped⟩ := startVm_pre.spec hr0
  rw [h1] at hcall
  cases hcall
  have hr1 : Refines 4096 s1 (PageMap.map (fun _ => none) 2 1 262144 pteR) :=
    (hmapped.cases.resolve_right fun h => nomatch h.1).2
  have hunmapped : ∀ a < maxVa, InRange 4096 1 a → lookup 4096 a s1 = none := by
    intro a ha hin
    have hpage : a / pgSize = 1 := Nat.le_antisymm hin.2 hin.1
    rw [hr1.lookup a ha, hpage]
    rfl
  have hpre : MapPre 4096 s1 4096 8192 1 pteR :=
    ⟨le_rfl, by decide, rfl, by decide, by decide, hunmapped, hmapped.uses.fresh⟩
  obtain ⟨r, s, hcall, hmapped2⟩ := hpre.spec hr1
  rw [h2] at hcall
  cases hcall
  have hr2 : Refines 4096 s2 (PageMap.map (PageMap.map (fun _ => none) 2 1 262144 pteR) 1 1 8192
      pteR) := by
    rcases hmapped2.cases with ⟨-, h⟩ | ⟨hr, -, -⟩
    · exact h
    · exact absurd (hzero.symm.trans hr) (by decide)
  refine ⟨s2, s3, (Run.single (.mappages startVm_pre h1)).snoc (.mappages hpre h2),
    ⟨rfl, rfl, by decide, fun a hlow hhigh => ?_⟩, h3, hbefore, ?_⟩
  · have hpage : a / pgSize = 1 := by
      simp only [pgSize]
      omega
    refine ⟨leafPte 8192 pteR, ?_⟩
    rw [hr2.lookup a (hhigh.trans (by decide)), hpage]
    rfl
  · exact Option.not_isSome_iff_eq_none.mp (Bool.eq_false_iff.mp hafter)

end CoroCore.Vmem
