import Mathlib.Data.Finset.Card
import Mathlib.Data.Finset.Union
import CoroCore.Mm.PageFree

/-!
# How many pages a mapping takes: `mm/vmem.cc`

To map pages one needs the tables on their way that do not exist yet (`missing`).

* `walkLevels_count`: `walk` creates the missing tables of an address, or there are not so many
  free pages;
* `mapPage_count`: so does `mappages` of a page, and the next page misses what is left;
* `freePagetablePages_ok`: `free_pagetable_pages` panics if a page is still mapped.
-/

namespace CoroCore.Vmem

open Lib

variable {root va n k i x pa perm d table : Nat} {s s' t : Vm} {m : PageMap} {p q : List Nat}

/-! ## Missing tables -/

/-- The paths to the tables on the way of `va`, below the table at `p`. -/
def below (p : List Nat) : Nat → Nat → Finset (List Nat)
  | 0, _ => ∅
  | level + 1, va => insert (p ++ [px (level + 1) va]) (below (p ++ [px (level + 1) va]) level va)

/-- Those of the tables that do not exist. -/
def absent (root : Nat) (s : Vm) (B : Finset (List Nat)) : Finset (List Nat) :=
  B.filter fun q => Radix.node child s.mem root q = none

/-- The paths to the tables of `k` pages from page `n` on. -/
def tablePaths (n k : Nat) : Finset (List Nat) :=
  (Finset.range k).biUnion fun i => below [] 2 ((n + i) * pgSize)

/-- The tables that are missing for `k` pages from page `n` on. -/
def missing (root : Nat) (s : Vm) (n k : Nat) : Finset (List Nat) := absent root s (tablePaths n k)

theorem length_of_mem_below : ∀ {level : Nat} {p : List Nat}, q ∈ below p level va →
    p.length < q.length ∧ q.length ≤ p.length + level
  | 0, _, h => absurd h (Finset.notMem_empty q)
  | level + 1, p, h => by
    rcases Finset.mem_insert.mp h with rfl | h
    · simp
    · obtain ⟨h1, h2⟩ := length_of_mem_below h
      rw [List.length_append, List.length_singleton] at h1 h2
      exact ⟨Nat.lt_of_succ_lt h1, h2.trans_eq (by rw [Nat.add_assoc, Nat.add_comm 1])⟩

theorem node_none_append (h : Radix.node child s.mem root p = none) (hpq : p <+: q) :
    Radix.node child s.mem root q = none := by
  obtain ⟨r, rfl⟩ := hpq
  rw [Radix.node_append, h, Option.bind_none]

theorem absent_insert_of_some {B : Finset (List Nat)} (h : Radix.node child s.mem root q = some x) :
    absent root s (insert q B) = absent root s B := by
  rw [absent, Finset.filter_insert, if_neg (by simp [h])]
  rfl

/-- `walk` with `alloc` 1 creates the tables that are missing. -/
theorem walkLevels_count (hva : va < maxVa) : ∀ (level : Nat) (p : List Nat) (table : Nat) (s : Vm),
    Tree root s → Fresh root s → p.length + level = 2 → Radix.node child s.mem root p = some table →
    (∃ s', walkLevels va true level table s = (none, s') ∧ s'.free = [] ∧
      s.free.length < (absent root s (below p level va)).card) ∨
    ∃ y s', walkLevels va true level table s = (some y, s') ∧
      s.free.length = s'.free.length + (absent root s (below p level va)).card ∧
      ∀ q : List Nat, q.length ≤ 2 → (Radix.node child s'.mem root q = none ↔
        Radix.node child s.mem root q = none ∧ q ∉ below p level va)
  | 0, p, table, s, _, _, _, _ => by
    refine .inr ⟨_, s, rfl, ?_, fun q _ => ?_⟩
    · simp [below, absent]
    · simp [below]
  | level + 1, p, table, s, ht, hf, hlen, hx => by
    have hlen' : (p ++ [px (level + 1) va]).length + level = 2 := by
      rw [List.length_append, List.length_singleton, Nat.add_assoc, Nat.add_comm 1]
      exact hlen
    have hp : p.length < 2 := hlen ▸ Nat.lt_add_of_pos_right level.succ_pos
    rw [walkLevels]
    split
    · rename_i hv
      have hnode : Radix.node child s.mem root (p ++ [px (level + 1) va]) =
          some (pte2pa (s.mem table (px (level + 1) va))) :=
        Radix.node_snoc_eq_some.mpr ⟨table, hx, if_pos hv⟩
      rw [below, absent_insert_of_some hnode]
      rcases walkLevels_count hva level _ _ s ht hf hlen' hnode with hno | ⟨y, s', hw,
        hcount, hnodes⟩
      · exact .inl hno
      · refine .inr ⟨y, s', hw, hcount,
          fun q hq => (hnodes q hq).trans (and_congr_right fun hnone => ?_)⟩
        rw [Finset.mem_insert, not_or, and_iff_right]
        rintro rfl
        rw [hnode] at hnone
        cases hnone
    · rename_i hv
      have hnone : Radix.node child s.mem root (p ++ [px (level + 1) va]) = none := by
        rw [Radix.node_snoc, hx, Option.bind_some, child, if_neg hv]
      have hfirst : p ++ [px (level + 1) va] ∈ absent root s (below p (level + 1) va) :=
        Finset.mem_filter.mpr ⟨Finset.mem_insert_self _ _, hnone⟩
      rw [if_pos rfl]
      cases hfree : s.free with
      | nil =>
        have halloc : s.allocTable = none := by rw [Vm.allocTable, hfree]
        rw [halloc]
        exact .inl ⟨s, rfl, hfree, Finset.card_pos.mpr ⟨_, hfirst⟩⟩
      | cons r free =>
        have halloc : s.allocTable =
            some (r, { s with mem := Radix.fill s.mem r 0, free := free }) := by
          rw [Vm.allocTable, hfree]
        rw [halloc]
        have hr : r ∈ s.free := hfree ▸ List.mem_cons_self
        have hc := child_table (hf.aligned r hr) (hf.bound r hr)
        have h0 := child_of_not_valid not_valid_zero
        have hgrown := Grown.table (i := px (level + 1) va) ht hf hp hx hv (px_lt hva hlen) hfree
        have hnode : Radix.node child (Radix.grow s.mem table (px (level + 1) va) r 0
            (pa2pte r ||| pteV)) root (p ++ [px (level + 1) va]) = some r :=
          Radix.node_grow_self ht hp hx (hf.outside r hr) hc
        -- the new table is the only one that is there now
        have hnew : ∀ q : List Nat, q.length ≤ 2 →
            (Radix.node child (Radix.grow s.mem table (px (level + 1) va) r 0
              (pa2pte r ||| pteV)) root q = none ↔
              Radix.node child s.mem root q = none ∧ q ≠ p ++ [px (level + 1) va]) := by
          intro q hq
          rcases eq_or_ne q (p ++ [px (level + 1) va]) with rfl | hne
          · simp [hnode]
          · rw [and_iff_left hne]
            by_cases hpre : p ++ [px (level + 1) va] <+: q
            · obtain ⟨l, rfl⟩ := hpre
              have hl : l ≠ [] := by
                rintro rfl
                exact hne (List.append_nil _)
              rw [Radix.node_grow_past ht hp hx (hf.outside r hr) hc h0 hl]
              exact iff_of_true rfl (node_none_append hnone (List.prefix_append _ l))
            · rw [Radix.node_grow_old ht hp hx (hf.outside r hr) hq hpre]
        have hmem : ∀ q ∈ below (p ++ [px (level + 1) va]) level va,
            q.length ≤ 2 ∧ q ≠ p ++ [px (level + 1) va] := by
          intro q hq
          obtain ⟨h1, h2⟩ := length_of_mem_below hq
          refine ⟨hlen' ▸ h2, ?_⟩
          rintro rfl
          exact Nat.lt_irrefl _ h1
        have habsent : absent root
            { s with
              mem := Radix.grow s.mem table (px (level + 1) va) r 0 (pa2pte r ||| pteV)
              free := free } (below (p ++ [px (level + 1) va]) level va) =
              absent root s (below (p ++ [px (level + 1) va]) level va) :=
          Finset.filter_congr fun q hq => by
            rw [hnew q (hmem q hq).1, and_iff_left (hmem q hq).2]
        have hout : p ++ [px (level + 1) va] ∉
            absent root s (below (p ++ [px (level + 1) va]) level va) :=
          fun h => (hmem _ (Finset.mem_filter.mp h).1).2 rfl
        have hcard : (absent root s (below p (level + 1) va)).card =
            (absent root s (below (p ++ [px (level + 1) va]) level va)).card + 1 := by
          rw [below, absent, Finset.filter_insert, if_pos hnone]
          exact Finset.card_insert_of_notMem hout
        rw [hcard, List.length_cons]
        rcases walkLevels_count hva level _ _ _ hgrown.tree hgrown.fresh hlen' hnode with
          ⟨s', hw, hnil, hlt⟩ | ⟨y, s', hw, hcount, hnodes⟩
        · rw [habsent] at hlt
          exact .inl ⟨s', hw, hnil, Nat.succ_lt_succ hlt⟩
        · rw [habsent] at hcount
          refine .inr ⟨y, s', hw, congrArg (· + 1) hcount, fun q hq => ?_⟩
          rw [hnodes q hq, hnew q hq, below, Finset.mem_insert, not_or, and_assoc]

/-! ## Pages -/

theorem tablePaths_one : tablePaths n 1 = below [] 2 (n * pgSize) := by
  simp [tablePaths]

theorem tablePaths_succ : tablePaths n (k + 1) = tablePaths n 1 ∪ tablePaths (n + 1) k := by
  ext q
  simp only [tablePaths, Finset.mem_biUnion, Finset.mem_range, Finset.mem_union]
  constructor
  · rintro ⟨i, hi, hq⟩
    cases i with
    | zero => exact .inl ⟨0, Nat.one_pos, hq⟩
    | succ i =>
      exact .inr ⟨i, Nat.lt_of_succ_lt_succ hi, by rwa [Nat.add_right_comm, Nat.add_assoc]⟩
  · rintro (⟨i, hi, hq⟩ | ⟨i, hi, hq⟩)
    · obtain rfl : i = 0 := Nat.lt_one_iff.mp hi
      exact ⟨0, k.succ_pos, hq⟩
    · exact ⟨i + 1, Nat.succ_lt_succ hi, by rwa [Nat.add_right_comm, Nat.add_assoc] at hq⟩

theorem length_of_mem_tablePaths (h : q ∈ tablePaths n k) : q.length ≤ 2 := by
  obtain ⟨i, -, hq⟩ := Finset.mem_biUnion.mp h
  exact (length_of_mem_below hq).2

/-- The tables of `B` are there now, and those that were there before. -/
def Tabled (root : Nat) (B : Finset (List Nat)) (s s' : Vm) : Prop :=
  ∀ q : List Nat, q.length ≤ 2 → (Radix.node child s'.mem root q = none ↔
    Radix.node child s.mem root q = none ∧ q ∉ B)

theorem Tabled.refl : Tabled root ∅ s s :=
  fun q _ => (and_iff_left (Finset.notMem_empty q)).symm

theorem Tabled.trans {B B' : Finset (List Nat)} (h : Tabled root B s s')
    (h' : Tabled root B' s' t) : Tabled root (B ∪ B') s t := by
  intro q hq
  rw [h' q hq, h q hq, Finset.mem_union, not_or, and_assoc]

/-- What is missing for pages when the tables of `B` are there. -/
theorem Tabled.missing {B : Finset (List Nat)} (h : Tabled root B s s') :
    missing root s' n k = absent root s (tablePaths n k \ B) := by
  ext q
  rw [Vmem.missing, absent, absent, Finset.mem_filter, Finset.mem_filter, Finset.mem_sdiff]
  constructor
  · rintro ⟨hmem, hnone⟩
    obtain ⟨hold, hout⟩ := (h q (length_of_mem_tablePaths hmem)).mp hnone
    exact ⟨⟨hmem, hout⟩, hold⟩
  · rintro ⟨⟨hmem, hout⟩, hold⟩
    exact ⟨hmem, (h q (length_of_mem_tablePaths hmem)).mpr ⟨hold, hout⟩⟩

/-- What is missing for `k + 1` pages is missing for the first page, or for the others after
that. -/
theorem missing_succ (h : Tabled root (tablePaths n 1) s s') :
    (missing root s n (k + 1)).card =
    (missing root s n 1).card + (missing root s' (n + 1) k).card := by
  have hdisj : Disjoint (missing root s n 1) (missing root s' (n + 1) k) := by
    refine Finset.disjoint_left.mpr fun q hq hq' => ?_
    obtain ⟨hmem, hnone⟩ := Finset.mem_filter.mp hq'
    exact ((h q (length_of_mem_tablePaths hmem)).mp hnone).2 (Finset.mem_filter.mp hq).1
  rw [← Finset.card_union_of_disjoint hdisj]
  congr 1
  ext q
  simp only [missing, absent, Finset.mem_union, Finset.mem_filter]
  rw [tablePaths_succ, Finset.mem_union]
  constructor
  · rintro ⟨hmem, hnone⟩
    by_cases h1 : q ∈ tablePaths n 1
    · exact .inl ⟨h1, hnone⟩
    · have hq := hmem.resolve_left h1
      exact .inr ⟨hq, (h q (length_of_mem_tablePaths hq)).mpr ⟨hnone, h1⟩⟩
  · rintro (⟨hmem, hnone⟩ | ⟨hmem, hnone⟩)
    · exact ⟨.inl hmem, hnone⟩
    · exact ⟨.inr hmem, ((h q (length_of_mem_tablePaths hmem)).mp hnone).1⟩

/-- The pages that `k` pages from page `n` on take, with their tables. -/
def mapCost (root : Nat) (s : Vm) (n k : Nat) : Nat := k + (missing root s n k).card

theorem mapCost_strictMono : StrictMono (mapCost root s n) := by
  refine strictMono_nat_of_lt_succ fun k => ?_
  have hsub : missing root s n k ⊆ missing root s n (k + 1) := Finset.filter_subset_filter _
    (Finset.biUnion_subset_biUnion_of_subset_left _ (Finset.range_mono k.le_succ))
  exact Nat.add_lt_add_of_lt_of_le k.lt_succ_self (Finset.card_le_card hsub)

/-- `mappages` of a page takes one free page for each table that is missing. -/
theorem mapPage_count (hr : Refines root s m) (hf : Fresh root s) (hn : n < maxVa / pgSize)
    (hpa : pa < 2 ^ 55) (hperm : HasFlag perm) (hm : m n = none) :
    (∃ s', mappages root (n * pgSize) pa pgSize perm s = .ok (-1, s') ∧
      s.free.length < (missing root s n 1).card) ∨
    ∃ s', mappages root (n * pgSize) pa pgSize perm s = .ok (0, s') ∧
      s.free.length = s'.free.length + (missing root s n 1).card ∧
      Tabled root (tablePaths n 1) s s' := by
  have hva : n * pgSize < maxVa ∧ n * pgSize + pgSize ≤ maxVa := by
    simp only [pgSize, maxVa] at *
    omega
  have haligned : n * pgSize % pgSize = 0 := Nat.mul_mod_left n pgSize
  have hcount : pageCount (n * pgSize) pgSize = 1 := pageCount_page haligned
  obtain ⟨r, t, hcall, -⟩ := mappages_spec hr hf (by decide) hva.2 hpa hperm fun j hj => by
    obtain rfl : j = 0 := Nat.lt_one_iff.mp (hcount ▸ hj)
    rwa [Nat.mul_div_cancel n (by decide)]
  rw [mappages_page haligned hva.1] at hcall ⊢
  have hone : tablePaths n 1 = below [] 2 (n * pgSize) := tablePaths_one
  obtain ⟨r', s1, hwalk, hgrown, -, hfound⟩ := walkLevels_alloc hva.1 2 [] root s hr.tree hf rfl rfl
  rcases walkLevels_count hva.1 2 [] root s hr.tree hf rfl rfl with
    ⟨s', hw, -, hlt⟩ | ⟨⟨x, i⟩, s', hw, hlen, hnodes⟩
  · rw [hw]
    exact .inl ⟨s', rfl, by rwa [missing, hone]⟩
  · rw [hw] at hcall hwalk ⊢
    obtain ⟨rfl, rfl⟩ := Prod.mk.inj hwalk
    obtain ⟨-, hx⟩ := hfound x i rfl
    simp only at hcall ⊢
    split at hcall
    · cases hcall
    · rename_i hv
      refine .inr ⟨_, if_neg hv, by rwa [missing, hone], fun q hq => ?_⟩
      rw [hone, ← hnodes q hq]
      exact Eq.congr_left (Radix.node_write_leaf hgrown.tree (path_length 2) hx hq)

/-! ## Pages that are given back -/

theorem freeIf_length {doFree : Bool} (h : s.freeIf doFree pa = .ok s') :
    ∃ l : List Nat, s'.free = l ++ s.free ∧ l.length ≤ 1 := by
  rw [Vm.freeIf] at h
  split at h
  · rw [Vm.freePage] at h
    split at h
    · cases h
      exact ⟨[], rfl, Nat.zero_le 1⟩
    · split at h
      · cases h
      · cases h
        exact ⟨[pa], rfl, le_rfl⟩
  · cases h
    exact ⟨[], rfl, Nat.zero_le 1⟩

theorem walk_same {r : Option (Nat × Nat)} (h : walk root va false s = .ok (r, s')) : s' = s := by
  rw [walk, walkLevels_read] at h
  split at h
  · cases h
  · cases h
    rfl

/-- The loop of `uvmunmap` frees at most one page for each page of the range. -/
theorem unmapLoop_length {doFree : Bool} (fuel : Nat) : ∀ (k n : Nat) (s : Vm),
    unmapLoop root ((n + k) * pgSize) doFree fuel (n * pgSize) s = .ok s' →
    ∃ l : List Nat, s'.free = l ++ s.free ∧ l.length ≤ k + 1 := by
  induction fuel with
  | zero => exact fun _ _ _ => nofun
  | succ fuel ih =>
    intro k n s h
    rw [unmapLoop] at h
    obtain ⟨⟨r, s1⟩, hwalk, h⟩ := bind_ok h
    obtain rfl : s1 = s := walk_same hwalk
    cases r with
    | none => cases h
    | some xi =>
      simp only at h
      split at h
      · cases h
      split at h
      · cases h
      obtain ⟨s2, hs2, h⟩ := bind_ok h
      obtain ⟨l, hl, hlen⟩ := freeIf_length hs2
      split at h
      · cases h
        exact ⟨l, hl, hlen.trans (Nat.le_add_left 1 k)⟩
      · rename_i hne
        cases k with
        | zero => exact absurd (by rw [Nat.add_zero]) hne
        | succ k =>
          have hstep : n * pgSize + pgSize = (n + 1) * pgSize := (Nat.succ_mul n pgSize).symm
          have hlast : n + (k + 1) = n + 1 + k := Nat.add_left_comm n k 1 ▸ Nat.add_comm k (n + 1)
          rw [hstep, hlast] at h
          obtain ⟨l', hl', hlen'⟩ := ih k (n + 1) _ h
          refine ⟨l' ++ l, ?_, ?_⟩
          · rw [List.append_assoc, ← hl]
            exact hl'
          · rw [List.length_append]
            exact Nat.add_le_add hlen' hlen

theorem uvmunmap_length {size : Nat} {doFree : Bool} (hva : va % pgSize = 0)
    (hsize : size % pgSize = 0) (hpos : 1 ≤ size) (hend : va + size ≤ maxVa)
    (h : uvmunmap root va size doFree s = .ok s') :
    ∃ l : List Nat, s'.free = l ++ s.free ∧ l.length ≤ pageCount va size := by
  have hcount : pageCount va size - 1 + 1 = pageCount va size := Nat.sub_add_cancel (Nat.succ_pos _)
  rw [uvmunmap, if_neg (by rw [hva, hsize]; simp), lastPage_eq hpos hend] at h
  obtain ⟨l, hl, hlen⟩ := unmapLoop_length _ (pageCount va size - 1) (va / pgSize) s (by
    rwa [Nat.div_mul_cancel (Nat.dvd_of_mod_eq_zero hva)])
  exact ⟨l, hl, hcount ▸ hlen⟩

/-! ## What is still mapped -/

/-- The page `x` of the tree holds a leaf. -/
def HoldsLeaf (d : Nat) (M : Nat → Nat → Nat) (table x : Nat) : Prop :=
  ∃ p, p.length ≤ d ∧ Radix.node child M table p = some x ∧
    ∃ i, valid (M x i) ∧ (p.length = d ∨ HasRwx (M x i))

theorem leavesIn_holdsLeaf {E : Panic → Prop} {M : Nat → Nat → Nat}
    (hs : Radix.Separated child d M table) (hin : Radix.Entries InTable child d M table)
    (hE : ∀ p x i, p.length = d → Radix.node child M table p = some x → valid (M x i) →
      ¬ HasRwx (M x i) → E .runaway) : LeavesIn (HoldsLeaf d M table) E d M table where
  separated := hs
  index := hin
  leaf p x hp hx := by
    constructor
    · rintro ⟨q, hq, hqx, hleaf⟩
      cases hs p q x hp hq hx hqx
      exact hleaf
    · exact fun hleaf => ⟨p, hp, hx, hleaf⟩
  flags := hE

/-- If the recursion of `free_pagetable_pages` ends, nothing was mapped in the tree. -/
theorem freeTables_ok (d table : Nat) (s s' : Vm) (hs : Radix.Separated child d s.mem table)
    (hin : Radix.Entries InTable child d s.mem table)
    (hmanaged : ∀ x ∈ Radix.pages child d s.mem table, Managed s x)
    (h : freeTables (d + 1) table s = .ok s') :
    Radix.Entries (EmptyEntry d) child d s.mem table := by
  have hfrees := freeTablesAt_frees (E := fun _ => True) trivial d table s
    (leavesIn_holdsLeaf hs hin fun _ _ _ _ _ _ _ => trivial) (fun _ _ => rfl) hmanaged
  rw [← freeTablesAt_forget] at h
  generalize freeTablesAt (d + 1) table s = r at hfrees h
  cases hfrees with
  | panic => cases h
  | all hn =>
    intro p x i hp hx hv
    have hnone := hn x ⟨p, hp, hx⟩
    refine ⟨hin p x i hp hx hv, lt_of_le_of_ne hp fun heq => ?_, fun hrwx => ?_⟩
    · exact hnone ⟨p, hp, hx, i, hv, .inl heq⟩
    · exact hnone ⟨p, hp, hx, i, hv, .inr hrwx⟩

/-- `free_pagetable_pages` panics if a page is still mapped. -/
theorem freePagetablePages_ok (hr : Refines root s m) (hplain : Plain root s) (hroot : root ≠ 0)
    (hmanaged : ∀ x ∈ tables root s, Managed s x) (h : freePagetablePages root s = .ok s')
    (hn : n < maxVa / pgSize) : m n = none := by
  rw [freePagetablePages, if_neg hroot] at h
  have hempty := freeTables_ok 2 root s s' hr.tree hplain.inTable hmanaged h
  have hva : n * pgSize < maxVa := by
    simp only [pgSize, maxVa] at *
    omega
  have hlook := hr.lookup (n * pgSize) hva
  rw [Nat.mul_div_cancel n (by decide)] at hlook
  cases hm : m n with
  | none => rfl
  | some f =>
    rw [hm] at hlook
    obtain ⟨hentry, hv⟩ := lookup_eq_some hva hlook
    obtain ⟨x, hx⟩ := node_of_valid (hentry.symm ▸ hv)
    have hvalid : valid (s.mem x (px 0 (n * pgSize))) := by
      rw [entry_of_node hx, hentry]
      exact hv
    exact absurd (hempty _ x _ (path_length 2).le hx hvalid).2.1 (by rw [path_length]; decide)

end CoroCore.Vmem
