import CoroCore.Lib.RadixTree
import CoroCore.Mm.Heap
import Mathlib.Data.Nat.Bitwise
import Mathlib.Tactic.IntervalCases
import Mathlib.Tactic.Tauto

/-!
# Page tables: `mm/vmem.cc`

A page table is a tree of three levels of pages with 512 entries each. An entry with `PTE_V` set at
level 2 or 1 refers to a table of the next level; those at level 0 map pages. `walk` goes down the
tree and creates missing tables on demand, from the pages of `kernel_allocator`.

* `walk`, `mappages`, `uvmunmap`: the functions of the source, with their panics;
* `Tree`, `entry`: the shape of the tree, and the last entry on the way of an address;
* `Plain`: what the entries of a tree look like;
* `walk_read`, `walk_alloc`: what `walk` finds and creates.
-/

namespace CoroCore.Vmem

open Lib

abbrev maxVa : Nat := 2 ^ 38

abbrev pteV : Nat := 1
abbrev pteR : Nat := 2
abbrev pteW : Nat := 4
abbrev pteX : Nat := 8
abbrev pteU : Nat := 16

/-- `PGROUNDDOWN`. -/
def pgRoundDown (a : Nat) : Nat := a / pgSize * pgSize

/-- `PGROUNDUP`, in 64 bits. -/
def pgRoundUp (a : Nat) : Nat := pgRoundDown ((a + (pgSize - 1)) % 2 ^ 64)

/-- `PA2PTE`. -/
def pa2pte (pa : Nat) : Nat := pa / pgSize * 1024

/-- `PTE2PA`, in 64 bits. -/
def pte2pa (pte : Nat) : Nat := pte / 1024 * pgSize % 2 ^ 64

/-- `PX(level, va)`. -/
def px (level va : Nat) : Nat := va / 2 ^ (12 + 9 * level) % 512

/-- `PTE_V` is set. -/
def valid (pte : Nat) : Prop := pte % 2 = 1

instance (pte : Nat) : Decidable (valid pte) := inferInstanceAs (Decidable (pte % 2 = 1))

/-- The table an entry refers to. -/
def child (pte : Nat) : Option Nat := if valid pte then some (pte2pa pte) else none

/-- What the kernel stops with. -/
inductive Panic
  | walk
  | remap
  | notAligned
  | noTable
  | notMapped
  | notLeaf
  | freePage
  | validPage
  | runaway
  deriving DecidableEq

/-- The page tables in memory, and the free list of `kernel_allocator`, which manages the pages in
`[start, stop)`. -/
structure Vm where
  mem : Nat → Nat → Nat
  free : List Nat
  start : Nat
  stop : Nat

namespace Vm

/-- `*pte = e`. -/
def write (s : Vm) (x i e : Nat) : Vm := { s with mem := Radix.write s.mem x i e }

/-- `allocator::alloc_page`, then `memset` to 0. -/
def allocTable (s : Vm) : Option (Nat × Vm) :=
  match s.free with
  | [] => none
  | p :: free => some (p, { s with mem := Radix.fill s.mem p 0, free := free })

/-- `allocator::free_page`. The link to the next free page is in the page itself. -/
def freePage (s : Vm) (pa : Nat) : Except Panic Vm :=
  if pa = 0 then .ok s
  else if pa % pgSize ≠ 0 ∨ pa < s.start ∨ s.stop ≤ pa then .error .freePage
  else .ok { s.write pa 0 (s.free.headD 0) with free := pa :: s.free }

/-- `if (do_free)`. -/
def freeIf (s : Vm) (doFree : Bool) (pa : Nat) : Except Panic Vm :=
  if doFree then s.freePage pa else .ok s

end Vm

/-- The loop of `walk`, from `level` down: the page and the index of the entry. -/
def walkLevels (va : Nat) (alloc : Bool) : Nat → Nat → Vm → Option (Nat × Nat) × Vm
  | 0, table, s => (some (table, px 0 va), s)
  | level + 1, table, s =>
    if valid (s.mem table (px (level + 1) va)) then
      walkLevels va alloc level (pte2pa (s.mem table (px (level + 1) va))) s
    else if alloc then
      match s.allocTable with
      | none => (none, s)
      | some (p, s) =>
        walkLevels va alloc level p (s.write table (px (level + 1) va) (pa2pte p ||| pteV))
    else (none, s)

/-- `walk`. -/
def walk (root va : Nat) (alloc : Bool) (s : Vm) : Except Panic (Option (Nat × Nat) × Vm) :=
  if maxVa ≤ va then .error .walk else .ok (walkLevels va alloc 2 root s)

/-- The loop of `mappages`. An address out of range ends it in `walk`. -/
def mapLoop (root last perm : Nat) : Nat → Nat → Nat → Vm → Except Panic (Int × Vm)
  | 0, _, _, _ => .error .walk
  | fuel + 1, a, pa, s => do
    match ← walk root a true s with
    | (none, s) => return (-1, s)
    | (some (x, i), s) =>
      if valid (s.mem x i) then throw .remap
      else if a = last then return (0, s.write x i (pa2pte pa ||| perm ||| pteV))
      else
        mapLoop root last perm fuel (a + pgSize) ((pa + pgSize) % 2 ^ 64)
          (s.write x i (pa2pte pa ||| perm ||| pteV))

/-- The page of the last byte of a range, in 64 bits. -/
def lastPage (va size : Nat) : Nat := pgRoundDown ((va + size + (2 ^ 64 - 1)) % 2 ^ 64)

/-- `mappages`: 0, or -1 if there is no memory for a table. -/
def mappages (root va pa size perm : Nat) (s : Vm) : Except Panic (Int × Vm) :=
  mapLoop root (lastPage va size) perm (maxVa / pgSize - va / pgSize) (pgRoundDown va) pa s

/-- The loop of `uvmunmap`. -/
def unmapLoop (root last : Nat) (doFree : Bool) : Nat → Nat → Vm → Except Panic Vm
  | 0, _, _ => .error .walk
  | fuel + 1, a, s => do
    match ← walk root a false s with
    | (none, _) => throw .noTable
    | (some (x, i), s) =>
      if ¬ valid (s.mem x i) then throw .notMapped
      else if s.mem x i % 1024 = pteV then throw .notLeaf
      else do
        let s ← s.freeIf doFree (pte2pa (s.mem x i))
        if a = last then return s.write x i 0
        else unmapLoop root last doFree fuel (a + pgSize) (s.write x i 0)

/-- `uvmunmap`. -/
def uvmunmap (root va size : Nat) (doFree : Bool) (s : Vm) : Except Panic Vm :=
  if va % pgSize ≠ 0 ∨ size % pgSize ≠ 0 then .error .notAligned
  else unmapLoop root (lastPage va size) doFree (maxVa / pgSize - va / pgSize) va s

/-! ## Entries -/

/-- The entry that `mappages` writes. -/
def leafPte (pa perm : Nat) : Nat := pa2pte pa ||| perm ||| pteV

/-- At least one of `PTE_R`, `PTE_W` and `PTE_X` is set. -/
def HasRwx (perm : Nat) : Prop := perm &&& (pteR ||| pteW ||| pteX) ≠ 0

instance (perm : Nat) : Decidable (HasRwx perm) :=
  inferInstanceAs (Decidable (perm &&& (pteR ||| pteW ||| pteX) ≠ 0))

theorem valid_or (e : Nat) : valid (e ||| pteV) := Nat.or_mod_two_eq_one.mpr (.inr rfl)

theorem not_valid_zero : ¬ valid 0 := nofun

theorem pte2pa_or {pa f : Nat} (h : pa % pgSize = 0) (hlt : pa < 2 ^ 64) (hf : f < 1024) :
    pte2pa (pa2pte pa ||| f) = pa := by
  have hdiv : (pa2pte pa ||| f) / 2 ^ 10 = pa / pgSize := by
    rw [Nat.or_div_two_pow, Nat.div_eq_of_lt hf, Nat.or_zero, pa2pte]
    exact Nat.mul_div_cancel _ (by decide)
  have hpa : pa / pgSize * pgSize = pa := Nat.div_mul_cancel (Nat.dvd_of_mod_eq_zero h)
  rw [pte2pa, show 1024 = 2 ^ 10 by rfl, hdiv, hpa, Nat.mod_eq_of_lt hlt]

theorem child_table {pa : Nat} (h : pa % pgSize = 0) (hlt : pa < 2 ^ 64) :
    child (pa2pte pa ||| pteV) = some pa := by
  rw [child, if_pos (valid_or _), pte2pa_or h hlt (by decide)]

theorem child_of_not_valid {e : Nat} (h : ¬ valid e) : child e = none := if_neg h

/-- An entry that refers to a table has no access flag. -/
theorem not_hasRwx_table (pa : Nat) : ¬ HasRwx (pa2pte pa ||| pteV) := by
  have hpa : pa2pte pa % 2 ^ 10 = 0 := Nat.mul_mod_left _ _
  have hmask : ((pa2pte pa ||| pteV) &&& (pteR ||| pteW ||| pteX)) % 2 ^ 10 = 0 := by
    rw [Nat.and_mod_two_pow, Nat.or_mod_two_pow, hpa]
    rfl
  have hle : (pa2pte pa ||| pteV) &&& (pteR ||| pteW ||| pteX) ≤ 14 := Nat.and_le_right
  have hzero : (pa2pte pa ||| pteV) &&& (pteR ||| pteW ||| pteX) = 0 := by
    rwa [Nat.mod_eq_of_lt (hle.trans_lt (by decide))] at hmask
  exact not_not_intro hzero

/-- The number of indices that a table at a depth uses: `MAXVA` is half of what the tree could
hold. -/
def width (depth : Nat) : Nat := if depth = 0 then 256 else 512

theorem px_lt {level depth va : Nat} (hva : va < maxVa) (h : depth + level = 2) :
    px level va < width depth := by
  obtain rfl | hd := Nat.eq_zero_or_pos depth
  · obtain rfl : level = 2 := by omega
    rw [width, if_pos rfl]
    simp only [px, maxVa] at *
    omega
  · rw [width, if_neg hd.ne']
    exact Nat.mod_lt _ (by decide)

/-- A flag other than `PTE_V` is set. -/
def HasFlag (perm : Nat) : Prop := perm / 2 % 512 ≠ 0

theorem HasRwx.hasFlag {perm : Nat} (h : HasRwx perm) : HasFlag perm := by
  intro heq
  have hlow : perm % 2 ^ 10 < 2 := by omega
  have hmask : (perm &&& (pteR ||| pteW ||| pteX)) % 2 ^ 10 = 0 := by
    rw [Nat.and_mod_two_pow]
    interval_cases perm % 2 ^ 10 <;> rfl
  have hle : perm &&& (pteR ||| pteW ||| pteX) ≤ 14 := Nat.and_le_right
  exact h (by omega)

/-- A page with a flag does not look like a table. -/
theorem leafPte_ne_table {pa perm : Nat} (h : HasFlag perm) : leafPte pa perm % 1024 ≠ pteV := by
  intro heq
  have hflags : leafPte pa perm % 2 ^ 10 / 2 = perm % 2 ^ 10 / 2 := by
    have hpa : pa2pte pa % 2 ^ 10 = 0 := Nat.mul_mod_left _ _
    rw [leafPte, Nat.or_mod_two_pow, Nat.or_mod_two_pow, hpa, Nat.zero_or, Nat.or_div_two]
    exact Nat.or_zero _
  have hperm : perm % 2 ^ 10 / 2 = 0 := hflags.symm.trans (congrArg (· / 2) heq)
  exact h (by omega)

/-! ## Trees -/

/-- The indices of `va` from `level` down to level 1. -/
def path : Nat → Nat → List Nat
  | 0, _ => []
  | level + 1, va => px (level + 1) va :: path level va

/-- The page-table pages of the tree. -/
def tables (root : Nat) (s : Vm) : Set Nat := Radix.pages child 2 s.mem root

/-- The pages of the tree are different. -/
def Tree (root : Nat) (s : Vm) : Prop := Radix.Separated child 2 s.mem root

/-- The entry at level 0 for `va`, and 0 if there is no table for it. -/
def entry (root : Nat) (s : Vm) (va : Nat) : Nat :=
  Radix.leaf child 0 s.mem root (path 2 va) (px 0 va)

/-- A valid entry has an index in use, and it has no access flag if it refers to a table. -/
def PlainEntry (depth i e : Nat) : Prop := valid e → i < width depth ∧ (depth < 2 → ¬ HasRwx e)

/-- The entries of the tree are plain. -/
def Plain (root : Nat) (s : Vm) : Prop := Radix.Entries PlainEntry child 2 s.mem root

/-- The free pages are different pages outside the tree. -/
structure Fresh (root : Nat) (s : Vm) : Prop where
  nodup : s.free.Nodup
  aligned : ∀ p ∈ s.free, p % pgSize = 0
  bound : ∀ p ∈ s.free, p < 2 ^ 64
  outside : ∀ p ∈ s.free, p ∉ tables root s

/-- Free pages became tables of the tree. -/
structure Uses (root : Nat) (s s' : Vm) : Prop where
  fresh : Fresh root s'
  used : ∃ used, s.free = used ++ s'.free ∧ tables root s' = {x | x ∈ used} ∪ tables root s
  start : s'.start = s.start
  stop : s'.stop = s.stop
  plain : Plain root s → Plain root s'

/-- Tables were added to the tree, and nothing was mapped or unmapped. -/
structure Grown (root : Nat) (s s' : Vm) : Prop extends Uses root s s' where
  tree : Tree root s'
  entry : ∀ va, entry root s' va = entry root s va

variable {root va level x i e : Nat} {s s' t : Vm} {p : List Nat}

theorem path_length : ∀ level, (path level va).length = level
  | 0 => rfl
  | level + 1 => congrArg (· + 1) (path_length level)

theorem Uses.refl (hf : Fresh root s) : Uses root s s := ⟨hf, ⟨[], rfl, by simp⟩, rfl, rfl, id⟩

theorem Uses.trans (h : Uses root s s') (h' : Uses root s' t) : Uses root s t := by
  obtain ⟨used, hused, htables⟩ := h.used
  obtain ⟨used', hused', htables'⟩ := h'.used
  refine ⟨h'.fresh, ⟨used ++ used', ?_, ?_⟩, h'.start.trans h.start, h'.stop.trans h.stop,
    h'.plain ∘ h.plain⟩
  · rw [hused, hused', List.append_assoc]
  · rw [htables', htables]
    ext y
    simp only [Set.mem_union, Set.mem_ofPred_eq, List.mem_append]
    tauto

theorem Grown.refl (ht : Tree root s) (hf : Fresh root s) : Grown root s s :=
  ⟨Uses.refl hf, ht, fun _ => rfl⟩

theorem Grown.trans (h : Grown root s s') (h' : Grown root s' t) : Grown root s t :=
  ⟨h.toUses.trans h'.toUses, h'.tree, fun va => (h'.entry va).trans (h.entry va)⟩

/-- A free page becomes a table below `x`. -/
theorem Grown.table {q : Nat} {free : List Nat} (ht : Tree root s) (hf : Fresh root s)
    (hp : p.length < 2) (hx : Radix.node child s.mem root p = some x)
    (hi : ¬ valid (s.mem x i)) (hi' : i < width p.length) (hfree : s.free = q :: free) :
    Grown root s { s with mem := Radix.grow s.mem x i q 0 (pa2pte q ||| pteV), free := free } := by
  have hq : q ∈ s.free := hfree ▸ List.mem_cons_self
  have hqt : q ∉ tables root s := hf.outside q hq
  have hc := child_table (hf.aligned q hq) (hf.bound q hq)
  have h0 := child_of_not_valid not_valid_zero
  have hnone := child_of_not_valid hi
  have hpages := Radix.pages_grow (i := i) ht hp hx hqt hc h0 hnone
  have hnodup : (q :: free).Nodup := hfree ▸ hf.nodup
  have hmem : ∀ y ∈ free, y ∈ s.free := fun y hy => hfree ▸ List.mem_cons_of_mem q hy
  refine ⟨⟨?_, ⟨[q], hfree, ?_⟩, rfl, rfl, fun hplain => ?_⟩,
    Radix.Separated.grow ht hp hx hqt hc h0, fun va => ?_⟩
  · refine ⟨(List.nodup_cons.mp hnodup).2, fun y hy => hf.aligned y (hmem y hy),
      fun y hy => hf.bound y (hmem y hy), fun y hy => ?_⟩
    change y ∉ Radix.pages child 2 _ root
    rw [hpages, Set.mem_insert_iff, not_or]
    refine ⟨?_, hf.outside y (hmem y hy)⟩
    rintro rfl
    exact (List.nodup_cons.mp hnodup).1 hy
  · change Radix.pages child 2 _ root = _
    rw [hpages]
    ext y
    simp [tables]
  · exact Radix.Entries.grow hplain ht hp hx hqt hc h0 (fun _ => ⟨hi', fun _ => not_hasRwx_table q⟩)
      fun _ h => absurd h not_valid_zero
  · exact Radix.leaf_grow ht hp hx hqt hc h0 hnone (path_length 2)

/-! ## `walk` -/

theorem walkLevels_read (va : Nat) : ∀ (level table : Nat),
    walkLevels va false level table s =
      ((Radix.node child s.mem table (path level va)).map (·, px 0 va), s)
  | 0, _ => rfl
  | level + 1, table => by
    rw [walkLevels, path, Radix.node, List.foldlM_cons]
    split
    · rename_i hv
      rw [child, if_pos hv, walkLevels_read va level]
      rfl
    · rename_i hv
      rw [child, if_neg hv]
      rfl

/-- `walk` with `alloc` 0 changes nothing. -/
theorem walk_read (hva : va < maxVa) : walk root va false s =
    .ok ((Radix.node child s.mem root (path 2 va)).map (·, px 0 va), s) := by
  rw [walk, if_neg hva.not_ge, walkLevels_read]

theorem walkLevels_alloc (hva : va < maxVa) : ∀ (level : Nat) (p : List Nat) (table : Nat) (s : Vm),
    Tree root s → Fresh root s → p.length + level = 2 → Radix.node child s.mem root p = some table →
    ∃ r s', walkLevels va true level table s = (r, s') ∧ Grown root s s' ∧
      (r = none → s'.free = []) ∧
      ∀ x i, r = some (x, i) → i = px 0 va ∧
        Radix.node child s'.mem root (p ++ path level va) = some x
  | 0, p, table, s, ht, hf, _, hx => by
    refine ⟨_, s, rfl, Grown.refl ht hf, nofun, ?_⟩
    rintro x i ⟨rfl, rfl⟩
    exact ⟨rfl, by rwa [path, List.append_nil]⟩
  | level + 1, p, table, s, ht, hf, hlen, hx => by
    have hlen' : (p ++ [px (level + 1) va]).length + level = 2 := by
      rw [List.length_append, List.length_singleton]
      omega
    have hpath : ∀ l : List Nat, p ++ px (level + 1) va :: l = p ++ [px (level + 1) va] ++ l :=
      fun l => by rw [List.append_assoc, List.singleton_append]
    rw [walkLevels, path, hpath]
    split
    · rename_i hv
      have hnode : Radix.node child s.mem root (p ++ [px (level + 1) va]) =
          some (pte2pa (s.mem table (px (level + 1) va))) :=
        Radix.node_snoc_eq_some.mpr ⟨table, hx, if_pos hv⟩
      exact walkLevels_alloc hva level _ _ s ht hf hlen' hnode
    · rename_i hv
      rw [if_pos rfl]
      cases hfree : s.free with
      | nil =>
        have hnone : s.allocTable = none := by rw [Vm.allocTable, hfree]
        rw [hnone]
        exact ⟨none, s, rfl, Grown.refl ht hf, fun _ => hfree, nofun⟩
      | cons q free =>
        have hsome : s.allocTable =
            some (q, { s with mem := Radix.fill s.mem q 0, free := free }) := by
          rw [Vm.allocTable, hfree]
        rw [hsome]
        have hp : p.length < 2 := by omega
        have hgrown := Grown.table (i := px (level + 1) va) ht hf hp hx hv (px_lt hva hlen)
          hfree
        have hq : q ∈ s.free := hfree ▸ List.mem_cons_self
        have hnode : Radix.node child (Radix.grow s.mem table (px (level + 1) va) q 0
            (pa2pte q ||| pteV)) root (p ++ [px (level + 1) va]) = some q :=
          Radix.node_grow_self ht hp hx (hf.outside q hq)
            (child_table (hf.aligned q hq) (hf.bound q hq))
        obtain ⟨r, s', hr, hg, hnone, hs⟩ :=
          walkLevels_alloc hva level _ _ _ hgrown.tree hgrown.fresh hlen' hnode
        exact ⟨r, s', hr, hgrown.trans hg, hnone, hs⟩

/-- `walk` with `alloc` 1 finds the entry in a tree that may have grown, or runs out of pages. -/
theorem walk_alloc (ht : Tree root s) (hf : Fresh root s) (hva : va < maxVa) :
    ∃ r s', walk root va true s = .ok (r, s') ∧ Grown root s s' ∧ (r = none → s'.free = []) ∧
      ∀ x i, r = some (x, i) → i = px 0 va ∧
        Radix.node child s'.mem root (path 2 va) = some x := by
  obtain ⟨r, s', hr, h⟩ := walkLevels_alloc hva 2 [] root s ht hf rfl rfl
  refine ⟨r, s', ?_, h⟩
  rw [walk, if_neg hva.not_ge, hr]

end CoroCore.Vmem
