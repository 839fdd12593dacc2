import CoroCore.Lib.RadixTree
import Mathlib.Data.List.FinRange
import Mathlib.Algebra.Group.Nat.Defs

/-!
# The RAM disk: `drivers/ramdisk`

Blocks lie four to a page. A page of pointers leads to pages of pointers to them, all are allocated
when a block is first used, and the destructor frees them.

`walk` lets the block number `nblocks` pass (`last_block_passes`). `ramdisk_array`: in runs without
operations on it, on a disk whose constructor got its page, the disk is an array of `nblocks`
blocks, and the destructor frees each page of the disk once.
-/

namespace CoroCore

open Lib

namespace Ramdisk

/-- The bytes of a block of `BLOCK_SIZE`. -/
abbrev Block := Fin 1024 → UInt8

abbrev zeros : Block := fun _ => 0

/-- An entry of a page: zero bytes, a pointer to a page or a block of data. -/
inductive Entry (P : Type*)
  | zero
  | ptr (y : P)
  | block (d : Block)

/-- An entry as a pointer, null for zero bytes. -/
def Entry.child {P : Type*} : Entry P → Option P
  | .ptr y => some y
  | _ => none

/-- An entry as the contents of a block. -/
def Entry.data {P : Type*} : Entry P → Block
  | .block d => d
  | _ => zeros

/-- `ramdisk`: `page_index_index`, `nblocks`, and whether it is the registered device. -/
structure Disk (P : Type*) where
  pageIndexIndex : Option P
  nblocks : Nat
  opened : Bool

/-- The disk, the entries of the pages in memory (`page_capacity` in each) and the free pages of
`kernel_allocator`. -/
structure Sys (P : Type*) where
  disk : Disk P
  mem : P → Fin 512 → Entry P
  free : List P

/-- An operation fails, or it follows a null pointer or reads outside a page. -/
inductive Err
  | fail
  | fault

section Code

variable {P : Type*} [DecidableEq P]

/-- `ramdisk::ramdisk` -/
def construct (nblocks : Nat) (mem : P → Fin 512 → Entry P) : List P → Sys P
  | [] => ⟨⟨none, nblocks, false⟩, mem, []⟩
  | x :: free => ⟨⟨some x, nblocks, false⟩, Radix.fill mem x .zero, free⟩

/-- `ramdisk::open` -/
def openDisk (s : Sys P) : Sys P :=
  { s with disk := { s.disk with opened := s.disk.pageIndexIndex.isSome } }

/-- The child of an entry, which is allocated if it is missing. -/
def getChild (x : P) (i : Fin 512) (s : Sys P) : Except Err P × Sys P :=
  match (s.mem x i).child with
  | some y => (.ok y, s)
  | none =>
    match s.free with
    | [] => (.error .fail, s)
    | y :: free =>
      (.ok y, { s with mem := Radix.fill (Radix.write s.mem x i (.ptr y)) y .zero, free := free })

/-- `ramdisk::walk`: the page of a block, and the offset of the block in it. -/
def walk (blockNo : Nat) (s : Sys P) : Except Err (P × Nat) × Sys P :=
  if s.disk.nblocks < blockNo then (.error .fail, s)
  else
    let pageIndex := blockNo * 1024 % 2 ^ 64 / 4096
    let pageOffset := blockNo * 1024 % 2 ^ 64 % 4096
    let firstIndex := pageIndex / 512
    let secondIndex := pageIndex % 512
    match s.disk.pageIndexIndex with
    | none => (.error .fault, s)
    | some root =>
      if h : firstIndex < 512 then
        match getChild root ⟨firstIndex, h⟩ s with
        | (.error e, s) => (.error e, s)
        | (.ok index, s) =>
          match getChild index (Fin.ofNat 512 secondIndex) s with
          | (.error e, s) => (.error e, s)
          | (.ok page, s) => (.ok (page, pageOffset), s)
      else (.error .fault, s)

/-- The entry of a data page at an offset. -/
def slot (offset : Nat) : Fin 512 := Fin.ofNat 512 (offset / 1024)

/-- `ramdisk::read` of one block. -/
def read (blockNo : Nat) (s : Sys P) : Except Err Block × Sys P :=
  if s.disk.opened then
    match walk blockNo s with
    | (.error e, s) => (.error e, s)
    | (.ok (page, offset), s) => (.ok (s.mem page (slot offset)).data, s)
  else (.error .fail, s)

/-- `ramdisk::write` of one block. -/
def write (blockNo : Nat) (d : Block) (s : Sys P) : Except Err Unit × Sys P :=
  if s.disk.opened then
    match walk blockNo s with
    | (.error e, s) => (.error e, s)
    | (.ok (page, offset), s) =>
      (.ok (), { s with mem := Radix.write s.mem page (slot offset) (.block d) })
  else (.error .fail, s)

/-- `kernel_allocator.free_page`: the page links to the free page before it. -/
def freePage (x : P) (s : Sys P) : Sys P :=
  { s with
    mem := Radix.write s.mem x 0 ((s.free.head?.map Entry.ptr).getD .zero)
    free := x :: s.free }

/-- The values of the loop variables of `~ramdisk`. -/
@[irreducible] def indices : List (Fin 512) := List.finRange 512

/-- The inner loop of `~ramdisk`. -/
def freeData (index : P) (s : Sys P) : Sys P :=
  indices.foldl (fun s j =>
    match (s.mem index j).child with
    | some page => freePage page s
    | none => s) s

/-- `ramdisk::~ramdisk`, `none` if it follows a null pointer. -/
def destroy (s : Sys P) : Option (Sys P) :=
  s.disk.pageIndexIndex.map fun root =>
    freePage root (indices.foldl (fun s i =>
      match (s.mem root i).child with
      | some index => freePage index (freeData index s)
      | none => s) s)

end Code

/-! ## An array of blocks -/

variable {P : Type*} [DecidableEq P]

inductive Op
  | read (blockNo : Nat)
  | write (blockNo : Nat) (d : Block)

def Op.blockNo : Op → Nat
  | .read b => b
  | .write b _ => b

/-- What an operation returns, `none` for a write. -/
def perform : Op → Sys P → Except Err (Option Block) × Sys P
  | .read b, s => ((read b s).1.map some, (read b s).2)
  | .write b d, s => ((write b d s).1.map fun _ => none, (write b d s).2)

/-- The array after an operation that did not fail. -/
def arrayStep (c : Nat → Block) : Op → Except Err (Option Block) → Nat → Block
  | .write b d, .ok _ => Function.update c b d
  | _, _ => c

/-- What an operation on an array returns. -/
def answer (c : Nat → Block) : Op → Option Block
  | .read b => some (c b)
  | .write _ _ => none

/-- An operation inside the array succeeds unless there is no page left, others fail and change
nothing. -/
structure Right (c : Nat → Block) (op : Op) (s : Sys P) : Prop where
  inside : op.blockNo < s.disk.nblocks → (perform op s).1 = .ok (answer c op) ∨
    (perform op s).1 = .error .fail ∧ (perform op s).2.free = []
  outside : s.disk.nblocks ≤ op.blockNo → perform op s = (.error .fail, s)

/-- The destructor frees the pages in `own`, each one once. -/
def Returns (own : Set P) (s : Sys P) : Prop :=
  ∃ s' pages, destroy s = some s' ∧ s'.free = pages ++ s.free ∧ pages.Nodup ∧
    ∀ x, x ∈ pages ↔ x ∈ own

/-- Others use the allocator and the memory, but not the pages of the disk. -/
structure Other (own : Set P) (s s' : Sys P) : Prop where
  disk : s'.disk = s.disk
  mem : ∀ x ∈ own, s'.mem x = s.mem x
  free : s'.free.Nodup ∧ ∀ x ∈ s'.free, x ∉ own

/-- The pages that were free before and are not free after. -/
def taken (s s' : Sys P) : Set P := {x | x ∈ s.free ∧ x ∉ s'.free}

/-- A run from the constructor on, with the array that the operations make, the pages that were
allocated for the disk, and the operations. -/
inductive Run (nblocks : Nat) (mem : P → Fin 512 → Entry P) (free : List P) :
    Sys P → (Nat → Block) → Set P → List Op → Prop
  | start : Run nblocks mem free (openDisk (construct nblocks mem free)) (fun _ => zeros)
      {x | x ∈ free ∧ x ∉ (construct nblocks mem free).free} []
  | op {s : Sys P} {c : Nat → Block} {own : Set P} {ops : List Op} (op : Op) :
      Run nblocks mem free s c own ops →
      Run nblocks mem free (perform op s).2 (arrayStep c op (perform op s).1)
        (own ∪ taken s (perform op s).2) (ops ++ [op])
  | other {s s' : Sys P} {c : Nat → Block} {own : Set P} {ops : List Op} :
      Run nblocks mem free s c own ops → Other own s s' → Run nblocks mem free s' c own ops

/-! ## Paths to blocks -/

open Radix

variable {s s' : Sys P} {c : Nat → Block} {own : Set P} {root x y : P} {b k nblocks : Nat}
  {i : Fin 512} {q : List (Fin 512)} {ops : List Op} {op : Op} {mem : P → Fin 512 → Entry P}
  {free : List P}

/-- The indices of the page of a block. -/
def path (b : Nat) : List (Fin 512) := [Fin.ofNat 512 (b / 2048), Fin.ofNat 512 (b / 4 % 512)]

theorem path_inj (hb : b < 2 ^ 20) (hk : k < 2 ^ 20)
    (h : path b = path k ∧ slot (b % 4 * 1024) = slot (k % 4 * 1024)) : b = k := by
  simp only [path, slot, List.cons.injEq, Fin.ext_iff, Fin.val_ofNat, and_true] at h
  omega

/-- The numbers that `walk` computes. -/
theorem walk_indices (hb : b < 2 ^ 20) : b * 1024 % 2 ^ 64 / 4096 / 512 = b / 2048 ∧
    b * 1024 % 2 ^ 64 / 4096 % 512 = b / 4 % 512 ∧ b * 1024 % 2 ^ 64 % 4096 = b % 4 * 1024 ∧
    b / 2048 < 512 := by
  omega

omit [DecidableEq P] in
theorem taken_self : taken s s = ∅ := Set.eq_empty_of_forall_notMem fun _ hz => hz.2 hz.1

omit [DecidableEq P] in
theorem taken_trans {s'' : Sys P} (h : s'.free ⊆ s.free) (h' : s''.free ⊆ s'.free) :
    taken s s' ∪ taken s' s'' = taken s s'' := by
  ext z
  have hz : z ∈ s'.free → z ∈ s.free := fun hz => h hz
  have hz' : z ∈ s''.free → z ∈ s'.free := fun hz => h' hz
  simp only [taken, Set.mem_union, Set.mem_ofPred_eq]
  tauto

/-! ## What the disk keeps -/

/-- The disk is a tree of pages that are not free, and its blocks are the array. -/
structure Inv (root : P) (s : Sys P) (c : Nat → Block) (own : Set P) : Prop where
  opened : s.disk.opened = true
  index : s.disk.pageIndexIndex = some root
  fits : s.disk.nblocks ≤ 2 ^ 20
  tree : Separated Entry.child 2 s.mem root
  owns : own = pages Entry.child 2 s.mem root
  free : s.free.Nodup ∧ ∀ x ∈ s.free, x ∉ own
  blocks : ∀ b < s.disk.nblocks,
    (leaf Entry.child .zero s.mem root (path b) (slot (b % 4 * 1024))).data = c b

theorem fill_write (hxy : y ≠ x) {e e0 : Entry P} :
    fill (Radix.write mem x i e) y e0 = Radix.write (fill mem y e0) x i e := by
  rw [fill, Radix.write, Radix.write, fill, Function.update_of_ne hxy.symm,
    Function.update_comm hxy]

/-- A page for an entry that has none. -/
theorem Inv.grow (h : Inv root s c own) (hq : q.length < 2)
    (hx : node Entry.child s.mem root q = some x) (hi : (s.mem x i).child = none)
    (hfree : s.free = y :: free) :
    Inv root { s with mem := fill (Radix.write s.mem x i (.ptr y)) y .zero, free := free } c
      (insert y own) := by
  obtain ⟨hnodup, hapart⟩ := h.free
  rw [hfree] at hnodup hapart
  obtain ⟨hy, hnodup⟩ := List.nodup_cons.mp hnodup
  have hyp : y ∉ pages Entry.child 2 s.mem root := h.owns ▸ hapart y List.mem_cons_self
  have hyx : y ≠ x := by
    rintro rfl
    exact hyp ⟨q, hq.le, hx⟩
  have hgrow : fill (Radix.write s.mem x i (.ptr y)) y .zero =
      Radix.grow s.mem x i y .zero (.ptr y) := fill_write hyx
  rw [hgrow]
  refine ⟨h.opened, h.index, h.fits, h.tree.grow hq hx hyp rfl rfl, ?_, ⟨hnodup, fun z hz => ?_⟩,
    fun b hb => ?_⟩
  · rw [pages_grow h.tree hq hx hyp rfl rfl hi, h.owns]
  · rintro (rfl | hzo)
    · exact hy hz
    · exact hapart z (List.mem_cons_of_mem y hz) hzo
  · rw [leaf_grow h.tree hq hx hyp rfl rfl hi rfl]
    exact h.blocks b hb

/-- The child of a page of the disk, or no page is left. -/
theorem getChild_spec (h : Inv root s c own) (hq : q.length < 2)
    (hx : node Entry.child s.mem root q = some x) :
    (getChild x i s = (.error .fail, s) ∧ s.free = []) ∨
      ∃ y s', getChild x i s = (.ok y, s') ∧ s'.disk = s.disk ∧
        node Entry.child s'.mem root (q ++ [i]) = some y ∧ s'.free ⊆ s.free ∧
        Inv root s' c (own ∪ taken s s') := by
  unfold getChild
  cases hi : (s.mem x i).child with
  | some y =>
    refine .inr ⟨y, s, rfl, rfl, node_snoc_eq_some.mpr ⟨x, hx, hi⟩, List.Subset.refl _, ?_⟩
    rwa [taken_self, Set.union_empty]
  | none =>
    cases hfree : s.free with
    | nil => exact .inl ⟨rfl, rfl⟩
    | cons y free =>
      have hgrow := h.grow hq hx hi hfree
      obtain ⟨hnodup, hapart⟩ := h.free
      rw [hfree] at hnodup hapart
      have hyp : y ∉ pages Entry.child 2 s.mem root := h.owns ▸ hapart y List.mem_cons_self
      have hyx : y ≠ x := by
        rintro rfl
        exact hyp ⟨q, hq.le, hx⟩
      refine .inr ⟨y, _, rfl, rfl, ?_, List.subset_cons_self y free, ?_⟩
      · rw [fill_write hyx]
        exact node_grow_self h.tree hq hx hyp rfl
      · have htaken : taken s { s with
            mem := fill (Radix.write s.mem x i (.ptr y)) y .zero, free := free } = {y} := by
          ext z
          have hy := (List.nodup_cons.mp hnodup).1
          simp only [taken, hfree, Set.mem_ofPred_eq, List.mem_cons, Set.mem_singleton_iff]
          constructor
          · rintro ⟨rfl | hz, hz'⟩
            · rfl
            · exact absurd hz hz'
          · rintro rfl
            exact ⟨.inl rfl, hy⟩
        rw [htaken, Set.union_singleton]
        exact hgrow

/-! ## Operations -/

theorem walk_outside (h : s.disk.nblocks < b) : walk b s = (.error .fail, s) := if_pos h

/-- The page of a block is on the path of the block, or no page is left. -/
theorem walk_spec (h : Inv root s c own) (hb : b < s.disk.nblocks) :
    (∃ s', walk b s = (.error .fail, s') ∧ s'.disk = s.disk ∧ s'.free = [] ∧
      Inv root s' c (own ∪ taken s s')) ∨
    ∃ x s', walk b s = (.ok (x, b % 4 * 1024), s') ∧ s'.disk = s.disk ∧
      node Entry.child s'.mem root (path b) = some x ∧ Inv root s' c (own ∪ taken s s') := by
  obtain ⟨h1, h2, h3, h4⟩ := walk_indices (hb.trans_le h.fits)
  have hfirst : (⟨b / 2048, h4⟩ : Fin 512) = Fin.ofNat 512 (b / 2048) :=
    Fin.ext (Nat.mod_eq_of_lt h4).symm
  unfold walk
  rw [if_neg hb.le.not_gt]
  simp only [h1, h2, h3, h.index, h4, dite_true, hfirst]
  rcases getChild_spec (q := []) (i := Fin.ofNat 512 (b / 2048)) h Nat.two_pos node_nil with
    ⟨hget, hfree⟩ | ⟨y, s1, hget, hdisk, hy, hsub, hinv⟩
  · refine .inl ⟨s, by simp only [hget], rfl, hfree, ?_⟩
    rwa [taken_self, Set.union_empty]
  · simp only [hget]
    rcases getChild_spec (i := Fin.ofNat 512 (b / 4 % 512)) hinv (by simp) hy with
      ⟨hget', hfree⟩ | ⟨x, s2, hget', hdisk', hx, hsub', hinv'⟩
    · exact .inl ⟨s1, by simp only [hget'], hdisk, hfree, hinv⟩
    · refine .inr ⟨x, s2, by simp only [hget'], hdisk'.trans hdisk, hx, ?_⟩
      rwa [Set.union_assoc, taken_trans hsub hsub'] at hinv'

omit [DecidableEq P] in
/-- A data page holds its blocks. -/
theorem Inv.read_block {x : P} (h : Inv root s c own) (hb : b < s.disk.nblocks)
    (hx : node Entry.child s.mem root (path b) = some x) :
    (s.mem x (slot (b % 4 * 1024))).data = c b := by
  rw [← h.blocks b hb, leaf, hx]
  rfl

theorem Inv.write_block {x : P} (h : Inv root s c own) (hb : b < s.disk.nblocks)
    (hx : node Entry.child s.mem root (path b) = some x) (d : Block) :
    Inv root { s with mem := Radix.write s.mem x (slot (b % 4 * 1024)) (.block d) }
      (Function.update c b d) own := by
  refine ⟨h.opened, h.index, h.fits, h.tree.write_leaf rfl hx, ?_, h.free, fun k hk => ?_⟩
  · rw [pages_write_leaf h.tree rfl hx, h.owns]
  · rw [leaf_write h.tree rfl hx rfl]
    by_cases hkb : k = b
    · rw [hkb, if_pos ⟨rfl, rfl⟩, Function.update_self]
      rfl
    · rw [if_neg fun hp => hkb (path_inj (hk.trans_le h.fits) (hb.trans_le h.fits) hp),
        Function.update_of_ne hkb]
      exact h.blocks k hk

/-- An operation on a block of the array. -/
theorem Inv.perform_inside (h : Inv root s c own) (hb : op.blockNo < s.disk.nblocks) :
    ((perform op s).1 = .ok (answer c op) ∨
      (perform op s).1 = .error .fail ∧ (perform op s).2.free = []) ∧
    (perform op s).2.disk = s.disk ∧
    Inv root (perform op s).2 (arrayStep c op (perform op s).1)
    (own ∪ taken s (perform op s).2) := by
  cases op with
  | read b =>
    replace hb : b < s.disk.nblocks := hb
    simp only [perform, read, if_pos h.opened]
    rcases walk_spec h hb with ⟨s', hw, hdisk, hfree, hinv⟩ | ⟨x, s', hw, hdisk, hx, hinv⟩
    · simp only [hw]
      exact ⟨.inr ⟨rfl, hfree⟩, hdisk, hinv⟩
    · simp only [hw]
      refine ⟨.inl ?_, hdisk, hinv⟩
      rw [hinv.read_block (hdisk ▸ hb) hx]
      rfl
  | write b d =>
    replace hb : b < s.disk.nblocks := hb
    simp only [perform, write, if_pos h.opened]
    rcases walk_spec h hb with ⟨s', hw, hdisk, hfree, hinv⟩ | ⟨x, s', hw, hdisk, hx, hinv⟩
    · simp only [hw]
      exact ⟨.inr ⟨rfl, hfree⟩, hdisk, hinv⟩
    · simp only [hw]
      exact ⟨.inl rfl, hdisk, hinv.write_block (hdisk ▸ hb) hx d⟩

/-- An operation behind the array that `walk` stops. -/
theorem Inv.perform_outside (h : Inv root s c own) (hb : s.disk.nblocks < op.blockNo) :
    perform op s = (.error .fail, s) := by
  cases op with
  | read b =>
    replace hb : s.disk.nblocks < b := hb
    simp only [perform, read, if_pos h.opened, walk_outside hb]
    rfl
  | write b d =>
    replace hb : s.disk.nblocks < b := hb
    simp only [perform, write, if_pos h.opened, walk_outside hb]
    rfl

/-! ## Runs -/

/-- A disk that was just made. -/
theorem Inv.start (hnodup : (x :: free).Nodup) (hn : nblocks ≤ 2 ^ 20) :
    Inv x (openDisk (construct nblocks mem (x :: free))) (fun _ => zeros)
      {z | z ∈ x :: free ∧ z ∉ free} := by
  have hnode : ∀ (i : Fin 512) (q : List (Fin 512)),
      node Entry.child (fill mem x .zero) x (i :: q) = none := fun i q => by
    rw [node, List.foldlM_cons, fill_self]
    rfl
  have hown : {z | z ∈ x :: free ∧ z ∉ free} = {x} := by
    ext z
    have hx := (List.nodup_cons.mp hnodup).1
    simp only [Set.mem_ofPred_eq, List.mem_cons, Set.mem_singleton_iff]
    constructor
    · rintro ⟨rfl | hz, hz'⟩
      · rfl
      · exact absurd hz hz'
    · rintro rfl
      exact ⟨.inl rfl, hx⟩
  refine ⟨rfl, rfl, hn, fun p q z _ _ hp hq => ?_, ?_, ⟨(List.nodup_cons.mp hnodup).2, ?_⟩,
    fun b _ => ?_⟩
  · cases p with
    | nil =>
      cases q with
      | nil => rfl
      | cons i q => exact absurd hq (by simp [openDisk, construct, hnode])
    | cons i p => exact absurd hp (by simp [openDisk, construct, hnode])
  · rw [hown]
    ext z
    constructor
    · rintro rfl
      exact root_mem_pages
    · rintro ⟨q, -, hz⟩
      cases q with
      | nil => exact (Option.some.inj hz).symm
      | cons i q => exact absurd hz (by simp [openDisk, construct, hnode])
  · exact fun z hz hz' => hz'.2 hz
  · rw [leaf, path]
    simp [openDisk, construct, hnode, Entry.data]

omit [DecidableEq P] in
theorem Inv.other (h : Inv root s c own) (ho : Other own s s') : Inv root s' c own := by
  have hsame : ∀ x ∈ pages Entry.child 2 s.mem root, s'.mem x = s.mem x := h.owns ▸ ho.mem
  refine ⟨ho.disk ▸ h.opened, ho.disk ▸ h.index, ho.disk ▸ h.fits, h.tree.congr hsame, ?_, ho.free,
    fun b hb => ?_⟩
  · rw [pages_congr hsame, h.owns]
  · rw [leaf_congr hsame le_rfl]
    exact h.blocks b (ho.disk ▸ hb)

theorem Run.inv (hrun : Run nblocks mem free s c own ops) (hnodup : free.Nodup) (hfree : free ≠ [])
    (hn : nblocks ≤ 2 ^ 20) (hops : ∀ op ∈ ops, op.blockNo ≠ nblocks) :
    s.disk.nblocks = nblocks ∧ ∃ root, Inv root s c own := by
  induction hrun with
  | start =>
    obtain ⟨x, free, rfl⟩ := List.exists_cons_of_ne_nil hfree
    exact ⟨rfl, x, Inv.start hnodup hn⟩
  | @op s c own ops op _ ih =>
    obtain ⟨hnb, root, h⟩ := ih fun op' hop => hops op' (List.mem_append_left _ hop)
    have hne : op.blockNo ≠ s.disk.nblocks := hnb ▸ hops op (by simp)
    rcases lt_or_gt_of_ne hne with hlt | hlt
    · obtain ⟨-, hdisk, hinv⟩ := h.perform_inside hlt
      exact ⟨hdisk ▸ hnb, root, hinv⟩
    · rw [h.perform_outside hlt, taken_self, Set.union_empty]
      exact ⟨hnb, root, by cases op <;> exact h⟩
  | other _ ho ih =>
    obtain ⟨hnb, root, h⟩ := ih hops
    exact ⟨ho.disk ▸ hnb, root, h.other ho⟩

/-! ## The destructor -/

/-- The pages that the inner loop frees. -/
def dataPages (s : Sys P) (x : P) (js : List (Fin 512)) : List P :=
  js.filterMap fun j => (s.mem x j).child

theorem freeData_spec {js : List (Fin 512)} (hnodup : (dataPages s x js).Nodup)
    (hx : x ∉ dataPages s x js) :
    let s' := js.foldl (fun s j =>
      match (s.mem x j).child with
      | some page => freePage page s
      | none => s) s
    s'.free = (dataPages s x js).reverse ++ s.free ∧
      ∀ z ∉ dataPages s x js, s'.mem z = s.mem z := by
  induction js generalizing s with
  | nil => exact ⟨rfl, fun _ _ => rfl⟩
  | cons j js ih =>
    rw [List.foldl_cons]
    cases hj : (s.mem x j).child with
    | none =>
      have heq : dataPages s x (j :: js) = dataPages s x js := by
        simp only [dataPages, List.filterMap_cons, hj]
      rw [heq] at hnodup hx ⊢
      exact ih hnodup hx
    | some page =>
      have heq : dataPages s x (j :: js) = page :: dataPages s x js := by
        simp only [dataPages, List.filterMap_cons, hj]
      rw [heq] at hnodup hx ⊢
      obtain ⟨hpage, hnodup⟩ := List.nodup_cons.mp hnodup
      have hsame : ∀ z, z ≠ page → (freePage page s).mem z = s.mem z := fun z hz =>
        Function.update_of_ne hz _ _
      have hrest : dataPages (freePage page s) x js = dataPages s x js := by
        rw [dataPages, hsame x fun he => hx (he ▸ List.mem_cons_self)]
        rfl
      have h := ih (s := freePage page s) (hrest ▸ hnodup)
        (hrest ▸ fun hm => hx (List.mem_cons_of_mem _ hm))
      rw [hrest] at h
      refine ⟨?_, fun z hz => ?_⟩
      · rw [List.reverse_cons, List.append_assoc]
        exact h.1
      · rw [List.mem_cons, not_or] at hz
        rw [← hsame z hz.1]
        exact h.2 z hz.2

/-- The pages that the outer loop frees for an entry. -/
def treePages (s : Sys P) (root : P) (i : Fin 512) : List P :=
  match (s.mem root i).child with
  | some index => dataPages s index indices ++ [index]
  | none => []

theorem freeTrees_spec {is : List (Fin 512)} (hnodup : (is.flatMap (treePages s root)).Nodup)
    (hroot : root ∉ is.flatMap (treePages s root)) :
    let s' := is.foldl (fun s i =>
      match (s.mem root i).child with
      | some index => freePage index (freeData index s)
      | none => s) s
    s'.free = (is.flatMap (treePages s root)).reverse ++ s.free := by
  induction is generalizing s with
  | nil => rfl
  | cons i is ih =>
    rw [List.foldl_cons]
    rw [List.flatMap_cons] at hnodup hroot ⊢
    cases hi : (s.mem root i).child with
    | none =>
      have heq : treePages s root i = [] := by simp only [treePages, hi]
      rw [heq] at hnodup hroot ⊢
      exact ih hnodup hroot
    | some index =>
      have heq : treePages s root i = dataPages s index indices ++ [index] := by
        simp only [treePages, hi]
      rw [heq] at hnodup hroot ⊢
      obtain ⟨hT, -, hTR⟩ := List.nodup_append.mp hnodup
      obtain ⟨hdata, -, hindex⟩ := List.nodup_append.mp hT
      have hindex' : index ∉ dataPages s index indices := fun hm =>
        hindex index hm index List.mem_cons_self rfl
      obtain ⟨hfree, hsame⟩ := freeData_spec hdata hindex'
      -- what was freed for the entry is not read later
      have hmem : ∀ z ∉ dataPages s index indices ++ [index],
          (freePage index (freeData index s)).mem z = s.mem z := by
        intro z hz
        rw [List.mem_append, List.mem_singleton, not_or] at hz
        exact (Function.update_of_ne hz.2 _ _).trans (hsame z hz.1)
      have hrootT : root ∉ dataPages s index indices ++ [index] := fun hm =>
        hroot (List.mem_append_left _ hm)
      have hlater : is.flatMap (treePages (freePage index (freeData index s)) root) =
          is.flatMap (treePages s root) := by
        refine List.flatMap_congr fun k hk => ?_
        rw [treePages, treePages, hmem root hrootT]
        cases hc : (s.mem root k).child with
        | none => rfl
        | some z =>
          have hz : z ∈ is.flatMap (treePages s root) :=
            List.mem_flatMap.mpr ⟨k, hk, by simp [treePages, hc]⟩
          simp only [dataPages, hmem z fun hzT => hTR z hzT z hz rfl]
      have h := ih (s := freePage index (freeData index s))
        (hlater ▸ (List.nodup_append.mp hnodup).2.1)
        (hlater ▸ fun hm => hroot (List.mem_append_right _ hm))
      rw [hlater] at h
      refine h.trans ?_
      have hfree' : (freePage index (freeData index s)).free =
          index :: ((dataPages s index indices).reverse ++ s.free) :=
        congrArg (index :: ·) hfree
      rw [hfree']
      simp

theorem mem_indices (i : Fin 512) : i ∈ indices := by
  unfold indices
  exact List.mem_finRange i

theorem nodup_indices : indices.Nodup := by
  unfold indices
  exact List.nodup_finRange 512

omit [DecidableEq P] in
theorem mem_dataPages : y ∈ dataPages s x indices ↔ ∃ j, (s.mem x j).child = some y := by
  simp only [dataPages, List.mem_filterMap, mem_indices, true_and]

omit [DecidableEq P] in
theorem mem_treePages : y ∈ treePages s root i ↔
    ∃ x, (s.mem root i).child = some x ∧ y ∈ pages Entry.child 1 s.mem x := by
  have hzero : ∀ x, y ∈ pages Entry.child 0 s.mem x ↔ x = y := by
    intro x
    constructor
    · rintro ⟨q, hq, hy⟩
      obtain rfl := List.eq_nil_of_length_eq_zero (Nat.le_zero.mp hq)
      exact Option.some.inj hy
    · rintro rfl
      exact root_mem_pages
  have hone : ∀ x, y ∈ pages Entry.child 1 s.mem x ↔ y ∈ dataPages s x indices ∨ y = x := by
    intro x
    rw [pages_succ, mem_dataPages, or_comm]
    simp only [hzero, exists_eq_right]
  unfold treePages
  cases (s.mem root i).child with
  | none => simp
  | some x => simp [hone]

omit [DecidableEq P] in
theorem nodup_treePages (hs : Separated Entry.child 2 s.mem root) :
    (treePages s root i).Nodup := by
  unfold treePages
  cases hi : (s.mem root i).child with
  | none => exact List.nodup_nil
  | some x =>
    have hx : Separated Entry.child 1 s.mem x := hs.subtree hi
    have hchild : ∀ j y, (s.mem x j).child = some y → node Entry.child s.mem x [j] = some y :=
      fun j y hy => (node_cons hy).trans rfl
    refine List.nodup_append.mpr ⟨nodup_indices.filterMap fun j k y hj hk => ?_,
      List.nodup_singleton x, fun y hy z hz hyz => ?_⟩
    · have hjk := hx [j] [k] y le_rfl le_rfl (hchild j y hj) (hchild k y hk)
      exact List.head_eq_of_cons_eq hjk
    · obtain ⟨j, hj⟩ := mem_dataPages.mp hy
      have hzx : y = x := hyz.trans (List.mem_singleton.mp hz)
      have hpath := hx [j] [] y le_rfl (Nat.zero_le 1) (hchild j y hj) (congrArg some hzx.symm)
      cases hpath

/-- The destructor finds each page of the tree once. -/
theorem Inv.destroy (h : Inv root s c own) : Returns own s := by
  have hpages : ∀ x, x ∈ indices.flatMap (treePages s root) ++ [root] ↔ x ∈ own := by
    intro x
    rw [h.owns, pages_succ]
    simp only [List.mem_append, List.mem_flatMap, mem_indices, true_and, List.mem_singleton,
      mem_treePages]
    exact or_comm
  have hnodup : (indices.flatMap (treePages s root) ++ [root]).Nodup := by
    refine List.nodup_append.mpr ⟨List.nodup_flatMap.mpr ⟨fun i _ => nodup_treePages h.tree,
      nodup_indices.imp fun hij x hx hx' => ?_⟩, List.nodup_singleton root, fun x hx y hy hxy => ?_⟩
    · obtain ⟨y, hy, hxy⟩ := mem_treePages.mp hx
      obtain ⟨z, hz, hxz⟩ := mem_treePages.mp hx'
      exact h.tree.disjoint hy hz hij hxy hxz
    · obtain ⟨i, -, hi⟩ := List.mem_flatMap.mp hx
      obtain ⟨z, hz, hxz⟩ := mem_treePages.mp hi
      have hxr : x = root := hxy.trans (List.mem_singleton.mp hy)
      exact h.tree.root_not_mem hz (hxr ▸ hxz)
  obtain ⟨hflat, -, hroot⟩ := List.nodup_append.mp hnodup
  have hspec := freeTrees_spec hflat fun hm => hroot root hm root List.mem_cons_self rfl
  refine ⟨_, (indices.flatMap (treePages s root) ++ [root]).reverse,
    congrArg (Option.map _) h.index, ?_, List.nodup_reverse.mpr hnodup,
    fun x => List.mem_reverse.trans (hpages x)⟩
  rw [List.reverse_append, List.append_assoc]
  exact congrArg (root :: ·) hspec

/-- Without operations on the block `nblocks`, the disk is an array and its pages come back. -/
theorem ramdisk_array (hn : (nblocks + 3) / 4 ≤ 512 * 512) (hnodup : free.Nodup) (hfree : free ≠ [])
    (hrun : Run nblocks mem free s c own ops) (hops : ∀ op ∈ ops, op.blockNo ≠ nblocks) :
    s.disk.nblocks = nblocks ∧ (∀ op, op.blockNo ≠ nblocks → Right c op s) ∧ Returns own s := by
  obtain ⟨hnb, root, h⟩ := hrun.inv hnodup hfree (by omega) hops
  refine ⟨hnb, fun op hop => ⟨fun hlt => (h.perform_inside hlt).1, fun hle => ?_⟩, h.destroy⟩
  exact h.perform_outside (lt_of_le_of_ne hle fun he => hop (he.symm.trans hnb))

theorem ramdisk_array_write :
    Right (Function.update (fun _ => zeros) 3 fun _ => 7) (.read 3)
      (perform (.write 3 fun _ => 7)
        (openDisk (construct 8 (fun _ _ => .zero) [0, 1, 2, 3]))).2 := by
  have hstart : Run 8 (fun _ _ => .zero) [0, 1, 2, 3] _ _ _ [] := Run.start
  have hrun := hstart.op (.write 3 fun _ => 7)
  exact (ramdisk_array (by decide) (by decide) (by decide) hrun (by decide)).2.1 (.read 3)
    (by decide)

/-- A disk of one block lets block 1 be read. -/
theorem last_block_passes :
    ¬ ∀ (nblocks : Nat) (mem : Nat → Fin 512 → Entry Nat) (free : List Nat) (s : Sys Nat)
      (c : Nat → Block) (own : Set Nat) (ops : List Op), (nblocks + 3) / 4 ≤ 512 * 512 →
      free.Nodup → free ≠ [] → Run nblocks mem free s c own ops →
      (∀ op, Right c op s) ∧ Returns own s := by
  intro h
  have hright := (h 1 (fun _ _ => .zero) [0, 1, 2] _ _ _ _ (by decide) (by decide) (by decide)
    Run.start).1 (.read 1)
  have hok : (perform (.read 1) (openDisk (construct 1 (fun _ _ => .zero) [0, 1, 2]))).1 =
      .ok (some zeros) := rfl
  rw [hright.outside le_rfl] at hok
  cases hok

/-- A disk whose constructor got no page cannot be destroyed. -/
theorem destroy_without_page : destroy (construct nblocks mem []) = none := rfl

end Ramdisk

end CoroCore
