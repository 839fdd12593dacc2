import CoroCore.Nfs.Mounted
import CoroCore.Nfs.Supply

/-!
# The numbers of the inodes: `nfs::alloc_inode` and `nfs::free_inode`

The free list starts in the `size` field of `dinode` 0, runs through the `dinode`s of the freed
numbers, and ends at the number from which on none was ever used. `NumbersOk` says that it holds
what it should, and that the next number is not in use; it holds in every run in which

* the number that `alloc_inode` takes has its `dinode` below 2^32 in the inode table;
* `alloc_block` has the blocks that the inode table needs when `free_inode` is called.

(`numbers_ok`.) `free_inode` writes the head of the list first. If there is no block for the record
of the inode, the list goes on behind this inode.
-/

namespace CoroCore.Nfs

open Lib

namespace Fs

/-- The file system with a history of numbers: those that `alloc_inode` gave out and that are not
freed, the freed ones that were not given out again, and all that were ever given out. -/
structure Numbers where
  fs : Fs
  allocated : List Nat
  freed : List Nat
  used : List Nat

/-- The calls, and what the owner of an inode does with it. -/
inductive NumberCall
  | alloc (victim : Option Nat)
  | free (i : Nat) (junk : Dinode)
  | flush (i : Nat)
  | edit (i size nlinks perm type : Nat)
  | write (i offset size : Nat) (src : Bytes)
  | truncate (i : Nat)

/-- The metadata of inode `i` is set, and the object marked dirty. -/
def setMetadata (i size nlinks perm type : Nat) (s : Fs) : Fs :=
  s.setIno i { s.ino i with size := size % 2 ^ 32, nlinks := nlinks % 2 ^ 16, perm := perm % 2 ^ 8,
                            type := type % 2 ^ 8, dirty := true }

/-- A call, done or failed; there is no step after a panic. Only inodes in use are freed, flushed,
edited, written and truncated, an inode that is freed has no blocks left, a write does not start at
a position of another file, and the inode table is not in the inode cache. -/
inductive NumberStep : Numbers → NumberCall → Numbers → Prop
  | alloc {s t : Fs} {as fs us : List Nat} {victim : Option Nat} {n : Nat} (hvic : victim ≠ some 0)
      (h : allocInode victim s = .ok (n, t)) :
      NumberStep ⟨s, as, fs, us⟩ (.alloc victim) ⟨t, n :: as, fs.erase n, n :: us⟩
  | allocFails {s t : Fs} {as fs us : List Nat} {victim : Option Nat}
      (h : allocInode victim s = .error (.failed t)) :
      NumberStep ⟨s, as, fs, us⟩ (.alloc victim) ⟨t, as, fs, us⟩
  | free {s t : Fs} {as fs us : List Nat} {i : Nat} {junk : Dinode} (hi : i ∈ as)
      (hblank : (s.ino i).Blank) (h : freeInode i junk s = .ok t) :
      NumberStep ⟨s, as, fs, us⟩ (.free i junk) ⟨retire i t, as.erase i, i :: fs, us⟩
  | freeFails {s t : Fs} {as fs us : List Nat} {i : Nat} {junk : Dinode} (hi : i ∈ as)
      (hblank : (s.ino i).Blank) (h : freeInode i junk s = .error t) :
      NumberStep ⟨s, as, fs, us⟩ (.free i junk) ⟨t, as, fs, us⟩
  | flush {s t : Fs} {as fs us : List Nat} {i : Nat} (hi : i ∈ as ++ [1])
      (h : Fs.flush i s = .ok t) : NumberStep ⟨s, as, fs, us⟩ (.flush i) ⟨t, as, fs, us⟩
  | flushFails {s t : Fs} {as fs us : List Nat} {i : Nat} (hi : i ∈ as ++ [1])
      (h : Fs.flush i s = .error t) : NumberStep ⟨s, as, fs, us⟩ (.flush i) ⟨t, as, fs, us⟩
  | edit {s t : Fs} {as fs us : List Nat} {i size nlinks perm type : Nat} (hi : i ∈ as ++ [1])
      (h : load i s = .ok t) :
      NumberStep ⟨s, as, fs, us⟩ (.edit i size nlinks perm type)
        ⟨setMetadata i size nlinks perm type t, as, fs, us⟩
  | editFails {s t : Fs} {as fs us : List Nat} {i size nlinks perm type : Nat} (hi : i ∈ as ++ [1])
      (h : load i s = .error t) :
      NumberStep ⟨s, as, fs, us⟩ (.edit i size nlinks perm type) ⟨t, as, fs, us⟩
  | write {s t : Fs} {as fs us : List Nat} {i offset size n : Nat} {src : Bytes}
      (hi : i ∈ as ++ [1]) (hpos : s.PosAt i (offset - directDataSize))
      (hend : offset + size < 2 ^ 32)
      (h : Fs.write i offset size src s = .ok (n, t)) :
      NumberStep ⟨s, as, fs, us⟩ (.write i offset size src) ⟨t, as, fs, us⟩
  | writeFails {s t : Fs} {as fs us : List Nat} {i offset size : Nat} {src : Bytes}
      (hi : i ∈ as ++ [1]) (hpos : s.PosAt i (offset - directDataSize))
      (hend : offset + size < 2 ^ 32)
      (h : Fs.write i offset size src s = .error t) :
      NumberStep ⟨s, as, fs, us⟩ (.write i offset size src) ⟨t, as, fs, us⟩
  | truncate {s t : Fs} {as fs us : List Nat} {i : Nat} (hi : i ∈ as ++ [1])
      (h : Fs.truncate i s = .ok t) : NumberStep ⟨s, as, fs, us⟩ (.truncate i) ⟨t, as, fs, us⟩
  | truncateFails {s t : Fs} {as fs us : List Nat} {i : Nat} (hi : i ∈ as ++ [1])
      (h : Fs.truncate i s = .error t) : NumberStep ⟨s, as, fs, us⟩ (.truncate i) ⟨t, as, fs, us⟩

/-- `alloc_inode` finds the number that it takes below 2^32 in the table, and there are the blocks
that the table needs for a number that is freed. -/
def Whole (x : Numbers) : NumberCall → Prop
  | .alloc _ => (x.fs.dinode 0).size * dinodeSize + dinodeSize < 2 ^ 32
  | .free i _ => Supplies (tableLacks x.fs i) x.fs.dev
  | .flush _ => True
  | .edit .. => True
  | .write .. => True
  | .truncate _ => True

/-- The free list holds the freed numbers, each once, and ends at the first number that was never
used; the superblock counts the inodes, and the next number is none in use. -/
structure NumbersOk (x : Numbers) : Prop where
  tag : (x.fs.dinode 0).type = itypeNextFreeInode
  list : ∃ top, Chain (fun m => (x.fs.dinode m).size) top (x.fs.dinode 0).size x.freed ∧
    (∀ m ∈ x.freed, (x.fs.dinode m).type = itypeNextFreeInode) ∧
    (x.fs.dinode top).type ≠ itypeNextFreeInode ∧ ∀ m, m ∈ x.used ↔ 2 ≤ m ∧ m < top
  acyclic : x.freed.Nodup
  distinct : x.allocated.Nodup
  ninodes : x.fs.dev.al.ninodes = 2 + x.allocated.length
  next : ∀ victim n t, allocInode victim x.fs = .ok (n, t) → n ≠ 0 ∧ n ≠ 1 ∧ n ∉ x.allocated

/-! ## The invariant -/

/-- The invariant of the runs; `top` is the first number that was never used. -/
structure NumInv (x : Numbers) (top : Nat) : Prop where
  table : TableInv (x.allocated ++ [1]) x.fs
  tag : (x.fs.dinode 0).type = itypeNextFreeInode
  list : Chain (fun m => (x.fs.dinode m).size) top (x.fs.dinode 0).size x.freed
  tags : ∀ m ∈ x.freed, (x.fs.dinode m).type = itypeNextFreeInode
  fresh : ∀ m, top ≤ m → (x.fs.dinode m).type ≠ itypeNextFreeInode
  used : ∀ m, m ∈ x.used ↔ 2 ≤ m ∧ m < top
  below : ∀ m, m ∈ x.allocated ∨ m ∈ x.freed → 2 ≤ m ∧ m < top
  disjoint : ∀ m ∈ x.freed, m ∉ x.allocated
  acyclic : x.freed.Nodup
  distinct : x.allocated.Nodup
  ninodes : x.fs.dev.al.ninodes = 2 + x.allocated.length
  bound : 2 ≤ top ∧ top ≤ 2 ^ 26

variable {s t : Fs} {as fs us : List Nat} {top : Nat} {x : Numbers}

theorem NumInv.freeList (h : NumInv x top) : FreeList (x.allocated ++ [1]) x.freed top x.fs where
  tag := h.tag
  list := h.list
  tags := h.tags
  fresh := h.fresh
  below m hm := by
    rw [List.mem_append, List.mem_singleton] at hm
    rcases hm with (hm | rfl) | hm
    · exact ⟨Nat.le_of_succ_le (h.below m (.inl hm)).1, (h.below m (.inl hm)).2⟩
    · exact ⟨Nat.le_refl 1, h.bound.1⟩
    · exact ⟨Nat.le_of_succ_le (h.below m (.inr hm)).1, (h.below m (.inr hm)).2⟩
  disjoint m hm := by
    rw [List.mem_append, List.mem_singleton, not_or]
    exact ⟨h.disjoint m hm, Nat.ne_of_gt (h.below m (.inr hm)).1⟩
  acyclic := h.acyclic
  bound := ⟨Nat.le_of_succ_le h.bound.1, h.bound.2⟩

theorem FreeList.numInv (hl : FreeList (as ++ [1]) fs top s) (ht : TableInv (as ++ [1]) s)
    (hone : 1 ∉ as) (hdistinct : as.Nodup)
    (hused : ∀ m, m ∈ us ↔ 2 ≤ m ∧ m < top) (hn : s.dev.al.ninodes = 2 + as.length) :
    NumInv ⟨s, as, fs, us⟩ top := by
  have htop : 2 ≤ top := (hl.below 1 (.inl (List.mem_append_right _ (List.mem_singleton_self 1)))).2
  refine ⟨ht, hl.tag, hl.list, hl.tags, hl.fresh, hused, fun m hm => ?_, fun m hm => ?_,
    hl.acyclic, hdistinct, hn, htop, hl.bound.2⟩
  · have hne : m ≠ 1 := by
      rintro rfl
      exact hm.elim hone fun hm =>
        hl.disjoint 1 hm (List.mem_append_right _ (List.mem_singleton_self 1))
    have hbelow := hl.below m (hm.imp_left (List.mem_append_left _))
    exact ⟨Nat.lt_of_le_of_ne hbelow.1 hne.symm, hbelow.2⟩
  · exact fun hmem => hl.disjoint m hm (List.mem_append_left _ hmem)

theorem NumInv.one_not_mem (h : NumInv x top) : 1 ∉ x.allocated := fun hm =>
  absurd (h.below 1 (.inl hm)).1 (by decide)

theorem NumInv.ok (h : NumInv x top) : NumbersOk x where
  tag := h.tag
  list := ⟨top, h.list, h.tags, h.fresh top (Nat.le_refl _), h.used⟩
  acyclic := h.acyclic
  distinct := h.distinct
  ninodes := h.ninodes
  next victim n t ha := by
    obtain ⟨hne, -, hnot⟩ := h.freeList.head
    rw [List.mem_append, List.mem_singleton, not_or] at hnot
    rw [allocInode_number h.table.core ha]
    exact ⟨hne, hnot.2, hnot.1⟩

/-- A step that leaves the list and the numbers alone. -/
theorem NumInv.keep (h : NumInv ⟨s, as, fs, us⟩ top) (ht : TableInv (as ++ [1]) t)
    (hd : ∀ m, m ∉ as ++ [1] → t.dinode m = s.dinode m)
    (hn : t.dev.al.ninodes = s.dev.al.ninodes) : NumInv ⟨t, as, fs, us⟩ top :=
  (h.freeList.keep h.table.zero hd).numInv ht h.one_not_mem h.distinct h.used
    (hn.trans h.ninodes)

theorem NumInv.still (h : NumInv ⟨s, as, fs, us⟩ top) (ht : Still s t)
    (hn : t.dev.al.ninodes = s.dev.al.ninodes) : NumInv ⟨t, as, fs, us⟩ top :=
  h.keep (ht.inv h.table) (fun m _ => ht.dinode m) hn

/-! ## `alloc_inode` -/

theorem NumInv.allocated_lt (h : NumInv ⟨s, as, fs, us⟩ top) : as.length < 2 ^ 26 := by
  have hsub : as.toFinset ⊆ (Finset.range top).erase 0 := by
    intro m hm
    have hbelow := h.below m (.inl (List.mem_toFinset.mp hm))
    exact Finset.mem_erase.mpr ⟨Nat.ne_of_gt (Nat.lt_of_lt_of_le Nat.zero_lt_two hbelow.1),
      Finset.mem_range.mpr hbelow.2⟩
  have htop : 0 < top := Nat.lt_of_lt_of_le Nat.zero_lt_two h.bound.1
  have hcard := Finset.card_le_card hsub
  rw [List.toFinset_card_of_nodup h.distinct, Finset.card_erase_of_mem (Finset.mem_range.mpr htop),
    Finset.card_range] at hcard
  exact Nat.lt_of_lt_of_le (Nat.lt_of_le_pred htop hcard) h.bound.2

theorem NumInv.alloc {victim : Option Nat} {n : Nat} (h : NumInv ⟨s, as, fs, us⟩ top)
    (hvic : victim ≠ some 0) (hbound : (s.dinode 0).size * dinodeSize + dinodeSize < 2 ^ 32)
    (ha : allocInode victim s = .ok (n, t)) :
    ∃ top', NumInv ⟨t, n :: as, fs.erase n, n :: us⟩ top' := by
  obtain ⟨hne, -, hnot⟩ : (s.dinode 0).size ≠ 0 ∧ (s.dinode 0).size ≤ top ∧
    (s.dinode 0).size ∉ as ++ [1] := h.freeList.head
  have hninodes := allocInode_ninodes ha
  have hlt := h.allocated_lt
  obtain ⟨hn, ha⟩ := allocInode_spec h.table hne hnot hbound hvic ha
  obtain rfl : n = (s.dinode 0).size := hn
  rw [List.mem_append, List.mem_singleton, not_or] at hnot
  obtain ⟨top', hlist, htop⟩ : ∃ top', FreeList ((s.dinode 0).size :: as ++ [1])
      (fs.erase (s.dinode 0).size) top' t ∧ ∀ m, m < top' ↔ m = (s.dinode 0).size ∨ m < top :=
    h.freeList.alloc ha rfl hbound
  refine ⟨top', hlist.numInv ha.inv
    (List.not_mem_cons_of_ne_of_not_mem (Ne.symm hnot.2) h.one_not_mem)
    (List.nodup_cons.mpr ⟨hnot.1, h.distinct⟩) (fun m => ?_) ?_⟩
  · have hge : 2 ≤ (s.dinode 0).size := (Nat.two_le_iff _).mpr ⟨hne, hnot.2⟩
    rw [List.mem_cons, h.used m, htop]
    omega
  · show t.dev.al.ninodes = 2 + (as.length + 1)
    rw [hninodes, show s.dev.al.ninodes = 2 + as.length from h.ninodes, Nat.mod_eq_of_lt]
    · rfl
    · omega

/-! ## `free_inode` -/

/-- The table has the block of `dinode` 0. -/
theorem first_block (h : Core s) (htype : (s.dinode 0).type ≠ 0) :
    ((loadTable s).ino 0).addrs 0 ≠ none32 := by
  obtain ⟨-, -, hbyte⟩ := loadTable_spec h
  have hdin : (loadTable s).dinode 0 = s.dinode 0 := dinode_congr fun k _ => hbyte _
  have hslot : ((loadTable s).refs (0, .direct 0)).isSome :=
    slot_of_dinode (s := loadTable s) (i := 0) (by rwa [hdin])
  intro hnone
  rw [Store.refs_eq, slotRef, if_pos (by decide), hnone] at hslot
  cases hslot

/-- `free_inode` is done if the table has a block for the `dinode`, or gets one. -/
theorem freeInode_done {i : Nat} (junk : Dinode) (h : Core s)
    (htag : (s.dinode 0).type = itypeNextFreeInode) (hi : i * dinodeSize + dinodeSize < 2 ^ 32)
    (hs : Supplies (tableLacks s i) s.dev) : ∃ t, freeInode i junk s = .ok t := by
  obtain ⟨htab, -, -⟩ := loadTable_spec h
  have hfirst := first_block h (by rw [htag]; decide)
  have hload : loadTable (loadTable s) = loadTable s := loadTable_of_valid loadTable_valid
  obtain ⟨temp, h₁⟩ := readDinode_ok (s := s) 0 fun hge => absurd hge (by decide)
  obtain ⟨rfl, -, -⟩ := readDinode_spec h (by decide) h₁
  -- the head of the list goes to a block that the table has
  obtain ⟨u, blk, h₂, hdev, -, -, hv⟩ := writeDinode_direct (s := loadTable s) (n := 0)
    (x := { s.dinode 0 with size := i }) (by decide) (by rw [hload]; exact hfirst)
  obtain ⟨htab₂, -, -⟩ := writeDinode_spec htab.core (by decide) h₂
  have hlacks : tableLacks u i ≤ tableLacks s i := by
    rw [tableLacks, loadTable_of_valid hv]
    exact Store.lacking_le htab₂.refs
  have hsupplies : Supplies (tableLacks u i) u.dev := by
    refine blockBudget.mono hlacks ?_
    rw [hdev, hload, loadTable_dev]
    exact hs.store blk h.owned.ok (first_used h hfirst)
  obtain ⟨w, h₃⟩ := writeDinode_done
    { junk with size := (s.dinode 0).size, type := itypeNextFreeInode } htab₂.core hi hsupplies
  refine ⟨setNinodes (w.dev.al.ninodes + 2 ^ 32 - 1) w, ?_⟩
  rw [freeInode, h₁]
  show (if (s.dinode 0).type ≠ itypeNextFreeInode then _ else _) = _
  rw [if_neg (not_not.mpr htag), h₂]
  show (writeDinode i _ u >>= _) = _
  rw [h₃]
  rfl

theorem NumInv.free {i : Nat} {junk : Dinode} (h : NumInv ⟨s, as, fs, us⟩ top) (hi : i ∈ as)
    (hblank : (s.ino i).Blank) (hf : freeInode i junk s = .ok t) :
    NumInv ⟨retire i t, as.erase i, i :: fs, us⟩ top := by
  have hbelow := h.below i (.inl hi)
  have hne : i ≠ 0 := Nat.ne_of_gt (Nat.lt_of_lt_of_le Nat.zero_lt_two hbelow.1)
  have hmem : i ∈ as ++ [1] := List.mem_append_left _ hi
  have hspec := freeInode_spec h.table.core hne (h.table.bound i hmem) hf
  have hlive : ∀ j, j ∈ as.erase i ++ [1] ↔ j ≠ i ∧ j ∈ as ++ [1] := by
    intro j
    rw [List.mem_append, List.mem_append, List.mem_singleton, List.Nodup.mem_erase_iff h.distinct]
    have hone : i ≠ 1 := Nat.ne_of_gt hbelow.1
    constructor
    · rintro (⟨hj, hm⟩ | rfl)
      · exact ⟨hj, .inl hm⟩
      · exact ⟨hone.symm, .inr rfl⟩
    · rintro ⟨hj, hm | rfl⟩
      · exact .inl ⟨hj, hm⟩
      · exact .inr rfl
  refine (h.freeList.free hspec hmem hlive).numInv (h.table.free hspec hne hblank hlive)
    (fun hm => h.one_not_mem (List.mem_of_mem_erase hm)) (h.distinct.erase i) h.used ?_
  have hlt := h.allocated_lt
  have hpos : 0 < as.length := List.length_pos_of_mem hi
  rw [hspec.ninodes, show s.dev.al.ninodes = 2 + as.length from h.ninodes,
    List.length_erase_of_mem hi]
  omega

/-! ## Runs -/

theorem NumInv.flush {i : Nat} (h : NumInv ⟨s, as, fs, us⟩ top) (hi : i ∈ as ++ [1])
    (hf : Fs.flush i s = .ok t) : NumInv ⟨t, as, fs, us⟩ top := by
  have hne : i ≠ 0 := fun he => h.table.zero (he ▸ hi)
  obtain ⟨ht, -, -, -, -, hd⟩ := flush_spec h.table hne hf
  have hn := flush_ninodes i s
  rw [hf] at hn
  exact h.keep ht hd hn

theorem NumInv.load {i : Nat} (h : NumInv ⟨s, as, fs, us⟩ top) (hi : i ∈ as ++ [1])
    (hl : Fs.load i s = .ok t) : NumInv ⟨t, as, fs, us⟩ top ∧ Keeps s t ∧
    (t.ino i).valid = true := by
  obtain ⟨ht, hkeep, hv, hbyte, -⟩ := load_spec h.table hi hl
  have hn := load_ninodes i s
  rw [hl] at hn
  exact ⟨h.keep ht (fun m _ => dinode_congr fun k _ => hbyte _) hn, hkeep, hv⟩

theorem NumInv.load_error {i : Nat} (h : NumInv ⟨s, as, fs, us⟩ top) (hi : i ∈ as ++ [1])
    (hl : Fs.load i s = .error t) : NumInv ⟨t, as, fs, us⟩ top := by
  have hn := load_ninodes i s
  rw [hl] at hn
  exact h.still (Fs.load_error h.table hi hl) hn

/-- New metadata in a loaded object. -/
theorem NumInv.setMeta {i : Nat} {x : Inode} (h : NumInv ⟨s, as, fs, us⟩ top) (hi : i ∈ as ++ [1])
    (ha : x.addrs = (s.ino i).addrs) (hn : x.nextAddrBlock = (s.ino i).nextAddrBlock)
    (hr : x.InRange) (hv : x.valid = true) (hd : x.dirty = true) :
    NumInv ⟨s.setIno i x, as, fs, us⟩ top := by
  obtain ⟨ht, hbyte, -⟩ := h.table.setMeta hi ha hn hr hv hd
  exact h.keep ht (fun m _ => dinode_congr fun k _ => hbyte 0 _) rfl

theorem NumInv.edit {i size nlinks perm type : Nat} (h : NumInv ⟨s, as, fs, us⟩ top)
    (hi : i ∈ as ++ [1]) (hl : Fs.load i s = .ok t) :
    NumInv ⟨setMetadata i size nlinks perm type t, as, fs, us⟩ top := by
  obtain ⟨ht, -, hv⟩ := h.load hi hl
  exact ht.setMeta hi rfl rfl ⟨Nat.mod_lt _ (by decide), Nat.mod_lt _ (by decide),
    Nat.mod_lt _ (by decide), Nat.mod_lt _ (by decide)⟩ hv rfl

/-- What a write to a loaded inode does, done or failed. -/
theorem NumInv.upd {i P n : Nat} {src : Bytes} (h : NumInv ⟨s, as, fs, us⟩ top) (hi : i ∈ as ++ [1])
    (hv : (s.ino i).valid = true) (hu : Store.Upd (tableModel s.dev.al.inodeTable) i P n src s t)
    (hn : t.dev.al.ninodes = s.dev.al.ninodes) :
    NumInv ⟨t, as, fs, us⟩ top ∧ (t.ino i).valid = true := by
  have hne : i ≠ 0 := fun he => h.table.zero (he ▸ hi)
  obtain ⟨hown, hal⟩ := Store.owned_tableModel.mp hu.owned
  have hbyte : ∀ p, t.byte 0 p = s.byte 0 p := fun p => hu.there 0 p (.inl hne.symm)
  obtain ⟨h1, h2, h3, h4, h5⟩ := hu.like
  obtain ⟨r1, r2, r3, r4⟩ := h.table.core.range i
  have hvalid : (t.ino i).valid = true := h5.trans hv
  refine ⟨h.keep (h.table.file hi hown hal
    (fun r hr => hr.of_other (hu.other 0 hne.symm) hu.refs) hbyte hu.other
    ⟨h1 ▸ r1, h2 ▸ r2, h3 ▸ r3, h4 ▸ r4⟩ hvalid
    (hu.dirty.imp_left fun hsame => ⟨Inode.alike_of_like hu.like hsame, hsame.2.2⟩))
    (fun m _ => dinode_congr fun k _ => hbyte _) hn, hvalid⟩

theorem NumInv.write {i offset : Nat} (size : Nat) (src : Bytes) (h : NumInv ⟨s, as, fs, us⟩ top)
    (hi : i ∈ as ++ [1]) (hpos : s.PosAt i (offset - directDataSize))
    (hend : offset + size < 2 ^ 32) :
    NumInv ⟨Store.endState Prod.snd (Fs.write i offset size src s), as, fs, us⟩ top := by
  cases hl : Fs.load i s with
  | error t =>
    rw [Fs.write, hl]
    exact h.load_error hi hl
  | ok t =>
    obtain ⟨ht, hkeep, hv⟩ := h.load hi hl
    have hne : i ≠ 0 := fun he => h.table.zero (he ▸ hi)
    have hspec : Store.DoneSpec (tableModel t.dev.al.inodeTable) true i offset 0 size src t
        (Store.dataRw allocBlock true i offset size src t) :=
      Store.dataRw_spec (owned_table ht.table.core) (hpos.mono (hkeep.pos i hne) hkeep.refs)
        (Nat.lt_add_right _ hend)
    have hn := (ninodes_frame i t.dev.al.ninodes).dataRw true offset size src rfl
    rw [Fs.write, hl]
    show NumInv ⟨Store.endState Prod.snd (Store.write allocBlock i offset size src t),
      as, fs, us⟩ top
    unfold Store.write
    cases hrw : Store.dataRw allocBlock true i offset size src t with
    | error u =>
      rw [hrw] at hspec hn
      obtain ⟨m, hu⟩ := hspec
      exact (ht.upd hi hv hu hn).1
    | ok r =>
      obtain ⟨m, buf, u⟩ := r
      rw [hrw] at hspec hn
      obtain ⟨hu, hvu⟩ := ht.upd hi hv hspec.2.upd hn
      simp only
      split
      · obtain ⟨-, r2, r3, r4⟩ := hu.table.core.range i
        exact hu.setMeta hi rfl rfl ⟨Nat.mod_lt _ (by decide), r2, r3, r4⟩ hvu rfl
      · exact hu

theorem freeBlock_ninodes {c b : Nat} {d : Dev Super} (h : d.al.ninodes = c) :
    (freeBlock b d).al.ninodes = c := by
  unfold freeBlock
  split
  · exact h
  · exact h

theorem NumInv.truncate {i : Nat} (h : NumInv ⟨s, as, fs, us⟩ top) (hi : i ∈ as ++ [1]) :
    NumInv ⟨Store.endState id (Fs.truncate i s), as, fs, us⟩ top := by
  cases hl : Fs.load i s with
  | error t =>
    rw [Fs.truncate, hl]
    exact h.load_error hi hl
  | ok t =>
    obtain ⟨ht, -, hv⟩ := h.load hi hl
    have hne : i ≠ 0 := fun he => h.table.zero (he ▸ hi)
    obtain ⟨htable, htr⟩ := ht.table.truncate hi hv
    have hn : (Store.truncate i t).dev.al.ninodes = t.dev.al.ninodes :=
      Store.truncate_keeps (Q := fun d => d.al.ninodes = t.dev.al.ninodes)
        (fun _ _ hd => freeBlock_ninodes hd) i rfl
    rw [truncate_of_load hl]
    exact ht.keep htable (fun m _ => dinode_congr fun k _ => htr.byte 0 _ hne.symm) hn

theorem NumInv.step {y : Numbers} {c : NumberCall} (h : NumInv x top) (hw : Whole x c)
    (hs : NumberStep x c y) : ∃ top', NumInv y top' := by
  cases hs with
  | alloc hvic ha => exact h.alloc hvic hw ha
  | allocFails ha =>
    obtain ⟨ht, hn⟩ := takeNumber_error h.table hw (allocInode_failed_iff.mp ha)
    exact ⟨top, h.still ht hn⟩
  | free hi hblank hf => exact ⟨top, h.free hi hblank hf⟩
  | @freeFails s t as fs us i junk hi hblank hf =>
    obtain ⟨u, hu⟩ := freeInode_done junk h.table.core h.tag
      (h.table.bound i (List.mem_append_left _ hi)) hw
    exact nomatch hf.symm.trans hu
  | flush hi hf => exact ⟨top, h.flush hi hf⟩
  | @flushFails s t as fs us i hi hf =>
    have hn := flush_ninodes i s
    rw [hf] at hn
    exact ⟨top, h.still (flush_error h.table (fun he => h.table.zero (he ▸ hi)) hf) hn⟩
  | edit hi hl => exact ⟨top, h.edit hi hl⟩
  | editFails hi hl => exact ⟨top, h.load_error hi hl⟩
  | @write s t as fs us i offset size n src hi hpos hend hr =>
    have hdone := h.write size src hi hpos hend
    rw [hr] at hdone
    exact ⟨top, hdone⟩
  | @writeFails s t as fs us i offset size src hi hpos hend hr =>
    have hdone := h.write size src hi hpos hend
    rw [hr] at hdone
    exact ⟨top, hdone⟩
  | @truncate s t as fs us i hi hr =>
    have hdone := h.truncate hi
    rw [hr] at hdone
    exact ⟨top, hdone⟩
  | @truncateFails s t as fs us i hi hr =>
    have hdone := h.truncate hi
    rw [hr] at hdone
    exact ⟨top, hdone⟩

/-- After some calls of `alloc_inode` alone: all numbers below `top` are in use, no inode has a
block, and the inode table has only the first one. -/
structure Filled (x : Numbers) (top : Nat) : Prop where
  inv : NumInv x top
  freed : x.freed = []
  all : ∀ m, 2 ≤ m → m < top → m ∈ x.allocated
  blank : ∀ j, j ≠ 0 → (x.fs.ino j).Blank ∧ (x.fs.ino j).cacheRawIndirectOffset = none32
  first : ((loadTable x.fs).ino 0).addrs 0 ≠ none32
  second : ((loadTable x.fs).ino 0).addrs 1 = none32
  far : ((loadTable x.fs).ino 0).nextAddrBlock = none32
  total : x.fs.dev.al.totalBlocks = 1024

theorem Filled.head (h : Filled x top) : (x.fs.dinode 0).size = top := by
  have hlist := h.inv.list
  rw [h.freed] at hlist
  exact chain_nil.mp hlist

theorem Filled.alloc (h : Filled x top) (hlt : top + 1 < 2 ^ 26) :
    ∃ y, NumberStep x (.alloc none) y ∧
    Filled y (top + 1) ∧ (y.fs.ino 0).valid = true ∧ (y.fs.ino top).valid = true := by
  obtain ⟨s, as, fs, us⟩ := x
  obtain rfl : fs = [] := h.freed
  have hhead : (s.dinode 0).size = top := h.head
  have hne : (s.dinode 0).size ≠ 0 := by
    have hge := h.inv.bound.1
    omega
  obtain ⟨t, ha, haddrs, hnext, hv, hlayout, -⟩ :=
    allocInode_direct h.inv.table.core h.inv.tag hne h.first fun _ => h.far
  rw [hhead] at ha
  have hbound : (s.dinode 0).size * dinodeSize + dinodeSize < 2 ^ 32 := by
    rw [hhead]
    simp only [dinodeSize]
    omega
  obtain ⟨top', hinv⟩ := h.inv.alloc (by decide) hbound ha
  have hlive : (s.dinode 0).size ∉ as ++ [1] := by
    rw [hhead]
    exact (h.inv.freeList.not_live (.inr (Nat.le_refl _))).2
  obtain ⟨-, hall⟩ := allocInode_spec h.inv.table hne hlive hbound (by decide) ha
  -- the list is still empty, so its end has moved by one
  have htop : top' = top + 1 := by
    have hmem := hinv.used
    have hold := h.inv.used
    simp only [List.mem_cons, hold] at hmem
    have hge := h.inv.bound.1
    have h1 := (hmem top).mp (.inl rfl)
    have h2 := hmem (top + 1)
    omega
  rw [htop] at hinv
  have hload : loadTable t = t := loadTable_of_valid hv
  have hall : Allocated (as ++ [1]) top s t := hall
  obtain ⟨z, hz⟩ := hall.ino
  refine ⟨_, .alloc (by decide) ha,
    ⟨hinv, rfl, fun m hm hlt => ?_, fun j hj => ⟨?_, ?_⟩, ?_, ?_, ?_, ?_⟩, hv,
    by show (t.ino top).valid = true; rw [hz]; rfl⟩
  · rcases Nat.lt_succ_iff_lt_or_eq.mp hlt with hlt | rfl
    · exact List.mem_cons_of_mem _ (h.all m hm hlt)
    · exact List.mem_cons_self
  · show (t.ino j).Blank
    rcases eq_or_ne j top with rfl | hjt
    · rw [hz]
      exact initData_blank z
    · exact (hall.alike j hj hjt).blank (h.blank j hj).1
  · show (t.ino j).cacheRawIndirectOffset = none32
    rcases hall.pos j hj with hnew | ⟨k, hk, hp⟩
    · exact hnew.1
    · exact hp.1.trans (h.blank k hk).2
  · show ((loadTable t).ino 0).addrs 0 ≠ none32
    rw [hload, haddrs]
    exact h.first
  · show ((loadTable t).ino 0).addrs 1 = none32
    rw [hload, haddrs]
    exact h.second
  · show ((loadTable t).ino 0).nextAddrBlock = none32
    rw [hload, hnext]
    exact h.far
  · exact hlayout.1.trans h.total

theorem Filled.run (h : Filled x 2) : ∀ n, n + 2 < 2 ^ 26 →
    ∃ calls y, Run NumberStep x calls y ∧ Filled y (n + 2) := by
  intro n
  induction n with
  | zero => exact fun _ => ⟨[], x, .nil x, h⟩
  | succ n ih =>
    intro hlt
    obtain ⟨calls, y, hrun, hy⟩ := ih (Nat.lt_of_succ_lt hlt)
    obtain ⟨z, hstep, hz, -⟩ := hy.alloc hlt
    exact ⟨_, z, hrun.snoc hstep, hz⟩

end Fs

end CoroCore.Nfs
