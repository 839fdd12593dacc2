import CoroCore.Nfs.HeldLock

/-!
# The inode table

An inode of which the memory holds no newer version is the one that its `dinode` in the inode
table describes (`TableInv.stored`). `load` therefore changes no inode, and `flush` makes a
`dinode` follow its inode.

* `Core`: what the operations on the inode table itself rely on;
* `Tab`: what an operation on the inode table leaves alone;
* `TableInv`: `Core` with the inodes in use, `live`;
* `load_spec`, `flush_spec`, `recycle_spec`, `allocInode_spec`.
-/

namespace CoroCore.Nfs

open Lib

namespace Inode

/-- The two objects hold the same inode. -/
structure Alike (x y : Inode) : Prop where
  size : y.size = x.size
  nlinks : y.nlinks = x.nlinks
  perm : y.perm = x.perm
  type : y.type = x.type
  next : y.nextAddrBlock = x.nextAddrBlock
  addrs : ∀ k < numDirectData, y.addrs k = x.addrs k

/-- The inode refers to no block. -/
def Blank (x : Inode) : Prop :=
  (∀ k < numDirectData, x.addrs k = none32) ∧ x.nextAddrBlock = none32

variable {x y z : Inode} {d : Dinode}

theorem Alike.refl (x : Inode) : x.Alike x := ⟨rfl, rfl, rfl, rfl, rfl, fun _ _ => rfl⟩

theorem Alike.trans (h : x.Alike y) (h' : y.Alike z) : x.Alike z where
  size := h'.size.trans h.size
  nlinks := h'.nlinks.trans h.nlinks
  perm := h'.perm.trans h.perm
  type := h'.type.trans h.type
  next := h'.next.trans h.next
  addrs k hk := (h'.addrs k hk).trans (h.addrs k hk)

theorem Alike.stored (h : x.Alike y) (hs : x.Stored d) : y.Stored d where
  size := hs.size.trans h.size.symm
  nlinks := hs.nlinks.trans h.nlinks.symm
  perm := hs.perm.trans h.perm.symm
  type := hs.type.trans h.type.symm
  next := hs.next.trans h.next.symm
  addrs k hk := (hs.addrs k hk).trans (h.addrs k hk).symm

theorem Alike.inRange (h : x.Alike y) (hr : x.InRange) : y.InRange where
  size := h.size ▸ hr.size
  nlinks := h.nlinks ▸ hr.nlinks
  perm := h.perm ▸ hr.perm
  type := h.type ▸ hr.type

theorem Alike.blank (h : x.Alike y) (hb : x.Blank) : y.Blank :=
  ⟨fun k hk => (h.addrs k hk).trans (hb.1 k hk), h.next.trans hb.2⟩

theorem Stored.alike (h : x.Stored d) : x.Alike (x.load d) :=
  ⟨h.size, h.nlinks, h.perm, h.type, h.next, h.addrs⟩

theorem alike_of_like (h : x.Like y) (ha : x.SameAddrs y) : x.Alike y :=
  ⟨h.1, h.2.1, h.2.2.1, h.2.2.2.1, ha.2.1, fun k _ => congrFun ha.1 k⟩

end Inode

namespace Store

theorem slotRef_of_blank {disk : Nat → Bytes} {x : Inode} (h : x.Blank) (p : Slot) :
    slotRef disk x p = none := by
  cases p with
  | direct k =>
    rw [slotRef]
    split
    · next hk => rw [h.1 k hk, toRef_none32]
    · rfl
  | link k => exact slotRef_no_chain h.2 _ (by simp)
  | entry k l => exact slotRef_no_chain h.2 _ (by simp)

theorem slotRef_alike {disk : Nat → Bytes} {x y : Inode} (h : x.Alike y) (p : Slot) :
    slotRef disk y p = slotRef disk x p := slotRef_same h.addrs h.next p

theorem Owned.block_lt {ι : Type} {s : Store ι Super} (h : s.Owned bitmapModel) {q : ι × Slot}
    {b : Nat} (hb : s.refs q = some b) : b < 2 ^ 20 :=
  Nat.lt_trans ((h.used b).mpr ⟨q, hb⟩).2.1 h.ok.total_lt

/-- The addresses in an inode are 32-bit numbers. -/
theorem Owned.addr_lt {ι : Type} {s : Store ι Super} (h : s.Owned bitmapModel) (i : ι) {k : Nat}
    (hk : k < numDirectData) : (s.ino i).addrs k < 2 ^ 32 := by
  by_cases hnone : (s.ino i).addrs k = none32
  · rw [hnone]
    decide
  · have href : s.refs (i, .direct k) = some ((s.ino i).addrs k) := by
      rw [refs_eq, slotRef, if_pos hk, toRef, if_neg hnone]
    exact Nat.lt_trans (h.block_lt href) (by decide)

theorem Owned.next_lt {ι : Type} {s : Store ι Super} (h : s.Owned bitmapModel) (i : ι) :
    (s.ino i).nextAddrBlock < 2 ^ 32 := by
  by_cases hnone : (s.ino i).nextAddrBlock = none32
  · rw [hnone]
    decide
  · have href : s.refs (i, .link 0) = some (s.ino i).nextAddrBlock := by
      rw [refs_eq, slotRef, chain, toRef, if_neg hnone]
    exact Nat.lt_trans (h.block_lt href) (by decide)

end Store

/-- An allocator that keeps `Q` of its own state. -/
def AllocModel.keeping {α : Type} (A : AllocModel α) (Q : α → Prop)
    (hok : ∀ d b d', A.Ok d → A.alloc d = .ok (b, d') → Q d.al → Q d'.al)
    (herr : ∀ d d', A.Ok d → A.alloc d = .error d' → Q d.al → Q d'.al) : AllocModel α where
  alloc := A.alloc
  Ok d := A.Ok d ∧ Q d.al
  Used := A.Used
  alloc_ok d b d' h heq := by
    obtain ⟨hok', hrest⟩ := A.alloc_ok d b d' h.1 heq
    exact ⟨⟨hok', hok d b d' h.1 heq h.2⟩, hrest⟩
  alloc_error d d' h heq := by
    obtain ⟨hok', hrest⟩ := A.alloc_error d d' h.1 heq
    exact ⟨⟨hok', herr d d' h.1 heq h.2⟩, hrest⟩
  store_ok d b blk h hb := by
    obtain ⟨hok', hrest⟩ := A.store_ok d b blk h.1 hb
    exact ⟨⟨hok', h.2⟩, hrest⟩

/-- `alloc_block` with the copy of the inode table's `dinode` in the superblock. -/
def tableModel (T : Dinode) : AllocModel Super :=
  bitmapModel.keeping (fun al => al.inodeTable = T)
    (fun d b d' h heq hT => by
      rcases allocBlock_spec h with ⟨c, bi, hc, -⟩ | herr | herr
      · rw [show bitmapModel.alloc d = _ from hc] at heq
        cases heq
        exact hT
      · rw [show bitmapModel.alloc d = _ from herr] at heq
        cases heq
      · rw [show bitmapModel.alloc d = _ from herr] at heq
        cases heq)
    (fun d d' h heq hT => by
      rcases allocBlock_spec h with ⟨c, bi, hc, -⟩ | herr | herr
      · rw [show bitmapModel.alloc d = _ from hc] at heq
        cases heq
      · rw [show bitmapModel.alloc d = _ from herr] at heq
        cases heq
        exact hT
      · rw [show bitmapModel.alloc d = _ from herr] at heq
        cases heq
        exact hT)

theorem Store.owned_tableModel {ι : Type} {T : Dinode} {s : Store ι Super} :
    s.Owned (tableModel T) ↔ s.Owned bitmapModel ∧ s.dev.al.inodeTable = T :=
  ⟨fun h => ⟨⟨h.ok.1, h.inj, h.used⟩, h.ok.2⟩, fun h => ⟨⟨h.1.ok, h.2⟩, h.1.inj, h.1.used⟩⟩

namespace Fs

/-- The `dinode` of inode `i` in the inode table. -/
def dinode (s : Fs) (i : Nat) : Dinode := Dinode.decode fun k => s.byte 0 (i * dinodeSize + k)

/-- The blocks are accounted for, the inode table can be read and written, and if its object
holds nothing newer the superblock describes it. -/
structure Core (s : Fs) : Prop where
  owned : s.Owned bitmapModel
  pos : ∀ r < none32, s.PosAt 0 r
  range : ∀ i, (s.ino i).InRange
  table : ¬((s.ino 0).valid = true ∧ (s.ino 0).dirty = true) →
    (s.ino 0).Stored s.dev.al.inodeTable

/-- An operation on the inode table. -/
structure Tab (s t : Fs) : Prop where
  core : Core t
  ino : ∀ j, j ≠ 0 → t.ino j = s.ino j
  byte : ∀ j, j ≠ 0 → ∀ p, t.byte j p = s.byte j p
  refs : ∀ q b, s.refs q = some b → t.refs q = some b

variable {s t u : Fs} {n i : Nat} {d : Dinode}

theorem Tab.refl (h : Core s) : Tab s s := ⟨h, fun _ _ => rfl, fun _ _ _ => rfl, fun _ _ h => h⟩

theorem Tab.trans (h : Tab s t) (h' : Tab t u) : Tab s u where
  core := h'.core
  ino j hj := (h'.ino j hj).trans (h.ino j hj)
  byte j hj p := (h'.byte j hj p).trans (h.byte j hj p)
  refs q b hb := h'.refs q b (h.refs q b hb)

theorem dinode_congr (h : ∀ k < dinodeSize, t.byte 0 (i * dinodeSize + k) =
    s.byte 0 (i * dinodeSize + k)) : t.dinode i = s.dinode i :=
  Dinode.decode_congr h

/-! ## Reading and writing the table -/

theorem loadTable_spec (h : Core s) : Tab s (loadTable s) ∧ ((loadTable s).ino 0).valid = true ∧
    ∀ p, (loadTable s).byte 0 p = s.byte 0 p := by
  unfold loadTable
  split
  · next hv => exact ⟨Tab.refl h, hv, fun _ => rfl⟩
  · next hv =>
    have halike := (h.table fun hvd => hv hvd.1).alike
    have hrefs : (s.setIno 0 ((s.ino 0).load s.dev.al.inodeTable)).refs = s.refs :=
      Store.refs_setIno halike.addrs halike.next
    refine ⟨⟨⟨h.owned.setIno halike.addrs halike.next, fun r hr => ?_, fun j => ?_, fun _ => ?_⟩,
      fun j hj => Store.setIno_of_ne hj, fun j _ p => ?_, fun q b hb => by rw [hrefs, hb]⟩, ?_,
      fun p => ?_⟩
    · refine (h.pos r hr).mono ?_ fun q b hb => by rw [hrefs, hb]
      rw [Store.setIno_self]
      exact ⟨rfl, rfl, rfl⟩
    · rcases eq_or_ne j 0 with rfl | hj
      · rw [Store.setIno_self]
        exact halike.inRange (h.range 0)
      · rw [Store.setIno_of_ne hj]
        exact h.range j
    · rw [Store.setIno_self]
      exact halike.stored (h.table fun hvd => hv hvd.1)
    · exact Store.byte_setIno halike.addrs halike.next j p
    · rw [Store.setIno_self]
      rfl
    · exact Store.byte_setIno halike.addrs halike.next 0 p

/-- What a completed `read` or `write` of the inode table keeps. -/
theorem Core.tab (h : Core s) (hown : t.Owned bitmapModel)
    (hino : ∀ j, j ≠ 0 → t.ino j = s.ino j) (hbyte : ∀ j, j ≠ 0 → ∀ p, t.byte j p = s.byte j p)
    (hrefs : ∀ q b, s.refs q = some b → t.refs q = some b) (hpos : ∀ r, s.PosAt 0 r → t.PosAt 0 r)
    (hrange : (t.ino 0).InRange) (hal : t.dev.al.inodeTable = s.dev.al.inodeTable)
    (hvalid : (t.ino 0).valid = true)
    (hdirty : (s.ino 0).Alike (t.ino 0) ∧ (t.ino 0).dirty = (s.ino 0).dirty ∨
      (t.ino 0).dirty = true) : Tab s t := by
  refine ⟨⟨hown, fun r hr => hpos r (h.pos r hr), fun j => ?_, fun hclean => ?_⟩,
    hino, hbyte, hrefs⟩
  · rcases eq_or_ne j 0 with rfl | hj
    · exact hrange
    · rw [hino j hj]
      exact h.range j
  · rcases hdirty with ⟨halike, hd⟩ | hd
    · rw [hal]
      exact halike.stored (h.table fun hvd => hclean ⟨hvalid, hd.trans hvd.2⟩)
    · exact absurd ⟨hvalid, hd⟩ hclean

theorem owned_table (h : Core s) : s.Owned (tableModel s.dev.al.inodeTable) :=
  Store.owned_tableModel.mpr ⟨h.owned, rfl⟩

theorem offset_lt {n : Nat} (hn : n * dinodeSize + dinodeSize < 2 ^ 32) :
    n * dinodeSize - directDataSize < none32 := by
  simp only [dinodeSize, directDataSize, none32] at *
  omega

theorem readDinode_spec (h : Core s) (hn : n * dinodeSize + dinodeSize < 2 ^ 32)
    (hr : readDinode n s = .ok (d, t)) :
    d = s.dinode n ∧ Tab s t ∧ ∀ p, t.byte 0 p = s.byte 0 p := by
  obtain ⟨⟨m, buf, u⟩, hread, hd⟩ := bind_ok hr
  cases hd
  obtain ⟨htab, hv, hbyte⟩ := loadTable_spec h
  have hcore := htab.core
  obtain ⟨-, hbuf, hkept⟩ :=
    Store.read_spec (owned_table hcore) (hcore.pos _ (offset_lt hn)) hn hread
  obtain ⟨hown, hal⟩ := Store.owned_tableModel.mp hkept.owned
  refine ⟨?_, htab.trans (hcore.tab hown hkept.other (fun j _ p => hkept.byte j p) hkept.refs
    hkept.pos ?_ hal ?_ ?_), fun p => (hkept.byte 0 p).trans (hbyte p)⟩
  · refine Dinode.decode_congr fun k hk => ?_
    rw [hbuf, memcpy_in (Nat.zero_le k) (by rwa [Nat.zero_add]), hbyte]
    rfl
  · obtain ⟨h1, h2, h3, h4, -⟩ := hkept.like
    obtain ⟨r1, r2, r3, r4⟩ := hcore.range 0
    exact ⟨h1 ▸ r1, h2 ▸ r2, h3 ▸ r3, h4 ▸ r4⟩
  · exact hkept.like.2.2.2.2.trans hv
  · refine hkept.dirty.imp_left fun hsame => ⟨Inode.alike_of_like hkept.like hsame, hsame.2.2⟩

theorem writeDinode_spec (h : Core s) (hn : n * dinodeSize + dinodeSize < 2 ^ 32)
    (hw : writeDinode n d s = .ok t) :
    Tab s t ∧ (∀ k < dinodeSize, t.byte 0 (n * dinodeSize + k) = d.encode k) ∧
      ∀ p, p < n * dinodeSize ∨ n * dinodeSize + dinodeSize ≤ p → t.byte 0 p = s.byte 0 p := by
  obtain ⟨⟨m, u⟩, hwrite, hd⟩ := bind_ok hw
  cases hd
  obtain ⟨htab, hv, hbyte⟩ := loadTable_spec h
  have hcore := htab.core
  obtain ⟨-, hwrote⟩ := Store.write_spec (owned_table hcore) (hcore.pos _ (offset_lt hn)) hn hwrite
  obtain ⟨hown, hal⟩ := Store.owned_tableModel.mp hwrote.owned
  refine ⟨htab.trans (hcore.tab hown hwrote.other (fun j hj p => hwrote.there j p (.inl hj))
    hwrote.refs hwrote.pos ?_ hal ?_ ?_), fun k hk => ?_, fun p hp => ?_⟩
  · obtain ⟨r1, r2, r3, r4⟩ := hcore.range 0
    refine ⟨?_, hwrote.nlinks ▸ r2, hwrote.perm ▸ r3, hwrote.type ▸ r4⟩
    rw [hwrote.size]
    exact max_lt r1 hn
  · exact hwrote.valid.trans hv
  · refine hwrote.dirty.imp_left fun ⟨hsame, hsize⟩ => ⟨?_, hsame.2.2⟩
    exact Inode.alike_of_like ⟨hsize, hwrote.nlinks, hwrote.perm, hwrote.type, hwrote.valid⟩ hsame
  · rw [hwrote.here _ (Nat.le_add_right _ _) (Nat.add_lt_add_left hk _), Nat.add_sub_cancel_left]
  · rw [hwrote.there 0 p (.inr hp), hbyte]

/-- The `dinode`s after a `dinode` is written. -/
theorem writeDinode_dinode (h : Core s) (hn : n * dinodeSize + dinodeSize < 2 ^ 32)
    (hw : writeDinode n d s = .ok t) :
    t.dinode n = Dinode.decode d.encode ∧ ∀ m, m ≠ n → t.dinode m = s.dinode m := by
  obtain ⟨-, hin, hout⟩ := writeDinode_spec h hn hw
  refine ⟨Dinode.decode_congr hin, fun m hm => dinode_congr fun k hk => hout _ ?_⟩
  simp only [dinodeSize] at *
  omega

/-! ## The inodes in use -/

/-- A byte that is not 0 is in a block. -/
theorem slot_of_byte {p : Nat} (h : s.byte i p ≠ 0) :
    (s.refs (i, slotAt (p / blockSize))).isSome := by
  rw [Store.byte_eq] at h
  split at h
  · exact absurd rfl h
  · next hb => rw [hb]; rfl

/-- A `dinode` whose type is not 0 is in a block. -/
theorem slot_of_dinode (h : (s.dinode i).type ≠ 0) :
    (s.refs (0, slotAt (i * dinodeSize / blockSize))).isSome := by
  have hbyte : s.byte 0 (i * dinodeSize + 7) ≠ 0 := by
    intro hzero
    refine h ?_
    show getLe (fun k => s.byte 0 (i * dinodeSize + k)) 7 1 = 0
    rw [getLe, getLe, hzero]
    rfl
  have hslot := slot_of_byte hbyte
  have hpage : (i * dinodeSize + 7) / blockSize = i * dinodeSize / blockSize := by
    simp only [dinodeSize, blockSize]
    omega
  rwa [hpage] at hslot

/-- The state of the inodes `live`, of which 0 is none: those without a newer version in memory
are in the table. The other numbers are free. -/
structure TableInv (live : List Nat) (s : Fs) : Prop where
  core : Core s
  zero : 0 ∉ live
  bound : ∀ i ∈ live, i * dinodeSize + dinodeSize < 2 ^ 32
  stored : ∀ i ∈ live, ¬((s.ino i).valid = true ∧ (s.ino i).dirty = true) →
    (s.ino i).Stored (s.dinode i)
  absent : ∀ i, i ≠ 0 → i ∉ live → (s.ino i).valid = false ∧ (s.ino i).Blank

/-- No file changes; objects may be loaded and flushed. -/
structure Keeps (s t : Fs) : Prop where
  alike : ∀ j, j ≠ 0 → (s.ino j).Alike (t.ino j)
  pos : ∀ j, j ≠ 0 → (s.ino j).SamePos (t.ino j)
  byte : ∀ j, j ≠ 0 → ∀ p, t.byte j p = s.byte j p
  refs : ∀ q b, s.refs q = some b → t.refs q = some b

theorem Keeps.refl (s : Fs) : Keeps s s :=
  ⟨fun _ _ => Inode.Alike.refl _, fun _ _ => Inode.SamePos.refl _, fun _ _ _ => rfl, fun _ _ h => h⟩

theorem Keeps.trans (h : Keeps s t) (h' : Keeps t u) : Keeps s u where
  alike j hj := (h.alike j hj).trans (h'.alike j hj)
  pos j hj := (h.pos j hj).trans (h'.pos j hj)
  byte j hj p := (h'.byte j hj p).trans (h.byte j hj p)
  refs q b hb := h'.refs q b (h.refs q b hb)

theorem Tab.keeps (h : Tab s t) : Keeps s t where
  alike j hj := by
    rw [h.ino j hj]
    exact Inode.Alike.refl _
  pos j hj := by
    rw [h.ino j hj]
    exact Inode.SamePos.refl _
  byte := h.byte
  refs := h.refs

variable {live : List Nat}

/-- An operation on the table that leaves the `dinode`s in use alone. -/
theorem TableInv.tab (h : TableInv live s) (htab : Tab s t)
    (hd : ∀ i ∈ live, t.dinode i = s.dinode i) : TableInv live t where
  core := htab.core
  zero := h.zero
  bound := h.bound
  stored i hi hclean := by
    have hne : i ≠ 0 := fun he => h.zero (he ▸ hi)
    rw [htab.ino i hne] at hclean ⊢
    rw [hd i hi]
    exact h.stored i hi hclean
  absent i hne hi := by
    rw [htab.ino i hne]
    exact h.absent i hne hi

/-- Another object for inode `i`, with the same block addresses. -/
theorem Core.setObject {x : Inode} (h : Core s) (hi : i ≠ 0)
    (ha : ∀ k < numDirectData, x.addrs k = (s.ino i).addrs k)
    (hn : x.nextAddrBlock = (s.ino i).nextAddrBlock) (hr : x.InRange) :
    Core (s.setIno i x) ∧ (∀ j p, (s.setIno i x).byte j p = s.byte j p) ∧
      (s.setIno i x).refs = s.refs := by
  have hrefs : (s.setIno i x).refs = s.refs := Store.refs_setIno ha hn
  refine ⟨⟨h.owned.setIno ha hn, fun r hr => ?_, fun j => ?_, ?_⟩, Store.byte_setIno ha hn, hrefs⟩
  · exact (h.pos r hr).of_other (Store.setIno_of_ne hi.symm) fun q b hb => by rw [hrefs, hb]
  · rcases eq_or_ne j i with rfl | hj
    · rwa [Store.setIno_self]
    · rw [Store.setIno_of_ne hj]
      exact h.range j
  · rw [Store.setIno_of_ne hi.symm]
    exact h.table

/-- Another object for inode `i` that holds the same inode. -/
theorem Core.setIno {x : Inode} (h : Core s) (hi : i ≠ 0) (hx : (s.ino i).Alike x) :
    Core (s.setIno i x) ∧ (∀ j p, (s.setIno i x).byte j p = s.byte j p) ∧
      (s.setIno i x).refs = s.refs :=
  h.setObject hi hx.addrs hx.next (hx.inRange (h.range i))

theorem TableInv.setIno {x : Inode} (h : TableInv live s) (hi : i ≠ 0) (hx : (s.ino i).Alike x)
    (hstored : i ∈ live → ¬(x.valid = true ∧ x.dirty = true) → x.Stored (s.dinode i))
    (habsent : i ∉ live → x.valid = false) : TableInv live (s.setIno i x) := by
  obtain ⟨hcore, hbyte, -⟩ := h.core.setIno hi hx
  have hd : ∀ j, dinode (s.setIno i x) j = s.dinode j :=
    fun j => dinode_congr fun k _ => hbyte 0 _
  refine ⟨hcore, h.zero, h.bound, fun j hj => ?_, fun j hne hj => ?_⟩
  · rw [hd]
    rcases eq_or_ne j i with rfl | hji
    · rw [Store.setIno_self]
      exact hstored hj
    · rw [Store.setIno_of_ne hji]
      exact h.stored j hj
  · rcases eq_or_ne j i with rfl | hji
    · rw [Store.setIno_self]
      exact ⟨habsent hj, hx.blank (h.absent j hne hj).2⟩
    · rw [Store.setIno_of_ne hji]
      exact h.absent j hne hj

/-- An operation on the contents of a loaded file. -/
theorem TableInv.file (h : TableInv live s) (hi : i ∈ live) (hown : t.Owned bitmapModel)
    (hal : t.dev.al.inodeTable = s.dev.al.inodeTable) (hpos : ∀ r, s.PosAt 0 r → t.PosAt 0 r)
    (hbyte : ∀ p, t.byte 0 p = s.byte 0 p) (hino : ∀ j, j ≠ i → t.ino j = s.ino j)
    (hrange : (t.ino i).InRange) (hvalid : (t.ino i).valid = true)
    (hdirty : (s.ino i).Alike (t.ino i) ∧ (t.ino i).dirty = (s.ino i).dirty ∨
      (t.ino i).dirty = true) : TableInv live t := by
  have hne : i ≠ 0 := fun he => h.zero (he ▸ hi)
  have hd : ∀ j, t.dinode j = s.dinode j := fun j => dinode_congr fun k _ => hbyte _
  refine ⟨⟨hown, fun r hr => hpos r (h.core.pos r hr), fun j => ?_, ?_⟩, h.zero, h.bound,
    fun j hj hclean => ?_, fun j hj hl => ?_⟩
  · rcases eq_or_ne j i with rfl | hji
    · exact hrange
    · rw [hino j hji]
      exact h.core.range j
  · rw [hino 0 hne.symm, hal]
    exact h.core.table
  · rw [hd]
    rcases eq_or_ne j i with rfl | hji
    · rcases hdirty with ⟨halike, hsame⟩ | hdirty
      · exact halike.stored (h.stored j hj fun hvd => hclean ⟨hvalid, hsame.trans hvd.2⟩)
      · exact absurd ⟨hvalid, hdirty⟩ hclean
    · rw [hino j hji] at hclean ⊢
      exact h.stored j hj hclean
  · rw [hino j fun he => hl (he ▸ hi)]
    exact h.absent j hj hl

/-- New metadata in a loaded object, which becomes dirty. -/
theorem TableInv.setMeta {x : Inode} (h : TableInv live s) (hi : i ∈ live)
    (ha : x.addrs = (s.ino i).addrs) (hn : x.nextAddrBlock = (s.ino i).nextAddrBlock)
    (hr : x.InRange) (hv : x.valid = true) (hd : x.dirty = true) :
    TableInv live (s.setIno i x) ∧ (∀ j p, (s.setIno i x).byte j p = s.byte j p) ∧
      (s.setIno i x).refs = s.refs := by
  have hne : i ≠ 0 := fun he => h.zero (he ▸ hi)
  obtain ⟨hcore, hbyte, hrefs⟩ := h.core.setObject hne (fun k _ => congrFun ha k) hn hr
  have hdin : ∀ j, dinode (s.setIno i x) j = s.dinode j :=
    fun j => dinode_congr fun k _ => hbyte 0 _
  refine ⟨⟨hcore, h.zero, h.bound, fun j hj hclean => ?_, fun j hj hl => ?_⟩, hbyte, hrefs⟩
  · rw [hdin]
    rcases eq_or_ne j i with rfl | hji
    · rw [Store.setIno_self] at hclean
      exact absurd ⟨hv, hd⟩ hclean
    · rw [Store.setIno_of_ne hji] at hclean ⊢
      exact h.stored j hj hclean
  · have hji : j ≠ i := fun he => hl (he ▸ hi)
    rw [Store.setIno_of_ne hji]
    exact h.absent j hj hl

theorem Core.keeps_setIno {x : Inode} (h : Core s) (hi : i ≠ 0) (hx : (s.ino i).Alike x)
    (hp : (s.ino i).SamePos x) : Keeps s (s.setIno i x) := by
  obtain ⟨-, hbyte, hrefs⟩ := h.setIno hi hx
  refine ⟨fun j hj => ?_, fun j hj => ?_, fun j _ p => hbyte j p, fun q b hb => by rw [hrefs, hb]⟩
  · rcases eq_or_ne j i with rfl | hji
    · rwa [Store.setIno_self]
    · rw [Store.setIno_of_ne hji]
      exact Inode.Alike.refl _
  · rcases eq_or_ne j i with rfl | hji
    · rwa [Store.setIno_self]
    · rw [Store.setIno_of_ne hji]
      exact Inode.SamePos.refl _

/-- `load` of an inode in use. -/
theorem load_spec (h : TableInv live s) (hi : i ∈ live) (hl : load i s = .ok t) :
    TableInv live t ∧ Keeps s t ∧ (t.ino i).valid = true ∧ (∀ p, t.byte 0 p = s.byte 0 p) ∧
      ∀ j, j ≠ 0 → j ≠ i → t.ino j = s.ino j := by
  have hne : i ≠ 0 := fun he => h.zero (he ▸ hi)
  unfold load at hl
  split at hl
  · next hv =>
    cases hl
    exact ⟨h, Keeps.refl s, hv, fun _ => rfl, fun _ _ _ => rfl⟩
  · next hv =>
    obtain ⟨⟨d, u⟩, hread, hd⟩ := bind_ok hl
    cases hd
    obtain ⟨rfl, htab, hbyte⟩ := readDinode_spec h.core (h.bound i hi) hread
    have hu := h.tab htab fun j _ => dinode_congr fun k _ => hbyte _
    have hstored : (u.ino i).Stored (s.dinode i) := by
      rw [htab.ino i hne]
      exact h.stored i hi fun hvd => hv hvd.1
    have hdin : u.dinode i = s.dinode i := dinode_congr fun k _ => hbyte _
    refine ⟨hu.setIno hne hstored.alike (fun _ _ => ?_) (fun hni => absurd hi hni),
      htab.keeps.trans (hu.core.keeps_setIno hne hstored.alike ⟨rfl, rfl, rfl⟩), ?_, fun p => ?_,
      fun j hj hji => (Store.setIno_of_ne hji).trans (htab.ino j hj)⟩
    · rw [hdin]
      exact hstored.alike.stored hstored
    · rw [Store.setIno_self]
      rfl
    · rw [(hu.core.setIno hne hstored.alike).2.1, hbyte]

/-- `flush` of an inode that is in use, or not valid. -/
theorem flush_spec (h : TableInv live s) (hi : i ≠ 0) (hf : flush i s = .ok t) :
    TableInv live t ∧ Keeps s t ∧ ¬((t.ino i).valid = true ∧ (t.ino i).dirty = true) ∧
      (t.ino i).valid = (s.ino i).valid ∧ (∀ j, j ≠ 0 → j ≠ i → t.ino j = s.ino j) ∧
      ∀ m, m ∉ live → t.dinode m = s.dinode m := by
  rw [flush_eq] at hf
  split at hf
  · next hvd =>
    have hlive : i ∈ live := by
      by_contra hni
      rw [(h.absent i hi hni).1] at hvd
      cases hvd.1
    obtain ⟨u, hw, hd⟩ := bind_ok hf
    cases hd
    have hbound := h.bound i hlive
    obtain ⟨htab, -, -⟩ := writeDinode_spec h.core hbound hw
    obtain ⟨hself, hother⟩ := writeDinode_dinode h.core hbound hw
    have hino := htab.ino i hi
    have halike : (u.ino i).Alike { u.ino i with dirty := false } :=
      ⟨rfl, rfl, rfl, rfl, rfl, fun _ _ => rfl⟩
    have hstored : (u.ino i).Stored (u.dinode i) := by
      rw [hself, hino]
      exact Dinode.decode_encode (h.core.range i) (h.core.owned.next_lt i)
        fun k hk => h.core.owned.addr_lt i hk
    -- before the mark is taken back the inode is still ahead of the table
    have hu : TableInv live u := by
      refine ⟨htab.core, h.zero, h.bound, fun j hj hclean => ?_, fun j hne hj => ?_⟩
      · rcases eq_or_ne j i with rfl | hji
        · exact hstored
        · have hne : j ≠ 0 := fun he => h.zero (he ▸ hj)
          rw [htab.ino j hne] at hclean ⊢
          rw [hother j hji]
          exact h.stored j hj hclean
      · rw [htab.ino j hne]
        exact h.absent j hne hj
    refine ⟨hu.setIno hi halike (fun _ _ => halike.stored hstored) (fun hni => absurd hlive hni),
      htab.keeps.trans (hu.core.keeps_setIno hi halike ⟨rfl, rfl, rfl⟩), ?_, ?_,
      fun j hj hji => (Store.setIno_of_ne hji).trans (htab.ino j hj), fun m hm => ?_⟩
    · rw [Store.setIno_self]
      exact fun hvd => Bool.noConfusion hvd.2
    · rw [Store.setIno_self, hino]
    · rw [← hother m fun he => hm (he ▸ hlive)]
      exact dinode_congr fun k _ => (hu.core.setIno hi halike).2.1 0 _
  · next hclean =>
    cases hf
    exact ⟨h, Keeps.refl s, hclean, rfl, fun _ _ _ => rfl, fun _ _ => rfl⟩

/-! ## The inode cache -/

/-- No file changes; what an object remembers may come from the object of another inode, the
inode table apart. -/
structure Shifts (s t : Fs) : Prop where
  alike : ∀ j, j ≠ 0 → (s.ino j).Alike (t.ino j)
  pos : ∀ j, j ≠ 0 → Inode.new.SamePos (t.ino j) ∨ ∃ k, k ≠ 0 ∧ (s.ino k).SamePos (t.ino j)
  byte : ∀ j, j ≠ 0 → ∀ p, t.byte j p = s.byte j p
  refs : ∀ q b, s.refs q = some b → t.refs q = some b

theorem Keeps.shifts (h : Keeps s t) : Shifts s t :=
  ⟨h.alike, fun j hj => .inr ⟨j, hj, h.pos j hj⟩, h.byte, h.refs⟩

theorem Shifts.trans (h : Shifts s t) (h' : Shifts t u) : Shifts s u where
  alike j hj := (h.alike j hj).trans (h'.alike j hj)
  pos j hj := by
    rcases h'.pos j hj with hnew | ⟨k, hk, hp⟩
    · exact .inl hnew
    · rcases h.pos k hk with hnew | ⟨m, hm, hq⟩
      · exact .inl (hnew.trans hp)
      · exact .inr ⟨m, hm, hq.trans hp⟩
  byte j hj p := (h'.byte j hj p).trans (h.byte j hj p)
  refs q b hb := h'.refs q b (h.refs q b hb)

theorem alike_withPos (x y : Inode) : x.Alike (x.withPos y) :=
  ⟨rfl, rfl, rfl, rfl, rfl, fun _ _ => rfl⟩

theorem recycle_spec {j : Nat} (h : TableInv live s) (hj : j ≠ 0) (hn : n ≠ 0)
    (hv : (s.ino n).valid = false) (hr : recycle j n s = .ok t) :
    TableInv live t ∧ Shifts s t ∧ (t.ino n).valid = false ∧
      ∀ m, m ∉ live → t.dinode m = s.dinode m := by
  obtain ⟨u, hf, rfl⟩ := recycle_ok hr
  obtain ⟨hu, hkeep, hclean, -, hino, hdin⟩ := flush_spec h hj hf
  have halike : (u.ino j).Alike { (u.ino j).withPos Inode.new with valid := false } :=
    ⟨rfl, rfl, rfl, rfl, rfl, fun _ _ => rfl⟩
  have hw := hu.setIno hj halike (fun hl _ => halike.stored (hu.stored j hl hclean)) fun _ => rfl
  obtain ⟨-, hbyte₁, hrefs₁⟩ := hu.core.setIno hj halike
  generalize hw' : u.setIno j { (u.ino j).withPos Inode.new with valid := false } = w at *
  have hwj : w.ino j = { (u.ino j).withPos Inode.new with valid := false } := by
    rw [← hw', Store.setIno_self]
  have hwk : ∀ k, k ≠ j → w.ino k = u.ino k := fun k hk => by rw [← hw', Store.setIno_of_ne hk]
  have hwn : (w.ino n).valid = false := by
    rcases eq_or_ne n j with rfl | hnj
    · rw [hwj]
    · rw [hwk n hnj, hino n hn hnj, hv]
  have hx := alike_withPos (w.ino n) (u.ino j)
  have hz := hw.setIno hn hx
    (fun hl _ => hx.stored (hw.stored n hl fun hvd => by rw [hwn] at hvd; cases hvd.1)) fun _ => hwn
  obtain ⟨-, hbyte₂, hrefs₂⟩ := hw.core.setIno hn hx
  refine ⟨hz, ⟨fun k hk => ?_, fun k hk => ?_, fun k hk p => ?_, fun q b hb => ?_⟩, ?_,
    fun m hm => ?_⟩
  · refine (hkeep.alike k hk).trans ?_
    have hstep : (u.ino k).Alike (w.ino k) := by
      rcases eq_or_ne k j with rfl | hkj
      · rwa [hwj]
      · rw [hwk k hkj]
        exact Inode.Alike.refl _
    refine hstep.trans ?_
    rcases eq_or_ne k n with rfl | hkn
    · rwa [Store.setIno_self]
    · rw [Store.setIno_of_ne hkn]
      exact Inode.Alike.refl _
  · rcases eq_or_ne k n with rfl | hkn
    · rw [Store.setIno_self]
      exact .inr ⟨j, hj, (hkeep.pos j hj).trans ⟨rfl, rfl, rfl⟩⟩
    · rw [Store.setIno_of_ne hkn]
      rcases eq_or_ne k j with rfl | hkj
      · rw [hwj]
        exact .inl ⟨rfl, rfl, rfl⟩
      · rw [hwk k hkj]
        exact .inr ⟨k, hk, hkeep.pos k hk⟩
  · rw [hbyte₂, hbyte₁, hkeep.byte k hk]
  · rw [hrefs₂, hrefs₁, hkeep.refs q b hb]
  · rw [Store.setIno_self]
    exact hwn
  · rw [← hdin m hm]
    exact dinode_congr fun k _ => (hbyte₂ 0 _).trans (hbyte₁ 0 _)

theorem getInode_spec {victim : Option Nat} (h : TableInv live s) (hn : n ≠ 0)
    (hvic : victim ≠ some 0) (hg : getInode n victim s = .ok t) :
    TableInv live t ∧ Shifts s t ∧ ((s.ino n).valid = false → (t.ino n).valid = false) ∧
      ∀ m, m ∉ live → t.dinode m = s.dinode m := by
  unfold getInode at hg
  split at hg
  · cases hg
    exact ⟨h, (Keeps.refl s).shifts, fun hv => hv, fun _ _ => rfl⟩
  · next hv =>
    cases victim with
    | none =>
      cases hg
      exact ⟨h, (Keeps.refl s).shifts, fun hv => hv, fun _ _ => rfl⟩
    | some j =>
      have hj : j ≠ 0 := fun he => hvic (congrArg some he)
      obtain ⟨ht, hs, hvt, hd⟩ := recycle_spec h hj hn (Bool.not_eq_true _ ▸ hv) hg
      exact ⟨ht, hs, fun _ => hvt, hd⟩

/-! ## `alloc_inode` -/

theorem setNinodes_spec {k : Nat} (h : TableInv live s) :
    TableInv live (setNinodes k s) ∧ Keeps s (setNinodes k s) ∧
      ∀ m, dinode (setNinodes k s) m = s.dinode m := by
  have hok := h.core.owned.ok
  have howned : (setNinodes k s).Owned bitmapModel :=
    ⟨⟨hok.start_gt, hok.start_le, hok.total_lt, hok.fits, hok.next_ge, hok.low, hok.count⟩,
      h.core.owned.inj, h.core.owned.used⟩
  exact ⟨⟨⟨howned, h.core.pos, h.core.range, h.core.table⟩, h.zero, h.bound, h.stored, h.absent⟩,
    ⟨fun _ _ => Inode.Alike.refl _, fun _ _ => Inode.SamePos.refl _, fun _ _ _ => rfl,
      fun _ _ hb => hb⟩, fun _ => rfl⟩

theorem initData_blank (x : Inode) : x.initData.Blank := ⟨fun _ _ => rfl, rfl⟩

theorem initData_inRange (x : Inode) : x.initData.InRange := by
  constructor <;> exact Nat.two_pow_pos _

/-- A number that is free becomes an inode in use. -/
theorem TableInv.insert (h : TableInv live s) (hn : n ≠ 0) (hfree : n ∉ live)
    (hbound : n * dinodeSize + dinodeSize < 2 ^ 32) :
    TableInv (n :: live) (s.setIno n (s.ino n).initData) ∧
      (∀ j p, (s.setIno n (s.ino n).initData).byte j p = s.byte j p) ∧
      (s.setIno n (s.ino n).initData).refs = s.refs := by
  have hblank := (h.absent n hn hfree).2
  have ha : ∀ k < numDirectData, (s.ino n).initData.addrs k = (s.ino n).addrs k :=
    fun k hk => (hblank.1 k hk).symm
  have hnext : (s.ino n).initData.nextAddrBlock = (s.ino n).nextAddrBlock := hblank.2.symm
  have hrefs : (s.setIno n (s.ino n).initData).refs = s.refs := Store.refs_setIno ha hnext
  have hbyte := Store.byte_setIno (s := s) ha hnext
  refine ⟨⟨⟨h.core.owned.setIno ha hnext, fun r hr => ?_, fun j => ?_, ?_⟩, ?_, ?_, fun j hj => ?_,
    fun j hne hj => ?_⟩, hbyte, hrefs⟩
  · exact (h.core.pos r hr).of_other (Store.setIno_of_ne hn.symm) fun q b hb => by rw [hrefs, hb]
  · rcases eq_or_ne j n with rfl | hjn
    · rw [Store.setIno_self]
      exact initData_inRange _
    · rw [Store.setIno_of_ne hjn]
      exact h.core.range j
  · rw [Store.setIno_of_ne hn.symm]
    exact h.core.table
  · exact fun hmem => (List.mem_cons.mp hmem).elim (fun he => hn he.symm) h.zero
  · exact fun j hj => (List.mem_cons.mp hj).elim (fun he => he ▸ hbound) (h.bound j)
  · rw [show dinode (s.setIno n (s.ino n).initData) j = s.dinode j from
      dinode_congr fun k _ => hbyte 0 _]
    rcases eq_or_ne j n with rfl | hjn
    · rw [Store.setIno_self]
      exact fun hclean => absurd ⟨rfl, rfl⟩ hclean
    · rw [Store.setIno_of_ne hjn]
      exact h.stored j ((List.mem_cons.mp hj).resolve_left hjn)
  · have hjn : j ≠ n := fun he => hj (he ▸ List.mem_cons_self)
    rw [Store.setIno_of_ne hjn]
    exact h.absent j hne fun hl => hj (List.mem_cons_of_mem n hl)

/-- What `alloc_inode` does when the head of the free list is not in use. -/
structure Allocated (live : List Nat) (n : Nat) (s t : Fs) : Prop where
  inv : TableInv (n :: live) t
  ino : ∃ x : Inode, t.ino n = x.initData
  alike : ∀ j, j ≠ 0 → j ≠ n → (s.ino j).Alike (t.ino j)
  pos : ∀ j, j ≠ 0 → Inode.new.SamePos (t.ino j) ∨ ∃ k, k ≠ 0 ∧ (s.ino k).SamePos (t.ino j)
  byte : ∀ j, j ≠ 0 → ∀ p, t.byte j p = s.byte j p
  refs : ∀ q b, s.refs q = some b → t.refs q = some b
  type : (t.dinode 0).type = itypeNextFreeInode
  head : (t.dinode 0).size =
    if (s.dinode n).type = itypeNextFreeInode then (s.dinode n).size else (n + 1) % 2 ^ 32
  free : ∀ m, m ≠ 0 → m ∉ live → t.dinode m = s.dinode m

theorem allocInode_number {victim : Option Nat} {m : Nat} (h : Core s)
    (ha : allocInode victim s = .ok (m, t)) : m = (s.dinode 0).size := by
  obtain ⟨⟨temp, s₁⟩, h₁, ha⟩ := outcome_bind_ok ha
  obtain ⟨rfl, -, -⟩ := readDinode_spec h (by decide) h₁
  simp only at ha
  split at ha
  · cases ha
  obtain ⟨⟨new, s₂⟩, h₂, ha⟩ := outcome_bind_ok ha
  obtain ⟨s₃, h₃, ha⟩ := outcome_bind_ok ha
  obtain ⟨s₄, h₄, ha⟩ := bind_ok ha
  cases ha
  rfl

theorem allocInode_spec {victim : Option Nat} {m : Nat} (h : TableInv live s)
    (hn : (s.dinode 0).size ≠ 0) (hfree : (s.dinode 0).size ∉ live)
    (hbound : (s.dinode 0).size * dinodeSize + dinodeSize < 2 ^ 32) (hvic : victim ≠ some 0)
    (ha : allocInode victim s = .ok (m, t)) :
    m = (s.dinode 0).size ∧ Allocated live m s t := by
  obtain ⟨⟨temp, s₁⟩, h₁, ha⟩ := outcome_bind_ok ha
  obtain ⟨rfl, htab₁, hb₁⟩ := readDinode_spec h.core (by decide) h₁
  have hd₁ : ∀ i, s₁.dinode i = s.dinode i := fun i => dinode_congr fun k _ => hb₁ _
  have hinv₁ := h.tab htab₁ fun i _ => hd₁ i
  simp only at ha
  split at ha
  · cases ha
  next htype =>
  have htype : (s.dinode 0).type = itypeNextFreeInode := not_not.mp htype
  obtain ⟨⟨new, s₂⟩, h₂, ha⟩ := outcome_bind_ok ha
  obtain ⟨rfl, htab₂, hb₂⟩ := readDinode_spec hinv₁.core hbound h₂
  have hd₂ : ∀ i, s₂.dinode i = s.dinode i :=
    fun i => (dinode_congr fun k _ => hb₂ _).trans (hd₁ i)
  have hinv₂ := hinv₁.tab htab₂ fun i _ => (hd₂ i).trans (hd₁ i).symm
  rw [hd₁] at ha
  obtain ⟨s₃, h₃, ha⟩ := outcome_bind_ok ha
  obtain ⟨htab₃, -, -⟩ := writeDinode_spec hinv₂.core (by decide) h₃
  obtain ⟨hhead, hd₃⟩ := writeDinode_dinode hinv₂.core (by decide) h₃
  have hinv₃ := hinv₂.tab htab₃ fun i hi => hd₃ i fun he => h.zero (he ▸ hi)
  obtain ⟨s₄, h₄, ha⟩ := bind_ok ha
  cases ha
  obtain ⟨hinv₄, hshift, -, hd₄⟩ := getInode_spec hinv₃ hn hvic h₄
  obtain ⟨hinv₅, hb₅, hrefs₅⟩ := hinv₄.insert hn hfree hbound
  generalize (Store.setIno s₄ (s.dinode 0).size
    (s₄.ino (s.dinode 0).size).initData).dev.al.ninodes +
    1 = c
  obtain ⟨hinv₆, hkeep₆, hd₆⟩ := setNinodes_spec (k := c) hinv₅
  have hd₅ : ∀ i, dinode (s₄.setIno (s.dinode 0).size (s₄.ino (s.dinode 0).size).initData) i =
      s₄.dinode i := fun i => dinode_congr fun k _ => hb₅ 0 _
  have hmoves := (((htab₁.trans htab₂).trans htab₃).keeps.shifts.trans hshift)
  have hzero : (s₄.dinode 0) = Dinode.decode (Dinode.encode _) := (hd₄ 0 h.zero).trans hhead
  refine ⟨rfl, ⟨hinv₆, ⟨_, Store.setIno_self⟩, fun j hj hjn => ?_, fun j hj => ?_, fun j hj p => ?_,
    fun q b hb => ?_, ?_, ?_, fun i hi hl => ?_⟩⟩
  · refine (hmoves.alike j hj).trans ?_
    show (s₄.ino j).Alike ((s₄.setIno _ _).ino j)
    rw [Store.setIno_of_ne hjn]
    exact Inode.Alike.refl _
  · have hsame : (s₄.ino j).SamePos
        ((s₄.setIno (s.dinode 0).size (s₄.ino (s.dinode 0).size).initData).ino j) := by
      rcases eq_or_ne j (s.dinode 0).size with rfl | hjn
      · rw [Store.setIno_self]
        exact ⟨rfl, rfl, rfl⟩
      · rw [Store.setIno_of_ne hjn]
        exact Inode.SamePos.refl _
    rcases hmoves.pos j hj with hnew | ⟨k, hk, hp⟩
    · exact .inl (hnew.trans hsame)
    · exact .inr ⟨k, hk, hp.trans hsame⟩
  · rw [hkeep₆.byte j hj p, hb₅, hmoves.byte j hj]
  · refine hkeep₆.refs q b ?_
    rw [hrefs₅]
    exact hmoves.refs q b hb
  · rw [hd₆, hd₅, hzero, Dinode.decode_type]
    · exact htype
    · exact Dinode.decode_type_lt _
  · rw [hd₆, hd₅, hzero, Dinode.decode_size]
    -- the head of the list is again a 32-bit number
    show ite _ _ _ < _
    split
    · exact Dinode.decode_size_lt _
    · exact Nat.mod_lt _ (by decide)
  · rw [hd₆, hd₅, hd₄ i hl, hd₃ i hi, hd₂]

end Fs

end CoroCore.Nfs
