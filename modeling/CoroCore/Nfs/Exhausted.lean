import CoroCore.Nfs.Frame
import CoroCore.Nfs.Layout

/-!
# A disk without free blocks

Once `alloc_block` has failed it fails again, as long as the bitmap does not change (`Exhausted`).
A call on the inode table needs no new block if it reads, or if it writes a `dinode` to a block that
the table has: then it is done also on such a disk (`readDinode_ok`, `writeDinode_direct`). A
write that needs a block fails (`writeDinode_exhausted`).
-/

namespace CoroCore.Nfs

open Lib

/-! ## The allocator -/

/-- `alloc_block` finds no block. -/
def Exhausted (d : Dev Super) : Prop :=
  d.al.totalGenericBlocks ≤ d.al.usedGenericBlocks ∨
    d.al.totalBlocks ≤ blockIndex (scanned d).1 (scanned d).2

theorem Exhausted.fails {d : Dev Super} (h : Exhausted d) : ∃ e, allocBlock d = .error e := by
  rw [allocBlock]
  split
  · exact ⟨_, rfl⟩
  · next hcount => exact ⟨_, if_pos (h.resolve_left hcount)⟩

theorem scanBitmap_congr {disk disk' : Nat → Bytes} {start : Nat}
    (h : ∀ b < start, disk' b = disk b) : ∀ fuel bi z,
    scanBitmap disk' start fuel bi z = scanBitmap disk start fuel bi z := by
  intro fuel
  induction fuel with
  | zero => exact fun _ _ => rfl
  | succ fuel ih =>
    intro bi z
    unfold scanBitmap
    split
    · next hlt => rw [h bi hlt, ih]
    · rfl

theorem Exhausted.congr {d d' : Dev Super} (h : Exhausted d)
    (hal : d'.al = { d.al with ninodes := d'.al.ninodes, dirty := d'.al.dirty })
    (hdisk : ∀ b < d.al.genericBlockStart, d'.disk b = d.disk b) : Exhausted d' := by
  have hscan : scanned d' = scanned d := by
    rw [scanned, hal]
    exact scanBitmap_congr hdisk _ _ _
  rw [Exhausted, hscan, hal]
  exact h

/-- The bitmap blocks are none that a file uses. -/
theorem Exhausted.store {d : Dev Super} {b : Nat} (blk : Bytes) (h : Exhausted d)
    (hb : GenericUsed d b) : Exhausted (d.store b blk) :=
  h.congr rfl fun _ hx => Dev.store_of_ne (Nat.ne_of_lt (Nat.lt_of_lt_of_le hx hb.1))

theorem firstBitmap_idem (sb : Super) :
    firstBitmap { sb with nextFreeBitmap := firstBitmap sb } = firstBitmap sb := by
  unfold firstBitmap
  split
  · simp only [ite_self]
  · rfl

/-- `alloc_block` has failed. -/
theorem AllocOk.exhausted {d e : Dev Super} (h : AllocOk d) (he : allocBlock d = .error e) :
    Exhausted e := by
  rw [allocBlock] at he
  split at he
  · next hcount =>
    cases he
    exact .inl hcount
  · change (if d.al.totalBlocks ≤ blockIndex (scanned d).1 (scanned d).2 then _ else _) = _ at he
    split at he
    · next htotal =>
      cases he
      refine .inr ?_
      have hscan : scanned { d with al := { d.al with nextFreeBitmap := firstBitmap d.al } } =
          scanned d := by
        rw [scanned, firstBitmap_idem]
        rfl
      rw [hscan]
      exact htotal
    · next htotal =>
      -- the panic is not reached
      split at he
      · next hlow =>
        rcases h.scanned_cases (show scanned d = ((scanned d).1, (scanned d).2) from rfl) with
          ⟨-, -, -, -, hbit⟩ | ⟨-, hge⟩
        · exact absurd (h.generic_of_zero hbit) (Nat.not_le.mpr hlow)
        · exact absurd hge htotal
      · cases he

/-! ## One block of a file -/

namespace Store

variable {ι α : Type} [DecidableEq ι] {alloc : Alloc α} {i : ι} {s : Store ι α}

/-- A file without address blocks is zero behind the direct ones. -/
theorem dataRw_hole {offset size : Nat} {buf : Bytes} (hge : directDataSize ≤ offset)
    (hsize : 0 < size) (hnone : (s.ino i).nextAddrBlock = none32) :
    dataRw alloc false i offset size buf s = .ok (0 + size, memset buf 0 0 size, s) := by
  rw [dataRw, directLoop_far hge]
  simp only [if_neg (Nat.ne_of_gt hsize), if_pos hnone]
  rfl

end Store

/-- A byte behind more address blocks than the device has blocks cannot be written. -/
theorem dataRw_far_fails {ι : Type} [DecidableEq ι] {s : Store ι Super} {i : ι} {offset : Nat}
    (src : Bytes) (h : s.Owned bitmapModel) (hpos : s.PosAt i (offset - directDataSize))
    (hend : offset + 1 < 2 ^ 32 + directDataSize)
    (hfar : directDataSize + s.dev.al.totalBlocks * addrBlockDataSize ≤ offset) (hsrc : src 0 ≠ 0) :
    ∃ t, Store.dataRw allocBlock true i offset 1 src s = .error t ∧
      Store.Kept (layoutModel s.dev.al) i s t ∧ Exhausted t.dev := by
  have hown : s.Owned (layoutModel s.dev.al) := ⟨⟨h.ok, .refl _⟩, h.inj, h.used⟩
  have hspec : Store.DoneSpec (layoutModel s.dev.al) true i offset 0 1 src s
      (Store.dataRw allocBlock true i offset 1 src s) := Store.dataRw_spec hown hpos hend
  cases hres : Store.dataRw allocBlock true i offset 1 src s with
  | error t =>
    have hbroke := Store.dataRw_error hown hpos (Nat.succ_le_of_lt (Nat.mod_lt _ (by decide))) hres
    obtain ⟨d, hok, hfail⟩ := hbroke.failed
    exact ⟨t, rfl, hbroke.kept, hok.1.exhausted hfail⟩
  | ok r =>
    obtain ⟨m, buf, t⟩ := r
    rw [hres] at hspec
    have hupd : Store.Upd _ i offset 1 (fun k => src (0 + k)) s t := hspec.2.upd
    have hsound : t.Sound := ⟨hupd.owned.inj, fun p b hp => (hupd.owned.used b).mpr ⟨p, hp⟩⟩
    have hbyte := hupd.here offset (Nat.le_refl _) (Nat.lt_succ_self _)
    rw [Store.byte_far hsound (by rw [hupd.owned.ok.2.1]; exact hfar), Nat.sub_self] at hbyte
    exact absurd hbyte.symm hsrc

/-- Nor can a byte there be read, in a file that has an address block. -/
theorem dataRw_far_read {ι : Type} [DecidableEq ι] {s : Store ι Super} {i : ι} {offset size : Nat}
    (buf : Bytes) (h : s.Owned bitmapModel) (hpos : s.PosAt i (offset - directDataSize))
    (hfar : directDataSize + s.dev.al.totalBlocks * addrBlockDataSize ≤ offset) (hsize : 0 < size)
    (hnext : (s.ino i).nextAddrBlock ≠ none32) :
    ∃ t, Store.dataRw allocBlock false i offset size buf s = .error t := by
  have hown : s.Owned (layoutModel s.dev.al) := ⟨⟨h.ok, .refl _⟩, h.inj, h.used⟩
  have hfirst : s.refs (i, .link 0) = some (s.ino i).nextAddrBlock := by
    rw [Store.refs_eq, slotRef, chain, toRef, if_neg hnext]
  obtain ⟨k, hcur, hk⟩ := Store.startAt_spec hfirst hpos
  have hindex : ∃ d, Store.getBlockIndex allocBlock
    (Store.startAt (s.ino i) (offset - directDataSize)).1
      (Store.startAt (s.ino i) (offset - directDataSize)).2 s.dev = .error d := by
    rcases Store.getBlockIndex_cases hown hcur with ⟨d, hd, -⟩ | ⟨ab, d, -, hkept, hab⟩
    · exact ⟨d, hd⟩
    · -- there are not that many address blocks
      have hsound : Store.Sound { s with dev := d } :=
        ⟨hkept.owned.inj, fun p b hp => (hkept.owned.used b).mpr ⟨p, hp⟩⟩
      have hlayout : d.al.totalBlocks = s.dev.al.totalBlocks := hkept.owned.ok.2.1
      rw [Store.link_far hsound (by
        show d.al.totalBlocks ≤ _
        rw [hlayout]
        simp only [directDataSize, addrBlockDataSize] at *
        omega)] at hab
      cases hab
  obtain ⟨d, hd⟩ := hindex
  obtain ⟨fuel, rfl⟩ := Nat.exists_eq_succ_of_ne_zero (Nat.ne_of_gt hsize)
  have hge : directDataSize ≤ offset := (Nat.le_add_right _ _).trans hfar
  refine ⟨{ s with dev := d }, ?_⟩
  rw [Store.dataRw, Store.directLoop_far hge]
  simp only [if_neg (Nat.succ_ne_zero fuel), if_neg hnext]
  rw [Store.indirectRw, Store.indirectLoop, if_pos hsize, hd]

/-! ## The inode table -/

namespace Fs

open Store

variable {s t : Fs} {n : Nat} {x : Dinode}

theorem loadTable_valid : ((loadTable s).ino 0).valid = true := by
  unfold loadTable
  split
  · next hv => exact hv
  · rw [setIno_self]
    rfl

theorem loadTable_of_valid (hv : (s.ino 0).valid = true) : loadTable s = s := if_pos hv

/-- The place of a `dinode` is within one block. -/
theorem dinode_block (n : Nat) : n * dinodeSize % blockSize + dinodeSize ≤ blockSize := by
  simp only [dinodeSize, blockSize]
  omega

theorem directDataBlockRw_read (k off pos size : Nat) (buf : Bytes) (s : Fs) :
    ∃ buf', directDataBlockRw allocBlock false 0 k off pos size buf s = .ok (buf', s) := by
  unfold directDataBlockRw
  split
  · exact ⟨_, rfl⟩
  · exact ⟨_, rfl⟩

/-- A read of the table without address blocks. -/
theorem readDinode_ok (n : Nat)
    (h : directDataSize ≤ n * dinodeSize → ((loadTable s).ino 0).nextAddrBlock = none32) :
    ∃ d, readDinode n s = .ok (d, loadTable s) := by
  rw [readDinode, Store.read]
  rcases Nat.lt_or_ge (n * dinodeSize) directDataSize with hlt | hge
  · obtain ⟨buf, hread⟩ := directDataBlockRw_read (n * dinodeSize / blockSize)
      (n * dinodeSize % blockSize) 0 dinodeSize (fun _ => 0) (loadTable s)
    rw [dataRw_direct hlt (dinode_block n) (by decide), hread]
    exact ⟨_, rfl⟩
  · rw [dataRw_hole hge (by decide) (h hge)]
    exact ⟨_, rfl⟩

/-- A read so far behind that the table cannot have the address block. -/
theorem readDinode_far (hcore : Core s) (hn : n * dinodeSize + dinodeSize < 2 ^ 32)
    (hfar : directDataSize + s.dev.al.totalBlocks * addrBlockDataSize ≤ n * dinodeSize)
    (hnext : ((loadTable s).ino 0).nextAddrBlock ≠ none32) : ∃ t, readDinode n s = .error t := by
  obtain ⟨htab, -, -⟩ := loadTable_spec hcore
  obtain ⟨t, ht⟩ := dataRw_far_read (fun _ => 0) htab.core.owned (htab.core.pos _ (offset_lt hn))
    (by rw [loadTable_dev]; exact hfar) (by decide : 0 < dinodeSize) hnext
  refine ⟨t, ?_⟩
  rw [readDinode, Store.read, ht]
  rfl

/-- A write to a block that the table has. -/
theorem writeDinode_direct (hlt : n * dinodeSize < directDataSize)
    (hblock : ((loadTable s).ino 0).addrs (n * dinodeSize / blockSize) ≠ none32) :
    ∃ t blk, writeDinode n x s = .ok t ∧
      t.dev = s.dev.store (((loadTable s).ino 0).addrs (n * dinodeSize / blockSize)) blk ∧
      (t.ino 0).addrs = ((loadTable s).ino 0).addrs ∧
      (t.ino 0).nextAddrBlock = ((loadTable s).ino 0).nextAddrBlock ∧ (t.ino 0).valid = true := by
  have hv := loadTable_valid (s := s)
  rw [← loadTable_dev (s := s)]
  rw [writeDinode, writeDinodeWith, Store.write,
    dataRw_direct hlt (dinode_block n) (by decide), directDataBlockRw, if_neg hblock]
  generalize loadTable s = u at *
  show ∃ t blk, ((if (u.ino 0).size < _ then _ else _) >>= _) = _ ∧ _
  split
  · refine ⟨_, _, rfl, rfl, ?_, ?_, ?_⟩
    · rw [setIno_self]
      rfl
    · rw [setIno_self]
      rfl
    · rw [setIno_self]
      exact hv
  · exact ⟨_, _, rfl, rfl, rfl, rfl, hv⟩

theorem first_used (hcore : Core s) (hfirst : ((loadTable s).ino 0).addrs 0 ≠ none32) :
    GenericUsed s.dev (((loadTable s).ino 0).addrs 0) := by
  obtain ⟨htab, -, -⟩ := loadTable_spec hcore
  have hused : GenericUsed (loadTable s).dev (((loadTable s).ino 0).addrs 0) := by
    refine (htab.core.owned.used _).mpr ⟨(0, .direct 0), ?_⟩
    rw [refs_eq, slotRef, if_pos (by decide), toRef, if_neg hfirst]
  rwa [loadTable_dev] at hused

/-- `alloc_inode` is done if the table has the block of `dinode` 0, and the next `dinode` is in
the range of the direct blocks or there are no address blocks. It takes no block. -/
theorem allocInode_direct (hcore : Core s) (htype : (s.dinode 0).type = itypeNextFreeInode)
    (hne : (s.dinode 0).size ≠ 0) (hfirst : ((loadTable s).ino 0).addrs 0 ≠ none32)
    (hfar : directDataSize ≤ (s.dinode 0).size * dinodeSize →
      ((loadTable s).ino 0).nextAddrBlock = none32) :
    ∃ t, allocInode none s = .ok ((s.dinode 0).size, t) ∧
      (t.ino 0).addrs = ((loadTable s).ino 0).addrs ∧
      (t.ino 0).nextAddrBlock = ((loadTable s).ino 0).nextAddrBlock ∧ (t.ino 0).valid = true ∧
      SameLayout s.dev.al t.dev.al ∧ (Exhausted s.dev → Exhausted t.dev) := by
  obtain ⟨temp, h₁⟩ := readDinode_ok (s := s) 0 fun hge => absurd hge (by decide)
  obtain ⟨rfl, -, -⟩ := readDinode_spec hcore (by decide) h₁
  have hload : loadTable (loadTable s) = loadTable s := loadTable_of_valid loadTable_valid
  obtain ⟨new, h₂⟩ := readDinode_ok (s := loadTable s) (s.dinode 0).size fun hge => by
    rw [hload]
    exact hfar hge
  rw [hload] at h₂
  obtain ⟨t, blk, h₃, hdev, ha, hn, hv⟩ := writeDinode_direct (s := loadTable s) (n := 0)
    (x := { s.dinode 0 with size :=
      if new.type = itypeNextFreeInode then new.size else ((s.dinode 0).size + 1) % 2 ^ 32 })
    (by decide) (by rw [hload]; exact hfirst)
  rw [hload] at ha hn hdev
  have hget : getInode (s.dinode 0).size none t = .ok t := by
    rw [getInode]
    split <;> rfl
  let u : Fs := t.setIno (s.dinode 0).size (t.ino (s.dinode 0).size).initData
  have hino : u.ino 0 = t.ino 0 := setIno_of_ne hne.symm
  refine ⟨setNinodes (t.dev.al.ninodes + 1) u, ?_, ?_, ?_, ?_, ?_, fun hx => ?_⟩
  · rw [allocInode, h₁]
    show (if (s.dinode 0).type ≠ itypeNextFreeInode then _ else _) = _
    rw [if_neg (not_not.mpr htype), h₂]
    show (outcome (writeDinode 0 _ (loadTable s)) >>= _) = _
    rw [h₃]
    show (getInode (s.dinode 0).size none t >>= _) = _
    rw [hget]
    rfl
  · show (u.ino 0).addrs = _
    rw [hino, ha]
  · show (u.ino 0).nextAddrBlock = _
    rw [hino, hn]
  · show (u.ino 0).valid = _
    rw [hino, hv]
  · show SameLayout s.dev.al
      { t.dev.al with ninodes := (t.dev.al.ninodes + 1) % 2 ^ 32, dirty := true }
    rw [hdev, loadTable_dev]
    exact ⟨rfl, rfl, rfl⟩
  · refine (hx.store blk (first_used hcore hfirst)).congr ?_ fun b _ => ?_
    · show { t.dev.al with ninodes := (t.dev.al.ninodes + 1) % 2 ^ 32, dirty := true } = _
      rw [hdev, loadTable_dev]
      rfl
    · show t.dev.disk b = _
      rw [hdev, loadTable_dev]
      rfl

end Fs

end CoroCore.Nfs
