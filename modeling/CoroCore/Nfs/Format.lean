import CoroCore.Nfs.Alloc

/-!
# The layout made by `nfs::make_fs`

The superblock and the bitmap of a new file system. If the layout fits (`Fits`), the device
is one on which no generic block is in use (`formatDev_ok`).
-/

namespace CoroCore.Nfs

open Lib

/-- `total_generic_blocks`, in 32-bit arithmetic. -/
def totalGeneric (nblocks : Nat) : Nat :=
  (nblocks - 2) * bitmapBlockSize % 2 ^ 32 / (bitmapBlockSize + 1)

/-- The superblock of a new file system. -/
def formatSuper (nblocks : Nat) : Super where
  totalBlocks := nblocks
  totalGenericBlocks := totalGeneric nblocks
  usedGenericBlocks := 0
  ninodes := 2
  genericBlockStart := (2 + nblocks - totalGeneric nblocks) % 2 ^ 32
  nextFreeBitmap := bitmapBlockIndex
  -- not set before the inode table is flushed
  inodeTable := ⟨0, 0, 0, 0, 0, fun _ => 0⟩
  dirty := true

/-- Set the first `n` bits. -/
def setBits (bitmap : Bytes) : Nat → Bytes
  | 0 => bitmap
  | n + 1 => bitmapSet (setBits bitmap n) n

/-- The loop that sets all bitmap blocks to 0. -/
def clearBitmap (disk : Nat → Bytes) (start : Nat) : Nat → Bytes := fun b =>
  if bitmapBlockIndex ≤ b ∧ b < start then memset (disk b) 0 0 blockSize else disk b

/-- The device after `make_fs` has written the bitmap. -/
def formatDev (nblocks : Nat) (disk : Nat → Bytes) : Dev Super :=
  Dev.store ⟨clearBitmap disk (formatSuper nblocks).genericBlockStart, formatSuper nblocks⟩
    bitmapBlockIndex
    (setBits (clearBitmap disk (formatSuper nblocks).genericBlockStart bitmapBlockIndex)
      (formatSuper nblocks).genericBlockStart)

/-- `make_fs` accepts `nblocks`, and the bits of the blocks below the generic ones are in the
first bitmap block. -/
structure Fits (nblocks : Nat) : Prop where
  min : 1024 ≤ nblocks
  max : nblocks < 2 ^ 32
  start_le : (formatSuper nblocks).genericBlockStart ≤ bitmapBlockSize

instance (nblocks : Nat) : Decidable (Fits nblocks) :=
  decidable_of_iff (1024 ≤ nblocks ∧ nblocks < 2 ^ 32 ∧
    (formatSuper nblocks).genericBlockStart ≤ bitmapBlockSize)
    ⟨fun h => ⟨h.1, h.2.1, h.2.2⟩, fun h => ⟨h.min, h.max, h.start_le⟩⟩

theorem bitmapGet_zero {blk : Bytes} {k : Nat} (hk : k < bitmapBlockSize) :
    bitmapGet (memset blk 0 0 blockSize) k = false := by
  have hword : bitmapWord (memset blk 0 0 blockSize) (k / 64) = 0 := by
    have hcongr : getLe (memset blk 0 0 blockSize) (8 * (k / 64)) 8 =
        getLe (fun _ => 0) (8 * (k / 64)) 8 := by
      refine getLe_congr fun j hj => if_pos ⟨Nat.zero_le _, ?_⟩
      simp only [blockSize, bitmapBlockSize] at hk ⊢
      omega
    rw [bitmapWord, hcongr]
    simp [getLe]
  rw [bitmapGet, hword, Nat.zero_testBit]

theorem bitmapGet_setBits {blk : Bytes} {n k : Nat} :
    bitmapGet (setBits blk n) k = (decide (k < n) || bitmapGet blk k) := by
  induction n with
  | zero => simp [setBits]
  | succ n ih =>
    rw [setBits]
    rcases eq_or_ne k n with rfl | hne
    · simp [bitmapGet_set_self]
    · rw [bitmapGet_set_of_ne hne, ih]
      congr 1
      simp only [decide_eq_decide]
      omega

/-- The arithmetic of the layout does not wrap around, and a file system whose layout fits has
less than 2^20 blocks. -/
theorem Fits.layout {nblocks : Nat} (h : Fits nblocks) :
    bitmapBlockIndex < (formatSuper nblocks).genericBlockStart ∧
      nblocks < ((formatSuper nblocks).genericBlockStart - bitmapBlockIndex) * bitmapBlockSize ∧
      nblocks < 2 ^ 20 := by
  obtain ⟨hmin, hmax, hstart⟩ := h
  simp only [formatSuper, totalGeneric, bitmapBlockSize, bitmapBlockIndex] at *
  obtain ⟨m, rfl⟩ : ∃ m, nblocks = m + 2 := ⟨nblocks - 2, by omega⟩
  rw [Nat.add_sub_cancel] at *
  have hprod : m * 8192 % 2 ^ 32 = 8192 * (m % 524288) := by omega
  rw [hprod] at hstart ⊢
  generalize hq : 8192 * (m % 524288) / (8192 + 1) = q at hstart ⊢
  have hle : q ≤ m % 524288 := by omega
  have hsmall : m % 524288 < 524288 := Nat.mod_lt m (by decide)
  have hmod : m % 524288 ≤ m := Nat.mod_le m 524288
  have hraw : 2 + (m + 2) - q < 2 ^ 32 := by omega
  rw [Nat.mod_eq_of_lt hraw] at hstart ⊢
  omega

theorem blockBit_formatDev {nblocks b : Nat} {disk : Nat → Bytes} (h : Fits nblocks)
    (hb : b < (formatSuper nblocks).genericBlockStart ∨ b < nblocks) :
    blockBit (formatDev nblocks disk) b =
      decide (b < (formatSuper nblocks).genericBlockStart) := by
  obtain ⟨hgt, hfits, -⟩ := h.layout
  have hle := h.start_le
  have hmod : b % bitmapBlockSize < bitmapBlockSize := Nat.mod_lt b (by decide)
  have hin : bitmapBlockIndex + b / bitmapBlockSize < (formatSuper nblocks).genericBlockStart := by
    simp only [bitmapBlockIndex, bitmapBlockSize] at *
    omega
  have hclear : clearBitmap disk (formatSuper nblocks).genericBlockStart
      (bitmapBlockIndex + b / bitmapBlockSize) =
      memset (disk (bitmapBlockIndex + b / bitmapBlockSize)) 0 0 blockSize :=
    if_pos ⟨Nat.le_add_right _ _, hin⟩
  unfold blockBit formatDev
  rcases Nat.eq_zero_or_pos (b / bitmapBlockSize) with hzero | hpos
  · rw [hzero, Nat.add_zero] at hclear ⊢
    rw [Dev.store_self, bitmapGet_setBits, hclear, bitmapGet_zero hmod, Bool.or_false]
    congr 2
    simp only [bitmapBlockSize] at hzero ⊢
    omega
  · rw [Dev.store_of_ne (by omega)]
    show bitmapGet (clearBitmap disk _ _) _ = _
    rw [hclear, bitmapGet_zero hmod]
    refine (decide_eq_false ?_).symm
    simp only [bitmapBlockSize] at *
    omega

theorem not_used_formatDev {nblocks : Nat} {disk : Nat → Bytes} (h : Fits nblocks) (b : Nat) :
    ¬ GenericUsed (formatDev nblocks disk) b := by
  rintro ⟨hge, hlt, hbit⟩
  rw [blockBit_formatDev h (.inr hlt), decide_eq_true_iff] at hbit
  exact Nat.not_le.mpr hbit hge

/-- A new file system. -/
theorem formatDev_ok {nblocks : Nat} {disk : Nat → Bytes} (h : Fits nblocks) :
    AllocOk (formatDev nblocks disk) where
  start_gt := h.layout.1
  start_le := h.start_le
  total_lt := h.layout.2.2
  fits := h.layout.2.1
  next_ge := Nat.le_refl _
  low b hb := by
    rw [blockBit_formatDev h (.inl hb)]
    exact decide_eq_true hb
  count := by
    have hempty : usedBlocks (formatDev nblocks disk) = ∅ :=
      Finset.filter_eq_empty_iff.mpr fun b _ => not_used_formatDev h b
    rw [hempty]
    rfl

end CoroCore.Nfs
