import CoroCore.Nfs.Dinode
import CoroCore.Nfs.Slots
import CoroCore.Utils.Bitmap
import Mathlib.Data.Finset.Card
import Mathlib.Data.Finset.Range

/-!
# Blocks in use: `nfs::alloc_block` and `nfs::free_block`

The bitmap has one bit for each block of the device, in the blocks from number 2 up to the
first generic block; the superblock counts the generic blocks in use. `AllocOk` is the
invariant that ties the two together, and `bitmapModel` shows that `alloc_block` is an
allocator in the sense of `AllocModel`: it hands out a generic block whose bit was zero.
-/

namespace CoroCore.Nfs

open Lib

abbrev bitmapBlockIndex : Nat := 2
abbrev bitmapBlockSize : Nat := 8192

/-- `superblock`, with the dirty mark `sb_dirty`. -/
structure Super where
  totalBlocks : Nat
  totalGenericBlocks : Nat
  usedGenericBlocks : Nat
  ninodes : Nat
  genericBlockStart : Nat
  nextFreeBitmap : Nat
  inodeTable : Dinode
  dirty : Bool

/-- The loop of `alloc_block` over the bitmap blocks: the block it ends at, and what
`bitmap_find_first_zero` said last. -/
def scanBitmap (disk : Nat → Bytes) (start : Nat) : Nat → Nat → Nat → Nat × Nat
  | 0, bi, z => (bi, z)
  | fuel + 1, bi, z =>
    if bi < start then
      if bitmapFindFirstZero (disk bi) 128 ≠ none32 then (bi, bitmapFindFirstZero (disk bi) 128)
      else scanBitmap disk start fuel (bi + 1) (bitmapFindFirstZero (disk bi) 128)
    else (bi, z)

/-- The bitmap block at which `alloc_block` starts. -/
def firstBitmap (sb : Super) : Nat :=
  if sb.genericBlockStart ≤ sb.nextFreeBitmap then bitmapBlockIndex else sb.nextFreeBitmap

/-- `block_index`, in 32 bits. -/
def blockIndex (bi z : Nat) : Nat :=
  ((bi - bitmapBlockIndex) * bitmapBlockSize + z) % 2 ^ 32

/-- `nfs::alloc_block`. -/
def allocBlock : Alloc Super := fun d =>
  if d.al.totalGenericBlocks ≤ d.al.usedGenericBlocks then .error d
  else
    match scanBitmap d.disk d.al.genericBlockStart (d.al.genericBlockStart - firstBitmap d.al)
        (firstBitmap d.al) 0 with
    | (bi, z) =>
      if d.al.totalBlocks ≤ blockIndex bi z then
        .error { d with al := { d.al with nextFreeBitmap := firstBitmap d.al } }
      -- the panic on a block below the generic ones
      else if blockIndex bi z < d.al.genericBlockStart then
        .error { d.store (min bi (d.al.genericBlockStart - 1))
          (bitmapSet (d.disk (min bi (d.al.genericBlockStart - 1))) z) with
          al := { d.al with nextFreeBitmap := firstBitmap d.al } }
      else
        .ok (blockIndex bi z,
          { d.store (min bi (d.al.genericBlockStart - 1))
              (bitmapSet (d.disk (min bi (d.al.genericBlockStart - 1))) z) with
            al := { d.al with usedGenericBlocks := d.al.usedGenericBlocks + 1
                              nextFreeBitmap := bi
                              dirty := true } })

/-- `nfs::free_block`, which does not mark the buffer of the bitmap block dirty. The block cache
shows the cleared bit as long as it keeps this buffer. -/
def freeBlock (b : Nat) (d : Dev Super) : Dev Super :=
  if d.al.totalBlocks ≤ b then d
  else
    { d.store (bitmapBlockIndex + b / bitmapBlockSize)
        (bitmapClear (d.disk (bitmapBlockIndex + b / bitmapBlockSize)) (b % bitmapBlockSize)) with
      al := { d.al with usedGenericBlocks := d.al.usedGenericBlocks - 1, dirty := true } }

/-- The bit of block `b`. -/
def blockBit (d : Dev Super) (b : Nat) : Bool :=
  bitmapGet (d.disk (bitmapBlockIndex + b / bitmapBlockSize)) (b % bitmapBlockSize)

/-- A generic block whose bit is set. -/
def GenericUsed (d : Dev Super) (b : Nat) : Prop :=
  d.al.genericBlockStart ≤ b ∧ b < d.al.totalBlocks ∧ blockBit d b = true

instance (d : Dev Super) (b : Nat) : Decidable (GenericUsed d b) :=
  inferInstanceAs (Decidable (_ ∧ _ ∧ _))

/-- The generic blocks in use. -/
def usedBlocks (d : Dev Super) : Finset Nat :=
  (Finset.range d.al.totalBlocks).filter (GenericUsed d)

/-- The layout is sound, the bits below the generic blocks are set, and the superblock counts
the generic blocks in use. -/
structure AllocOk (d : Dev Super) : Prop where
  start_gt : bitmapBlockIndex < d.al.genericBlockStart
  start_le : d.al.genericBlockStart ≤ bitmapBlockSize
  total_lt : d.al.totalBlocks < 2 ^ 20
  fits : d.al.totalBlocks < (d.al.genericBlockStart - bitmapBlockIndex) * bitmapBlockSize
  next_ge : bitmapBlockIndex ≤ d.al.nextFreeBitmap
  low : ∀ b < d.al.genericBlockStart, blockBit d b = true
  count : d.al.usedGenericBlocks = (usedBlocks d).card

/-- The scan finds a zero bit, or there is none. -/
theorem scanBitmap_spec (disk : Nat → Bytes) (start : Nat) : ∀ (fuel bi z : Nat),
    start ≤ bi + fuel → bi < start →
    ∃ bi' z', scanBitmap disk start fuel bi z = (bi', z') ∧
      ((bi ≤ bi' ∧ bi' < start ∧ z' < bitmapBlockSize ∧ bitmapGet (disk bi') z' = false) ∨
        (bi' = start ∧ z' = none32)) := by
  intro fuel
  induction fuel with
  | zero =>
    intro bi z h1 h2
    exact absurd h1 (by omega)
  | succ fuel ih =>
    intro bi z h1 h2
    unfold scanBitmap
    rw [if_pos h2]
    by_cases hfound : bitmapFindFirstZero (disk bi) 128 ≠ none32
    · rw [if_pos hfound]
      obtain ⟨hlt, hget⟩ := bitmapFindFirstZero_spec hfound
      exact ⟨bi, _, rfl, .inl ⟨Nat.le_refl bi, h2, hlt, hget⟩⟩
    · rw [if_neg hfound]
      have hnone : bitmapFindFirstZero (disk bi) 128 = none32 := not_not.mp hfound
      rcases Nat.lt_or_ge (bi + 1) start with hlt | hge
      · obtain ⟨bi', z', heq, hres⟩ := ih (bi + 1) (bitmapFindFirstZero (disk bi) 128)
          (by omega) hlt
        refine ⟨bi', z', heq, hres.imp_left fun h => ⟨by omega, h.2⟩⟩
      · have hstart : bi + 1 = start := by omega
        refine ⟨bi + 1, bitmapFindFirstZero (disk bi) 128, ?_, .inr ⟨hstart, hnone⟩⟩
        cases fuel with
        | zero => rfl
        | succ fuel =>
          unfold scanBitmap
          rw [if_neg (by omega)]

/-- The scan goes over bitmap blocks whose bits are all ones, and over the ones at the beginning
of the block where it ends. -/
theorem scanBitmap_before (disk : Nat → Bytes) (start : Nat) : ∀ (fuel bi z : Nat) {bi' z' : Nat},
    scanBitmap disk start fuel bi z = (bi', z') →
    (∀ i k, bi ≤ i → i < bi' → k < bitmapBlockSize → bitmapGet (disk i) k = true) ∧
      (bi' < start → start ≤ bi + fuel → ∀ k, k < z' → k < bitmapBlockSize →
        bitmapGet (disk bi') k = true) := by
  intro fuel
  induction fuel with
  | zero =>
    intro bi z bi' z' h
    obtain ⟨rfl, rfl⟩ := Prod.mk.inj h
    exact ⟨fun i k h1 h2 => absurd h2 (Nat.not_lt.mpr h1),
      fun h1 h2 => absurd h2 (Nat.not_le.mpr h1)⟩
  | succ fuel ih =>
    intro bi z bi' z' h
    unfold scanBitmap at h
    split at h
    · split at h
      · obtain ⟨rfl, rfl⟩ := Prod.mk.inj h
        exact ⟨fun i k h1 h2 => absurd h2 (Nat.not_lt.mpr h1),
          fun _ _ k hk => bitmapFindFirstZero_before hk⟩
      · next hnone =>
        obtain ⟨hfull, hlast⟩ := ih _ _ h
        refine ⟨fun i k h1 h2 hk => ?_, fun h1 h2 => hlast h1 (by omega)⟩
        rcases Nat.eq_or_lt_of_le h1 with rfl | h1
        · refine bitmapFindFirstZero_before ?_ (show k < 64 * 128 from hk)
          rw [not_not.mp hnone]
          exact Nat.lt_trans hk (by decide)
        · exact hfull i k h1 h2 hk
    · obtain ⟨rfl, rfl⟩ := Prod.mk.inj h
      next hge =>
      exact ⟨fun i k h1 h2 => absurd h2 (Nat.not_lt.mpr h1), fun h1 => absurd h1 hge⟩

/-! ## Bits -/

section Bits

variable {d : Dev Super} {a b : Nat} {blk : Bytes} {al : Super}

theorem blockBit_store (h : bitmapBlockIndex + b / bitmapBlockSize ≠ a) :
    blockBit { d.store a blk with al := al } b = blockBit d b := by
  unfold blockBit
  rw [show ({ d.store a blk with al := al } : Dev Super).disk = (d.store a blk).disk from rfl,
    Dev.store_of_ne h]

/-- The device after the bit of block `a` is written through `f`. -/
def bitStore (f : Bytes → Nat → Bytes) (a : Nat) (al : Super) (d : Dev Super) : Dev Super :=
  { d.store (bitmapBlockIndex + a / bitmapBlockSize)
      (f (d.disk (bitmapBlockIndex + a / bitmapBlockSize)) (a % bitmapBlockSize)) with al := al }

theorem blockBit_bitStore_self {f : Bytes → Nat → Bytes} :
    blockBit (bitStore f a al d) a =
      bitmapGet (f (d.disk (bitmapBlockIndex + a / bitmapBlockSize)) (a % bitmapBlockSize))
        (a % bitmapBlockSize) := by
  unfold blockBit bitStore
  rw [show ∀ x : Dev Super, ({ x with al := al } : Dev Super).disk = x.disk from fun _ => rfl,
    Dev.store_self]

theorem blockBit_bitStore_of_ne {f : Bytes → Nat → Bytes}
    (hf : ∀ blk k j, k ≠ j → bitmapGet (f blk j) k = bitmapGet blk k) (h : b ≠ a) :
    blockBit (bitStore f a al d) b = blockBit d b := by
  rcases eq_or_ne (b / bitmapBlockSize) (a / bitmapBlockSize) with hq | hq
  · have hr : b % bitmapBlockSize ≠ a % bitmapBlockSize := by
      simp only [bitmapBlockSize] at hq ⊢
      omega
    unfold blockBit bitStore
    rw [hq, show ∀ x : Dev Super, ({ x with al := al } : Dev Super).disk = x.disk from fun _ => rfl,
      Dev.store_self, hf _ _ _ hr]
  · exact blockBit_store fun he => hq (Nat.add_left_cancel he)

theorem blockBit_set : blockBit (bitStore bitmapSet a al d) b = (b == a || blockBit d b) := by
  rcases eq_or_ne b a with rfl | hne
  · rw [blockBit_bitStore_self, bitmapGet_set_self, beq_self_eq_true, Bool.true_or]
  · rw [blockBit_bitStore_of_ne (fun _ _ _ => bitmapGet_set_of_ne) hne, beq_false_of_ne hne,
      Bool.false_or]

theorem blockBit_clear : blockBit (bitStore bitmapClear a al d) b = (b != a && blockBit d b) := by
  rcases eq_or_ne b a with rfl | hne
  · rw [blockBit_bitStore_self, bitmapGet_clear_self, bne_self_eq_false, Bool.false_and]
  · rw [blockBit_bitStore_of_ne (fun _ _ _ => bitmapGet_clear_of_ne) hne, bne_iff_ne.mpr hne,
      Bool.true_and]

end Bits

/-! ## The invariant -/

namespace AllocOk

variable {d d' : Dev Super} {b : Nat}

/-- The bitmap lies below the generic blocks. -/
theorem bitmap_lt (h : AllocOk d) (hb : b < d.al.totalBlocks) :
    bitmapBlockIndex + b / bitmapBlockSize < d.al.genericBlockStart := by
  have hfits := Nat.lt_trans hb h.fits
  have hdiv : b / bitmapBlockSize < d.al.genericBlockStart - bitmapBlockIndex :=
    Nat.div_lt_of_lt_mul (by rwa [Nat.mul_comm])
  have := h.start_gt
  omega

theorem start_lt_total (h : AllocOk d) (hlow : b < d.al.genericBlockStart) :
    bitmapBlockIndex + b / bitmapBlockSize < d.al.genericBlockStart := by
  have hdiv : b / bitmapBlockSize = 0 := Nat.div_eq_of_lt (Nat.lt_of_lt_of_le hlow h.start_le)
  rw [hdiv]
  exact h.start_gt

/-- `AllocOk` and the blocks in use depend on the bitmap only. -/
theorem of_bits (h : AllocOk d) (hal : d'.al = d.al)
    (hbit : ∀ b, b < d.al.genericBlockStart ∨ b < d.al.totalBlocks → blockBit d' b = blockBit d b) :
    AllocOk d' ∧ ∀ b, GenericUsed d' b ↔ GenericUsed d b := by
  have hused : ∀ b, GenericUsed d' b ↔ GenericUsed d b := by
    intro b
    unfold GenericUsed
    rw [hal]
    exact and_congr_right fun _ => and_congr_right fun hb => by rw [hbit b (.inr hb)]
  refine ⟨⟨?_, ?_, ?_, ?_, ?_, ?_, ?_⟩, hused⟩
  · rw [hal]
    exact h.start_gt
  · rw [hal]
    exact h.start_le
  · rw [hal]
    exact h.total_lt
  · rw [hal]
    exact h.fits
  · rw [hal]
    exact h.next_ge
  · rw [hal]
    intro b hb
    rw [hbit b (.inl hb)]
    exact h.low b hb
  · rw [hal, h.count]
    unfold usedBlocks
    rw [hal, Finset.filter_congr fun b _ => hused b]

theorem firstBitmap_lt (h : AllocOk d) : firstBitmap d.al < d.al.genericBlockStart := by
  unfold firstBitmap
  split
  · exact h.start_gt
  · next hlt => exact Nat.lt_of_not_le hlt

theorem firstBitmap_ge (h : AllocOk d) : bitmapBlockIndex ≤ firstBitmap d.al := by
  unfold firstBitmap
  split
  · exact Nat.le_refl _
  · exact h.next_ge

/-- A failed search changes the mark for the next one only. -/
theorem setNextFree (h : AllocOk d) :
    AllocOk { d with al := { d.al with nextFreeBitmap := firstBitmap d.al } } :=
  ⟨h.start_gt, h.start_le, h.total_lt, h.fits, h.firstBitmap_ge, h.low, h.count⟩

/-- `AllocOk` is kept when the bit of a generic block and the count change together. -/
theorem bitStore (h : AllocOk d) {f : Bytes → Nat → Bytes} {al : Super}
    (hf : ∀ blk k j, k ≠ j → bitmapGet (f blk j) k = bitmapGet blk k)
    (hb : d.al.genericBlockStart ≤ b) (hstart : al.genericBlockStart = d.al.genericBlockStart)
    (htotal : al.totalBlocks = d.al.totalBlocks) (hnext : bitmapBlockIndex ≤ al.nextFreeBitmap)
    (hcount : al.usedGenericBlocks = (usedBlocks (Nfs.bitStore f b al d)).card) :
    AllocOk (Nfs.bitStore f b al d) := by
  have hal : (Nfs.bitStore f b al d).al = al := rfl
  refine ⟨?_, ?_, ?_, ?_, hnext, ?_, hcount⟩
  · rw [hal, hstart]
    exact h.start_gt
  · rw [hal, hstart]
    exact h.start_le
  · rw [hal, htotal]
    exact h.total_lt
  · rw [hal, hstart, htotal]
    exact h.fits
  · rw [hal, hstart]
    intro x hx
    rw [blockBit_bitStore_of_ne hf (by omega)]
    exact h.low x hx

end AllocOk

/-- What `alloc_block` does to the superblock. -/
def Super.took (sb : Super) (bi : Nat) : Super :=
  { sb with usedGenericBlocks := sb.usedGenericBlocks + 1, nextFreeBitmap := bi, dirty := true }

/-- Where the scan of `alloc_block` ends. -/
def scanned (d : Dev Super) : Nat × Nat :=
  scanBitmap d.disk d.al.genericBlockStart (d.al.genericBlockStart - firstBitmap d.al)
    (firstBitmap d.al) 0

/-- The scan ends at a zero bit, whose block number has this bit; or there is none, and then the
number computed is past the last block. -/
theorem AllocOk.scanned_cases {d : Dev Super} (h : AllocOk d) {bi z : Nat}
    (heq : scanned d = (bi, z)) :
    (firstBitmap d.al ≤ bi ∧ bi < d.al.genericBlockStart ∧
      bitmapBlockIndex + blockIndex bi z / bitmapBlockSize = bi ∧
      blockIndex bi z % bitmapBlockSize = z ∧ blockBit d (blockIndex bi z) = false) ∨
    (bi = d.al.genericBlockStart ∧ d.al.totalBlocks ≤ blockIndex bi z) := by
  obtain ⟨bi', z', heq', hres⟩ := scanBitmap_spec d.disk d.al.genericBlockStart
    (d.al.genericBlockStart - firstBitmap d.al) (firstBitmap d.al) 0
    (by have := h.firstBitmap_lt; omega) h.firstBitmap_lt
  obtain ⟨rfl, rfl⟩ := Prod.mk.inj (heq.symm.trans heq')
  rcases hres with ⟨hge, hlt, hz, hbit⟩ | ⟨rfl, rfl⟩
  · have hbi : bitmapBlockIndex ≤ bi := Nat.le_trans h.firstBitmap_ge hge
    have hindex : blockIndex bi z = (bi - bitmapBlockIndex) * bitmapBlockSize + z := by
      refine Nat.mod_eq_of_lt ?_
      have hle := h.start_le
      simp only [bitmapBlockIndex, bitmapBlockSize] at *
      omega
    have hdiv : bitmapBlockIndex + blockIndex bi z / bitmapBlockSize = bi := by
      rw [hindex]
      simp only [bitmapBlockIndex, bitmapBlockSize] at *
      omega
    have hmod : blockIndex bi z % bitmapBlockSize = z := by
      rw [hindex]
      simp only [bitmapBlockIndex, bitmapBlockSize] at *
      omega
    exact .inl ⟨hge, hlt, hdiv, hmod, by rw [blockBit, hdiv, hmod, hbit]⟩
  · refine .inr ⟨rfl, ?_⟩
    have hfits := h.fits
    have hle := h.start_le
    have hgt := h.start_gt
    simp only [blockIndex, bitmapBlockIndex, bitmapBlockSize, none32] at *
    omega

/-- A number with a zero bit is that of a generic block. -/
theorem AllocOk.generic_of_zero {d : Dev Super} {b : Nat} (h : AllocOk d)
    (hb : blockBit d b = false) :
    d.al.genericBlockStart ≤ b := by
  refine Nat.le_of_not_lt fun hlow => ?_
  rw [h.low b hlow] at hb
  cases hb

/-- `alloc_block` takes the block at which the scan ended. -/
theorem AllocOk.allocBlock_ok {d : Dev Super} (h : AllocOk d) {bi z : Nat}
    (heq : scanned d = (bi, z)) (hfull : d.al.usedGenericBlocks < d.al.totalGenericBlocks)
    (htotal : blockIndex bi z < d.al.totalBlocks) :
    allocBlock d = .ok (blockIndex bi z,
      Nfs.bitStore bitmapSet (blockIndex bi z) (d.al.took bi) d) := by
  rcases h.scanned_cases heq with ⟨-, hlt, hdiv, hmod, hbit⟩ | ⟨-, hge⟩
  · rw [allocBlock, if_neg (Nat.not_le.mpr hfull), ← scanned, heq]
    refine (if_neg (Nat.not_le.mpr htotal)).trans
      ((if_neg (Nat.not_lt.mpr (h.generic_of_zero hbit))).trans ?_)
    rw [Nfs.bitStore, hdiv, hmod, min_eq_left (Nat.le_sub_one_of_lt hlt)]
    rfl
  · exact absurd htotal (Nat.not_lt.mpr hge)

/-- `alloc_block` finds a generic block whose bit is zero and sets the bit, or it fails and
leaves the blocks as they are. -/
theorem allocBlock_spec {d : Dev Super} (h : AllocOk d) :
    (∃ b bi, allocBlock d = .ok (b, bitStore bitmapSet b (d.al.took bi) d) ∧
      bitmapBlockIndex ≤ bi ∧ d.al.genericBlockStart ≤ b ∧ b < d.al.totalBlocks ∧
      blockBit d b = false) ∨
    allocBlock d = .error d ∨
    allocBlock d = .error { d with al := { d.al with nextFreeBitmap := firstBitmap d.al } } := by
  by_cases hfull : d.al.totalGenericBlocks ≤ d.al.usedGenericBlocks
  · exact .inr (.inl (by rw [allocBlock, if_pos hfull]))
  obtain ⟨bi, z, heq⟩ : ∃ bi z, scanned d = (bi, z) := ⟨_, _, rfl⟩
  by_cases htotal : d.al.totalBlocks ≤ blockIndex bi z
  · refine .inr (.inr ?_)
    rw [allocBlock, if_neg hfull, ← scanned, heq]
    exact if_pos htotal
  left
  rcases h.scanned_cases heq with ⟨hge, -, -, -, hbit⟩ | ⟨-, hge⟩
  · exact ⟨_, bi, h.allocBlock_ok heq (Nat.lt_of_not_le hfull) (Nat.lt_of_not_le htotal),
      Nat.le_trans h.firstBitmap_ge hge, h.generic_of_zero hbit, Nat.lt_of_not_le htotal, hbit⟩
  · exact absurd hge htotal

section Model

variable {d : Dev Super} {b bi : Nat} {al : Super}

theorem bitStore_disk_of_used (h : AllocOk d) {f : Bytes → Nat → Bytes} {x : Nat}
    (hb : b < d.al.totalBlocks) (hx : d.al.genericBlockStart ≤ x) :
    (bitStore f b al d).disk x = d.disk x := by
  refine Dev.store_of_ne ?_
  have := h.bitmap_lt hb
  omega

theorem genericUsed_set (hstart : al.genericBlockStart = d.al.genericBlockStart)
    (htotal : al.totalBlocks = d.al.totalBlocks) (hb : d.al.genericBlockStart ≤ b)
    (hlt : b < d.al.totalBlocks) (x : Nat) :
    GenericUsed (bitStore bitmapSet b al d) x ↔ x = b ∨ GenericUsed d x := by
  unfold GenericUsed
  rw [show (bitStore bitmapSet b al d).al = al from rfl, blockBit_set, hstart, htotal,
    Bool.or_eq_true, beq_iff_eq]
  constructor
  · rintro ⟨h1, h2, rfl | h3⟩
    · exact .inl rfl
    · exact .inr ⟨h1, h2, h3⟩
  · rintro (rfl | ⟨h1, h2, h3⟩)
    · exact ⟨hb, hlt, .inl rfl⟩
    · exact ⟨h1, h2, .inr h3⟩

theorem genericUsed_clear (hstart : al.genericBlockStart = d.al.genericBlockStart)
    (htotal : al.totalBlocks = d.al.totalBlocks) (x : Nat) :
    GenericUsed (bitStore bitmapClear b al d) x ↔ x ≠ b ∧ GenericUsed d x := by
  unfold GenericUsed
  rw [show (bitStore bitmapClear b al d).al = al from rfl, blockBit_clear, hstart, htotal,
    Bool.and_eq_true, bne_iff_ne]
  tauto

theorem mem_usedBlocks {x : Nat} : x ∈ usedBlocks d ↔ GenericUsed d x := by
  rw [usedBlocks, Finset.mem_filter, Finset.mem_range]
  exact and_iff_right_of_imp fun h => h.2.1

theorem allocOk_set (h : AllocOk d) (hbi : bitmapBlockIndex ≤ bi) (hb : d.al.genericBlockStart ≤ b)
    (hlt : b < d.al.totalBlocks) (hfree : blockBit d b = false) :
    AllocOk (bitStore bitmapSet b (d.al.took bi) d) := by
  refine h.bitStore (fun _ _ _ => bitmapGet_set_of_ne) hb rfl rfl hbi ?_
  have hnot : b ∉ usedBlocks d := by
    rw [mem_usedBlocks]
    intro hused
    rw [hused.2.2] at hfree
    cases hfree
  have hins : usedBlocks (bitStore bitmapSet b (d.al.took bi) d) = insert b (usedBlocks d) := by
    ext x
    rw [Finset.mem_insert, mem_usedBlocks, mem_usedBlocks]
    exact genericUsed_set rfl rfl hb hlt x
  rw [hins, Finset.card_insert_of_notMem hnot, ← h.count]
  rfl

end Model

/-- `alloc_block` as an allocator. -/
def bitmapModel : AllocModel Super where
  alloc := allocBlock
  Ok := AllocOk
  Used := GenericUsed
  alloc_ok := by
    intro d b d' h heq
    rcases allocBlock_spec h with ⟨c, bi, hc, hbi, hge, hlt, hfree⟩ | herr | herr
    · rw [hc] at heq
      cases heq
      refine ⟨allocOk_set h hbi hge hlt hfree, ?_, ?_, genericUsed_set rfl rfl hge hlt, ?_⟩
      · have := h.total_lt
        simp only [none32]
        omega
      · intro hused
        rw [hused.2.2] at hfree
        cases hfree
      · exact fun x hx => bitStore_disk_of_used h hlt hx.1
    · rw [herr] at heq
      cases heq
    · rw [herr] at heq
      cases heq
  alloc_error := by
    intro d d' h heq
    rcases allocBlock_spec h with ⟨c, bi, hc, -⟩ | herr | herr
    · rw [hc] at heq
      cases heq
    · rw [herr] at heq
      cases heq
      exact ⟨h, fun _ => Iff.rfl, fun _ _ => rfl⟩
    · rw [herr] at heq
      cases heq
      exact ⟨h.setNextFree, fun _ => Iff.rfl, fun _ _ => rfl⟩
  store_ok := by
    intro d b blk h hb
    refine h.of_bits rfl fun x hx => ?_
    refine blockBit_store ?_
    have := hb.1
    rcases hx with hx | hx
    · have := h.start_lt_total hx
      omega
    · have := h.bitmap_lt hx
      omega

/-- `free_block` of a generic block in use clears its bit, and the count follows. -/
theorem freeBlock_spec {d : Dev Super} {b : Nat} (h : AllocOk d) (hb : GenericUsed d b) :
    AllocOk (freeBlock b d) ∧ (∀ x, GenericUsed (freeBlock b d) x ↔ x ≠ b ∧ GenericUsed d x) ∧
      ∀ x, d.al.genericBlockStart ≤ x → (freeBlock b d).disk x = d.disk x := by
  have heq : freeBlock b d = bitStore bitmapClear b
      { d.al with usedGenericBlocks := d.al.usedGenericBlocks - 1, dirty := true } d := by
    rw [freeBlock, if_neg (Nat.not_le.mpr hb.2.1)]
    rfl
  rw [heq]
  refine ⟨h.bitStore (fun _ _ _ => bitmapGet_clear_of_ne) hb.1 rfl rfl h.next_ge ?_,
    genericUsed_clear rfl rfl, fun x hx => bitStore_disk_of_used h hb.2.1 hx⟩
  have hdel : usedBlocks (bitStore bitmapClear b
      { d.al with usedGenericBlocks := d.al.usedGenericBlocks - 1, dirty := true } d) =
      (usedBlocks d).erase b := by
    ext x
    rw [Finset.mem_erase, mem_usedBlocks, mem_usedBlocks]
    exact genericUsed_clear rfl rfl x
  rw [hdel, Finset.card_erase_of_mem (mem_usedBlocks.mpr hb), ← h.count]

end CoroCore.Nfs
