import CoroCore.Nfs.MakeFs

/-!
# The layout that `nfs::make_fs` computes

`generic_block_start` is 2 too large for `total_generic_blocks`: the two add up to two blocks more
than the disk has, on every disk (`make_fs_never_tiles`). All else that the layout has to do it does
on disks of less than 2^19 + 2 blocks; from there on `(nblocks - 2) * BITMAP_BLOCK_SIZE` does not
fit into 32 bits.
-/

namespace CoroCore.Nfs

open Lib

/-! ## The numbers of the superblock -/

section Layout

variable {nblocks : Nat} (hmin : 1024 ≤ nblocks) (hmax : nblocks < 2 ^ 19 + 2)
include hmin hmax

/-- The product in `make_fs` does not wrap around. -/
theorem formatSuper_start :
    (formatSuper nblocks).genericBlockStart = 2 + nblocks - totalGeneric nblocks ∧
      totalGeneric nblocks < nblocks ∧ nblocks < totalGeneric nblocks + 100 := by
  have hmod : (nblocks - 2) * bitmapBlockSize % 2 ^ 32 = (nblocks - 2) * bitmapBlockSize := by
    refine Nat.mod_eq_of_lt ?_
    simp only [bitmapBlockSize]
    omega
  have hgeneric : totalGeneric nblocks =
      (nblocks - 2) * bitmapBlockSize / (bitmapBlockSize + 1) := by
    rw [totalGeneric, hmod]
  have hlt : totalGeneric nblocks < nblocks ∧ nblocks < totalGeneric nblocks + 100 := by
    rw [hgeneric]
    simp only [bitmapBlockSize]
    omega
  refine ⟨Nat.mod_eq_of_lt ?_, hlt⟩
  omega

theorem fits_of_lt : Fits nblocks := by
  obtain ⟨hstart, -, hlt⟩ := formatSuper_start hmin hmax
  refine ⟨hmin, Nat.lt_trans hmax (by decide), ?_⟩
  rw [hstart]
  simp only [bitmapBlockSize]
  omega

theorem formatSuper_space : (formatSuper nblocks).genericBlockStart ≤ nblocks ∧
    nblocks + 2 = (formatSuper nblocks).genericBlockStart + totalGeneric nblocks := by
  obtain ⟨hstart, hlt, hgt⟩ := formatSuper_start hmin hmax
  rw [hstart]
  omega

end Layout

/-! ## What keeps them -/

/-- The superblocks describe the same layout. -/
def SameLayout (al al' : Super) : Prop :=
  al'.totalBlocks = al.totalBlocks ∧ al'.genericBlockStart = al.genericBlockStart ∧
    al'.totalGenericBlocks = al.totalGenericBlocks

theorem SameLayout.refl (al : Super) : SameLayout al al := ⟨rfl, rfl, rfl⟩

theorem SameLayout.trans {al al' al'' : Super} (h : SameLayout al al') (h' : SameLayout al' al'') :
    SameLayout al al'' := ⟨h'.1.trans h.1, h'.2.1.trans h.2.1, h'.2.2.trans h.2.2⟩

/-- `alloc_block` as an allocator that keeps the layout. -/
def layoutModel (al : Super) : AllocModel Super :=
  bitmapModel.keeping (SameLayout al)
    (fun d b d' h heq hl => by
      rcases allocBlock_spec h with ⟨c, bi, hc, -⟩ | herr | herr
      · rw [show bitmapModel.alloc d = _ from hc] at heq
        cases heq
        exact hl
      · rw [show bitmapModel.alloc d = _ from herr] at heq
        cases heq
      · rw [show bitmapModel.alloc d = _ from herr] at heq
        cases heq)
    (fun d d' h heq hl => by
      rcases allocBlock_spec h with ⟨c, bi, hc, -⟩ | herr | herr
      · rw [show bitmapModel.alloc d = _ from hc] at heq
        cases heq
      · rw [show bitmapModel.alloc d = _ from herr] at heq
        cases heq
        exact hl
      · rw [show bitmapModel.alloc d = _ from herr] at heq
        cases heq
        exact hl)

namespace Fs

variable {s t : Fs} {n : Nat}

theorem loadTable_dev : (loadTable s).dev = s.dev := by
  unfold loadTable
  split <;> rfl

theorem writeDinode_layout {x : Dinode} (h : Core s) (hn : n * dinodeSize + dinodeSize < 2 ^ 32)
    (hw : writeDinode n x s = .ok t) : SameLayout s.dev.al t.dev.al := by
  obtain ⟨⟨m, u⟩, hwrite, hd⟩ := bind_ok hw
  cases hd
  obtain ⟨htab, -, -⟩ := loadTable_spec h
  have hown : (loadTable s).Owned (layoutModel s.dev.al) :=
    ⟨⟨htab.core.owned.ok, by rw [loadTable_dev]; exact .refl _⟩, htab.core.owned.inj,
      htab.core.owned.used⟩
  obtain ⟨-, hwrote⟩ := Store.write_spec hown (htab.core.pos _ (offset_lt hn)) hn hwrite
  exact hwrote.owned.ok.2

theorem makeFs_layout {nblocks : Nat} {disk : Nat → Bytes} {junk : Dinode} (hfit : Fits nblocks)
    (h : makeFs nblocks disk junk = .ok s) : SameLayout (formatSuper nblocks) (mount s).dev.al := by
  rw [makeFs, if_neg (Nat.not_lt.mpr hfit.min)] at h
  obtain ⟨s₁, h₁, h⟩ := bind_ok h
  obtain ⟨s₂, h₂, h⟩ := bind_ok h
  obtain ⟨hinv₀, -⟩ : TableInv [] (format nblocks disk) ∧ _ := format_inv hfit
  have hlayout₁ := writeDinode_layout hinv₀.core (by decide) h₁
  obtain ⟨htab₁, -, -⟩ := writeDinode_spec hinv₀.core (by decide) h₁
  obtain ⟨hinv₂, -⟩ := (hinv₀.tab htab₁ fun i hi => absurd hi List.not_mem_nil).makeRoot
  have hlayout₂ : SameLayout s₁.dev.al s₂.dev.al := by
    rw [flush_eq] at h₂
    split at h₂
    · rw [if_neg (by decide)] at h₂
      obtain ⟨u, hu, h₂⟩ := bind_ok h₂
      cases h₂
      have hlayout := writeDinode_layout hinv₂.core (by decide) hu
      exact hlayout
    · cases h₂
      exact .refl _
  have hlayout₃ : SameLayout s₂.dev.al s.dev.al := by
    rw [flush_eq] at h
    split at h
    · rw [if_pos rfl] at h
      cases h
      exact .refl _
    · cases h
      exact .refl _
  exact (hlayout₁.trans hlayout₂).trans hlayout₃

/-! ## Which blocks are marked -/

/-- The numbers of the layout, apart from their sum, and the bits that `make_fs` sets. The blocks
that it allocated are those that `mount` finds in an inode. -/
structure Marked (nblocks : Nat) : Prop where
  total : (formatSuper nblocks).totalBlocks = nblocks
  bits : nblocks ≤ ((formatSuper nblocks).genericBlockStart - bitmapBlockIndex) * bitmapBlockSize
  start_le : (formatSuper nblocks).genericBlockStart ≤ nblocks
  first : (formatSuper nblocks).genericBlockStart ≤ bitmapBlockSize
  used : ∀ disk junk s, makeFs nblocks disk junk = .ok s → ∀ b < nblocks,
    (blockBit (mount s).dev b = true ↔
      b < (formatSuper nblocks).genericBlockStart ∨ ∃ q, (mount s).refs q = some b)

/-- The layout covers the disk, with 32-bit arithmetic. -/
structure LaidOut (nblocks : Nat) : Prop where
  tiles :
    ((formatSuper nblocks).genericBlockStart + (formatSuper nblocks).totalGenericBlocks) % 2 ^ 32 =
      nblocks
  marked : Marked nblocks

theorem totalGeneric_le (nblocks : Nat) : totalGeneric nblocks ≤ nblocks := by
  simp only [totalGeneric, bitmapBlockSize]
  omega

/-- The two parts add up to two blocks more. -/
theorem formatSuper_sum (nblocks : Nat) :
    ((formatSuper nblocks).genericBlockStart + (formatSuper nblocks).totalGenericBlocks) % 2 ^ 32 =
      (nblocks + 2) % 2 ^ 32 := by
  have hle := totalGeneric_le nblocks
  show ((2 + nblocks - totalGeneric nblocks) % 2 ^ 32 + totalGeneric nblocks) % 2 ^ 32 = _
  rw [Nat.mod_add_mod, Nat.sub_add_cancel (by omega), Nat.add_comm]

theorem marked_of_lt {nblocks : Nat} (hmin : 1024 ≤ nblocks) (hmax : nblocks < 2 ^ 19 + 2) :
    Marked nblocks := by
  have hfit := fits_of_lt hmin hmax
  refine ⟨rfl, Nat.le_of_lt hfit.layout.2.1, (formatSuper_space hmin hmax).1, hfit.start_le,
    fun disk junk s hs b hb => ?_⟩
  obtain ⟨htotal, hstart, -⟩ := makeFs_layout hfit hs
  have hown := (makeFs_spec hfit hs).table.core.owned
  constructor
  · intro hbit
    rcases Nat.lt_or_ge b (formatSuper nblocks).genericBlockStart with hlow | hge
    · exact .inl hlow
    · exact .inr ((hown.used b).mp ⟨hstart ▸ hge, htotal ▸ hb, hbit⟩)
  · rintro (hlow | href)
    · exact hown.ok.low b (hstart ▸ hlow)
    · exact ((hown.used b).mpr href).2.2

/-- The reserved bits do not fit into the first bitmap block of a larger disk. -/
theorem start_gt_of_ge {nblocks : Nat} (hmin : 2 ^ 19 + 2 ≤ nblocks) (hmax : nblocks < 2 ^ 32) :
    bitmapBlockSize < (formatSuper nblocks).genericBlockStart := by
  obtain ⟨m, rfl⟩ : ∃ m, nblocks = m + 2 := ⟨nblocks - 2, by omega⟩
  have hprod : m * 8192 % 2 ^ 32 = 8192 * (m % 524288) := by omega
  simp only [formatSuper, totalGeneric, bitmapBlockSize, Nat.add_sub_cancel, hprod]
  have hle : 8192 * (m % 524288) / (8192 + 1) ≤ m % 524288 := by omega
  have hge : m % 524288 ≤ 8192 * (m % 524288) / (8192 + 1) + 64 := by omega
  have hraw : 2 + (m + 2) - 8192 * (m % 524288) / (8192 + 1) < 2 ^ 32 := by omega
  rw [Nat.mod_eq_of_lt hraw]
  omega

/-- `make_fs` never makes a layout that covers the disk exactly; the rest of the layout is right
exactly on disks of less than 2^19 + 2 blocks. -/
theorem make_fs_never_tiles {nblocks : Nat} (hmin : 1024 ≤ nblocks) (hmax : nblocks < 2 ^ 32) :
    ¬LaidOut nblocks ∧ (Marked nblocks ↔ nblocks < 2 ^ 19 + 2) := by
  refine ⟨fun h => ?_, fun h => ?_, fun h => marked_of_lt hmin h⟩
  · have hsum := (formatSuper_sum nblocks).symm.trans h.tiles
    omega
  · refine Nat.lt_of_not_le fun hge => ?_
    exact Nat.not_le.mpr (start_gt_of_ge hge hmax) h.first

theorem make_fs_never_tiles_smallest :
    ¬LaidOut 1024 ∧ (Marked 1024 ↔ 1024 < 2 ^ 19 + 2) :=
  make_fs_never_tiles (by decide) (by decide)

/-- The smallest disk: 1021 generic blocks from block 5 on. -/
theorem smallest_disk_not_tiled :
    (formatSuper 1024).genericBlockStart + (formatSuper 1024).totalGenericBlocks = 1026 ∧
      ¬LaidOut 1024 := by
  refine ⟨by decide, fun h => ?_⟩
  exact absurd h.tiles (by decide)

end Fs

end CoroCore.Nfs
