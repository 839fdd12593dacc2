import CoroCore.Lib.Run
import CoroCore.Nfs.Layout
import Mathlib.Order.Interval.Finset.Nat

/-!
# When `nfs::alloc_block` fails

`alloc_block` looks at the bitmap blocks from `next_free_bitmap` on, and does not come back to the
ones before. So it fails exactly if no block from there on is free (`allocBlock_fails_iff`), which
is what it should do only if no block at all is free (`alloc_exact_iff`). The test of the counter
never fails: `total_generic_blocks` is greater than the number of generic blocks.
-/

namespace CoroCore.Nfs

open Lib

variable {d d' : Dev Super} {b bi z : Nat}

/-- `alloc_block` reaches its panic. -/
def AllocPanics (d : Dev Super) : Prop :=
  d.al.usedGenericBlocks < d.al.totalGenericBlocks ∧
    blockIndex (scanned d).1 (scanned d).2 < d.al.totalBlocks ∧
    blockIndex (scanned d).1 (scanned d).2 < d.al.genericBlockStart

/-- A generic block that is not in use. -/
def GenericFree (d : Dev Super) (b : Nat) : Prop :=
  d.al.genericBlockStart ≤ b ∧ b < d.al.totalBlocks ∧ blockBit d b = false

instance (d : Dev Super) (b : Nat) : Decidable (GenericFree d b) :=
  inferInstanceAs (Decidable (_ ∧ _ ∧ _))

/-- What `alloc_block` has to do: it fails if and only if all generic blocks are in use, and else
it takes a free one. -/
structure AllocExact (d : Dev Super) : Prop where
  fails : (∃ e, allocBlock d = .error e) ↔
    ∀ b, d.al.genericBlockStart ≤ b → b < d.al.totalBlocks → blockBit d b = true
  takes : ∀ b d', allocBlock d = .ok (b, d') → GenericFree d b ∧
    (∀ x, blockBit d' x = (x == b || blockBit d x)) ∧
    d'.al.usedGenericBlocks = d.al.usedGenericBlocks + 1
  noPanic : ¬ AllocPanics d

/-- A free block lies in a bitmap block from `next_free_bitmap` on, or there is none. -/
def HintOk (d : Dev Super) : Prop :=
  (∃ b, GenericFree d b ∧ firstBitmap d.al ≤ bitmapBlockIndex + b / bitmapBlockSize) ∨
    ∀ b, ¬ GenericFree d b

/-- The invariant of the allocator, with the size that `make_fs` gives it. -/
structure Space (d : Dev Super) : Prop where
  ok : AllocOk d
  start_le : d.al.genericBlockStart ≤ d.al.totalBlocks
  size : d.al.totalBlocks + 2 = d.al.genericBlockStart + d.al.totalGenericBlocks

/-! ## One call -/

theorem Space.not_full (h : Space d) : d.al.usedGenericBlocks < d.al.totalGenericBlocks := by
  have hsub : usedBlocks d ⊆ Finset.Ico d.al.genericBlockStart d.al.totalBlocks := fun b hb =>
    Finset.mem_Ico.mpr ⟨(mem_usedBlocks.mp hb).1, (mem_usedBlocks.mp hb).2.1⟩
  have hcard := Finset.card_le_card hsub
  rw [Nat.card_Ico, ← h.ok.count] at hcard
  have hsize := h.size
  have hle := h.start_le
  omega

/-- A call of `alloc_block` that takes a block: it is the first free one of the bitmap block `bi`,
and the bitmap blocks before, from the mark on, have none. -/
structure Takes (d : Dev Super) (b bi : Nat) : Prop where
  result : allocBlock d = .ok (b, bitStore bitmapSet b (d.al.took bi) d)
  free : GenericFree d b
  bitmap : bitmapBlockIndex + b / bitmapBlockSize = bi
  ge : firstBitmap d.al ≤ bi
  lt : bi < d.al.genericBlockStart
  before : ∀ x, firstBitmap d.al ≤ bitmapBlockIndex + x / bitmapBlockSize →
    bitmapBlockIndex + x / bitmapBlockSize < bi → blockBit d x = true

theorem AllocOk.allocBlock_cases (h : AllocOk d)
    (hfull : d.al.usedGenericBlocks < d.al.totalGenericBlocks) :
    (∃ b bi, Takes d b bi) ∨
    (allocBlock d = .error { d with al := { d.al with nextFreeBitmap := firstBitmap d.al } } ∧
      ∀ b, GenericFree d b → bitmapBlockIndex + b / bitmapBlockSize < firstBitmap d.al) := by
  obtain ⟨bi, z, heq⟩ : ∃ bi z, scanned d = (bi, z) := ⟨_, _, rfl⟩
  obtain ⟨hover, hlast⟩ := scanBitmap_before d.disk d.al.genericBlockStart _ _ _ heq
  have hbefore : ∀ x, firstBitmap d.al ≤ bitmapBlockIndex + x / bitmapBlockSize →
      bitmapBlockIndex + x / bitmapBlockSize < bi → blockBit d x = true := fun x h1 h2 =>
    hover _ _ h1 h2 (Nat.mod_lt x (by decide))
  rcases Nat.lt_or_ge (blockIndex bi z) d.al.totalBlocks with htotal | htotal
  · rcases h.scanned_cases heq with ⟨hge, hlt, hdiv, -, hbit⟩ | ⟨-, hge⟩
    · exact .inl ⟨_, bi, h.allocBlock_ok heq hfull htotal,
        ⟨h.generic_of_zero hbit, htotal, hbit⟩, hdiv, hge, hlt, hbefore⟩
    · exact absurd htotal (Nat.not_lt.mpr hge)
  · refine .inr ⟨?_, fun b hb => Nat.lt_of_not_le fun hge => ?_⟩
    · rw [allocBlock, if_neg (Nat.not_le.mpr hfull), ← scanned, heq]
      exact if_pos htotal
    -- a free block from the mark on would have been found
    have hset : blockBit d b = true := by
      have hin := h.bitmap_lt hb.2.1
      rcases Nat.lt_or_ge (bitmapBlockIndex + b / bitmapBlockSize) bi with hlt | hge'
      · exact hbefore b hge hlt
      rcases h.scanned_cases heq with ⟨-, hlt, hdiv, hmod, -⟩ | ⟨hbi, -⟩
      · have hb2 := hb.2.1
        have hsame : bitmapBlockIndex + b / bitmapBlockSize = bi ∧ b % bitmapBlockSize < z := by
          simp only [bitmapBlockIndex, bitmapBlockSize] at *
          omega
        rw [blockBit, hsame.1]
        refine hlast hlt ?_ _ hsame.2 (Nat.mod_lt b (by decide))
        have := h.firstBitmap_lt
        omega
      · exact absurd hin (Nat.not_lt.mpr (hbi ▸ hge'))
    rw [hb.2.2] at hset
    cases hset

theorem Space.allocBlock_cases (h : Space d) :
    (∃ b bi, Takes d b bi) ∨
    (allocBlock d = .error { d with al := { d.al with nextFreeBitmap := firstBitmap d.al } } ∧
      ∀ b, GenericFree d b → bitmapBlockIndex + b / bitmapBlockSize < firstBitmap d.al) :=
  h.ok.allocBlock_cases h.not_full

theorem Space.allocBlock_fails_iff (h : Space d) : (∃ e, allocBlock d = .error e) ↔
    ∀ b, GenericFree d b → bitmapBlockIndex + b / bitmapBlockSize < firstBitmap d.al := by
  rcases h.allocBlock_cases with ⟨b, bi, ht⟩ | ⟨herr, hall⟩
  · refine ⟨fun ⟨e, he⟩ => ?_, fun hall => absurd (hall b ht.free) (Nat.not_lt.mpr ?_)⟩
    · rw [ht.result] at he
      cases he
    · rw [ht.bitmap]
      exact ht.ge
  · exact ⟨fun _ => hall, fun _ => ⟨_, herr⟩⟩

theorem Space.noPanic (h : Space d) : ¬ AllocPanics d := by
  rintro ⟨-, htotal, hlow⟩
  rcases h.ok.scanned_cases (show scanned d = ((scanned d).1, (scanned d).2) from rfl) with
    ⟨-, -, -, -, hbit⟩ | ⟨-, hge⟩
  · exact absurd hlow (Nat.not_lt.mpr (h.ok.generic_of_zero hbit))
  · exact absurd htotal (Nat.not_lt.mpr hge)

theorem all_used_iff :
    (∀ b, d.al.genericBlockStart ≤ b → b < d.al.totalBlocks → blockBit d b = true) ↔
    ∀ b, ¬ GenericFree d b := by
  constructor
  · rintro h b ⟨h1, h2, h3⟩
    rw [h b h1 h2] at h3
    cases h3
  · intro h b h1 h2
    exact Bool.not_eq_false _ |>.mp fun h3 => h b ⟨h1, h2, h3⟩

/-- `alloc_block` does what it has to do exactly if its mark does not stand behind all free
blocks. -/
theorem Space.allocExact_iff (h : Space d) : AllocExact d ↔ HintOk d := by
  have hfails := h.allocBlock_fails_iff
  constructor
  · intro hexact
    by_contra hhint
    obtain ⟨hno, hsome⟩ := not_or.mp hhint
    have herr := hfails.mpr fun b hb => Nat.lt_of_not_le fun hle => hno ⟨b, hb, hle⟩
    exact hsome (all_used_iff.mp (hexact.fails.mp herr))
  · intro hhint
    refine ⟨hfails.trans ?_, fun b d' hb => ?_, h.noPanic⟩
    · rw [all_used_iff]
      rcases hhint with ⟨b, hb, hge⟩ | hnone
      · exact ⟨fun hall => absurd (hall b hb) (Nat.not_lt.mpr hge), fun hall => absurd hb (hall b)⟩
      · exact ⟨fun _ => hnone, fun _ b hb => absurd hb (hnone b)⟩
    · rcases h.allocBlock_cases with ⟨c, bi, ht⟩ | ⟨herr, -⟩
      · rw [ht.result] at hb
        cases hb
        exact ⟨ht.free, fun x => blockBit_set, rfl⟩
      · rw [herr] at hb
        cases hb

/-! ## After `make_fs` -/

namespace Fs

variable {s : Fs}

/-- The allocator of a file system that `make_fs` made. -/
theorem makeFs_space {nblocks : Nat} {disk : Nat → Bytes} {junk : Dinode} (hmin : 1024 ≤ nblocks)
    (hmax : nblocks < 2 ^ 19 + 2) (h : makeFs nblocks disk junk = .ok s) : Space (mount s).dev := by
  have hfit := fits_of_lt hmin hmax
  obtain ⟨htotal, hstart, hgeneric⟩ := makeFs_layout hfit h
  obtain ⟨hle, hsize⟩ := formatSuper_space hmin hmax
  refine ⟨(makeFs_spec hfit h).table.core.owned.ok, ?_, ?_⟩
  · rw [htotal, hstart]
    exact hle
  · rw [htotal, hstart, hgeneric]
    exact hsize

end Fs

/-! ## Sequences of calls -/

inductive BlockCall
  | alloc
  | free (b : Nat)

/-- The calls of `alloc_block` and `free_block`. Only blocks in use are freed. -/
inductive BlockStep : Dev Super → BlockCall → Dev Super → Prop
  | alloc {d d' : Dev Super} {b : Nat} : allocBlock d = .ok (b, d') → BlockStep d .alloc d'
  | fail {d d' : Dev Super} : allocBlock d = .error d' → BlockStep d .alloc d'
  | free {d : Dev Super} {b : Nat} : GenericUsed d b → BlockStep d (.free b) (freeBlock b d)

theorem Space.took (h : Space d) (ht : Takes d b bi) :
    Space (bitStore bitmapSet b (d.al.took bi) d) :=
  ⟨allocOk_set h.ok (Nat.le_trans h.ok.firstBitmap_ge ht.ge) ht.free.1 ht.free.2.1 ht.free.2.2,
    h.start_le, h.size⟩

theorem Space.step {c : BlockCall} (h : Space d) (hs : BlockStep d c d') : Space d' := by
  cases hs with
  | alloc hok =>
    rcases h.allocBlock_cases with ⟨b, bi, ht⟩ | ⟨herr, -⟩
    · rw [ht.result] at hok
      cases hok
      exact h.took ht
    · rw [herr] at hok
      cases hok
  | fail herr =>
    rcases h.allocBlock_cases with ⟨b, bi, ht⟩ | ⟨herr', -⟩
    · rw [ht.result] at herr
      cases herr
    · rw [herr'] at herr
      cases herr
      exact ⟨h.ok.setNextFree, h.start_le, h.size⟩
  | @free b hb =>
    have hal : SameLayout d.al (freeBlock b d).al := by
      rw [freeBlock, if_neg (Nat.not_le.mpr hb.2.1)]
      exact ⟨rfl, rfl, rfl⟩
    refine ⟨(freeBlock_spec h.ok hb).1, ?_, ?_⟩
    · rw [hal.1, hal.2.1]
      exact h.start_le
    · rw [hal.1, hal.2.1, hal.2.2]
      exact h.size

/-- After `make_fs` and any calls of `alloc_block` and `free_block`, `alloc_block` does what it has
to do exactly if its mark does not stand behind all free blocks. -/
theorem alloc_exact_iff {nblocks : Nat} {disk : Nat → Bytes} {junk : Dinode} {s : Fs}
    {calls : List BlockCall} (hmin : 1024 ≤ nblocks) (hmax : nblocks < 2 ^ 19 + 2)
    (hmake : Fs.makeFs nblocks disk junk = .ok s)
    (hrun : Run BlockStep (Fs.mount s).dev calls d) : AllocExact d ↔ HintOk d :=
  (hrun.invariant (I := Space) (fun _ _ _ h hs => h.step hs)
    (Fs.makeFs_space hmin hmax hmake)).allocExact_iff

theorem alloc_exact_first : ∃ s, Fs.makeFs 1024 (fun _ _ => 0) ⟨0, 0, 0, 0, 0, fun _ => 0⟩ = .ok s ∧
    (AllocExact (Fs.mount s).dev ↔ HintOk (Fs.mount s).dev) := by
  have hmake : ((Fs.makeFs 1024 (fun _ _ => 0) ⟨0, 0, 0, 0, 0, fun _ => 0⟩).toOption.map
      fun _ => 0) = some 0 := by
    decide +kernel
  obtain ⟨s, hs, -⟩ := Option.map_eq_some_iff.mp hmake
  have hs := toOption_ok hs
  exact ⟨s, hs, alloc_exact_iff (by decide) (by decide) hs (.nil _)⟩

/-! ## Filling the disk -/

/-- The mark is a bitmap block, no block before it is free, and block `top` was not taken before
the mark came to its bitmap block. -/
structure Filling (top : Nat) (d : Dev Super) : Prop where
  space : Space d
  mark : d.al.nextFreeBitmap < d.al.genericBlockStart
  before : ∀ b, GenericFree d b → d.al.nextFreeBitmap ≤ bitmapBlockIndex + b / bitmapBlockSize
  top : blockBit d top = true → bitmapBlockIndex + top / bitmapBlockSize ≤ d.al.nextFreeBitmap

theorem Filling.first {top : Nat} (h : Filling top d) : firstBitmap d.al = d.al.nextFreeBitmap :=
  if_neg (Nat.not_le.mpr h.mark)

theorem Filling.took {top : Nat} (h : Filling top d) (ht : Takes d b bi) :
    Filling top (bitStore bitmapSet b (d.al.took bi) d) := by
  have hge := ht.ge
  rw [h.first] at hge
  refine ⟨h.space.took ht, ht.lt, fun x hx => ?_, fun hx => ?_⟩
  · obtain ⟨h1, h2, h3⟩ := hx
    rw [blockBit_set, Bool.or_eq_false_iff] at h3
    refine Nat.le_of_not_lt fun hlt => ?_
    have hset := ht.before x (h.first ▸ h.before x ⟨h1, h2, h3.2⟩) hlt
    rw [h3.2] at hset
    cases hset
  · rw [blockBit_set, Bool.or_eq_true, beq_iff_eq] at hx
    rcases hx with rfl | hx
    · exact Nat.le_of_eq ht.bitmap
    · exact Nat.le_trans (h.top hx) hge

/-- `alloc_block` fills the disk. -/
theorem Filling.fill {top : Nat} : ∀ {n : Nat} {d : Dev Super}, Filling top d →
    d.al.totalGenericBlocks - d.al.usedGenericBlocks = n →
    ∃ calls d', Run BlockStep d calls d' ∧ Filling top d' ∧ SameLayout d.al d'.al ∧
      ∀ b, ¬ GenericFree d' b := by
  intro n
  induction n with
  | zero =>
    intro d h hn
    exact absurd h.space.not_full (Nat.not_lt.mpr (Nat.sub_eq_zero_iff_le.mp hn))
  | succ n ih =>
    intro d h hn
    rcases h.space.allocBlock_cases with ⟨b, bi, ht⟩ | ⟨-, hall⟩
    · have hn' : d.al.totalGenericBlocks - (d.al.usedGenericBlocks + 1) = n := by
        rw [Nat.sub_add_eq, hn, Nat.add_sub_cancel]
      obtain ⟨calls, d', hrun, hfill, hlayout, hfull⟩ := ih (h.took ht) hn'
      exact ⟨_, d', (Run.single (.alloc ht.result)).append hrun, hfill, hlayout, hfull⟩
    · refine ⟨[], d, .nil d, h, .refl _, fun b hb => ?_⟩
      have hlt := hall b hb
      rw [h.first] at hlt
      exact Nat.not_le.mpr hlt (h.before b hb)

/-- On a disk of 8200 blocks, that is with bits in two bitmap blocks, all blocks are taken and then
block 100 is freed: `alloc_block` fails. -/
theorem alloc_not_exact : ∃ s calls d,
    Fs.makeFs 8200 (fun _ _ => 0) ⟨0, 0, 0, 0, 0, fun _ => 0⟩ = .ok s ∧
    Run BlockStep (Fs.mount s).dev calls d ∧ ¬ AllocExact d := by
  have hmake : ((Fs.makeFs 8200 (fun _ _ => 0) ⟨0, 0, 0, 0, 0, fun _ => 0⟩).toOption.map fun s =>
      (s.dev.al.nextFreeBitmap, blockBit s.dev 8199)) = some (2, false) := by
    decide +kernel
  obtain ⟨s, hs, hmark⟩ := Option.map_eq_some_iff.mp hmake
  have hs := toOption_ok hs
  obtain ⟨hmark, hbit⟩ := Prod.mk.inj hmark
  have hspace := Fs.makeFs_space (by decide) (by decide) hs
  obtain ⟨htotal, hstart, -⟩ := Fs.makeFs_layout (by decide) hs
  have hstart : (Fs.mount s).dev.al.genericBlockStart = 6 := hstart.trans (by decide +kernel)
  have htotal : (Fs.mount s).dev.al.totalBlocks = 8200 := htotal
  have hfill : Filling 8199 (Fs.mount s).dev := by
    refine ⟨hspace, ?_, fun b _ => ?_, fun h => ?_⟩
    · rw [hstart]
      show s.dev.al.nextFreeBitmap < 6
      rw [hmark]
      decide
    · exact Nat.le_trans (Nat.le_of_eq hmark) (Nat.le_add_right 2 _)
    · exact absurd (hbit.symm.trans h) (by decide)
  obtain ⟨calls, d, hrun, hd, hlayout, hfull⟩ := hfill.fill rfl
  rw [SameLayout, htotal, hstart] at hlayout
  have hused : ∀ b, 6 ≤ b → b < 8200 → blockBit d b = true := by
    refine fun b h1 h2 => all_used_iff.mpr hfull b ?_ ?_
    · rwa [hlayout.2.1]
    · rwa [hlayout.1]
  have hb : GenericUsed d 100 := by
    rw [GenericUsed, hlayout.1, hlayout.2.1]
    exact ⟨by decide, by decide, hused 100 (by decide) (by decide)⟩
  have hrun' := hrun.snoc (.free hb)
  refine ⟨s, _, _, hs, hrun', fun hexact => ?_⟩
  have hspace' : Space (freeBlock 100 d) := hd.space.step (.free hb)
  have hal : (freeBlock 100 d).al.genericBlockStart = 6 ∧ (freeBlock 100 d).al.totalBlocks = 8200 ∧
      (freeBlock 100 d).al.nextFreeBitmap = d.al.nextFreeBitmap := by
    rw [freeBlock, if_neg (Nat.not_le.mpr hb.2.1)]
    exact ⟨hlayout.2.1, hlayout.1, rfl⟩
  have hone : ∀ b, GenericFree (freeBlock 100 d) b ↔ b = 100 := by
    intro b
    have hspec := (freeBlock_spec hd.space.ok hb).2.1 b
    rw [GenericUsed, GenericUsed, hal.1, hal.2.1, hlayout.1, hlayout.2.1] at hspec
    rw [GenericFree, hal.1, hal.2.1]
    constructor
    · rintro ⟨h1, h2, h3⟩
      by_contra hne
      have h4 := (hspec.mpr ⟨hne, h1, h2, hused b h1 h2⟩).2.2
      rw [h3] at h4
      cases h4
    · rintro rfl
      refine ⟨by decide, by decide, Bool.eq_false_iff.mpr fun h => ?_⟩
      exact (hspec.mp ⟨by decide, by decide, h⟩).1 rfl
  have hmark : 3 ≤ firstBitmap (freeBlock 100 d).al := by
    rw [firstBitmap, if_neg, hal.2.2]
    · exact hd.top (hused 8199 (by decide) (by decide))
    · rw [hal.1, hal.2.2, ← hlayout.2.1]
      exact Nat.not_le.mpr hd.mark
  rcases hspace'.allocExact_iff.mp hexact with ⟨b, hfree, hle⟩ | hnone
  · rw [(hone b).mp hfree] at hle
    exact absurd (Nat.le_trans hmark hle) (by decide)
  · exact hnone 100 ((hone 100).mpr rfl)

end CoroCore.Nfs
