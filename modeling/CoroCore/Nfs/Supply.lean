import CoroCore.Nfs.AllocFull
import CoroCore.Nfs.Exhausted
import Mathlib.Data.Finset.Card
import Mathlib.Data.Finset.Image

/-!
# The blocks that a write needs

A write within one page calls the allocator once for each slot on the way to this page that is empty
(`lacking`). It is done if the allocator has so many blocks to give (`dataRw_done`). What an
allocator has to give is a `Budget`: for `alloc_block` the free blocks from its mark on
(`Supplies`), and none at all for a caller that holds `nfs::lock`.
-/

namespace CoroCore.Nfs

open Lib

/-! ## The way to a page -/

/-- The slots that lead to page `g` of a file. -/
def slotsTo (g : Nat) : Finset Slot :=
  insert (slotAt g) (if g < numDirectData then ∅
    else (Finset.range ((g - numDirectData) / numAddrs + 1)).image Slot.link)

theorem slotAt_mem (g : Nat) : slotAt g ∈ slotsTo g := Finset.mem_insert_self _ _

theorem link_mem {g k : Nat} (hg : numDirectData ≤ g) (hk : k ≤ (g - numDirectData) / numAddrs) :
    Slot.link k ∈ slotsTo g := by
  rw [slotsTo, if_neg (Nat.not_lt.mpr hg)]
  exact Finset.mem_insert_of_mem
    (Finset.mem_image_of_mem _ (Finset.mem_range.mpr (Nat.lt_succ_of_le hk)))

/-- What an allocator has to give: with `Has k` it can be called `k` times. -/
structure Budget {α : Type} (A : AllocModel α) where
  Has : Nat → Dev α → Prop
  mono : ∀ {j k d}, j ≤ k → Has k d → Has j d
  take : ∀ {k d}, A.Ok d → Has (k + 1) d → ∃ b e, A.alloc d = .ok (b, e) ∧ Has k e
  store : ∀ {k d b} (blk : Bytes), A.Ok d → A.Used d b → Has k d → Has k (d.store b blk)

/-! ## What the allocators have to give -/

/-- The free blocks to which `alloc_block` can still come. -/
def reachable (d : Dev Super) : Finset Nat :=
  (Finset.range d.al.totalBlocks).filter fun b =>
    GenericFree d b ∧ firstBitmap d.al ≤ bitmapBlockIndex + b / bitmapBlockSize

/-- `alloc_block` can be called `k` times. -/
def Supplies (k : Nat) (d : Dev Super) : Prop :=
  0 < k → d.al.usedGenericBlocks + k ≤ d.al.totalGenericBlocks ∧ k ≤ (reachable d).card

section Supplies

variable {d : Dev Super} {b bi k : Nat}

theorem mem_reachable {x : Nat} : x ∈ reachable d ↔
    GenericFree d x ∧ firstBitmap d.al ≤ bitmapBlockIndex + x / bitmapBlockSize := by
  rw [reachable, Finset.mem_filter, Finset.mem_range]
  exact and_iff_right_of_imp fun h => h.1.2.1

/-- The blocks but the one taken can still be reached: none of them lies before it. -/
theorem Takes.reachable (ht : Takes d b bi) :
    reachable d ⊆ insert b (reachable (bitStore bitmapSet b (d.al.took bi) d)) := by
  intro x hx
  obtain ⟨⟨hge, hlt, hbit⟩, hfirst⟩ := mem_reachable.mp hx
  rcases eq_or_ne x b with rfl | hne
  · exact Finset.mem_insert_self _ _
  refine Finset.mem_insert_of_mem (mem_reachable.mpr ⟨⟨hge, hlt, ?_⟩, ?_⟩)
  · rw [blockBit_set, hbit, beq_false_of_ne hne, Bool.or_false]
  · have hmark : firstBitmap (d.al.took bi) = bi := if_neg (Nat.not_le.mpr ht.lt)
    show firstBitmap (d.al.took bi) ≤ _
    rw [hmark]
    refine Nat.le_of_not_lt fun hbefore => ?_
    rw [ht.before x hfirst hbefore] at hbit
    cases hbit

theorem Supplies.take (h : AllocOk d) (hs : Supplies (k + 1) d) :
    ∃ b e, allocBlock d = .ok (b, e) ∧ Supplies k e := by
  obtain ⟨hcount, hcard⟩ := hs k.succ_pos
  rcases h.allocBlock_cases (Nat.lt_of_lt_of_le (Nat.lt_add_of_pos_right k.succ_pos) hcount) with
    ⟨b, bi, ht⟩ | ⟨-, hall⟩
  · refine ⟨b, _, ht.result, fun _ => ⟨?_, ?_⟩⟩
    · show d.al.usedGenericBlocks + 1 + k ≤ d.al.totalGenericBlocks
      rwa [Nat.add_assoc, Nat.add_comm 1]
    · have hless := (Finset.card_le_card ht.reachable).trans (Finset.card_insert_le _ _)
      exact Nat.le_of_succ_le_succ (hcard.trans hless)
  · -- a block that can be reached would have been found
    obtain ⟨x, hx⟩ := Finset.card_pos.mp (Nat.lt_of_lt_of_le k.succ_pos hcard)
    obtain ⟨hfree, hge⟩ := mem_reachable.mp hx
    exact absurd (hall x hfree) (Nat.not_lt.mpr hge)

theorem Supplies.store (blk : Bytes) (h : AllocOk d) (hb : GenericUsed d b) (hs : Supplies k d) :
    Supplies k (d.store b blk) := by
  have hsame : reachable (d.store b blk) = reachable d := by
    ext x
    rw [mem_reachable, mem_reachable]
    have hfree : GenericFree (d.store b blk) x ↔ GenericFree d x := by
      refine and_congr_right fun _ => and_congr_right fun hx => ?_
      have hlow : bitmapBlockIndex + x / bitmapBlockSize < d.al.genericBlockStart := h.bitmap_lt hx
      rw [blockBit, Dev.store_of_ne (Nat.ne_of_lt (Nat.lt_of_lt_of_le hlow hb.1)), blockBit]
    exact and_congr hfree Iff.rfl
  intro hk
  refine ⟨(hs hk).1, ?_⟩
  rw [hsame]
  exact (hs hk).2

/-- `alloc_block` has the blocks that it can reach. -/
def blockBudget : Budget bitmapModel where
  Has := Supplies
  mono h hs hj := by
    obtain ⟨hcount, hcard⟩ := hs (Nat.lt_of_lt_of_le hj h)
    exact ⟨(Nat.add_le_add_left h _).trans hcount, h.trans hcard⟩
  take h hs := hs.take h
  store blk h hb hs := hs.store blk h hb

end Supplies

namespace Store

variable {ι α : Type} {A : AllocModel α} {B : Budget A} {i : ι} {g : Nat} {s t : Store ι α}

/-- The slots on the way to page `g` that are empty. -/
def gaps (s : Store ι α) (i : ι) (g : Nat) : Finset Slot :=
  (slotsTo g).filter fun p => s.refs (i, p) = none

/-- How many blocks a write to page `g` needs. -/
def lacking (s : Store ι α) (i : ι) (g : Nat) : Nat := (s.gaps i g).card

theorem mem_gaps {p : Slot} : p ∈ s.gaps i g ↔ p ∈ slotsTo g ∧ s.refs (i, p) = none :=
  Finset.mem_filter

theorem gaps_subset (hrefs : ∀ q b, s.refs q = some b → t.refs q = some b) :
    t.gaps i g ⊆ s.gaps i g := by
  intro p hp
  obtain ⟨hmem, hnone⟩ := mem_gaps.mp hp
  refine mem_gaps.mpr ⟨hmem, Option.eq_none_iff_forall_ne_some.mpr fun b hb => ?_⟩
  rw [hrefs _ _ hb] at hnone
  cases hnone

theorem lacking_le (hrefs : ∀ q b, s.refs q = some b → t.refs q = some b) :
    t.lacking i g ≤ s.lacking i g := Finset.card_le_card (gaps_subset hrefs)

theorem lacking_lt {p : Slot} (hrefs : ∀ q b, s.refs q = some b → t.refs q = some b)
    (hp : p ∈ s.gaps i g) (ht : (t.refs (i, p)).isSome) : t.lacking i g < s.lacking i g := by
  refine Finset.card_lt_card ⟨gaps_subset hrefs, fun hsub => ?_⟩
  rw [(mem_gaps.mp (hsub hp)).2] at ht
  cases ht

/-- The budget is enough for the rest of the way. -/
def Funded (B : Budget A) (i : ι) (g : Nat) (s : Store ι α) : Prop := B.Has (s.lacking i g) s.dev

/-- A block for an empty slot. -/
theorem Owned.take {p : Slot} (h : s.Owned A) (hf : Funded B i g s) (hp : p ∈ s.gaps i g) :
    ∃ b d k, A.alloc s.dev = .ok (b, d) ∧ B.Has k d ∧
      ∀ t : Store ι α, (∀ q c, s.refs q = some c → t.refs q = some c) → (t.refs (i, p)).isSome →
        t.lacking i g ≤ k := by
  obtain ⟨k, hk⟩ : ∃ k, s.lacking i g = k + 1 :=
    Nat.exists_eq_succ_of_ne_zero (Finset.card_ne_zero_of_mem hp)
  rw [Funded, hk] at hf
  obtain ⟨b, d, ha, hd⟩ := B.take h.ok hf
  exact ⟨b, d, k, ha, hd, fun t hrefs ht =>
    Nat.le_of_lt_succ ((lacking_lt hrefs hp ht).trans_eq hk)⟩

/-! ## A write within one page -/

variable [DecidableEq ι]

theorem directDataBlockRw_done {k : Nat} (off pos size : Nat) (buf : Bytes) (h : s.Owned A)
    (hk : k < numDirectData) (hf : Funded B i k s) :
    ∃ r, directDataBlockRw A.alloc true i k off pos size buf s = .ok r := by
  unfold directDataBlockRw
  split
  · next hnone =>
    have hgap : Slot.direct k ∈ s.gaps i k := by
      refine mem_gaps.mpr ⟨slotAt_direct hk ▸ slotAt_mem k, ?_⟩
      rw [refs_eq, slotRef, if_pos hk, hnone, toRef_none32]
    obtain ⟨b, d, -, ha, -⟩ := h.take hf hgap
    rw [if_pos rfl, ha]
    exact ⟨_, rfl⟩
  · exact ⟨_, rfl⟩

omit [DecidableEq ι] in
theorem dataBlockRw_done {k j c : Nat} (off pos size : Nat) (buf : Bytes) (h : s.Owned A)
    (hc : s.refs (i, .link k) = some c) (hj : j < numAddrs) (hp : Slot.entry k j ∈ slotsTo g)
    (hf : Funded B i g s) : ∃ r, dataBlockRw A.alloc true c j off pos size buf s = .ok r := by
  unfold dataBlockRw
  split
  · next hnone =>
    have hgap : Slot.entry k j ∈ s.gaps i g := by
      refine mem_gaps.mpr ⟨hp, ?_⟩
      rw [refs_eq, slotRef, if_pos hj, show chain _ _ k = some c from hc, Option.bind_some, hnone,
        toRef_none32]
    obtain ⟨b, d, -, ha, -⟩ := h.take hf hgap
    rw [if_pos rfl, ha]
    exact ⟨_, rfl⟩
  · exact ⟨_, rfl⟩

/-- The address blocks that are missing. -/
theorem extend_done (hg : numDirectData ≤ g) : ∀ (fuel k b o : Nat) (s : Store ι α), s.Owned A →
    s.refs (i, .link k) = some b → (o < addrBlockDataSize ∨ nextOf (s.dev.disk b) = none32) →
    k + o / addrBlockDataSize ≤ (g - numDirectData) / numAddrs → Funded B i g s →
    ∃ r, extend A.alloc fuel b o s.dev = .ok r ∧ Funded B i g { s with dev := r.2.2 } := by
  intro fuel
  induction fuel with
  | zero => exact fun k b o s _ _ _ _ hf => ⟨_, rfl, hf⟩
  | succ fuel ih =>
    intro k b o s h hb hend hway hf
    unfold extend
    split
    · exact ⟨_, rfl, hf⟩
    next hlt =>
    have hge : addrBlockDataSize ≤ o := Nat.not_lt.mp hlt
    have hnone := hend.resolve_left hlt
    have hdiv : o / addrBlockDataSize = (o - addrBlockDataSize) / addrBlockDataSize + 1 := by
      rw [← Nat.add_div_right _ (by decide), Nat.sub_add_cancel hge]
    have hnext : k + 1 + (o - addrBlockDataSize) / addrBlockDataSize ≤
        (g - numDirectData) / numAddrs := by omega
    have hgap : Slot.link (k + 1) ∈ s.gaps i g := by
      refine mem_gaps.mpr ⟨link_mem hg ((Nat.le_add_right _ _).trans hnext), ?_⟩
      rw [refs_eq, slotRef, chain, show chain _ _ k = some b from hb, Option.bind_some, hnone,
        toRef_none32]
    obtain ⟨nb, d, m, ha, hd, hless⟩ := h.take hf hgap
    obtain ⟨hok, -, -, hnbused, -, hold⟩ := h.alloc_ok ha
    obtain ⟨hkept, hnb, hlast⟩ := linkBlock_spec h hb hnone ha
    have hst := A.store_ok d nb (blankBlock (d.disk nb)) hok hnbused
    have hfund : Funded B i g { s with dev := linkBlock d b nb } := by
      refine B.mono (hless _ hkept.refs (by rw [hnb]; rfl)) ?_
      exact B.store _ hst.1 ((hst.2 b).mpr (hold _ b hb).2.1) (B.store _ hok hnbused hd)
    rw [ha]
    exact ih (k + 1) nb _ { s with dev := linkBlock d b nb } hkept.owned hnb
      (.inr hlast) hnext hfund

theorem getBlockIndex_done {k b o : Nat} (hg : numDirectData ≤ g) (h : s.Owned A)
    (hb : s.refs (i, .link k) = some b)
    (hway : k + o / addrBlockDataSize ≤ (g - numDirectData) / numAddrs) (hf : Funded B i g s) :
    ∃ ab d, getBlockIndex A.alloc b o s.dev =
        .ok (ab, o % addrBlockDataSize / blockSize, o % blockSize, d) ∧
      Kept A i s { s with dev := d } ∧
      Store.refs { s with dev := d } (i, .link (k + o / addrBlockDataSize)) = some ab ∧
      Funded B i g { s with dev := d } := by
  obtain ⟨m, b', o', hw, hc, ho, hstop⟩ :=
    walk_spec (o / addrBlockDataSize) k b o (by simp only [addrBlockDataSize]; omega) hb
  obtain ⟨⟨ab', o'', d'⟩, hext, hfund⟩ :=
    extend_done hg (o' / addrBlockDataSize) (k + m) b' o' s h hc
    hstop (by simp only [addrBlockDataSize] at *; omega) hf
  have hres : getBlockIndex A.alloc b o s.dev =
      .ok (ab', o'' / blockSize, o'' % blockSize, d') := by
    unfold getBlockIndex
    simp only [hw, hext]
  rcases getBlockIndex_cases (o := o) h hb with ⟨d, hget, -⟩ | ⟨ab, d, hget, hkept, hlink⟩
  · rw [hget] at hres
    cases hres
  · obtain rfl : d = d' := by
      rw [hget] at hres
      exact congrArg (fun r => r.2.2.2) (Except.ok.inj hres)
    exact ⟨ab, d, hget, hkept, hlink, hfund⟩

theorem firstAddrBlock_done (hg : numDirectData ≤ g) (h : s.Owned A)
    (hnone : (s.ino i).nextAddrBlock = none32) (hf : Funded B i g s) :
    ∃ t, firstAddrBlock A.alloc i s = .ok t ∧ Kept A i s t ∧
      t.refs (i, .link 0) = some (t.ino i).nextAddrBlock ∧ Funded B i g t := by
  have hgap : Slot.link 0 ∈ s.gaps i g := by
    refine mem_gaps.mpr ⟨link_mem hg (Nat.zero_le _), ?_⟩
    rw [refs_eq, slotRef, chain, hnone, toRef_none32]
  obtain ⟨b, d, m, ha, hd, hless⟩ := h.take hf hgap
  obtain ⟨hok, -, -, hbused, -, -⟩ := h.alloc_ok ha
  have hfirst := firstAddrBlock_spec h hnone
  unfold firstAddrBlock at hfirst ⊢
  rw [ha] at hfirst ⊢
  obtain ⟨hkept, hlink⟩ := hfirst
  exact ⟨_, rfl, hkept, hlink, B.mono (hless _ hkept.refs (by rw [hlink]; rfl))
    (B.store _ hok hbused hd)⟩

/-- The last loop, of one round. -/
theorem indirectLoop_done {k cur o : Nat} (pos size : Nat) (buf : Bytes) (hg : numDirectData ≤ g)
    (h : s.Owned A) (hcur : s.refs (i, .link k) = some cur)
    (hblock : o % blockSize + size ≤ blockSize)
    (hpage : g = numDirectData + (k * addrBlockDataSize + o) / blockSize) (hf : Funded B i g s) :
    ∃ r, indirectLoop A.alloc true size cur o pos size buf s = .ok r := by
  cases size with
  | zero => exact ⟨_, rfl⟩
  | succ fuel =>
    have hmin : min (fuel + 1) (blockSize - o % blockSize) = fuel + 1 := by omega
    have hentry : slotAt g =
        .entry (k + o / addrBlockDataSize) (o % addrBlockDataSize / blockSize) := by
      rw [hpage, ← slotAt_entry (by simp only [numAddrs, addrBlockDataSize, blockSize]; omega)]
      congr 1
      simp only [numDirectData, numAddrs, addrBlockDataSize, blockSize]
      omega
    have hway : k + o / addrBlockDataSize ≤ (g - numDirectData) / numAddrs := by
      rw [hpage]
      simp only [numDirectData, numAddrs, addrBlockDataSize, blockSize]
      omega
    obtain ⟨ab, d, hget, hkept, hlink, hfund⟩ := getBlockIndex_done hg h hcur hway hf
    obtain ⟨r, hrw⟩ := dataBlockRw_done (o % blockSize) pos (fuel + 1) buf hkept.owned hlink
      (show o % addrBlockDataSize / blockSize < numAddrs by
        simp only [numAddrs, addrBlockDataSize, blockSize]
        omega)
      (hentry ▸ slotAt_mem g) hfund
    rw [indirectLoop, if_pos (Nat.succ_pos fuel), hget]
    simp only [hmin, Nat.sub_self, hrw, indirectLoop_zero]
    exact ⟨_, rfl⟩

/-- A write within one page is done if there are as many blocks as it needs. -/
theorem dataRw_done {offset size : Nat} (buf : Bytes) (h : s.Owned A)
    (hpos : s.PosAt i (offset - directDataSize)) (hblock : offset % blockSize + size ≤ blockSize)
    (hf : Funded B i (offset / blockSize) s) :
    ∃ r, dataRw A.alloc true i offset size buf s = .ok r := by
  cases size with
  | zero => exact ⟨_, rfl⟩
  | succ fuel =>
    rcases Nat.lt_or_ge offset directDataSize with hlt | hge
    · have hk : offset / blockSize < numDirectData := by
        simp only [blockSize, numDirectData, directDataSize] at *
        omega
      obtain ⟨r, hrw⟩ := directDataBlockRw_done (offset % blockSize) 0 (fuel + 1) buf h hk hf
      rw [dataRw_direct hlt hblock (Nat.succ_pos fuel), hrw]
      exact ⟨_, rfl⟩
    · have hg : numDirectData ≤ offset / blockSize := by
        simp only [blockSize, numDirectData, directDataSize] at *
        omega
      have hlast : ∀ u : Store ι α, u.Owned A → u.PosAt i (offset - directDataSize) →
          u.refs (i, .link 0) = some (u.ino i).nextAddrBlock → Funded B i (offset / blockSize) u →
          ∃ r, indirectRw A.alloc true i (offset - directDataSize) 0 (fuel + 1) buf u = .ok r := by
        intro u hu hup hlink hfund
        obtain ⟨k, hcur, hk⟩ := startAt_spec hlink hup
        obtain ⟨r, hloop⟩ := indirectLoop_done
          (o := (startAt (u.ino i) (offset - directDataSize)).2) 0 (fuel + 1) buf hg hu hcur
          (by simp only [blockSize, addrBlockDataSize, directDataSize] at *; omega)
          (by rw [hk]; simp only [blockSize, numDirectData, directDataSize] at *; omega) hfund
        unfold indirectRw
        rw [hloop]
        exact ⟨_, rfl⟩
      rw [dataRw, directLoop_far hge]
      simp only [if_neg (Nat.succ_ne_zero fuel), if_true]
      split
      · next hnone =>
        obtain ⟨t, hfirst, hkept, hlink, hfund⟩ := firstAddrBlock_done hg h hnone hf
        rw [hfirst]
        exact hlast t hkept.owned (hkept.pos _ hpos) hlink hfund
      · next hsome =>
        refine hlast s h hpos ?_ hf
        rw [refs_eq, slotRef, chain, toRef, if_neg hsome]

end Store

/-! ## The inode table -/

namespace Fs

variable {s t : Fs} {A : AllocModel Super} {B : Budget A} {live : List Nat} {n j : Nat}

/-- How many blocks the inode table needs for `dinode` `n`. -/
def tableLacks (s : Fs) (n : Nat) : Nat := (loadTable s).lacking 0 (n * dinodeSize / blockSize)

/-- A `dinode` is written if the table has a block for it, or gets one. -/
theorem writeDinodeWith_done (x : Dinode) (h : Core s) (hown : (loadTable s).Owned A)
    (hn : n * dinodeSize + dinodeSize < 2 ^ 32) (hhas : B.Has (tableLacks s n) s.dev) :
    ∃ t, writeDinodeWith A.alloc n x s = .ok t := by
  obtain ⟨htab, -, -⟩ := loadTable_spec h
  rw [← loadTable_dev (s := s)] at hhas
  obtain ⟨r, hr⟩ := Store.dataRw_done x.encode hown
    (htab.core.pos _ (offset_lt hn)) (dinode_block n) hhas
  rw [writeDinodeWith, Store.write, hr]
  simp only
  split
  · exact ⟨_, rfl⟩
  · exact ⟨_, rfl⟩

theorem writeDinode_done (x : Dinode) (h : Core s) (hn : n * dinodeSize + dinodeSize < 2 ^ 32)
    (hs : Supplies (tableLacks s n) s.dev) : ∃ t, writeDinode n x s = .ok t := by
  obtain ⟨htab, -, -⟩ := loadTable_spec h
  exact writeDinodeWith_done (B := blockBudget) x h htab.core.owned hn hs

end Fs

end CoroCore.Nfs
