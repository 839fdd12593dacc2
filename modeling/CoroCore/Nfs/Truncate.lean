import CoroCore.Nfs.Alloc
import CoroCore.Nfs.DataRw
import Mathlib.Data.Finset.Card

/-!
# `nfs_inode::truncate`

`truncate(0)` gives back the direct data blocks, then walks the chain of address blocks and
gives back the entries of each and the block itself. `truncate_spec`: the blocks of the inode
are exactly those given back, and no other file notices.

A block may be in use with no reference left to it, after a failed write for instance. `L` is
the set of these blocks; `AllocModel.without` is the allocator that leaves them aside.
-/

namespace CoroCore.Nfs

open Lib

/-- The blocks of `L` are in use for good. -/
def AllocModel.without {α : Type} (A : AllocModel α) (L : Set Nat) : AllocModel α where
  alloc := A.alloc
  Ok d := A.Ok d ∧ ∀ b ∈ L, A.Used d b
  Used d b := A.Used d b ∧ b ∉ L
  alloc_ok := by
    rintro d b d' ⟨hok, hL⟩ heq
    obtain ⟨hok', hlt, hfresh, hused, hdisk⟩ := A.alloc_ok d b d' hok heq
    refine ⟨⟨hok', fun x hx => (hused x).mpr (.inr (hL x hx))⟩, hlt, fun hb => hfresh hb.1,
      fun x => ?_, fun x hx => hdisk x hx.1⟩
    rw [hused]
    constructor
    · rintro ⟨rfl | hx, hxL⟩
      · exact .inl rfl
      · exact .inr ⟨hx, hxL⟩
    · rintro (rfl | ⟨hx, hxL⟩)
      · exact ⟨.inl rfl, fun hxL => hfresh (hL x hxL)⟩
      · exact ⟨.inr hx, hxL⟩
  alloc_error := by
    rintro d d' ⟨hok, hL⟩ heq
    obtain ⟨hok', hused, hdisk⟩ := A.alloc_error d d' hok heq
    exact ⟨⟨hok', fun x hx => (hused x).mpr (hL x hx)⟩, fun x => and_congr_left' (hused x),
      fun x hx => hdisk x hx.1⟩
  store_ok := by
    rintro d b blk ⟨hok, hL⟩ hb
    obtain ⟨hok', hused⟩ := A.store_ok d b blk hok hb.1
    exact ⟨⟨hok', fun x hx => (hused x).mpr (hL x hx)⟩, fun x => and_congr_left' (hused x)⟩

/-- Give back the block in a slot, if there is one. -/
def freeRef (w : Nat) (d : Dev Super) : Dev Super := if w = none32 then d else freeBlock w d

/-- The first `n` rounds of the loop over the direct addresses. -/
def freeDirect (addrs : Nat → Nat) : Nat → Dev Super → Dev Super
  | 0, d => d
  | n + 1, d => freeRef (addrs n) (freeDirect addrs n d)

/-- The first `n` rounds of the loop over the entries of the address block `ab`. -/
def freeEntries (ab : Nat) : Nat → Dev Super → Dev Super
  | 0, d => d
  | n + 1, d => freeRef (addrAt ((freeEntries ab n d).disk ab) n) (freeEntries ab n d)

/-- The loop over the chain of address blocks. -/
def freeChain : Nat → Nat → Dev Super → Dev Super
  | 0, _, d => d
  | fuel + 1, b, d =>
    if b = none32 then d
    else freeChain fuel (nextOf ((freeEntries b numAddrs d).disk b))
      (freeBlock b (freeEntries b numAddrs d))

namespace Store

variable {ι : Type}

/-- `nfs_inode::truncate(0)` of a loaded inode. A chain of distinct blocks is no longer than
the device. -/
def truncate [DecidableEq ι] (i : ι) (s : Store ι Super) : Store ι Super :=
  if (s.ino i).size = 0 then s
  else
    { s with
      dev := freeChain s.dev.al.totalBlocks (s.ino i).nextAddrBlock
        (freeDirect (s.ino i).addrs numDirectData s.dev) }.setIno i
      { s.ino i with addrs := fun _ => none32, nextAddrBlock := none32, size := 0, dirty := true }

/-- `d` comes from the device of `s` by giving back the blocks in the slots `P` of inode `i`. -/
structure Freed (s : Store ι Super) (i : ι) (P : Slot → Prop) (d : Dev Super) : Prop where
  ok : AllocOk d
  start : d.al.genericBlockStart = s.dev.al.genericBlockStart
  used : ∀ x, GenericUsed d x ↔ GenericUsed s.dev x ∧ ∀ p, P p → s.refs (i, p) ≠ some x
  disk : ∀ x, s.dev.al.genericBlockStart ≤ x → d.disk x = s.dev.disk x

variable {s : Store ι Super} {i : ι} {P Q : Slot → Prop} {d : Dev Super}

theorem Freed.congr (h : Freed s i P d) (hPQ : ∀ p, P p ↔ Q p) : Freed s i Q d := by
  have : P = Q := funext fun p => propext (hPQ p)
  rwa [← this]

/-- Each block is referenced from one slot, and in use. -/
structure Sound (s : Store ι Super) : Prop where
  inj : ∀ p q b, s.refs p = some b → s.refs q = some b → p = q
  used : ∀ p b, s.refs p = some b → GenericUsed s.dev b

theorem freeBlock_start (b : Nat) (d : Dev Super) :
    (freeBlock b d).al.genericBlockStart = d.al.genericBlockStart := by
  unfold freeBlock
  split <;> rfl

/-- One more slot. -/
theorem Freed.slot (h : Freed s i P d) (hs : s.Sound) {q : Slot} {w : Nat} (hq : ¬ P q)
    (hw : s.refs (i, q) = toRef w) : Freed s i (fun p => P p ∨ p = q) (freeRef w d) := by
  unfold freeRef
  split
  · next hnone =>
    rw [hnone, toRef_none32] at hw
    refine ⟨h.ok, h.start, fun x => ?_, h.disk⟩
    rw [h.used]
    refine and_congr_right fun _ => ⟨fun hP p hp => ?_, fun hP p hp => hP p (.inl hp)⟩
    rcases hp with hp | rfl
    · exact hP p hp
    · rw [hw]
      exact fun he => nomatch he
  · next hne =>
    have hw : s.refs (i, q) = some w := hw.trans (if_neg hne)
    have hfree : GenericUsed d w := by
      refine (h.used w).mpr ⟨hs.used _ _ hw, fun p hp he => ?_⟩
      have hpq := hs.inj _ _ _ he hw
      exact hq ((Prod.mk.inj hpq).2 ▸ hp)
    obtain ⟨hok, hused, hdisk⟩ := freeBlock_spec h.ok hfree
    refine ⟨hok, (freeBlock_start w d).trans h.start, fun x => ?_, fun x hx => ?_⟩
    · rw [hused, h.used]
      constructor
      · rintro ⟨hxw, hx, hP⟩
        refine ⟨hx, fun p hp he => ?_⟩
        rcases hp with hp | rfl
        · exact hP p hp he
        · exact hxw (Option.some.inj (he.symm.trans hw))
      · rintro ⟨hx, hP⟩
        refine ⟨fun he => hP q (.inr rfl) (he ▸ hw), hx, fun p hp => hP p (.inl hp)⟩
    · rw [hdisk x (h.start.symm ▸ hx), h.disk x hx]

theorem freeDirect_spec (hok : AllocOk s.dev) (hs : s.Sound) : ∀ n ≤ numDirectData,
    Freed s i (fun p => ∃ k < n, p = .direct k) (freeDirect (s.ino i).addrs n s.dev) := by
  intro n
  induction n with
  | zero =>
    intro _
    refine ⟨hok, rfl, fun x => ?_, fun _ _ => rfl⟩
    exact (and_iff_left fun p hp => by obtain ⟨k, hk, -⟩ := hp; cases hk).symm
  | succ n ih =>
    intro hn
    refine ((ih (Nat.le_of_succ_le hn)).slot (q := .direct n) hs ?_ ?_).congr fun p => ?_
    · rintro ⟨k, hk, he⟩
      cases he
      exact Nat.lt_irrefl n hk
    · rw [refs_eq, slotRef, if_pos (Nat.lt_of_succ_le hn)]
    · constructor
      · rintro (⟨k, hk, rfl⟩ | rfl)
        · exact ⟨k, Nat.lt_succ_of_lt hk, rfl⟩
        · exact ⟨n, Nat.lt_succ_self n, rfl⟩
      · rintro ⟨k, hk, rfl⟩
        rcases Nat.lt_succ_iff_lt_or_eq.mp hk with hk | rfl
        · exact .inl ⟨k, hk, rfl⟩
        · exact .inr rfl

theorem freeEntries_spec (h : Freed s i P d) (hs : s.Sound) {k ab : Nat}
    (hab : s.refs (i, .link k) = some ab) (hP : ∀ j, ¬ P (.entry k j)) : ∀ n ≤ numAddrs,
    Freed s i (fun p => P p ∨ ∃ j < n, p = .entry k j) (freeEntries ab n d) := by
  intro n
  induction n with
  | zero =>
    intro _
    refine h.congr fun p => (or_iff_left ?_).symm
    rintro ⟨j, hj, -⟩
    cases hj
  | succ n ih =>
    intro hn
    have hd := ih (Nat.le_of_succ_le hn)
    have hentry : s.refs (i, .entry k n) = toRef (addrAt ((freeEntries ab n d).disk ab) n) := by
      rw [hd.disk ab (hs.used _ _ hab).1, refs_eq, slotRef, if_pos (Nat.lt_of_succ_le hn)]
      rw [refs_eq, slotRef] at hab
      rw [hab, Option.bind_some]
    refine (hd.slot (q := .entry k n) hs ?_ hentry).congr fun p => ?_
    · rintro (hp | ⟨j, hj, he⟩)
      · exact hP n hp
      · cases he
        exact Nat.lt_irrefl n hj
    · constructor
      · rintro ((hp | ⟨j, hj, rfl⟩) | rfl)
        · exact .inl hp
        · exact .inr ⟨j, Nat.lt_succ_of_lt hj, rfl⟩
        · exact .inr ⟨n, Nat.lt_succ_self n, rfl⟩
      · rintro (hp | ⟨j, hj, rfl⟩)
        · exact .inl (.inl hp)
        · rcases Nat.lt_succ_iff_lt_or_eq.mp hj with hj | rfl
          · exact .inl (.inr ⟨j, hj, rfl⟩)
          · exact .inr rfl

/-- The slots given back before the `k`-th address block. -/
def Below (k : Nat) : Slot → Prop
  | .direct m => m < numDirectData
  | .link m => m < k
  | .entry m j => m < k ∧ j < numAddrs

/-- One round of the loop over the chain. -/
theorem Freed.round {k b : Nat} (h : Freed s i (Below k) d) (hs : s.Sound)
    (hb : s.refs (i, .link k) = some b) (hne : b ≠ none32) :
    Freed s i (Below (k + 1)) (freeBlock b (freeEntries b numAddrs d)) ∧
      s.refs (i, .link (k + 1)) = toRef (nextOf ((freeEntries b numAddrs d).disk b)) := by
  have hent := freeEntries_spec h hs hb (fun j hj => Nat.lt_irrefl k hj.1) numAddrs (Nat.le_refl _)
  have hlink := hent.slot (q := .link k) (w := b) hs ?_ (hb.trans (if_neg hne).symm)
  · rw [freeRef, if_neg hne] at hlink
    refine ⟨hlink.congr fun p => ?_, ?_⟩
    · cases p with
      | direct m => simp [Below]
      | link m =>
        simp only [Below, reduceCtorEq, and_false, exists_const, or_false, Slot.link.injEq]
        exact Nat.lt_succ_iff_lt_or_eq.symm
      | entry m j =>
        simp only [Below, Slot.entry.injEq, reduceCtorEq, or_false]
        constructor
        · rintro (⟨h1, h2⟩ | ⟨l, hl, rfl, rfl⟩)
          · exact ⟨Nat.lt_succ_of_lt h1, h2⟩
          · exact ⟨Nat.lt_succ_self m, hl⟩
        · rintro ⟨h1, h2⟩
          rcases Nat.lt_succ_iff_lt_or_eq.mp h1 with h1 | rfl
          · exact .inl ⟨h1, h2⟩
          · exact .inr ⟨j, h2, rfl, rfl⟩
    · rw [hent.disk b (hs.used _ _ hb).1, refs_eq, slotRef, chain]
      rw [refs_eq, slotRef] at hb
      rw [hb, Option.bind_some]
  · rintro (hp | ⟨j, -, he⟩)
    · exact Nat.lt_irrefl k hp
    · cases he

/-- The loop over the chain, with fuel up to its end, and more fuel changes nothing. -/
theorem freeChain_spec (hs : s.Sound) : ∀ (fuel k b : Nat) (d : Dev Super),
    Freed s i (Below k) d → s.refs (i, .link k) = toRef b →
    s.refs (i, .link (k + fuel)) = none →
    (∃ n, s.refs (i, .link n) = none ∧ Freed s i (Below n) (freeChain fuel b d)) ∧
      ∀ more, freeChain (fuel + more) b d = freeChain fuel b d := by
  intro fuel
  induction fuel with
  | zero =>
    intro k b d h hb hend
    refine ⟨⟨k, hend, h⟩, fun more => ?_⟩
    rw [Nat.add_zero] at hend
    have hnone : b = none32 := by
      by_contra hne
      rw [hend, toRef, if_neg hne] at hb
      cases hb
    cases more with
    | zero => rfl
    | succ more =>
      rw [Nat.zero_add]
      exact if_pos hnone
  | succ fuel ih =>
    intro k b d h hb hend
    rw [freeChain]
    simp only [Nat.add_right_comm fuel 1, freeChain]
    split
    · next hnone =>
      rw [hnone, toRef_none32] at hb
      exact ⟨⟨k, hb, h⟩, fun _ => rfl⟩
    · next hne =>
      obtain ⟨hround, hnext⟩ := h.round hs (hb.trans (if_neg hne)) hne
      refine ih (k + 1) _ _ hround hnext ?_
      rwa [Nat.add_right_comm, Nat.add_assoc]

/-- A chain of distinct blocks of the device ends. -/
theorem chain_ends (hs : s.Sound) : s.refs (i, .link s.dev.al.totalBlocks) = none := by
  by_contra hsome
  have hall : ∀ m ≤ s.dev.al.totalBlocks, ∃ b, s.refs (i, .link m) = some b := fun m hm =>
    Option.isSome_iff_exists.mp (chain_isSome_le hm (Option.isSome_iff_ne_none.mpr hsome))
  let f : Nat → Nat := fun m => (s.refs (i, .link m)).getD 0
  have hf : ∀ m ∈ Finset.range (s.dev.al.totalBlocks + 1),
      f m ∈ Finset.range s.dev.al.totalBlocks := by
    intro m hm
    obtain ⟨b, hb⟩ := hall m (Nat.lt_succ_iff.mp (Finset.mem_range.mp hm))
    show (s.refs (i, .link m)).getD 0 ∈ _
    rw [hb]
    exact Finset.mem_range.mpr (hs.used _ _ hb).2.1
  have hcard : (Finset.range s.dev.al.totalBlocks).card <
      (Finset.range (s.dev.al.totalBlocks + 1)).card := by
    rw [Finset.card_range, Finset.card_range]
    exact Nat.lt_succ_self _
  obtain ⟨m, hm, n, hn, hne, heq⟩ := Finset.exists_ne_map_eq_of_card_lt_of_maps_to hcard hf
  obtain ⟨b, hb⟩ := hall m (Nat.lt_succ_iff.mp (Finset.mem_range.mp hm))
  obtain ⟨c, hc⟩ := hall n (Nat.lt_succ_iff.mp (Finset.mem_range.mp hn))
  have hbc : b = c := by
    change (s.refs (i, .link m)).getD 0 = (s.refs (i, .link n)).getD 0 at heq
    rwa [hb, hc] at heq
  have := hs.inj _ _ _ hb (hbc ▸ hc)
  cases this
  exact hne rfl

/-- There are no more address blocks than the device has blocks. -/
theorem link_far {k : Nat} (hs : s.Sound) (hk : s.dev.al.totalBlocks ≤ k) :
    s.refs (i, .link k) = none := by
  by_contra hsome
  have hlink := chain_isSome_le hk (Option.isSome_iff_ne_none.mpr hsome)
  have hnone : s.refs (i, .link s.dev.al.totalBlocks) = none := chain_ends hs
  rw [refs_eq, slotRef] at hnone
  rw [hnone] at hlink
  cases hlink

/-- No block lies behind more address blocks than the device has blocks. -/
theorem byte_far {p : Nat} (hs : s.Sound)
    (hp : directDataSize + s.dev.al.totalBlocks * addrBlockDataSize ≤ p) : s.byte i p = 0 := by
  have hpage : ¬p / blockSize < numDirectData := by
    simp only [directDataSize, blockSize, numDirectData] at *
    omega
  have hle : s.dev.al.totalBlocks ≤ (p / blockSize - numDirectData) / numAddrs := by
    simp only [directDataSize, addrBlockDataSize, blockSize, numDirectData, numAddrs] at *
    omega
  have hend : chain s.dev.disk (s.ino i).nextAddrBlock
      ((p / blockSize - numDirectData) / numAddrs) = none := link_far hs hle
  rw [byte, byteAt, slotAt, if_neg hpage, slotRef, if_pos (Nat.mod_lt _ (by decide)), hend]
  rfl

theorem Sound.of_owned {L : Set Nat} (h : s.Owned (bitmapModel.without L)) : s.Sound :=
  ⟨h.inj, fun p b hp => ((h.used b).mpr ⟨p, hp⟩).1⟩

theorem freed_direct (hok : AllocOk s.dev) (hs : s.Sound) :
    Freed s i (Below 0) (freeDirect (s.ino i).addrs numDirectData s.dev) := by
  refine (freeDirect_spec hok hs numDirectData (Nat.le_refl _)).congr fun p => ?_
  cases p with
  | direct k => simp [Below]
  | link k => simp [Below]
  | entry k j => simp [Below]

/-- The loop over the chain ends within as many rounds as there are blocks. -/
theorem freeChain_ends (hok : AllocOk s.dev) (hs : s.Sound) {fuel : Nat}
    (hfuel : s.dev.al.totalBlocks ≤ fuel) :
    freeChain fuel (s.ino i).nextAddrBlock (freeDirect (s.ino i).addrs numDirectData s.dev) =
      freeChain s.dev.al.totalBlocks (s.ino i).nextAddrBlock
        (freeDirect (s.ino i).addrs numDirectData s.dev) := by
  obtain ⟨-, hmore⟩ := freeChain_spec hs s.dev.al.totalBlocks 0 (s.ino i).nextAddrBlock _
    (freed_direct hok hs) rfl (by rw [Nat.zero_add]; exact chain_ends hs)
  rw [← Nat.add_sub_cancel' hfuel]
  exact hmore _

/-- All blocks of the inode are given back. -/
theorem freed_all (hok : AllocOk s.dev) (hs : s.Sound) :
    Freed s i (fun _ => True) (freeChain s.dev.al.totalBlocks (s.ino i).nextAddrBlock
      (freeDirect (s.ino i).addrs numDirectData s.dev)) := by
  obtain ⟨⟨n, hn, h⟩, -⟩ := freeChain_spec hs s.dev.al.totalBlocks 0 (s.ino i).nextAddrBlock _
    (freed_direct hok hs) rfl (by rw [Nat.zero_add]; exact chain_ends hs)
  refine ⟨h.ok, h.start, fun x => ?_, h.disk⟩
  rw [h.used]
  refine and_congr_right fun _ => ⟨fun hP p _ he => hP p ?_ he, fun hP p _ => hP p trivial⟩
  -- a slot that holds a block comes before the end of the chain
  have hlt : ∀ m, chain s.dev.disk (s.ino i).nextAddrBlock m ≠ none → m < n := by
    intro m hm
    rcases Nat.lt_or_ge m n with hlt | hge
    · exact hlt
    · have := chain_isSome_le hge (Option.isSome_iff_ne_none.mpr hm)
      rw [refs_eq, slotRef] at hn
      rw [hn] at this
      cases this
  rw [refs_eq] at he
  cases p with
  | direct k =>
    rw [slotRef] at he
    split at he
    · next hk => exact hk
    · cases he
  | link m =>
    refine hlt m fun hnone => ?_
    rw [slotRef, hnone] at he
    cases he
  | entry m j =>
    rw [slotRef] at he
    split at he
    · next hj =>
      refine ⟨hlt m fun hnone => ?_, hj⟩
      rw [hnone] at he
      cases he
    · cases he

theorem slotRef_blank {disk : Nat → Bytes} {x : Inode} (ha : x.addrs = fun _ => none32)
    (hn : x.nextAddrBlock = none32) (p : Slot) : slotRef disk x p = none := by
  cases p with
  | direct k => simp [slotRef, ha]
  | link k => exact slotRef_no_chain hn _ (by simp)
  | entry k l => exact slotRef_no_chain hn _ (by simp)

/-- What `truncate(0)` of inode `i` did. -/
structure Truncated [DecidableEq ι] (i : ι) (s t : Store ι Super) : Prop where
  refs : ∀ j p, j ≠ i → t.refs (j, p) = s.refs (j, p)
  byte : ∀ j p, j ≠ i → t.byte j p = s.byte j p
  other : ∀ j, j ≠ i → t.ino j = s.ino j
  empty : (s.ino i).size ≠ 0 → ∀ p, t.refs (i, p) = none
  pos : (s.ino i).SamePos (t.ino i)

/-- The state after the blocks of inode `i` are given back and it refers to none. -/
theorem Freed.drop [DecidableEq ι] {L : Set Nat} {x : Inode} (h : s.Owned (bitmapModel.without L))
    (hd : Freed s i (fun _ => True) d) (ha : x.addrs = fun _ => none32)
    (hn : x.nextAddrBlock = none32) (hpos : (s.ino i).SamePos x) :
    ({ s with dev := d }.setIno i x).Owned (bitmapModel.without L) ∧
      Truncated i s ({ s with dev := d }.setIno i x) := by
  have hs := Sound.of_owned h
  have hdisk : ∀ q b, s.refs q = some b → d.disk b = s.dev.disk b :=
    fun q b hq => hd.disk b (hs.used q b hq).1
  have hempty : ∀ p, ({ s with dev := d }.setIno i x).refs (i, p) = none := by
    intro p
    rw [refs_eq, setIno_self]
    exact slotRef_blank ha hn p
  have hrefs : ∀ j p, j ≠ i → ({ s with dev := d }.setIno i x).refs (j, p) = s.refs (j, p) := by
    intro j p hj
    refine refs_other (t := { s with dev := d }.setIno i x) ?_ (fun k b hb => hdisk _ b hb) p
    exact setIno_of_ne hj
  -- a reference that is left is one of another inode
  have hleft : ∀ q b, ({ s with dev := d }.setIno i x).refs q = some b →
      q.1 ≠ i ∧ s.refs q = some b := by
    rintro ⟨j, p⟩ b hb
    rcases eq_or_ne j i with rfl | hj
    · rw [hempty] at hb
      cases hb
    · exact ⟨hj, (hrefs j p hj).symm.trans hb⟩
  refine ⟨⟨⟨hd.ok, fun b hb => ?_⟩, fun p q b hp hq => ?_, fun b => ?_⟩, hrefs, fun j p hj => ?_,
    fun j hj => setIno_of_ne hj, fun _ => hempty, ?_⟩
  · refine (hd.used b).mpr ⟨h.ok.2 b hb, fun p _ hp => ?_⟩
    exact ((h.used b).mpr ⟨_, hp⟩).2 hb
  · exact h.inj p q b (hleft p b hp).2 (hleft q b hq).2
  · constructor
    · rintro ⟨hb, hbL⟩
      obtain ⟨hb, hnot⟩ := (hd.used b).mp hb
      obtain ⟨⟨j, p⟩, hp⟩ := (h.used b).mp ⟨hb, hbL⟩
      have hj : j ≠ i := by
        rintro rfl
        exact hnot p trivial hp
      exact ⟨(j, p), (hrefs j p hj).trans hp⟩
    · rintro ⟨q, hq⟩
      obtain ⟨hqi, hq⟩ := hleft q b hq
      obtain ⟨hb, hbL⟩ := (h.used b).mpr ⟨q, hq⟩
      refine ⟨(hd.used b).mpr ⟨hb, fun p _ hp => hqi ?_⟩, hbL⟩
      exact congrArg Prod.fst (h.inj q (i, p) b hq hp)
  · rw [byte_eq, byte_eq, hrefs j _ hj]
    cases hb : s.refs (j, slotAt (p / blockSize)) with
    | none => rfl
    | some b => exact congrFun (hdisk _ b hb) _
  · rw [setIno_self]
    exact hpos

theorem truncate_spec [DecidableEq ι] {L : Set Nat} (h : s.Owned (bitmapModel.without L)) :
    (s.truncate i).Owned (bitmapModel.without L) ∧ Truncated i s (s.truncate i) := by
  by_cases hsize : (s.ino i).size = 0
  · have heq : s.truncate i = s := if_pos hsize
    rw [heq]
    exact ⟨h, fun _ _ _ => rfl, fun _ _ _ => rfl, fun _ _ => rfl, fun hne => absurd hsize hne,
      Inode.SamePos.refl _⟩
  · have heq : s.truncate i = _ := if_neg hsize
    rw [heq]
    exact (freed_all h.ok.1 (Sound.of_owned h)).drop h rfl rfl ⟨rfl, rfl, rfl⟩

end Store

end CoroCore.Nfs
