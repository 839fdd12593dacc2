import CoroCore.Nfs.Frame
import CoroCore.Nfs.PositionCache

/-!
# What a read changes

`data_rw` reads through `get_block_index`, which makes the address blocks that a position lacks
whether a read or a write asks for it. So a read behind the end of the chain takes blocks from the
allocator and links them (`read_extends_chain`). A read changes nothing exactly if the walk along
the chain finds the address block of its last byte, or the allocator has none to give
(`read_unchanged_iff`).
-/

namespace CoroCore.Nfs

open Lib

namespace Store

/-! ## The walk -/

/-- The first loop of `get_block_index` finds the address block of `offset`. -/
def Covers (disk : Nat → Bytes) (b offset : Nat) : Prop :=
  (walk disk (offset / addrBlockDataSize) b offset).2 < addrBlockDataSize

instance (disk : Nat → Bytes) (b offset : Nat) : Decidable (Covers disk b offset) :=
  inferInstanceAs (Decidable (_ < _))

variable {disk : Nat → Bytes} {b o : Nat}

theorem walk_of_lt (h : o < addrBlockDataSize) :
    walk disk (o / addrBlockDataSize) b o = (b, o) := by
  rw [Nat.div_eq_of_lt h, walk]

theorem walk_add (h : nextOf (disk b) ≠ none32) :
    walk disk ((o + addrBlockDataSize) / addrBlockDataSize) b (o + addrBlockDataSize) =
      walk disk (o / addrBlockDataSize) (nextOf (disk b)) o := by
  rw [Nat.add_div_right _ (by decide), walk_succ h]

theorem walk_end (h : nextOf (disk b) = none32) :
    walk disk (o / addrBlockDataSize) b o = (b, o) := by
  cases o / addrBlockDataSize with
  | zero => rfl
  | succ k =>
    rw [walk, if_pos h]
    split <;> rfl

theorem covers_of_lt (h : o < addrBlockDataSize) : Covers disk b o := by
  rw [Covers, walk_of_lt h]
  exact h

theorem covers_add : Covers disk b (o + addrBlockDataSize) ↔
    nextOf (disk b) ≠ none32 ∧ Covers disk (nextOf (disk b)) o := by
  rcases eq_or_ne (nextOf (disk b)) none32 with hend | hnext
  · rw [Covers, walk_end hend]
    exact ⟨fun h => absurd h (Nat.not_lt.mpr (Nat.le_add_left _ _)), fun h => absurd hend h.1⟩
  · rw [Covers, walk_add hnext]
    exact ⟨fun h => ⟨hnext, h⟩, fun h => h.2⟩

/-- Induction along the chain. -/
theorem chain_induction (disk : Nat → Bytes) {motive : Nat → Nat → Prop}
    (here : ∀ b o, o < addrBlockDataSize → motive b o)
    (next : ∀ b o, motive (nextOf (disk b)) o → motive b (o + addrBlockDataSize)) (b o : Nat) :
    motive b o := by
  induction o using Nat.strongRecOn generalizing b with
  | ind o ih =>
    rcases Nat.lt_or_ge o addrBlockDataSize with hlt | hge
    · exact here b o hlt
    · have hsub : o - addrBlockDataSize < o :=
        Nat.sub_lt (Nat.lt_of_lt_of_le (by decide) hge) (by decide)
      have hstep := next b _ (ih _ hsub (nextOf (disk b)))
      rwa [Nat.sub_add_cancel hge] at hstep

/-- Where a walk that finds the address block arrives, a walk to a later position comes by. -/
theorem covers_through (x : Nat) (h : Covers disk b o) :
    (walk disk (o / addrBlockDataSize) b o).2 = o % addrBlockDataSize ∧
      (Covers disk (walk disk (o / addrBlockDataSize) b o).1 (o % addrBlockDataSize + x) ↔
        Covers disk b (o + x)) := by
  induction b, o using chain_induction disk with
  | here b o hlt =>
    rw [walk_of_lt hlt, Nat.mod_eq_of_lt hlt]
    exact ⟨rfl, Iff.rfl⟩
  | next b o ih =>
    obtain ⟨hnext, hrest⟩ := covers_add.mp h
    rw [walk_add hnext, Nat.add_mod_right, Nat.add_right_comm, covers_add]
    obtain ⟨hmod, hiff⟩ := ih hrest
    exact ⟨hmod, hiff.trans ⟨fun hc => ⟨hnext, hc⟩, fun hc => hc.2⟩⟩

theorem Covers.mono {x : Nat} (h : Covers disk b (o + x)) : Covers disk b o := by
  induction b, o using chain_induction disk with
  | here b o hlt => exact covers_of_lt hlt
  | next b o ih =>
    rw [Nat.add_right_comm, covers_add] at h
    exact covers_add.mpr ⟨h.1, ih h.2⟩

/-! ## Reading -/

variable {ι : Type} {i : ι} {s : Store ι Super} {d : Dev Super}

theorem getBlockIndex_covers {alloc : Alloc Super} (h : Covers d.disk b o) :
    getBlockIndex alloc b o d = .ok ((walk d.disk (o / addrBlockDataSize) b o).1,
      o % addrBlockDataSize / blockSize, o % addrBlockDataSize % blockSize, d) := by
  obtain ⟨hmod, -⟩ := covers_through 0 h
  have hlt : o % addrBlockDataSize < addrBlockDataSize := Nat.mod_lt o (by decide)
  unfold getBlockIndex
  rw [show walk d.disk (o / addrBlockDataSize) b o =
    ((walk d.disk (o / addrBlockDataSize) b o).1, o % addrBlockDataSize) from Prod.ext rfl hmod]
  simp only [Nat.div_eq_of_lt hlt, extend]

theorem allocBlock_used :
    (∃ e, allocBlock d = .error e ∧ e.al.usedGenericBlocks = d.al.usedGenericBlocks) ∨
    ∃ b e, allocBlock d = .ok (b, e) ∧ e.al.usedGenericBlocks = d.al.usedGenericBlocks + 1 := by
  unfold allocBlock
  split
  · exact .inl ⟨_, rfl, rfl⟩
  · split
    split
    · exact .inl ⟨_, rfl, rfl⟩
    · split
      · exact .inl ⟨_, rfl, rfl⟩
      · exact .inr ⟨_, _, rfl, rfl⟩

theorem extend_used : ∀ (fuel b o : Nat) (d : Dev Super), d.al.usedGenericBlocks ≤
    (endState (fun r => r.2.2) (extend allocBlock fuel b o d)).al.usedGenericBlocks := by
  intro fuel
  induction fuel with
  | zero => exact fun b o d => Nat.le_refl _
  | succ fuel ih =>
    intro b o d
    unfold extend
    split
    · exact Nat.le_refl _
    · rcases allocBlock_used (d := d) with ⟨e, he, hused⟩ | ⟨nb, e, he, hused⟩
      · rw [he]
        exact Nat.le_of_eq hused.symm
      · rw [he]
        have hlink : (linkBlock e b nb).al.usedGenericBlocks = d.al.usedGenericBlocks + 1 := hused
        exact Nat.le_trans (by omega) (ih nb (o - addrBlockDataSize) (linkBlock e b nb))

/-- `get_block_index` behind the end of the chain: the allocator fails or a block is taken. -/
theorem getBlockIndex_extends (h : ¬Covers d.disk b o) :
    (∃ e, allocBlock d = .error e ∧ getBlockIndex allocBlock b o d = .error e) ∨
      (∃ r, allocBlock d = .ok r) ∧ d.al.usedGenericBlocks <
        (endState (fun r => r.2.2.2) (getBlockIndex allocBlock b o d)).al.usedGenericBlocks := by
  obtain ⟨b', o', hwalk⟩ :
      ∃ b' o', walk d.disk (o / addrBlockDataSize) b o = (b', o') := ⟨_, _, rfl⟩
  rw [Covers, hwalk, Nat.not_lt] at h
  obtain ⟨fuel, hfuel⟩ : ∃ fuel, o' / addrBlockDataSize = fuel + 1 :=
    Nat.exists_eq_succ_of_ne_zero (Nat.ne_of_gt (Nat.div_pos h (by decide)))
  unfold getBlockIndex
  rw [hwalk]
  simp only [hfuel, extend, if_neg (Nat.not_lt.mpr h)]
  rcases allocBlock_used (d := d) with ⟨e, he, -⟩ | ⟨nb, e, he, hused⟩
  · exact .inl ⟨e, he, by rw [he]⟩
  · refine .inr ⟨⟨_, he⟩, ?_⟩
    have hlink : (linkBlock e b' nb).al.usedGenericBlocks = d.al.usedGenericBlocks + 1 := hused
    have hext := extend_used fuel nb (o' - addrBlockDataSize) (linkBlock e b' nb)
    rw [he]
    simp only
    cases hres : extend allocBlock fuel nb (o' - addrBlockDataSize) (linkBlock e b' nb) with
    | error e' =>
      rw [hres] at hext
      exact Nat.lt_of_lt_of_le (by omega) hext
    | ok r =>
      rw [hres] at hext
      exact Nat.lt_of_lt_of_le (by omega) hext

theorem getBlockIndex_used : d.al.usedGenericBlocks ≤
    (endState (fun r => r.2.2.2) (getBlockIndex allocBlock b o d)).al.usedGenericBlocks := by
  rcases Decidable.em (Covers d.disk b o) with h | h
  · rw [getBlockIndex_covers h]
    exact Nat.le_refl _
  · rcases getBlockIndex_extends h with ⟨e, he, heq⟩ | ⟨-, hlt⟩
    · rw [heq]
      rcases allocBlock_used (d := d) with ⟨e', he', hused⟩ | ⟨nb, e', he', -⟩
      · rw [he] at he'
        cases he'
        exact Nat.le_of_eq hused.symm
      · rw [he] at he'
        cases he'
    · exact Nat.le_of_lt hlt

theorem dataBlockRw_reads (s : Store ι Super) (ab j off pos size : Nat) (buf : Bytes) :
    ∃ buf', dataBlockRw allocBlock false ab j off pos size buf s = .ok (buf', s) := by
  unfold dataBlockRw
  split
  · exact ⟨_, rfl⟩
  · exact ⟨_, rfl⟩

theorem indirectLoop_used : ∀ (fuel cur o pos size : Nat) (buf : Bytes) (s : Store ι Super),
    s.dev.al.usedGenericBlocks ≤ (endState (fun r => r.2.2.2)
      (indirectLoop allocBlock false fuel cur o pos size buf s)).dev.al.usedGenericBlocks := by
  intro fuel
  induction fuel with
  | zero => exact fun cur o pos size buf s => Nat.le_refl _
  | succ fuel ih =>
    intro cur o pos size buf s
    have hindex := getBlockIndex_used (d := s.dev) (b := cur) (o := o)
    unfold indirectLoop
    split
    · cases hres : getBlockIndex allocBlock cur o s.dev with
      | error e =>
        rw [hres] at hindex
        exact hindex
      | ok r =>
        obtain ⟨ab, j, off, e⟩ := r
        rw [hres] at hindex
        obtain ⟨buf', hread⟩ := dataBlockRw_reads { s with dev := e } ab j off pos
          (min size (blockSize - off)) buf
        simp only [hread]
        exact Nat.le_trans (show _ ≤ e.al.usedGenericBlocks from hindex)
          (ih _ _ _ _ _ { s with dev := e })
    · exact Nat.le_refl _

/-- One round of the last loop of a read, if the address block is there. -/
theorem indirectLoop_round {cur size : Nat} (fuel pos : Nat) (buf : Bytes) (hsize : 0 < size)
    (hcov : Covers s.dev.disk cur o) :
    ∃ m buf', 0 < m ∧ m ≤ size ∧ o % addrBlockDataSize + m ≤ addrBlockDataSize ∧
      indirectLoop allocBlock false (fuel + 1) cur o pos size buf s =
        indirectLoop allocBlock false fuel (walk s.dev.disk (o / addrBlockDataSize) cur o).1
          (o % addrBlockDataSize + m) (pos + m) (size - m) buf' s := by
  obtain ⟨off, hoff⟩ : ∃ off, o % addrBlockDataSize % blockSize = off := ⟨_, rfl⟩
  obtain ⟨buf', hread⟩ := dataBlockRw_reads s (walk s.dev.disk (o / addrBlockDataSize) cur o).1
    (o % addrBlockDataSize / blockSize) off pos (min size (blockSize - off)) buf
  refine ⟨min size (blockSize - off), buf', ?_, Nat.min_le_left _ _, ?_, ?_⟩
  · simp only [blockSize] at *
    omega
  · simp only [blockSize, addrBlockDataSize] at *
    omega
  · rw [indirectLoop, if_pos hsize, getBlockIndex_covers hcov, hoff]
    simp only [hread]

/-- The last loop of a read whose last byte lies in the chain. -/
theorem indirectLoop_covers : ∀ (fuel cur o pos size : Nat) (buf : Bytes), 0 < size → size ≤ fuel →
    Covers s.dev.disk cur (o + (size - 1)) →
    ∃ cur' o' buf',
      indirectLoop allocBlock false fuel cur o pos size buf s = .ok (cur', o', buf', s) := by
  intro fuel
  induction fuel with
  | zero =>
    intro cur o pos size buf hsize hfuel
    exact absurd hsize (Nat.not_lt.mpr hfuel)
  | succ fuel ih =>
    intro cur o pos size buf hsize hfuel hcov
    obtain ⟨m, buf', hm, hle, -, heq⟩ :=
      indirectLoop_round fuel pos buf hsize hcov.mono
    rw [heq]
    rcases Nat.eq_zero_or_pos (size - m) with hdone | hmore
    · rw [hdone]
      cases fuel with
      | zero => exact ⟨_, _, _, rfl⟩
      | succ fuel => exact ⟨_, _, _, if_neg (Nat.lt_irrefl 0)⟩
    · refine ih _ _ _ _ _ hmore (by omega) ?_
      have hthrough := (covers_through (size - 1) hcov.mono).2.mpr hcov
      rwa [Nat.add_assoc, show m + (size - m - 1) = size - 1 by omega]

/-- The last loop of a read whose last byte lies behind the chain. -/
theorem indirectLoop_extends : ∀ (fuel cur o pos size : Nat) (buf : Bytes), 0 < size → size ≤ fuel →
    ¬Covers s.dev.disk cur (o + (size - 1)) →
    (∃ e, allocBlock s.dev = .error e ∧
      indirectLoop allocBlock false fuel cur o pos size buf s = .error { s with dev := e }) ∨
    (∃ r, allocBlock s.dev = .ok r) ∧ s.dev.al.usedGenericBlocks < (endState (fun r => r.2.2.2)
      (indirectLoop allocBlock false fuel cur o pos size buf s)).dev.al.usedGenericBlocks := by
  intro fuel
  induction fuel with
  | zero =>
    intro cur o pos size buf hsize hfuel
    exact absurd hsize (Nat.not_lt.mpr hfuel)
  | succ fuel ih =>
    intro cur o pos size buf hsize hfuel hcov
    rcases Decidable.em (Covers s.dev.disk cur o) with hhere | hhere
    · -- this block is there: the missing one comes later
      have hthrough := (covers_through (size - 1) hhere).2
      obtain ⟨m, buf', hm, hle, hroom, heq⟩ :=
        indirectLoop_round fuel pos buf hsize hhere
      rw [heq]
      rcases Nat.eq_zero_or_pos (size - m) with hdone | hmore
      · exact absurd (hthrough.mp (covers_of_lt (by omega))) hcov
      · refine ih _ _ _ _ _ hmore (by omega) fun hc => hcov (hthrough.mp ?_)
        rwa [Nat.add_assoc, show m + (size - m - 1) = size - 1 by omega] at hc
    · rw [indirectLoop, if_pos hsize]
      rcases getBlockIndex_extends hhere with ⟨e, he, heq⟩ | ⟨hok, hlt⟩
      · exact .inl ⟨e, he, by rw [heq]⟩
      · refine .inr ⟨hok, ?_⟩
        cases hres : getBlockIndex allocBlock cur o s.dev with
        | error e =>
          rw [hres] at hlt
          exact hlt
        | ok r =>
          obtain ⟨ab, j, off, e⟩ := r
          rw [hres] at hlt
          obtain ⟨buf', hread⟩ := dataBlockRw_reads { s with dev := e } ab j off pos
            (min size (blockSize - off)) buf
          simp only [hread]
          exact Nat.lt_of_lt_of_le (show _ < e.al.usedGenericBlocks from hlt)
            (indirectLoop_used fuel _ _ _ _ _ { s with dev := e })

/-- The first loop of a read. -/
theorem directLoop_reads [DecidableEq ι] :
    ∀ (fuel offset pos size : Nat) (buf : Bytes), size ≤ fuel →
    ∃ buf', directLoop allocBlock false i fuel offset pos size buf s =
      .ok (offset + min size (directDataSize - offset), pos + min size (directDataSize - offset),
        size - min size (directDataSize - offset), buf', s) := by
  intro fuel
  induction fuel with
  | zero =>
    intro offset pos size buf hfuel
    rw [Nat.le_zero.mp hfuel, Nat.zero_min]
    exact ⟨buf, rfl⟩
  | succ fuel ih =>
    intro offset pos size buf hfuel
    unfold directLoop
    split
    · next hround =>
      obtain ⟨m, hm⟩ : ∃ m, min size (blockSize - offset % blockSize) = m := ⟨_, rfl⟩
      have hread : ∃ buf', directDataBlockRw allocBlock false i (offset / blockSize)
          (offset % blockSize) pos m buf s = .ok (buf', s) := by
        unfold directDataBlockRw
        split
        · exact ⟨_, rfl⟩
        · exact ⟨_, rfl⟩
      obtain ⟨buf', hread⟩ := hread
      rw [hm, hread]
      simp only [blockSize, directDataSize] at *
      obtain ⟨buf'', heq⟩ := ih (offset + m) (pos + m) (size - m) buf' (by omega)
      -- a data block does not reach beyond the direct part
      have hmin : min size (13312 - offset) = m + min (size - m) (13312 - (offset + m)) := by omega
      refine ⟨buf'', heq.trans ?_⟩
      rw [hmin, Nat.add_assoc, Nat.add_assoc, Nat.sub_sub]
    · next hround =>
      have hmin : min size (directDataSize - offset) = 0 := by omega
      rw [hmin]
      exact ⟨buf, rfl⟩

theorem endState_indirectRw [DecidableEq ι] {r pos size : Nat} {buf : Bytes} :
    (endState (fun r => r.2.2) (indirectRw allocBlock false i r pos size buf s)).dev =
      (endState (fun r => r.2.2.2) (indirectLoop allocBlock false size (startAt (s.ino i) r).1
        (startAt (s.ino i) r).2 pos size buf s)).dev := by
  unfold indirectRw
  cases indirectLoop allocBlock false size (startAt (s.ino i) r).1 (startAt (s.ino i) r).2 pos size
      buf s with
  | error t => rfl
  | ok res => rfl

end Store

/-! ## The whole call -/

namespace Fs

/-- The device, with the bitmap and the superblock, and what the inodes hold are the same. -/
structure Unchanged (s t : Fs) : Prop where
  dev : t.dev = s.dev
  like : ∀ j, (s.ino j).Like (t.ino j)
  addrs : ∀ j, (s.ino j).SameAddrs (t.ino j)

/-- The part of a request behind the direct data. -/
def indirectSize (offset size : Nat) : Nat := size - (directDataSize - offset)

/-- The address block of the last byte of a request is in the chain, or the request does not go
to the chain. The walk starts where `data_rw` starts it. -/
def InChain (s : Fs) (i offset size : Nat) : Prop :=
  indirectSize offset size = 0 ∨ (s.ino i).nextAddrBlock = none32 ∨
    Store.Covers s.dev.disk (Store.startAt (s.ino i) (offset - directDataSize)).1
      ((Store.startAt (s.ino i) (offset - directDataSize)).2 + (indirectSize offset size - 1))

instance (s : Fs) (i offset size : Nat) : Decidable (InChain s i offset size) :=
  inferInstanceAs (Decidable (_ ∨ _ ∨ _))

variable {s t : Fs} {i offset size : Nat}

theorem Unchanged.refl (s : Fs) : Unchanged s s := ⟨rfl, fun _ => .refl _, fun _ => .refl _⟩

theorem Unchanged.remember (raw o cur : Nat) :
    Unchanged s (s.setIno i (Store.remember (s.ino i) raw o cur)) := by
  refine ⟨rfl, fun j => ?_, fun j => ?_⟩
  · rcases eq_or_ne j i with rfl | hj
    · rw [Store.setIno_self]
      exact .refl _
    · rw [Store.setIno_of_ne hj]
      exact .refl _
  · rcases eq_or_ne j i with rfl | hj
    · rw [Store.setIno_self]
      exact .refl _
    · rw [Store.setIno_of_ne hj]
      exact .refl _

/-- `data_rw<false>` up to its last loop. -/
theorem read_eq (s : Fs) (i offset size : Nat) :
    ∃ pos buf, Store.read allocBlock i offset size (fun _ => 0) s =
    if indirectSize offset size = 0 then .ok (pos, buf, s)
    else if (s.ino i).nextAddrBlock = none32 then
      .ok (pos + indirectSize offset size, memset buf pos 0 (indirectSize offset size), s)
    else Store.indirectRw allocBlock false i (offset - directDataSize) pos
    (indirectSize offset size) buf s := by
  obtain ⟨buf, hloop⟩ :=
    Store.directLoop_reads (s := s) (i := i) size offset 0 size (fun _ => 0) (Nat.le_refl size)
  have hleft : size - min size (directDataSize - offset) = indirectSize offset size := by
    rw [indirectSize]
    omega
  rw [hleft] at hloop
  refine ⟨0 + min size (directDataSize - offset), buf, ?_⟩
  rw [Store.read, Store.dataRw, hloop]
  simp only
  split
  · rfl
  · next hsize =>
    have hoff : offset + min size (directDataSize - offset) - directDataSize =
        offset - directDataSize := by
      rw [indirectSize] at hsize
      omega
    rw [hoff]
    rfl

/-- A read of a loaded inode changes nothing exactly if its last byte lies in the chain, or the
allocator fails and stays as it is. -/
theorem store_read_unchanged_iff :
    Unchanged s (Store.endState (fun r => r.2.2)
      (Store.read allocBlock i offset size (fun _ => 0) s)) ↔
      InChain s i offset size ∨ allocBlock s.dev = .error s.dev := by
  obtain ⟨pos, buf, heq⟩ := read_eq s i offset size
  rw [heq]
  split
  · next hzero => exact ⟨fun _ => .inl (.inl hzero), fun _ => .refl s⟩
  split
  · next hnone => exact ⟨fun _ => .inl (.inr (.inl hnone)), fun _ => .refl s⟩
  next hsize hchain =>
  have hsize := Nat.pos_of_ne_zero hsize
  have hin : InChain s i offset size ↔
      Store.Covers s.dev.disk (Store.startAt (s.ino i) (offset - directDataSize)).1
        ((Store.startAt (s.ino i) (offset - directDataSize)).2 +
          (indirectSize offset size - 1)) := by
    rw [InChain, or_iff_right (Nat.ne_of_gt hsize), or_iff_right hchain]
  rcases Decidable.em (InChain s i offset size) with hcov | hcov
  · obtain ⟨cur, o, buf', hloop⟩ := Store.indirectLoop_covers (s := s) _ _ _ pos _ buf hsize
      (Nat.le_refl _) (hin.mp hcov)
    rw [Store.indirectRw, hloop]
    exact ⟨fun _ => .inl hcov, fun _ => .remember _ _ _⟩
  · rw [or_iff_right hcov]
    rcases Store.indirectLoop_extends (s := s) _ _ _ pos _ buf hsize (Nat.le_refl _)
      (hin.not.mp hcov) with ⟨e, he, hloop⟩ | ⟨⟨r, hok⟩, hlt⟩
    · rw [Store.indirectRw, hloop, he, Except.error.injEq]
      exact ⟨fun h => h.dev, fun h => by rw [h]; exact .refl s⟩
    · constructor
      · intro h
        rw [← Store.endState_indirectRw, h.dev] at hlt
        exact absurd hlt (Nat.lt_irrefl _)
      · intro h
        rw [hok] at h
        cases h

/-- A read leaves the file system as it is exactly if its last byte lies in the chain of address
blocks, or there is no block to take. `t` is the state with the inode loaded. -/
theorem read_unchanged_iff (hload : load i s = .ok t) :
    Unchanged t (Store.endState (fun r => r.2.2) (read i offset size s)) ↔
      InChain t i offset size ∨ allocBlock t.dev = .error t.dev := by
  have hread : read i offset size s = Store.read allocBlock i offset size (fun _ => 0) t := by
    rw [read, hload]
    rfl
  rw [hread]
  exact store_read_unchanged_iff

/-- A new file whose only byte is the first one behind the direct data. -/
def oneAddrBlock : Outcome Fs := do
  let s ← outcome (makeFs 1024 (fun _ _ => 0) ⟨0, 0, 0, 0, 0, fun _ => 0⟩)
  let (_, s) ← create 1 [102] none (fun _ => 0) (mount s)
  let (_, s) ← outcome (write 2 directDataSize 1 (fun _ => 7) s)
  return s

theorem oneAddrBlock_ok : ∃ s, oneAddrBlock = .ok s ∧ load 2 s = .ok s ∧
    s.dev.al.usedGenericBlocks = 4 ∧ (Store.endState (fun r => r.2.2)
      (read 2 (directDataSize + addrBlockDataSize) 1 s)).dev.al.usedGenericBlocks = 5 := by
  have hrun : (oneAddrBlock.toOption.map fun s => ((s.ino 2).valid, s.dev.al.usedGenericBlocks,
      (Store.endState (fun r => r.2.2)
        (read 2 (directDataSize + addrBlockDataSize) 1 s)).dev.al.usedGenericBlocks)) =
      some (true, 4, 5) := by
    decide +kernel
  obtain ⟨s, hs, hvals⟩ := Option.map_eq_some_iff.mp hrun
  simp only [Prod.mk.injEq] at hvals
  obtain ⟨hvalid, hbefore, hafter⟩ := hvals
  exact ⟨s, toOption_ok hs, if_pos hvalid, hbefore, hafter⟩

theorem read_unchanged_iff_sample : ∃ s, oneAddrBlock = .ok s ∧ load 2 s = .ok s ∧
    (Unchanged s (Store.endState (fun r => r.2.2) (read 2 directDataSize 1 s)) ↔
      InChain s 2 directDataSize 1 ∨ allocBlock s.dev = .error s.dev) := by
  obtain ⟨s, hs, hload, -⟩ := oneAddrBlock_ok
  exact ⟨s, hs, hload, read_unchanged_iff hload⟩

/-- A read of one byte behind the only address block of a file takes a block. -/
theorem read_extends_chain : ∃ s, oneAddrBlock = .ok s ∧ load 2 s = .ok s ∧
    ¬Unchanged s (Store.endState (fun r => r.2.2)
      (read 2 (directDataSize + addrBlockDataSize) 1 s)) := by
  obtain ⟨s, hs, hload, hbefore, hafter⟩ := oneAddrBlock_ok
  refine ⟨s, hs, hload, fun h => ?_⟩
  rw [h.dev, hbefore] at hafter
  cases hafter

end Fs

end CoroCore.Nfs
