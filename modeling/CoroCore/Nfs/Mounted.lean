import CoroCore.Nfs.FileSize
import CoroCore.Nfs.FreeList
import CoroCore.Nfs.GiveBack

/-!
# The mounted file system

`Mounted`: the inode table, the free list, and the positions that the inode objects remember. No
object remembers indirect offset 0, so an access that comes from the direct blocks of a file never
starts at a position of another file (`Near`).

* `Mounted.load`, `Mounted.flush`, `Mounted.getInode`, `Mounted.alloc`, `Mounted.setMeta`;
* `Mounted.read`, `Mounted.write`, `Mounted.truncate`, `Mounted.dropLast`: what they do to the file
  they are called for, and that every other inode holds the same file (`SameFile`).
-/

namespace CoroCore.Nfs

open Lib

namespace Store

variable {ι α : Type} [DecidableEq ι] {alloc : Alloc α} {A : AllocModel α} {i : ι} {s t : Store ι α}

/-- A read of a file without address blocks leaves everything as it is. -/
theorem dataRw_read_same {offset size n : Nat} {buf buf' : Bytes}
    (hnext : (s.ino i).nextAddrBlock = none32)
    (h : dataRw alloc false i offset size buf s = .ok (n, buf', t)) : t = s := by
  unfold dataRw at h
  cases hloop : directLoop alloc false i size offset 0 size buf s with
  | error u =>
    rw [hloop] at h
    cases h
  | ok r =>
    obtain ⟨offset', pos, left, buf'', u⟩ := r
    obtain rfl : u = s := directLoop_read (r := (offset', pos, left, buf'')) _ _ _ _ _ hloop
    rw [hloop] at h
    simp only [hnext] at h
    split at h
    · cases h
      rfl
    · cases h
      rfl

/-- A call that changes no byte writes nothing. -/
theorem Upd.wrote {src : Bytes} (h : Upd A i 0 0 src s t) : Wrote A i 0 0 src s t := by
  have hgrow := h.grow
  rwa [Store.grow, if_neg (Nat.not_lt_zero _), setIno_eq_self] at hgrow

end Store

/-- What giving back one block keeps, `truncate` keeps. -/
theorem freeChain_keeps {Q : Dev Super → Prop} (hQ : ∀ b d, Q d → Q (freeBlock b d)) :
    ∀ (fuel b : Nat) (d : Dev Super), Q d → Q (freeChain fuel b d) := by
  have hentries : ∀ (ab n : Nat) (d : Dev Super), Q d → Q (freeEntries ab n d) := by
    intro ab n d hd
    induction n with
    | zero => exact hd
    | succ n ih =>
      rw [freeEntries, freeRef]
      split
      · exact ih
      · exact hQ _ _ ih
  intro fuel
  induction fuel with
  | zero => exact fun _ _ hd => hd
  | succ fuel ih =>
    intro b d hd
    rw [freeChain]
    split
    · exact hd
    · exact ih _ _ (hQ _ _ (hentries b numAddrs d hd))

theorem freeDirect_keeps {Q : Dev Super → Prop} (hQ : ∀ b d, Q d → Q (freeBlock b d))
    (addrs : Nat → Nat) {d : Dev Super} (hd : Q d) : ∀ n, Q (freeDirect addrs n d) := by
  intro n
  induction n with
  | zero => exact hd
  | succ n ih =>
    rw [freeDirect, freeRef]
    split
    · exact ih
    · exact hQ _ _ ih

theorem freeBlock_table {T : Dinode} (b : Nat) (d : Dev Super) (h : d.al.inodeTable = T) :
    (freeBlock b d).al.inodeTable = T := by
  unfold freeBlock
  split
  · exact h
  · exact h

theorem Store.truncate_keeps {ι : Type} [DecidableEq ι] {Q : Dev Super → Prop} {s : Store ι Super}
    (hQ : ∀ b d, Q d → Q (freeBlock b d)) (i : ι) (h : Q s.dev) : Q (s.truncate i).dev := by
  unfold Store.truncate
  split
  · exact h
  · exact freeChain_keeps hQ _ _ _ (freeDirect_keeps hQ _ h _)

theorem Store.truncate_table {ι : Type} [DecidableEq ι] (i : ι) (s : Store ι Super) :
    (s.truncate i).dev.al.inodeTable = s.dev.al.inodeTable :=
  truncate_keeps freeBlock_table i rfl

namespace Fs

/-! ## Files that stay the same -/

/-- Inode `j` has the same size, type and bytes, and the blocks that it had. -/
structure SameData (j : Nat) (s t : Fs) : Prop where
  size : (t.ino j).size = (s.ino j).size
  type : (t.ino j).type = (s.ino j).type
  byte : ∀ p, t.byte j p = s.byte j p
  refs : ∀ p b, s.refs (j, p) = some b → t.refs (j, p) = some b
  blank : (s.ino j).Blank → (t.ino j).Blank

/-- Inode `j` is the same file, with as many links. -/
structure SameFile (j : Nat) (s t : Fs) : Prop extends SameData j s t where
  nlinks : (t.ino j).nlinks = (s.ino j).nlinks

variable {s t u : Fs} {live freed : List Nat} {top i j n : Nat}

theorem SameData.trans (h : SameData j s t) (h' : SameData j t u) : SameData j s u where
  size := h'.size.trans h.size
  type := h'.type.trans h.type
  byte p := (h'.byte p).trans (h.byte p)
  refs p b hb := h'.refs p b (h.refs p b hb)
  blank hb := h'.blank (h.blank hb)

theorem SameFile.refl (j : Nat) (s : Fs) : SameFile j s s :=
  ⟨⟨rfl, rfl, fun _ => rfl, fun _ _ hb => hb, fun hb => hb⟩, rfl⟩

theorem SameFile.trans (h : SameFile j s t) (h' : SameFile j t u) : SameFile j s u :=
  ⟨h.toSameData.trans h'.toSameData, h'.nlinks.trans h.nlinks⟩

theorem Shifts.sameFile (h : Shifts s t) (hj : j ≠ 0) : SameFile j s t where
  size := (h.alike j hj).size
  type := (h.alike j hj).type
  byte := h.byte j hj
  refs p b := h.refs (j, p) b
  blank := (h.alike j hj).blank
  nlinks := (h.alike j hj).nlinks

theorem Keeps.sameFile (h : Keeps s t) (hj : j ≠ 0) : SameFile j s t := h.shifts.sameFile hj

/-! ## The invariant -/

/-- The inodes `live` are in use and the numbers `freed` are free, as are those from `top` on; no
object remembers indirect offset 0. -/
structure Mounted (live freed : List Nat) (top : Nat) (s : Fs) : Prop where
  table : TableInv live s
  list : FreeList live freed top s
  full : ∀ m, 1 ≤ m → m < top → m ∈ live ∨ m ∈ freed
  cold : ∀ j, j ≠ 0 → (s.ino j).cacheRawIndirectOffset ≠ 0

/-- An access at `offset` starts from the direct blocks, or from a position that is right. -/
def Near (s : Fs) (i offset : Nat) : Prop := offset ≤ directDataSize ∨ ∀ r, s.PosAt i r

theorem Mounted.ne_zero (h : Mounted live freed top s) (hi : i ∈ live) : i ≠ 0 :=
  fun he => h.table.zero (he ▸ hi)

theorem Mounted.posAt {offset : Nat} (h : Mounted live freed top s) (hi : i ≠ 0)
    (hnear : Near s i offset) : s.PosAt i (offset - directDataSize) := by
  rcases hnear with hle | hall
  · rw [Nat.sub_eq_zero_of_le hle]
    exact fun hraw => absurd hraw (h.cold i hi)
  · exact hall _

/-- Objects are loaded, flushed or recycled. -/
theorem Mounted.shifts (h : Mounted live freed top s) (ht : TableInv live t) (hs : Shifts s t)
    (hd : ∀ m, m ∉ live → t.dinode m = s.dinode m) : Mounted live freed top t := by
  refine ⟨ht, h.list.keep h.table.zero hd, h.full, fun j hj => ?_⟩
  rcases hs.pos j hj with hnew | ⟨k, hk, hp⟩
  · rw [hnew.1]
    decide
  · rw [hp.1]
    exact h.cold k hk

theorem Mounted.load (h : Mounted live freed top s) (hi : i ∈ live) (hl : Fs.load i s = .ok t) :
    Mounted live freed top t ∧ Keeps s t ∧ (t.ino i).valid = true := by
  obtain ⟨ht, hkeep, hv, hbyte, -⟩ := load_spec h.table hi hl
  exact ⟨h.shifts ht hkeep.shifts fun m _ => dinode_congr fun k _ => hbyte _, hkeep, hv⟩

theorem Mounted.flush (h : Mounted live freed top s) (hi : i ≠ 0) (hf : Fs.flush i s = .ok t) :
    Mounted live freed top t ∧ Keeps s t := by
  obtain ⟨ht, hkeep, -, -, -, hd⟩ := flush_spec h.table hi hf
  exact ⟨h.shifts ht hkeep.shifts hd, hkeep⟩

theorem Mounted.getInode {victim : Option Nat} (h : Mounted live freed top s) (hn : n ≠ 0)
    (hvic : victim ≠ some 0) (hg : Fs.getInode n victim s = .ok t) :
    Mounted live freed top t ∧ Shifts s t := by
  obtain ⟨ht, hshift, -, hd⟩ := getInode_spec h.table hn hvic hg
  exact ⟨h.shifts ht hshift hd, hshift⟩

/-- `alloc_inode` gives out a number that is not in use. -/
theorem Mounted.alloc {victim : Option Nat} (h : Mounted live freed top s) (hvic : victim ≠ some 0)
    (hbound : (s.dinode 0).size * dinodeSize + dinodeSize < 2 ^ 32)
    (ha : allocInode victim s = .ok (n, t)) :
    ∃ top', Mounted (n :: live) (freed.erase n) top' t ∧ (∀ m, m < top' ↔ m = n ∨ m < top) ∧
      n ≠ 0 ∧ n ∉ live ∧ (n ∈ freed ∨ freed = []) ∧ Allocated live n s t := by
  obtain ⟨hne, -, hnot⟩ := h.list.head
  have hmem := h.list.head_mem
  obtain ⟨hn, hall⟩ := allocInode_spec h.table hne hnot hbound hvic ha
  rw [← hn] at hne hnot hbound hmem
  obtain ⟨top', hlist, htop⟩ := h.list.alloc hall hn hbound
  refine ⟨top', ⟨hall.inv, hlist, fun m hm hlt => ?_, fun j hj => ?_⟩, htop, hne, hnot, hmem, hall⟩
  · rcases eq_or_ne m n with rfl | hmn
    · exact .inl List.mem_cons_self
    · rcases h.full m hm (((htop m).mp hlt).resolve_left hmn) with hl | hf
      · exact .inl (List.mem_cons_of_mem n hl)
      · exact .inr ((List.mem_erase_of_ne hmn).mpr hf)
  · rcases hall.pos j hj with hnew | ⟨k, hk, hp⟩
    · rw [hnew.1]
      decide
    · rw [hp.1]
      exact h.cold k hk

/-- New metadata in a loaded object. -/
theorem Mounted.setMeta {x : Inode} (h : Mounted live freed top s) (hi : i ∈ live)
    (ha : x.addrs = (s.ino i).addrs) (hn : x.nextAddrBlock = (s.ino i).nextAddrBlock)
    (hr : x.InRange) (hv : x.valid = true) (hd : x.dirty = true)
    (hp : x.cacheRawIndirectOffset = (s.ino i).cacheRawIndirectOffset) :
    Mounted live freed top (s.setIno i x) ∧ (∀ j p, (s.setIno i x).byte j p = s.byte j p) ∧
      (s.setIno i x).refs = s.refs := by
  obtain ⟨ht, hbyte, hrefs⟩ := h.table.setMeta hi ha hn hr hv hd
  refine ⟨⟨ht, h.list.keep h.table.zero fun m _ => dinode_congr fun k _ => hbyte 0 _, h.full,
    fun j hj => ?_⟩, hbyte, hrefs⟩
  rcases eq_or_ne j i with rfl | hji
  · rw [Store.setIno_self, hp]
    exact h.cold j hj
  · rw [Store.setIno_of_ne hji]
    exact h.cold j hj

/-! ## Reading and writing -/

/-- An operation on the contents of a loaded file. -/
theorem Mounted.wrote {P : Nat} {src : Bytes} (h : Mounted live freed top s) (hi : i ∈ live)
    (hv : (s.ino i).valid = true) (hend : P + n < 2 ^ 32)
    (hw : Store.Wrote (tableModel s.dev.al.inodeTable) i P n src s t)
    (hcold : (t.ino i).cacheRawIndirectOffset ≠ 0) : Mounted live freed top t := by
  have hne := h.ne_zero hi
  obtain ⟨hown, hal⟩ := Store.owned_tableModel.mp hw.owned
  have hbyte : ∀ p, t.byte 0 p = s.byte 0 p := fun p => hw.there 0 p (.inl hne.symm)
  have hrange : (t.ino i).InRange := by
    obtain ⟨r1, r2, r3, r4⟩ := h.table.core.range i
    refine ⟨?_, hw.nlinks ▸ r2, hw.perm ▸ r3, hw.type ▸ r4⟩
    rw [hw.size]
    exact max_lt r1 hend
  refine ⟨h.table.file hi hown hal (fun r hr => hr.of_other (hw.other 0 hne.symm) hw.refs) hbyte
    hw.other hrange (hw.valid.trans hv) (hw.dirty.imp_left fun hsame => ⟨?_, hsame.1.2.2⟩),
    h.list.keep h.table.zero fun m _ => dinode_congr fun k _ => hbyte _, h.full, fun j hj => ?_⟩
  · exact Inode.alike_of_like ⟨hsame.2, hw.nlinks, hw.perm, hw.type, hw.valid⟩ hsame.1
  · rcases eq_or_ne j i with rfl | hji
    · exact hcold
    · rw [hw.other j hji]
      exact h.cold j hj

/-- The inodes that a write is not for. -/
theorem wrote_sameFile {A : AllocModel Super} {P : Nat} {src : Bytes}
    (hw : Store.Wrote A i P n src s t) (hj : j ≠ i) : SameFile j s t := by
  have hino := hw.other j hj
  refine ⟨⟨by rw [hino], by rw [hino], fun p => hw.there j p (.inl hj), fun p b => hw.refs _ b, ?_⟩,
    by rw [hino]⟩
  rw [hino]
  exact fun hb => hb

/-- What is left to know after a call of `data_rw`: where the next access may start. -/
theorem near_of_remembers {end' : Nat}
    (hlink : directDataSize < end' → (s.refs (i, .link 0)).isSome)
    (hrefs : ∀ q b, s.refs q = some b → t.refs q = some b)
    (h : (∀ r, t.PosAt i r) ∨ end' ≤ directDataSize ∨ (t.ino i).nextAddrBlock = none32) :
    Near t i end' := by
  rcases h with hall | hle | hnone
  · exact .inr hall
  · exact .inl hle
  · refine .inl (Nat.le_of_not_lt fun hlt => ?_)
    obtain ⟨b, hb⟩ := Option.isSome_iff_exists.mp (hlink hlt)
    have hsome := hrefs _ _ hb
    rw [Store.refs_eq, slotRef, chain, hnone, toRef_none32] at hsome
    cases hsome

/-- `read` of a file: no file changes. -/
theorem Mounted.read {offset size : Nat} {buf : Bytes} (h : Mounted live freed top s)
    (hi : i ∈ live) (hsize : 0 < size) (hpos : s.PosAt i (offset - directDataSize))
    (hend : offset + size < 2 ^ 32) (hr : Fs.read i offset size s = .ok (n, buf, t)) :
    n = size ∧ buf = memcpy (fun _ => 0) 0 (fun k => s.byte i (offset + k)) size ∧
      Mounted live freed top t ∧ (t.ino i).valid = true ∧ (∀ j, j ≠ 0 → SameFile j s t) ∧
      ((directDataSize < offset + size → (s.refs (i, .link 0)).isSome) →
        Near t i (offset + size)) := by
  have hne := h.ne_zero hi
  obtain ⟨u, hl, hr⟩ := bind_ok hr
  obtain ⟨hu, hkeep, hv⟩ := h.load hi hl
  have hposu := hpos.mono (hkeep.pos i hne) hkeep.refs
  have hown := owned_table hu.table.core
  obtain ⟨hn, hbuf, hkept⟩ := Store.read_spec hown hposu hend hr
  obtain ⟨hcold, hnear⟩ := Store.dataRw_remembers hown (hu.cold i hne) hsize hposu hend hr
  have hw := hkept.wrote
  refine ⟨hn, ?_, hu.wrote hi hv (Nat.two_pow_pos 32) hw hcold, hw.valid.trans hv, fun j hj => ?_,
    fun hlink => ?_⟩
  · rw [hbuf]
    exact memcpy_congr fun k _ => hkeep.byte i hne _
  · refine (hkeep.sameFile hj).trans ?_
    rcases eq_or_ne j i with rfl | hji
    · refine ⟨⟨hkept.like.1, hkept.like.2.2.2.1, hkept.byte j, fun p b => hkept.refs _ b,
        fun hb => ?_⟩, hkept.like.2.1⟩
      rwa [Store.dataRw_read_same hb.2 hr]
    · exact wrote_sameFile hw hji
  · refine near_of_remembers (fun hlt => ?_) hkept.refs hnear
    obtain ⟨b, hb⟩ := Option.isSome_iff_exists.mp (hlink hlt)
    rw [hkeep.refs _ b hb]
    rfl

/-- What a completed `write` of `n` bytes at `P` does to file `i`. -/
structure WroteFile (i P n : Nat) (src : Bytes) (s t : Fs) : Prop where
  size : (t.ino i).size = max (s.ino i).size (P + n)
  nlinks : (t.ino i).nlinks = (s.ino i).nlinks
  type : (t.ino i).type = (s.ino i).type
  here : ∀ k < n, t.byte i (P + k) = src k
  there : ∀ p, p < P ∨ P + n ≤ p → t.byte i p = s.byte i p
  refs : ∀ p b, s.refs (i, p) = some b → t.refs (i, p) = some b
  other : ∀ j, j ≠ 0 → j ≠ i → SameFile j s t

theorem Mounted.write {offset size : Nat} {src : Bytes} (h : Mounted live freed top s)
    (hi : i ∈ live) (hsize : 0 < size) (hpos : s.PosAt i (offset - directDataSize))
    (hend : offset + size < 2 ^ 32) (hw : Fs.write i offset size src s = .ok (n, t)) :
    Mounted live freed top t ∧ WroteFile i offset size src s t := by
  have hne := h.ne_zero hi
  obtain ⟨u, hl, hw⟩ := bind_ok hw
  obtain ⟨hu, hkeep, hv⟩ := h.load hi hl
  have hposu := hpos.mono (hkeep.pos i hne) hkeep.refs
  have hown := owned_table hu.table.core
  obtain ⟨-, hwrote⟩ := Store.write_spec hown hposu hend hw
  obtain ⟨-, buf', v, hrw, ht⟩ := Store.write_eq_ok hw
  have hcold := (Store.dataRw_remembers hown (hu.cold i hne) hsize hposu hend hrw).1
  have hsame : (t.ino i).cacheRawIndirectOffset = (v.ino i).cacheRawIndirectOffset := by
    rw [ht]
    split
    · rw [Store.setIno_self]
    · rfl
  have halike := hkeep.alike i hne
  refine ⟨hu.wrote hi hv hend hwrote (hsame ▸ hcold), ?_, hwrote.nlinks.trans halike.nlinks,
    hwrote.type.trans halike.type, fun k hk => ?_, fun p hp => ?_, fun p b hb => ?_,
    fun j hj hji => ?_⟩
  · rw [hwrote.size, halike.size]
  · rw [hwrote.here _ (Nat.le_add_right _ _) (Nat.add_lt_add_left hk _), Nat.add_sub_cancel_left]
  · rw [hwrote.there i p (.inr hp), hkeep.byte i hne]
  · exact hwrote.refs _ b (hkeep.refs _ b hb)
  · exact (hkeep.sameFile hj).trans (wrote_sameFile hwrote hji)

/-! ## `truncate(0)` -/

/-- The other inodes are the same files, and where their next accesses start is as right. -/
def Elsewhere (i : Nat) (s t : Fs) : Prop :=
  ∀ j, j ≠ 0 → j ≠ i → SameFile j s t ∧ ∀ r, s.PosAt j r → t.PosAt j r

theorem Elsewhere.trans (h : Elsewhere i s t) (h' : Elsewhere i t u) : Elsewhere i s u :=
  fun j hj hji => ⟨(h j hj hji).1.trans (h' j hj hji).1,
    fun r hr => (h' j hj hji).2 r ((h j hj hji).2 r hr)⟩

/-- The objects of the other inodes are left alone. -/
theorem elsewhere_of_ino (hino : ∀ j, j ≠ 0 → j ≠ i → t.ino j = s.ino j)
    (hbyte : ∀ j, j ≠ 0 → j ≠ i → ∀ p, t.byte j p = s.byte j p)
    (hrefs : ∀ j, j ≠ 0 → j ≠ i → ∀ p b, s.refs (j, p) = some b → t.refs (j, p) = some b) :
    Elsewhere i s t := by
  intro j hj hji
  have hsame := hino j hj hji
  refine ⟨⟨⟨by rw [hsame], by rw [hsame], hbyte j hj hji, hrefs j hj hji, ?_⟩, by rw [hsame]⟩,
    fun r hr => ?_⟩
  · rw [hsame]
    exact fun hb => hb
  · unfold Store.PosAt
    rw [hsame]
    intro hraw
    obtain ⟨k, hk, hsum⟩ := hr hraw
    exact ⟨k, hrefs j hj hji _ _ hk, hsum⟩

theorem Keeps.elsewhere (h : Keeps s t) : Elsewhere i s t := fun j hj _ =>
  ⟨h.sameFile hj, fun _ hr => hr.mono (h.pos j hj) h.refs⟩

theorem elsewhere_truncate (h : Store.Truncated i s t) : Elsewhere i s t :=
  elsewhere_of_ino (fun j _ hji => h.other j hji) (fun j _ hji p => h.byte j p hji)
    fun j _ hji p _ hb => (h.refs j p hji).trans hb

theorem truncate_ino (i : Nat) (s : Fs) : (Store.truncate i s).ino i =
    if (s.ino i).size = 0 then s.ino i
    else { s.ino i with
      addrs := fun _ => none32, nextAddrBlock := none32, size := 0, dirty := true } := by
  unfold Store.truncate
  split
  · rfl
  · exact Store.setIno_self

theorem Core.truncate (h : Core s) (hi : i ≠ 0) :
    Core (Store.truncate i s) ∧ Store.Truncated i s (Store.truncate i s) := by
  have hwithout : s.Owned (bitmapModel.without ∅) :=
    ⟨⟨h.owned.ok, fun b hb => absurd hb (Set.notMem_empty b)⟩, h.owned.inj,
      fun b => (and_iff_left (Set.notMem_empty b)).trans (h.owned.used b)⟩
  obtain ⟨hown, htr⟩ := Store.truncate_spec (i := i) hwithout
  refine ⟨⟨⟨hown.ok.1, hown.inj,
    fun b => (and_iff_left (Set.notMem_empty b)).symm.trans (hown.used b)⟩, fun r hr => (h.pos r
    hr).congr (htr.other 0 hi.symm) fun p => htr.refs 0 p hi.symm, fun j => ?_, ?_⟩, htr⟩
  · rcases eq_or_ne j i with rfl | hji
    · obtain ⟨r1, r2, r3, r4⟩ := h.range j
      rw [truncate_ino]
      split
      · exact ⟨r1, r2, r3, r4⟩
      · exact ⟨Nat.two_pow_pos 32, r2, r3, r4⟩
    · rw [htr.other j hji]
      exact h.range j
  · rw [htr.other 0 hi.symm, Store.truncate_table]
    exact h.table

/-- `truncate(0)` of a loaded inode. -/
theorem TableInv.truncate (h : TableInv live s) (hi : i ∈ live) (hv : (s.ino i).valid = true) :
    TableInv live (Store.truncate i s) ∧ Store.Truncated i s (Store.truncate i s) := by
  have hne : i ≠ 0 := fun he => h.zero (he ▸ hi)
  obtain ⟨hcore, htr⟩ := h.core.truncate hne
  have hino := truncate_ino i s
  refine ⟨h.file hi hcore.owned (Store.truncate_table i s)
    (fun r hr => hr.congr (htr.other 0 hne.symm) fun p => htr.refs 0 p hne.symm)
    (fun p => htr.byte 0 p hne.symm) htr.other (hcore.range i) ?_ ?_, htr⟩
  · rw [hino]
    split <;> exact hv
  · rw [hino]
    split
    · exact .inl ⟨Inode.Alike.refl _, rfl⟩
    · exact .inr rfl

/-- What `truncate(0)` leaves of inode `i`. -/
structure Emptied (i : Nat) (s t : Fs) : Prop where
  size : (t.ino i).size = 0
  nlinks : (t.ino i).nlinks = (s.ino i).nlinks
  type : (t.ino i).type = (s.ino i).type
  blank : (t.ino i).Blank

theorem truncate_emptied (hblank : (s.ino i).size = 0 → (s.ino i).Blank) :
    Emptied i s (Store.truncate i s) := by
  have hino := truncate_ino i s
  split at hino
  · next hzero =>
    refine ⟨by rw [hino, hzero], by rw [hino], by rw [hino], ?_⟩
    rw [hino]
    exact hblank hzero
  · refine ⟨by rw [hino], by rw [hino], by rw [hino], ?_⟩
    rw [hino]
    exact ⟨fun _ _ => rfl, rfl⟩

theorem Mounted.truncate (h : Mounted live freed top s) (hi : i ∈ live)
    (hblank : (s.ino i).size = 0 → (s.ino i).Blank) (ht : Fs.truncate i s = .ok t) :
    Mounted live freed top t ∧ Emptied i s t ∧ Elsewhere i s t := by
  have hne := h.ne_zero hi
  obtain ⟨u, hl, ht⟩ := bind_ok ht
  cases ht
  obtain ⟨hu, hkeep, hv⟩ := h.load hi hl
  have halike := hkeep.alike i hne
  have hempty : Emptied i u (Store.truncate i u) := by
    refine truncate_emptied fun hzero => halike.blank (hblank ?_)
    rw [← halike.size, hzero]
  obtain ⟨htable, htr⟩ := hu.table.truncate hi hv
  refine ⟨⟨htable, hu.list.keep hu.table.zero fun m _ => dinode_congr fun k _ =>
    htr.byte 0 _ hne.symm, h.full, fun j hj => ?_⟩, ⟨hempty.size, hempty.nlinks.trans halike.nlinks,
      hempty.type.trans halike.type, hempty.blank⟩, hkeep.elsewhere.trans (elsewhere_truncate htr)⟩
  rcases eq_or_ne j i with rfl | hji
  · rw [htr.pos.1]
    exact hu.cold j hj
  · rw [htr.other j hji]
    exact hu.cold j hj

/-! ## `unlink` drops a link -/

/-- `unlink` of a link that is not the last. -/
theorem Mounted.dropLink {junk : Dinode} (h : Mounted live freed top s) (hi : i ∈ live)
    (hlinks : 1 < (s.ino i).nlinks) (hd : Fs.dropLink i junk s = .ok t) :
    Mounted live freed top t ∧ Elsewhere i s t ∧ SameData i s t ∧
      (t.ino i).nlinks = (s.ino i).nlinks - 1 := by
  have hne := h.ne_zero hi
  obtain ⟨u, hl, hd⟩ := bind_ok hd
  obtain ⟨hu, hkeep, hv⟩ := h.load hi hl
  have halike := hkeep.alike i hne
  obtain ⟨r1, r2, r3, r4⟩ := hu.table.core.range i
  have hcount : ((u.ino i).nlinks + 2 ^ 16 - 1) % 2 ^ 16 = (s.ino i).nlinks - 1 := by
    rw [halike.nlinks] at r2 ⊢
    omega
  let x : Inode :=
    { u.ino i with nlinks := ((u.ino i).nlinks + 2 ^ 16 - 1) % 2 ^ 16, dirty := true }
  simp only [Store.setIno_self] at hd
  rw [if_neg (by rw [hcount]; exact Nat.sub_ne_zero_of_lt hlinks)] at hd
  have ht : u.setIno i x = t := by
    refine Eq.trans ?_ (Except.ok.inj hd)
    simp only [Store.setIno, Function.update_idem]
    rfl
  obtain ⟨hmeta, hbyte, hrefs⟩ := hu.setMeta (x := x) hi rfl rfl
    ⟨r1, Nat.mod_lt _ (by decide), r3, r4⟩ hv rfl rfl
  rw [ht] at hmeta hbyte hrefs
  have hother : ∀ j, j ≠ i → t.ino j = u.ino j := fun j hj => by rw [← ht, Store.setIno_of_ne hj]
  have hself : t.ino i = x := by rw [← ht, Store.setIno_self]
  refine ⟨hmeta, hkeep.elsewhere.trans (elsewhere_of_ino (fun j _ hji => hother j hji)
    (fun j _ _ p => hbyte j p) fun j _ _ p b hb => by
    rw [hrefs, hb]), (hkeep.sameFile hne).toSameData.trans
    ⟨?_, ?_, hbyte i, fun p b hb => by rw [hrefs, hb], ?_⟩, ?_⟩
  · rw [hself]
  · rw [hself]
  · rw [hself]
    exact fun hb => ⟨hb.1, hb.2⟩
  · rw [hself]
    exact hcount

/-- A step on inode `i`, whose object need not agree with its `dinode`. -/
structure Beside (i : Nat) (s t : Fs) : Prop where
  core : Core t
  ino : ∀ j, j ≠ 0 → j ≠ i → t.ino j = s.ino j
  byte : ∀ j, j ≠ 0 → j ≠ i → ∀ p, t.byte j p = s.byte j p
  refs : ∀ j, j ≠ 0 → j ≠ i → ∀ p b, s.refs (j, p) = some b → t.refs (j, p) = some b
  raw : (t.ino i).cacheRawIndirectOffset = (s.ino i).cacheRawIndirectOffset
  dinode : ∀ m, m ≠ i → t.dinode m = s.dinode m

theorem Beside.trans (h : Beside i s t) (h' : Beside i t u) : Beside i s u where
  core := h'.core
  ino j hj hji := (h'.ino j hj hji).trans (h.ino j hj hji)
  byte j hj hji p := (h'.byte j hj hji p).trans (h.byte j hj hji p)
  refs j hj hji p b hb := h'.refs j hj hji p b (h.refs j hj hji p b hb)
  raw := h'.raw.trans h.raw
  dinode m hm := (h'.dinode m hm).trans (h.dinode m hm)

theorem Beside.elsewhere (h : Beside i s t) : Elsewhere i s t :=
  elsewhere_of_ino h.ino h.byte h.refs

theorem Core.beside_setIno {x : Inode} (h : Core s) (hi : i ≠ 0)
    (ha : ∀ k < numDirectData, x.addrs k = (s.ino i).addrs k)
    (hn : x.nextAddrBlock = (s.ino i).nextAddrBlock) (hr : x.InRange)
    (hp : x.cacheRawIndirectOffset = (s.ino i).cacheRawIndirectOffset) :
    Beside i s (s.setIno i x) := by
  obtain ⟨hcore, hbyte, hrefs⟩ := h.setObject hi ha hn hr
  refine ⟨hcore, fun j _ hji => Store.setIno_of_ne hji, fun j _ _ p => hbyte j p,
    fun j _ _ p b hb => by rw [hrefs, hb], ?_, fun m _ => dinode_congr fun k _ => hbyte 0 _⟩
  rw [Store.setIno_self, hp]

theorem Core.beside_truncate (h : Core s) (hi : i ≠ 0) : Beside i s (Store.truncate i s) := by
  obtain ⟨hcore, htr⟩ := h.truncate hi
  exact ⟨hcore, fun j _ hji => htr.other j hji, fun j _ hji p => htr.byte j p hji,
    fun j _ hji p b hb => (htr.refs j p hji).trans hb, htr.pos.1,
    fun m _ => dinode_congr fun k _ => htr.byte 0 _ hi.symm⟩

theorem Core.beside_flush (h : Core s) (hi : i ≠ 0) (hbound : i * dinodeSize + dinodeSize < 2 ^ 32)
    (hf : Fs.flush i s = .ok t) : Beside i s t ∧ (s.ino i).Alike (t.ino i) := by
  rw [flush_eq] at hf
  split at hf
  · obtain ⟨u, hw, hf⟩ := bind_ok hf
    cases hf
    obtain ⟨htab, -, -⟩ := writeDinode_spec h hbound hw
    obtain ⟨-, hd⟩ := writeDinode_dinode h hbound hw
    have hu : Beside i s u := ⟨htab.core, fun j hj _ => htab.ino j hj, fun j hj _ => htab.byte j hj,
      fun j _ _ p b => htab.refs _ b, by rw [htab.ino i hi], hd⟩
    obtain ⟨r1, r2, r3, r4⟩ := htab.core.range i
    refine ⟨hu.trans (htab.core.beside_setIno hi (fun _ _ => rfl) rfl ⟨r1, r2, r3, r4⟩ rfl), ?_⟩
    rw [Store.setIno_self, ← htab.ino i hi]
    exact ⟨rfl, rfl, rfl, rfl, rfl, fun _ _ => rfl⟩
  · cases hf
    exact ⟨⟨h, fun _ _ _ => rfl, fun _ _ _ _ => rfl, fun _ _ _ _ _ hb => hb, rfl, fun _ _ => rfl⟩,
      Inode.Alike.refl _⟩

theorem Core.beside_lastUnlink (h : Core s) (hi : i ≠ 0)
    (hblank : (s.ino i).size = 0 → (s.ino i).Blank) :
    Beside i s (lastUnlink i s) ∧ ((lastUnlink i s).ino i).Blank := by
  obtain ⟨r1, -, r3, r4⟩ := h.range i
  have hset : Beside i s (s.setIno i { s.ino i with nlinks := 0 }) :=
    h.beside_setIno hi (fun _ _ => rfl) rfl ⟨r1, Nat.two_pow_pos 16, r3, r4⟩ rfl
  refine ⟨hset.trans (hset.core.beside_truncate hi),
    (truncate_emptied (s := s.setIno i { s.ino i with nlinks := 0 }) ?_).blank⟩
  rw [Store.setIno_self]
  exact fun hzero => ⟨(hblank hzero).1, (hblank hzero).2⟩

/-- The last link of inode `i` is gone: the number is free. -/
structure Removed (i : Nat) (s t : Fs) : Prop where
  retired : (t.ino i).valid = false
  record : (t.dinode i).type = itypeNextFreeInode
  other : Elsewhere i s t

/-- `unlink` of the last link. The object loses its link without a mark, so from there to
`free_inode` the inode table does not describe it. -/
theorem Mounted.dropLast {junk : Dinode} {live' : List Nat} (h : Mounted live freed top s)
    (hi : i ∈ live) (hlinks : (s.ino i).nlinks = 1) (hblank : (s.ino i).size = 0 → (s.ino i).Blank)
    (hlive : ∀ j, j ∈ live' ↔ j ≠ i ∧ j ∈ live) (hd : Fs.dropLink i junk s = .ok t) :
    Mounted live' (i :: freed) top t ∧ Removed i s t := by
  have hne := h.ne_zero hi
  have hbound := h.table.bound i hi
  obtain ⟨u, hl, -⟩ := bind_ok hd
  obtain ⟨hu, hkeep, -⟩ := h.load hi hl
  have halike := hkeep.alike i hne
  rw [dropLink_last hl (by rw [halike.nlinks, hlinks])] at hd
  obtain ⟨v, hf, hd⟩ := bind_ok hd
  obtain ⟨w, hfree, hd⟩ := bind_ok hd
  obtain rfl : retire i w = t := Except.ok.inj hd
  obtain ⟨hlast, hblank₁⟩ := hu.table.core.beside_lastUnlink hne
    fun hzero => halike.blank (hblank (halike.size.symm.trans hzero))
  obtain ⟨hflush, halike₁⟩ := hlast.core.beside_flush hne hbound hf
  have hv := hlast.trans hflush
  have hspec : FreedInode i v (retire i w) := freeInode_spec hv.core hne hbound hfree
  have hlist : FreeList live freed top v :=
    hu.list.keep hu.table.zero fun m hm => hv.dinode m fun he => hm (he ▸ hi)
  refine ⟨⟨hu.table.remove hspec.core
    (fun j hj hji => (hspec.same j hj hji).trans (hv.ino j hj hji))
    (fun m hm hmi => (hspec.others m hm hmi).trans (hv.dinode m hmi)) hspec.retired
    ((hspec.ino i hne).blank (halike₁.blank hblank₁)) hlive, hlist.free hspec hi hlive,
    fun m hm hlt => ?_, fun j hj => ?_⟩, hspec.retired, hspec.record.2, ?_⟩
  · rcases eq_or_ne m i with rfl | hmi
    · exact .inr List.mem_cons_self
    · exact (h.full m hm hlt).imp (fun hl => (hlive m).mpr ⟨hmi, hl⟩) (List.mem_cons_of_mem i)
  · rcases eq_or_ne j i with rfl | hji
    · have hraw : ((retire j w).ino j).cacheRawIndirectOffset = (u.ino j).cacheRawIndirectOffset :=
        hspec.pos.1.trans hv.raw
      rw [hraw]
      exact hu.cold j hj
    · rw [hspec.same j hj hji, hv.ino j hj hji]
      exact hu.cold j hj
  · refine (hkeep.elsewhere.trans hv.elsewhere).trans ?_
    exact elsewhere_of_ino hspec.same (fun j hj _ => hspec.byte j hj)
      fun j _ _ p b => hspec.refs _ b

end Fs

end CoroCore.Nfs
