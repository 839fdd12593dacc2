import CoroCore.Lib.Run
import CoroCore.Nfs.MakeFs
import CoroCore.Nfs.Sequential
import Mathlib.Data.Set.Card

/-!
# Block accounting

From `make_fs` on, through every sequence of completed `create`, `mkdir`, `link`, `read` and
`write` calls and of flushes and fetches of the inode cache, each block in use is referenced from
one place, and the bitmap and the superblock say which and how many they are
(`blocks_accounted`).

An object that the inode cache recycles remembers a position in the chain of the inode it served
before, and a call that hits it works on that chain. It still stores a block that it allocates in
one place (`dataRw_soft`).
-/

namespace CoroCore.Nfs

open Lib

namespace Store

variable {ι α : Type} [DecidableEq ι] {A : AllocModel α} {alloc : Alloc α} {i : ι}
  {s t u : Store ι α} {write : Bool} {offset size : Nat} {buf buf' : Bytes}

/-! ## A call that may start in the chain of another inode -/

omit [DecidableEq ι] in
theorem dataBlockRw_ino {ab j off pos n : Nat}
    (h : dataBlockRw alloc write ab j off pos n buf s = .ok (buf', t)) : t.ino = s.ino := by
  have htransfer : ∀ {u : Store ι α} {c : Bool} {b : Nat},
      (transfer write c b off pos n buf u).2.ino = u.ino := by
    intro u c b
    unfold transfer
    split <;> rfl
  unfold dataBlockRw at h
  split at h
  · split at h
    · next hw =>
      subst hw
      split at h
      · cases h
      · have ht := congrArg Prod.snd (Except.ok.inj h)
        rw [← show _ = t from ht, htransfer]
    · cases h
      rfl
  · have ht := congrArg Prod.snd (Except.ok.inj h)
    rw [← show _ = t from ht, htransfer]

omit [DecidableEq ι] in
theorem indirectLoop_ino : ∀ (fuel cur offset pos size : Nat) (buf : Bytes) (s : Store ι α)
    {r : Nat × Nat × Bytes},
    indirectLoop alloc write fuel cur offset pos size buf s = .ok (r.1, r.2.1, r.2.2, t) →
    t.ino = s.ino := by
  intro fuel
  induction fuel with
  | zero =>
    intro cur offset pos size buf s r h
    cases h
    rfl
  | succ fuel ih =>
    intro cur offset pos size buf s r h
    unfold indirectLoop at h
    split at h
    · split at h
      · cases h
      · split at h
        · cases h
        · next hblock =>
          have hino := dataBlockRw_ino hblock
          exact (ih _ _ _ _ _ _ h).trans hino
    · cases h
      rfl

/-- What the object remembers is nothing, or an address block of an inode other than `z`. -/
def PosSome (s : Store ι α) (z i : ι) : Prop :=
  (s.ino i).cacheRawIndirectOffset = none32 ∨
    ∃ j, j ≠ z ∧ ∃ k, s.refs (j, .link k) = some (s.ino i).cacheAddrBlock

omit [DecidableEq ι] in
theorem PosSome.mono {z : ι} {j : ι} (h : s.PosSome z i) (hp : (s.ino i).SamePos (t.ino j))
    (hrefs : ∀ q b, s.refs q = some b → t.refs q = some b) : t.PosSome z j := by
  unfold PosSome
  rw [hp.1, hp.2.2]
  exact h.imp_right fun ⟨j, hj, k, hk⟩ => ⟨j, hj, k, hrefs _ _ hk⟩

/-- What a call on inode `i` keeps wherever it started: the accounts, and the file `z`. -/
structure Soft (A : AllocModel α) (z i : ι) (s t : Store ι α) : Prop where
  owned : t.Owned A
  refs : ∀ q b, s.refs q = some b → t.refs q = some b
  byte : ∀ p, t.byte z p = s.byte z p
  other : ∀ j, j ≠ i → t.ino j = s.ino j
  like : (s.ino i).Like (t.ino i)
  dirty : (s.ino i).SameAddrs (t.ino i) ∨ (t.ino i).dirty = true
  pos : t.PosSome z i

omit [DecidableEq ι] in
theorem Upd.soft {z : ι} {P n : Nat} {src : Bytes} (h : Upd A i P n src s t) (hi : i ≠ z)
    (hpos : s.PosSome z i) (hp : (s.ino i).SamePos (t.ino i)) : Soft A z i s t where
  owned := h.owned
  refs := h.refs
  byte p := h.there z p (.inl hi.symm)
  other := h.other
  like := h.like
  dirty := h.dirty
  pos := hpos.mono hp h.refs

omit [DecidableEq ι] in
/-- The inode in whose chain the last loop starts. -/
theorem PosSome.startAt {z : ι} {r : Nat} (h : s.PosSome z i) (hi : i ≠ z) (hr : r < none32)
    (hlink : s.refs (i, .link 0) = some (s.ino i).nextAddrBlock) :
    ∃ j, j ≠ z ∧ ∃ k, s.refs (j, .link k) = some (Store.startAt (s.ino i) r).1 := by
  unfold Store.startAt
  split
  · next hhit =>
    rcases h with hnew | hsome
    · exact absurd (hnew.symm.trans hhit).symm (Nat.ne_of_lt hr)
    · exact hsome
  · exact ⟨i, hi, 0, hlink⟩

theorem indirectRw_soft {z : ι} {r pos n : Nat} (h : s.Owned A) (hi : i ≠ z)
    (hpos : s.PosSome z i) (hr : r < none32)
    (hlink : s.refs (i, .link 0) = some (s.ino i).nextAddrBlock)
    (hres : indirectRw A.alloc write i r pos size buf s = .ok (n, buf', t)) :
    n = pos + size ∧ Soft A z i s t := by
  obtain ⟨j, hj, k, hk⟩ := hpos.startAt hi hr hlink
  have hloop : LoopSpec A write j _ _ pos size buf s _ :=
    indirectLoop_spec (Nat.le_max_left addrBlockDataSize (Store.startAt (s.ino i) r).2)
      size k _ _ pos size buf s h (Nat.le_refl _) (Nat.le_max_right _ _) hk
  unfold indirectRw at hres
  cases hv : indirectLoop A.alloc write size (Store.startAt (s.ino i) r).1
      (Store.startAt (s.ino i) r).2 pos size buf s with
  | error v =>
    rw [hv] at hres
    cases hres
  | ok res =>
    obtain ⟨cur, o, buf₂, v⟩ := res
    have hino := indirectLoop_ino (r := (cur, o, buf₂)) _ _ _ _ _ _ _ hv
    rw [hv] at hres hloop
    cases hres
    obtain ⟨heff, k', hcur, -⟩ := hloop
    have hrefs : (v.setIno i (Store.remember (v.ino i) (r + size) o cur)).refs = v.refs :=
      refs_setIno (fun _ _ => rfl) rfl
    have hbyte := byte_setIno (s := v) (i := i)
      (x := Store.remember (v.ino i) (r + size) o cur) (fun _ _ => rfl) rfl
    refine ⟨rfl, heff.upd.owned.setIno (fun _ _ => rfl) rfl, fun q b hb => ?_, fun p => ?_,
      fun l hl => ?_, ?_, ?_, .inr ⟨j, hj, k', ?_⟩⟩
    · rw [hrefs, heff.upd.refs q b hb]
    · rw [hbyte, heff.upd.there z p (.inl hj.symm)]
    · rw [setIno_of_ne hl, hino]
    · rw [setIno_self, hino]
      exact Inode.Like.refl _
    · rw [setIno_self, hino]
      exact .inl ⟨rfl, rfl, rfl⟩
    · rw [hrefs, setIno_self]
      exact hcur

omit [DecidableEq ι] in
theorem Soft.trans {z : ι} (h : Soft A z i s t) (h' : Soft A z i t u) : Soft A z i s u where
  owned := h'.owned
  refs q b hb := h'.refs q b (h.refs q b hb)
  byte p := (h'.byte p).trans (h.byte p)
  other j hj := (h'.other j hj).trans (h.other j hj)
  like := h.like.trans h'.like
  dirty := by
    rcases h'.dirty with he | hd
    · rcases h.dirty with he' | hd'
      · exact .inl (he'.trans he)
      · exact .inr (he.2.2.trans hd')
    · exact .inr hd
  pos := h'.pos

theorem dataRw_soft {z : ι} {n : Nat} (h : s.Owned A) (hi : i ≠ z) (hpos : s.PosSome z i)
    (hlt : offset - directDataSize < none32)
    (hres : dataRw A.alloc write i offset size buf s = .ok (n, buf', t)) :
    n = size ∧ Soft A z i s t := by
  rcases dataRw_cases write i offset size buf h with
    ⟨hnone, hdone⟩ | ⟨m, buf₁, u, henter, hm, hborder, heff, hlink⟩
  · rw [hres] at hdone
    exact ⟨by rw [hdone.1, Nat.zero_add], hdone.2.upd.soft hi hpos (no_enter_pos hnone hres)⟩
  · have hu := heff.upd.soft hi hpos (enter_pos henter)
    rw [dataRw_of_enter henter] at hres
    obtain ⟨hn, hsoft⟩ := indirectRw_soft heff.upd.owned hi hu.pos hlt hlink hres
    exact ⟨by omega, hu.trans hsoft⟩

end Store

namespace Fs

variable {s t u : Fs} {live : List Nat} {i n : Nat}

/-- The free list is the single number from which on all numbers are free. -/
structure Head (live : List Nat) (s : Fs) : Prop where
  type : (s.dinode 0).type = itypeNextFreeInode
  ne : (s.dinode 0).size ≠ 0
  lt : ∀ i ∈ live, i < (s.dinode 0).size
  fresh : ∀ m, (s.dinode 0).size ≤ m → (s.dinode m).type ≠ itypeNextFreeInode

/-- The invariant of the runs. -/
structure Accounts (live : List Nat) (s : Fs) : Prop where
  table : TableInv live s
  head : Head live s
  pos : ∀ i, i ≠ 0 → s.PosSome 0 i

theorem Head.congr (h : Head live s) (hz : 0 ∉ live)
    (hd : ∀ m, m ∉ live → t.dinode m = s.dinode m) : Head live t := by
  have hzero := hd 0 hz
  refine ⟨hzero ▸ h.type, hzero ▸ h.ne, hzero ▸ h.lt, fun m hm => ?_⟩
  rw [hzero] at hm
  rw [hd m fun hl => Nat.not_lt.mpr hm (h.lt m hl)]
  exact h.fresh m hm

/-- Objects are loaded, flushed or recycled. -/
theorem Accounts.shifts (h : Accounts live s) (ht : TableInv live t) (hs : Shifts s t)
    (hd : ∀ m, m ∉ live → t.dinode m = s.dinode m) : Accounts live t := by
  refine ⟨ht, h.head.congr h.table.zero hd, fun j hj => ?_⟩
  rcases hs.pos j hj with hnew | ⟨k, hk, hp⟩
  · exact .inl hnew.1
  · exact (h.pos k hk).mono hp hs.refs

theorem Accounts.load (h : Accounts live s) (hi : i ∈ live) (hl : Fs.load i s = .ok t) :
    Accounts live t ∧ (t.ino i).valid = true ∧ t.dinode 0 = s.dinode 0 ∧
      ∀ j, j ≠ 0 → j ≠ i → t.ino j = s.ino j := by
  obtain ⟨ht, hkeep, hv, hbyte, hino⟩ := load_spec h.table hi hl
  have hd : ∀ m, t.dinode m = s.dinode m := fun m => dinode_congr fun k _ => hbyte _
  exact ⟨h.shifts ht hkeep.shifts fun m _ => hd m, hv, hd 0, hino⟩

theorem Accounts.flush (h : Accounts live s) (hi : i ≠ 0) (hf : Fs.flush i s = .ok t) :
    Accounts live t := by
  obtain ⟨ht, hkeep, -, -, -, hd⟩ := flush_spec h.table hi hf
  exact h.shifts ht hkeep.shifts hd

theorem Accounts.getInode {victim : Option Nat} (h : Accounts live s) (hn : n ≠ 0)
    (hvic : victim ≠ some 0) (hg : Fs.getInode n victim s = .ok t) : Accounts live t := by
  obtain ⟨ht, hshift, -, hd⟩ := getInode_spec h.table hn hvic hg
  exact h.shifts ht hshift hd

/-- A call of `data_rw` on a loaded inode in use. -/
theorem Accounts.dataRw {write : Bool} {offset size : Nat} {buf buf' : Bytes}
    (h : Accounts live s) (hi : i ∈ live) (hv : (s.ino i).valid = true)
    (hlt : offset - directDataSize < none32)
    (hres : Store.dataRw allocBlock write i offset size buf s = .ok (n, buf', t)) :
    Accounts live t ∧ (t.ino i).valid = true := by
  have hne : i ≠ 0 := fun he => h.table.zero (he ▸ hi)
  obtain ⟨-, hsoft⟩ := Store.dataRw_soft (A := tableModel s.dev.al.inodeTable)
    (owned_table h.table.core) hne (h.pos i hne) hlt hres
  obtain ⟨hown, hal⟩ := Store.owned_tableModel.mp hsoft.owned
  have hvalid : (t.ino i).valid = true := hsoft.like.2.2.2.2.trans hv
  have hrange : (t.ino i).InRange := by
    obtain ⟨h1, h2, h3, h4, -⟩ := hsoft.like
    obtain ⟨r1, r2, r3, r4⟩ := h.table.core.range i
    exact ⟨h1 ▸ r1, h2 ▸ r2, h3 ▸ r3, h4 ▸ r4⟩
  have htable : TableInv live t :=
    h.table.file hi hown hal (fun r hr => hr.of_other (hsoft.other 0 hne.symm) hsoft.refs)
      hsoft.byte hsoft.other hrange hvalid
      (hsoft.dirty.imp_left fun hsame => ⟨Inode.alike_of_like hsoft.like hsame, hsame.2.2⟩)
  refine ⟨⟨htable, h.head.congr h.table.zero fun m _ => dinode_congr fun k _ => hsoft.byte _,
    fun j hj => ?_⟩, hvalid⟩
  rcases eq_or_ne j i with rfl | hji
  · exact hsoft.pos
  · refine (h.pos j hj).mono ?_ hsoft.refs
    rw [hsoft.other j hji]
    exact Inode.SamePos.refl _

/-- New metadata in a loaded object. -/
theorem Accounts.setMeta {x : Inode} (h : Accounts live s) (hi : i ∈ live)
    (ha : x.addrs = (s.ino i).addrs) (hn : x.nextAddrBlock = (s.ino i).nextAddrBlock)
    (hr : x.InRange) (hv : x.valid = true) (hd : x.dirty = true) (hp : (s.ino i).SamePos x) :
    Accounts live (s.setIno i x) := by
  obtain ⟨ht, hbyte, hrefs⟩ := h.table.setMeta hi ha hn hr hv hd
  refine ⟨ht, h.head.congr h.table.zero fun m _ => dinode_congr fun k _ => hbyte 0 _,
    fun j hj => (h.pos j hj).mono ?_ fun q b hb => by rw [hrefs, hb]⟩
  rcases eq_or_ne j i with rfl | hji
  · rwa [Store.setIno_self]
  · rw [Store.setIno_of_ne hji]
    exact Inode.SamePos.refl _

theorem Accounts.read {offset size : Nat} {buf : Bytes} (h : Accounts live s) (hi : i ∈ live)
    (hlt : offset - directDataSize < none32)
    (hres : Fs.read i offset size s = .ok (n, buf, t)) : Accounts live t := by
  obtain ⟨u, hl, hres⟩ := bind_ok hres
  obtain ⟨hu, hv, -⟩ := h.load hi hl
  exact (hu.dataRw hi hv hlt hres).1

theorem Accounts.write {offset size : Nat} {src : Bytes} (h : Accounts live s) (hi : i ∈ live)
    (hlt : offset - directDataSize < none32)
    (hres : Fs.write i offset size src s = .ok (n, t)) : Accounts live t := by
  obtain ⟨u, hl, hres⟩ := bind_ok hres
  obtain ⟨hu, hv, -⟩ := h.load hi hl
  unfold Store.write at hres
  split at hres
  · cases hres
  next m buf w hrw =>
  obtain ⟨hw, hvw⟩ := hu.dataRw hi hv hlt hrw
  split at hres
  · cases hres
    obtain ⟨-, r2, r3, r4⟩ := hw.table.core.range i
    exact hw.setMeta hi rfl rfl ⟨Nat.mod_lt _ (by decide), r2, r3, r4⟩ hvw rfl ⟨rfl, rfl, rfl⟩
  · cases hres
    exact hw

/-! ## `__link`, `create` and `mkdir` -/

theorem Accounts.findFree {dir : Nat} (hdir : dir ∈ live) : ∀ (fuel offset : Nat) (s : Fs)
    {o : Nat}, Accounts live s → offset + direntSize * fuel ≤ 2 ^ 32 + direntSize →
    Fs.findFree dir fuel offset s = .ok (o, t) → Accounts live t ∧ o ≤ 2 ^ 32 + direntSize := by
  intro fuel
  induction fuel with
  | zero =>
    intro offset s o h hle hres
    cases hres
    exact ⟨h, by omega⟩
  | succ fuel ih =>
    intro offset s o h hle hres
    unfold Fs.findFree at hres
    split at hres
    · cases hres
      exact ⟨h, by omega⟩
    next hlt =>
    have hoff : offset - directDataSize < none32 := by
      have := (h.table.core.range dir).size
      simp only [directDataSize, none32]
      omega
    obtain ⟨⟨m, buf, u⟩, hread, hres⟩ := bind_ok hres
    have hu := h.read hdir hoff hread
    simp only at hres
    split at hres
    · cases hres
    split at hres
    · cases hres
      exact ⟨hu, by omega⟩
    · exact ih _ u hu (by simp only [direntSize] at *; omega) hres

theorem Accounts.linkEntry {dir : Nat} {name : CStr} {junk : Bytes} (h : Accounts live s)
    (hdir : dir ∈ live) (hn : n ∈ live) (hres : Fs.linkEntry dir n name junk s = .ok t) :
    Accounts live t := by
  obtain ⟨u, hl, hres⟩ := bind_ok hres
  obtain ⟨hu, hv, -⟩ := h.load hn hl
  obtain ⟨⟨o, v⟩, hfind, hres⟩ := bind_ok hres
  obtain ⟨r1, -, r3, r4⟩ := hu.table.core.range n
  have hmeta := hu.setMeta (x := { u.ino n with nlinks := ((u.ino n).nlinks + 1) % 2 ^ 16,
                                                dirty := true })
    hn rfl rfl ⟨r1, Nat.mod_lt _ (by decide), r3, r4⟩ hv rfl ⟨rfl, rfl, rfl⟩
  have hsize := (hmeta.table.core.range dir).size
  obtain ⟨hfound, ho⟩ := Accounts.findFree hdir _ _ _ hmeta (by
    simp only [direntSize] at *
    omega) hfind
  obtain ⟨⟨m, w⟩, hw, hres⟩ := bind_ok hres
  cases hres
  refine hfound.write hdir ?_ hw
  simp only [directDataSize, none32, direntSize] at *
  omega

/-- `alloc_inode`: no number was freed, so the next one is new. -/
theorem Accounts.allocInode {victim : Option Nat} (h : Accounts live s) (hvic : victim ≠ some 0)
    (hbound : n * dinodeSize + dinodeSize < 2 ^ 32) (hres : Fs.allocInode victim s = .ok (n, t)) :
    Accounts (n :: live) t := by
  obtain rfl := allocInode_number h.table.core hres
  have hfree : (s.dinode 0).size ∉ live := fun hl => Nat.lt_irrefl _ (h.head.lt _ hl)
  obtain ⟨-, ha⟩ := allocInode_spec h.table h.head.ne hfree hbound hvic hres
  have hhead : (t.dinode 0).size = (s.dinode 0).size + 1 := by
    rw [ha.head, if_neg (h.head.fresh _ (Nat.le_refl _))]
    refine Nat.mod_eq_of_lt ?_
    simp only [dinodeSize] at hbound
    omega
  refine ⟨ha.inv, ⟨ha.type, by omega, fun j hj => ?_, fun m hm => ?_⟩, fun j hj => ?_⟩
  · rw [hhead]
    rcases List.mem_cons.mp hj with rfl | hl
    · exact Nat.lt_succ_self _
    · exact Nat.lt_succ_of_lt (h.head.lt j hl)
  · rw [hhead] at hm
    rw [ha.free m (by omega) fun hl => by have := h.head.lt m hl; omega]
    exact h.head.fresh m (Nat.le_of_succ_le hm)
  · rcases ha.pos j hj with hnew | ⟨k, hk, hp⟩
    · exact .inl hnew.1
    · exact (h.pos k hk).mono hp ha.refs

theorem Accounts.make {type dir : Nat} {name : CStr} {victim : Option Nat} {junk : Bytes}
    (h : Accounts live s) (htype : type < 2 ^ 8) (hdir : dir ∈ live) (hvic : victim ≠ some 0)
    (hbound : n * dinodeSize + dinodeSize < 2 ^ 32)
    (hres : Fs.make type dir name victim junk s = .ok (n, t)) : Accounts (n :: live) t := by
  unfold Fs.make at hres
  split at hres
  · cases hres
  obtain ⟨u, hl, hres⟩ := outcome_bind_ok hres
  obtain ⟨hu, -⟩ := h.load hdir hl
  obtain ⟨⟨m, v⟩, halloc, hres⟩ := bind_ok hres
  obtain ⟨w, hl', hres⟩ := outcome_bind_ok hres
  obtain ⟨x, hlink, hres⟩ := outcome_bind_ok hres
  cases hres
  have hv := hu.allocInode hvic hbound halloc
  obtain ⟨hw, hvalid, -⟩ := hv.load List.mem_cons_self hl'
  obtain ⟨r1, r2, r3, -⟩ := hw.table.core.range n
  have hmeta := hw.setMeta (x := { w.ino n with type := type, dirty := true }) List.mem_cons_self
    rfl rfl ⟨r1, r2, r3, htype⟩ hvalid rfl ⟨rfl, rfl, rfl⟩
  exact hmeta.linkEntry (List.mem_cons_of_mem n hdir) List.mem_cons_self hlink

theorem Accounts.link {dir old : Nat} {name : CStr} {junk : Bytes} (h : Accounts live s)
    (hdir : dir ∈ live) (hold : old ∈ live) (hres : Fs.link dir old name junk s = .ok t) :
    Accounts live t := by
  unfold Fs.link at hres
  split at hres
  · cases hres
  obtain ⟨u, hl, hres⟩ := bind_ok hres
  exact (h.load hdir hl).1.linkEntry hdir hold hres

/-! ## Runs -/

/-- A call to the file system, or a step of the inode cache. -/
inductive Call
  | create (dir : Nat) (name : CStr) (victim : Option Nat) (junk : Bytes)
  | mkdir (dir : Nat) (name : CStr) (victim : Option Nat) (junk : Bytes)
  | link (dir old : Nat) (name : CStr) (junk : Bytes)
  | read (i offset size : Nat)
  | write (i offset size : Nat) (src : Bytes)
  | get (i : Nat) (victim : Option Nat)
  | flush (i : Nat)

/-- A file system with the numbers of the inodes in use. -/
structure Files where
  fs : Fs
  live : List Nat

/-- A completed call. The inode table is not in the inode cache, and the offsets at which it is
read and written are, as those of the files, below 2^32. -/
inductive Step : Files → Call → Files → Prop
  | create {s t : Fs} {live : List Nat} {dir n : Nat} {name : CStr} {victim : Option Nat}
      {junk : Bytes} (hdir : dir ∈ live) (hvic : victim ≠ some 0)
      (hn : n * dinodeSize + dinodeSize < 2 ^ 32)
      (h : Fs.create dir name victim junk s = .ok (n, t)) :
      Step ⟨s, live⟩ (.create dir name victim junk) ⟨t, n :: live⟩
  | mkdir {s t : Fs} {live : List Nat} {dir n : Nat} {name : CStr} {victim : Option Nat}
      {junk : Bytes} (hdir : dir ∈ live) (hvic : victim ≠ some 0)
      (hn : n * dinodeSize + dinodeSize < 2 ^ 32)
      (h : Fs.mkdir dir name victim junk s = .ok (n, t)) :
      Step ⟨s, live⟩ (.mkdir dir name victim junk) ⟨t, n :: live⟩
  | link {s t : Fs} {live : List Nat} {dir old : Nat} {name : CStr} {junk : Bytes}
      (hdir : dir ∈ live) (hold : old ∈ live) (h : Fs.link dir old name junk s = .ok t) :
      Step ⟨s, live⟩ (.link dir old name junk) ⟨t, live⟩
  | read {s t : Fs} {live : List Nat} {i offset size n : Nat} {buf : Bytes} (hi : i ∈ live)
      (hend : offset + size < 2 ^ 32) (h : Fs.read i offset size s = .ok (n, buf, t)) :
      Step ⟨s, live⟩ (.read i offset size) ⟨t, live⟩
  | write {s t : Fs} {live : List Nat} {i offset size n : Nat} {src : Bytes} (hi : i ∈ live)
      (hend : offset + size < 2 ^ 32) (h : Fs.write i offset size src s = .ok (n, t)) :
      Step ⟨s, live⟩ (.write i offset size src) ⟨t, live⟩
  | get {s t : Fs} {live : List Nat} {i : Nat} {victim : Option Nat} (hi : i ≠ 0)
      (hvic : victim ≠ some 0) (h : getInode i victim s = .ok t) :
      Step ⟨s, live⟩ (.get i victim) ⟨t, live⟩
  | flush {s t : Fs} {live : List Nat} {i : Nat} (hi : i ≠ 0) (h : Fs.flush i s = .ok t) :
      Step ⟨s, live⟩ (.flush i) ⟨t, live⟩

theorem lt_of_end {offset size : Nat} (h : offset + size < 2 ^ 32) :
    offset - directDataSize < none32 := by
  simp only [directDataSize, none32]
  omega

theorem Accounts.step {x y : Files} {c : Call} (h : Accounts x.live x.fs) (hs : Step x c y) :
    Accounts y.live y.fs := by
  cases hs with
  | create hdir hvic hn hc => exact h.make (by decide) hdir hvic hn hc
  | mkdir hdir hvic hn hc => exact h.make (by decide) hdir hvic hn hc
  | link hdir hold hc => exact h.link hdir hold hc
  | read hi hend hc => exact h.read hi (lt_of_end hend) hc
  | write hi hend hc => exact h.write hi (lt_of_end hend) hc
  | get hi hvic hc => exact h.getInode hi hvic hc
  | flush hi hc => exact h.flush hi hc

theorem New.accounts (h : New s) : Accounts [1] s := by
  refine ⟨h.table, ⟨h.type, ?_, fun i hi => ?_, fun m hm => ?_⟩, fun i _ => .inl (h.pos i).1⟩
  · rw [h.head]
    decide
  · rw [h.head, List.mem_singleton.mp hi]
    decide
  · rw [h.head] at hm
    rw [h.fresh m hm]
    decide

/-! ## The accounts -/

/-- The inode table: its object, or what the superblock says if that is not valid. -/
def tableInode (s : Fs) : Inode :=
  if (s.ino 0).valid then s.ino 0 else (s.ino 0).load s.dev.al.inodeTable

/-- An inode: its object, or what the inode table says if that is not valid. -/
def inodeOf (s : Fs) (i : Nat) : Inode :=
  if i = 0 then tableInode s
  else if (s.ino i).valid then s.ino i
  else (s.ino i).load (Dinode.decode fun k => byteAt s.dev.disk (tableInode s) (i * dinodeSize + k))

/-- A slot of one of the inodes `is` holds block `b`. -/
def Referenced (is : List Nat) (s : Fs) (p : Nat × Slot) (b : Nat) : Prop :=
  p.1 ∈ is ∧ slotRef s.dev.disk (inodeOf s p.1) p.2 = some b

/-- The bitmap and the superblock account for the blocks that the inodes `is` refer to. -/
structure Accounted (is : List Nat) (s : Fs) : Prop where
  distinct : ∀ p q b, Referenced is s p b → Referenced is s q b → p = q
  generic : ∀ p b, Referenced is s p b →
    s.dev.al.genericBlockStart ≤ b ∧ b < s.dev.al.totalBlocks
  bitmap : ∀ b, s.dev.al.genericBlockStart ≤ b → b < s.dev.al.totalBlocks →
    (blockBit s.dev b = true ↔ ∃ p, Referenced is s p b)
  low : ∀ b < s.dev.al.genericBlockStart, blockBit s.dev b = true
  count : s.dev.al.usedGenericBlocks = {b | ∃ p, Referenced is s p b}.ncard

theorem Core.alike_tableInode (h : Core s) : (s.ino 0).Alike (tableInode s) := by
  unfold tableInode
  split
  · exact Inode.Alike.refl _
  · next hv => exact (h.table fun hvd => hv hvd.1).alike

theorem TableInv.alike_inodeOf (h : TableInv live s) (hi : i ∈ 0 :: live) :
    (s.ino i).Alike (inodeOf s i) := by
  have htable := h.core.alike_tableInode
  unfold inodeOf
  split
  · next hz => exact hz ▸ htable
  next hne =>
  split
  · exact Inode.Alike.refl _
  · next hv =>
    have hd : (Dinode.decode fun k => byteAt s.dev.disk (tableInode s) (i * dinodeSize + k)) =
        s.dinode i := by
      refine Dinode.decode_congr fun k _ => ?_
      unfold byteAt
      rw [Store.slotRef_alike htable]
      rfl
    rw [hd]
    exact (h.stored i ((List.mem_cons.mp hi).resolve_left hne) fun hvd => hv hvd.1).alike

theorem TableInv.referenced (h : TableInv live s) (p : Nat × Slot) (b : Nat) :
    Referenced (0 :: live) s p b ↔ s.refs p = some b := by
  constructor
  · rintro ⟨hp, hb⟩
    rwa [Store.slotRef_alike (h.alike_inodeOf hp)] at hb
  · intro hb
    have hp : p.1 ∈ 0 :: live := by
      by_contra hn
      rw [List.mem_cons, not_or] at hn
      rw [Store.refs, Store.slotRef_of_blank (h.absent p.1 hn.1 hn.2).2] at hb
      cases hb
    exact ⟨hp, by rw [Store.slotRef_alike (h.alike_inodeOf hp)]; exact hb⟩

theorem TableInv.accounted (h : TableInv live s) : Accounted (0 :: live) s := by
  have hown := h.core.owned
  have hused : ∀ b, GenericUsed s.dev b ↔ ∃ p, Referenced (0 :: live) s p b := by
    intro b
    simp only [h.referenced]
    exact hown.used b
  refine ⟨fun p q b hp hq => ?_, fun p b hp => ?_, fun b h1 h2 => ?_, hown.ok.low, ?_⟩
  · rw [h.referenced] at hp hq
    exact hown.inj p q b hp hq
  · have := (hused b).mpr ⟨p, hp⟩
    exact ⟨this.1, this.2.1⟩
  · rw [← hused]
    exact ⟨fun hb => ⟨h1, h2, hb⟩, fun hb => hb.2.2⟩
  · have hset : {b | ∃ p, Referenced (0 :: live) s p b} = usedBlocks s.dev := by
      ext b
      rw [Set.mem_ofPred_eq, ← hused, Finset.mem_coe, mem_usedBlocks]
    rw [hset, Set.ncard_coe_finset]
    exact hown.ok.count

/-- In every state that completed calls reach from `make_fs` and `mount`, the blocks of the inode
table and of the inodes in use are accounted for. -/
theorem blocks_accounted {nblocks : Nat} {disk : Nat → Bytes} {junk : Dinode} {s₀ : Fs}
    {calls : List Call} {x : Files} (hfit : Fits nblocks)
    (hmake : makeFs nblocks disk junk = .ok s₀) (hrun : Run Step ⟨mount s₀, [1]⟩ calls x) :
    Accounted (0 :: x.live) x.fs := by
  have haccounts : Accounts x.live x.fs :=
    hrun.invariant (I := fun x => Accounts x.live x.fs) (fun _ _ _ h hs => h.step hs)
      (makeFs_spec hfit hmake).accounts
  exact haccounts.table.accounted

/-- A file is created and written past its direct blocks. -/
theorem blocks_accounted_write : ∃ s₀ x, makeFs 1024 (fun _ _ => 0) ⟨0, 0, 0, 0, 0, fun _ => 0⟩ =
      .ok s₀ ∧ Run Step ⟨mount s₀, [1]⟩
        [.create 1 [97] none (fun _ => 0), .write 2 13312 1 (fun _ => 5)] x ∧
      x.live = [2, 1] ∧ Accounted (0 :: x.live) x.fs := by
  have hcalls : ((outcome (makeFs 1024 (fun _ _ => 0) ⟨0, 0, 0, 0, 0, fun _ => 0⟩) >>= fun s =>
      Fs.create 1 [97] none (fun _ => 0) (mount s) >>= fun r =>
      outcome (Fs.write 2 13312 1 (fun _ => 5) r.2) >>= fun _ => .ok r.1).toOption) = some 2 := by
    decide +kernel
  have hcalls := toOption_ok hcalls
  obtain ⟨s₀, hmake, hcalls⟩ := outcome_bind_ok hcalls
  obtain ⟨⟨n, t⟩, hcreate, hcalls⟩ := bind_ok hcalls
  obtain ⟨⟨m, u⟩, hwrite, hcalls⟩ := outcome_bind_ok hcalls
  obtain rfl : n = 2 := Except.ok.inj hcalls
  have hrun : Run Step ⟨mount s₀, [1]⟩
      [.create 1 [97] none (fun _ => 0), .write 2 13312 1 (fun _ => 5)] ⟨u, [2, 1]⟩ :=
    .snoc (.single (.create List.mem_cons_self (by decide) (by decide) hcreate))
      (.write List.mem_cons_self (by decide) hwrite)
  exact ⟨s₀, ⟨u, [2, 1]⟩, hmake, hrun, rfl, blocks_accounted (by decide) hmake hrun⟩

end Fs

end CoroCore.Nfs
