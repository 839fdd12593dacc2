import CoroCore.Lib.Run
import CoroCore.Nfs.Format
import CoroCore.Nfs.Truncate

/-!
# The remembered position of `data_rw`

A `data_rw` whose indirect part starts where the last one ended goes on from the address block
it remembers. `truncate`, `init_data` and `inode::init` leave the remembered position as it is,
so it can outlive the chain it belongs to: `PosState.stale` marks an object to which this has
happened since it last stored a position.

* `position_agrees`: in every run in which no call goes on from a stale position, the position
  leads where the walk from the first address block leads, and `data_rw` does what it would do
  without it (`dataRwPlain`);
* `position_disagrees`: a stale position leads to a block of another file.
-/

namespace CoroCore.Nfs

open Lib

namespace Store

variable {ι α : Type} [DecidableEq ι] (alloc : Alloc α)

/-- `indirectRw` without the remembered position. -/
def indirectRwPlain (write : Bool) (i : ι) (r pos size : Nat) (buf : Bytes) (s : Store ι α) :
    Except (Store ι α) (Nat × Bytes × Store ι α) :=
  match indirectLoop alloc write size (s.ino i).nextAddrBlock r pos size buf s with
  | .error s => .error s
  | .ok (cur, offset, buf, s) =>
    .ok (pos + size, buf, s.setIno i (remember (s.ino i) (r + size) offset cur))

/-- `data_rw` without the remembered position. -/
def dataRwPlain (write : Bool) (i : ι) (offset size : Nat) (buf : Bytes) (s : Store ι α) :
    Except (Store ι α) (Nat × Bytes × Store ι α) :=
  match directLoop alloc write i size offset 0 size buf s with
  | .error s => .error s
  | .ok (offset, pos, size, buf, s) =>
    if size = 0 then .ok (pos, buf, s)
    else if (s.ino i).nextAddrBlock = none32 then
      if write then
        match firstAddrBlock alloc i s with
        | .error s => .error s
        | .ok s => indirectRwPlain alloc write i (offset - directDataSize) pos size buf s
      else .ok (pos + size, memset buf pos 0 size, s)
    else indirectRwPlain alloc write i (offset - directDataSize) pos size buf s

/-! ## The walk goes through the remembered position -/

section Walk

variable {alloc} {disk : Nat → Bytes} {a c k o : Nat}

theorem walk_succ {fuel offset : Nat} (hnext : nextOf (disk a) ≠ none32) :
    walk disk (fuel + 1) a (offset + addrBlockDataSize) = walk disk fuel
    (nextOf (disk a)) offset := by
  rw [walk, if_neg (Nat.not_lt.mpr (Nat.le_add_left _ _)), if_neg hnext, Nat.add_sub_cancel]

theorem walk_through : ∀ (k a : Nat), chain disk a k = some c →
    walk disk ((k * addrBlockDataSize + o) / addrBlockDataSize) a (k * addrBlockDataSize + o) =
      walk disk (o / addrBlockDataSize) c o := by
  intro k
  induction k with
  | zero =>
    intro a hc
    obtain ⟨rfl, -⟩ := toRef_eq_some hc
    rw [Nat.zero_mul, Nat.zero_add]
  | succ k ih =>
    intro a hc
    have ha : a ≠ none32 := by
      rintro rfl
      have := chain_isSome_le (Nat.zero_le _) (Option.isSome_iff_exists.mpr ⟨c, hc⟩)
      rw [chain, toRef_none32] at this
      cases this
    rw [chain_succ ha] at hc
    have hnext : nextOf (disk a) ≠ none32 := by
      intro hnone
      have := chain_isSome_le (Nat.zero_le _) (Option.isSome_iff_exists.mpr ⟨c, hc⟩)
      rw [chain, hnone, toRef_none32] at this
      cases this
    have hsum : (k + 1) * addrBlockDataSize + o =
        k * addrBlockDataSize + o + addrBlockDataSize := by
      rw [Nat.succ_mul, Nat.add_right_comm]
    rw [hsum, Nat.add_div_right _ (by decide), walk_succ hnext]
    exact ih _ hc

theorem getBlockIndex_congr {d : Dev α} {o' : Nat}
    (h : walk d.disk (o / addrBlockDataSize) a o = walk d.disk (o' / addrBlockDataSize) c o') :
    getBlockIndex alloc a o d = getBlockIndex alloc c o' d := by
  unfold getBlockIndex
  rw [h]

theorem getBlockIndex_through {d : Dev α} (hc : chain d.disk a k = some c) :
    getBlockIndex alloc a (k * addrBlockDataSize + o) d = getBlockIndex alloc c o d :=
  getBlockIndex_congr (walk_through k a hc)

omit [DecidableEq ι] in
theorem indirectLoop_through {write : Bool} {fuel pos size : Nat} {buf : Bytes} {s : Store ι α}
    (hc : chain s.dev.disk a k = some c) (hfuel : 0 < fuel) (hsize : 0 < size) :
    indirectLoop alloc write fuel a (k * addrBlockDataSize + o) pos size buf s =
      indirectLoop alloc write fuel c o pos size buf s := by
  obtain ⟨fuel, rfl⟩ := Nat.exists_eq_succ_of_ne_zero (Nat.pos_iff_ne_zero.mp hfuel)
  have hmod : (k * addrBlockDataSize + o) % addrBlockDataSize = o % addrBlockDataSize := by
    rw [Nat.add_comm, Nat.add_mul_mod_self_right]
  unfold indirectLoop
  rw [if_pos hsize, if_pos hsize, getBlockIndex_through hc, hmod]

end Walk

section Plain

variable {alloc} {A : AllocModel α} {i : ι} {s : Store ι α}

omit [DecidableEq ι] in
/-- The fast path finds the same address block, index and offset. -/
theorem PosAt.getBlockIndex {r : Nat} (h : s.PosAt i r)
    (hhit : (s.ino i).cacheRawIndirectOffset = r) :
    getBlockIndex alloc (s.ino i).cacheAddrBlock (s.ino i).cacheOffset s.dev =
      getBlockIndex alloc (s.ino i).nextAddrBlock r s.dev := by
  obtain ⟨k, hk, hsum⟩ := h hhit
  rw [← hsum]
  exact (getBlockIndex_through hk).symm

theorem indirectRw_plain {write : Bool} {r pos size : Nat} {buf : Bytes} (h : s.PosAt i r)
    (hsize : 0 < size) :
    indirectRw alloc write i r pos size buf s = indirectRwPlain alloc write i r pos size buf s := by
  have hloop : indirectLoop alloc write size (startAt (s.ino i) r).1 (startAt (s.ino i) r).2 pos
      size buf s = indirectLoop alloc write size (s.ino i).nextAddrBlock r pos size buf s := by
    unfold startAt
    split
    · next hhit =>
      obtain ⟨k, hk, hsum⟩ := h hhit
      rw [← hsum]
      exact (indirectLoop_through hk hsize hsize).symm
    · rfl
  cases hres : indirectLoop alloc write size (s.ino i).nextAddrBlock r pos size buf s with
  | error s => simp only [indirectRw, indirectRwPlain, hloop, hres]
  | ok res => simp only [indirectRw, indirectRwPlain, hloop, hres]

theorem dataRwPlain_of_enter {write : Bool} {offset size r pos left : Nat} {buf buf' : Bytes}
    {t : Store ι α} (h : enter alloc write i offset size buf s = some (r, pos, left, buf', t)) :
    dataRwPlain alloc write i offset size buf s =
    indirectRwPlain alloc write i r pos left buf' t := by
  obtain ⟨o, u, hloop, hsize, hr, hnext⟩ := enter_eq_some h
  rw [dataRwPlain, hloop, hr]
  simp only
  rw [if_neg hsize]
  rcases hnext with ⟨hnone, hw, hfirst⟩ | ⟨hsome, hu⟩
  · rw [if_pos hnone, if_pos hw, hfirst]
  · rw [if_neg hsome, hu]

/-- Without a last loop the remembered position plays no part. -/
theorem dataRw_of_no_enter {write : Bool} {offset size : Nat} {buf : Bytes}
    (h : enter alloc write i offset size buf s = none) :
    dataRw alloc write i offset size buf s = dataRwPlain alloc write i offset size buf s := by
  unfold enter at h
  unfold dataRw dataRwPlain
  cases hloop : directLoop alloc write i size offset 0 size buf s with
  | error t => rfl
  | ok res =>
    obtain ⟨offset', pos', size', buf', t⟩ := res
    rw [hloop] at h
    simp only at h ⊢
    split at h
    · next hsize => rw [if_pos hsize, if_pos hsize]
    · next hsize =>
      rw [if_neg hsize, if_neg hsize]
      split at h
      · next hnone =>
        rw [if_pos hnone, if_pos hnone]
        split at h
        · next hw =>
          rw [if_pos hw, if_pos hw]
          cases hf : firstAddrBlock alloc i t with
          | error u => rfl
          | ok u =>
            rw [hf] at h
            cases h
        · next hw => rw [if_neg hw, if_neg hw]
      · cases h

theorem directLoop_read : ∀ (fuel offset pos size : Nat) (buf : Bytes) {r : Nat × Nat × Nat × Bytes}
    {t : Store ι α},
    directLoop alloc false i fuel offset pos size buf s = .ok (r.1, r.2.1, r.2.2.1, r.2.2.2, t) →
    t = s := by
  intro fuel
  induction fuel with
  | zero =>
    intro offset pos size buf r t h
    cases h
    rfl
  | succ fuel ih =>
    intro offset pos size buf r t h
    unfold directLoop at h
    split at h
    · have hread : ∃ buf', directDataBlockRw alloc false i (offset / blockSize) (offset % blockSize)
          pos (min size (blockSize - offset % blockSize)) buf s = .ok (buf', s) := by
        unfold directDataBlockRw
        split
        · exact ⟨_, rfl⟩
        · exact ⟨_, rfl⟩
      obtain ⟨buf', hread⟩ := hread
      rw [hread] at h
      exact ih _ _ _ _ h
    · cases h
      rfl

end Plain

end Store

/-! ## Runs -/

/-- The inodes by number, each served by one object at a time. `stale i`: since the object that
serves inode `i` last stored a position, the chain was given back or the object changed its
inode. -/
structure PosState (ι : Type) where
  store : Store ι Super
  stale : ι → Bool

/-- A call that works on an inode object. `unlink` removes the last link. `reuse` gives the
number to a new file: `alloc_inode` calls `init_data`. `recycle i j`: the object of inode `i` is
taken by `inode::init` to serve inode `j`. -/
inductive PosCall (ι : Type)
  | rw (write : Bool) (i : ι) (offset size : Nat) (buf : Bytes)
  | truncate (i : ι)
  | unlink (i : ι)
  | reuse (i : ι)
  | recycle (i j : ι)

namespace Store

variable {ι : Type} [DecidableEq ι]

/-- A `read` or a `write`: the state it ends with. -/
def rw (write : Bool) (i : ι) (offset size : Nat) (buf : Bytes) (s : Store ι Super) :
    Except (Store ι Super) (Store ι Super) :=
  if write then (s.write allocBlock i offset size buf).map Prod.snd
  else (s.read allocBlock i offset size buf).map fun r => r.2.2

/-- The part of `unlink` of the last link that concerns the file's own inode. -/
def unlinkLast (i : ι) (s : Store ι Super) : Store ι Super :=
  let t := (s.setIno i { s.ino i with nlinks := 0 }).truncate i
  t.setIno i { t.ino i with valid := false, dirty := false }

/-- Inode `j` is served by the object of inode `i`, which keeps what it remembers; the next
object of inode `i` is a new one. -/
def recycle (i j : ι) (s : Store ι Super) : Store ι Super :=
  (s.setIno i ((s.ino i).withPos Inode.new)).setIno j ((s.ino j).withPos (s.ino i))

/-- `data_rw` has something to do in the indirect part of the file. -/
def Reaches {α : Type} (write : Bool) (i : ι) (offset size : Nat) (s : Store ι α) : Prop :=
  0 < size ∧ directDataSize < offset + size ∧
    (write = true ∨ (s.ino i).nextAddrBlock ≠ none32)

end Store

namespace PosState

variable {ι : Type} [DecidableEq ι]

/-- All inodes after `init_data()` on a new file system. -/
def initial (nblocks : Nat) (disk : Nat → Bytes) : PosState ι :=
  ⟨⟨fun _ => Inode.new.initData, formatDev nblocks disk⟩, fun _ => false⟩

def apply (g : PosState ι) : PosCall ι → PosState ι
  | .rw write i offset size buf =>
    match g.store.rw write i offset size buf with
    | .error t => { g with store := t }
    | .ok t =>
      if (Store.enter allocBlock write i offset size buf g.store).isSome then
        ⟨t, Function.update g.stale i false⟩
      else { g with store := t }
  | .truncate i =>
    if (g.store.ino i).size = 0 then { g with store := g.store.truncate i }
    else ⟨g.store.truncate i, Function.update g.stale i true⟩
  | .unlink i => ⟨g.store.unlinkLast i, Function.update g.stale i true⟩
  | .reuse i =>
    ⟨g.store.setIno i (g.store.ino i).initData, Function.update g.stale i true⟩
  | .recycle i j =>
    ⟨g.store.recycle i j, Function.update (Function.update g.stale i false) j true⟩

/-- The calls under which the remembered position is right: the indirect part ends below 2^32,
and it does not start at the offset that a stale object remembers. -/
def Ok (g : PosState ι) : PosCall ι → Prop
  | .rw write i offset size _ => g.store.Reaches write i offset size →
      offset + size < 2 ^ 32 + directDataSize ∧
      (g.stale i = true →
        (g.store.ino i).cacheRawIndirectOffset ≠ offset - directDataSize)
  | _ => True

def Step (g : PosState ι) (c : PosCall ι) (g' : PosState ι) : Prop := g.apply c = g'

/-- The fast path, if the call takes it, starts where the walk along the chain arrives, and the
call does what it would do without the remembered position. -/
def Agrees (g : PosState ι) (write : Bool) (i : ι) (offset size : Nat) (buf : Bytes) : Prop :=
  (∀ r pos left buf' u,
    Store.enter allocBlock write i offset size buf g.store = some (r, pos, left, buf', u) →
    (u.ino i).cacheRawIndirectOffset = r →
    Store.getBlockIndex allocBlock (u.ino i).cacheAddrBlock (u.ino i).cacheOffset u.dev =
      Store.getBlockIndex allocBlock (u.ino i).nextAddrBlock r u.dev) ∧
  Store.dataRw allocBlock write i offset size buf g.store =
    Store.dataRwPlain allocBlock write i offset size buf g.store

end PosState

namespace Store

variable {ι α : Type} [DecidableEq ι] {A : AllocModel α} {i : ι} {s t : Store ι α}

theorem setIno_eq_self (s : Store ι α) (i : ι) : s.setIno i (s.ino i) = s := by
  unfold setIno
  rw [Function.update_eq_self]

/-- Another object record with the same block addresses and the same position. -/
theorem PosAt.setIno {x : Inode} {j : ι} {r : Nat} (h : s.PosAt j r)
    (ha : ∀ k < numDirectData, x.addrs k = (s.ino i).addrs k)
    (hn : x.nextAddrBlock = (s.ino i).nextAddrBlock) (hp : (s.ino i).SamePos x) :
    (s.setIno i x).PosAt j r := by
  have hrefs : (s.setIno i x).refs = s.refs := refs_setIno ha hn
  refine h.mono ?_ fun q b hq => by rw [hrefs, hq]
  rcases eq_or_ne j i with rfl | hj
  · rwa [setIno_self]
  · rw [setIno_of_ne hj]
    exact Inode.SamePos.refl _

omit [DecidableEq ι] in
theorem PosAt.congr {j : ι} {r : Nat} (h : s.PosAt j r) (hino : t.ino j = s.ino j)
    (hrefs : ∀ p, t.refs (j, p) = s.refs (j, p)) : t.PosAt j r := by
  unfold PosAt
  rw [hino]
  intro hr
  obtain ⟨k, hk, hsum⟩ := h hr
  exact ⟨k, (hrefs _).trans hk, hsum⟩

/-- An inode that forgets its blocks; they stay in use. -/
theorem Owned.forget {L : Set Nat} {x : Inode} (h : s.Owned (A.without L))
    (ha : x.addrs = fun _ => none32) (hn : x.nextAddrBlock = none32) :
    (∃ L', (s.setIno i x).Owned (A.without L')) ∧
      ∀ j p, j ≠ i → (s.setIno i x).refs (j, p) = s.refs (j, p) := by
  have hempty : ∀ p, (s.setIno i x).refs (i, p) = none := by
    intro p
    rw [refs_eq, setIno_self]
    exact slotRef_blank ha hn p
  have hrefs : ∀ j p, j ≠ i → (s.setIno i x).refs (j, p) = s.refs (j, p) := by
    intro j p hj
    rw [refs_eq, refs_eq, setIno_of_ne hj]
    rfl
  have hleft : ∀ q b, (s.setIno i x).refs q = some b → q.1 ≠ i ∧ s.refs q = some b := by
    rintro ⟨j, p⟩ b hb
    rcases eq_or_ne j i with rfl | hj
    · rw [hempty] at hb
      cases hb
    · exact ⟨hj, (hrefs j p hj).symm.trans hb⟩
  refine ⟨⟨fun b => b ∈ L ∨ ∃ p, s.refs (i, p) = some b, ⟨h.ok.1, ?_⟩, ?_, ?_⟩, hrefs⟩
  · rintro b (hb | ⟨p, hp⟩)
    · exact h.ok.2 b hb
    · exact ((h.used b).mpr ⟨_, hp⟩).1
  · exact fun p q b hp hq => h.inj p q b (hleft p b hp).2 (hleft q b hq).2
  · intro b
    constructor
    · rintro ⟨hb, hnot⟩
      obtain ⟨⟨j, p⟩, hp⟩ := (h.used b).mp ⟨hb, fun hL => hnot (.inl hL)⟩
      have hj : j ≠ i := by
        rintro rfl
        exact hnot (.inr ⟨p, hp⟩)
      exact ⟨(j, p), (hrefs j p hj).trans hp⟩
    · rintro ⟨q, hq⟩
      obtain ⟨hqi, hq⟩ := hleft q b hq
      obtain ⟨hb, hbL⟩ := (h.used b).mpr ⟨q, hq⟩
      refine ⟨hb, ?_⟩
      rintro (hL | ⟨p, hp⟩)
      · exact hbL hL
      · exact hqi (congrArg Prod.fst (h.inj q (i, p) b hq hp))

theorem enter_read {alloc : Alloc α} {offset size : Nat} {buf : Bytes}
    (h : (enter alloc false i offset size buf s).isSome) : (s.ino i).nextAddrBlock ≠ none32 := by
  unfold enter at h
  split at h
  · cases h
  · next offset' pos' size' buf' t hloop =>
    have ht : t = s := directLoop_read (r := (offset', pos', size', buf')) _ _ _ _ _ hloop
    subst ht
    intro hnone
    rw [if_pos hnone] at h
    split at h
    · cases h
    · cases h

/-- A call that comes to the last loop does so at the request's indirect offset. -/
theorem enter_spec {write : Bool} {offset size r pos left : Nat} {buf buf' : Bytes}
    (h : s.Owned A) (henter : enter A.alloc write i offset size buf s =
      some (r, pos, left, buf', t)) :
    s.Reaches write i offset size ∧ r = offset - directDataSize ∧ 0 < left ∧
      r + left + directDataSize = offset + size ∧
      ∃ src, Upd A i offset (if write then pos else 0) src s t := by
  rcases dataRw_cases write i offset size buf h with ⟨hnone, -⟩ | ⟨n, buf'', u, hsome,
    hn, hb, heff, -⟩
  · rw [hnone] at henter
    cases henter
  · rw [hsome] at henter
    simp only [Option.some.injEq, Prod.mk.injEq] at henter
    obtain ⟨rfl, rfl, rfl, rfl, rfl⟩ := henter
    refine ⟨⟨by omega, ?_, ?_⟩, rfl, by omega, ?_, _, heff.upd⟩
    · simp only [directDataSize] at *
      omega
    · cases write with
      | true => exact .inl rfl
      | false => exact .inr (enter_read (by rw [hsome]; rfl))
    · simp only [directDataSize] at *
      omega

/-- What a call leaves behind, done or failed: the changes of some range, and after a last loop
a position that is right. -/
theorem dataRw_pos {write : Bool} {offset size : Nat} (buf : Bytes) (h : s.Owned A)
    (hr : s.Reaches write i offset size →
      s.PosAt i (offset - directDataSize) ∧ offset + size < 2 ^ 32 + directDataSize) :
    (∀ t, dataRw A.alloc write i offset size buf s = .error t →
      ∃ P n src, Upd A i P n src s t) ∧
    ∀ n buf' t, dataRw A.alloc write i offset size buf s = .ok (n, buf', t) →
      (∃ P n src, Upd A i P n src s t) ∧
      ((enter A.alloc write i offset size buf s).isSome → ∀ r, t.PosAt i r) := by
  have hdone : DoneSpec A write i offset 0 size buf s (dataRw A.alloc write i offset size buf s) ∧
      ((enter A.alloc write i offset size buf s).isSome → ∀ n buf' t,
        dataRw A.alloc write i offset size buf s = .ok (n, buf', t) → ∀ r, t.PosAt i r) := by
    rcases dataRw_cases write i offset size buf h with
      ⟨hnone, hdone⟩ | ⟨n, buf', u, hsome, hn, hb, heff, hlink⟩
    · refine ⟨hdone, fun hs => ?_⟩
      rw [hnone] at hs
      cases hs
    · obtain ⟨hreach, -, -, hsum, -⟩ := enter_spec h hsome
      obtain ⟨hpos, hend⟩ := hr hreach
      refine ⟨dataRw_spec h hpos hend, fun _ => ?_⟩
      rw [dataRw_of_enter hsome]
      refine (indirectRw_spec heff.upd.owned hlink (heff.upd.pos _ hpos) ?_).2
      simp only [directDataSize] at *
      omega
  obtain ⟨hspec, hremembers⟩ := hdone
  constructor
  · intro t ht
    rw [ht] at hspec
    obtain ⟨m, hm⟩ := hspec
    exact ⟨_, _, _, hm⟩
  · intro n buf' t ht
    refine ⟨?_, fun hs => hremembers hs n buf' t ht⟩
    rw [ht] at hspec
    exact ⟨_, _, _, hspec.2.upd⟩

end Store

namespace PosState

variable {ι : Type} [DecidableEq ι]

structure Inv (g : PosState ι) : Prop where
  owned : ∃ L, g.store.Owned (bitmapModel.without L)
  pos : ∀ i, g.stale i = false → ∀ r < none32, g.store.PosAt i r

variable {g : PosState ι} {write : Bool} {i j : ι} {offset size : Nat} {buf : Bytes}

omit [DecidableEq ι] in
/-- The position that an allowed call consults is right. -/
theorem Inv.posAt (h : Inv g) (hok : Ok g (.rw write i offset size buf))
    (hreach : g.store.Reaches write i offset size) :
    g.store.PosAt i (offset - directDataSize) ∧ offset + size < 2 ^ 32 + directDataSize := by
  obtain ⟨hend, hmiss⟩ := hok hreach
  refine ⟨?_, hend⟩
  cases hstale : g.stale i with
  | true => exact fun hhit => absurd hhit (hmiss hstale)
  | false =>
    refine h.pos i hstale _ ?_
    obtain ⟨hsize, hin, -⟩ := hreach
    simp only [none32, directDataSize] at *
    omega

theorem Inv.agrees (h : Inv g) (hok : Ok g (.rw write i offset size buf)) :
    Agrees g write i offset size buf := by
  obtain ⟨L, hown⟩ := h.owned
  have hpos : ∀ r pos left buf' u,
      Store.enter allocBlock write i offset size buf g.store = some (r, pos, left, buf', u) →
      0 < left ∧ u.PosAt i r := by
    intro r pos left buf' u henter
    obtain ⟨hreach, hr, hleft, -, src, hupd⟩ := Store.enter_spec hown henter
    rw [hr]
    exact ⟨hleft, hupd.pos _ (h.posAt hok hreach).1⟩
  refine ⟨fun r pos left buf' u henter hhit => (hpos r pos left buf' u henter).2.getBlockIndex hhit,
    ?_⟩
  cases henter : Store.enter allocBlock write i offset size buf g.store with
  | none => exact Store.dataRw_of_no_enter henter
  | some e =>
    obtain ⟨r, pos, left, buf', u⟩ := e
    obtain ⟨hleft, hu⟩ := hpos r pos left buf' u henter
    rw [Store.dataRw_of_enter henter, Store.dataRwPlain_of_enter henter,
      Store.indirectRw_plain hu hleft]

/-- The store after a `read` or a `write`. -/
theorem rw_cases (s : Store ι Super) (write : Bool) (i : ι) (offset size : Nat) (buf : Bytes) :
    (∃ t, s.rw write i offset size buf = .error t ∧
      Store.dataRw allocBlock write i offset size buf s = .error t) ∨
    ∃ n buf' u x, s.rw write i offset size buf = .ok (u.setIno i x) ∧
      Store.dataRw allocBlock write i offset size buf s = .ok (n, buf', u) ∧
      (∀ k < numDirectData, x.addrs k = (u.ino i).addrs k) ∧
      x.nextAddrBlock = (u.ino i).nextAddrBlock ∧
      (u.ino i).SamePos x := by
  unfold Store.rw
  cases write with
  | true =>
    rw [if_pos rfl]
    unfold Store.write
    cases hres : Store.dataRw allocBlock true i offset size buf s with
    | error t => exact .inl ⟨t, rfl, rfl⟩
    | ok res =>
      obtain ⟨n, buf', u⟩ := res
      refine .inr ⟨n, buf', u, ?_⟩
      by_cases hgrow : (u.ino i).size < offset + n
      · refine ⟨{ u.ino i with size := (offset + n) % 2 ^ 32, dirty := true }, ?_, rfl,
          fun _ _ => rfl, rfl, rfl, rfl, rfl⟩
        simp only [if_pos hgrow, Except.map]
      · refine ⟨u.ino i, ?_, rfl, fun _ _ => rfl, rfl, Inode.SamePos.refl _⟩
        simp only [if_neg hgrow, Except.map, Store.setIno_eq_self]
  | false =>
    rw [if_neg (by decide)]
    unfold Store.read
    cases hres : Store.dataRw allocBlock false i offset size buf s with
    | error t => exact .inl ⟨t, rfl, rfl⟩
    | ok res =>
      obtain ⟨n, buf', u⟩ := res
      exact .inr ⟨n, buf', u, u.ino i, by rw [Store.setIno_eq_self]; rfl, rfl, fun _ _ => rfl,
        rfl, Inode.SamePos.refl _⟩

theorem Inv.rw (h : Inv g) (hok : Ok g (.rw write i offset size buf)) :
    Inv (g.apply (.rw write i offset size buf)) := by
  obtain ⟨L, hown⟩ := h.owned
  obtain ⟨herr, hdone⟩ := Store.dataRw_pos buf hown (h.posAt hok)
  -- positions of inodes whose own position did not move
  have hkeep : ∀ {t : Store ι Super} {P n src},
    Store.Upd (bitmapModel.without L) i P n src g.store t →
      ∀ j, g.stale j = false → ∀ r < none32, t.PosAt j r := by
    intro t P n src hupd j hj r hr
    rcases eq_or_ne j i with rfl | hne
    · exact hupd.pos r (h.pos j hj r hr)
    · exact (h.pos j hj r hr).of_other (hupd.other j hne) hupd.refs
  show Inv (match g.store.rw write i offset size buf with
    | .error t => { g with store := t }
    | .ok t =>
      if (Store.enter allocBlock write i offset size buf g.store).isSome then
        ⟨t, Function.update g.stale i false⟩
      else { g with store := t })
  rcases rw_cases g.store write i offset size buf with
    ⟨t, hrw, hres⟩ | ⟨n, buf', u, x, hrw, hres, ha, hn, hp⟩
  · rw [hrw]
    obtain ⟨P, n, src, hupd⟩ := herr t hres
    exact ⟨⟨L, hupd.owned⟩, hkeep hupd⟩
  · rw [hrw]
    obtain ⟨⟨P, n, src, hupd⟩, hpos⟩ := hdone _ _ _ hres
    have hset := hupd.owned.setIno ha hn
    simp only
    split
    · next henter =>
      refine ⟨⟨L, hset⟩, fun j hj r hr => ?_⟩
      refine Store.PosAt.setIno ?_ ha hn hp
      rcases eq_or_ne j i with rfl | hne
      · exact hpos henter r
      · have hj : Function.update g.stale i false j = false := hj
        rw [Function.update_of_ne hne] at hj
        exact hkeep hupd j hj r hr
    · exact ⟨⟨L, hset⟩, fun j hj r hr => Store.PosAt.setIno (hkeep hupd j hj r hr) ha hn hp⟩

omit [DecidableEq ι] in
/-- What the other inodes need of a step that works on inode `i`. -/
theorem Inv.other {t : Store ι Super} {stale : ι → Bool} (h : Inv g) (hi : stale i = true)
    (hown : ∃ L, t.Owned (bitmapModel.without L))
    (hstale : ∀ j, j ≠ i → stale j = g.stale j)
    (hpos : ∀ j, j ≠ i → ∀ r, g.store.PosAt j r → t.PosAt j r) : Inv ⟨t, stale⟩ := by
  refine ⟨hown, fun j hj r hr => ?_⟩
  have hne : j ≠ i := by
    rintro rfl
    exact Bool.noConfusion (hi.symm.trans hj)
  exact hpos j hne r (h.pos j ((hstale j hne).symm.trans hj) r hr)

theorem Inv.truncate (h : Inv g) : Inv (g.apply (.truncate i)) := by
  obtain ⟨L, hown⟩ := h.owned
  obtain ⟨hown', htr⟩ := Store.truncate_spec (i := i) hown
  unfold apply
  simp only
  split
  · next hzero =>
    have heq : g.store.truncate i = g.store := if_pos hzero
    rw [heq]
    exact h
  · exact h.other (Function.update_self ..) ⟨L, hown'⟩ (fun j hj => Function.update_of_ne hj ..)
      fun j hj r hp => hp.congr (htr.other j hj) fun p => htr.refs j p hj

theorem Inv.unlink (h : Inv g) : Inv (g.apply (.unlink i)) := by
  obtain ⟨L, hown⟩ := h.owned
  have hown1 := hown.setIno (i := i) (x := { g.store.ino i with nlinks := 0 })
    (fun _ _ => rfl) rfl
  obtain ⟨hown2, htr⟩ := Store.truncate_spec (i := i) hown1
  refine h.other (i := i) (Function.update_self ..) ⟨L, hown2.setIno (fun _ _ => rfl) rfl⟩
    (fun j hj => Function.update_of_ne hj ..) fun j hj r hp => ?_
  have hp1 := hp.setIno (i := i) (x := { g.store.ino i with nlinks := 0 })
    (fun _ _ => rfl) rfl ⟨rfl, rfl, rfl⟩
  have hp2 := hp1.congr (htr.other j hj) fun p => htr.refs j p hj
  exact hp2.setIno (fun _ _ => rfl) rfl ⟨rfl, rfl, rfl⟩

theorem Inv.reuse (h : Inv g) : Inv (g.apply (.reuse i)) := by
  obtain ⟨L, hown⟩ := h.owned
  obtain ⟨hown', hrefs⟩ := hown.forget (i := i) (x := (g.store.ino i).initData) rfl rfl
  exact h.other (i := i) (Function.update_self ..) hown' (fun j hj => Function.update_of_ne hj ..)
    fun j hj r hp => hp.congr (Store.setIno_of_ne hj) fun p => hrefs j p hj

theorem Inv.recycle (h : Inv g) : Inv (g.apply (.recycle i j)) := by
  obtain ⟨L, hown⟩ := h.owned
  -- the new object of inode `i`
  have hnew : Inv ⟨g.store.setIno i ((g.store.ino i).withPos Inode.new),
      Function.update g.stale i false⟩ := by
    refine ⟨⟨L, hown.setIno (fun _ _ => rfl) rfl⟩, fun k hk r hr => ?_⟩
    rcases eq_or_ne k i with rfl | hne
    · intro hhit
      rw [Store.setIno_self] at hhit
      exact absurd hhit (Nat.ne_of_gt hr)
    · have hk : Function.update g.stale i false k = false := hk
      rw [Function.update_of_ne hne] at hk
      have hrefs : (g.store.setIno i ((g.store.ino i).withPos Inode.new)).refs = g.store.refs :=
        Store.refs_setIno (fun _ _ => rfl) rfl
      exact (h.pos k hk r hr).congr (Store.setIno_of_ne hne) fun p => congrFun hrefs (k, p)
  obtain ⟨L', hown'⟩ := hnew.owned
  obtain ⟨ha, hn⟩ : (g.store.ino j).addrs =
        ((g.store.setIno i ((g.store.ino i).withPos Inode.new)).ino j).addrs ∧
      (g.store.ino j).nextAddrBlock =
        ((g.store.setIno i ((g.store.ino i).withPos Inode.new)).ino j).nextAddrBlock := by
    rcases eq_or_ne j i with rfl | hne
    · rw [Store.setIno_self]
      exact ⟨rfl, rfl⟩
    · rw [Store.setIno_of_ne hne]
      exact ⟨rfl, rfl⟩
  have hrefs : (g.store.recycle i j).refs =
      (g.store.setIno i ((g.store.ino i).withPos Inode.new)).refs :=
    Store.refs_setIno (fun k _ => congrFun ha k) hn
  exact hnew.other (i := j) (Function.update_self ..)
    ⟨L', hown'.setIno (fun k _ => congrFun ha k) hn⟩
    (fun k hk => Function.update_of_ne hk ..) fun k hk r hp =>
      hp.congr (Store.setIno_of_ne hk) fun p => congrFun hrefs (k, p)

theorem Inv.step {c : PosCall ι} {g' : PosState ι} (h : Inv g) (hok : Ok g c)
    (hstep : Step g c g') : Inv g' := by
  subst hstep
  cases c with
  | rw write i offset size buf => exact h.rw hok
  | truncate i => exact h.truncate
  | unlink i => exact h.unlink
  | reuse i => exact h.reuse
  | recycle i j => exact h.recycle

omit [DecidableEq ι] in
theorem inv_initial {nblocks : Nat} {disk : Nat → Bytes} (hfits : Fits nblocks) :
    Inv (initial nblocks disk : PosState ι) := by
  have hrefs : ∀ p, (initial nblocks disk : PosState ι).store.refs p = none :=
    fun p => Store.slotRef_blank rfl rfl p.2
  refine ⟨⟨∅, ⟨formatDev_ok hfits, fun b hb => nomatch hb⟩, fun p q b hp => ?_, fun b => ⟨?_, ?_⟩⟩,
    fun i _ r hr hhit => absurd hhit (Nat.ne_of_gt hr)⟩
  · rw [hrefs] at hp
    cases hp
  · exact fun hb => absurd hb.1 (not_used_formatDev hfits b)
  · rintro ⟨p, hp⟩
    rw [hrefs] at hp
    cases hp

/-- The remembered position agrees with the walk, in every state that allowed calls reach and
for every call that is allowed there. -/
theorem position_agrees {ι : Type} [DecidableEq ι] (nblocks : Nat) (disk : Nat → Bytes)
    (hfits : Fits nblocks) (cs : List (PosCall ι)) (g : PosState ι)
    (hrun : Run (Guarded Step Ok) (initial nblocks disk) cs g) (write : Bool) (i : ι)
    (offset size : Nat) (buf : Bytes) (hok : Ok g (.rw write i offset size buf)) :
    Agrees g write i offset size buf := by
  have hinv : Inv g := by
    refine Run.invariant (fun g c g' h hstep => ?_) hrun (inv_initial hfits)
    exact h.step hstep.1 hstep.2
  exact hinv.agrees hok

/-- A write that takes the fast path, at the end of the one before. -/
theorem position_agrees_append :
    ∃ g : PosState Nat, Run (Guarded Step Ok) (initial 1024 fun _ _ => 0)
        [.rw true 0 13312 1 fun _ => 7] g ∧
      (g.store.ino 0).cacheRawIndirectOffset = 13313 - directDataSize ∧
      Agrees g true 0 13313 1 fun _ => 8 := by
  have hstep : ∃ g : PosState Nat,
      (initial 1024 fun _ _ => 0 : PosState Nat).apply (.rw true 0 13312 1 fun _ => 7) = g ∧
      (g.store.ino 0).cacheRawIndirectOffset = 13313 - directDataSize ∧ g.stale 0 = false :=
    ⟨_, rfl, rfl, rfl⟩
  obtain ⟨g, hg, hhit, hfresh⟩ := hstep
  have hrun : Run (Guarded Step Ok) (initial 1024 fun _ _ => 0) [.rw true 0 13312 1 fun _ => 7] g :=
    Run.single ⟨fun _ => ⟨by decide, fun hstale => nomatch hstale⟩, hg⟩
  refine ⟨g, hrun, hhit, position_agrees 1024 _ (by decide) _ g hrun true 0 13313 1 _ ?_⟩
  refine fun _ => ⟨by decide, fun hstale => ?_⟩
  rw [hfresh] at hstale
  cases hstale

/-- File 0 was written at the start of its indirect part and truncated, and file 1 has taken the
block that was its address block. -/
def afterTruncate : PosState Nat :=
  (((initial 1024 fun _ _ => 0).apply (.rw true 0 13312 1 fun _ => 7)).apply (.truncate 0)).apply
    (.rw true 1 0 1 fun _ => 9)

/-- The next write to file 0 uses the block of file 1 as an address block. -/
theorem position_disagrees :
    Run Step (initial 1024 fun _ _ => 0)
        [.rw true 0 13312 1 fun _ => 7, .truncate 0, .rw true 1 0 1 fun _ => 9] afterTruncate ∧
      ¬ Agrees afterTruncate true 0 13313 1 fun _ => 8 := by
  refine ⟨?_, fun hagree => ?_⟩
  · have h₁ : Run Step (initial 1024 fun _ _ => 0) [.rw true 0 13312 1 fun _ => 7] _ :=
      Run.single rfl
    exact (h₁.append (Run.single rfl)).append (Run.single rfl)
  · have hval : (Store.enter allocBlock true 0 13313 1 (fun _ => 8) afterTruncate.store).map
        (fun e => (e.1, (e.2.2.2.2.ino 0).cacheRawIndirectOffset,
          (Store.getBlockIndex allocBlock (e.2.2.2.2.ino 0).cacheAddrBlock
            (e.2.2.2.2.ino 0).cacheOffset e.2.2.2.2.dev).toOption.map Prod.fst,
          (Store.getBlockIndex allocBlock (e.2.2.2.2.ino 0).nextAddrBlock e.1
            e.2.2.2.2.dev).toOption.map Prod.fst)) = some (1, 1, some 5, some 6) := by
      decide +kernel
    obtain ⟨⟨r, pos, left, buf', u⟩, henter, hvals⟩ := Option.map_eq_some_iff.mp hval
    simp only [Prod.mk.injEq] at hvals
    obtain ⟨hr, hraw, hcache, hwalk⟩ := hvals
    have heq := hagree.1 r pos left buf' u henter (hraw.trans hr.symm)
    rw [heq, hwalk] at hcache
    cases hcache

end PosState

end CoroCore.Nfs
