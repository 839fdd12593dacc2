import CoroCore.Nfs.Frame
import CoroCore.Nfs.PositionCache
import CoroCore.Nfs.Sequential

/-!
# The size that `write` records

`write` compares and stores `offset + write_size` also if nothing was written, and `metadata.size`
has 32 bits. `Recorded` is what a completed write should leave behind: the size is the larger one of
its old value and the end of the bytes written, and the remembered position is the end of the
indirect part.

* `write_outcome`: what `metadata.size` is after any completed write, in any state;
* `size_recorded_iff`: a write records the right size and position exactly if it ends below 2^32, or
  writes nothing at an offset that the file already has (or whose low 32 bits are its size);
* `size_recorded_empty`: a write of no bytes makes an empty file longer.
-/

namespace CoroCore.Nfs

open Lib

namespace Store

variable {ι α : Type} [DecidableEq ι] {A : AllocModel α} {alloc : Alloc α} {i : ι}
  {s t : Store ι α} {write : Bool} {offset size n : Nat} {buf buf' src : Bytes}

/-! ## The number of bytes -/

theorem directLoop_count : ∀ (fuel offset pos size : Nat) (buf : Bytes) (s : Store ι α)
    {o p l : Nat} {b : Bytes},
    directLoop alloc write i fuel offset pos size buf s = .ok (o, p, l, b, t) →
    p + l = pos + size := by
  intro fuel
  induction fuel with
  | zero =>
    intro offset pos size buf s o p l b h
    cases h
    rfl
  | succ fuel ih =>
    intro offset pos size buf s o p l b h
    unfold directLoop at h
    split at h
    · split at h
      · cases h
      · rw [ih _ _ _ _ _ h, Nat.add_assoc, Nat.add_sub_cancel' (Nat.min_le_left ..)]
    · cases h
      rfl

theorem indirectRw_count {r pos : Nat} (h : indirectRw alloc write i r pos size buf s =
    .ok (n, buf', t)) : n = pos + size := by
  unfold indirectRw at h
  split at h
  · cases h
  · cases h
    rfl

/-- A completed call has done all bytes. -/
theorem dataRw_count (h : dataRw alloc write i offset size buf s = .ok (n, buf', t)) :
    n = size := by
  unfold dataRw at h
  split at h
  · cases h
  next o p l b u hloop =>
  have hsum := directLoop_count _ _ _ _ _ _ hloop
  rw [Nat.zero_add] at hsum
  split at h
  · next hzero =>
    cases h
    rwa [hzero, Nat.add_zero] at hsum
  split at h
  · split at h
    · split at h
      · cases h
      · rw [indirectRw_count h, hsum]
    · cases h
      exact hsum
  · rw [indirectRw_count h, hsum]

/-- A completed write is a completed call of `data_rw`, and a comparison of the sizes. -/
theorem write_eq_ok (h : Store.write alloc i offset size src s = .ok (n, t)) :
    n = size ∧ ∃ buf' u, dataRw alloc true i offset size src s = .ok (size, buf', u) ∧
      t = if (u.ino i).size < offset + size then
        u.setIno i { u.ino i with size := (offset + size) % 2 ^ 32, dirty := true } else u := by
  unfold Store.write at h
  cases hres : dataRw alloc true i offset size src s with
  | error u =>
    rw [hres] at h
    cases h
  | ok res =>
    obtain ⟨m, buf', u⟩ := res
    rw [hres] at h
    obtain rfl := dataRw_count hres
    simp only at h
    split at h
    · next hlt =>
      cases h
      exact ⟨rfl, buf', u, rfl, (if_pos hlt).symm⟩
    · next hge =>
      cases h
      exact ⟨rfl, buf', t, rfl, (if_neg hge).symm⟩

/-! ## The metadata and the position before the comparison -/

omit [DecidableEq ι] in
theorem ino_devFrame (alloc : Alloc α) (x : ι → Inode) :
    DevFrame alloc fun s : Store ι α => s.ino = x :=
  ⟨fun _ _ _ h _ => h, fun _ _ h _ => h, fun _ _ _ h => h⟩

theorem indirectRw_eq_ok {r pos : Nat} (h : indirectRw alloc write i r pos size buf s =
    .ok (n, buf', t)) : t.ino = Function.update s.ino i (t.ino i) ∧
      (s.ino i).size = (t.ino i).size ∧
      (t.ino i).cacheRawIndirectOffset = (r + size) % 2 ^ 32 := by
  unfold indirectRw at h
  split at h
  · cases h
  next cur o b u hloop =>
  have hino := (ino_devFrame alloc s.ino).indirectLoop write size (startAt (s.ino i) r).1
    (startAt (s.ino i) r).2 pos size buf s rfl
  rw [hloop] at hino
  have hino' : u.ino = s.ino := hino
  cases h
  rw [setIno_self]
  refine ⟨?_, ?_, rfl⟩
  · show Function.update u.ino i _ = _
    rw [hino']
  · show _ = (u.ino i).size
    rw [hino']

/-- `data_rw` does not touch `metadata.size`. -/
theorem dataRw_size (h : s.Owned A)
    (hres : dataRw A.alloc write i offset size buf s = .ok (n, buf', t)) (j : ι) :
    (t.ino j).size = (s.ino j).size := by
  rcases dataRw_cases write i offset size buf h with
    ⟨-, hdone⟩ | ⟨m, buf₁, u, henter, -, -, heff, -⟩
  · rw [hres] at hdone
    have hupd := hdone.2.upd
    rcases eq_or_ne j i with rfl | hj
    · exact hupd.like.1
    · rw [hupd.other j hj]
  · rw [dataRw_of_enter henter] at hres
    obtain ⟨hino, hsize, -⟩ := indirectRw_eq_ok hres
    rcases eq_or_ne j i with rfl | hj
    · exact hsize.symm.trans heff.upd.like.1
    · rw [hino, Function.update_of_ne hj, heff.upd.other j hj]

/-- What a completed write leaves in `metadata.size`. -/
theorem write_outcome (h : s.Owned A)
    (hwrite : Store.write A.alloc i offset size src s = .ok (n, t)) :
    n = size ∧ (t.ino i).size =
        (if (s.ino i).size < offset + size then (offset + size) % 2 ^ 32 else (s.ino i).size) ∧
      ∀ j, j ≠ i → (t.ino j).size = (s.ino j).size := by
  obtain ⟨hn, buf', u, hres, ht⟩ := write_eq_ok hwrite
  have hsize := dataRw_size h hres
  refine ⟨hn, ?_, fun j hj => ?_⟩
  · rw [ht, hsize i]
    split
    · rw [setIno_self]
    · exact hsize i
  · rw [ht]
    split
    · rw [setIno_of_ne hj]
      exact hsize j
    · exact hsize j

/-- The remembered position is the end of the indirect part. -/
def Ends (i : ι) (r : Nat) (s : Store ι α) : Prop :=
  (s.ino i).cacheRawIndirectOffset = r ∧
    ∃ k, s.refs (i, .link k) = some (s.ino i).cacheAddrBlock ∧
      k * addrBlockDataSize + (s.ino i).cacheOffset = r

theorem Ends.setIno {x : Inode} {r : Nat} (h : s.Ends i r)
    (ha : ∀ k < numDirectData, x.addrs k = (s.ino i).addrs k)
    (hn : x.nextAddrBlock = (s.ino i).nextAddrBlock) (hp : (s.ino i).SamePos x) :
    (s.setIno i x).Ends i r := by
  obtain ⟨hraw, hoff, haddr⟩ := hp
  unfold Ends
  rw [setIno_self, refs_setIno ha hn, hraw, hoff, haddr]
  exact h

/-- A call of `data_rw` with an indirect part. -/
theorem dataRw_ends (h : s.Owned A) (hsize : 0 < size) (hin : directDataSize < offset + size)
    (hpos : s.PosAt i (offset - directDataSize)) (hend : offset + size < 2 ^ 32)
    (hres : dataRw A.alloc true i offset size buf s = .ok (n, buf', t)) :
    t.Ends i (offset + size - directDataSize) := by
  rcases dataRw_cases true i offset size buf h with
    ⟨hnone, -⟩ | ⟨m, buf₁, u, henter, -, -, heff, hlink⟩
  · obtain hle | ⟨hw, -⟩ := no_enter_end h hsize hnone hres
    · exact absurd hin (Nat.not_lt.mpr hle)
    · cases hw
  · obtain ⟨-, -, hleft, hsum, -⟩ := enter_spec h henter
    rw [dataRw_of_enter henter] at hres
    have hlt : offset - directDataSize + (size - m) < 2 ^ 32 := by
      simp only [directDataSize] at *
      omega
    have hr : offset - directDataSize + (size - m) = offset + size - directDataSize := by
      rw [← hsum, Nat.add_sub_cancel]
    obtain ⟨-, -, hraw⟩ := indirectRw_eq_ok hres
    rw [Nat.mod_eq_of_lt hlt, hr] at hraw
    exact ⟨hraw, (indirectRw_spec heff.upd.owned hlink (heff.upd.pos _ hpos) hlt).2
      _ _ _ hres _ hraw⟩

/-! ## Sizes of 32 bits -/

def Sized (s : Store ι α) : Prop := ∀ i, (s.ino i).size < 2 ^ 32

theorem Sized.setIno {x : Inode} (h : s.Sized) (hx : x.size < 2 ^ 32) : (s.setIno i x).Sized := by
  intro j
  rcases eq_or_ne j i with rfl | hj
  · rwa [setIno_self]
  · rw [setIno_of_ne hj]
    exact h j

omit [DecidableEq ι] in
theorem Sized.upd {P m : Nat} (h : s.Sized) (hu : Upd A i P m src s t) : t.Sized := by
  intro j
  rcases eq_or_ne j i with rfl | hj
  · rw [hu.like.1]
    exact h j
  · rw [hu.other j hj]
    exact h j

theorem Sized.truncate {s : Store ι Super} (h : s.Sized) : (s.truncate i).Sized := by
  unfold Store.truncate
  split
  · exact h
  · exact Sized.setIno (show Sized { s with dev := _ } from h) (Nat.two_pow_pos 32)

theorem write_eq_error (h : Store.write alloc i offset size src s = .error t) :
    dataRw alloc true i offset size src s = .error t := by
  unfold Store.write at h
  split at h
  · next u hres =>
    cases h
    exact hres
  · split at h
    · cases h
    · cases h

/-! ## What a write records -/

/-- What a completed write of `size` bytes at `offset` should leave behind. -/
structure Recorded (i : ι) (offset size : Nat) (s t : Store ι α) : Prop where
  length : (t.ino i).size = if size = 0 then (s.ino i).size else max (s.ino i).size (offset + size)
  pos : 0 < size → directDataSize < offset + size → t.Ends i (offset + size - directDataSize)

/-- The writes after which the size of the file, `old` before, is right. -/
def SizeFits (old offset size : Nat) : Prop :=
  if size = 0 then offset ≤ old ∨ offset % 2 ^ 32 = old else offset + size < 2 ^ 32

theorem recorded_iff (h : s.Owned A) (hold : (s.ino i).size < 2 ^ 32)
    (hpos : s.Reaches true i offset size → offset + size < 2 ^ 32 →
      s.PosAt i (offset - directDataSize))
    (hwrite : Store.write A.alloc i offset size src s = .ok (n, t)) :
    s.Recorded i offset size t ↔ SizeFits (s.ino i).size offset size := by
  obtain ⟨-, hsize, -⟩ := write_outcome h hwrite
  unfold SizeFits
  rcases Nat.eq_zero_or_pos size with rfl | hlt
  · rw [if_pos rfl]
    rw [Nat.add_zero] at hsize
    have hrec : s.Recorded i offset 0 t ↔ (t.ino i).size = (s.ino i).size :=
      ⟨fun hr => hr.length, fun hr => ⟨hr, fun h0 => absurd h0 (Nat.lt_irrefl 0)⟩⟩
    rw [hrec, hsize]
    split
    · next hgrow => exact ⟨.inr, fun hor => hor.resolve_left (Nat.not_le.mpr hgrow)⟩
    · next hle => exact ⟨fun _ => .inl (Nat.not_lt.mp hle), fun _ => rfl⟩
  · rw [if_neg (Nat.ne_of_gt hlt)]
    constructor
    · intro hr
      have hmax := hr.length
      rw [if_neg (Nat.ne_of_gt hlt)] at hmax
      -- the field holds 32 bits, whichever way the comparison went
      have hfield : (t.ino i).size < 2 ^ 32 := by
        rw [hsize]
        split
        · exact Nat.mod_lt _ (by decide)
        · exact hold
      exact Nat.lt_of_le_of_lt (hmax ▸ Nat.le_max_right ..) hfield
    · intro hend
      refine ⟨?_, fun _ hin => ?_⟩
      · rw [if_neg (Nat.ne_of_gt hlt), hsize]
        split
        · next hgrow => rw [Nat.mod_eq_of_lt hend, Nat.max_eq_right (Nat.le_of_lt hgrow)]
        · next hle => rw [Nat.max_eq_left (Nat.not_lt.mp hle)]
      · obtain ⟨-, buf', u, hres, rfl⟩ := write_eq_ok hwrite
        have hends := dataRw_ends h hlt hin (hpos ⟨hlt, hin, .inl rfl⟩ hend) hend hres
        split
        · exact hends.setIno (fun _ _ => rfl) rfl ⟨rfl, rfl, rfl⟩
        · exact hends

end Store

/-! ## Runs -/

namespace PosState

variable {ι : Type} [DecidableEq ι] {g : PosState ι}

theorem Inv.rw_sized {write : Bool} {i : ι} {offset size : Nat} {buf : Bytes} (h : Inv g)
    (hok : Ok g (.rw write i offset size buf)) (hs : g.store.Sized) :
    (Store.endState id (g.store.rw write i offset size buf)).Sized := by
  obtain ⟨L, hown⟩ := h.owned
  obtain ⟨herr, -⟩ := Store.dataRw_pos buf hown (h.posAt hok)
  unfold Store.rw
  cases write with
  | true =>
    rw [if_pos rfl]
    cases hres : Store.write allocBlock i offset size buf g.store with
    | error t =>
      obtain ⟨P, n, src, hupd⟩ := herr t (Store.write_eq_error hres)
      exact hs.upd hupd
    | ok r =>
      obtain ⟨-, hsize, hother⟩ := Store.write_outcome (A := bitmapModel.without L) hown hres
      intro j
      rcases eq_or_ne j i with rfl | hj
      · show (r.2.ino j).size < 2 ^ 32
        rw [hsize]
        split
        · exact Nat.mod_lt _ (by decide)
        · exact hs j
      · show (r.2.ino j).size < 2 ^ 32
        rw [hother j hj]
        exact hs j
  | false =>
    rw [if_neg (by decide)]
    cases hres : Store.read allocBlock i offset size buf g.store with
    | error t =>
      obtain ⟨P, n, src, hupd⟩ := herr t hres
      exact hs.upd hupd
    | ok r =>
      intro j
      have hsize := Store.dataRw_size (A := bitmapModel.without L) hown hres j
      show (r.2.2.ino j).size < 2 ^ 32
      rw [hsize]
      exact hs j

theorem Inv.sized {c : PosCall ι} (h : Inv g) (hok : Ok g c) (hs : g.store.Sized) :
    (g.apply c).store.Sized := by
  cases c with
  | rw write i offset size buf =>
    have hrw := h.rw_sized hok hs
    rw [apply]
    cases hres : g.store.rw write i offset size buf with
    | error t =>
      rw [hres] at hrw
      exact hrw
    | ok t =>
      rw [hres] at hrw
      simp only
      split
      · exact hrw
      · exact hrw
  | truncate i =>
    have ht := hs.truncate (i := i)
    unfold apply
    simp only
    split
    · exact ht
    · exact ht
  | unlink i =>
    have hlinks := hs.setIno (i := i) (x := { g.store.ino i with nlinks := 0 }) (hs i)
    have ht := hlinks.truncate (i := i)
    exact ht.setIno (ht i)
  | reuse i => exact hs.setIno (Nat.two_pow_pos 32)
  | recycle i j =>
    exact Store.Sized.setIno (hs.setIno (x := (g.store.ino i).withPos Inode.new) (hs i)) (hs j)

/-- In every state that allowed calls reach, a write records the right size and position exactly
if they fit, unless it goes on from a stale position. -/
theorem size_recorded_iff (nblocks : Nat) (disk : Nat → Bytes) (hfits : Fits nblocks)
    (cs : List (PosCall ι)) (hrun : Run (Guarded Step Ok) (initial nblocks disk) cs g) (i : ι)
    (offset size : Nat) (src : Bytes)
    (hmiss : g.store.Reaches true i offset size → g.stale i = true →
      (g.store.ino i).cacheRawIndirectOffset ≠ offset - directDataSize)
    (n : Nat) (t : Store ι Super)
    (hwrite : g.store.write allocBlock i offset size src = .ok (n, t)) :
    g.store.Recorded i offset size t ↔ Store.SizeFits (g.store.ino i).size offset size := by
  obtain ⟨hinv, hsized⟩ : Inv g ∧ g.store.Sized := by
    refine Run.invariant (I := fun g => Inv g ∧ g.store.Sized) (fun g c g' h hstep => ?_) hrun
      ⟨inv_initial hfits, fun _ => Nat.two_pow_pos 32⟩
    obtain ⟨hok, rfl⟩ := hstep
    exact ⟨h.1.step hok rfl, h.1.sized hok h.2⟩
  obtain ⟨L, hown⟩ := hinv.owned
  refine Store.recorded_iff (A := bitmapModel.without L) hown (hsized i)
    (fun hreach hend => ?_) hwrite
  have hok : Ok g (.rw true i offset size src) :=
    fun hr => ⟨Nat.lt_add_right directDataSize hend, hmiss hr⟩
  exact (hinv.posAt hok hreach).1

/-- A write that goes on where the one before ended. -/
theorem size_recorded_append : ∃ (g : PosState Nat) (t : Store Nat Super),
    Run (Guarded Step Ok) (initial 1024 fun _ _ => 0) [.rw true 0 13312 1 fun _ => 7] g ∧
      g.store.write allocBlock 0 13313 1 (fun _ => 8) = .ok (1, t) ∧
      g.store.Recorded 0 13313 1 t := by
  have hstep : ∃ g : PosState Nat,
      (initial 1024 fun _ _ => 0 : PosState Nat).apply (.rw true 0 13312 1 fun _ => 7) = g ∧
      g.stale 0 = false ∧
      ((g.store.write allocBlock 0 13313 1 fun _ => 8).toOption.map Prod.fst) = some 1 := by
    refine ⟨_, rfl, rfl, ?_⟩
    decide +kernel
  obtain ⟨g, hg, hfresh, hres⟩ := hstep
  obtain ⟨⟨n, t⟩, hwrite, rfl⟩ := Option.map_eq_some_iff.mp hres
  have hwrite := toOption_ok hwrite
  have hrun : Run (Guarded Step Ok) (initial 1024 fun _ _ => 0) [.rw true 0 13312 1 fun _ => 7] g :=
    Run.single ⟨fun _ => ⟨by decide, fun hstale => nomatch hstale⟩, hg⟩
  have hfits : Store.SizeFits (g.store.ino 0).size 13313 1 := by
    unfold Store.SizeFits
    rw [if_neg (by decide)]
    decide
  refine ⟨g, t, hrun, hwrite, (size_recorded_iff 1024 _ (by decide) _ hrun 0 13313 1 _ ?_ 1 t
    hwrite).mpr hfits⟩
  intro _ hstale
  rw [hfresh] at hstale
  cases hstale

/-- A write of no bytes, at offset 100 of an empty file. -/
theorem size_recorded_empty : ∃ t : Store Nat Super,
    (initial 1024 fun _ _ => 0 : PosState Nat).store.write allocBlock 0 100 0 (fun _ => 0) =
      .ok (0, t) ∧ (t.ino 0).size = 100 ∧
    ¬ (initial 1024 fun _ _ => 0 : PosState Nat).store.Recorded 0 100 0 t :=
  ⟨_, rfl, rfl, fun h => nomatch (show (100 : Nat) = 0 from h.length)⟩

end PosState

end CoroCore.Nfs
