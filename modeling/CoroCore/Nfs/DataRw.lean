import CoroCore.Nfs.Effect

/-!
# `data_rw` as a whole

* `getBlockIndex_cases`: from any block of the chain, `get_block_index` reaches the address
  block of the position, extending the chain where it ends;
* `indirectLoop_spec`, `directLoop_spec`: the two loops, piece by piece;
* `dataRw_spec`: a call of `data_rw` reads or writes the bytes of its range, and the position
  it remembers is one of the chain.
-/

namespace CoroCore.Nfs

open Lib

/-- The first loop of `get_block_index` stays on the chain. It stops at the address block of
the position or at the end of the chain. -/
theorem walk_spec {disk : Nat → Bytes} {a : Nat} : ∀ (fuel k b o : Nat),
    o < (fuel + 1) * addrBlockDataSize → chain disk a k = some b →
    ∃ m b' o', Store.walk disk fuel b o = (b', o') ∧ chain disk a (k + m) = some b' ∧
      m * addrBlockDataSize + o' = o ∧ (o' < addrBlockDataSize ∨ nextOf (disk b') = none32) := by
  intro fuel
  induction fuel with
  | zero =>
    intro k b o ho hb
    refine ⟨0, b, o, rfl, hb, by omega, .inl (by omega)⟩
  | succ fuel ih =>
    intro k b o ho hb
    unfold Store.walk
    split
    · next hlt => exact ⟨0, b, o, rfl, hb, by omega, .inl hlt⟩
    · next hge =>
      split
      · next hend => exact ⟨0, b, o, rfl, hb, by omega, .inr hend⟩
      · next hnext =>
        have hk : chain disk a (k + 1) = some (nextOf (disk b)) := by
          rw [chain, hb, Option.bind_some, toRef, if_neg hnext]
        obtain ⟨m, b', o', hw, hc, hsum, hstop⟩ :=
          ih (k + 1) (nextOf (disk b)) (o - addrBlockDataSize)
            (by simp only [addrBlockDataSize] at *; omega) hk
        refine ⟨m + 1, b', o', hw, ?_, ?_, hstop⟩
        · rw [show k + (m + 1) = k + 1 + m by omega]
          exact hc
        · have hge : addrBlockDataSize ≤ o := Nat.not_lt.mp hge
          rw [Nat.succ_mul, Nat.add_right_comm, hsum, Nat.sub_add_cancel hge]

namespace Store

variable {ι α : Type} [DecidableEq ι] {A : AllocModel α} {s t : Store ι α} {i : ι}
  {P n : Nat} {src : Bytes}

/-- A new address block changes no file. -/
theorem Adds.upd {k b : Nat} (h : Adds s t (i, .link k) b) (ht : t.Owned A)
    (hother : ∀ j, j ≠ i → t.ino j = s.ino j) (hlike : (s.ino i).Like (t.ino i))
    (hpos : (s.ino i).SamePos (t.ino i))
    (hdirty : (s.ino i).SameAddrs (t.ino i) ∨ (t.ino i).dirty = true) : Kept A i s t := by
  have hne : ∀ q b', s.refs q = some b' → q ≠ (i, .link k) := by
    rintro q b' hq rfl
    rw [h.empty] at hq
    cases hq
  have hmono : ∀ q b', s.refs q = some b' → t.refs q = some b' := by
    intro q b' hq
    rw [h.refs, Function.update_of_ne (hne q b' hq), hq]
  refine ⟨ht, hmono, fun _ h1 h2 => absurd h1 (Nat.not_le.mpr h2), fun j p _ => ?_, hother, hlike,
    hdirty, fun _ hp => hp.mono hpos hmono⟩
  have hslot : (j, slotAt (p / blockSize)) ≠ (i, .link k) := by
    intro e
    have hd := slotAt_isData (p / blockSize)
    rw [show slotAt (p / blockSize) = .link k from congrArg Prod.snd e] at hd
    exact hd
  rw [byte_eq, byte_eq, h.refs, Function.update_of_ne hslot]
  cases hx : s.refs (j, slotAt (p / blockSize)) with
  | none => rfl
  | some x => exact congrFun (h.data _ x (slotAt_isData _) hx) _

/-- One round of the second loop of `get_block_index`. -/
theorem linkBlock_spec {k b nb : Nat} {d : Dev α} (h : s.Owned A)
    (hb : s.refs (i, .link k) = some b) (hend : nextOf (s.dev.disk b) = none32)
    (ha : A.alloc s.dev = .ok (nb, d)) :
    Kept A i s { s with dev := linkBlock d b nb } ∧
      Store.refs { s with dev := linkBlock d b nb } (i, .link (k + 1)) = some nb ∧
      nextOf ((linkBlock d b nb).disk nb) = none32 := by
  obtain ⟨hok, hnb, hnew, hnbused, hused, hdisk⟩ := h.alloc_ok ha
  obtain ⟨hbn, hbused, hbdisk⟩ := hdisk _ b hb
  have hst1 := A.store_ok d nb (blankBlock (d.disk nb)) hok hnbused
  have hst2 := A.store_ok (d.store nb (blankBlock (d.disk nb))) b
    (setNext ((d.store nb (blankBlock (d.disk nb))).disk b) nb) hst1.1 ((hst1.2 b).mpr hbused)
  have hblank : (linkBlock d b nb).disk nb = blankBlock (d.disk nb) :=
    (Dev.store_of_ne hbn.symm).trans Dev.store_self
  have hadd : Adds s { s with dev := linkBlock d b nb } (i, .link (k + 1)) nb := by
    refine Adds.link h hb hend hnb rfl ?_ ?_ ?_ ?_
    · show (linkBlock d b nb).disk b = _
      rw [linkBlock, Dev.store_self, Dev.store_of_ne hbn, hbdisk]
    · rw [hblank, nextOf_blank]
    · intro j hj
      rw [hblank, addrAt_blank hj]
    · intro q x hx hxb
      obtain ⟨hxn, -, hxd⟩ := hdisk q x hx
      exact (Dev.store_of_ne hxb).trans ((Dev.store_of_ne hxn).trans hxd)
  have hown : Owned A { s with dev := linkBlock d b nb } :=
    h.adds hadd hst2.1 (fun hb => (h.used nb).mp hb |>.elim hnew)
      fun x => (hst2.2 x).trans ((hst1.2 x).trans (hused x))
  refine ⟨hadd.upd hown (fun _ _ => rfl) (Inode.Like.refl _) (Inode.SamePos.refl _)
    (.inl (Inode.SameAddrs.refl _)), ?_, ?_⟩
  · rw [hadd.refs, Function.update_self]
  · rw [hblank, nextOf_blank]

/-- What `get_block_index` reaches from the `k`-th address block with offset `o`. -/
def IndexSpec (A : AllocModel α) (i : ι) (s : Store ι α) (k o : Nat) :
    Except (Dev α) (Nat × Nat × Dev α) → Prop
  | .error d => Kept A i s { s with dev := d }
  | .ok (b, o', d) => Kept A i s { s with dev := d } ∧
      Store.refs { s with dev := d } (i, .link (k + o / addrBlockDataSize)) = some b ∧
      o' = o % addrBlockDataSize

omit [DecidableEq ι] in
theorem IndexSpec.step {k m o o' : Nat} {d : Dev α} {r : Except (Dev α) (Nat × Nat × Dev α)}
    (h : Kept A i s { s with dev := d }) (ho : m * addrBlockDataSize + o' = o)
    (hr : IndexSpec A i { s with dev := d } (k + m) o' r) : IndexSpec A i s k o r := by
  have hdiv : o / addrBlockDataSize = m + o' / addrBlockDataSize := by
    simp only [addrBlockDataSize] at *
    omega
  have hmod : o % addrBlockDataSize = o' % addrBlockDataSize := by
    simp only [addrBlockDataSize] at *
    omega
  cases r with
  | error d' => exact h.append hr
  | ok r =>
    obtain ⟨hk, hrefs, hrem⟩ := hr
    refine ⟨h.append hk, ?_, hrem.trans hmod.symm⟩
    rw [hdiv, ← Nat.add_assoc]
    exact hrefs

omit [DecidableEq ι] in
theorem IndexSpec.here {k b o : Nat} (h : s.Owned A) (hb : s.refs (i, .link k) = some b)
    (hlt : o < addrBlockDataSize) : IndexSpec A i s k o (.ok (b, o, s.dev)) := by
  refine ⟨Upd.refl h, ?_, (Nat.mod_eq_of_lt hlt).symm⟩
  rw [Nat.div_eq_of_lt hlt]
  exact hb

/-- The second loop of `get_block_index`. -/
theorem extend_spec : ∀ (fuel k b o : Nat) (s : Store ι α), s.Owned A →
    o < (fuel + 1) * addrBlockDataSize → s.refs (i, .link k) = some b →
    (o < addrBlockDataSize ∨ nextOf (s.dev.disk b) = none32) →
    IndexSpec A i s k o (extend A.alloc fuel b o s.dev) := by
  intro fuel
  induction fuel with
  | zero =>
    intro k b o s h ho hb _
    exact IndexSpec.here h hb (by omega)
  | succ fuel ih =>
    intro k b o s h ho hb hend
    unfold extend
    split
    · next hlt => exact IndexSpec.here h hb hlt
    · next hge =>
      have hend : nextOf (s.dev.disk b) = none32 := hend.resolve_left hge
      split
      · next d ha => exact h.alloc_error ha
      · next nb d ha =>
        obtain ⟨hkept, hnb, hlast⟩ := linkBlock_spec h hb hend ha
        have hrest := ih (k + 1) nb (o - addrBlockDataSize) { s with dev := linkBlock d b nb }
          hkept.owned (by simp only [addrBlockDataSize] at *; omega) hnb (.inr hlast)
        exact IndexSpec.step hkept (by simp only [addrBlockDataSize] at *; omega) hrest

/-- `get_block_index`, before the offset is split. -/
theorem walk_extend_spec {k b o : Nat} (h : s.Owned A) (hb : s.refs (i, .link k) = some b) :
    IndexSpec A i s k o
      (extend A.alloc ((walk s.dev.disk (o / addrBlockDataSize) b o).2 / addrBlockDataSize)
        (walk s.dev.disk (o / addrBlockDataSize) b o).1
        (walk s.dev.disk (o / addrBlockDataSize) b o).2 s.dev) := by
  obtain ⟨m, b', o', hw, hc, hsum, hstop⟩ :=
    walk_spec (o / addrBlockDataSize) k b o (by simp only [addrBlockDataSize]; omega) hb
  rw [hw]
  refine IndexSpec.step (Upd.refl h) hsum ?_
  exact extend_spec _ (k + m) b' o' s h (by simp only [addrBlockDataSize]; omega) hc hstop

theorem getBlockIndex_cases {k b o : Nat} (h : s.Owned A) (hb : s.refs (i, .link k) = some b) :
    (∃ d, getBlockIndex A.alloc b o s.dev = .error d ∧ Kept A i s { s with dev := d }) ∨
    ∃ ab d, getBlockIndex A.alloc b o s.dev =
        .ok (ab, o % addrBlockDataSize / blockSize, o % blockSize, d) ∧
      Kept A i s { s with dev := d } ∧
      Store.refs { s with dev := d } (i, .link (k + o / addrBlockDataSize)) = some ab := by
  have hspec := walk_extend_spec (o := o) h hb
  have hmod : o % addrBlockDataSize % blockSize = o % blockSize := by
    simp only [addrBlockDataSize, blockSize]
    omega
  unfold getBlockIndex
  cases hext : extend A.alloc ((walk s.dev.disk (o / addrBlockDataSize) b o).2 / addrBlockDataSize)
      (walk s.dev.disk (o / addrBlockDataSize) b o).1
      (walk s.dev.disk (o / addrBlockDataSize) b o).2 s.dev with
  | error d =>
    rw [hext] at hspec
    exact .inl ⟨d, by simp only [hext], hspec⟩
  | ok r =>
    obtain ⟨ab, o', d⟩ := r
    rw [hext] at hspec
    obtain ⟨hkept, hab, rfl⟩ := hspec
    exact .inr ⟨ab, d, by simp only [hext, hmod], hkept, hab⟩

/-- What the last loop of `data_rw` may end with, from position `P` of the file; `B` bounds its
offset. -/
def LoopSpec (A : AllocModel α) (write : Bool) (i : ι) (B P pos size : Nat) (buf : Bytes)
    (s : Store ι α) : Except (Store ι α) (Nat × Nat × Bytes × Store ι α) → Prop
  | .error t => Failed A write i P pos buf s t
  | .ok (cur, o, buf', t) => Effect A write i P pos size buf s buf' t ∧
      ∃ k, t.refs (i, .link k) = some cur ∧
        directDataSize + k * addrBlockDataSize + o = P + size ∧ o ≤ B

omit [DecidableEq ι] in
/-- A piece of `n` bytes before the rest of the loop. -/
theorem LoopSpec.step {write : Bool} {B P pos n size : Nat} {buf buf' : Bytes}
    {r : Except (Store ι α) (Nat × Nat × Bytes × Store ι α)}
    (h : Effect A write i P pos n buf s buf' t) (hn : n ≤ size)
    (hr : LoopSpec A write i B (P + n) (pos + n) (size - n) buf' t r) :
    LoopSpec A write i B P pos size buf s r := by
  cases r with
  | error u => exact h.failed hr
  | ok r =>
    obtain ⟨heff, k, hk, hsum, hle⟩ := hr
    have htrans := h.trans heff
    rw [Nat.add_sub_cancel' hn] at htrans
    exact ⟨htrans, k, hk, by omega, hle⟩

theorem indirectLoop_spec {write : Bool} {B : Nat} (hB : addrBlockDataSize ≤ B) :
    ∀ (fuel k cur o pos size : Nat) (buf : Bytes) (s : Store ι α), s.Owned A → size ≤ fuel →
    o ≤ B → s.refs (i, .link k) = some cur →
    LoopSpec A write i B (directDataSize + k * addrBlockDataSize + o) pos size buf s
      (indirectLoop A.alloc write fuel cur o pos size buf s) := by
  intro fuel
  induction fuel with
  | zero =>
    intro k cur o pos size buf s h hsize ho hcur
    obtain rfl := Nat.le_zero.mp hsize
    exact ⟨Effect.refl h, k, hcur, rfl, ho⟩
  | succ fuel ih =>
    intro k cur o pos size buf s h hsize ho hcur
    unfold indirectLoop
    by_cases hpos : 0 < size
    · rw [if_pos hpos]
      rcases getBlockIndex_cases (o := o) h hcur with ⟨d, hget, hkept⟩ | ⟨ab, d, hget, hkept, hab⟩
      · rw [hget]
        exact Kept.failed hkept
      · rw [hget]
        have hslot : o % addrBlockDataSize / blockSize < numAddrs := by
          simp only [addrBlockDataSize, blockSize, numAddrs]
          omega
        have hoff : o % blockSize + min size (blockSize - o % blockSize) ≤ blockSize := by
          simp only [blockSize]
          omega
        have hP : blockSize * (numDirectData + numAddrs * (k + o / addrBlockDataSize) +
            o % addrBlockDataSize / blockSize) + o % blockSize =
            directDataSize + k * addrBlockDataSize + o := by
          simp only [addrBlockDataSize, blockSize, numAddrs, numDirectData, directDataSize]
          omega
        have hrw : RwSpec A write i _ pos _ buf { s with dev := d } _ :=
          dataBlockRw_spec hkept.owned hab hslot hoff
        rw [hP] at hrw
        cases hres : dataBlockRw A.alloc write ab (o % addrBlockDataSize / blockSize)
            (o % blockSize) pos (min size (blockSize - o % blockSize)) buf { s with dev := d } with
        | error t =>
          rw [hres] at hrw
          simp only [hres]
          exact Failed.prepend hkept hrw
        | ok r =>
          obtain ⟨buf', t⟩ := r
          rw [hres] at hrw
          simp only [hres]
          have heff := Effect.prepend hkept hrw
          have hcur' := hrw.upd.refs _ _ hab
          have hrest := ih (k + o / addrBlockDataSize) ab
            (o % addrBlockDataSize + min size (blockSize - o % blockSize))
            (pos + min size (blockSize - o % blockSize))
            (size - min size (blockSize - o % blockSize)) buf' t hrw.upd.owned
            (by simp only [blockSize]; omega)
            (Nat.le_trans (by simp only [addrBlockDataSize, blockSize]; omega) hB) hcur'
          have hnext : directDataSize + (k + o / addrBlockDataSize) * addrBlockDataSize +
              (o % addrBlockDataSize + min size (blockSize - o % blockSize)) =
              directDataSize + k * addrBlockDataSize + o + min size
                (blockSize - o % blockSize) := by
            simp only [addrBlockDataSize]
            omega
          rw [hnext] at hrest
          exact LoopSpec.step heff (Nat.min_le_left ..) hrest
    · rw [if_neg hpos]
      obtain rfl : size = 0 := by omega
      exact ⟨Effect.refl h, k, hcur, rfl, ho⟩

/-- What the first loop of `data_rw` may end with. -/
def DirectSpec (A : AllocModel α) (write : Bool) (i : ι) (offset pos size : Nat) (buf : Bytes)
    (s : Store ι α) : Except (Store ι α) (Nat × Nat × Nat × Bytes × Store ι α) → Prop
  | .error t => Failed A write i offset pos buf s t
  | .ok (offset', pos', size', buf', t) => ∃ n, n + size' = size ∧ offset' = offset + n ∧
      pos' = pos + n ∧ Effect A write i offset pos n buf s buf' t ∧
      (size' = 0 ∨ offset' = max offset directDataSize)

omit [DecidableEq ι] in
theorem DirectSpec.step {write : Bool} {offset pos n size : Nat} {buf buf' : Bytes}
    {r : Except (Store ι α) (Nat × Nat × Nat × Bytes × Store ι α)}
    (h : Effect A write i offset pos n buf s buf' t) (hn : n ≤ size)
    (hmax : max (offset + n) directDataSize = max offset directDataSize)
    (hr : DirectSpec A write i (offset + n) (pos + n) (size - n) buf' t r) :
    DirectSpec A write i offset pos size buf s r := by
  cases r with
  | error u => exact h.failed hr
  | ok r =>
    obtain ⟨m, hm, ho, hp, heff, hend⟩ := hr
    rw [hmax] at hend
    exact ⟨n + m, by omega, by omega, by omega, h.trans heff, hend⟩

theorem directLoop_spec {write : Bool} : ∀ (fuel offset pos size : Nat) (buf : Bytes)
    (s : Store ι α), s.Owned A → size ≤ fuel →
    DirectSpec A write i offset pos size buf s
      (directLoop A.alloc write i fuel offset pos size buf s) := by
  intro fuel
  induction fuel with
  | zero =>
    intro offset pos size buf s h hsize
    obtain rfl := Nat.le_zero.mp hsize
    exact ⟨0, rfl, rfl, rfl, Effect.refl h, .inl rfl⟩
  | succ fuel ih =>
    intro offset pos size buf s h hsize
    unfold directLoop
    by_cases hloop : offset < directDataSize ∧ 0 < size
    · rw [if_pos hloop]
      obtain ⟨hdir, hpos⟩ := hloop
      have hk : offset / blockSize < numDirectData := by
        simp only [blockSize, numDirectData, directDataSize] at *
        omega
      have hoff : offset % blockSize + min size (blockSize - offset % blockSize) ≤ blockSize := by
        simp only [blockSize]
        omega
      have hrw : RwSpec A write i _ pos _ buf s _ := directDataBlockRw_spec h hk hoff
      rw [Nat.div_add_mod] at hrw
      cases hres : directDataBlockRw A.alloc write i (offset / blockSize) (offset % blockSize) pos
          (min size (blockSize - offset % blockSize)) buf s with
      | error t =>
        rw [hres] at hrw
        exact hrw
      | ok r =>
        obtain ⟨buf', t⟩ := r
        rw [hres] at hrw
        have hrest := ih (offset + min size (blockSize - offset % blockSize))
          (pos + min size (blockSize - offset % blockSize))
          (size - min size (blockSize - offset % blockSize)) buf' t hrw.upd.owned
          (by simp only [blockSize]; omega)
        -- a block lies before the border or after it
        have hmax : max (offset + min size (blockSize - offset % blockSize)) directDataSize =
            max offset directDataSize := by
          simp only [blockSize, directDataSize] at *
          omega
        exact DirectSpec.step hrw (Nat.min_le_left ..) hmax hrest
    · rw [if_neg hloop]
      refine ⟨0, Nat.zero_add size, rfl, rfl, Effect.refl h, ?_⟩
      simp only [directDataSize] at *
      omega

/-- The first address block of an inode. -/
theorem firstAddrBlock_spec (h : s.Owned A) (hnone : (s.ino i).nextAddrBlock = none32) :
    match firstAddrBlock A.alloc i s with
    | .error t => Kept A i s t
    | .ok t => Kept A i s t ∧ t.refs (i, .link 0) = some (t.ino i).nextAddrBlock := by
  unfold firstAddrBlock
  cases ha : A.alloc s.dev with
  | error d => exact h.alloc_error ha
  | ok r =>
    obtain ⟨b, d⟩ := r
    obtain ⟨hok, hb, hnew, hbused, hused, hdisk⟩ := h.alloc_ok ha
    have hst := A.store_ok d b (blankBlock (d.disk b)) hok hbused
    have hadd := Adds.first (i := i) hb hnone hnew fun q x hx => (hdisk q x hx).2.2
    have hown := h.adds hadd hst.1 (fun hb => (h.used b).mp hb |>.elim hnew)
      fun x => (hst.2 x).trans (hused x)
    refine ⟨hadd.upd hown (fun j hj => Function.update_of_ne hj ..) ?_ ?_ (.inr ?_), ?_⟩
    · simp [setIno, Inode.Like]
    · simp [setIno, Inode.SamePos]
    · simp [setIno]
    · rw [hadd.refs, Function.update_self]
      simp [setIno]

/-! ## The remembered position -/

/-- Changes of an inode that leave its addresses alone. -/
theorem refs_setIno {x : Inode}
    (ha : ∀ k < numDirectData, x.addrs k = (s.ino i).addrs k)
    (hn : x.nextAddrBlock = (s.ino i).nextAddrBlock) : (s.setIno i x).refs = s.refs := by
  funext ⟨j, p⟩
  rw [refs_eq, refs_eq]
  rcases eq_or_ne j i with rfl | hj
  · rw [setIno_self, setIno_dev]
    exact slotRef_same ha hn p
  · rw [setIno_of_ne hj]
    rfl

theorem byte_setIno {x : Inode}
    (ha : ∀ k < numDirectData, x.addrs k = (s.ino i).addrs k)
    (hn : x.nextAddrBlock = (s.ino i).nextAddrBlock) (j : ι) (p : Nat) :
    (s.setIno i x).byte j p = s.byte j p := by
  rw [byte_eq, byte_eq, refs_setIno ha hn]
  rfl

theorem Owned.setIno {x : Inode} (h : s.Owned A)
    (ha : ∀ k < numDirectData, x.addrs k = (s.ino i).addrs k)
    (hn : x.nextAddrBlock = (s.ino i).nextAddrBlock) : (s.setIno i x).Owned A := by
  have hrefs := refs_setIno ha hn
  refine ⟨h.ok, ?_, ?_⟩
  · rw [hrefs]
    exact h.inj
  · rw [hrefs]
    exact h.used

theorem posAt_remember {raw o cur k : Nat} (hraw : raw < 2 ^ 32) (ho : o < 2 ^ 32)
    (hcur : t.refs (i, .link k) = some cur) (hk : k * addrBlockDataSize + o = raw) (r : Nat) :
    (t.setIno i (Store.remember (t.ino i) raw o cur)).PosAt i r := by
  have hrefs : (t.setIno i (Store.remember (t.ino i) raw o cur)).refs = t.refs :=
    refs_setIno (fun _ _ => rfl) rfl
  intro hr
  rw [setIno_self] at hr ⊢
  rw [hrefs]
  have hr : raw % 2 ^ 32 = r := hr
  rw [Nat.mod_eq_of_lt hraw] at hr
  refine ⟨k, hcur, ?_⟩
  show k * addrBlockDataSize + o % 2 ^ 32 = r
  rw [Nat.mod_eq_of_lt ho, hk, hr]

theorem Upd.remember {raw o cur k : Nat} (h : Upd A i P n src s t) (hraw : raw < 2 ^ 32)
    (ho : o < 2 ^ 32) (hcur : t.refs (i, .link k) = some cur)
    (hk : k * addrBlockDataSize + o = raw) :
    Upd A i P n src s (t.setIno i (Store.remember (t.ino i) raw o cur)) := by
  have hrefs : (t.setIno i (Store.remember (t.ino i) raw o cur)).refs = t.refs :=
    refs_setIno (fun _ _ => rfl) rfl
  have hbyte : ∀ j p, (t.setIno i (Store.remember (t.ino i) raw o cur)).byte j p = t.byte j p :=
    fun j p => by
      rw [byte_eq, byte_eq, hrefs]
      rfl
  refine ⟨h.owned.setIno (fun _ _ => rfl) rfl, ?_, ?_, ?_, ?_, ?_, ?_, ?_⟩
  · rw [hrefs]
    exact h.refs
  · intro p h1 h2
    rw [hbyte, h.here p h1 h2]
  · intro j p hp
    rw [hbyte, h.there j p hp]
  · intro j hj
    exact (setIno_of_ne hj).trans (h.other j hj)
  · rw [setIno_self]
    exact h.like
  · rw [setIno_self]
    exact h.dirty
  · exact fun r _ => posAt_remember hraw ho hcur hk r

/-- What `data_rw` may end with: `pos + size` is the number of bytes it returns. -/
def DoneSpec (A : AllocModel α) (write : Bool) (i : ι) (P pos size : Nat) (buf : Bytes)
    (s : Store ι α) : Except (Store ι α) (Nat × Bytes × Store ι α) → Prop
  | .error t => Failed A write i P pos buf s t
  | .ok (n, buf', t) => n = pos + size ∧ Effect A write i P pos size buf s buf' t

omit [DecidableEq ι] in
omit [DecidableEq ι] in
theorem DoneSpec.step {write : Bool} {pos m size : Nat} {buf buf' : Bytes}
    {r : Except (Store ι α) (Nat × Bytes × Store ι α)}
    (h : Effect A write i P pos m buf s buf' t) (hm : m ≤ size)
    (hr : DoneSpec A write i (P + m) (pos + m) (size - m) buf' t r) :
    DoneSpec A write i P pos size buf s r := by
  cases r with
  | error u => exact h.failed hr
  | ok r =>
    obtain ⟨hn, heff⟩ := hr
    have htrans := h.trans heff
    rw [Nat.add_sub_cancel' hm] at htrans
    exact ⟨by omega, htrans⟩

omit [DecidableEq ι] in
/-- The position where the last loop starts is the position of the request. -/
theorem startAt_spec {r : Nat} (hfirst : s.refs (i, .link 0) = some (s.ino i).nextAddrBlock)
    (hpos : s.PosAt i r) : ∃ k, s.refs (i, .link k) = some (startAt (s.ino i) r).1 ∧
      k * addrBlockDataSize + (startAt (s.ino i) r).2 = r := by
  unfold startAt
  split
  · next hhit => exact hpos hhit
  · exact ⟨0, hfirst, by omega⟩

/-- The last loop, from where `data_rw` starts it. -/
theorem indirectLoop_start {write : Bool} {r pos size : Nat} {buf : Bytes} (h : s.Owned A)
    (hfirst : s.refs (i, .link 0) = some (s.ino i).nextAddrBlock) (hpos : s.PosAt i r)
    (hend : r + size < 2 ^ 32) :
    LoopSpec A write i none32 (directDataSize + r) pos size buf s
      (indirectLoop A.alloc write size (startAt (s.ino i) r).1 (startAt (s.ino i) r).2 pos size
        buf s) := by
  obtain ⟨k, hcur, hk⟩ := startAt_spec hfirst hpos
  have hloop : LoopSpec A write i none32 _ pos size buf s _ :=
    indirectLoop_spec (by decide) size k (startAt (s.ino i) r).1 (startAt (s.ino i) r).2 pos size
      buf s h (Nat.le_refl size) (by simp only [none32]; omega) hcur
  rwa [Nat.add_assoc, hk] at hloop

theorem indirectRw_spec {write : Bool} {r pos size : Nat} {buf : Bytes} (h : s.Owned A)
    (hfirst : s.refs (i, .link 0) = some (s.ino i).nextAddrBlock) (hpos : s.PosAt i r)
    (hend : r + size < 2 ^ 32) :
    DoneSpec A write i (directDataSize + r) pos size buf s
        (indirectRw A.alloc write i r pos size buf s) ∧
      ∀ n buf' t, indirectRw A.alloc write i r pos size buf s = .ok (n, buf', t) →
        ∀ r', t.PosAt i r' := by
  have hloop : LoopSpec A write i none32 (directDataSize + r) pos size buf s _ :=
    indirectLoop_start h hfirst hpos hend
  unfold indirectRw
  cases hres : indirectLoop A.alloc write size (startAt (s.ino i) r).1 (startAt (s.ino i) r).2 pos
      size buf s with
  | error t =>
    rw [hres] at hloop
    exact ⟨hloop, fun _ _ _ he => nomatch he⟩
  | ok res =>
    obtain ⟨cur, o, buf', t⟩ := res
    rw [hres] at hloop
    obtain ⟨heff, k', hcur', hsum, ho⟩ := hloop
    have ho : o < 2 ^ 32 := by
      simp only [none32] at ho
      omega
    have hsum : k' * addrBlockDataSize + o = r + size := by
      rw [Nat.add_assoc, Nat.add_assoc] at hsum
      exact Nat.add_left_cancel hsum
    refine ⟨⟨rfl, heff.upd.remember hend ho hcur' hsum, heff.buffer⟩, fun n buf'' u he => ?_⟩
    cases he
    exact posAt_remember hend ho hcur' hsum

/-- What `data_rw` does before its last loop: the indirect offset where that loop starts, the
position and the size that is left, the buffer and the state. `none` if it ends earlier. -/
def enter (alloc : Alloc α) (write : Bool) (i : ι) (offset size : Nat) (buf : Bytes)
    (s : Store ι α) : Option (Nat × Nat × Nat × Bytes × Store ι α) :=
  match directLoop alloc write i size offset 0 size buf s with
  | .error _ => none
  | .ok (offset, pos, size, buf, s) =>
    if size = 0 then none
    else if (s.ino i).nextAddrBlock = none32 then
      if write then
        match firstAddrBlock alloc i s with
        | .error _ => none
        | .ok s => some (offset - directDataSize, pos, size, buf, s)
      else none
    else some (offset - directDataSize, pos, size, buf, s)

theorem enter_eq_some {alloc : Alloc α} {write : Bool} {offset size r pos left : Nat}
    {buf buf' : Bytes} (h : enter alloc write i offset size buf s = some (r, pos, left, buf', t)) :
    ∃ o u, directLoop alloc write i size offset 0 size buf s = .ok (o, pos, left, buf', u) ∧
      left ≠ 0 ∧ r = o - directDataSize ∧
      ((u.ino i).nextAddrBlock = none32 ∧ write = true ∧ firstAddrBlock alloc i u = .ok t ∨
        (u.ino i).nextAddrBlock ≠ none32 ∧ t = u) := by
  unfold enter at h
  cases hloop : directLoop alloc write i size offset 0 size buf s with
  | error s =>
    rw [hloop] at h
    cases h
  | ok res =>
    obtain ⟨o, p, l, b, u⟩ := res
    rw [hloop] at h
    simp only at h
    split at h
    · cases h
    · next hsize =>
      split at h
      · next hnone =>
        split at h
        · next hw =>
          cases hfirst : firstAddrBlock alloc i u with
          | error s =>
            rw [hfirst] at h
            cases h
          | ok u' =>
            rw [hfirst] at h
            simp only [Option.some.injEq, Prod.mk.injEq] at h
            obtain ⟨hr, rfl, rfl, rfl, rfl⟩ := h
            exact ⟨o, u, rfl, hsize, hr.symm, .inl ⟨hnone, hw, hfirst⟩⟩
        · cases h
      · next hsome =>
        simp only [Option.some.injEq, Prod.mk.injEq] at h
        obtain ⟨hr, rfl, rfl, rfl, rfl⟩ := h
        exact ⟨o, u, rfl, hsize, hr.symm, .inr ⟨hsome, rfl⟩⟩

theorem dataRw_of_enter {alloc : Alloc α} {write : Bool} {offset size r pos left : Nat}
    {buf buf' : Bytes} (h : enter alloc write i offset size buf s = some (r, pos, left, buf', t)) :
    dataRw alloc write i offset size buf s = indirectRw alloc write i r pos left buf' t := by
  obtain ⟨o, u, hloop, hsize, hr, hnext⟩ := enter_eq_some h
  rw [dataRw, hloop, hr]
  simp only
  rw [if_neg hsize]
  rcases hnext with ⟨hnone, hw, hfirst⟩ | ⟨hsome, hu⟩
  · rw [if_pos hnone, if_pos hw, hfirst]
  · rw [if_neg hsome, hu]

/-- `data_rw` ends before its last loop, or it comes to it with the first `n` bytes done. -/
theorem dataRw_cases (write : Bool) (i : ι) (offset size : Nat) (buf : Bytes) (h : s.Owned A) :
    (enter A.alloc write i offset size buf s = none ∧
      DoneSpec A write i offset 0 size buf s (dataRw A.alloc write i offset size buf s)) ∨
    ∃ n buf' u, enter A.alloc write i offset size buf s =
        some (offset - directDataSize, n, size - n, buf', u) ∧
      n < size ∧ offset + n = max offset directDataSize ∧
      Effect A write i offset 0 n buf s buf' u ∧
      u.refs (i, .link 0) = some (u.ino i).nextAddrBlock := by
  have hdirect : DirectSpec A write i offset 0 size buf s _ :=
    directLoop_spec size offset 0 size buf s h (Nat.le_refl size)
  unfold dataRw enter
  cases hres : directLoop A.alloc write i size offset 0 size buf s with
  | error t =>
    rw [hres] at hdirect
    exact .inl ⟨rfl, hdirect⟩
  | ok res =>
    obtain ⟨offset', pos', size', buf', t⟩ := res
    rw [hres] at hdirect
    obtain ⟨n, hn, rfl, rfl, heff, hstop⟩ := hdirect
    have hsize : size' = size - n := by omega
    subst hsize
    simp only
    by_cases hzero : size - n = 0
    · rw [if_pos hzero, if_pos hzero]
      refine .inl ⟨rfl, DoneSpec.step heff (by omega) ⟨by omega, ?_⟩⟩
      rw [hzero]
      exact Effect.refl heff.upd.owned
    rw [if_neg hzero, if_neg hzero]
    have hborder : offset + n = max offset directDataSize := hstop.resolve_left hzero
    have hge : directDataSize ≤ offset + n := by rw [hborder]; exact Nat.le_max_right ..
    have hr : offset + n - directDataSize = offset - directDataSize := by
      rw [hborder]
      simp only [directDataSize]
      omega
    rw [hr, Nat.zero_add]
    by_cases hnone : (t.ino i).nextAddrBlock = none32
    · rw [if_pos hnone, if_pos hnone]
      cases write with
      | true =>
        have hfirst := firstAddrBlock_spec heff.upd.owned hnone
        rw [if_pos rfl, if_pos rfl]
        cases hf : firstAddrBlock A.alloc i t with
        | error u =>
          rw [hf] at hfirst
          refine .inl ⟨rfl, DoneSpec.step heff (by omega) ?_⟩
          exact Kept.failed hfirst
        | ok u =>
          rw [hf] at hfirst
          obtain ⟨hkept, hlink⟩ := hfirst
          refine .inr ⟨n, buf', u, rfl, by omega, hborder, ⟨heff.upd.append hkept, heff.buffer⟩, ?_⟩
          exact hlink
      | false =>
        refine .inl ⟨rfl, DoneSpec.step heff (by omega) ⟨by omega, Upd.refl heff.upd.owned, ?_⟩⟩
        show memcpy buf' n (fun _ => 0) (size - n) =
          memcpy buf' (0 + n) (fun k => t.byte i (offset + n + k)) (size - n)
        rw [Nat.zero_add]
        refine memcpy_congr fun k _ => ?_
        rw [byte_eq, refs_eq, slotRef_no_chain hnone]
        intro m hm
        have hpage : numDirectData ≤ (offset + n + k) / blockSize := by
          simp only [numDirectData, blockSize, directDataSize] at *
          omega
        rw [slotAt, if_neg (Nat.not_lt.mpr hpage)] at hm
        cases hm
    · rw [if_neg hnone, if_neg hnone]
      refine .inr ⟨n, buf', t, rfl, by omega, hborder, heff, ?_⟩
      rw [refs_eq, slotRef, chain, toRef, if_neg hnone]

/-- A call of `data_rw` whose indirect part, if it has one, ends below 2^32. -/
theorem dataRw_spec {write : Bool} {offset size : Nat} {buf : Bytes} (h : s.Owned A)
    (hpos : s.PosAt i (offset - directDataSize)) (hend : offset + size < 2 ^ 32 + directDataSize) :
    DoneSpec A write i offset 0 size buf s (dataRw A.alloc write i offset size buf s) := by
  rcases dataRw_cases write i offset size buf h with
    ⟨-, hdone⟩ | ⟨n, buf', u, henter, hn, hborder, heff, hlink⟩
  · exact hdone
  · rw [dataRw_of_enter henter]
    refine DoneSpec.step heff (Nat.le_of_lt hn) ?_
    have hdone : DoneSpec A write i _ n (size - n) buf' u _ :=
      (indirectRw_spec heff.upd.owned hlink (heff.upd.pos _ hpos) (by
        simp only [directDataSize] at *
        omega)).1
    rw [show directDataSize + (offset - directDataSize) = offset + n by
      simp only [directDataSize] at *
      omega] at hdone
    rw [Nat.zero_add]
    exact hdone

/-! ## `read` and `write` -/

theorem read_spec {offset size n : Nat} {buf buf' : Bytes} (h : s.Owned A)
    (hpos : s.PosAt i (offset - directDataSize)) (hend : offset + size < 2 ^ 32)
    (hread : s.read A.alloc i offset size buf = .ok (n, buf', t)) :
    n = size ∧ buf' = memcpy buf 0 (fun k => s.byte i (offset + k)) size ∧ Kept A i s t := by
  have hspec : DoneSpec A false i offset 0 size buf s _ :=
    dataRw_spec h hpos (Nat.lt_add_right _ hend)
  unfold read at hread
  rw [hread] at hspec
  have hupd : Upd A i offset 0 (fun k => buf (0 + k)) s t := hspec.2.upd
  exact ⟨hspec.1.trans (Nat.zero_add size), hspec.2.buffer, hupd.move 0 _⟩

/-- The inode after a write that ended at `e`. -/
def grow (ino : Inode) (e : Nat) : Inode :=
  if ino.size < e then { ino with size := e, dirty := true } else ino

theorem grow_addrs (ino : Inode) (e k : Nat) : (grow ino e).addrs k = ino.addrs k := by
  unfold grow
  split <;> rfl

theorem grow_next (ino : Inode) (e : Nat) : (grow ino e).nextAddrBlock = ino.nextAddrBlock := by
  unfold grow
  split <;> rfl

theorem grow_samePos (ino : Inode) (e : Nat) : ino.SamePos (grow ino e) := by
  unfold grow
  split
  · exact ⟨rfl, rfl, rfl⟩
  · exact Inode.SamePos.refl _

theorem grow_size (ino : Inode) (e : Nat) : (grow ino e).size = max ino.size e := by
  unfold grow
  split
  · next h => exact (Nat.max_eq_right (Nat.le_of_lt h)).symm
  · next h => exact (Nat.max_eq_left (Nat.not_lt.mp h)).symm

/-- What a completed `write` of the bytes `P .. P + n - 1` of file `i` did. -/
structure Wrote (A : AllocModel α) (i : ι) (P n : Nat) (src : Bytes) (s t : Store ι α) :
    Prop where
  owned : t.Owned A
  refs : ∀ q b, s.refs q = some b → t.refs q = some b
  here : ∀ p, P ≤ p → p < P + n → t.byte i p = src (p - P)
  there : ∀ j p, j ≠ i ∨ p < P ∨ P + n ≤ p → t.byte j p = s.byte j p
  other : ∀ j, j ≠ i → t.ino j = s.ino j
  size : (t.ino i).size = max (s.ino i).size (P + n)
  nlinks : (t.ino i).nlinks = (s.ino i).nlinks
  perm : (t.ino i).perm = (s.ino i).perm
  type : (t.ino i).type = (s.ino i).type
  valid : (t.ino i).valid = (s.ino i).valid
  dirty : (s.ino i).SameAddrs (t.ino i) ∧ (t.ino i).size = (s.ino i).size ∨
    (t.ino i).dirty = true
  pos : ∀ r, s.PosAt i r → t.PosAt i r

theorem Upd.grow (h : Upd A i P n src s t) :
    Wrote A i P n src s (t.setIno i (Store.grow (t.ino i) (P + n))) := by
  have ha := fun k (_ : k < numDirectData) => grow_addrs (t.ino i) (P + n) k
  have hn := grow_next (t.ino i) (P + n)
  have hrefs := refs_setIno ha hn
  obtain ⟨hsize, hlinks, hperm, htype, hvalid⟩ := h.like
  refine ⟨h.owned.setIno ha hn, ?_, ?_, ?_, ?_, ?_, ?_, ?_, ?_, ?_, ?_, ?_⟩
  · rw [hrefs]
    exact h.refs
  · intro p h1 h2
    rw [byte_setIno ha hn, h.here p h1 h2]
  · intro j p hp
    rw [byte_setIno ha hn, h.there j p hp]
  · intro j hj
    exact (setIno_of_ne hj).trans (h.other j hj)
  · rw [setIno_self, grow_size, hsize]
  · rw [setIno_self, ← hlinks, Store.grow]
    split <;> rfl
  · rw [setIno_self, ← hperm, Store.grow]
    split <;> rfl
  · rw [setIno_self, ← htype, Store.grow]
    split <;> rfl
  · rw [setIno_self, ← hvalid, Store.grow]
    split <;> rfl
  · rw [setIno_self, Store.grow]
    split
    · exact .inr rfl
    · exact h.dirty.imp_left fun hd => ⟨hd, hsize⟩
  · intro r hr
    refine (h.pos r hr).mono ?_ fun q b hq => ?_
    · rw [setIno_self]
      exact grow_samePos _ _
    · rw [hrefs, hq]

theorem write_spec {offset size n : Nat} {buf : Bytes} (h : s.Owned A)
    (hpos : s.PosAt i (offset - directDataSize)) (hend : offset + size < 2 ^ 32)
    (hwrite : s.write A.alloc i offset size buf = .ok (n, t)) :
    n = size ∧ Wrote A i offset size buf s t := by
  have hspec : DoneSpec A true i offset 0 size buf s _ :=
    dataRw_spec h hpos (Nat.lt_add_right _ hend)
  unfold write at hwrite
  cases hres : dataRw A.alloc true i offset size buf s with
  | error u =>
    rw [hres] at hwrite
    cases hwrite
  | ok res =>
    obtain ⟨m, buf', u⟩ := res
    rw [hres] at hwrite hspec
    obtain ⟨hm, heff⟩ := hspec
    obtain rfl : m = size := hm.trans (Nat.zero_add size)
    have hupd : Upd A i offset m (fun k => buf (0 + k)) s u := heff.upd
    have hsrc : (fun k => buf (0 + k)) = buf := by
      funext k
      rw [Nat.zero_add]
    rw [hsrc] at hupd
    have hgrow := hupd.grow
    simp only at hwrite
    split at hwrite
    · next hlt =>
      obtain ⟨rfl, rfl⟩ := Prod.mk.inj (Except.ok.inj hwrite)
      rw [grow, if_pos hlt] at hgrow
      rw [Nat.mod_eq_of_lt hend]
      exact ⟨rfl, hgrow⟩
    · next hge =>
      obtain ⟨rfl, rfl⟩ := Prod.mk.inj (Except.ok.inj hwrite)
      rw [grow, if_neg hge, setIno, Function.update_eq_self] at hgrow
      exact ⟨rfl, hgrow⟩

end Store

end CoroCore.Nfs
