import CoroCore.Nfs.SlotSteps

/-!
# What reading and writing does to the files

`Upd A i P n src s t`: from `s` to `t` the `n` bytes of file `i` from position `P` on became
`src`, every other byte of every file is unchanged, and so is every reference. `Effect` adds
the caller's buffer and covers reads and writes.

* `Effect.trans`: consecutive pieces add up;
* `directDataBlockRw_spec`, `dataBlockRw_spec`: the piece within one block.
-/

namespace CoroCore.Nfs

open Lib

namespace Inode

/-- The inodes agree in metadata and validity. -/
def Like (x y : Inode) : Prop :=
  y.size = x.size ∧ y.nlinks = x.nlinks ∧ y.perm = x.perm ∧ y.type = x.type ∧ y.valid = x.valid

/-- The inodes agree in their block addresses and the dirty mark. -/
def SameAddrs (x y : Inode) : Prop :=
  y.addrs = x.addrs ∧ y.nextAddrBlock = x.nextAddrBlock ∧ y.dirty = x.dirty

/-- The inodes remember the same position. -/
def SamePos (x y : Inode) : Prop :=
  y.cacheRawIndirectOffset = x.cacheRawIndirectOffset ∧ y.cacheOffset = x.cacheOffset ∧
    y.cacheAddrBlock = x.cacheAddrBlock

theorem Like.refl (x : Inode) : x.Like x := ⟨rfl, rfl, rfl, rfl, rfl⟩

theorem Like.trans {x y z : Inode} (h : x.Like y) (h' : y.Like z) : x.Like z := by
  obtain ⟨h1, h2, h3, h4, h5⟩ := h
  obtain ⟨h1', h2', h3', h4', h5'⟩ := h'
  exact ⟨h1'.trans h1, h2'.trans h2, h3'.trans h3, h4'.trans h4, h5'.trans h5⟩

theorem SameAddrs.refl (x : Inode) : x.SameAddrs x := ⟨rfl, rfl, rfl⟩

theorem SameAddrs.trans {x y z : Inode} (h : x.SameAddrs y) (h' : y.SameAddrs z) :
    x.SameAddrs z := ⟨h'.1.trans h.1, h'.2.1.trans h.2.1, h'.2.2.trans h.2.2⟩

theorem SamePos.refl (x : Inode) : x.SamePos x := ⟨rfl, rfl, rfl⟩

theorem SamePos.trans {x y z : Inode} (h : x.SamePos y) (h' : y.SamePos z) : x.SamePos z :=
  ⟨h'.1.trans h.1, h'.2.1.trans h.2.1, h'.2.2.trans h.2.2⟩

end Inode

namespace Store

variable {ι α : Type}

theorem byte_eq (s : Store ι α) (i : ι) (p : Nat) :
    s.byte i p = match s.refs (i, slotAt (p / blockSize)) with
      | none => 0
      | some b => s.dev.disk b (p % blockSize) := rfl

/-- If `data_rw` at indirect offset `r` starts from the remembered position, this is a position
of the chain, and the right one: offset `cache_offset` in the `k`-th address block. -/
def PosAt (s : Store ι α) (i : ι) (r : Nat) : Prop :=
  (s.ino i).cacheRawIndirectOffset = r →
    ∃ k, s.refs (i, .link k) = some (s.ino i).cacheAddrBlock ∧
      k * addrBlockDataSize + (s.ino i).cacheOffset = r

/-- The bytes `P .. P + n - 1` of file `i` became `src`; all other bytes stayed. -/
structure Upd (A : AllocModel α) (i : ι) (P n : Nat) (src : Bytes) (s t : Store ι α) : Prop where
  owned : t.Owned A
  refs : ∀ q b, s.refs q = some b → t.refs q = some b
  here : ∀ p, P ≤ p → p < P + n → t.byte i p = src (p - P)
  there : ∀ j p, j ≠ i ∨ p < P ∨ P + n ≤ p → t.byte j p = s.byte j p
  other : ∀ j, j ≠ i → t.ino j = s.ino j
  like : (s.ino i).Like (t.ino i)
  dirty : (s.ino i).SameAddrs (t.ino i) ∨ (t.ino i).dirty = true
  pos : ∀ r, s.PosAt i r → t.PosAt i r

/-- No byte of any file changes. -/
abbrev Kept (A : AllocModel α) (i : ι) (s t : Store ι α) : Prop := Upd A i 0 0 (fun _ => 0) s t

variable {A : AllocModel α} {i : ι} {s t u : Store ι α} {P n m : Nat} {src : Bytes}

theorem PosAt.mono {r : Nat} (h : s.PosAt i r) (hpos : (s.ino i).SamePos (t.ino i))
    (hrefs : ∀ q b, s.refs q = some b → t.refs q = some b) : t.PosAt i r := by
  unfold PosAt
  rw [hpos.1, hpos.2.1, hpos.2.2]
  intro hr
  obtain ⟨k, hk, hraw⟩ := h hr
  exact ⟨k, hrefs _ _ hk, hraw⟩

/-- The remembered positions of the other inodes. -/
theorem PosAt.of_other {j : ι} {r : Nat} (h : s.PosAt j r) (hino : t.ino j = s.ino j)
    (hrefs : ∀ q b, s.refs q = some b → t.refs q = some b) : t.PosAt j r :=
  h.mono (by rw [hino]; exact Inode.SamePos.refl _) hrefs

theorem Upd.refl (h : s.Owned A) : Upd A i P 0 src s s where
  owned := h
  refs _ _ hb := hb
  here _ h1 h2 := absurd h1 (Nat.not_le.mpr h2)
  there _ _ _ := rfl
  other _ _ := rfl
  like := Inode.Like.refl _
  dirty := .inl (Inode.SameAddrs.refl _)
  pos _ h := h

theorem Upd.trans {src' : Bytes} (h : Upd A i P n src s t) (h' : Upd A i (P + n) m src' t u)
    (hsrc : ∀ k < m, src' k = src (n + k)) : Upd A i P (n + m) src s u where
  owned := h'.owned
  refs q b hb := h'.refs q b (h.refs q b hb)
  here p h1 h2 := by
    rcases Nat.lt_or_ge p (P + n) with hp | hp
    · rw [h'.there i p (.inr (.inl hp)), h.here p h1 hp]
    · rw [h'.here p hp (by omega), hsrc _ (by omega)]
      congr 1
      omega
  there j p hp := by
    rw [h'.there j p ?_, h.there j p ?_]
    · rcases hp with hp | hp | hp
      · exact .inl hp
      · exact .inr (.inl hp)
      · exact .inr (.inr (by omega))
    · rcases hp with hp | hp | hp
      · exact .inl hp
      · exact .inr (.inl (by omega))
      · exact .inr (.inr (by omega))
  other j hj := (h'.other j hj).trans (h.other j hj)
  like := h.like.trans h'.like
  dirty := by
    rcases h'.dirty with he | hd
    · rcases h.dirty with he' | hd'
      · exact .inl (he'.trans he)
      · exact .inr (he.2.2.trans hd')
    · exact .inr hd
  pos r hp := h'.pos r (h.pos r hp)

/-- A step that changes no byte, from any position. -/
theorem Upd.move (h : Upd A i P 0 src s t) (Q : Nat) (src' : Bytes) : Upd A i Q 0 src' s t where
  owned := h.owned
  refs := h.refs
  here _ h1 h2 := absurd h1 (Nat.not_le.mpr h2)
  there j p _ := h.there j p (.inr (Nat.lt_or_ge p P))
  other := h.other
  like := h.like
  dirty := h.dirty
  pos := h.pos

theorem Upd.append {P' : Nat} {src' : Bytes} (h : Upd A i P n src s t)
    (h' : Upd A i P' 0 src' t u) : Upd A i P n src s u :=
  h.trans (h'.move _ src) fun k hk => absurd hk (Nat.not_lt_zero k)

theorem Upd.prepend {P' : Nat} {src' : Bytes} (h : Upd A i P' 0 src' s t)
    (h' : Upd A i P n src t u) : Upd A i P n src s u := by
  have := (h.move P src).trans h' fun k _ => by rw [Nat.zero_add]
  rwa [Nat.zero_add] at this

theorem Upd.byte (h : Upd A i P 0 src s t) (j : ι) (p : Nat) : t.byte j p = s.byte j p :=
  h.there j p (.inr (Nat.lt_or_ge p P))

/-- `n` bytes of file `i` from `P` on were written from, or read into, the buffer at `pos`. -/
structure Effect (A : AllocModel α) (write : Bool) (i : ι) (P pos n : Nat) (buf : Bytes)
    (s : Store ι α) (buf' : Bytes) (t : Store ι α) : Prop where
  upd : Upd A i P (if write then n else 0) (fun k => buf (pos + k)) s t
  buffer : buf' = if write then buf else memcpy buf pos (fun k => s.byte i (P + k)) n

theorem Effect.refl {write : Bool} {pos : Nat} {buf : Bytes} (h : s.Owned A) :
    Effect A write i P pos 0 buf s buf s := by
  refine ⟨?_, ?_⟩
  · simpa using Upd.refl h
  · split <;> simp

theorem Effect.trans {write : Bool} {pos : Nat} {buf buf' buf'' : Bytes}
    (h : Effect A write i P pos n buf s buf' t)
    (h' : Effect A write i (P + n) (pos + n) m buf' t buf'' u) :
    Effect A write i P pos (n + m) buf s buf'' u := by
  cases write with
  | true =>
    have hb : buf' = buf := h.buffer
    have hu : Upd A i P n (fun k => buf (pos + k)) s t := h.upd
    have hu' : Upd A i (P + n) m (fun k => buf' (pos + n + k)) t u := h'.upd
    refine ⟨hu.trans hu' fun k _ => ?_, h'.buffer.trans hb⟩
    rw [hb, Nat.add_assoc]
  | false =>
    have hb : buf' = memcpy buf pos (fun k => s.byte i (P + k)) n := h.buffer
    have hb' : buf'' = memcpy buf' (pos + n) (fun k => t.byte i (P + n + k)) m := h'.buffer
    have hu : Upd A i P 0 (fun k => buf (pos + k)) s t := h.upd
    have hu' : Upd A i (P + n) 0 (fun k => buf' (pos + n + k)) t u := h'.upd
    refine ⟨hu.append hu', ?_⟩
    show buf'' = memcpy buf pos (fun k => s.byte i (P + k)) (n + m)
    funext o
    rw [hb', hb]
    rcases Nat.lt_or_ge o pos with h1 | h1
    · rw [memcpy_out (.inl (by omega)), memcpy_out (.inl h1), memcpy_out (.inl h1)]
    · rcases Nat.lt_or_ge o (pos + n) with h2 | h2
      · rw [memcpy_out (.inl h2), memcpy_in h1 h2, memcpy_in h1 (by omega)]
      · rcases Nat.lt_or_ge o (pos + n + m) with h3 | h3
        · rw [memcpy_in h2 h3, memcpy_in h1 (by omega), hu.byte]
          congr 1
          omega
        · rw [memcpy_out (.inr h3), memcpy_out (.inr h2), memcpy_out (.inr (by omega))]

theorem Effect.prepend {write : Bool} {P' pos : Nat} {src' : Bytes} {buf buf' : Bytes}
    (h : Upd A i P' 0 src' s t) (h' : Effect A write i P pos n buf t buf' u) :
    Effect A write i P pos n buf s buf' u := by
  refine ⟨h.prepend h'.upd, h'.buffer.trans ?_⟩
  simp only [h.byte]

/-- What is left of an operation that failed: the first `m` bytes are written. -/
def Failed (A : AllocModel α) (write : Bool) (i : ι) (P pos : Nat) (buf : Bytes)
    (s t : Store ι α) : Prop :=
  ∃ m, Upd A i P (if write then m else 0) (fun k => buf (pos + k)) s t

theorem Kept.failed {write : Bool} {pos : Nat} {buf : Bytes} (h : Kept A i s t) :
    Failed A write i P pos buf s t := by
  refine ⟨0, ?_⟩
  rw [ite_self]
  exact h.move P _

theorem Failed.prepend {write : Bool} {P' pos : Nat} {src' : Bytes} {buf : Bytes}
    (h : Upd A i P' 0 src' s t) (h' : Failed A write i P pos buf t u) :
    Failed A write i P pos buf s u := by
  obtain ⟨m, hm⟩ := h'
  exact ⟨m, h.prepend hm⟩

theorem Effect.failed {write : Bool} {pos : Nat} {buf buf' : Bytes}
    (h : Effect A write i P pos n buf s buf' t) (h' : Failed A write i (P + n) (pos + n) buf' t u) :
    Failed A write i P pos buf s u := by
  obtain ⟨m, hm⟩ := h'
  cases write with
  | true =>
    have hb : buf' = buf := h.buffer
    have hu : Upd A i P n (fun k => buf (pos + k)) s t := h.upd
    refine ⟨n + m, hu.trans hm fun k _ => ?_⟩
    rw [hb, Nat.add_assoc]
  | false =>
    have hu : Upd A i P 0 (fun k => buf (pos + k)) s t := h.upd
    exact ⟨0, hu.append hm⟩

/-- What an operation on `n` bytes may end with: all of them done, or an error after some. -/
def RwSpec (A : AllocModel α) (write : Bool) (i : ι) (P pos n : Nat) (buf : Bytes)
    (s : Store ι α) : Except (Store ι α) (Bytes × Store ι α) → Prop
  | .ok (buf', t) => Effect A write i P pos n buf s buf' t
  | .error t => Failed A write i P pos buf s t

/-! ## One block -/

section Block

variable [DecidableEq ι] {d : Dev α} {b g off pos : Nat} {buf : Bytes}

omit [DecidableEq ι] in
/-- A step that only touches blocks that no slot refers to. -/
theorem Upd.frame (h : s.Owned A) (hino : t.ino = s.ino) (hok : A.Ok t.dev)
    (hused : ∀ x, A.Used t.dev x ↔ A.Used s.dev x)
    (hdisk : ∀ q x, s.refs q = some x → t.dev.disk x = s.dev.disk x) : Upd A i P 0 src s t := by
  have hrefs : t.refs = s.refs := refs_congr hino hdisk
  refine ⟨⟨hok, ?_, ?_⟩, ?_, ?_, ?_, ?_, ?_, ?_, ?_⟩
  · rw [hrefs]
    exact h.inj
  · rw [hrefs]
    exact fun x => (hused x).trans (h.used x)
  · rw [hrefs]
    exact fun _ _ hx => hx
  · exact fun _ h1 h2 => absurd h1 (Nat.not_le.mpr h2)
  · intro j p _
    rw [byte_eq, byte_eq, hrefs]
    cases hx : s.refs (j, slotAt (p / blockSize)) with
    | none => rfl
    | some x => exact congrFun (hdisk _ x hx) _
  · exact fun j _ => congrFun hino j
  · rw [hino]
    exact Inode.Like.refl _
  · rw [hino]
    exact .inl (Inode.SameAddrs.refl _)
  · intro r hp
    refine hp.mono ?_ fun q b hq => ?_
    · rw [hino]
      exact Inode.SamePos.refl _
    · rw [hrefs, hq]

omit [DecidableEq ι] in
theorem Owned.alloc_error (h : s.Owned A) (ha : A.alloc s.dev = .error d) :
    Kept A i s { s with dev := d } := by
  obtain ⟨hok, hused, hdisk⟩ := A.alloc_error s.dev d h.ok ha
  exact Upd.frame h rfl hok hused fun q x hx => hdisk x ((h.used x).mpr ⟨q, hx⟩)

omit [DecidableEq ι] in
theorem Owned.alloc_ok (h : s.Owned A) (ha : A.alloc s.dev = .ok (b, d)) :
    A.Ok d ∧ b < none32 ∧ (∀ q, s.refs q ≠ some b) ∧ A.Used d b ∧
      (∀ x, A.Used d x ↔ x = b ∨ A.Used s.dev x) ∧
      ∀ q x, s.refs q = some x → x ≠ b ∧ A.Used d x ∧ d.disk x = s.dev.disk x := by
  obtain ⟨hok, hb, hfresh, hused, hdisk⟩ := A.alloc_ok s.dev b d h.ok ha
  have hnew : ∀ q, s.refs q ≠ some b := fun q hq => hfresh ((h.used b).mpr ⟨q, hq⟩)
  refine ⟨hok, hb, hnew, (hused b).mpr (.inl rfl), hused, fun q x hx => ?_⟩
  have hx' : A.Used d x := (hused x).mpr (.inr ((h.used x).mpr ⟨q, hx⟩))
  exact ⟨fun e => hnew q (e ▸ hx), hx', hdisk x hx'⟩

/-- The bytes of all files after page `g` of file `i` got a new range in block `b`. -/
theorem byte_write (src : Bytes) (hoff : off + n ≤ blockSize) (hb : t.refs (i, slotAt g) = some b)
    (hrefs : ∀ q, q ≠ (i, slotAt g) → t.refs q = s.refs q)
    (hdata : ∀ q x, q.2.IsData → q ≠ (i, slotAt g) → s.refs q = some x →
      t.dev.disk x = s.dev.disk x)
    (hblk : ∀ o < blockSize, t.dev.disk b o =
      if off ≤ o ∧ o < off + n then src (o - off) else s.byte i (blockSize * g + o)) :
    (∀ p, blockSize * g + off ≤ p → p < blockSize * g + off + n →
      t.byte i p = src (p - (blockSize * g + off))) ∧
    ∀ j p, j ≠ i ∨ p < blockSize * g + off ∨ blockSize * g + off + n ≤ p →
      t.byte j p = s.byte j p := by
  have hpage : ∀ p, p / blockSize = g → t.byte i p =
      if off ≤ p % blockSize ∧ p % blockSize < off + n then src (p % blockSize - off)
      else s.byte i p := by
    intro p hp
    have hsplit : blockSize * g + p % blockSize = p := by
      rw [← hp]
      exact Nat.div_add_mod p blockSize
    rw [byte_eq, hp, hb]
    show t.dev.disk b (p % blockSize) = _
    rw [hblk _ (Nat.mod_lt p (by decide)), hsplit]
  constructor
  · intro p h1 h2
    simp only [blockSize] at h1 h2 hoff
    have hp : p / blockSize = g := by simp only [blockSize]; omega
    have hin : off ≤ p % blockSize ∧ p % blockSize < off + n := by simp only [blockSize]; omega
    rw [hpage p hp, if_pos hin]
    congr 1
    simp only [blockSize]
    omega
  · intro j p hp
    by_cases hslot : (j, slotAt (p / blockSize)) = (i, slotAt g)
    · simp only [Prod.mk.injEq] at hslot
      obtain ⟨rfl, hg⟩ := hslot
      have hg : p / blockSize = g := slotAt_injective hg
      rw [hpage p hg, if_neg]
      rintro ⟨h1, h2⟩
      simp only [blockSize] at hg h1 h2 hp
      rcases hp with hp | hp | hp
      · exact hp rfl
      · omega
      · omega
    · rw [byte_eq, byte_eq, hrefs _ hslot]
      cases hx : s.refs (j, slotAt (p / blockSize)) with
      | none => rfl
      | some x => exact congrFun (hdata _ x (slotAt_isData _) hslot hx) _

omit [DecidableEq ι] in
/-- Data blocks hold no block numbers. -/
theorem Owned.refs_store (h : s.Owned A) {q : ι × Slot} (hq : q.2.IsData)
    (hb : s.refs q = some b) (blk : Bytes) : (s.store b blk).refs = s.refs := by
  funext ⟨j, p⟩
  refine refs_other (s := s) (t := s.store b blk) rfl (fun k c hc => ?_) p
  exact Dev.store_of_ne (h.ne_link hc hq hb).symm

omit [DecidableEq ι] in
theorem Owned.store (h : s.Owned A) {q : ι × Slot} (hq : q.2.IsData) (hb : s.refs q = some b)
    (blk : Bytes) : (s.store b blk).Owned A := by
  obtain ⟨hok, hused⟩ := A.store_ok s.dev b blk h.ok ((h.used b).mpr ⟨q, hb⟩)
  have hrefs := h.refs_store hq hb blk
  refine ⟨hok, ?_, ?_⟩
  · rw [hrefs]
    exact h.inj
  · rw [hrefs]
    exact fun x => (hused x).trans (h.used x)

theorem blockWrite_fresh {blk src : Bytes} {off n o : Nat} (ho : o < blockSize) :
    blockWrite blk true off src n o = if off ≤ o ∧ o < off + n then src (o - off) else 0 := by
  simp only [blockSize] at ho
  simp only [blockWrite, if_true, memset, memcpy, blockSize]
  split
  · rw [if_neg (by omega)]
  · split
    · rw [if_neg (by omega)]
    · rw [if_pos (by omega), if_pos (by omega)]

/-- The copy when the page has a block. -/
theorem transfer_spec {write : Bool} (h : s.Owned A) (hoff : off + n ≤ blockSize)
    (hb : s.refs (i, slotAt g) = some b) :
    Effect A write i (blockSize * g + off) pos n buf s (transfer write false b off pos n buf s).1
      (transfer write false b off pos n buf s).2 := by
  have hin : ∀ o, o < blockSize → s.byte i (blockSize * g + o) = s.dev.disk b o := by
    intro o ho
    have hdiv : (blockSize * g + o) / blockSize = g := by simp only [blockSize] at *; omega
    have hmod : (blockSize * g + o) % blockSize = o := by simp only [blockSize] at *; omega
    rw [byte_eq, hdiv, hb, hmod]
  cases write with
  | true =>
    have hd : (slotAt g).IsData := slotAt_isData g
    have hrefs := h.refs_store (q := (i, slotAt g)) hd hb
      (blockWrite (s.dev.disk b) false off (fun k => buf (pos + k)) n)
    obtain ⟨hhere, hthere⟩ := byte_write (s := s) (fun k => buf (pos + k)) hoff
      ((congrFun hrefs _).trans hb) (fun q _ => congrFun hrefs q)
      (fun q x hq hne hx => Dev.store_of_ne fun e => hne (h.inj q _ b (e ▸ hx) hb))
      (fun o ho => by
        rw [hin o ho]
        show (s.dev.store b _).disk b o = _
        rw [Dev.store_self]
        rfl)
    have hmono : ∀ q x, s.refs q = some x → Store.refs _ q = some x :=
      fun q x hx => (congrFun hrefs q).trans hx
    exact ⟨⟨h.store (q := (i, slotAt g)) hd hb _, hmono, hhere, hthere, fun _ _ => rfl,
      Inode.Like.refl _, .inl (Inode.SameAddrs.refl _),
      fun _ hp => hp.mono (Inode.SamePos.refl _) hmono⟩, rfl⟩
  | false =>
    refine ⟨Upd.refl h, ?_⟩
    show memcpy buf pos (fun k => s.dev.disk b (off + k)) n =
      memcpy buf pos (fun k => s.byte i (blockSize * g + off + k)) n
    refine memcpy_congr fun k hk => ?_
    have hk' : off + k < blockSize := Nat.lt_of_lt_of_le (Nat.add_lt_add_left hk off) hoff
    rw [Nat.add_assoc, hin _ hk']

/-- The copy into a block that was just stored in the slot of the page. -/
theorem transfer_fresh (hadd : Adds s t (i, slotAt g) b) (ht : t.Owned A)
    (hoff : off + n ≤ blockSize) (hother : ∀ j, j ≠ i → t.ino j = s.ino j)
    (hlike : (s.ino i).Like (t.ino i)) (hpos : (s.ino i).SamePos (t.ino i))
    (hdirty : (s.ino i).SameAddrs (t.ino i) ∨ (t.ino i).dirty = true) :
    Effect A true i (blockSize * g + off) pos n buf s (transfer true true b off pos n buf t).1
      (transfer true true b off pos n buf t).2 := by
  have hd : (slotAt g).IsData := slotAt_isData g
  have hb : t.refs (i, slotAt g) = some b := by rw [hadd.refs, Function.update_self]
  have hrefs := ht.refs_store (q := (i, slotAt g)) hd hb
    (blockWrite (t.dev.disk b) true off (fun k => buf (pos + k)) n)
  have hzero : ∀ o < blockSize, s.byte i (blockSize * g + o) = 0 := by
    intro o ho
    have hdiv : (blockSize * g + o) / blockSize = g := by simp only [blockSize] at *; omega
    rw [byte_eq, hdiv, hadd.empty]
  have hold : ∀ q, q ≠ (i, slotAt g) → t.refs q = s.refs q := by
    intro q hq
    rw [hadd.refs, Function.update_of_ne hq]
  obtain ⟨hhere, hthere⟩ := byte_write (s := s)
    (t := t.store b (blockWrite (t.dev.disk b) true off (fun k => buf (pos + k)) n))
    (fun k => buf (pos + k)) hoff
    ((congrFun hrefs _).trans hb) (fun q hq => (congrFun hrefs q).trans (hold q hq))
    (fun q x hq hne hx => by
      have hx' : t.refs q = some x := (hold q hne).trans hx
      have hxb : x ≠ b := fun e => hne (ht.inj q _ b (e ▸ hx') hb)
      exact (Dev.store_of_ne hxb).trans (hadd.data q x hq hx))
    (fun o ho => by
      rw [hzero o ho]
      show (t.dev.store b _).disk b o = _
      rw [Dev.store_self, blockWrite_fresh ho])
  have hmono : ∀ q x, s.refs q = some x → (t.store b (blockWrite (t.dev.disk b) true off
      (fun k => buf (pos + k)) n)).refs q = some x := by
    intro q x hx
    have hq : q ≠ (i, slotAt g) := by
      rintro rfl
      rw [hadd.empty] at hx
      cases hx
    exact (congrFun hrefs q).trans ((hold q hq).trans hx)
  exact ⟨⟨ht.store (q := (i, slotAt g)) hd hb _, hmono, hhere, hthere, hother, hlike, hdirty,
    fun _ hp => hp.mono hpos hmono⟩, rfl⟩

omit [DecidableEq ι] in
/-- A page without a block reads as zero. -/
theorem zero_spec (h : s.Owned A) (hoff : off + n ≤ blockSize)
    (hb : s.refs (i, slotAt g) = none) :
    Effect A false i (blockSize * g + off) pos n buf s (memset buf pos 0 n) s := by
  refine ⟨Upd.refl h, ?_⟩
  show memcpy buf pos (fun _ => 0) n =
    memcpy buf pos (fun k => s.byte i (blockSize * g + off + k)) n
  refine memcpy_congr fun k hk => ?_
  have hdiv : (blockSize * g + off + k) / blockSize = g := by simp only [blockSize] at *; omega
  rw [byte_eq, hdiv, hb]

/-- `direct_data_block_rw` on page `k`. -/
theorem directDataBlockRw_spec {write : Bool} {k : Nat} (h : s.Owned A) (hk : k < numDirectData)
    (hoff : off + n ≤ blockSize) :
    RwSpec A write i (blockSize * k + off) pos n buf s
      (directDataBlockRw A.alloc write i k off pos n buf s) := by
  have hslot : slotAt k = .direct k := slotAt_direct hk
  unfold directDataBlockRw
  split
  · next hnone =>
    cases write with
    | true =>
      rw [if_pos rfl]
      split
      · next d hd => exact Kept.failed (h.alloc_error hd)
      · next b d hd =>
        obtain ⟨hok, hlt, hnew, -, hused, hdisk⟩ := h.alloc_ok hd
        have hadd : Adds s ({ s with dev := d }.setDirect i k b) (i, slotAt k) b := by
          rw [hslot]
          exact Adds.direct hk hlt hnone fun q x hx => (hdisk q x hx).2.2
        have hown : ({ s with dev := d }.setDirect i k b).Owned A :=
          h.adds hadd hok (fun hb => (h.used b).mp hb |>.elim hnew) hused
        refine transfer_fresh hadd hown hoff (fun j hj => Function.update_of_ne hj ..)
          ?_ ?_ (.inr ?_)
        · simp [setDirect, setIno, Inode.Like]
        · simp [setDirect, setIno, Inode.SamePos]
        · simp [setDirect, setIno]
    | false =>
      refine zero_spec h hoff ?_
      rw [hslot, refs_eq, slotRef, if_pos hk, hnone, toRef_none32]
  · next hsome =>
    refine transfer_spec h hoff ?_
    rw [hslot, refs_eq, slotRef, if_pos hk, toRef, if_neg hsome]

/-- `data_block_rw` on entry `j` of the `m`-th address block. -/
theorem dataBlockRw_spec {write : Bool} {m j ab : Nat} (h : s.Owned A)
    (hab : s.refs (i, .link m) = some ab) (hj : j < numAddrs) (hoff : off + n ≤ blockSize) :
    RwSpec A write i (blockSize * (numDirectData + numAddrs * m + j) + off) pos n buf s
      (dataBlockRw A.alloc write ab j off pos n buf s) := by
  have hslot : slotAt (numDirectData + numAddrs * m + j) = .entry m j := slotAt_entry hj
  have hchain : chain s.dev.disk (s.ino i).nextAddrBlock m = some ab := hab
  have hentry : s.refs (i, .entry m j) = toRef (addrAt (s.dev.disk ab) j) := by
    rw [refs_eq, slotRef, if_pos hj, hchain, Option.bind_some]
  unfold dataBlockRw
  split
  · next hnone =>
    cases write with
    | true =>
      rw [if_pos rfl]
      split
      · next d hd => exact Kept.failed (h.alloc_error hd)
      · next b d hd =>
        obtain ⟨hok, hlt, hnew, -, hused, hdisk⟩ := h.alloc_ok hd
        obtain ⟨-, habused, habdisk⟩ := hdisk _ ab hab
        have hstore := A.store_ok d ab (setAddr (d.disk ab) j b) hok habused
        have hadd : Adds s { s with dev := d.store ab (setAddr (d.disk ab) j b) }
            (i, slotAt (numDirectData + numAddrs * m + j)) b := by
          rw [hslot]
          refine Adds.entry h hab hj hnone hlt rfl ?_ fun q x hx hxc => ?_
          · rw [← habdisk]
            exact Dev.store_self
          · exact (Dev.store_of_ne hxc).trans (hdisk q x hx).2.2
        have hown : Owned A { s with dev := d.store ab (setAddr (d.disk ab) j b) } :=
          h.adds hadd hstore.1 (fun hb => (h.used b).mp hb |>.elim hnew)
            fun x => (hstore.2 x).trans (hused x)
        exact transfer_fresh hadd hown hoff (fun _ _ => rfl) (Inode.Like.refl _)
          (Inode.SamePos.refl _) (.inl (Inode.SameAddrs.refl _))
    | false =>
      refine zero_spec h hoff ?_
      rw [hslot, hentry, hnone, toRef_none32]
  · next hsome =>
    refine transfer_spec h hoff ?_
    rw [hslot, hentry, toRef, if_neg hsome]

end Block

end Store

end CoroCore.Nfs
