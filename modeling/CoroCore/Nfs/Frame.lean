import CoroCore.Nfs.Table

/-!
# What calls leave alone, done or failed

A call that fails ends in the state it has reached. `Frame.dataRw`: what the allocator, a store to
a block and a change of the block addresses of inode `i` keep, a call of `data_rw` on inode `i`
keeps, however it ends. The superblock's `ninodes` and the link counts are such things.

A read or a write of one `dinode` that fails changes no byte of any file (`readDinode_error`,
`writeDinode_error`).
-/

namespace CoroCore.Nfs

open Lib

namespace Inode

/-- The inodes agree in their metadata, the size apart, and in validity. -/
def SameMeta (x y : Inode) : Prop :=
  y.nlinks = x.nlinks ∧ y.perm = x.perm ∧ y.type = x.type ∧ y.valid = x.valid

end Inode

namespace Store

variable {ι α : Type} [DecidableEq ι] {alloc : Alloc α} {i : ι} {P : Store ι α → Prop}

/-- The state with which an operation ends, done or failed. -/
def endState {σ β : Type} (f : β → σ) : Except σ β → σ
  | .error t => t
  | .ok x => f x

/-- The steps of `data_rw` on the device keep `P`. -/
structure DevFrame (alloc : Alloc α) (P : Store ι α → Prop) : Prop where
  took : ∀ s b d, P s → alloc s.dev = .ok (b, d) → P { s with dev := d }
  failed : ∀ s d, P s → alloc s.dev = .error d → P { s with dev := d }
  store : ∀ s b blk, P s → P (s.store b blk)

/-- The steps of `data_rw` on inode `i` keep `P`. -/
structure Frame (alloc : Alloc α) (i : ι) (P : Store ι α → Prop) : Prop
    extends DevFrame alloc P where
  ino : ∀ s x, P s → (s.ino i).SameMeta x → P (s.setIno i x)

section DevFrame

variable (h : DevFrame alloc P)
include h

omit [DecidableEq ι] in
theorem DevFrame.transfer {s : Store ι α} {write clear : Bool} {b off pos size : Nat} {buf : Bytes}
    (hs : P s) : P (transfer write clear b off pos size buf s).2 := by
  cases write with
  | true => exact h.store s b _ hs
  | false => exact hs

omit [DecidableEq ι] in
theorem DevFrame.dataBlockRw {s : Store ι α} (write : Bool) (ab j off pos size : Nat) (buf : Bytes)
    (hs : P s) : P (endState Prod.snd (dataBlockRw alloc write ab j off pos size buf s)) := by
  unfold Store.dataBlockRw
  split
  · cases write with
    | true =>
      rw [if_pos rfl]
      cases ha : alloc s.dev with
      | error d => exact h.failed s d hs ha
      | ok r =>
        have htook := h.took s r.1 r.2 hs ha
        exact h.transfer (h.store _ ab _ htook)
    | false => exact hs
  · exact h.transfer hs

omit [DecidableEq ι] in
theorem DevFrame.extend : ∀ (fuel b o : Nat) (s : Store ι α), P s →
    P { s with dev := endState (fun r => r.2.2) (extend alloc fuel b o s.dev) } := by
  intro fuel
  induction fuel with
  | zero => exact fun b o s hs => hs
  | succ fuel ih =>
    intro b o s hs
    unfold Store.extend
    split
    · exact hs
    · cases ha : alloc s.dev with
      | error d => exact h.failed s d hs ha
      | ok r =>
        have htook := h.took s r.1 r.2 hs ha
        have hlink := h.store _ b (setNext ((r.2.store r.1 (blankBlock (r.2.disk r.1))).disk b) r.1)
          (h.store _ r.1 (blankBlock (r.2.disk r.1)) htook)
        exact ih r.1 (o - addrBlockDataSize) { s with dev := linkBlock r.2 b r.1 } hlink

omit [DecidableEq ι] in
theorem DevFrame.getBlockIndex {s : Store ι α} (b o : Nat) (hs : P s) :
    P { s with dev := endState (fun r => r.2.2.2) (getBlockIndex alloc b o s.dev) } := by
  unfold Store.getBlockIndex
  split
  next b' o' _ =>
  have hext := h.extend (o' / addrBlockDataSize) b' o' s hs
  cases hres : Store.extend alloc (o' / addrBlockDataSize) b' o' s.dev with
  | error d =>
    rw [hres] at hext
    exact hext
  | ok r =>
    rw [hres] at hext
    exact hext

omit [DecidableEq ι] in
theorem DevFrame.indirectLoop (write : Bool) : ∀ (fuel cur o pos size : Nat) (buf : Bytes)
    (s : Store ι α), P s →
    P (endState (fun r => r.2.2.2) (indirectLoop alloc write fuel cur o pos size buf s)) := by
  intro fuel
  induction fuel with
  | zero => exact fun cur o pos size buf s hs => hs
  | succ fuel ih =>
    intro cur o pos size buf s hs
    unfold Store.indirectLoop
    split
    · have hindex := h.getBlockIndex cur o hs
      cases hres : Store.getBlockIndex alloc cur o s.dev with
      | error d =>
        rw [hres] at hindex
        exact hindex
      | ok r =>
        obtain ⟨ab, j, off, d⟩ := r
        rw [hres] at hindex
        have hrw := h.dataBlockRw write ab j off pos (min size (blockSize - off)) buf
          (show P { s with dev := d } from hindex)
        cases hres' : Store.dataBlockRw alloc write ab j off pos (min size (blockSize - off)) buf
            { s with dev := d } with
        | error t =>
          rw [hres'] at hrw
          simp only [hres']
          exact hrw
        | ok r =>
          rw [hres'] at hrw
          simp only [hres']
          exact ih _ _ _ _ r.1 r.2 hrw
    · exact hs

end DevFrame

variable (h : Frame alloc i P)
include h

theorem Frame.directDataBlockRw {s : Store ι α} (write : Bool) (k off pos size : Nat) (buf : Bytes)
    (hs : P s) : P (endState Prod.snd (directDataBlockRw alloc write i k off pos size buf s)) := by
  unfold Store.directDataBlockRw
  split
  · cases write with
    | true =>
      rw [if_pos rfl]
      cases ha : alloc s.dev with
      | error d => exact h.failed s d hs ha
      | ok r =>
        have htook := h.took s r.1 r.2 hs ha
        exact h.transfer (h.ino _ _ htook ⟨rfl, rfl, rfl, rfl⟩)
    | false => exact hs
  · exact h.transfer hs

theorem Frame.directLoop (write : Bool) : ∀ (fuel offset pos size : Nat) (buf : Bytes)
    (s : Store ι α), P s →
    P (endState (fun r => r.2.2.2.2) (directLoop alloc write i fuel offset pos size buf s)) := by
  intro fuel
  induction fuel with
  | zero => exact fun offset pos size buf s hs => hs
  | succ fuel ih =>
    intro offset pos size buf s hs
    unfold Store.directLoop
    split
    · have hrw := h.directDataBlockRw write (offset / blockSize) (offset % blockSize) pos
        (min size (blockSize - offset % blockSize)) buf hs
      cases hres : Store.directDataBlockRw alloc write i (offset / blockSize) (offset % blockSize)
          pos (min size (blockSize - offset % blockSize)) buf s with
      | error t =>
        rw [hres] at hrw
        exact hrw
      | ok r =>
        rw [hres] at hrw
        exact ih _ _ _ r.1 r.2 hrw
    · exact hs

theorem Frame.indirectRw {s : Store ι α} (write : Bool) (r pos size : Nat) (buf : Bytes)
    (hs : P s) : P (endState (fun r => r.2.2) (indirectRw alloc write i r pos size buf s)) := by
  have hloop := h.indirectLoop write size (startAt (s.ino i) r).1 (startAt (s.ino i) r).2 pos size
    buf s hs
  unfold Store.indirectRw
  cases hres : Store.indirectLoop alloc write size (startAt (s.ino i) r).1 (startAt (s.ino i) r).2
      pos size buf s with
  | error t =>
    rw [hres] at hloop
    exact hloop
  | ok res =>
    rw [hres] at hloop
    exact h.ino _ _ hloop ⟨rfl, rfl, rfl, rfl⟩

theorem Frame.firstAddrBlock {s : Store ι α} (hs : P s) :
    P (endState id (firstAddrBlock alloc i s)) := by
  unfold Store.firstAddrBlock
  cases ha : alloc s.dev with
  | error d => exact h.failed s d hs ha
  | ok r =>
    have htook := h.took s r.1 r.2 hs ha
    exact h.ino _ _ (h.store _ r.1 _ htook) ⟨rfl, rfl, rfl, rfl⟩

/-- However a call of `data_rw` ends. -/
theorem Frame.dataRw {s : Store ι α} (write : Bool) (offset size : Nat) (buf : Bytes) (hs : P s) :
    P (endState (fun r => r.2.2) (dataRw alloc write i offset size buf s)) := by
  have hloop := h.directLoop write size offset 0 size buf s hs
  unfold Store.dataRw
  cases hres : Store.directLoop alloc write i size offset 0 size buf s with
  | error t =>
    rw [hres] at hloop
    exact hloop
  | ok r =>
    obtain ⟨offset', pos, left, buf', t⟩ := r
    rw [hres] at hloop
    have ht : P t := hloop
    simp only
    split
    · exact ht
    split
    · cases write with
      | true =>
        rw [if_pos rfl]
        have hfirst := h.firstAddrBlock ht
        cases hres' : Store.firstAddrBlock alloc i t with
        | error u =>
          rw [hres'] at hfirst
          exact hfirst
        | ok u =>
          rw [hres'] at hfirst
          exact h.indirectRw true _ pos left buf' hfirst
      | false => exact ht
    · exact h.indirectRw write _ pos left buf' ht

/-- However a call of `write` ends. -/
theorem Frame.write {s : Store ι α} (offset size : Nat) (src : Bytes) (hs : P s) :
    P (endState Prod.snd (Store.write alloc i offset size src s)) := by
  have hrw := h.dataRw true offset size src hs
  unfold Store.write
  cases hres : Store.dataRw alloc true i offset size src s with
  | error t =>
    rw [hres] at hrw
    exact hrw
  | ok r =>
    obtain ⟨n, buf, t⟩ := r
    rw [hres] at hrw
    simp only
    split
    · exact h.ino _ _ hrw ⟨rfl, rfl, rfl, rfl⟩
    · exact hrw

omit h [DecidableEq ι] in
/-- Two calls, one after the other. -/
theorem endState_bind {σ β γ : Type} {Q : σ → Prop} {f : β → σ} {g : γ → σ} {x : Except σ β}
    {k : β → Except σ γ} (hx : Q (endState f x)) (hk : ∀ a, Q (f a) → Q (endState g (k a))) :
    Q (endState g (x >>= k)) := by
  cases x with
  | error t => exact hx
  | ok a => exact hk a hx

end Store

/-! ## A write of one block that fails -/

namespace Store

variable {ι α : Type} [DecidableEq ι] {A : AllocModel α} {i : ι} {s t : Store ι α}

/-- A call that has changed no byte when the allocator fails. -/
structure Broke (A : AllocModel α) (i : ι) (s t : Store ι α) : Prop where
  kept : Kept A i s t
  failed : ∃ d, A.Ok d ∧ A.alloc d = .error t.dev

omit [DecidableEq ι] in
theorem Owned.broke {d : Dev α} (h : s.Owned A) (ha : A.alloc s.dev = .error d) :
    Broke A i s { s with dev := d } := ⟨h.alloc_error ha, s.dev, h.ok, ha⟩

omit [DecidableEq ι] in
theorem Broke.prepend {u : Store ι α} (h : Kept A i s t) (h' : Broke A i t u) : Broke A i s u :=
  ⟨Upd.prepend h h'.kept, h'.failed⟩

theorem directDataBlockRw_error {write : Bool} {k off pos size : Nat} {buf : Bytes} (h : s.Owned A)
    (hres : directDataBlockRw A.alloc write i k off pos size buf s = .error t) : Broke A i s t := by
  unfold directDataBlockRw at hres
  split at hres
  · split at hres
    · cases ha : A.alloc s.dev with
      | error d =>
        rw [ha] at hres
        cases hres
        exact h.broke ha
      | ok r =>
        rw [ha] at hres
        cases hres
    · cases hres
  · cases hres

omit [DecidableEq ι] in
theorem dataBlockRw_error {write : Bool} {ab j off pos size : Nat} {buf : Bytes} (h : s.Owned A)
    (hres : dataBlockRw A.alloc write ab j off pos size buf s = .error t) : Broke A i s t := by
  unfold dataBlockRw at hres
  split at hres
  · split at hres
    · cases ha : A.alloc s.dev with
      | error d =>
        rw [ha] at hres
        cases hres
        exact h.broke ha
      | ok r =>
        rw [ha] at hres
        cases hres
    · cases hres
  · cases hres

theorem extend_error {d : Dev α} : ∀ (fuel k b o : Nat) (s : Store ι α), s.Owned A →
    s.refs (i, .link k) = some b → (o < addrBlockDataSize ∨ nextOf (s.dev.disk b) = none32) →
    extend A.alloc fuel b o s.dev = .error d → Broke A i s { s with dev := d } := by
  intro fuel
  induction fuel with
  | zero =>
    intro k b o s _ _ _ hres
    cases hres
  | succ fuel ih =>
    intro k b o s h hb hend hres
    unfold extend at hres
    split at hres
    · cases hres
    · next hge =>
      split at hres
      · next ha =>
        cases hres
        exact h.broke ha
      · next nb d' ha =>
        obtain ⟨hkept, hnb, hlast⟩ := linkBlock_spec h hb (hend.resolve_left hge) ha
        exact (ih (k + 1) nb _ { s with dev := linkBlock d' b nb } hkept.owned hnb (.inr hlast)
          hres).prepend hkept

theorem getBlockIndex_error {k b o : Nat} {d : Dev α} (h : s.Owned A)
    (hb : s.refs (i, .link k) = some b) (hres : getBlockIndex A.alloc b o s.dev = .error d) :
    Broke A i s { s with dev := d } := by
  obtain ⟨m, b', o', hw, hc, -, hstop⟩ :=
    walk_spec (o / addrBlockDataSize) k b o (by simp only [addrBlockDataSize]; omega) hb
  unfold getBlockIndex at hres
  simp only [hw] at hres
  split at hres
  · next hext =>
    cases hres
    exact extend_error _ (k + m) b' o' s h hc hstop hext
  · cases hres

theorem directLoop_zero {alloc : Alloc α} {write : Bool} (fuel offset pos : Nat) (buf : Bytes) :
    directLoop alloc write i fuel offset pos 0 buf s = .ok (offset, pos, 0, buf, s) := by
  cases fuel with
  | zero => rfl
  | succ fuel => exact if_neg fun hloop => Nat.lt_irrefl 0 hloop.2

omit [DecidableEq ι] in
theorem indirectLoop_zero {alloc : Alloc α} {write : Bool} (fuel cur o pos : Nat) (buf : Bytes) :
    indirectLoop alloc write fuel cur o pos 0 buf s = .ok (cur, o, buf, s) := by
  cases fuel with
  | zero => rfl
  | succ fuel => exact if_neg (Nat.lt_irrefl 0)

/-- The first loop does nothing behind the direct blocks. -/
theorem directLoop_far {alloc : Alloc α} {write : Bool} {fuel offset pos size : Nat} {buf : Bytes}
    (hge : directDataSize ≤ offset) :
    directLoop alloc write i fuel offset pos size buf s = .ok (offset, pos, size, buf, s) := by
  cases fuel with
  | zero => rfl
  | succ fuel => exact if_neg fun hloop => Nat.not_lt.mpr hge hloop.1

/-- A range within one direct block. -/
theorem dataRw_direct {alloc : Alloc α} {write : Bool} {offset size : Nat} {buf : Bytes}
    (hlt : offset < directDataSize) (hblock : offset % blockSize + size ≤ blockSize)
    (hsize : 0 < size) : dataRw alloc write i offset size buf s =
      (directDataBlockRw alloc write i (offset / blockSize) (offset % blockSize) 0 size buf s).map
        fun r => (0 + size, r.1, r.2) := by
  obtain ⟨fuel, rfl⟩ : ∃ fuel, size = fuel + 1 := ⟨size - 1, (Nat.sub_add_cancel hsize).symm⟩
  have hmin : min (fuel + 1) (blockSize - offset % blockSize) = fuel + 1 :=
    Nat.min_eq_left (Nat.le_sub_of_add_le' hblock)
  rw [dataRw, directLoop, if_pos ⟨hlt, hsize⟩, hmin, Nat.sub_self]
  cases directDataBlockRw alloc write i (offset / blockSize) (offset % blockSize) 0 (fuel + 1)
      buf s with
  | error u => rfl
  | ok r =>
    simp only [directLoop_zero]
    rfl

/-- The last loop, of one round. -/
theorem indirectLoop_error {write : Bool} {k cur o pos size : Nat} {buf : Bytes} (h : s.Owned A)
    (hcur : s.refs (i, .link k) = some cur) (hblock : o % blockSize + size ≤ blockSize)
    (hres : indirectLoop A.alloc write size cur o pos size buf s = .error t) : Broke A i s t := by
  cases size with
  | zero => cases hres
  | succ fuel =>
    have hmin : min (fuel + 1) (blockSize - o % blockSize) = fuel + 1 := by omega
    rw [indirectLoop, if_pos (Nat.succ_pos fuel)] at hres
    rcases getBlockIndex_cases (o := o) h hcur with ⟨d, hget, -⟩ | ⟨ab, d, hget, hkept, -⟩
    · rw [hget] at hres
      cases hres
      exact getBlockIndex_error h hcur hget
    · rw [hget] at hres
      simp only [hmin, Nat.sub_self] at hres
      cases hrw : dataBlockRw A.alloc write ab (o % addrBlockDataSize / blockSize) (o % blockSize)
          pos (fuel + 1) buf { s with dev := d } with
      | error u =>
        simp only [hrw] at hres
        cases hres
        exact (dataBlockRw_error hkept.owned hrw).prepend hkept
      | ok r =>
        simp only [hrw, indirectLoop_zero] at hres
        cases hres

theorem firstAddrBlock_error (h : s.Owned A) (hres : firstAddrBlock A.alloc i s = .error t) :
    Broke A i s t := by
  unfold firstAddrBlock at hres
  split at hres
  · next ha =>
    cases hres
    exact h.broke ha
  · cases hres

/-- A call of `data_rw` on a range within one block that fails has changed no byte, and fails since
there is no block for it. -/
theorem dataRw_error {write : Bool} {offset size : Nat} {buf : Bytes} (h : s.Owned A)
    (hpos : s.PosAt i (offset - directDataSize)) (hblock : offset % blockSize + size ≤ blockSize)
    (hres : dataRw A.alloc write i offset size buf s = .error t) : Broke A i s t := by
  cases size with
  | zero => cases hres
  | succ fuel =>
    rcases Nat.lt_or_ge offset directDataSize with hlt | hge
    · rw [dataRw_direct hlt hblock (Nat.succ_pos fuel)] at hres
      cases hrw : directDataBlockRw A.alloc write i (offset / blockSize) (offset % blockSize) 0
          (fuel + 1) buf s with
      | error u =>
        rw [hrw] at hres
        cases hres
        exact directDataBlockRw_error h hrw
      | ok r =>
        rw [hrw] at hres
        cases hres
    · have hlast : ∀ u : Store ι α, u.Owned A → u.PosAt i (offset - directDataSize) →
          u.refs (i, .link 0) = some (u.ino i).nextAddrBlock →
          indirectRw A.alloc write i (offset - directDataSize) 0 (fuel + 1) buf u = .error t →
          Broke A i u t := by
        intro u hu hup hlink hrw
        obtain ⟨k, hcur, hk⟩ := startAt_spec hlink hup
        unfold indirectRw at hrw
        split at hrw
        · next v hloop =>
          cases hrw
          refine indirectLoop_error hu hcur ?_ hloop
          simp only [blockSize, addrBlockDataSize, directDataSize] at *
          omega
        · cases hrw
      rw [dataRw, directLoop_far hge] at hres
      simp only [if_neg (Nat.succ_ne_zero fuel)] at hres
      split at hres
      · next hnone =>
        split at hres
        · have hfirst := firstAddrBlock_spec h hnone
          cases hf : firstAddrBlock A.alloc i s with
          | error u =>
            rw [hf] at hres
            cases hres
            exact firstAddrBlock_error h hf
          | ok u =>
            rw [hf] at hres hfirst
            exact (hlast u hfirst.1.owned (hfirst.1.pos _ hpos) hfirst.2 hres).prepend hfirst.1
        · cases hres
      · next hsome =>
        refine hlast s h hpos ?_ hres
        rw [refs_eq, slotRef, chain, toRef, if_neg hsome]

end Store

/-! ## The number of inodes -/

theorem allocBlock_ninodes {d : Dev Super} :
    (Store.endState Prod.snd (allocBlock d)).al.ninodes = d.al.ninodes := by
  unfold allocBlock
  split
  · rfl
  · split
    split
    · rfl
    · split
      · rfl
      · rfl

theorem ninodes_frame {ι : Type} [DecidableEq ι] (i : ι) (c : Nat) :
    Store.Frame allocBlock i fun s : Store ι Super => s.dev.al.ninodes = c where
  took s b d hs ha := by
    have hsame := allocBlock_ninodes (d := s.dev)
    rw [ha] at hsame
    exact hsame.trans hs
  failed s d hs ha := by
    have hsame := allocBlock_ninodes (d := s.dev)
    rw [ha] at hsame
    exact hsame.trans hs
  store _ _ _ hs := hs
  ino _ _ hs _ := hs

namespace Fs

open Store

variable {s t : Fs} {i n : Nat} {d : Dinode}

theorem loadTable_ninodes : (loadTable s).dev.al.ninodes = s.dev.al.ninodes := by
  unfold loadTable
  split <;> rfl

theorem readDinode_ninodes (n : Nat) (s : Fs) :
    (endState Prod.snd (readDinode n s)).dev.al.ninodes = s.dev.al.ninodes := by
  have hread : (endState (fun r : Nat × Bytes × Fs => r.2.2)
      (Store.read allocBlock 0 (n * dinodeSize) dinodeSize (fun _ => 0)
      (loadTable s))).dev.al.ninodes =
      s.dev.al.ninodes :=
    (ninodes_frame 0 s.dev.al.ninodes).dataRw false _ _ _ loadTable_ninodes
  exact endState_bind (Q := fun t : Fs => t.dev.al.ninodes = s.dev.al.ninodes) hread fun _ ht => ht

theorem writeDinode_ninodes (n : Nat) (d : Dinode) (s : Fs) :
    (endState id (writeDinode n d s)).dev.al.ninodes = s.dev.al.ninodes := by
  have hwrite : (endState Prod.snd (Store.write allocBlock 0 (n * dinodeSize) dinodeSize d.encode
      (loadTable s))).dev.al.ninodes = s.dev.al.ninodes :=
    (ninodes_frame 0 s.dev.al.ninodes).write _ _ _ loadTable_ninodes
  exact endState_bind (Q := fun t : Fs => t.dev.al.ninodes = s.dev.al.ninodes) hwrite fun _ ht => ht

theorem load_ninodes (i : Nat) (s : Fs) : (endState id (load i s)).dev.al.ninodes =
    s.dev.al.ninodes := by
  unfold load
  split
  · rfl
  split
  · exact loadTable_ninodes
  · exact endState_bind (Q := fun t : Fs => t.dev.al.ninodes = s.dev.al.ninodes)
      (readDinode_ninodes i s)
      fun _ ht => ht

theorem flush_ninodes (i : Nat) (s : Fs) : (endState id (flush i s)).dev.al.ninodes =
    s.dev.al.ninodes := by
  rw [flush_eq]
  split
  · split
    · rfl
    · exact endState_bind (Q := fun t : Fs => t.dev.al.ninodes = s.dev.al.ninodes)
        (writeDinode_ninodes i _ s) fun _ ht => ht
  · rfl

theorem getInode_ninodes {victim : Option Nat} (hg : getInode n victim s = .ok t) :
    t.dev.al.ninodes = s.dev.al.ninodes := by
  unfold getInode at hg
  split at hg
  · cases hg
    rfl
  · cases victim with
    | none =>
      cases hg
      rfl
    | some j =>
      obtain ⟨u, hf, rfl⟩ := recycle_ok hg
      have hn := flush_ninodes j s
      rw [hf] at hn
      exact hn

/-! ## Calls on the inode table that fail -/

variable {live : List Nat}

/-- Nothing that the table or a file holds has changed. -/
structure Still (s t : Fs) : Prop extends Tab s t where
  table : ∀ p, t.byte 0 p = s.byte 0 p

theorem Still.dinode (h : Still s t) (m : Nat) : t.dinode m = s.dinode m :=
  dinode_congr fun _ _ => h.table _

theorem Still.inv (h : Still s t) (hs : TableInv live s) : TableInv live t :=
  hs.tab h.toTab fun i _ => h.dinode i

theorem Still.trans {u : Fs} (h : Still s t) (h' : Still t u) : Still s u :=
  ⟨h.toTab.trans h'.toTab, fun p => (h'.table p).trans (h.table p)⟩

theorem Core.still (h : Core s) (hv : (s.ino 0).valid = true)
    (hkept : Kept (tableModel s.dev.al.inodeTable) 0 s t) : Still s t := by
  obtain ⟨hown, hal⟩ := Store.owned_tableModel.mp hkept.owned
  refine ⟨h.tab hown hkept.other (fun j _ p => hkept.byte j p) hkept.refs hkept.pos ?_ hal
    (hkept.like.2.2.2.2.trans hv) ?_, fun p => hkept.byte 0 p⟩
  · obtain ⟨h1, h2, h3, h4, -⟩ := hkept.like
    obtain ⟨r1, r2, r3, r4⟩ := h.range 0
    exact ⟨h1 ▸ r1, h2 ▸ r2, h3 ▸ r3, h4 ▸ r4⟩
  · exact hkept.dirty.imp_left fun hsame => ⟨Inode.alike_of_like hkept.like hsame, hsame.2.2⟩

/-- A call of `data_rw` on the table for one `dinode` that fails. -/
theorem dataRw_dinode_error (write : Bool) (buf : Bytes) (h : Core s)
    (hn : n * dinodeSize + dinodeSize < 2 ^ 32)
    (hres : dataRw allocBlock write 0 (n * dinodeSize) dinodeSize buf (loadTable s) = .error t) :
    Still s t := by
  obtain ⟨htab, hv, hbyte⟩ := loadTable_spec h
  have hstill : Still s (loadTable s) := ⟨htab, hbyte⟩
  refine hstill.trans (htab.core.still hv (dataRw_error (owned_table htab.core)
    (htab.core.pos _ (offset_lt hn)) ?_ hres).kept)
  simp only [dinodeSize, blockSize]
  omega

theorem readDinode_error (h : Core s) (hn : n * dinodeSize + dinodeSize < 2 ^ 32)
    (hr : readDinode n s = .error t) : Still s t := by
  refine dataRw_dinode_error false (fun _ => 0) h hn ?_
  rw [readDinode, Store.read] at hr
  cases hres : dataRw allocBlock false 0 (n * dinodeSize) dinodeSize (fun _ => 0) (loadTable s) with
  | error u =>
    rw [hres] at hr
    cases hr
    rfl
  | ok r =>
    rw [hres] at hr
    cases hr

theorem writeDinode_dataRw (hw : writeDinode n d s = .error t) :
    dataRw allocBlock true 0 (n * dinodeSize) dinodeSize d.encode (loadTable s) = .error t := by
  rw [writeDinode, writeDinodeWith, Store.write] at hw
  cases hres : dataRw allocBlock true 0 (n * dinodeSize) dinodeSize d.encode (loadTable s) with
  | error u =>
    rw [hres] at hw
    cases hw
    rfl
  | ok r =>
    rw [hres] at hw
    simp only at hw
    split at hw <;> cases hw

theorem writeDinode_error (h : Core s) (hn : n * dinodeSize + dinodeSize < 2 ^ 32)
    (hw : writeDinode n d s = .error t) : Still s t :=
  dataRw_dinode_error true d.encode h hn (writeDinode_dataRw hw)

theorem load_error (h : TableInv live s) (hi : i ∈ live) (hl : load i s = .error t) :
    Still s t := by
  have hne : i ≠ 0 := fun he => h.zero (he ▸ hi)
  rw [load] at hl
  split at hl
  · cases hl
  · cases hres : readDinode i s with
    | error u =>
      rw [hres] at hl
      cases hl
      exact readDinode_error h.core (h.bound i hi) hres
    | ok r =>
      rw [hres] at hl
      cases hl

theorem flush_error (h : TableInv live s) (hi : i ≠ 0) (hf : flush i s = .error t) : Still s t := by
  rw [flush_eq] at hf
  split at hf
  · next hvd =>
    have hlive : i ∈ live := by
      by_contra hni
      rw [(h.absent i hi hni).1] at hvd
      cases hvd.1
    cases hres : writeDinode i (s.ino i).toDinode s with
    | error u =>
      rw [hres] at hf
      cases hf
      exact writeDinode_error h.core (h.bound i hlive) hres
    | ok r =>
      rw [hres] at hf
      cases hf
  · cases hf

/-! ## `alloc_inode` -/

/-- `alloc_inode` up to the write of the new head of the list. -/
def takeNumber (s : Fs) : Res (Nat × Fs) := do
  let (temp, s) ← readDinode 0 s
  if temp.type ≠ itypeNextFreeInode then .error s
  else
    let (new, s) ← readDinode temp.size s
    let head := if new.type = itypeNextFreeInode then new.size else (temp.size + 1) % 2 ^ 32
    let s ← writeDinode 0 { temp with size := head } s
    return (temp.size, s)

theorem allocInode_eq {victim : Option Nat} : allocInode victim s =
    outcome (takeNumber s) >>= fun r => getInode r.1 victim r.2 >>= fun t =>
      .ok (r.1, setNinodes (t.dev.al.ninodes + 1) (t.setIno r.1 (t.ino r.1).initData)) := by
  rw [allocInode, takeNumber, outcome_bind, bind_assoc]
  refine bind_congr fun r => ?_
  simp only
  split
  · rfl
  · simp only [outcome_bind, bind_assoc]
    rfl

theorem takeNumber_ninodes (s : Fs) :
    (endState Prod.snd (takeNumber s)).dev.al.ninodes = s.dev.al.ninodes := by
  unfold takeNumber
  refine endState_bind (Q := fun t : Fs => t.dev.al.ninodes = s.dev.al.ninodes)
    (readDinode_ninodes 0 s) fun r hr => ?_
  simp only
  split
  · exact hr
  refine endState_bind (Q := fun t : Fs => t.dev.al.ninodes = s.dev.al.ninodes)
    ((readDinode_ninodes _ _).trans hr) fun q hq => ?_
  exact endState_bind (Q := fun t : Fs => t.dev.al.ninodes = s.dev.al.ninodes)
    ((writeDinode_ninodes _ _ _).trans hq) fun _ ht => ht

/-- `alloc_inode` counts the inode last. -/
theorem allocInode_ninodes {victim : Option Nat} (ha : allocInode victim s = .ok (n, t)) :
    t.dev.al.ninodes = (s.dev.al.ninodes + 1) % 2 ^ 32 := by
  rw [allocInode_eq] at ha
  obtain ⟨r, hr, ha⟩ := outcome_bind_ok ha
  obtain ⟨u, hg, ha⟩ := bind_ok ha
  cases ha
  have hn := takeNumber_ninodes s
  rw [hr] at hn
  show (u.dev.al.ninodes + 1) % 2 ^ 32 = _
  rw [getInode_ninodes hg, show r.2.dev.al.ninodes = _ from hn]

/-- `get_inode` is done, or it panics. -/
theorem getInode_not_failed {victim : Option Nat} : getInode n victim s ≠ .error (.failed t) := by
  intro hg
  unfold getInode at hg
  split at hg
  · cases hg
  cases victim with
  | none => cases hg
  | some j =>
    simp only [recycle] at hg
    split at hg <;> cases hg

theorem allocInode_failed_iff {victim : Option Nat} :
    allocInode victim s = .error (.failed t) ↔ takeNumber s = .error t := by
  rw [allocInode_eq]
  cases takeNumber s with
  | error u =>
    constructor
    · rintro ⟨⟩
      rfl
    · rintro ⟨⟩
      rfl
  | ok r =>
    refine ⟨fun ha => ?_, fun ht => nomatch ht⟩
    change (getInode r.1 victim r.2 >>= _) = _ at ha
    cases hg : getInode r.1 victim r.2 with
    | error u =>
      rw [hg] at ha
      cases ha
      exact absurd hg getInode_not_failed
    | ok u =>
      rw [hg] at ha
      cases ha

/-- `alloc_inode` fails before it has changed anything. -/
theorem takeNumber_error (h : TableInv live s)
    (hbound : (s.dinode 0).size * dinodeSize + dinodeSize < 2 ^ 32) (hr : takeNumber s = .error t) :
    Still s t ∧ t.dev.al.ninodes = s.dev.al.ninodes := by
  have hn := takeNumber_ninodes s
  rw [hr] at hn
  refine ⟨?_, hn⟩
  rw [takeNumber] at hr
  cases h₁ : readDinode 0 s with
  | error u =>
    rw [h₁] at hr
    cases hr
    exact readDinode_error h.core (by decide) h₁
  | ok r =>
    obtain ⟨temp, s₁⟩ := r
    rw [h₁] at hr
    obtain ⟨rfl, htab₁, hb₁⟩ := readDinode_spec h.core (by decide) h₁
    have hstill₁ : Still s s₁ := ⟨htab₁, hb₁⟩
    change (if (s.dinode 0).type ≠ itypeNextFreeInode then _ else _) = _ at hr
    split at hr
    · cases hr
      exact hstill₁
    cases h₂ : readDinode (s.dinode 0).size s₁ with
    | error u =>
      rw [h₂] at hr
      cases hr
      exact hstill₁.trans (readDinode_error htab₁.core hbound h₂)
    | ok r =>
      obtain ⟨new, s₂⟩ := r
      rw [h₂] at hr
      obtain ⟨-, htab₂, hb₂⟩ := readDinode_spec htab₁.core hbound h₂
      have hstill₂ : Still s₁ s₂ := ⟨htab₂, hb₂⟩
      let d : Dinode := { s.dinode 0 with size :=
        if new.type = itypeNextFreeInode then new.size else ((s.dinode 0).size + 1) % 2 ^ 32 }
      change (writeDinode 0 d s₂ >>= _) = _ at hr
      cases h₃ : writeDinode 0 d s₂ with
      | error u =>
        rw [h₃] at hr
        cases hr
        exact (hstill₁.trans hstill₂).trans (writeDinode_error htab₂.core (by decide) h₃)
      | ok u =>
        rw [h₃] at hr
        cases hr

end Fs

end CoroCore.Nfs
