import CoroCore.Nfs.Data

/-!
# Which block is referenced from where

A block number is stored in a *slot* of an inode: a direct address, the link to the `k`-th
address block of the chain, or entry `j` of the `k`-th address block. `slotRef` reads the slot
through the device. Page `g` of a file, its bytes `1024 g ..`, has the slot `slotAt g`.

* `Owned`: no block is referenced from two slots, over all inodes, and the blocks in use are
  those referenced. This is the invariant of block allocation;
* `Owned.adds`: allocating a block and storing it in one empty slot keeps it.
-/

namespace CoroCore.Nfs

open Lib

inductive Slot
  | direct (k : Nat)
  | link (k : Nat)
  | entry (k j : Nat)
deriving DecidableEq, Repr

/-- The slot of page `g` of a file. -/
def slotAt (g : Nat) : Slot :=
  if g < numDirectData then .direct g
  else .entry ((g - numDirectData) / numAddrs) ((g - numDirectData) % numAddrs)

/-- Slots that refer to data, and not to an address block. -/
def Slot.IsData : Slot → Prop
  | .link _ => False
  | _ => True

/-- A stored block number as a reference. -/
def toRef (w : Nat) : Option Nat := if w = none32 then none else some w

/-- The `k`-th address block of the chain that starts at `b`. -/
def chain (disk : Nat → Bytes) (b : Nat) : Nat → Option Nat
  | 0 => toRef b
  | k + 1 => (chain disk b k).bind fun c => toRef (nextOf (disk c))

def slotRef (disk : Nat → Bytes) (ino : Inode) : Slot → Option Nat
  | .direct k => if k < numDirectData then toRef (ino.addrs k) else none
  | .link k => chain disk ino.nextAddrBlock k
  | .entry k j =>
    if j < numAddrs then
      (chain disk ino.nextAddrBlock k).bind fun c => toRef (addrAt (disk c) j)
    else none

/-- The byte of a file at position `p`; 0 where there is no block. -/
def byteAt (disk : Nat → Bytes) (ino : Inode) (p : Nat) : UInt8 :=
  match slotRef disk ino (slotAt (p / blockSize)) with
  | none => 0
  | some b => disk b (p % blockSize)

/-! ## Slots and pages -/

theorem slotAt_isData (g : Nat) : (slotAt g).IsData := by
  unfold slotAt
  split <;> trivial

theorem slotAt_injective {g h : Nat} (e : slotAt g = slotAt h) : g = h := by
  unfold slotAt at e
  split at e <;> split at e
  · cases e
    rfl
  · cases e
  · cases e
  · next hg hh =>
    injection e with hk hj
    have := Nat.div_add_mod (g - numDirectData) numAddrs
    have := Nat.div_add_mod (h - numDirectData) numAddrs
    simp only [numDirectData, numAddrs] at *
    omega

theorem slotAt_direct {g : Nat} (h : g < numDirectData) : slotAt g = .direct g := if_pos h

theorem slotAt_entry {k j : Nat} (hj : j < numAddrs) :
    slotAt (numDirectData + numAddrs * k + j) = .entry k j := by
  have hnot : ¬ numDirectData + numAddrs * k + j < numDirectData := by
    simp only [numDirectData, numAddrs]
    omega
  rw [slotAt, if_neg hnot]
  simp only [numDirectData, numAddrs] at *
  congr 1 <;> omega

/-! ## Words of an address block -/

theorem nextOf_setNext {blk : Bytes} {b : Nat} (hb : b < none32) : nextOf (setNext blk b) = b :=
  getLe_setLe (by simp only [none32] at hb; omega)

theorem addrAt_setNext {blk : Bytes} {b j : Nat} : addrAt (setNext blk b) j = addrAt blk j :=
  getLe_setLe_of_disjoint (by omega)

theorem nextOf_setAddr {blk : Bytes} {b j : Nat} : nextOf (setAddr blk j b) = nextOf blk :=
  getLe_setLe_of_disjoint (by omega)

theorem addrAt_setAddr_self {blk : Bytes} {b j : Nat} (hb : b < none32) :
    addrAt (setAddr blk j b) j = b :=
  getLe_setLe (by simp only [none32] at hb; omega)

theorem addrAt_setAddr_of_ne {blk : Bytes} {b j l : Nat} (h : l ≠ j) :
    addrAt (setAddr blk j b) l = addrAt blk l :=
  getLe_setLe_of_disjoint (by omega)

theorem getLe_blank {blk : Bytes} {off : Nat} (h : off + 4 ≤ blockSize) :
    getLe (Store.blankBlock blk) off 4 = none32 := by
  have hff : getLe (Store.blankBlock blk) off 4 = getLe (fun _ => 0xff) off 4 := by
    refine getLe_congr fun k hk => ?_
    refine if_pos ⟨Nat.zero_le _, ?_⟩
    simp only [blockSize] at h ⊢
    omega
  rw [hff]
  simp [getLe]

theorem nextOf_blank {blk : Bytes} : nextOf (Store.blankBlock blk) = none32 :=
  getLe_blank (by decide)

theorem addrAt_blank {blk : Bytes} {j : Nat} (hj : j < numAddrs) :
    addrAt (Store.blankBlock blk) j = none32 :=
  getLe_blank (by simp only [numAddrs] at hj; simp only [blockSize]; omega)

@[simp] theorem toRef_none32 : toRef none32 = none := if_pos rfl

theorem toRef_of_lt {b : Nat} (hb : b < none32) : toRef b = some b := if_neg (Nat.ne_of_lt hb)

theorem toRef_eq_some {w b : Nat} (h : toRef w = some b) : w = b ∧ b ≠ none32 := by
  unfold toRef at h
  split at h
  · cases h
  · next hw =>
    cases h
    exact ⟨rfl, hw⟩

/-! ## Chains -/

section Chain

variable {disk disk' : Nat → Bytes} {b : Nat}

theorem chain_isSome_le {k m : Nat} (hm : m ≤ k) (h : (chain disk b k).isSome) :
    (chain disk b m).isSome := by
  induction k with
  | zero =>
    obtain rfl := Nat.le_zero.mp hm
    exact h
  | succ k ih =>
    rcases Nat.eq_or_lt_of_le hm with rfl | hlt
    · exact h
    · refine ih (Nat.le_of_lt_succ hlt) ?_
      rw [chain] at h
      exact Option.isSome_of_isSome_bind h

/-- A chain depends on the links of its own blocks only. -/
theorem chain_congr {k : Nat} (h : ∀ m < k, ∀ c, chain disk b m = some c →
    nextOf (disk' c) = nextOf (disk c)) : chain disk' b k = chain disk b k := by
  induction k with
  | zero => rfl
  | succ k ih =>
    rw [chain, chain, ih fun m hm => h m (Nat.lt_succ_of_lt hm)]
    cases hc : chain disk b k with
    | none => rfl
    | some c => rw [Option.bind_some, Option.bind_some, h k (Nat.lt_succ_self k) c hc]

/-- The chain from the second block on. -/
theorem chain_succ (hb : b ≠ none32) (k : Nat) :
    chain disk b (k + 1) = chain disk (nextOf (disk b)) k := by
  induction k with
  | zero => rw [chain, chain, chain, toRef, if_neg hb, Option.bind_some]
  | succ k ih => rw [chain, ih, chain]

end Chain

/-- The slots of an inode depend on the address blocks of its chain only. -/
theorem slotRef_congr {disk disk' : Nat → Bytes} {ino : Inode}
    (h : ∀ k c, slotRef disk ino (.link k) = some c → disk' c = disk c) (p : Slot) :
    slotRef disk' ino p = slotRef disk ino p := by
  have hchain : ∀ k, chain disk' ino.nextAddrBlock k = chain disk ino.nextAddrBlock k :=
    fun k => chain_congr fun m _ c hc => by rw [h m c hc]
  cases p with
  | direct k => rfl
  | link k => exact hchain k
  | entry k j =>
    rw [slotRef, slotRef, hchain]
    cases hc : chain disk ino.nextAddrBlock k with
    | none => rfl
    | some c => rw [Option.bind_some, Option.bind_some, h k c hc]

/-- The slots of an inode depend on its addresses only. -/
theorem slotRef_same {disk : Nat → Bytes} {x y : Inode}
    (ha : ∀ k < numDirectData, y.addrs k = x.addrs k) (hn : y.nextAddrBlock = x.nextAddrBlock)
    (p : Slot) : slotRef disk y p = slotRef disk x p := by
  cases p with
  | direct k =>
    rw [slotRef, slotRef]
    split
    · next hk => rw [ha k hk]
    · rfl
  | link k => rw [slotRef, slotRef, hn]
  | entry k l => rw [slotRef, slotRef, hn]

/-! ## Ownership -/

@[simp] theorem Dev.store_self {α : Type} {d : Dev α} {b : Nat} {blk : Bytes} :
    (d.store b blk).disk b = blk := Function.update_self ..

theorem Dev.store_of_ne {α : Type} {d : Dev α} {b x : Nat} {blk : Bytes} (h : x ≠ b) :
    (d.store b blk).disk x = d.disk x := Function.update_of_ne h ..

/-- What the operations rely on in an allocator: which blocks are in use, and that it hands
out a block that is not and leaves the contents of the others alone. -/
structure AllocModel (α : Type) where
  alloc : Alloc α
  Ok : Dev α → Prop
  Used : Dev α → Nat → Prop
  alloc_ok : ∀ d b d', Ok d → alloc d = .ok (b, d') → Ok d' ∧ b < none32 ∧ ¬ Used d b ∧
    (∀ x, Used d' x ↔ x = b ∨ Used d x) ∧ ∀ x, Used d' x → d'.disk x = d.disk x
  alloc_error : ∀ d d', Ok d → alloc d = .error d' → Ok d' ∧ (∀ x, Used d' x ↔ Used d x) ∧
    ∀ x, Used d x → d'.disk x = d.disk x
  store_ok : ∀ d b blk, Ok d → Used d b → Ok (d.store b blk) ∧
    ∀ x, Used (d.store b blk) x ↔ Used d x

namespace Store

variable {ι α : Type}

/-- The block in a slot of an inode. -/
def refs (s : Store ι α) (p : ι × Slot) : Option Nat := slotRef s.dev.disk (s.ino p.1) p.2

theorem refs_eq (s : Store ι α) (i : ι) (p : Slot) :
    s.refs (i, p) = slotRef s.dev.disk (s.ino i) p := rfl

/-- The contents of file `i`. -/
def byte (s : Store ι α) (i : ι) (p : Nat) : UInt8 := byteAt s.dev.disk (s.ino i) p

/-- The blocks in use are those in the slots, each in one slot. -/
structure Owned (A : AllocModel α) (s : Store ι α) : Prop where
  ok : A.Ok s.dev
  inj : ∀ p q b, s.refs p = some b → s.refs q = some b → p = q
  used : ∀ b, A.Used s.dev b ↔ ∃ p, s.refs p = some b

variable [DecidableEq ι] {A : AllocModel α} {s t : Store ι α}

/-- `t` comes from `s` by a new reference to `b` in the slot `p`; data blocks keep their
contents. -/
structure Adds (s t : Store ι α) (p : ι × Slot) (b : Nat) : Prop where
  empty : s.refs p = none
  refs : t.refs = Function.update s.refs p (some b)
  data : ∀ q x, q.2.IsData → s.refs q = some x → t.dev.disk x = s.dev.disk x

/-- A block that is allocated and stored in one empty slot. -/
theorem Owned.adds (h : s.Owned A) {p : ι × Slot} {b : Nat} (hadd : Adds s t p b)
    (hok : A.Ok t.dev) (hfresh : ¬ A.Used s.dev b)
    (hused : ∀ x, A.Used t.dev x ↔ x = b ∨ A.Used s.dev x) : t.Owned A := by
  have hnew : ∀ q, s.refs q ≠ some b := fun q hq => hfresh ((h.used b).mpr ⟨q, hq⟩)
  have hget : ∀ q, t.refs q = if q = p then some b else s.refs q := by
    intro q
    rw [hadd.refs, Function.update_apply]
  refine ⟨hok, fun q r c hq hr => ?_, fun c => ?_⟩
  · rw [hget] at hq hr
    split at hq <;> split at hr
    · next hqp hrp => exact hqp.trans hrp.symm
    · cases hq
      exact absurd hr (hnew r)
    · cases hr
      exact absurd hq (hnew q)
    · exact h.inj q r c hq hr
  · rw [hused, h.used]
    constructor
    · rintro (rfl | ⟨q, hq⟩)
      · exact ⟨p, by rw [hget, if_pos rfl]⟩
      · refine ⟨q, ?_⟩
        rw [hget, if_neg, hq]
        rintro rfl
        rw [hadd.empty] at hq
        cases hq
    · rintro ⟨q, hq⟩
      rw [hget] at hq
      split at hq
      · exact .inl (Option.some.inj hq).symm
      · exact .inr ⟨q, hq⟩

end Store

end CoroCore.Nfs
