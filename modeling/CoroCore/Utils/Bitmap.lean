import CoroCore.Lib.Bytes
import Mathlib.Data.List.Basic
import Mathlib.Data.List.Induction
import Mathlib.Data.Set.Insert
import Mathlib.Order.Bounds.Basic

/-!
# `utils/bitmap.h`

A bitmap is an array of 64-bit words. `bitmapFindFirstZero` looks for a word that is not all
ones, then for a zero bit in it (`bitmapFindFirstZero_spec`).

* `bits_run`: a bitmap is a set of indices, on which the operations insert and remove;
* `bitmap_refines_set`: what is read after any operations.
-/

namespace CoroCore

open Lib

/-- `bitmap[i]`. -/
def bitmapWord (bitmap : Bytes) (i : Nat) : Nat := getLe bitmap (8 * i) 8

/-- `bitmap_find_first_zero`; `size` is the number of words, and `(uint32)-1` the answer if
there is no zero bit. -/
def bitmapFindFirstZero (bitmap : Bytes) (size : Nat) : Nat :=
  match (List.range size).find? fun i => bitmapWord bitmap i != 2 ^ 64 - 1 with
  | none => 2 ^ 32 - 1
  | some i =>
    match (List.range 64).find? fun j => !(bitmapWord bitmap i).testBit j with
    | none => i * 64 + 64
    | some j => i * 64 + j

/-- `bitmap_set`. -/
def bitmapSet (bitmap : Bytes) (index : Nat) : Bytes :=
  setLe bitmap (8 * (index / 64)) 8 (bitmapWord bitmap (index / 64) ||| 2 ^ (index % 64))

/-- `bitmap_clear`. -/
def bitmapClear (bitmap : Bytes) (index : Nat) : Bytes :=
  setLe bitmap (8 * (index / 64)) 8
    (bitmapWord bitmap (index / 64) &&& ((2 ^ 64 - 1) ^^^ 2 ^ (index % 64)))

/-- `bitmap_get`. -/
def bitmapGet (bitmap : Bytes) (index : Nat) : Bool :=
  (bitmapWord bitmap (index / 64)).testBit (index % 64)

section Words

variable {bitmap : Bytes} {i j w : Nat}

theorem bitmapWord_lt : bitmapWord bitmap i < 2 ^ 64 := by
  have h := getLe_lt (b := bitmap) 8 (8 * i)
  rwa [show (256 : Nat) ^ 8 = 2 ^ 64 by norm_num] at h

theorem bitmapWord_setLe_self (hw : w < 2 ^ 64) : bitmapWord (setLe bitmap (8 * i) 8 w) i = w :=
  getLe_setLe (by rwa [show (256 : Nat) ^ 8 = 2 ^ 64 by norm_num])

theorem bitmapWord_setLe_of_ne (h : j ≠ i) :
    bitmapWord (setLe bitmap (8 * i) 8 w) j = bitmapWord bitmap j :=
  getLe_setLe_of_disjoint (by omega)

theorem or_lt : bitmapWord bitmap i ||| 2 ^ (j % 64) < 2 ^ 64 :=
  Nat.or_lt_two_pow bitmapWord_lt (Nat.pow_lt_pow_right (by decide) (Nat.mod_lt j (by decide)))

end Words

section Bits

variable {bitmap : Bytes} {index k : Nat}

theorem bitmapGet_set_self : bitmapGet (bitmapSet bitmap index) index = true := by
  rw [bitmapGet, bitmapSet, bitmapWord_setLe_self or_lt, Nat.testBit_or, Nat.testBit_two_pow_self,
    Bool.or_true]

theorem bitmapGet_set_of_ne (h : k ≠ index) :
    bitmapGet (bitmapSet bitmap index) k = bitmapGet bitmap k := by
  rw [bitmapGet, bitmapGet, bitmapSet]
  rcases eq_or_ne (k / 64) (index / 64) with hw | hw
  · have hbit : index % 64 ≠ k % 64 := by omega
    rw [hw, bitmapWord_setLe_self or_lt, Nat.testBit_or, Nat.testBit_two_pow_of_ne hbit,
      Bool.or_false]
  · rw [bitmapWord_setLe_of_ne hw]

theorem bitmapGet_clear_self : bitmapGet (bitmapClear bitmap index) index = false := by
  have hlt : index % 64 < 64 := Nat.mod_lt index (by decide)
  rw [bitmapGet, bitmapClear,
    bitmapWord_setLe_self (Nat.lt_of_le_of_lt Nat.and_le_left bitmapWord_lt), Nat.testBit_and,
    Nat.testBit_xor, Nat.testBit_two_pow_sub_one, Nat.testBit_two_pow_self]
  simp [hlt]

theorem bitmapGet_clear_of_ne (h : k ≠ index) :
    bitmapGet (bitmapClear bitmap index) k = bitmapGet bitmap k := by
  rw [bitmapGet, bitmapGet, bitmapClear]
  rcases eq_or_ne (k / 64) (index / 64) with hw | hw
  · have hbit : index % 64 ≠ k % 64 := by omega
    have hlt : k % 64 < 64 := Nat.mod_lt k (by decide)
    rw [hw, bitmapWord_setLe_self (Nat.lt_of_le_of_lt Nat.and_le_left bitmapWord_lt),
      Nat.testBit_and, Nat.testBit_xor, Nat.testBit_two_pow_sub_one,
      Nat.testBit_two_pow_of_ne hbit]
    simp [hlt]
  · rw [bitmapWord_setLe_of_ne hw]

/-- The bit found is one of the bitmap's, and it is zero. -/
theorem bitmapFindFirstZero_spec {size : Nat}
    (h : bitmapFindFirstZero bitmap size ≠ 2 ^ 32 - 1) :
    bitmapFindFirstZero bitmap size < 64 * size ∧
      bitmapGet bitmap (bitmapFindFirstZero bitmap size) = false := by
  revert h
  unfold bitmapFindFirstZero
  split
  · exact fun h => absurd rfl h
  · next i hi =>
    have hmem : i < size := List.mem_range.mp (List.mem_of_find?_eq_some hi)
    have hne : bitmapWord bitmap i ≠ 2 ^ 64 - 1 := by simpa using List.find?_some hi
    intro _
    split
    · next hj =>
      -- a word whose 64 bits are all set is all ones
      refine absurd (Nat.eq_of_testBit_eq fun j => ?_) hne
      rw [Nat.testBit_two_pow_sub_one]
      rcases Nat.lt_or_ge j 64 with hlt | hge
      · have := List.find?_eq_none.mp hj j (List.mem_range.mpr hlt)
        simpa [hlt] using this
      · rw [Nat.testBit_lt_two_pow (Nat.lt_of_lt_of_le bitmapWord_lt
          (Nat.pow_le_pow_right (by decide) hge))]
        simp [Nat.not_lt.mpr hge]
    · next j hj =>
      have hlt : j < 64 := List.mem_range.mp (List.mem_of_find?_eq_some hj)
      have hbit : (bitmapWord bitmap i).testBit j = false := by simpa using List.find?_some hj
      refine ⟨by omega, ?_⟩
      rw [bitmapGet, show (i * 64 + j) / 64 = i by omega, show (i * 64 + j) % 64 = j by omega, hbit]

/-- The bits before the one found are ones, and all are if none is found. -/
theorem bitmapFindFirstZero_before {size : Nat} (hk : k < bitmapFindFirstZero bitmap size)
    (hsize : k < 64 * size) : bitmapGet bitmap k = true := by
  have hfull : ∀ i, k / 64 = i → bitmapWord bitmap i = 2 ^ 64 - 1 → bitmapGet bitmap k = true := by
    rintro i rfl hi
    have hlt : k % 64 < 64 := Nat.mod_lt k (by decide)
    rw [bitmapGet, hi, Nat.testBit_two_pow_sub_one]
    exact decide_eq_true hlt
  revert hk
  unfold bitmapFindFirstZero
  split
  · next hnone =>
    intro _
    refine hfull (k / 64) rfl ?_
    simpa using List.find?_range_eq_none.mp hnone (k / 64) (by omega)
  · next i hi =>
    obtain ⟨-, -, hbefore⟩ := List.find?_range_eq_some.mp hi
    have hword : k / 64 < i → bitmapGet bitmap k = true := fun h =>
      hfull (k / 64) rfl (by simpa using hbefore (k / 64) h)
    split
    · next hj =>
      intro hk
      rcases Nat.lt_or_ge (k / 64) i with h | h
      · exact hword h
      · have hki : k / 64 = i := by omega
        have hlt : k % 64 < 64 := Nat.mod_lt k (by decide)
        rw [bitmapGet, hki]
        simpa using List.find?_range_eq_none.mp hj (k % 64) hlt
    · next j hj =>
      obtain ⟨-, -, hbits⟩ := List.find?_range_eq_some.mp hj
      intro hk
      rcases Nat.lt_or_ge (k / 64) i with h | h
      · exact hword h
      · have hj64 := List.mem_range.mp (List.mem_of_find?_eq_some hj)
        have hki : k / 64 = i := by omega
        rw [bitmapGet, hki]
        simpa using hbits (k % 64) (by omega)

/-- The bit found is the first one that is zero, and there is none if and only if none is found. -/
theorem bitmapFindFirstZero_least {size : Nat} (hsize : 64 * size < 2 ^ 32) :
    (bitmapFindFirstZero bitmap size = 2 ^ 32 - 1 ↔ ∀ i < 64 * size, bitmapGet bitmap i = true) ∧
      (bitmapFindFirstZero bitmap size ≠ 2 ^ 32 - 1 →
        IsLeast {i | i < 64 * size ∧ bitmapGet bitmap i = false}
          (bitmapFindFirstZero bitmap size)) := by
  refine ⟨⟨fun h i hi => ?_, fun hall => ?_⟩, fun h =>
    ⟨bitmapFindFirstZero_spec h, fun i hi => ?_⟩⟩
  · exact bitmapFindFirstZero_before (by omega) hi
  · by_contra h
    obtain ⟨hlt, hzero⟩ := bitmapFindFirstZero_spec h
    rw [hall _ hlt] at hzero
    cases hzero
  · by_contra hlt
    obtain ⟨hi, hzero⟩ := hi
    rw [bitmapFindFirstZero_before (Nat.lt_of_not_le hlt) hi] at hzero
    cases hzero

end Bits

/-! ## Sequences of operations -/

inductive BitmapOp
  | set (index : Nat)
  | clear (index : Nat)
  deriving DecidableEq

namespace BitmapOp

def index : BitmapOp → Nat
  | set index => index
  | clear index => index

def apply (bitmap : Bytes) : BitmapOp → Bytes
  | set index => bitmapSet bitmap index
  | clear index => bitmapClear bitmap index

/-- The operation on a set of indices. -/
def onSet (S : Set Nat) : BitmapOp → Set Nat
  | set index => insert index S
  | clear index => S \ {index}

end BitmapOp

def bitmapRun (bitmap : Bytes) (ops : List BitmapOp) : Bytes := ops.foldl BitmapOp.apply bitmap

/-- The indices of the bits that are 1. -/
def bits (bitmap : Bytes) : Set Nat := {i | bitmapGet bitmap i = true}

/-- The latest operation on a bit. -/
def latest (ops : List BitmapOp) (i : Nat) : Option BitmapOp :=
  ops.reverse.find? fun op => op.index = i

variable {bitmap : Bytes} {op : BitmapOp} {ops : List BitmapOp} {i k n : Nat}

theorem bitmapGet_apply_of_ne (h : k ≠ op.index) :
    bitmapGet (op.apply bitmap) k = bitmapGet bitmap k := by
  cases op with
  | set index => exact bitmapGet_set_of_ne h
  | clear index => exact bitmapGet_clear_of_ne h

theorem bits_apply : bits (op.apply bitmap) = op.onSet (bits bitmap) := by
  ext k
  cases op with
  | set index =>
    rw [BitmapOp.onSet, Set.mem_insert_iff]
    rcases eq_or_ne k index with rfl | hne
    · exact iff_of_true bitmapGet_set_self (.inl rfl)
    · rw [or_iff_right hne]
      exact Eq.congr_left (bitmapGet_set_of_ne hne)
  | clear index =>
    rw [BitmapOp.onSet, Set.mem_sdiff, Set.mem_singleton_iff]
    rcases eq_or_ne k index with rfl | hne
    · refine iff_of_false ?_ fun h => h.2 rfl
      exact Bool.eq_false_iff.mp bitmapGet_clear_self
    · rw [and_iff_left hne]
      exact Eq.congr_left (bitmapGet_clear_of_ne hne)

/-- The operations insert into the set, and remove from it. -/
theorem bits_run : bits (bitmapRun bitmap ops) = ops.foldl BitmapOp.onSet (bits bitmap) := by
  induction ops generalizing bitmap with
  | nil => rfl
  | cons op ops ih =>
    rw [List.foldl_cons, ← bits_apply]
    exact ih

theorem bitmapRun_snoc : bitmapRun bitmap (ops ++ [op]) = op.apply (bitmapRun bitmap ops) :=
  List.foldl_concat _ _ _ _

theorem latest_snoc : latest (ops ++ [op]) i = if op.index = i then some op else latest ops i := by
  rw [latest, List.reverse_append, List.reverse_singleton, List.singleton_append, List.find?_cons]
  split
  · rename_i h
    rw [if_pos (of_decide_eq_true h)]
  · rename_i h
    rw [if_neg (of_decide_eq_false h)]
    rfl

/-- A bit is what the latest operation on it made it, or what it was. -/
theorem bitmapGet_run : bitmapGet (bitmapRun bitmap ops) i = true ↔
    latest ops i = some (.set i) ∨ latest ops i = none ∧ bitmapGet bitmap i = true := by
  induction ops using List.reverseRecOn with
  | nil => exact ⟨fun h => .inr ⟨rfl, h⟩, fun h => h.elim nofun fun h => h.2⟩
  | append_singleton ops op ih =>
    rw [bitmapRun_snoc, latest_snoc]
    rcases eq_or_ne op.index i with rfl | hne
    · rw [if_pos rfl]
      cases op with
      | set index => exact iff_of_true bitmapGet_set_self (.inl rfl)
      | clear index =>
        refine iff_of_false (Bool.eq_false_iff.mp bitmapGet_clear_self) ?_
        rintro (h | h)
        · cases h
        · cases h.1
    · rw [if_neg hne, bitmapGet_apply_of_ne hne.symm, ih]

/-- Only the words of the bitmap are written. -/
theorem apply_outside (h : op.index < 64 * n) {a : Nat} (ha : 8 * n ≤ a) :
    op.apply bitmap a = bitmap a := by
  have hword : a < 8 * (op.index / 64) ∨ 8 * (op.index / 64) + 8 ≤ a := by omega
  cases op with
  | set index =>
    rw [BitmapOp.apply, bitmapSet, setLe]
    exact memcpy_out hword
  | clear index =>
    rw [BitmapOp.apply, bitmapClear, setLe]
    exact memcpy_out hword

theorem bitmapRun_outside (h : ∀ op ∈ ops, op.index < 64 * n) {a : Nat} (ha : 8 * n ≤ a) :
    bitmapRun bitmap ops a = bitmap a := by
  induction ops generalizing bitmap with
  | nil => rfl
  | cons op ops ih =>
    obtain ⟨hop, hops⟩ := List.forall_mem_cons.mp h
    exact (ih hops).trans (apply_outside hop ha)

/-- After any operations on a bitmap of `n` words: each bit is what the latest operation on it says,
one more operation changes its own bit only, and the first zero bit is found. -/
theorem bitmap_refines_set (bitmap : Bytes) (n : Nat) (ops : List BitmapOp)
    (hn : 64 * n < 2 ^ 32) (hops : ∀ op ∈ ops, op.index < 64 * n) :
    bits (bitmapRun bitmap ops) = ops.foldl BitmapOp.onSet (bits bitmap) ∧
      (∀ i < 64 * n, (bitmapGet (bitmapRun bitmap ops) i = true ↔
        latest ops i = some (.set i) ∨ latest ops i = none ∧ bitmapGet bitmap i = true)) ∧
      (∀ (op : BitmapOp) (i : Nat), i ≠ op.index →
        bitmapGet (op.apply (bitmapRun bitmap ops)) i = bitmapGet (bitmapRun bitmap ops) i) ∧
      (∀ a, 8 * n ≤ a → bitmapRun bitmap ops a = bitmap a) ∧
      (bitmapFindFirstZero (bitmapRun bitmap ops) n = 2 ^ 32 - 1 ↔
        ∀ i < 64 * n, bitmapGet (bitmapRun bitmap ops) i = true) ∧
      (bitmapFindFirstZero (bitmapRun bitmap ops) n ≠ 2 ^ 32 - 1 →
        IsLeast {i | i < 64 * n ∧ bitmapGet (bitmapRun bitmap ops) i = false}
          (bitmapFindFirstZero (bitmapRun bitmap ops) n)) :=
  ⟨bits_run, fun _ _ => bitmapGet_run, fun _ _ => bitmapGet_apply_of_ne,
    fun _ => bitmapRun_outside hops, bitmapFindFirstZero_least hn⟩

theorem bitmap_refines_set_sample :
    let bitmap := bitmapRun (fun _ => 0) [.set 0, .set 64, .set 1, .clear 0]
    64 * 2 < 2 ^ 32 ∧ bitmapGet bitmap 64 = true ∧ bitmapGet bitmap 0 = false ∧
      bitmapFindFirstZero bitmap 2 = 0 := by
  obtain ⟨-, hget, -⟩ := bitmap_refines_set (fun _ => 0) 2 [.set 0, .set 64, .set 1, .clear 0]
    (by decide) (by decide)
  refine ⟨by decide, (hget 64 (by decide)).mpr (by decide), ?_, by decide +kernel⟩
  refine Bool.eq_false_iff.mpr fun h => ?_
  exact absurd ((hget 0 (by decide)).mp h) (by decide)

end CoroCore
