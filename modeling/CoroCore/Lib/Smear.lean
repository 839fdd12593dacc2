import Mathlib.Data.Nat.Bitwise

/-!
# Smearing the highest bit

`a ||| a >>> w` with `w` = 1, 2, 4, ... sets all bits below the highest one. After each step a bit
is set if and only if one of the `w` bits from it on was set in the beginning (`Smeared.step`); when
`w` is the number of bits, what is left is a power of two less one (`Smeared.eq_two_pow`).
-/

namespace CoroCore.Lib

variable {v w n a : Nat}

/-- Each bit of `a` says whether one of the `w` bits of `v` from it on is set. -/
def Smeared (v w a : Nat) : Prop :=
  ∀ j, a.testBit j = true ↔ ∃ i, j ≤ i ∧ i < j + w ∧ v.testBit i = true

theorem Smeared.start : Smeared v 1 v := by
  intro j
  constructor
  · intro h
    exact ⟨j, le_rfl, Nat.lt_succ_self j, h⟩
  · rintro ⟨i, h1, h2, h⟩
    obtain rfl : i = j := by omega
    exact h

theorem Smeared.step (h : Smeared v w a) : Smeared v (w + w) (a ||| a >>> w) := by
  intro j
  rw [Nat.testBit_or, Bool.or_eq_true, Nat.testBit_shiftRight, h, h]
  constructor
  · rintro (⟨i, h1, h2, hi⟩ | ⟨i, h1, h2, hi⟩)
    · exact ⟨i, h1, by omega, hi⟩
    · exact ⟨i, by omega, by omega, hi⟩
  · rintro ⟨i, h1, h2, hi⟩
    rcases Nat.lt_or_ge i (j + w) with hlt | hge
    · exact .inl ⟨i, h1, hlt, hi⟩
    · exact .inr ⟨i, by omega, by omega, hi⟩

/-- All bits up to the highest one are set. -/
theorem Smeared.eq_two_pow (h : Smeared v n a) (hv : v ≠ 0) (hlt : v < 2 ^ n) :
    a = 2 ^ (v.log2 + 1) - 1 := by
  have hhigh : v.log2 < n := (Nat.log2_lt hv).mpr hlt
  refine Nat.eq_of_testBit_eq fun j => ?_
  rw [Nat.testBit_two_pow_sub_one, Bool.eq_iff_iff, h, decide_eq_true_eq, Nat.lt_succ_iff]
  constructor
  · rintro ⟨i, h1, -, hi⟩
    exact h1.trans ((Nat.le_log2 hv).mpr (Nat.ge_two_pow_of_testBit hi))
  · intro hj
    exact ⟨v.log2, hj, by omega, Nat.testBit_log2 hv⟩

end CoroCore.Lib
