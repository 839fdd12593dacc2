import CoroCore.Lib.Smear
import CoroCore.Mm.NewDelete

/-!
# The integer logarithm: `mm/allocator.cc`

`log2_64` sets all bits below the highest one (`smear`), takes what is left of it without its half,
and looks the power of two up by the top six bits of its product with a constant.

* `smear_toNat`: the six steps;
* `tab64_power`: the product and the table, for each power of two;
* `log2_64_exact`: the logarithm.
-/

namespace CoroCore

open Lib

/-- The six shift-or steps of `log2_64`. -/
def smear (value : UInt64) : UInt64 :=
  let value := value ||| (value >>> 1)
  let value := value ||| (value >>> 2)
  let value := value ||| (value >>> 4)
  let value := value ||| (value >>> 8)
  let value := value ||| (value >>> 16)
  value ||| (value >>> 32)

/-- The multiplication and the table lookup of `log2_64`. -/
def tab64Of (power : UInt64) : Nat := tab64.getD ((power * 0x07EDD5E59A4E28C2) >>> 58).toNat 0

theorem log2_64_eq (value : UInt64) : log2_64 value = tab64Of (smear value - (smear value >>> 1)) :=
  rfl

theorem smeared_step {v w : Nat} {value : UInt64} (shift : UInt64) (h : Smeared v w value.toNat)
    (hshift : shift.toNat % 64 = w) : Smeared v (w + w) (value ||| (value >>> shift)).toNat := by
  rw [UInt64.toNat_or, UInt64.toNat_shiftRight, hshift]
  exact h.step

theorem smear_toNat {value : UInt64} (h : value.toNat ≠ 0) :
    (smear value).toNat = 2 ^ (value.toNat.log2 + 1) - 1 := by
  have h1 : Smeared value.toNat (1 + 1) _ := smeared_step 1 Smeared.start rfl
  have h2 := smeared_step 2 h1 rfl
  have h4 := smeared_step 4 h2 rfl
  have h8 := smeared_step 8 h4 rfl
  have h16 := smeared_step 16 h8 rfl
  have h32 := smeared_step 32 h16 rfl
  exact h32.eq_two_pow h value.toNat_lt

/-- Each power of two has its exponent in the table. -/
theorem tab64_power {k : Nat} (hk : k < 64) : tab64Of (UInt64.ofNat (2 ^ k)) = k := by
  have hall : ∀ k ∈ List.range 64, tab64Of (UInt64.ofNat (2 ^ k)) = k := by
    decide +kernel
  exact hall k (List.mem_range.mpr hk)

/-- What is left without its half is the highest bit. -/
theorem smear_sub_half {value : UInt64} (h : value.toNat ≠ 0) :
    smear value - (smear value >>> 1) = UInt64.ofNat (2 ^ value.toNat.log2) := by
  have hlt : value.toNat.log2 < 64 := (Nat.log2_lt h).mpr value.toNat_lt
  have hpow : 2 ^ value.toNat.log2 < 2 ^ 64 := Nat.pow_lt_pow_right (by decide) hlt
  have hhalf : (smear value >>> 1).toNat = 2 ^ value.toNat.log2 - 1 := by
    have hone : (1 : UInt64).toNat % 64 = 1 := rfl
    rw [UInt64.toNat_shiftRight, hone, Nat.shiftRight_one, smear_toNat h, Nat.pow_succ]
    omega
  have hle : smear value >>> 1 ≤ smear value := by
    rw [UInt64.le_iff_toNat_le, hhalf, smear_toNat h, Nat.pow_succ]
    omega
  refine UInt64.toNat_inj.mp ?_
  rw [UInt64.toNat_sub_of_le _ _ hle, hhalf, smear_toNat h, UInt64.toNat_ofNat_of_lt' hpow,
    Nat.pow_succ]
  have hpos : 0 < 2 ^ value.toNat.log2 := Nat.two_pow_pos _
  omega

/-- `log2_64` of a value from 1 on is its logarithm, rounded down: the steps leave the bits up to
the highest one, and the table has the exponent of each power of two. -/
theorem log2_64_exact (value : UInt64) (h : 1 ≤ value) :
    (smear value).toNat = 2 ^ (value.toNat.log2 + 1) - 1 ∧
      (∀ k < 64, tab64Of (UInt64.ofNat (2 ^ k)) = k) ∧ log2_64 value = value.toNat.log2 ∧
      2 ^ log2_64 value ≤ value.toNat ∧ value.toNat < 2 ^ (log2_64 value + 1) := by
  have hne : value.toNat ≠ 0 := Nat.one_le_iff_ne_zero.mp (UInt64.le_iff_toNat_le.mp h)
  have hlog : log2_64 value = value.toNat.log2 := by
    rw [log2_64_eq, smear_sub_half hne, tab64_power ((Nat.log2_lt hne).mpr value.toNat_lt)]
  refine ⟨smear_toNat hne, fun k hk => tab64_power hk, hlog, ?_⟩
  rw [hlog]
  exact ⟨Nat.log2_self_le hne, Nat.lt_log2_self⟩

theorem log2_64_exact_1000 : (1 : UInt64) ≤ 1000 ∧ log2_64 1000 = 9 :=
  ⟨by decide, (log2_64_exact 1000 (by decide)).2.2.1⟩

end CoroCore
