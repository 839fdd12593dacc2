import CoroCore.Utils.Format
import Mathlib.Data.Nat.Digits.Defs

/-!
# The numbers that are printed: `utils/fprint.cc`, `utils/printf.cc`

The digits of a number come from its last one on into a buffer on the stack, until nothing of the
number is left, and then the sign. `-x` is computed in unsigned numbers, so that the least number
has an absolute value.

* `numbers_printed`: what is printed fits in the buffer and is the numeral of the number, from which
  the number can be read again.
-/

namespace CoroCore.Format

variable {base n fuel w size k : Nat} {buf : List UInt8}

/-! ## Numerals -/

/-- The digits of a number, without a zero in front of them. -/
def numeral (base n : Nat) : List UInt8 :=
  if n = 0 then [digit 0] else ((Nat.digits base n).map digit).reverse

def readDigit (b : UInt8) : Nat := if b < 58 then b.toNat - 48 else b.toNat - 87

def readNat (base : Nat) (l : List UInt8) : Nat := Nat.ofDigits base (l.reverse.map readDigit)

/-- A number with or without a sign. -/
def readInt (base : Nat) (l : List UInt8) : Int :=
  if l.head? = some 45 then -(readNat base l.tail : Int) else readNat base l

/-- `x` as a signed number of `w` bits. -/
def signed (w x : Nat) : Int := if 2 ^ (w - 1) ≤ x then (x : Int) - 2 ^ w else x

/-- The bytes are the numeral of `v` and fit in a buffer of `size` bytes. -/
structure Prints (base : Nat) (v : Int) (size : Nat) (out : List UInt8) : Prop where
  text : out = (if v < 0 then [45] else []) ++ numeral base v.natAbs
  fits : out.length ≤ size
  reads : readInt base out = v

theorem readDigit_digit {d : Nat} (h : d < 16) : readDigit (digit d) = d := by
  have hall : ∀ d < 16, readDigit (digit d) = d := by decide
  exact hall d h

theorem digit_ne_sign {d : Nat} (h : d < 16) : digit d ≠ 45 := by
  have hall : ∀ d < 16, digit d ≠ 45 := by decide
  exact hall d h

theorem digit_lt {d : Nat} (hb : 1 < base) (hb' : base ≤ 16) (h : d ∈ Nat.digits base n) : d < 16 :=
  Nat.lt_of_lt_of_le (Nat.digits_lt_base hb h) hb'

theorem readNat_numeral (hb : 1 < base) (hb' : base ≤ 16) : readNat base (numeral base n) = n := by
  rw [numeral]
  split
  · next hn =>
    rw [hn]
    rfl
  · have hdigits : (Nat.digits base n).map (readDigit ∘ digit) = Nat.digits base n :=
      (List.map_congr_left fun d hd => readDigit_digit (digit_lt hb hb' hd)).trans (List.map_id _)
    rw [readNat, List.reverse_reverse, List.map_map, hdigits, Nat.ofDigits_digits]

theorem sign_not_mem (hb : 1 < base) (hb' : base ≤ 16) : 45 ∉ numeral base n := by
  intro hmem
  rw [numeral] at hmem
  split at hmem
  · exact digit_ne_sign (by decide) (List.mem_singleton.mp hmem).symm
  · obtain ⟨d, hd, heq⟩ := List.mem_map.mp (List.mem_reverse.mp hmem)
    exact digit_ne_sign (digit_lt hb hb' hd) heq

/-- A number is one digit, or a shorter one and its last digit. -/
theorem numeral_digit (h : n < base) : numeral base n = [digit n] := by
  rw [numeral]
  split
  · next hn => rw [hn]
  · next hn =>
    rw [Nat.digits_of_lt base n hn h]
    rfl

theorem numeral_div (hb : 1 < base) (h : n / base ≠ 0) :
    numeral base n = numeral base (n / base) ++ [digit (n % base)] := by
  have hn : n ≠ 0 := by
    rintro rfl
    exact h (Nat.zero_div base)
  rw [numeral, numeral, if_neg hn, if_neg h, Nat.digits_def' hb (Nat.pos_of_ne_zero hn),
    List.map_cons, List.reverse_cons]

/-! ## The loop -/

theorem putDigits_numeral (hb : 1 < base) : ∀ (fuel n : Nat) (buf : List UInt8),
    n < base ^ (fuel + 1) →
    putDigits base (fuel + 1) n buf = numeral base n ++ buf
  | fuel, n, buf, hn => by
    have hpos : 0 < base := Nat.lt_trans Nat.one_pos hb
    rw [putDigits]
    split
    · next hzero =>
      have hlt : n < base := (Nat.div_eq_zero_iff_lt hpos).mp hzero
      rw [Nat.mod_eq_of_lt hlt, numeral_digit hlt]
      rfl
    · next hne =>
      cases fuel with
      | zero =>
        rw [Nat.zero_add, Nat.pow_one] at hn
        exact absurd (Nat.div_eq_of_lt hn) hne
      | succ fuel =>
        rw [Nat.pow_succ] at hn
        rw [putDigits_numeral hb fuel _ _ ((Nat.div_lt_iff_lt_mul hpos).mpr hn), numeral_div hb hne,
          List.append_assoc]
        rfl

theorem putDigits_length : ∀ (fuel n : Nat) (buf : List UInt8),
    (putDigits base fuel n buf).length ≤ fuel + buf.length
  | 0, _, buf => (Nat.zero_add buf.length).ge
  | fuel + 1, n, buf => by
    rw [putDigits]
    split
    · rw [List.length_cons]
      omega
    · have hrest := putDigits_length fuel (n / base) (digit (n % base) :: buf)
      rw [List.length_cons] at hrest
      omega

/-- The numeral of a number below `base ^ k` has at most `k` digits. -/
theorem numeral_length (hb : 1 < base) (hk : 0 < k) (hn : n < base ^ k) :
    (numeral base n).length ≤ k := by
  obtain ⟨fuel, rfl⟩ := Nat.exists_eq_succ_of_ne_zero hk.ne'
  have hlen : (putDigits base (fuel + 1) n []).length ≤ _ := putDigits_length (fuel + 1) n []
  rwa [putDigits_numeral hb fuel n [] hn, List.append_nil, List.length_nil] at hlen

theorem putDigits_fits (hb : 1 < base) (hk : 0 < k) (hsize : k ≤ size) (hn : n < base ^ k) :
    putDigits base size n [] = numeral base n := by
  obtain ⟨fuel, rfl⟩ := Nat.exists_eq_succ_of_ne_zero (hk.trans_le hsize).ne'
  rw [putDigits_numeral hb fuel n []
    (hn.trans_le (Nat.pow_le_pow_right (Nat.lt_trans Nat.one_pos hb) hsize)), List.append_nil]

theorem readInt_numeral (hb : 1 < base) (hb' : base ≤ 16) : readInt base (numeral base n) = n := by
  have hhead : (numeral base n).head? ≠ some 45 :=
    fun h => sign_not_mem hb hb' (List.mem_of_mem_head? h)
  rw [readInt, if_neg hhead, readNat_numeral hb hb']

theorem readInt_sign (hb : 1 < base) (hb' : base ≤ 16) : readInt base (45 :: numeral base n) =
    -(n : Int) := by
  rw [readInt, List.head?_cons, if_pos rfl, List.tail_cons, readNat_numeral hb hb']

/-- A number of `w` bits has at most `k` digits, and the buffer has room for these and a sign. -/
theorem putInt_prints (k : Nat) (sign : Bool) {x : Nat} (hb : 1 < base)
    (hb' : base ≤ 16) (hk : 0 < k) (hsize : k < size) (hw : 2 ^ w ≤ base ^ k) (hx : x < 2 ^ w) :
    Prints base (if sign then signed w x else x) size (putInt w size base sign x) := by
  have hnat : ∀ {n : Nat}, n < 2 ^ w →
      putDigits base size n [] = numeral base n ∧ (numeral base n).length ≤ k := fun hn =>
    ⟨putDigits_fits hb hk hsize.le (hn.trans_le hw), numeral_length hb hk (hn.trans_le hw)⟩
  have hplain : Prints base x size (putDigits base size x []) := by
    rw [(hnat hx).1]
    exact ⟨rfl, (hnat hx).2.trans hsize.le, readInt_numeral hb hb'⟩
  cases sign with
  | false => exact hplain
  | true =>
    rw [putInt, signed, Bool.true_and, if_pos rfl]
    by_cases hneg : 2 ^ (w - 1) ≤ x
    · have hpos : 0 < x := Nat.lt_of_lt_of_le (Nat.two_pow_pos _) hneg
      have hval : (x : Int) - 2 ^ w = -((2 ^ w - x : Nat) : Int) := by
        rw [Nat.cast_sub hx.le]
        push_cast
        omega
      obtain ⟨hput, hlen⟩ := hnat (Nat.sub_lt (Nat.two_pow_pos w) hpos)
      rw [if_pos hneg, if_pos (decide_eq_true hneg), hval, hput]
      refine ⟨?_, ?_, readInt_sign hb hb'⟩
      · rw [Int.natAbs_neg, Int.natAbs_natCast, if_pos (by omega)]
        rfl
      · rw [List.length_cons]
        omega
    · rw [if_neg hneg, if_neg (by simpa using hneg)]
      exact hplain

/-! ## Addresses -/

/-- The lowest `k` digits of a number. -/
theorem ofDigits_div (x : Nat) : ∀ k,
    Nat.ofDigits base ((List.range k).map fun i => x / base ^ i % base) = x % base ^ k
  | 0 => by rw [Nat.pow_zero, Nat.mod_one]; rfl
  | k + 1 => by
    rw [List.range_succ, List.map_append, Nat.ofDigits_append, ofDigits_div x k, List.length_map,
      List.length_range, List.map_singleton, Nat.ofDigits_singleton, Nat.pow_succ, Nat.mod_mul]

theorem putPtr_reads (x : UInt64) : ∃ l, putPtr x = 48 :: 120 :: l ∧ l.length = 16 ∧
    readNat 16 l = x.toNat := by
  refine ⟨_, rfl, by rw [List.length_map, List.length_range], ?_⟩
  have hdigits :
      (((List.range 16).map fun i => digit (x.toNat / 16 ^ (15 - i) % 16)).reverse.map readDigit) =
        (List.range 16).map fun i => x.toNat / 16 ^ i % 16 := by
    have hback : ∀ i, readDigit (digit (x.toNat / 16 ^ i % 16)) = x.toNat / 16 ^ i % 16 := fun i =>
      readDigit_digit (Nat.mod_lt _ (by decide))
    simp only [List.range_succ, List.range_zero, List.nil_append, List.cons_append,
      List.map_cons, List.map_nil, List.reverse_cons, List.reverse_nil, hback]
  rw [readNat, hdigits, ofDigits_div]
  exact Nat.mod_eq_of_lt x.toNat_lt

/-- Every number is printed as its numeral, which fits in the buffer of the function that prints it
and can be read again. An address is printed with all its digits. -/
theorem numbers_printed (x : UInt64) :
    (∃ out, fprint (.int x) specD = some out ∧ Prints 10 (signed 64 x.toNat) 32 out) ∧
    (∃ out, fprint (.int x) specX = some out ∧ Prints 16 x.toNat 32 out) ∧
    Prints 10 (signed 32 (x.toNat % 2 ^ 32)) 16 (vprint (.int x) specD) ∧
    Prints 10 (signed 64 x.toNat) 32 (vprint (.int x) specL) ∧
    Prints 16 (signed 32 (x.toNat % 2 ^ 32)) 16 (vprint (.int x) specX) ∧
    ∃ l, fprint (.ptr x) specP = some (48 :: 120 :: l) ∧
      vprint (.ptr x) specP = 48 :: 120 :: l ∧ l.length = 16 ∧ readNat 16 l = x.toNat := by
  have h64 : x.toNat < 2 ^ 64 := x.toNat_lt
  have h32 : x.toNat % 2 ^ 32 < 2 ^ 32 := Nat.mod_lt _ (by decide)
  obtain ⟨l, hput, hlen, hread⟩ := putPtr_reads x
  refine ⟨⟨_, rfl, ?_⟩, ⟨_, rfl, ?_⟩, ?_, ?_, ?_, l, congrArg some hput, hput, hlen, hread⟩
  · exact putInt_prints 20 true (by decide) (by decide) (by decide) (by decide) (by decide) h64
  · exact putInt_prints 16 false (by decide) (by decide) (by decide) (by decide) (by decide) h64
  · exact putInt_prints 10 true (by decide) (by decide) (by decide) (by decide) (by decide) h32
  · exact putInt_prints 20 true (by decide) (by decide) (by decide) (by decide) (by decide) h64
  · exact putInt_prints 8 true (by decide) (by decide) (by decide) (by decide) (by decide) h32

end CoroCore.Format
