import Mathlib.Data.List.Basic

/-!
# Names: `utils/quick_string.h` and the string functions of `mm/utils.cc`

A `char*` is the list of the characters before its terminator; reading at or past the
end gives the NUL that `strndup` stores there. `char` is unsigned on this target.
A `quick_string_ref` carries `data` (its `size` characters) and the hash computed from
them, and `to_string` copies all three, so one type stands for both classes.
-/

namespace CoroCore

/-- The characters of a name, without the terminator. -/
abbrev CStr := List UInt8

/-- `strncmp` of `mm/utils.cc`. -/
def strncmp : CStr → CStr → Nat → Int
  | _, _, 0 => 0
  | p, q, n + 1 =>
    if p.headD 0 ≠ 0 ∧ p.headD 0 = q.headD 0 then strncmp p.tail q.tail n
    else ((p.headD 0).toNat : Int) - (q.headD 0).toNat

/-- The loop of `quick_string::__hash`, in 32-bit arithmetic. -/
def hashLoop (hash : UInt32) : CStr → UInt32
  | [] => hash
  | c :: name => hashLoop (hash * 131 + c.toUInt32) name

/-- `quick_string::__hash`. -/
def quickHash (name : CStr) : Nat := (hashLoop 0 name >>> 1).toNat

/-- `SameUpTo n p q`: the two strings agree on their first `n` characters, or up to a
terminator that both have at the same place before that. -/
def SameUpTo : Nat → CStr → CStr → Prop
  | 0, _, _ => True
  | n + 1, p, q => p.headD 0 = q.headD 0 ∧ (p.headD 0 ≠ 0 → SameUpTo n p.tail q.tail)

theorem strncmp_eq_zero (n : Nat) (p q : CStr) : strncmp p q n = 0 ↔ SameUpTo n p q := by
  induction n generalizing p q with
  | zero => simp [strncmp, SameUpTo]
  | succ n ih =>
    rw [strncmp, SameUpTo]
    split
    · next h =>
      rw [ih]
      exact ⟨fun hs => ⟨h.2, fun _ => hs⟩, fun hs => hs.2 h.1⟩
    · next h =>
      constructor
      · intro hsub
        have heq : p.headD 0 = q.headD 0 := UInt8.toNat_inj.mp (by omega)
        exact ⟨heq, fun hne => absurd ⟨hne, heq⟩ h⟩
      · rintro ⟨heq, -⟩
        rw [heq]; omega

theorem sameUpTo_self (n : Nat) (p : CStr) : SameUpTo n p p := by
  induction n generalizing p with
  | zero => trivial
  | succ n ih => exact ⟨rfl, fun _ => ih _⟩

/-- A bounded comparison over the length of a NUL-free name is a prefix test. -/
theorem sameUpTo_length_iff {p q : CStr} (hq : 0 ∉ q) : SameUpTo q.length p q ↔ q <+: p := by
  induction q generalizing p with
  | nil => simp [SameUpTo]
  | cons c q ih =>
    simp only [List.mem_cons, not_or] at hq
    have hc : c ≠ 0 := fun h => hq.1 h.symm
    cases p with
    | nil => simp [SameUpTo, hc.symm]
    | cons d p =>
      simp only [List.length_cons, SameUpTo, List.headD_cons, List.tail_cons,
        List.cons_prefix_cons]
      constructor
      · rintro ⟨rfl, h⟩
        exact ⟨rfl, (ih hq.2).mp (h hc)⟩
      · rintro ⟨rfl, h⟩
        exact ⟨rfl, fun _ => (ih hq.2).mpr h⟩

end CoroCore
