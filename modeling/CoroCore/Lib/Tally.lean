import Mathlib.Data.Nat.Count
import Mathlib.Logic.Function.Basic

/-!
# Counting the cells of a memory

`tally n P f` is the number of cells below `n` whose contents satisfy `P`.

* `tally_update`, `tally_swap`: what a store to one cell, or a swap of two, does to the number;
* `tally_pos`: it is positive if there is such a cell.
-/

namespace CoroCore.Lib

variable {α : Type*} {n x : Nat} {P : α → Bool} {f g : Nat → α} {v : α}

/-- The number of cells below `n` that satisfy `P`. -/
def tally (n : Nat) (P : α → Bool) (f : Nat → α) : Nat := Nat.count (fun x => P (f x) = true) n

theorem tally_succ : tally (n + 1) P f = tally n P f + (P (f n)).toNat := by
  rw [tally, Nat.count_succ]
  cases P (f n) <;> rfl

theorem tally_congr (h : ∀ x, x < n → P (f x) = P (g x)) : tally n P f = tally n P g := by
  induction n with
  | zero => rfl
  | succ n ih => rw [tally_succ, tally_succ, ih fun x hx => h x (by omega), h n (by omega)]

/-- Cells from `n` on that do not satisfy `P` do not count. -/
theorem tally_add {m : Nat} (h : ∀ x, n ≤ x → P (f x) = false) :
    tally (n + m) P f = tally n P f := by
  induction m with
  | zero => rfl
  | succ m ih =>
    rw [← Nat.add_assoc, tally_succ, ih, h _ (by omega)]
    rfl

theorem tally_update_of_ge (h : n ≤ x) : tally n P (Function.update f x v) = tally n P f :=
  tally_congr fun y hy => by rw [Function.update_of_ne (by omega)]

theorem tally_update (h : x < n) :
    tally n P (Function.update f x v) + (P (f x)).toNat = tally n P f + (P v).toNat := by
  induction n with
  | zero => omega
  | succ n ih =>
    rw [tally_succ, tally_succ]
    rcases Nat.lt_or_eq_of_le (Nat.le_of_lt_succ h) with hlt | rfl
    · have := ih hlt
      rw [Function.update_of_ne (by omega)]
      omega
    · rw [tally_update_of_ge le_rfl, Function.update_self]
      omega

/-- Two cells change places. -/
theorem tally_swap {y : Nat} (hx : x < n) (hy : y < n) :
    tally n P (Function.update (Function.update f x (f y)) y (f x)) = tally n P f := by
  have h1 := tally_update (P := P) (f := f) (v := f y) hx
  have h2 := tally_update (P := P) (f := Function.update f x (f y)) (v := f x) hy
  by_cases he : y = x
  · subst he
    rw [Function.update_eq_self, Function.update_eq_self]
  · rw [Function.update_of_ne he] at h2
    omega

theorem tally_eq_zero : tally n P f = 0 ↔ ∀ x, x < n → P (f x) = false := by
  rw [tally, Nat.count_iff_forall_not]
  simp

theorem tally_pos : 0 < tally n P f ↔ ∃ x, x < n ∧ P (f x) = true := by
  rw [Nat.pos_iff_ne_zero, ne_eq, tally_eq_zero]
  simp

end CoroCore.Lib
