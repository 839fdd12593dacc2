import Mathlib.Algebra.Order.Group.Nat
import Mathlib.Tactic.Ring

/-!
# Byte memory

A piece of memory is a function from offsets to bytes. `memcpy` and `memset` change a range
of it, and `getLe`/`setLe` read and write numbers in little-endian order:

* `getLe_setLe`: what was stored is read back;
* `getLe_congr`: a number depends on its own bytes only.
-/

namespace CoroCore.Lib

abbrev Bytes := Nat → UInt8

/-- `memcpy(dst + off, src, n)`. -/
def memcpy (dst : Bytes) (off : Nat) (src : Bytes) (n : Nat) : Bytes :=
  fun o => if off ≤ o ∧ o < off + n then src (o - off) else dst o

/-- `memset(dst + off, v, n)`. -/
def memset (dst : Bytes) (off : Nat) (v : UInt8) (n : Nat) : Bytes :=
  fun o => if off ≤ o ∧ o < off + n then v else dst o

/-- The number in the `n` bytes from `off` on. -/
def getLe (b : Bytes) (off : Nat) : Nat → Nat
  | 0 => 0
  | n + 1 => (b off).toNat + 256 * getLe b (off + 1) n

/-- Store `w` in the `n` bytes from `off` on. -/
def setLe (b : Bytes) (off n w : Nat) : Bytes :=
  memcpy b off (fun k => UInt8.ofNat (w / 256 ^ k)) n

theorem memcpy_in {dst src : Bytes} {off n o : Nat} (h : off ≤ o) (h' : o < off + n) :
    memcpy dst off src n o = src (o - off) := if_pos ⟨h, h'⟩

theorem memcpy_out {dst src : Bytes} {off n o : Nat} (h : o < off ∨ off + n ≤ o) :
    memcpy dst off src n o = dst o := by
  refine if_neg fun ⟨h1, h2⟩ => ?_
  rcases h with h | h
  · exact absurd h1 (Nat.not_le.mpr h)
  · exact absurd h2 (Nat.not_lt.mpr h)

@[simp] theorem memcpy_zero {dst src : Bytes} {off : Nat} : memcpy dst off src 0 = dst := by
  funext o
  refine memcpy_out ?_
  rcases Nat.lt_or_ge o off with h | h
  · exact .inl h
  · exact .inr h

theorem memcpy_congr {dst src src' : Bytes} {off n : Nat} (h : ∀ k < n, src k = src' k) :
    memcpy dst off src n = memcpy dst off src' n := by
  funext o
  unfold memcpy
  split
  · exact h _ (by omega)
  · rfl

theorem getLe_congr {b b' : Bytes} : ∀ {n off : Nat}, (∀ k < n, b (off + k) = b' (off + k)) →
    getLe b off n = getLe b' off n := by
  intro n
  induction n with
  | zero => exact fun _ => rfl
  | succ n ih =>
    intro off h
    have hhead : b off = b' off := h 0 (Nat.succ_pos n)
    have htail : getLe b (off + 1) n = getLe b' (off + 1) n := by
      refine ih fun k hk => ?_
      have := h (k + 1) (Nat.succ_lt_succ hk)
      rwa [Nat.add_right_comm]
    rw [getLe, getLe, hhead, htail]

theorem getLe_of_bytes {b : Bytes} : ∀ {n off w : Nat},
    (∀ k < n, b (off + k) = UInt8.ofNat (w / 256 ^ k)) → getLe b off n = w % 256 ^ n := by
  intro n
  induction n with
  | zero =>
    intro off w _
    rw [getLe, pow_zero, Nat.mod_one]
  | succ n ih =>
    intro off w h
    have hhead : (b off).toNat = w % 256 := by
      rw [show b off = UInt8.ofNat (w / 256 ^ 0) from h 0 (Nat.succ_pos n), UInt8.toNat_ofNat']
      simp
    have htail : getLe b (off + 1) n = w / 256 % 256 ^ n := by
      refine ih fun k hk => ?_
      rw [Nat.add_assoc, Nat.add_comm 1 k, h (k + 1) (Nat.succ_lt_succ hk), Nat.div_div_eq_div_mul,
        pow_succ']
    rw [getLe, hhead, htail, pow_succ', Nat.mod_mul]

theorem getLe_setLe {b : Bytes} {off n w : Nat} (hw : w < 256 ^ n) :
    getLe (setLe b off n w) off n = w := by
  rw [getLe_of_bytes (w := w) fun k hk => ?_, Nat.mod_eq_of_lt hw]
  rw [setLe, memcpy_in (Nat.le_add_right off k) (Nat.add_lt_add_left hk off),
    Nat.add_sub_cancel_left]

/-- A number stored elsewhere is not changed. -/
theorem getLe_setLe_of_disjoint {b : Bytes} {off n w off' n' : Nat}
    (h : off' + n' ≤ off ∨ off + n ≤ off') : getLe (setLe b off n w) off' n' = getLe b off' n' := by
  refine getLe_congr fun k hk => memcpy_out ?_
  omega

theorem getLe_lt {b : Bytes} : ∀ (n off : Nat), getLe b off n < 256 ^ n := by
  intro n
  induction n with
  | zero => exact fun _ => Nat.one_pos
  | succ n ih =>
    intro off
    have hb : (b off).toNat < 256 := (b off).toNat_lt
    have hr := ih (off + 1)
    rw [getLe, pow_succ']
    omega

end CoroCore.Lib
