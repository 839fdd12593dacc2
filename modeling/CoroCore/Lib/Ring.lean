import Mathlib.Data.Int.ModEq
import Mathlib.Data.List.Basic
import Mathlib.Logic.Function.Basic

/-!
# A ring between a producer and a consumer

The two sides share `n` slots. Each keeps a counter that runs on modulo `m` and is not reduced
to a slot number before it is used, so that a full ring and an empty one look different.
`RingLog` ties such a ring to the list of everything that was ever put into it:

* `RingLog.push`: the producer appends while there is room;
* `RingLog.pop`: the consumer reads the entries in order, each of them once;
* `RingLog.pending_iff`: the counters differ exactly when an entry is waiting, also after they
  have wrapped.
-/

namespace CoroCore.Lib

variable {α : Type*} {n m : Nat} {ring : Nat → α} {head tail lo : Nat} {log : List α} {x : α}

/-- The slots of the ring hold the entries of `log` from number `lo` on. -/
structure RingLog (n m : Nat) (ring : Nat → α) (head tail : Nat) (log : List α) (lo : Nat) :
    Prop where
  head_eq : head = lo % m
  tail_eq : tail = log.length % m
  le : lo ≤ log.length
  room : log.length ≤ lo + n
  holds : ∀ t y, lo ≤ t → log[t]? = some y → ring (t % n) = y

theorem RingLog.empty (ring : Nat → α) : RingLog n m ring 0 0 [] 0 where
  head_eq := (Nat.zero_mod m).symm
  tail_eq := (Nat.zero_mod m).symm
  le := Nat.le_refl 0
  room := Nat.zero_le _
  holds _ _ _ h := by simp at h

/-- Two entries that are waiting at once are in different slots. -/
theorem slot_ne {t u : Nat} (hlo : u - t < n) (hlt : t < u) : t % n ≠ u % n := by
  intro h
  have hdvd : n ∣ u - t := (Nat.modEq_iff_dvd' hlt.le).mp h
  exact absurd (Nat.le_of_dvd (Nat.sub_pos_of_lt hlt) hdvd) (Nat.not_le.mpr hlo)

theorem RingLog.pending_iff (h : RingLog n m ring head tail log lo) (hnm : n < m) :
    head ≠ tail ↔ lo < log.length := by
  rw [h.head_eq, h.tail_eq]
  constructor
  · intro hne
    exact lt_of_le_of_ne h.le fun heq => hne (heq ▸ rfl)
  · intro hlt
    refine slot_ne ?_ hlt
    have := h.room
    omega

theorem RingLog.push (h : RingLog n m ring head tail log lo) (hdvd : n ∣ m)
    (hroom : log.length < lo + n) :
    RingLog n m (Function.update ring (tail % n) x) head ((tail + 1) % m) (log ++ [x]) lo where
  head_eq := h.head_eq
  tail_eq := by rw [h.tail_eq, Nat.mod_add_mod, List.length_append, List.length_singleton]
  le := by
    rw [List.length_append]
    exact h.le.trans (Nat.le_add_right _ _)
  room := by
    rw [List.length_append]
    exact hroom
  holds t y hlo ht := by
    rw [h.tail_eq, Nat.mod_mod_of_dvd _ hdvd]
    rcases Nat.lt_trichotomy t log.length with hlt | heq | hgt
    · have hne : t % n ≠ log.length % n := slot_ne (by omega) hlt
      rw [Function.update_of_ne hne]
      rw [List.getElem?_append_left hlt] at ht
      exact h.holds t y hlo ht
    · subst heq
      rw [Function.update_self]
      simpa using ht
    · have hlen : (log ++ [x]).length ≤ t := by
        rw [List.length_append]
        exact hgt
      rw [List.getElem?_eq_none hlen] at ht
      cases ht

theorem RingLog.pop (h : RingLog n m ring head tail log lo) (hdvd : n ∣ m)
    (hlt : lo < log.length) :
    log[lo]? = some (ring (head % n)) ∧
      RingLog n m ring ((head + 1) % m) tail log (lo + 1) := by
  have hread : log[lo]? = some (ring (head % n)) := by
    rw [h.head_eq, Nat.mod_mod_of_dvd _ hdvd]
    have hget := List.getElem?_eq_getElem hlt
    rw [h.holds lo _ (Nat.le_refl lo) hget]
    exact hget
  refine ⟨hread, ⟨?_, h.tail_eq, hlt, ?_, fun t y hlo => h.holds t y (Nat.le_of_succ_le hlo)⟩⟩
  · rw [h.head_eq, Nat.mod_add_mod]
  · exact h.room.trans (by omega)

end CoroCore.Lib
