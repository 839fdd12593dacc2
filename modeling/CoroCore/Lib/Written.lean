import CoroCore.Lib.Bytes
import Mathlib.Data.Set.Basic
import Mathlib.Order.Interval.Set.LinearOrder

/-!
# Stores through a translation

`f` translates addresses. `Written f A c d d'` says that the contents `c` were stored at the
addresses in `A`, and that nothing else changed between `d` and `d'`. Stores that follow one another
compose if no two addresses have the same translation (`Written.trans`).
-/

namespace CoroCore.Lib

variable {α β γ : Type*} {f : α → β} {A B : Set α} {c c' : α → γ} {d d' d'' : β → γ}

/-- `c` was stored in `A`. -/
structure Written (f : α → β) (A : Set α) (c : α → γ) (d d' : β → γ) : Prop where
  stored : ∀ a ∈ A, d' (f a) = c a
  other : ∀ x, (∀ a ∈ A, x ≠ f a) → d' x = d x

theorem Written.empty : Written f ∅ c d d := ⟨fun _ => False.elim, fun _ _ => rfl⟩

theorem Written.trans (h : Written f A c d d') (h' : Written f B c d' d'')
    (hinj : ∀ a ∈ A, ∀ b ∈ B, f a = f b → a = b) : Written f (A ∪ B) c d d'' := by
  refine ⟨fun a ha => ?_, fun x hx => ?_⟩
  · by_cases hB : a ∈ B
    · exact h'.stored a hB
    · have hA : a ∈ A := ha.resolve_right hB
      rw [h'.other _ fun b hb heq => hB (hinj a hA b hb heq ▸ hb)]
      exact h.stored a hA
  · rw [h'.other x fun b hb => hx b (.inr hb), h.other x fun a ha => hx a (.inl ha)]

theorem Written.congr (h : Written f A c d d') (hc : ∀ a ∈ A, c a = c' a) : Written f A c' d d' :=
  ⟨fun a ha => (h.stored a ha).trans (hc a ha), h.other⟩

/-- A store of `n` bytes whose addresses are translated to a range. -/
theorem written_memcpy {f : Nat → Nat} {c : Nat → UInt8} {d src : Bytes} {a n : Nat}
    (hf : ∀ k < n, f (a + k) = f a + k) (hsrc : ∀ k < n, src k = c (a + k)) :
    Written f (Set.Ico a (a + n)) c d (memcpy d (f a) src n) := by
  refine ⟨fun b hb => ?_, fun x hx => memcpy_out ?_⟩
  · obtain ⟨k, rfl⟩ := Nat.exists_eq_add_of_le hb.1
    have hk : k < n := Nat.lt_of_add_lt_add_left hb.2
    rw [hf k hk, memcpy_in (Nat.le_add_right _ _) (Nat.add_lt_add_left hk _),
      Nat.add_sub_cancel_left, hsrc k hk]
  · by_contra hin
    have hk : x - f a < n := by omega
    refine hx (a + (x - f a)) ⟨Nat.le_add_right _ _, Nat.add_lt_add_left hk _⟩ ?_
    rw [hf _ hk]
    omega

end CoroCore.Lib
