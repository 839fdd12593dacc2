import Mathlib.Data.Set.Basic

/-!
# Resources with one owner each

`H o x` says that `o` owns `x`. `Owned F H` says that the resources in `F`, and no others, have an
owner, and that they have only one. To give a set of them to a new owner keeps this
(`Owned.give`).
-/

namespace CoroCore.Lib

variable {α ω : Type*} {F A : Set α} {H H' : ω → α → Prop} {x : α} {o : ω}

/-- Everything in `F` has one owner. -/
structure Owned (F : Set α) (H : ω → α → Prop) : Prop where
  total : ∀ x, x ∈ F ↔ ∃ o, H o x
  unique : ∀ x o o', H o x → H o' x → o = o'

/-- What is in `A` goes to `o`. -/
def give (H : ω → α → Prop) (A : Set α) (o : ω) (o' : ω) (x : α) : Prop :=
  H o' x ∧ x ∉ A ∨ o' = o ∧ x ∈ A

theorem Owned.congr (h : Owned F H) (hH : ∀ o x, H' o x ↔ H o x) : Owned F H' := by
  refine ⟨fun x => (h.total x).trans (exists_congr fun o => (hH o x).symm), fun x o o' ho ho' => ?_⟩
  exact h.unique x o o' ((hH o x).mp ho) ((hH o' x).mp ho')

theorem Owned.give (h : Owned F H) (hA : A ⊆ F) (o : ω) : Owned F (give H A o) := by
  refine ⟨fun x => ⟨fun hx => ?_, ?_⟩, fun x o1 o2 h1 h2 => ?_⟩
  · by_cases hxA : x ∈ A
    · exact ⟨o, .inr ⟨rfl, hxA⟩⟩
    · obtain ⟨o', ho'⟩ := (h.total x).mp hx
      exact ⟨o', .inl ⟨ho', hxA⟩⟩
  · rintro ⟨o', ⟨ho', -⟩ | ⟨-, hxA⟩⟩
    · exact (h.total x).mpr ⟨o', ho'⟩
    · exact hA hxA
  · rcases h1 with ⟨h1, hx⟩ | ⟨rfl, hx⟩
    · rcases h2 with ⟨h2, -⟩ | ⟨-, hx'⟩
      · exact h.unique x o1 o2 h1 h2
      · exact absurd hx' hx
    · rcases h2 with ⟨-, hx'⟩ | ⟨rfl, -⟩
      · exact absurd hx hx'
      · rfl

theorem Owned.mem (h : Owned F H) (o : ω) (hx : H o x) : x ∈ F := (h.total x).mpr ⟨o, hx⟩

/-- What one has, nobody else has. -/
theorem Owned.not_owner (h : Owned F H) (o o' : ω) (hx : H o x) (hne : o ≠ o') : ¬ H o' x :=
  fun hx' => hne (h.unique x o o' hx hx')

/-- The new owner has more. -/
theorem give_self : H o x ∨ x ∈ A ↔ give H A o o x := by
  by_cases hx : x ∈ A <;> simp [give, hx]

/-- Another owner loses what is in `A`. -/
theorem give_from {o' : ω} (hne : o' ≠ o) : H o' x ∧ x ∉ A ↔ give H A o o' x := by
  constructor
  · exact .inl
  · rintro (hx | ⟨heq, -⟩)
    · exact hx
    · exact absurd heq hne

/-- An owner who has nothing of `A` keeps what he has. -/
theorem give_other {o' : ω} (hne : o' ≠ o) (hA : H o' x → x ∉ A) : H o' x ↔ give H A o o' x :=
  (iff_self_and.mpr hA).trans (give_from hne)

end CoroCore.Lib
