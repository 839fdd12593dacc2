import Mathlib.Data.List.Basic
import Mathlib.Data.List.Nodup

/-!
# Singly linked chains

A chain is threaded through cells of a memory: `next x` is the link stored in cell `x`
and `nil` is the value that ends the chain. `Chain next nil p l` says that the chain
starting at `p` runs through exactly the cells `l` and ends. `OnChain next nil p x` says
only that `x` is met on the way from `p`, and makes sense for chains that never end.
-/

namespace CoroCore.Lib

variable {A : Type*} {next next' : A → A} {nil : A}

/-- The chain from `p` runs through `l` and then ends. -/
def Chain (next : A → A) (nil : A) : A → List A → Prop
  | p, [] => p = nil
  | p, x :: l => p = x ∧ x ≠ nil ∧ Chain next nil (next x) l

/-- The cell `x` is met when the links are followed from `p`. -/
inductive OnChain (next : A → A) (nil : A) : A → A → Prop
  | here {p : A} : p ≠ nil → OnChain next nil p p
  | tail {p x : A} : p ≠ nil → OnChain next nil (next p) x → OnChain next nil p x

@[simp] theorem chain_nil {p : A} : Chain next nil p [] ↔ p = nil := Iff.rfl

@[simp] theorem chain_cons {p x : A} {l : List A} :
    Chain next nil p (x :: l) ↔ p = x ∧ x ≠ nil ∧ Chain next nil (next x) l := Iff.rfl

/-- A chain depends only on the links of its own cells. -/
theorem Chain.congr {p : A} {l : List A} (h : Chain next nil p l)
    (heq : ∀ x ∈ l, next' x = next x) : Chain next' nil p l := by
  induction l generalizing p with
  | nil => exact h
  | cons x l ih =>
    obtain ⟨rfl, hne, ht⟩ := h
    refine ⟨rfl, hne, ?_⟩
    rw [heq p (by simp)]
    exact ih ht fun y hy => heq y (by simp [hy])

theorem Chain.ne_nil {p x : A} {l : List A} (h : Chain next nil p l) (hx : x ∈ l) : x ≠ nil := by
  induction l generalizing p with
  | nil => simp at hx
  | cons y l ih =>
    rcases List.mem_cons.mp hx with rfl | hx
    · exact h.2.1
    · exact ih h.2.2 hx

theorem Chain.onChain_iff {p x : A} {l : List A} (h : Chain next nil p l) :
    OnChain next nil p x ↔ x ∈ l := by
  induction l generalizing p with
  | nil =>
    refine ⟨fun hx => ?_, fun hx => by simp at hx⟩
    cases hx with
    | here hne => exact absurd h hne
    | tail hne _ => exact absurd h hne
  | cons y l ih =>
    obtain ⟨rfl, hne, ht⟩ := h
    constructor
    · intro hx
      cases hx with
      | here _ => simp
      | tail _ hx => exact List.mem_cons_of_mem _ ((ih ht).mp hx)
    · intro hx
      rcases List.mem_cons.mp hx with rfl | hx
      · exact OnChain.here hne
      · exact OnChain.tail hne ((ih ht).mpr hx)

/-- A non-empty start gives the first cell and the chain behind it. -/
theorem Chain.uncons {p : A} {l : List A} (h : Chain next nil p l) (hp : p ≠ nil) :
    ∃ l', l = p :: l' ∧ Chain next nil (next p) l' := by
  cases l with
  | nil => exact absurd h hp
  | cons x l =>
    obtain ⟨rfl, -, ht⟩ := h
    exact ⟨l, rfl, ht⟩

theorem not_onChain_nil {x : A} : ¬ OnChain next nil nil x := by
  intro h
  cases h with
  | here hne => exact hne rfl
  | tail hne _ => exact hne rfl

end CoroCore.Lib
