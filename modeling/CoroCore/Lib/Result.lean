/-!
# Computations that may fail

From a computation in `Except` that succeeds to the steps it is made of.
-/

namespace CoroCore.Lib

variable {ε α β : Type}

/-- From a computation that succeeds: what its first step returned. -/
theorem bind_ok {x : Except ε α} {f : α → Except ε β} {b : β} (h : (x >>= f) = .ok b) :
    ∃ a, x = .ok a ∧ f a = .ok b := by
  cases x with
  | error e => cases h
  | ok a => exact ⟨a, rfl, h⟩

theorem toOption_ok {x : Except ε α} {a : α} (h : x.toOption = some a) : x = .ok a := by
  cases x with
  | error e => cases h
  | ok b => exact congrArg _ (Option.some.inj h)

end CoroCore.Lib
