import Mathlib.Data.List.ReduceOption

/-!
# Runs of a labelled step relation

A system is a step relation `step s l s'` over states and labels. `Run step s ls t`
says that the labels `ls`, in this order, lead from `s` to `t`. The rules here are
the only inductions over runs that the developments on top of them need:

* `Run.invariant`: what every step preserves holds in every state of a run;
* `Run.history`: the same for a property that also reads the labels so far;
* `Guarded`: a run all of whose steps meet a condition on the state before them;
* `Run.simulate`: where every step is matched by a step or by none, so is every run.
-/

namespace CoroCore.Lib

variable {S L : Type*} {step : S → L → S → Prop}

/-- `Run step s ls t`: the steps labelled `ls` lead from `s` to `t`. The last step is
the outermost one, since properties of a history are about its latest event. -/
inductive Run (step : S → L → S → Prop) : S → List L → S → Prop
  | nil (s : S) : Run step s [] s
  | snoc {s t u : S} {ls : List L} {l : L} :
      Run step s ls t → step t l u → Run step s (ls ++ [l]) u

/-- `Guarded step ok`: the steps of `step` whose label is allowed by `ok` in the state
before the step. -/
def Guarded (step : S → L → S → Prop) (ok : S → L → Prop) : S → L → S → Prop :=
  fun s l s' => ok s l ∧ step s l s'

theorem Run.invariant {I : S → Prop} (hstep : ∀ s l s', I s → step s l s' → I s')
    {s t : S} {ls : List L} (h : Run step s ls t) (h0 : I s) : I t := by
  induction h with
  | nil => exact h0
  | snoc _ hs ih => exact hstep _ _ _ ih hs

theorem Run.history {I : List L → S → Prop}
    (hstep : ∀ ls s l s', I ls s → step s l s' → I (ls ++ [l]) s')
    {s t : S} {ls : List L} (h : Run step s ls t) (h0 : I [] s) : I ls t := by
  induction h with
  | nil => exact h0
  | snoc _ hs ih => exact hstep _ _ _ _ ih hs

theorem Run.single {s t : S} {l : L} (h : step s l t) : Run step s [l] t :=
  Run.snoc (Run.nil s) h

theorem Run.append {s t u : S} {ls ms : List L} (h : Run step s ls t) (h' : Run step t ms u) :
    Run step s (ls ++ ms) u := by
  induction h' with
  | nil => simpa using h
  | snoc _ hs ih =>
    rw [← List.append_assoc]
    exact Run.snoc ih hs

theorem Run.unguard {ok : S → L → Prop} {s t : S} {ls : List L} (h : Run (Guarded step ok) s ls t) :
    Run step s ls t := by
  induction h with
  | nil => exact Run.nil _
  | snoc _ hs ih => exact Run.snoc ih hs.2

theorem Run.restrict {ok : S → L → Prop} {s t : S} {ls : List L} (h : Run step s ls t)
    (hok : ∀ s, ∀ l ∈ ls, ok s l) : Run (Guarded step ok) s ls t := by
  induction h with
  | nil => exact Run.nil _
  | snoc _ hs ih =>
    exact Run.snoc (ih fun s l hl => hok s l (List.mem_append_left _ hl))
      ⟨hok _ _ (List.mem_append_right _ (List.mem_singleton_self _)), hs⟩

/-- What a step labelled `l` does to the system that simulates: without a label nothing. -/
def Silently {B M : Type*} (astep : B → M → B → Prop) (b : B) : Option M → B → Prop
  | none, b' => b' = b
  | some m, b' => astep b m b'

theorem Run.simulate {B M : Type*} {step : S → Option M → S → Prop} {astep : B → M → B → Prop}
    {R : B → S → Prop} (hstep : ∀ b s l s', R b s → step s l s' →
      ∃ b', Silently astep b l b' ∧ R b' s')
    {s t : S} {ls : List (Option M)} (h : Run step s ls t) {b : B} (h0 : R b s) :
    ∃ b', Run astep b ls.reduceOption b' ∧ R b' t := by
  induction h with
  | nil => exact ⟨b, Run.nil b, h0⟩
  | @snoc _ _ ls l _ hs ih =>
    obtain ⟨b₁, hrun, hR⟩ := ih
    obtain ⟨b₂, hmove, hR'⟩ := hstep _ _ _ _ hR hs
    refine ⟨b₂, ?_, hR'⟩
    rw [List.reduceOption_append]
    cases l with
    | none =>
      cases hmove
      rw [List.reduceOption_cons_of_none, List.reduceOption_nil, List.append_nil]
      exact hrun
    | some m =>
      rw [List.reduceOption_cons_of_some, List.reduceOption_nil]
      exact Run.snoc hrun hmove

end CoroCore.Lib
