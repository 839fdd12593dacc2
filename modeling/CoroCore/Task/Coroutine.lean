import CoroCore.Lib.Run
import Mathlib.Logic.Function.Basic

/-!
# Coroutines: `coroutine.h`, `coroutine.cc` and `task_scheduler.h`

A promise knows the coroutine that awaits it, its caller. Control goes down with `co_await`, back
to the caller with `co_yield` and `co_return`, and after a failure to the caller of the promise
at which `coroutine_handle_fail` stops.

A coroutine is active if it runs, or if the scheduler or a wait queue will resume it. Any active
coroutine may make the next step, so that the steps of the call trees on all cores interleave.
Promises are numbered in the order in which they are made.

A task is awaited only while it has not finished: resuming a coroutine that returned is undefined,
and a coroutine that failed is only left to be destroyed.
-/

namespace CoroCore.Task

open Lib

/-- `promise_base::status`. -/
inductive Status
  | init
  | running
  | suspend
  | done
  | fail
  deriving DecidableEq

/-- The task may be awaited. -/
def Status.Awaitable (x : Status) : Prop := x = .init ∨ x = .suspend

/-- `promise_base`. -/
structure Promise where
  caller : Option Nat
  hasErrorHandler : Bool
  status : Status

/-- A promise that never ran. -/
def Promise.new : Promise := ⟨none, false, .init⟩

/-- The promises made so far. `executor e` is the argument of the `__task_executor` that
coroutine `e` is, and nothing if it is another coroutine. -/
structure Tasks where
  promise : Nat → Promise
  count : Nat
  executor : Nat → Option Nat
  active : List Nat

/-- How the loop of `coroutine_handle_fail` ends. -/
inductive Handled
  | panic
  | resume (handler caller : Nat)

namespace Tasks

def set (s : Tasks) (x : Nat) (p : Promise) : Tasks :=
  { s with promise := Function.update s.promise x p }

def setStatus (s : Tasks) (x : Nat) (st : Status) : Tasks :=
  s.set x { s.promise x with status := st }

@[simp] theorem set_self {s : Tasks} {x : Nat} {p : Promise} : (s.set x p).promise x = p :=
  Function.update_self ..

theorem set_of_ne {s : Tasks} {x y : Nat} {p : Promise} (h : y ≠ x) :
    (s.set x p).promise y = s.promise y := Function.update_of_ne h ..

theorem setStatus_of_ne {s : Tasks} {x y : Nat} {st : Status} (h : y ≠ x) :
    (s.setStatus x st).promise y = s.promise y := set_of_ne h

@[simp] theorem setStatus_self {s : Tasks} {x : Nat} {st : Status} :
    (s.setStatus x st).promise x = { s.promise x with status := st } := set_self

/-- A coroutine is called: its promise is made, and it does not run yet. -/
def create (s : Tasks) : Tasks :=
  { s with promise := Function.update s.promise s.count .new, count := s.count + 1 }

/-- Control goes from `x` to `y`. -/
def pass (s : Tasks) (x y : Nat) : Tasks := { s with active := y :: s.active.erase x }

/-- The loop of `coroutine_handle_fail`, cut off after `fuel` rounds. -/
def handleFail (s : Tasks) : Nat → Nat → Option Handled
  | 0, _ => none
  | fuel + 1, curr =>
    match (s.promise curr).caller with
    | none => some .panic
    | some caller =>
      if (s.promise curr).hasErrorHandler then some (.resume curr caller)
      else handleFail s fuel caller

/-- `q` is a task that its owner can still await, or give to the scheduler. -/
structure Held (s : Tasks) (q : Nat) : Prop where
  made : q < s.count
  plain : s.executor q = none
  status : (s.promise q).status.Awaitable
  unscheduled : ∀ e, s.executor e = some q → (s.promise e).status ≠ .init

/-- `task_awaiter::await_suspend`: the task `q` runs for its new caller `r`. -/
def await (r q : Nat) (s : Tasks) : Tasks :=
  (s.set q { s.promise q with caller := some r, status := .running }).pass r q

/-- `task_scheduler::schedule` of a task without a caller: a `__task_executor` is made for it. -/
def schedule (q : Nat) (s : Tasks) : Tasks :=
  { promise := Function.update s.promise s.count .new
    count := s.count + 1
    executor := Function.update s.executor s.count (some q)
    active := s.count :: s.active }

/-- The start of a `__task_executor`, up to its `co_await`. -/
def start (e q : Nat) (s : Tasks) : Tasks :=
  let s := s.setStatus e .running
  await e q (s.set q { s.promise q with hasErrorHandler := true })

/-- Coroutine `r` stops with status `st`, and control goes to its caller, or to the scheduler. -/
def leave (r : Nat) (st : Status) (s : Tasks) : Tasks :=
  match (s.promise r).caller with
  | some c => (s.setStatus r st).pass r c
  | none => { s.setStatus r st with active := s.active.erase r }

/-- Coroutine `r` fails, promise `h` is marked, and its caller `c` is resumed. -/
def failAt (r h c : Nat) (s : Tasks) : Tasks := ((s.setStatus r .fail).setStatus h .fail).pass r c

/-- No coroutine yet. -/
def initial : Tasks := ⟨fun _ => .new, 0, fun _ => none, []⟩

end Tasks

open Tasks

inductive Act
  | create
  | setHandler (q : Nat) (v : Bool)
  | schedule (q : Nat)
  | start (e q : Nat)
  | await (r q : Nat)
  | yield (r c : Nat)
  | ret (r c : Nat)
  | finish (e : Nat)
  | resume (r : Nat)
  | fail (r h c : Nat)
  | awaitFailed (r h c : Nat)

/-- The coroutines that run next because of the step. -/
def Act.resumed : Act → List Nat
  | .create | .setHandler .. | .schedule _ | .finish _ => []
  | .start e q => [e, q]
  | .await _ q => [q]
  | .yield _ c | .ret _ c | .fail _ _ c | .awaitFailed _ _ c => [c]
  | .resume r => [r]

/-- The steps of coroutines. `fail` is a `co_return task_fail`, and `awaitFailed` a `co_await` of a
task that could not be allocated. -/
inductive Step : Tasks → Act → Tasks → Prop
  | create {s : Tasks} : Step s .create s.create
  | setHandler {s : Tasks} {q : Nat} {v : Bool} : s.Held q →
      Step s (.setHandler q v) (s.set q { s.promise q with hasErrorHandler := v })
  | schedule {s : Tasks} {q : Nat} : s.Held q → (s.promise q).caller = none →
      Step s (.schedule q) (s.schedule q)
  | start {s : Tasks} {e q : Nat} : e ∈ s.active → s.executor e = some q →
      (s.promise e).status = .init → Step s (.start e q) (s.start e q)
  | await {s : Tasks} {r q : Nat} : r ∈ s.active → s.executor r = none → s.Held q →
      Step s (.await r q) (s.await r q)
  | yield {s : Tasks} {r c : Nat} : r ∈ s.active → s.executor r = none →
      (s.promise r).caller = some c → Step s (.yield r c) (s.leave r .suspend)
  | ret {s : Tasks} {r c : Nat} : r ∈ s.active → s.executor r = none →
      (s.promise r).caller = some c → Step s (.ret r c) (s.leave r .done)
  | finish {s : Tasks} {e q : Nat} : e ∈ s.active → s.executor e = some q →
      (s.promise e).status ≠ .init → Step s (.finish e) (s.leave e .done)
  | resume {s : Tasks} {r : Nat} : r ∈ s.active → (s.promise r).status ≠ .init →
      Step s (.resume r) (s.setStatus r .running)
  | fail {s : Tasks} {r h c n : Nat} : r ∈ s.active → s.executor r = none →
      handleFail (s.setStatus r .fail) n r = some (.resume h c) →
      Step s (.fail r h c) (s.failAt r h c)
  | awaitFailed {s : Tasks} {r h c n : Nat} : r ∈ s.active → s.executor r = none →
      handleFail (s.setStatus r .fail) n r = some (.resume h c) →
      Step s (.awaitFailed r h c) (s.failAt r h c)

end CoroCore.Task
