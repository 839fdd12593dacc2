import CoroCore.Lib.Run
import Mathlib.Logic.Function.Basic
import Mathlib.Data.List.Nodup
import Mathlib.Algebra.Group.Nat.Defs

/-!
# Processes and the scheduler: `process.h`, `process.cc` and `scheduler.cc`

Any number of cores run `process_scheduler::run` on one shared `process_queue`. `pop` and `push`
are one step each, and so is every section under the lock of a process. A slice is split where
other cores can come in between: the choice of a process, the first section of `run`, the switch
into the process, what the process does, the switch back, and the last section of `run`.

`pop` reads and writes the states without the locks of the processes. Here no state changes
meanwhile; `CoroCore.Proc.Poll` splits `pop` into its accesses.

`sleep`, `wake_up` and `kill` may come from any core at any time.

No code adds a child to a process, so `__clean_children` has nothing to do.
-/

namespace CoroCore.Proc

open Lib

/-- `process::state`. -/
inductive State
  | init
  | allocated
  | sleeping
  | wakenUp
  | runnable
  | running
  | killed
  | zombie
  | exited
  deriving DecidableEq

inductive Kind
  | user
  | kernel
  deriving DecidableEq

/-- What no step changes: the class of a process, whether it has a parent, its `binding_core`
(nothing for `-1`), and the `last_choice` of every core. -/
structure Config where
  kind : Nat → Kind
  hasParent : Nat → Bool
  bindingCore : Nat → Option Nat
  lastChoice : Nat → Option Nat

/-- The fields of a process. `mapped` are the pages that `__free_pagetable` gives back: those of
`mmap_infos` that are not shared, and the page table. -/
structure Process where
  state : State
  /-- The core that switched away inside `check_killed`, with the lock held. -/
  lock : Option Nat
  /-- Between the switch into the process and the switch back. -/
  executing : Bool
  mapped : List Nat
  /-- `stack_bottom_va` of a kernel process. -/
  stackBottom : Nat

def pageSize : Nat := 4096

/-- The addresses that `__clean_resources` passes to `free_page`. -/
def Process.freed (x : Process) : Kind → List Nat
  | .user => x.mapped
  | .kernel => [(x.stackBottom + 2 ^ 64 - pageSize) % 2 ^ 64]

/-- `__clean_resources`. -/
def Process.cleanResources (x : Process) : Kind → Process
  | .user => { x with mapped := [] }
  | .kernel => { x with stackBottom := 0 }

/-- Why a core stopped. -/
inductive Panic
  | notRunnable
  | invalidState
  | relock
  deriving DecidableEq

/-- Where a core is in the loop of `process_scheduler::run`. -/
inductive Phase
  | looking
  | stopped
  /-- `pop` returned the process, or it is the `last_choice`. -/
  | chosen (p : Nat)
  /-- The state is `RUNNING`, before the switch. -/
  | entered (p : Nat)
  | executing (p : Nat)
  /-- In `exit`, between `__clean_resources` and `__set_exit_code`. -/
  | exiting (p : Nat)
  /-- The process will switch back without doing anything else. -/
  | leaving (p : Nat)
  | switched (p : Nat)
  /-- `run` returned true. -/
  | pushing (p : Nat)
  | panicked (p : Nat) (why : Panic)
  deriving DecidableEq

/-- The process that a core holds. -/
def Phase.process : Phase → Option Nat
  | .looking | .stopped => none
  | .chosen p | .entered p | .executing p | .exiting p | .leaving p | .switched p | .pushing p
  | .panicked p _ => some p

/-- An execution of `__clean_resources`: whether it was by `exit` or `check_killed` of the process
itself, whether the process was executing, and for every address that went to `free_page` whether
it was a live page. -/
structure Clean where
  process : Nat
  own : Bool
  executing : Bool
  freed : List (Nat × Bool)
  deriving DecidableEq

/-- The processes, the queue, the cores and the pages that `kernel_allocator` has given out.
`pushed`, `result` and `log` are history: who was put on the queue from outside, what `run`
returned last, and the cleanings so far. -/
structure Sys where
  proc : Nat → Process
  queue : List Nat
  core : Nat → Phase
  live : Nat → Bool
  pushed : List Nat
  result : Nat → Option Bool
  log : List Clean

/-- `free_page` on one address after the other. -/
def freePages : List Nat → (Nat → Bool) → List (Nat × Bool) × (Nat → Bool)
  | [], live => ([], live)
  | a :: l, live =>
    let r := freePages l (Function.update live a false)
    ((a, live a) :: r.1, r.2)

namespace Sys

def setProc (s : Sys) (p : Nat) (x : Process) : Sys := { s with proc := Function.update s.proc p x }

def setState (s : Sys) (p : Nat) (st : State) : Sys := s.setProc p { s.proc p with state := st }

def setExecuting (s : Sys) (p : Nat) (b : Bool) : Sys :=
  s.setProc p { s.proc p with executing := b }

def setCore (s : Sys) (c : Nat) (ph : Phase) : Sys := { s with core := Function.update s.core c ph }

/-- `run` of `p` returns on core `c`. -/
def returns (s : Sys) (c p : Nat) (b : Bool) : Sys :=
  { s.setCore c (if b then .pushing p else .looking) with
    result := Function.update s.result p (some b) }

variable (k : Config)

/-- `__clean_resources`. -/
def clean (own : Bool) (p : Nat) (s : Sys) : Sys :=
  let r := freePages ((s.proc p).freed (k.kind p)) s.live
  { s.setProc p ((s.proc p).cleanResources (k.kind p)) with
    live := r.2
    log := s.log ++ [⟨p, own, (s.proc p).executing, r.1⟩] }

/-- The state that `__set_exit_code` sets. -/
def exitState (p : Nat) : State := if k.hasParent p then .zombie else .exited

/-- `__set_exit_code`. -/
def setExitCode (p : Nat) (s : Sys) : Sys := s.setState p (exitState k p)

/-- `__do_kill`. -/
def doKill (own : Bool) (p : Nat) (s : Sys) : Sys := (s.clean k own p).setExitCode k p

/-- `kill`. -/
def kill (p : Nat) (s : Sys) : Sys :=
  if (s.proc p).state ≠ .running then s.doKill k false p else s.setState p .killed

/-- `sleep`. -/
def sleep (p : Nat) (s : Sys) : Sys :=
  if (s.proc p).state ≠ .running then s else s.setState p .sleeping

/-- `wake_up`. -/
def wakeUp (p : Nat) (s : Sys) : Sys :=
  if (s.proc p).state = .sleeping then s.setState p .wakenUp else s

/-- The first section of `user_process::run`. -/
def userRunBegin (c p : Nat) (s : Sys) : Sys :=
  match (s.proc p).state with
  | .exited | .zombie => s.returns c p false
  | .runnable => (s.setState p .running).setCore c (.entered p)
  | _ => s.setCore c (.panicked p .notRunnable)

/-- The last section of `user_process::run`. -/
def userRunEnd (c p : Nat) (s : Sys) : Sys :=
  match (s.proc p).state with
  | .killed => (s.doKill k false p).returns c p false
  | .running => (s.setState p .runnable).returns c p true
  | .exited | .zombie => s.returns c p false
  | .sleeping | .runnable | .wakenUp => s.returns c p true
  | _ => s.setCore c (.panicked p .invalidState)

/-- The first section of `kernel_process::run`. -/
def kernelRunBegin (c p : Nat) (s : Sys) : Sys :=
  match (s.proc p).state with
  | .exited => s.returns c p false
  | .runnable => (s.setState p .running).setCore c (.entered p)
  | _ => s.setCore c (.panicked p .notRunnable)

/-- The last section of `kernel_process::run`. -/
def kernelRunEnd (c p : Nat) (s : Sys) : Sys :=
  match (s.proc p).state with
  | .running => (s.setState p .runnable).returns c p true
  | .exited => (s.clean k false p).returns c p false
  | .sleeping | .runnable | .wakenUp => s.returns c p true
  | _ => s.setCore c (.panicked p .invalidState)

def runBegin (c p : Nat) (s : Sys) : Sys :=
  match k.kind p with
  | .user => s.userRunBegin c p
  | .kernel => s.kernelRunBegin c p

def runEnd (c p : Nat) (s : Sys) : Sys :=
  match k.kind p with
  | .user => s.userRunEnd k c p
  | .kernel => s.kernelRunEnd k c p

/-- The process may run on core `c`. -/
def bound (c p : Nat) : Bool := k.bindingCore p = none || k.bindingCore p = some c

/-- `waken_up` and `set_runnable`. -/
def setRunnable (proc : Nat → Process) (p : Nat) : Nat → Process :=
  if (proc p).state = .wakenUp then Function.update proc p { proc p with state := .runnable }
  else proc

/-- The loop of `process_queue::pop`: `seen` are the entries that it went over. -/
def scan (c : Nat) (proc : Nat → Process) (seen : List Nat) :
    List Nat → (Nat → Process) × Option (Nat × List Nat)
  | [] => (proc, none)
  | p :: rest =>
    let proc := setRunnable proc p
    if (proc p).state ≠ .runnable then scan c proc (seen ++ [p]) rest
    else if !bound k c p then scan c proc (seen ++ [p]) rest
    else if (proc p).state = .sleeping then scan c proc (seen ++ [p]) rest
    else (proc, some (p, seen ++ rest))

/-- `process_queue::pop` by core `c` with nothing in between, and the choice of `last_choice` if it
returns nothing. -/
def pop (c : Nat) (s : Sys) : Sys :=
  let r := scan k c s.proc [] s.queue
  match r.2 with
  | some (p, rest) => { s with proc := r.1, queue := rest }.setCore c (.chosen p)
  | none =>
    match k.lastChoice c with
    | some p => { s with proc := r.1 }.setCore c (.chosen p)
    | none => { s with proc := r.1 }.setCore c .stopped

/-- What `pop` returns to core `c`. -/
def popped (c : Nat) (s : Sys) : Option Nat := (scan k c s.proc [] s.queue).2.map Prod.fst

/-- The end of a round of `process_scheduler::run` with `reschedule` set. -/
def push (c p : Nat) (s : Sys) : Sys :=
  if k.lastChoice c = some p then s.setCore c .looking
  else { s with queue := s.queue ++ [p] }.setCore c .looking

/-- The pages that a process has. -/
def owned (s : Sys) (p : Nat) : List Nat :=
  match k.kind p with
  | .user => (s.proc p).mapped
  | .kernel => if (s.proc p).stackBottom = 0 then [] else [(s.proc p).stackBottom - pageSize]

end Sys

open Sys

inductive Act
  | pop (c : Nat) (p : Option Nat)
  | runBegin (c : Nat)
  | switchTo (c : Nat)
  | exitClean (c : Nat)
  | exitCode (c : Nat)
  | checkKilled (c : Nat)
  | funcReturn (c : Nat)
  | switchBack (c : Nat)
  | runEnd (c : Nat)
  | relock (c : Nat)
  | push (c : Nat)
  | sleep (p : Nat)
  | wakeUp (p : Nat)
  | kill (p : Nat)
  | spawn (p : Nat)
  | pages

/-- The steps of all cores. `exitClean` and `exitCode` are the two parts of `process::exit`, and
`funcReturn` is the end of the function of a kernel process. A section under the lock waits for
it, and the core that left it held panics. `spawn` puts a new process on the queue, and `pages`
are the other users of `kernel_allocator`. -/
inductive Step (k : Config) : Sys → Act → Sys → Prop
  | pop {s : Sys} {c : Nat} : s.core c = .looking → Step k s (.pop c (s.popped k c)) (s.pop k c)
  | runBegin {s : Sys} {c p : Nat} : s.core c = .chosen p → (s.proc p).lock = none →
      Step k s (.runBegin c) (s.runBegin k c p)
  | switchTo {s : Sys} {c p : Nat} : s.core c = .entered p →
      Step k s (.switchTo c) ((s.setExecuting p true).setCore c (.executing p))
  | exitClean {s : Sys} {c p : Nat} : s.core c = .executing p → k.kind p = .user →
      Step k s (.exitClean c) ((s.clean k true p).setCore c (.exiting p))
  | exitCode {s : Sys} {c p : Nat} : s.core c = .exiting p → (s.proc p).lock = none →
      Step k s (.exitCode c) ((s.setExitCode k p).setCore c (.leaving p))
  | checkKilled {s : Sys} {c p : Nat} : s.core c = .executing p → k.kind p = .user →
      (s.proc p).lock = none → (s.proc p).state = .killed →
      Step k s (.checkKilled c) (((s.doKill k true p).setProc p
        { (s.doKill k true p).proc p with lock := some c }).setCore c (.leaving p))
  | funcReturn {s : Sys} {c p : Nat} : s.core c = .executing p → k.kind p = .kernel →
      Step k s (.funcReturn c) ((s.setExitCode k p).setCore c (.leaving p))
  | switchBack {s : Sys} {c p : Nat} : s.core c = .executing p ∨ s.core c = .leaving p →
      Step k s (.switchBack c) ((s.setExecuting p false).setCore c (.switched p))
  | runEnd {s : Sys} {c p : Nat} : s.core c = .switched p → (s.proc p).lock = none →
      Step k s (.runEnd c) (s.runEnd k c p)
  | relock {s : Sys} {c p : Nat} : s.core c = .switched p → (s.proc p).lock = some c →
      Step k s (.relock c) (s.setCore c (.panicked p .relock))
  | push {s : Sys} {c p : Nat} : s.core c = .pushing p → Step k s (.push c) (s.push k c p)
  | sleep {s : Sys} {p : Nat} : (s.proc p).lock = none → Step k s (.sleep p) (s.sleep p)
  | wakeUp {s : Sys} {p : Nat} : (s.proc p).lock = none → Step k s (.wakeUp p) (s.wakeUp p)
  | kill {s : Sys} {p : Nat} : (s.proc p).lock = none → Step k s (.kill p) (s.kill k p)
  | spawn {s : Sys} {p : Nat} : p ∉ s.pushed → (∀ c, k.lastChoice c ≠ some p) →
      Step k s (.spawn p) { s with queue := s.queue ++ [p], pushed := p :: s.pushed }
  | pages {s : Sys} {live : Nat → Bool} : (∀ p, ∀ a ∈ s.owned k p, live a = true) →
      Step k s .pages { s with live := live }

/-- How the constructors leave a process, and whoever loads a program. A user process whose
construction failed has given its pages back, and a kernel process then has no stack. -/
structure Fresh (k : Config) (s : Sys) (p : Nat) : Prop where
  state : (s.proc p).state = .init ∨ (s.proc p).state = .allocated ∨ (s.proc p).state = .wakenUp
  lock : (s.proc p).lock = none
  executing : (s.proc p).executing = false
  nodup : (s.owned k p).Nodup
  live : ∀ a ∈ s.owned k p, s.live a = true
  stack : k.kind p = .kernel → (s.proc p).state = .wakenUp ∧ pageSize ≤ (s.proc p).stackBottom ∧
    (s.proc p).stackBottom < 2 ^ 64 ∨ (s.proc p).state = .init ∧ (s.proc p).stackBottom = 0

/-- The start: all processes are new, and those on the queue were pushed once. The idle processes
are never pushed. -/
structure Start (k : Config) (s : Sys) : Prop where
  fresh : ∀ p, Fresh k s p
  disjoint : ∀ p q, p ≠ q → (s.owned k p).Disjoint (s.owned k q)
  core : ∀ c, s.core c = .looking
  queue : s.queue.Nodup
  pushed : ∀ p, p ∈ s.pushed ↔ p ∈ s.queue
  result : ∀ p, s.result p = none
  log : s.log = []
  idle : ∀ c p, k.lastChoice c = some p → p ∉ s.queue
  one : ∀ c c' p, k.lastChoice c = some p → k.lastChoice c' = some p → c = c'

end CoroCore.Proc
