import CoroCore.Lib.Run
import Mathlib.Algebra.Group.Nat.Defs
import Mathlib.Logic.Function.Basic

/-!
# `spinlock`: `src/os/atomic/spinlock.cc`

A spin lock records the number of the core that holds it and turns interrupts off on this core. The
functions run access by access, side by side with other cores. A trap interrupts the thread of a
core whenever interrupts are on, and a thread that holds no lock may be switched out and go on on
another core.

Code that locks is arbitrary, but that it gives back what it took in the opposite order, as
`lock_guard` and `cpu_ref` (`src/os/arch/cpu.h`) do, and has given it all back when a trap returns.

* `Owners.Step`: locks as they should be, which belong to threads;
* `Cores.Step`: locks as they are.
-/

namespace CoroCore.Spin

open Lib

/-! ## Locks that belong to threads -/

/-- What threads do. -/
inductive Act (τ ι : Type)
  | locked (t : τ) (l : ι)
  | unlocked (t : τ) (l : ι)
  /-- A `cpu_ref` turned interrupts off. -/
  | pinned (t : τ)
  | unpinned (t : τ)
  /-- `holding()` returned `b`. -/
  | asked (t : τ) (l : ι) (b : Bool)
  /-- "This cpu is acquiring a acquired lock" -/
  | relocked (t : τ) (l : ι)
  /-- "Try to release a lock when not holding it" -/
  | misreleased (t : τ) (l : ι)
  | set (t : τ) (b : Bool)
  | interrupted (t : τ)
  | returned (t : τ)

/-- What each thread took, the latest first: a lock, or `none` for a `cpu_ref`. Interrupts are on if
it enabled them and took nothing. -/
structure Owners (τ ι : Type) where
  taken : τ → List (Option ι)
  enabled : τ → Bool
  /-- The traps that the thread is in. -/
  depth : τ → Nat

variable {κ τ ι : Type}

section

variable [DecidableEq τ]

def Owners.take (a : Owners τ ι) (t : τ) (gs : List (Option ι)) : Owners τ ι :=
  { a with taken := Function.update a.taken t gs }

def Owners.trap (a : Owners τ ι) (t : τ) (b : Bool) (d : Nat) : Owners τ ι :=
  { a with enabled := Function.update a.enabled t b, depth := Function.update a.depth t d }

theorem Owners.take_other {a : Owners τ ι} {t u : τ} {gs : List (Option ι)} (hu : u ≠ t) :
    (a.take t gs).taken u = a.taken u ∧ (a.take t gs).enabled u = a.enabled u :=
  ⟨Function.update_of_ne hu _ _, rfl⟩

inductive Owners.Step : Owners τ ι → Act τ ι → Owners τ ι → Prop
  | locked {a : Owners τ ι} {t : τ} {l : ι} : (∀ u, some l ∉ a.taken u) →
      Step a (.locked t l) (a.take t (some l :: a.taken t))
  | unlocked {a : Owners τ ι} {t : τ} {l : ι} {gs : List (Option ι)} : a.taken t = some l :: gs →
      Step a (.unlocked t l) (a.take t gs)
  | pinned {a : Owners τ ι} {t : τ} : Step a (.pinned t) (a.take t (none :: a.taken t))
  | unpinned {a : Owners τ ι} {t : τ} {gs : List (Option ι)} : a.taken t = none :: gs →
      Step a (.unpinned t) (a.take t gs)
  | asked {a : Owners τ ι} {t : τ} {l : ι} {b : Bool} : (b = true ↔ some l ∈ a.taken t) →
      Step a (.asked t l b) a
  | relocked {a : Owners τ ι} {t : τ} {l : ι} : some l ∈ a.taken t → Step a (.relocked t l) a
  | misreleased {a : Owners τ ι} {t : τ} {l : ι} : some l ∉ a.taken t → Step a (.misreleased t l) a
  | set {a : Owners τ ι} {t : τ} {b : Bool} : a.taken t = [] →
      Step a (.set t b) (a.trap t b (a.depth t))
  | interrupted {a : Owners τ ι} {t : τ} : a.enabled t = true → a.taken t = [] →
      Step a (.interrupted t) (a.trap t false (a.depth t + 1))
  | returned {a : Owners τ ι} {t : τ} {d : Nat} : a.depth t = d + 1 → a.taken t = [] →
      Step a (.returned t) (a.trap t true d)

end

/-- No thread took anything. -/
def Owners.initial : Owners τ ι := ⟨fun _ => [], fun _ => false, fun _ => 0⟩

/-! ## The code -/

structure Spinlock where
  locked : Bool
  oldStatus : Bool
  coreId : Nat

/-- `core_id = -1`, a `uint16`. -/
def nobody : Nat := 2 ^ 16 - 1

/-- An object in scope: a `cpu_ref` with its `old`, or a `lock_guard`. -/
inductive Guard (ι : Type)
  | cpu (old : Bool)
  | lock (l : ι)

def Guard.lock? : Guard ι → Option ι
  | .cpu _ => none
  | .lock l => some l

def locks (gs : List (Guard ι)) : List ι := gs.filterMap Guard.lock?

/-- The next access of a function, with its local variables, or `idle` between two calls. -/
inductive Pc (ι : Type)
  | idle
  | lock (l : ι)
  | lockTest (l : ι) (old : Bool)
  | lockOwner (l : ι) (old : Bool)
  | swap (l : ι) (old : Bool)
  | setOwner (l : ι) (old : Bool)
  | setStatus (l : ι) (old : Bool)
  | unlockTest (l : ι)
  | unlockOwner (l : ι)
  | clearOwner (l : ι)
  | loadStatus (l : ι)
  | clearStatus (l : ι) (old : Bool)
  | release (l : ι) (old : Bool)
  | restore (old : Bool)
  | holding (l : ι)
  | holdingTest (l : ι) (old : Bool)
  | holdingOwner (l : ι) (old : Bool)
  | holdingRestore (l : ι) (old ret : Bool)
  | panicked

/-- What code on a core sees: the locks, `SSTATUS_SIE`, where it is and what is in scope. -/
structure View (ι : Type) where
  lock : ι → Spinlock
  irq : Bool
  pc : Pc ι
  guards : List (Guard ι)

namespace View

variable [DecidableEq ι]

/-- `lock l` becomes `s`. -/
def write (v : View ι) (l : ι) (s : Spinlock) (pc : Pc ι) : View ι :=
  { v with lock := Function.update v.lock l s, pc := pc }

/-- One access of `lock`, `unlock` or `holding` on the core with number `id`. -/
def exec (id : Nat) (v : View ι) : View ι :=
  match v.pc with
  | .idle | .panicked => v
  | .lock l => { v with irq := false, pc := .lockTest l v.irq }
  | .lockTest l old => { v with pc := if (v.lock l).locked then .lockOwner l old else .swap l old }
  | .lockOwner l old => { v with pc := if (v.lock l).coreId = id then .panicked else .swap l old }
  -- `__sync_lock_test_and_set` until it returns 0
  | .swap l old => if (v.lock l).locked then v else
      { v.write l { v.lock l with locked := true } (.setOwner l old) with
        guards := .lock l :: v.guards }
  | .setOwner l old => v.write l { v.lock l with coreId := id % 2 ^ 16 } (.setStatus l old)
  | .setStatus l old => v.write l { v.lock l with oldStatus := old } .idle
  | .unlockTest l => { v with pc := if (v.lock l).locked then .unlockOwner l else .panicked }
  | .unlockOwner l => { v with pc := if (v.lock l).coreId = id then .clearOwner l else .panicked }
  | .clearOwner l => v.write l { v.lock l with coreId := nobody } (.loadStatus l)
  | .loadStatus l => { v with pc := .clearStatus l (v.lock l).oldStatus }
  | .clearStatus l old => v.write l { v.lock l with oldStatus := false } (.release l old)
  | .release l old =>
      { v.write l { v.lock l with locked := false } (.restore old) with guards := v.guards.tail }
  | .restore old => { v with irq := old || v.irq, pc := .idle }
  | .holding l => { v with irq := false, pc := .holdingTest l v.irq }
  | .holdingTest l old =>
      { v with pc := if (v.lock l).locked then .holdingOwner l old
        else .holdingRestore l old false }
  | .holdingOwner l old => { v with pc := .holdingRestore l old ((v.lock l).coreId == id) }
  | .holdingRestore _ old _ => { v with irq := old || v.irq, pc := .idle }

/-- What the access does by the thread's own account. -/
def act (id : Nat) (t : τ) (v : View ι) : Option (Act τ ι) :=
  match v.pc with
  | .lockOwner l _ => if (v.lock l).coreId = id then some (.relocked t l) else none
  | .swap l _ => if (v.lock l).locked then none else some (.locked t l)
  | .unlockTest l => if (v.lock l).locked then none else some (.misreleased t l)
  | .unlockOwner l => if (v.lock l).coreId = id then none else some (.misreleased t l)
  | .release l _ => some (.unlocked t l)
  | .holdingRestore l _ ret => some (.asked t l ret)
  | _ => none

end View

/-! ## Cores -/

/-- The numbers of the cores, in `tp`. -/
structure Ids (κ : Type) where
  id : κ → Nat
  inj : ∀ i j, id i = id j → i = j
  small : ∀ k, id k < nobody

/-- A function that was called, with the objects it has in scope. -/
structure Activation (ι : Type) where
  pc : Pc ι
  guards : List (Guard ι)

/-- `under` is what traps interrupted, the latest first. -/
structure Thread (ι : Type) where
  top : Activation ι
  under : List (Activation ι)

structure Cores (κ τ ι : Type) where
  lock : ι → Spinlock
  irq : κ → Bool
  thread : τ → Thread ι
  /-- The thread that the core runs. -/
  cur : κ → τ

/-- A call of `lock`, `holding` or `unlock`: of the lock taken last, or by mistake. -/
inductive Calls (gs : List (Guard ι)) : Pc ι → Prop
  | lock (l : ι) : Calls gs (.lock l)
  | holding (l : ι) : Calls gs (.holding l)
  | unlock (l : ι) : gs.head? = some (.lock l) ∨ l ∉ locks gs → Calls gs (.unlockTest l)

namespace Cores

def view (x : Cores κ τ ι) (k : κ) : View ι :=
  ⟨x.lock, x.irq k, (x.thread (x.cur k)).top.pc, (x.thread (x.cur k)).top.guards⟩

variable [DecidableEq κ] [DecidableEq τ]

def put (x : Cores κ τ ι) (k : κ) (v : View ι) : Cores κ τ ι :=
  { x with lock := v.lock, irq := Function.update x.irq k v.irq,
           thread := Function.update x.thread (x.cur k)
             { x.thread (x.cur k) with top := ⟨v.pc, v.guards⟩ } }

/-- The thread of core `k` becomes `th`, with interrupts on or off. -/
def replace (x : Cores κ τ ι) (k : κ) (b : Bool) (th : Thread ι) : Cores κ τ ι :=
  { x with irq := Function.update x.irq k b, thread := Function.update x.thread (x.cur k) th }

variable [DecidableEq ι]

/-- A step of core `k`. -/
inductive Step (ids : Ids κ) : Cores κ τ ι → Option (Act τ ι) → Cores κ τ ι → Prop
  | exec {x : Cores κ τ ι} {k : κ} :
      Step ids x ((x.view k).act (ids.id k) (x.cur k)) (x.put k ((x.view k).exec (ids.id k)))
  | call {x : Cores κ τ ι} {k : κ} {pc : Pc ι} : (x.view k).pc = .idle →
      Calls (x.view k).guards pc →
      Step ids x none (x.put k { x.view k with pc := pc })
  -- the constructor of `cpu_ref`
  | pin {x : Cores κ τ ι} {k : κ} : (x.view k).pc = .idle →
      Step ids x (some (.pinned (x.cur k)))
        (x.put k { x.view k with irq := false, guards := .cpu (x.irq k) :: (x.view k).guards })
  -- its destructor
  | unpin {x : Cores κ τ ι} {k : κ} {old : Bool} {gs : List (Guard ι)} : (x.view k).pc = .idle →
      (x.view k).guards = .cpu old :: gs →
      Step ids x (some (.unpinned (x.cur k)))
        (x.put k { x.view k with irq := old || x.irq k, guards := gs })
  -- `local_irq_enable`, `local_irq_disable`
  | set {x : Cores κ τ ι} {k : κ} {b : Bool} : (x.view k).pc = .idle → (x.view k).guards = [] →
      Step ids x (some (.set (x.cur k) b)) (x.put k { x.view k with irq := b })
  | interrupt {x : Cores κ τ ι} {k : κ} : x.irq k = true → (x.view k).pc ≠ .panicked →
      Step ids x (some (.interrupted (x.cur k))) (x.replace k false
        ⟨⟨.idle, []⟩, (x.thread (x.cur k)).top :: (x.thread (x.cur k)).under⟩)
  | sret {x : Cores κ τ ι} {k : κ} {f : Activation ι} {fs : List (Activation ι)} :
      (x.view k).pc = .idle →
      (x.view k).guards = [] → (x.thread (x.cur k)).under = f :: fs →
      Step ids x (some (.returned (x.cur k))) (x.replace k true ⟨f, fs⟩)
  -- `swtch`
  | switch {x : Cores κ τ ι} {k : κ} {t : τ} : (x.view k).pc = .idle → x.irq k = false →
      locks (x.view k).guards = [] → (∀ j, x.cur j ≠ t) →
      Step ids x none { x with cur := Function.update x.cur k t }

/-- Locks are constructed, threads have not started and interrupts are off. -/
structure Booted (x : Cores κ τ ι) : Prop where
  locked : ∀ l, (x.lock l).locked = false
  coreId : ∀ l, (x.lock l).coreId = nobody
  irq : ∀ k, x.irq k = false
  thread : ∀ t, x.thread t = ⟨⟨.idle, []⟩, []⟩
  cur : ∀ i j, x.cur i = x.cur j → i = j

end Cores

end CoroCore.Spin
