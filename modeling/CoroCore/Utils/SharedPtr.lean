import Mathlib.Logic.Function.Basic
import CoroCore.Lib.Run
import Mathlib.Algebra.GroupWithZero.Nat

/-!
# `shared_ptr` and `weak_ptr`: `utils/shared_ptr.h`

Handles are stored in variables or are members of objects, and a deleted object destroys its
members, so that one `__dec_ref` may release handles all over the heap. The calls that are under way
form a stack of tasks.

Objects, control blocks and handles are numbered, with 0 for the null pointer, and numbers are not
used again: a number without an entry is freed memory. Memory ends long before there are 2^32
handles, so of the 32 bits of the counters only the step below 0 is seen.

The objects have no `on_destroy`.
-/

namespace CoroCore

/-- `ref_count_t`. -/
structure RefCount where
  refCount : Nat
  weakCount : Nat
deriving DecidableEq, Repr

/-- The fields of a `shared_ptr` or a `weak_ptr`. -/
inductive Handle
  | shared (ptr cb : Nat)
  | weak (ptr cb : Nat)
deriving DecidableEq, Repr

/-- The handles with the object they are members of (0 for a variable), the objects with their
members, and the control blocks. An object is `raw` until its pointer is given to a `shared_ptr`.
`objOf` and `current` record which object a control block was made for and which one was made for an
object last, `freed` what was deleted, and `dangling` that freed memory was used. -/
structure Ptrs where
  handle : Nat → Option Handle
  home : Nat → Nat
  obj : Nat → Option (List Nat)
  cb : Nat → Option RefCount
  next : Nat
  raw : Nat → Bool
  objOf : Nat → Nat
  current : Nat → Nat
  freed : List Nat
  dangling : Bool

/-- What is still to be done in the calls under way. -/
inductive PtrTask
  | release (ptr cb : Nat)
  | releaseWeak (cb : Nat)
  | destroy (h : Nat)
  | delete (ptr : Nat)
  | deleteCb (cb : Nat)
deriving DecidableEq, Repr

namespace Ptrs

/-! ## `struct ref_count_t` -/

/-- `--count` in 32 bits. -/
def decrement : Nat → Nat
  | 0 => 2 ^ 32 - 1
  | n + 1 => n

/-- Access to a control block. -/
def updateCb (s : Ptrs) (c : Nat) (f : RefCount → RefCount) : Ptrs :=
  match s.cb c with
  | none => { s with dangling := true }
  | some r => { s with cb := Function.update s.cb c (some (f r)) }

def incRef (r : RefCount) : RefCount := ⟨r.refCount + 1, r.weakCount + 1⟩
def decRef (r : RefCount) : RefCount := ⟨decrement r.refCount, decrement r.weakCount⟩
def incWeak (r : RefCount) : RefCount := ⟨r.refCount, r.weakCount + 1⟩
def decWeak (r : RefCount) : RefCount := ⟨r.refCount, decrement r.weakCount⟩

/-! ## Release -/

/-- One step of a release, and the calls it makes.

* `release`, `releaseWeak`: `__dec_ref` of a `shared_ptr` and of a `weak_ptr`;
* `destroy`: the destructor of a handle, whose lifetime ends here;
* `delete`: `delete ptr`, which destroys the members, the last one first. -/
def runTask (s : Ptrs) : PtrTask → Ptrs × List PtrTask
  | .release p c =>
    if p = 0 ∨ c = 0 then (s, [])
    else match s.cb c with
      | none => ({ s with dangling := true }, [])
      | some r =>
        (s.updateCb c decRef,
          (if (decRef r).refCount = 0 then [.delete p] else []) ++
            (if (decRef r).weakCount = 0 then [.deleteCb c] else []))
  | .releaseWeak c =>
    if c = 0 then (s, [])
    else match s.cb c with
      | none => ({ s with dangling := true }, [])
      | some r =>
        (s.updateCb c decWeak, if (decWeak r).weakCount = 0 then [.deleteCb c] else [])
  | .destroy h =>
    match s.handle h with
    | none => ({ s with dangling := true }, [])
    | some (.shared p c) => ({ s with handle := Function.update s.handle h none }, [.release p c])
    | some (.weak _ c) => ({ s with handle := Function.update s.handle h none }, [.releaseWeak c])
  | .delete p =>
    match s.obj p with
    | none => ({ s with dangling := true }, [])
    | some ms =>
      ({ s with obj := Function.update s.obj p none, freed := p :: s.freed },
        ms.reverse.map .destroy)
  | .deleteCb c =>
    match s.cb c with
    | none => ({ s with dangling := true }, [])
    | some _ => ({ s with cb := Function.update s.cb c none, freed := c :: s.freed }, [])

/-- Runs the stack of calls; `none` if it takes more than `fuel` steps. -/
def runTasks : Nat → List PtrTask → Ptrs → Option Ptrs
  | _, [], s => some s
  | 0, _ :: _, _ => none
  | fuel + 1, a :: t, s => runTasks fuel ((s.runTask a).2 ++ t) (s.runTask a).1

/-- The steps that a task takes at most, apart from members that it destroys. -/
def taskCost : PtrTask → Nat
  | .release _ _ => 3
  | .releaseWeak _ => 2
  | .destroy _ => 4
  | .delete _ => 1
  | .deleteCb _ => 1

/-- The steps that the members of an object take. -/
def memberCost (s : Ptrs) (p : Nat) : Nat := 4 * ((s.obj p).getD []).length

/-- A bound for the steps of a stack of calls. -/
def fuel (s : Ptrs) (t : List PtrTask) : Nat :=
  (t.map taskCost).sum + ((List.range s.next).map s.memberCost).sum

/-- Runs the stack of calls. -/
def perform (s : Ptrs) (t : List PtrTask) : Option Ptrs := runTasks (s.fuel t) t s

/-! ## Storage -/

/-- A variable for a handle, with null fields. -/
def declare (s : Ptrs) (v : Handle) : Ptrs :=
  { s with handle := Function.update s.handle s.next (some v)
           home := Function.update s.home s.next 0
           next := s.next + 1 }

def nullShared : Handle := .shared 0 0
def nullWeak : Handle := .weak 0 0

/-- `new T`: an object with members, null handles all of them, behind a raw pointer. -/
def newObject (s : Ptrs) (ms : List Handle) : Ptrs :=
  let p := s.next
  { s with handle := fun x => if p < x ∧ x < p + 1 + ms.length then ms[x - p - 1]? else s.handle x
           home := fun x => if p < x ∧ x < p + 1 + ms.length then p else s.home x
           obj := Function.update s.obj p (some ((List.range ms.length).map (p + 1 + ·)))
           raw := Function.update s.raw p true
           next := p + 1 + ms.length }

/-- `new ref_count_t(1)` for the object `p`. -/
def newCb (s : Ptrs) (p : Nat) : Ptrs :=
  { s with cb := Function.update s.cb s.next (some ⟨1, 1⟩)
           objOf := Function.update s.objOf s.next p
           current := Function.update s.current p s.next
           raw := Function.update s.raw p false
           next := s.next + 1 }

/-- A store to the fields of a handle. -/
def setHandle (s : Ptrs) (h : Nat) (v : Handle) : Ptrs :=
  match s.handle h with
  | none => { s with dangling := true }
  | some _ => { s with handle := Function.update s.handle h (some v) }

/-! ## `class shared_ptr` -/

/-- `__inc_ref`. -/
def sharedInc (s : Ptrs) (p c : Nat) : Ptrs := if p = 0 ∨ c = 0 then s else s.updateCb c incRef

/-- `__reset(new_ptr, new_ref_count)`. -/
def sharedReset (s : Ptrs) (h p c : Nat) : Option Ptrs :=
  match s.handle h with
  | some (.shared p' c') =>
    (s.perform [.release p' c']).map fun s => (s.setHandle h (.shared p c)).sharedInc p c
  | _ => none

/-- `reset(new_ptr)`. -/
def resetRaw (s : Ptrs) (h p : Nat) : Option Ptrs :=
  match s.handle h with
  | some (.shared p' c') =>
    (s.perform [.release p' c']).map fun s =>
      if p = 0 then s.setHandle h nullShared else (s.newCb p).setHandle h (.shared p s.next)
  | _ => none

/-- `std::swap` of the fields. -/
def swap (s : Ptrs) (h g : Nat) : Ptrs :=
  { s with handle := Function.update (Function.update s.handle h (s.handle g)) g (s.handle h) }

/-- `try_detach_weak`. -/
def tryDetachWeak (s : Ptrs) (h : Nat) : Option Ptrs :=
  match s.handle h with
  | some (.shared p c) =>
    if p = 0 ∨ c = 0 then some s
    else match s.cb c with
      | none => some { s with dangling := true }
      | some r =>
        if 1 < r.refCount then some s
        else
          let s' := s.updateCb c decRef
          let s' := if (decRef r).weakCount = 0
            then { s' with cb := Function.update s'.cb c none, freed := c :: s'.freed } else s'
          some ((s'.newCb p).setHandle h (.shared p s'.next))
  | _ => none

/-! ## `class weak_ptr` -/

/-- `__reset(new_ptr, new_ref_count)`. -/
def weakReset (s : Ptrs) (h p c : Nat) : Option Ptrs :=
  match s.handle h with
  | some (.weak _ c') =>
    (s.perform [.releaseWeak c']).map fun s =>
      let s := s.setHandle h (.weak p c)
      if c = 0 then s else s.updateCb c incWeak
  | _ => none

/-- `expired`; `none` if it reads freed memory. -/
def expired (s : Ptrs) (c : Nat) : Option Bool :=
  if c = 0 then some true else (s.cb c).map fun r => r.refCount = 0

/-- `__reset_weak` of a new `shared_ptr`, with `try_inc_ref`. -/
def sharedResetWeak (s : Ptrs) (h p c : Nat) : Ptrs :=
  match s.cb c with
  | none => { s with dangling := true }
  | some r =>
    if r.refCount = 0 then s.setHandle h nullShared
    else (s.setHandle h (.shared p c)).updateCb c incRef

/-- `lock`: the new handle. -/
def lock (s : Ptrs) (p c : Nat) : Ptrs :=
  if c = 0 then s.declare nullShared else (s.declare nullShared).sharedResetWeak s.next p c

end Ptrs

/-! ## Runs -/

/-- A call. `construct` and `resetNew` get a raw pointer. -/
inductive PtrOp
  | new (ms : List Handle)
  | null (weak : Bool)
  | construct (ptr : Nat)
  | copy (src : Nat)
  | move (src : Nat)
  | assign (dst src : Nat)
  | moveAssign (dst src : Nat)
  | reset (h : Nat)
  | resetNew (h ptr : Nat)
  | destroy (h : Nat)
  | getWeak (src : Nat)
  | weakCopy (src : Nat)
  | weakAssign (dst src : Nat)
  | lock (src : Nat)
  | tryDetachWeak (h : Nat)
deriving DecidableEq, Repr

namespace Ptrs

def isNull (v : Handle) : Bool := v = nullShared || v = nullWeak

/-- One call; `none` if it is no call in this state: a handle is not there or of the wrong class, or
a pointer already has an owner. Variables are destroyed at the end of their scope, members only with
their object. -/
def exec (s : Ptrs) : PtrOp → Option Ptrs
  | .new ms => if ms.all isNull then some (s.newObject ms) else none
  | .null weak => some (s.declare (if weak then nullWeak else nullShared))
  | .construct p =>
    if s.raw p = true ∧ s.obj p ≠ none then (s.declare nullShared).resetRaw s.next p else none
  | .copy src =>
    match s.handle src with
    | some (.shared p c) => (s.declare nullShared).sharedReset s.next p c
    | _ => none
  | .move src =>
    match s.handle src with
    | some (.shared _ _) => some ((s.declare nullShared).swap s.next src)
    | _ => none
  | .assign dst src =>
    match s.handle src with
    | some (.shared p c) => s.sharedReset dst p c
    | _ => none
  | .moveAssign dst src =>
    match s.handle dst, s.handle src with
    | some (.shared _ _), some (.shared _ _) => some (s.swap dst src)
    | _, _ => none
  | .reset h => s.resetRaw h 0
  | .resetNew h p => if s.raw p = true ∧ s.obj p ≠ none then s.resetRaw h p else none
  | .destroy h => if s.handle h = none ∨ s.home h ≠ 0 then none else s.perform [.destroy h]
  | .getWeak src =>
    match s.handle src with
    | some (.shared p c) => (s.declare nullWeak).weakReset s.next p c
    | _ => none
  | .weakCopy src =>
    match s.handle src with
    | some (.weak p c) => (s.declare nullWeak).weakReset s.next p c
    | _ => none
  | .weakAssign dst src =>
    match s.handle src with
    | some (.weak p c) => s.weakReset dst p c
    | _ => none
  | .lock src =>
    match s.handle src with
    | some (.weak p c) => some (s.lock p c)
    | _ => none
  | .tryDetachWeak h => s.tryDetachWeak h

def Step (s : Ptrs) (op : PtrOp) (s' : Ptrs) : Prop := s.exec op = some s'

/-- No handle, no object. -/
def empty : Ptrs where
  handle := fun _ => none
  home := fun _ => 0
  obj := fun _ => none
  cb := fun _ => none
  next := 1
  raw := fun _ => false
  objOf := fun _ => 0
  current := fun _ => 0
  freed := []
  dangling := false

end Ptrs

end CoroCore
