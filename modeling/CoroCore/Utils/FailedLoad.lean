import CoroCore.Atomic.Mutex

/-!
# A load that fails: `referenceable_buffer` of `utils/buffer.h`

`get` locks the mutex of the buffer and then awaits `load`. If that fails, `coroutine_handle_fail`
leaves the frames of `load` and `get` to be destroyed: none of their variables unlocks the mutex,
and the guard that would do it is made after `get`.

* `Step`: tasks that get, load, use and put a buffer, over the steps of its mutex;
* `recovers_iff`: the mutex is locked without a task that would unlock it exactly if some `get` has
  failed after it had locked it;
* `never_again`: from then on no task gets the buffer.
-/

namespace CoroCore.FailedLoad

open Lib MutexSystem

/-- Where a task that has locked the mutex is: before `load`, in `__load`, or done with `get`. -/
inductive Stage
  | entered
  | loading
  | holding
  deriving DecidableEq

/-- A `referenceable_buffer`, the tasks at its mutex, and the flags `_valid` and `_dirty`. -/
structure Sys where
  tasks : MutexSystem.Sys
  stage : Nat → Stage
  valid : Bool
  dirty : Bool

namespace Sys

/-- A new buffer. -/
def initial : Sys := ⟨MutexSystem.initial, fun _ => .entered, false, false⟩

/-- Task `t` has locked the mutex, and is in `get` or has a guard. -/
def Inside (s : Sys) (t : Nat) : Prop := s.tasks.pc t = .inside

/-- Task `t` makes a round of `_in_use_mutex.lock()`. -/
def round (s : Sys) (t : Nat) (m : MutexSystem.Sys) : Sys :=
  { s with tasks := m, stage := Function.update s.stage t .entered }

def setStage (s : Sys) (t : Nat) (x : Stage) : Sys :=
  { s with stage := Function.update s.stage t x }

/-- The end of `load` after `__load` has succeeded. -/
def loaded (s : Sys) (t : Nat) : Sys :=
  { s.setStage t .holding with valid := true, dirty := false }

/-- `coroutine_handle_fail`: the frames of `load` and `get` are destroyed, and task `t` goes on in
the handler. -/
def fail (s : Sys) (t : Nat) : Sys :=
  { s with tasks := { s.tasks with pc := Function.update s.tasks.pc t .outside } }

/-- `put`, or the destructor of the guard. -/
def put (s : Sys) (t : Nat) : Sys := { s with tasks := release t s.tasks }

/-- `flush`, if it is needed. -/
def flush (s : Sys) : Sys := if s.valid ∧ s.dirty then { s with dirty := false } else s

end Sys

/-- `skip` and `load` are the two branches of `load`; `noFrame` is a `co_await load()` whose frame
could not be allocated. -/
inductive Act
  | lock (t : Nat)
  | resume (t : Nat)
  | skip (t : Nat)
  | load (t : Nat)
  | loaded (t : Nat)
  | loadFails (t : Nat)
  | noFrame (t : Nat)
  | markDirty (t : Nat)
  | flush (t : Nat)
  | put (t : Nat)
  | markInvalid
  deriving DecidableEq

/-- A step of a task. Loads fail or not as the device wills, and a recycled buffer is marked invalid
by the buffer manager. -/
inductive Step : Sys → Act → Sys → Prop
  | lock {s : Sys} {t : Nat} {m : MutexSystem.Sys} : MutexSystem.Step s.tasks (.lock t) m →
      Step s (.lock t) (s.round t m)
  | resume {s : Sys} {t : Nat} {m : MutexSystem.Sys} : MutexSystem.Step s.tasks (.resume t) m →
      Step s (.resume t) (s.round t m)
  | skip {s : Sys} {t : Nat} : s.Inside t → s.stage t = .entered → s.valid = true →
      Step s (.skip t) (s.setStage t .holding)
  | load {s : Sys} {t : Nat} : s.Inside t → s.stage t = .entered → s.valid = false →
      Step s (.load t) (s.setStage t .loading)
  | loaded {s : Sys} {t : Nat} : s.Inside t → s.stage t = .loading → Step s (.loaded t) (s.loaded t)
  | loadFails {s : Sys} {t : Nat} : s.Inside t → s.stage t = .loading →
      Step s (.loadFails t) (s.fail t)
  | noFrame {s : Sys} {t : Nat} : s.Inside t → s.stage t = .entered → Step s (.noFrame t) (s.fail t)
  | markDirty {s : Sys} {t : Nat} : s.Inside t → s.stage t = .holding →
      Step s (.markDirty t) { s with dirty := true }
  | flush {s : Sys} {t : Nat} : s.Inside t → s.stage t = .holding → Step s (.flush t) s.flush
  | put {s : Sys} {t : Nat} : s.Inside t → s.stage t = .holding → Step s (.put t) (s.put t)
  | markInvalid {s : Sys} : Step s .markInvalid { s with valid := false }

/-- A `get` fails. -/
def Act.fails : Act → Bool
  | .loadFails _ => true
  | .noFrame _ => true
  | _ => false

/-- Some `get` has failed. -/
def Failed (acts : List Act) : Prop := ∃ a ∈ acts, a.fails = true

instance (acts : List Act) : Decidable (Failed acts) :=
  inferInstanceAs (Decidable (∃ a ∈ acts, a.fails = true))

/-- The mutex is locked by a task inside, unless a `get` has failed: then by none. While a task
loads, and after its load has failed, the buffer is not valid. -/
structure Inv (acts : List Act) (s : Sys) : Prop where
  mutex : MutexSystem.Inv s.tasks
  held : ¬ Failed acts → s.tasks.mutex.locked = true → ∃ t, s.Inside t
  stuck : Failed acts → s.tasks.mutex.locked = true ∧ ∀ t, ¬ s.Inside t
  invalid : ∀ t, s.Inside t → s.stage t = .loading → s.valid = false
  retry : ∀ t, acts.getLast? = some (.loadFails t) → s.valid = false

variable {s s' : Sys} {t u : Nat} {a : Act} {acts : List Act} {m : MutexSystem.Sys}

theorem failed_snoc : Failed (acts ++ [a]) ↔ Failed acts ∨ a.fails = true := by
  simp only [Failed, List.mem_append, List.mem_singleton, or_and_right, exists_or, exists_eq_left]

theorem failed_snoc_of (h : a.fails = false) : Failed (acts ++ [a]) ↔ Failed acts := by
  rw [failed_snoc, or_iff_left (by rw [h]; exact Bool.false_ne_true)]

/-- A load that failed is the last step only if the last step is one that fails. -/
theorem not_last (h : a.fails = false) : (acts ++ [a]).getLast? ≠ some (.loadFails t) := by
  rw [List.getLast?_concat]
  rintro ⟨rfl⟩
  cases h

theorem inv_initial : Inv [] Sys.initial where
  mutex := MutexSystem.inv_initial
  held _ h := nomatch h
  stuck h := h.elim fun _ h => nomatch h.1
  invalid _ h := nomatch h
  retry _ h := nomatch h

/-- A step that leaves the mutex alone, and does not let a valid buffer be loaded. -/
theorem Inv.keep (h : Inv acts s) (ha : a.fails = false)
    (htasks : s'.tasks = s.tasks)
    (hload : ∀ t, s'.stage t = .loading → s.Inside t → s'.valid = false) :
    Inv (acts ++ [a]) s' := by
  have hin : ∀ t, s'.Inside t ↔ s.Inside t := fun t => by rw [Sys.Inside, htasks]; rfl
  refine ⟨?_, ?_, ?_, fun t ht hs => hload t hs ((hin t).mp ht),
    fun _ hl => absurd hl (not_last ha)⟩
  · rw [htasks]
    exact h.mutex
  · rw [failed_snoc_of ha, htasks]
    simp only [hin]
    exact h.held
  · rw [failed_snoc_of ha, htasks]
    simp only [hin]
    exact h.stuck

/-! ## Steps of the mutex -/

theorem release_locked (t : Nat) (m : MutexSystem.Sys) : (release t m).mutex.locked = false := by
  unfold release
  cases m.mutex.unlock.1 with
  | none => rfl
  | some w => rfl

theorem attempt_mutex_locked (t : Nat) (m : MutexSystem.Sys) :
    (attempt t m).mutex.locked = true := by
  unfold attempt Mutex.tryLock
  split
  · assumption
  · rfl

/-- The task that makes the round is inside if the mutex was free; the others stay where they
are. -/
theorem attempt_inside (t : Nat) (m : MutexSystem.Sys) (u : Nat) :
    (attempt t m).pc u = .inside ↔
      if u = t then m.mutex.locked = false else m.pc u = .inside := by
  split
  · next hu =>
    subst hu
    cases hl : m.mutex.locked with
    | true => simp [attempt_locked hl]
    | false => simp [attempt_free hl]
  · next hu =>
    show Function.update m.pc t _ u = _ ↔ _
    rw [Function.update_of_ne hu]

theorem Inv.round (h : Inv acts s) (ha : a.fails = false)
    {n : MutexSystem.Sys} (hlocked : n.mutex.locked = s.tasks.mutex.locked)
    (hpc : n.pc = s.tasks.pc) (ht : ¬ s.Inside t) (hm : MutexSystem.Inv (attempt t n)) :
    Inv (acts ++ [a]) (s.round t (attempt t n)) := by
  have hinside : ∀ u, (s.round t (attempt t n)).Inside u ↔
      if u = t then s.tasks.mutex.locked = false else s.Inside u := fun u => by
    have hu := attempt_inside t n u
    rwa [hlocked, hpc] at hu
  refine ⟨hm, fun hfail _ => ?_, fun hfail => ⟨attempt_mutex_locked t n, fun u hu => ?_⟩,
    fun u hu hs => ?_, fun _ hl => absurd hl (not_last ha)⟩
  · rw [failed_snoc_of ha] at hfail
    cases hl : s.tasks.mutex.locked with
    | false => exact ⟨t, (hinside t).mpr (by rw [if_pos rfl, hl])⟩
    | true =>
      obtain ⟨v, hv⟩ := h.held hfail hl
      refine ⟨v, (hinside v).mpr ?_⟩
      have hne : v ≠ t := by
        rintro rfl
        exact ht hv
      rwa [if_neg hne]
  · obtain ⟨hl, hnone⟩ := h.stuck ((failed_snoc_of ha).mp hfail)
    rw [hinside] at hu
    split at hu
    · rw [hl] at hu
      cases hu
    · exact hnone u hu
  · have hstage : Function.update s.stage t .entered u = .loading := hs
    rw [hinside] at hu
    split at hu
    · next he =>
      rw [he, Function.update_self] at hstage
      cases hstage
    · next hne =>
      rw [Function.update_of_ne hne] at hstage
      exact h.invalid u hu hstage

/-- A `get` fails. -/
theorem Inv.fail (h : Inv acts s) (ha : a.fails = true) (ht : s.Inside t)
    (hretry : ∀ u, a = .loadFails u → s.valid = false) : Inv (acts ++ [a]) (s.fail t) := by
  have hfailed : Failed (acts ++ [a]) := failed_snoc.mpr (.inr ha)
  have hpc : ∀ u x, x ≠ Pc.inside → x ≠ .outside →
      (Function.update s.tasks.pc t .outside u = x ↔ s.tasks.pc u = x) := by
    intro u x hin hout
    rcases eq_or_ne u t with rfl | hne
    · rw [Function.update_self, show s.tasks.pc u = .inside from ht]
      exact ⟨fun he => absurd he.symm hout, fun he => absurd he.symm hin⟩
    · rw [Function.update_of_ne hne]
  have hnone : ∀ u, ¬ (s.fail t).Inside u := by
    intro u hu
    have hu : Function.update s.tasks.pc t .outside u = .inside := hu
    rcases eq_or_ne u t with rfl | hne
    · rw [Function.update_self] at hu
      cases hu
    · rw [Function.update_of_ne hne] at hu
      exact hne (h.mutex.unique u t hu ht)
  refine ⟨⟨fun u hu => absurd hu (hnone u), fun u _ hu => absurd hu (hnone u), fun u => ?_,
    h.mutex.once, fun u => ?_, h.mutex.ready_once, h.mutex.pending⟩, fun hn => absurd hfailed hn,
    fun _ => ⟨h.mutex.locked t ht, hnone⟩, fun u hu => absurd hu (hnone u), fun u hl => ?_⟩
  · exact (h.mutex.sleeping u).trans (hpc u _ (by decide) (by decide)).symm
  · exact (h.mutex.woken u).trans (hpc u _ (by decide) (by decide)).symm
  · rw [List.getLast?_concat] at hl
    exact hretry u (Option.some.inj hl)

theorem setStage_of_ne {x y : Stage} (hs : (s.setStage t x).stage u = y) (hx : x ≠ y) :
    s.stage u = y := by
  have hs : Function.update s.stage t x u = y := hs
  rcases eq_or_ne u t with rfl | hne
  · rw [Function.update_self] at hs
    exact absurd hs hx
  · rwa [Function.update_of_ne hne] at hs

theorem Inv.step (h : Inv acts s) (hs : Step s a s') : Inv (acts ++ [a]) s' := by
  cases hs with
  | lock hm =>
    have hinv := h.mutex.step hm
    cases hm with
    | lock hp => exact h.round rfl rfl rfl (fun hi => nomatch hp.symm.trans hi) hinv
  | resume hm =>
    have hinv := h.mutex.step hm
    cases hm with
    | resume hr =>
      have hp := (h.mutex.woken _).mp hr
      exact h.round rfl rfl rfl (fun hi => nomatch hp.symm.trans hi) hinv
  | skip _ _ _ =>
    exact h.keep rfl rfl
      fun u hs hu => h.invalid u hu (setStage_of_ne hs (by decide))
  | load _ _ hv => exact h.keep rfl rfl fun _ _ _ => hv
  | @loaded t ht _ =>
    refine h.keep rfl rfl fun u hs hu => ?_
    -- the task that loads is the only one inside
    rw [h.mutex.unique u t hu ht] at hs
    have hs : Function.update s.stage t .holding t = .loading := hs
    rw [Function.update_self] at hs
    cases hs
  | loadFails ht hs => exact h.fail rfl ht fun _ _ => h.invalid _ ht hs
  | noFrame ht _ => exact h.fail rfl ht nofun
  | markDirty _ _ => exact h.keep rfl rfl fun u hs hu => h.invalid u hu hs
  | flush _ _ =>
    unfold Sys.flush
    split
    · exact h.keep rfl rfl fun u hs hu => h.invalid u hu hs
    · exact h.keep rfl rfl fun u hs hu => h.invalid u hu hs
  | @put t ht _ =>
    have hlocked : (s.put t).tasks.mutex.locked = false := release_locked t s.tasks
    have hinv : MutexSystem.Inv (s.put t).tasks := h.mutex.release ht
    refine ⟨hinv, fun _ hl => ?_, fun hfail => ?_, fun u hu => ?_,
      fun _ hl => absurd hl (not_last rfl)⟩
    · rw [hlocked] at hl
      cases hl
    · exact absurd ht ((h.stuck ((failed_snoc_of rfl).mp hfail)).2 t)
    · have hl := hinv.locked u hu
      rw [hlocked] at hl
      cases hl
  | markInvalid => exact h.keep rfl rfl fun _ _ _ => rfl

theorem Inv.of_run (hrun : Run Step Sys.initial acts s) : Inv acts s :=
  hrun.history (fun _ _ _ _ h hs => h.step hs) inv_initial

/-! ## After a failure -/

/-- What failed calls of `get` should leave behind: the mutex is locked only if a task inside will
unlock it, so that the next `get_ref` comes in; and after a load that failed the buffer is not
valid, so that it loads again. -/
structure Recovers (acts : List Act) (s : Sys) : Prop where
  free : s.tasks.mutex.locked = true → ∃ t, s.Inside t
  retry : ∀ t, acts.getLast? = some (.loadFails t) → s.valid = false

/-- In every run the buffer recovers from what has happened if and only if no `get` has failed. -/
theorem recovers_iff (hrun : Run Step Sys.initial acts s) : Recovers acts s ↔ ¬ Failed acts := by
  have h := Inv.of_run hrun
  constructor
  · intro hr hfail
    obtain ⟨hl, hnone⟩ := h.stuck hfail
    obtain ⟨t, ht⟩ := hr.free hl
    exact hnone t ht
  · intro hfail
    exact ⟨h.held hfail, h.retry⟩

/-- From a failed `get` on no task gets the buffer: each one that tries goes to sleep. -/
theorem never_again {more : List Act} (hrun : Run Step Sys.initial acts s) (hfail : Failed acts)
    (hmore : Run Step s more s') : s'.tasks.mutex.locked = true ∧ ∀ t, ¬ s'.Inside t := by
  have h := Inv.of_run (hrun.append hmore)
  exact h.stuck (hfail.imp fun _ ha => ha.imp_left (List.mem_append_left more))

/-- One load fails. The next task that calls `get_ref` sleeps. -/
theorem not_recovers : ∃ s s', Run Step Sys.initial [.lock 0, .load 0, .loadFails 0] s ∧
    ¬ Recovers [.lock 0, .load 0, .loadFails 0] s ∧ Step s (.lock 1) s' ∧
    s'.tasks.pc 1 = .sleeping := by
  have hrun : Run Step Sys.initial [.lock 0, .load 0, .loadFails 0]
      (((Sys.initial.round 0 (attempt 0 MutexSystem.initial)).setStage 0 .loading).fail 0) :=
    .snoc (.snoc (.single (.lock (.lock rfl))) (.load rfl rfl rfl)) (.loadFails rfl rfl)
  refine ⟨_, _, hrun, fun hr => ?_, .lock (.lock rfl), rfl⟩
  obtain ⟨t, ht⟩ := hr.free rfl
  have hout :
      Function.update (Function.update (fun _ => Pc.outside) 0 .inside) 0 .outside t = .inside :=
    ht
  rcases eq_or_ne t 0 with rfl | hne
  · cases hout
  · rw [Function.update_of_ne hne, Function.update_of_ne hne] at hout
    cases hout

/-- Loads that succeed: the buffer is used by one task after the other. -/
theorem recovers_iff_used : ∃ s, Run Step Sys.initial
      [.lock 0, .load 0, .lock 1, .loaded 0, .put 0, .resume 1, .skip 1] s ∧ s.Inside 1 ∧
    Recovers [.lock 0, .load 0, .lock 1, .loaded 0, .put 0, .resume 1, .skip 1] s := by
  have hrun : ∃ s, Run Step Sys.initial
      [.lock 0, .load 0, .lock 1, .loaded 0, .put 0, .resume 1, .skip 1] s ∧ s.Inside 1 := by
    refine ⟨_, .snoc (.snoc (.snoc (.snoc (.snoc (.snoc (.single (.lock (.lock rfl)))
      (.load rfl rfl rfl)) (.lock (.lock rfl))) (.loaded rfl rfl)) (.put rfl rfl))
      (.resume (.resume ?_))) (.skip ?_ ?_ ?_), ?_⟩
    · rfl
    · rfl
    · rfl
    · rfl
    · exact List.mem_singleton.mpr rfl
  obtain ⟨s, hrun, hin⟩ := hrun
  exact ⟨s, hrun, hin, (recovers_iff hrun).mpr (by decide)⟩

end CoroCore.FailedLoad
