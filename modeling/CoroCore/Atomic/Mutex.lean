import CoroCore.Lib.Run
import Mathlib.Data.List.Nodup
import Mathlib.Logic.Function.Basic

/-!
# `coro_mutex`: `atomic/mutex.cc` over `utils/wait_queue.h`

A task that finds the mutex locked goes to sleep in the wait queue. `unlock` clears the flag and
wakes the first sleeper up, which is pushed on a run queue and tries again when it is its turn;
another task may come before it.

* `Mutex.tryLock`, `Mutex.unlock`: what the two functions do under the guard lock;
* `Step`: tasks that lock and unlock, in any order;
* `mutex_safe`: at most one task is inside, and the sleepers are never stranded.
-/

namespace CoroCore

open Lib

/-- `_locked` and `_wait_queue`. -/
structure Mutex where
  locked : Bool
  waiters : List Nat
  deriving DecidableEq

namespace Mutex

/-- A round of the loop of `lock` by task `t`: it takes the mutex, or it goes to sleep. -/
def tryLock (m : Mutex) (t : Nat) : Bool × Mutex :=
  if m.locked then (false, { m with waiters := m.waiters ++ [t] })
  else (true, { m with locked := true })

/-- `unlock`, with the task that `wake_up_one` wakes up. -/
def unlock (m : Mutex) : Option Nat × Mutex :=
  (m.waiters.head?, ⟨false, m.waiters.tail⟩)

end Mutex

namespace MutexSystem

/-- Where a task is. -/
inductive Pc
  | outside
  | sleeping
  | woken
  | inside
  deriving DecidableEq

/-- A mutex, its tasks, and the tasks woken up that wait for their turn in a run queue. -/
structure Sys where
  mutex : Mutex
  pc : Nat → Pc
  ready : List Nat

inductive Act
  | lock (t : Nat)
  | resume (t : Nat)
  | unlock (t : Nat)

/-- Task `t` makes a round of the loop of `lock`. -/
def attempt (t : Nat) (s : Sys) : Sys :=
  { s with
    mutex := (s.mutex.tryLock t).2
    pc := Function.update s.pc t (if (s.mutex.tryLock t).1 then .inside else .sleeping) }

/-- `wake_up` of a sleeper. -/
def wakeUp (w : Option Nat) (s : Sys) : Sys :=
  match w with
  | none => s
  | some w => { s with pc := Function.update s.pc w .woken, ready := s.ready ++ [w] }

/-- Task `t` leaves the mutex. -/
def release (t : Nat) (s : Sys) : Sys :=
  wakeUp s.mutex.unlock.1
    { s with mutex := s.mutex.unlock.2, pc := Function.update s.pc t .outside }

/-- A section under the guard lock. -/
inductive Step : Sys → Act → Sys → Prop
  | lock {s : Sys} {t : Nat} : s.pc t = .outside → Step s (.lock t) (attempt t s)
  | resume {s : Sys} {t : Nat} : t ∈ s.ready →
      Step s (.resume t) (attempt t { s with ready := s.ready.erase t })
  | unlock {s : Sys} {t : Nat} : s.pc t = .inside → Step s (.unlock t) (release t s)

def initial : Sys := ⟨⟨false, []⟩, fun _ => .outside, []⟩

/-- The flag, the wait queue and the run queue agree with where the tasks are. -/
structure Inv (s : Sys) : Prop where
  locked : ∀ t, s.pc t = .inside → s.mutex.locked = true
  unique : ∀ t u, s.pc t = .inside → s.pc u = .inside → t = u
  sleeping : ∀ t, t ∈ s.mutex.waiters ↔ s.pc t = .sleeping
  once : s.mutex.waiters.Nodup
  woken : ∀ t, t ∈ s.ready ↔ s.pc t = .woken
  ready_once : s.ready.Nodup
  pending : s.mutex.locked = false → s.mutex.waiters ≠ [] → s.ready ≠ []

theorem inv_initial : Inv initial where
  locked _ h := nomatch h
  unique _ _ h := nomatch h
  sleeping t := by simp [initial]
  once := List.nodup_nil
  woken t := by simp [initial]
  ready_once := List.nodup_nil
  pending _ h := absurd rfl h

variable {s s' : Sys} {t : Nat} {a : Act}

theorem attempt_locked (h : s.mutex.locked = true) : attempt t s =
    ⟨⟨true, s.mutex.waiters ++ [t]⟩, Function.update s.pc t .sleeping, s.ready⟩ := by
  simp [attempt, Mutex.tryLock, h]

theorem attempt_free (h : s.mutex.locked = false) : attempt t s =
    ⟨⟨true, s.mutex.waiters⟩, Function.update s.pc t .inside, s.ready⟩ := by
  simp [attempt, Mutex.tryLock, h]

/-- A task from outside, or one that was woken up, makes a round of the loop. -/
theorem Inv.attempt (h : Inv s) (hp : s.pc t = .outside ∨ s.pc t = .woken) :
    Inv (attempt t { s with ready := s.ready.erase t }) := by
  have hw : t ∉ s.mutex.waiters := by
    rw [h.sleeping]
    rcases hp with hp | hp <;> rw [hp] <;> exact fun he => nomatch he
  have hready : ∀ u, u ∈ s.ready.erase t ↔ u ≠ t ∧ s.pc u = .woken := fun u => by
    rw [h.ready_once.mem_erase_iff, h.woken]
  have hother : ∀ u, u ≠ t → ∀ x, Function.update s.pc t x u = s.pc u :=
    fun u hu x => Function.update_of_ne hu x s.pc
  cases hl : s.mutex.locked with
  | true =>
    rw [attempt_locked (s := { s with ready := s.ready.erase t }) hl]
    refine ⟨fun _ _ => rfl, fun u v hu hv => ?_, fun u => ?_, ?_, fun u => ?_, h.ready_once.erase t,
      fun hf => nomatch hf⟩
    · have hne : ∀ x, Function.update s.pc t Pc.sleeping x = .inside → x ≠ t := by
        rintro x hx rfl
        rw [Function.update_self] at hx
        cases hx
      simp only [hother u (hne u hu), hother v (hne v hv)] at hu hv
      exact h.unique u v hu hv
    · rcases eq_or_ne u t with rfl | hut
      · simp
      · simp [hut, h.sleeping]
    · refine List.nodup_append.mpr ⟨h.once, List.nodup_singleton t, ?_⟩
      rintro x hx y hy rfl
      exact hw (List.mem_singleton.mp hy ▸ hx)
    · rcases eq_or_ne u t with rfl | hut
      · simp [hready]
      · simp [hready, hut]
  | false =>
    have hin : ∀ u, s.pc u ≠ .inside := fun u hu => by
      have := h.locked u hu
      rw [hl] at this
      cases this
    rw [attempt_free (s := { s with ready := s.ready.erase t }) hl]
    refine ⟨fun _ _ => rfl, fun u v hu hv => ?_, fun u => ?_, h.once, fun u => ?_,
      h.ready_once.erase t, fun hf => nomatch hf⟩
    · have hself : ∀ x, Function.update s.pc t Pc.inside x = .inside → x = t := by
        intro x hx
        by_contra hne
        rw [hother x hne] at hx
        exact hin x hx
      exact (hself u hu).trans (hself v hv).symm
    · rcases eq_or_ne u t with rfl | hut
      · simp [hw]
      · simp [hut, h.sleeping]
    · rcases eq_or_ne u t with rfl | hut
      · simp [hready]
      · simp [hready, hut]

theorem release_none (h : s.mutex.waiters = []) :
    release t s = ⟨⟨false, []⟩, Function.update s.pc t .outside, s.ready⟩ := by
  simp [release, Mutex.unlock, wakeUp, h]

theorem release_some {w : Nat} {ws : List Nat} (h : s.mutex.waiters = w :: ws) :
    release t s = ⟨⟨false, ws⟩, Function.update (Function.update s.pc t .outside) w .woken,
      s.ready ++ [w]⟩ := by
  simp [release, Mutex.unlock, wakeUp, h]

/-- The task that is inside leaves. A sleeper, if there is one, is woken up. -/
theorem Inv.release (h : Inv s) (hp : s.pc t = .inside) : Inv (release t s) := by
  have hout : ∀ u, Function.update s.pc t Pc.outside u ≠ .inside := by
    intro u hu
    rcases eq_or_ne u t with rfl | hut
    · simp at hu
    · rw [Function.update_of_ne hut] at hu
      exact hut (h.unique u t hu hp)
  have hkeep : ∀ x, x ≠ .inside → x ≠ .outside → ∀ u,
      (Function.update s.pc t Pc.outside u = x ↔ s.pc u = x) := by
    intro x hx hx' u
    rcases eq_or_ne u t with rfl | hut
    · simp [hp, hx.symm, hx'.symm]
    · rw [Function.update_of_ne hut]
  have hsleep := hkeep .sleeping (by decide) (by decide)
  have hwoken := hkeep .woken (by decide) (by decide)
  cases hq : s.mutex.waiters with
  | nil =>
    rw [release_none hq]
    refine ⟨fun u hu => absurd hu (hout u), fun u _ hu => absurd hu (hout u), fun u => ?_,
      List.nodup_nil, fun u => ?_, h.ready_once, fun _ hne => absurd rfl hne⟩
    · rw [hsleep, ← h.sleeping, hq]
    · rw [hwoken, h.woken]
  | cons w ws =>
    have hw : s.pc w = .sleeping := (h.sleeping w).mp (hq ▸ List.mem_cons_self)
    have honce := h.once
    rw [hq, List.nodup_cons] at honce
    have hnot : ∀ u,
        Function.update (Function.update s.pc t Pc.outside) w Pc.woken u ≠ .inside := by
      intro u hu
      rcases eq_or_ne u w with rfl | huw
      · simp at hu
      · rw [Function.update_of_ne huw] at hu
        exact hout u hu
    rw [release_some hq]
    refine ⟨fun u hu => absurd hu (hnot u), fun u _ hu => absurd hu (hnot u), fun u => ?_, honce.2,
      fun u => ?_, ?_, fun _ _ => by simp⟩
    · rcases eq_or_ne u w with rfl | huw
      · simp [honce.1]
      · show u ∈ ws ↔ Function.update (Function.update s.pc t Pc.outside) w Pc.woken u = .sleeping
        rw [Function.update_of_ne huw, hsleep, ← h.sleeping, hq, List.mem_cons, or_iff_right huw]
    · rcases eq_or_ne u w with rfl | huw
      · simp
      · show u ∈ s.ready ++ [w] ↔
          Function.update (Function.update s.pc t Pc.outside) w Pc.woken u = .woken
        rw [Function.update_of_ne huw, hwoken, List.mem_append, h.woken, List.mem_singleton,
          or_iff_left huw]
    · refine List.nodup_append.mpr ⟨h.ready_once, List.nodup_singleton w, ?_⟩
      rintro x hx y hy rfl
      rw [List.mem_singleton.mp hy, h.woken, hw] at hx
      cases hx

theorem Inv.step (h : Inv s) (hs : Step s a s') : Inv s' := by
  cases hs with
  | lock hp =>
    have hnot : _ ∉ s.ready := fun hr => by
      rw [(h.woken _).mp hr] at hp
      cases hp
    have hround := h.attempt (.inl hp)
    rwa [List.erase_of_not_mem hnot] at hround
  | resume hr => exact h.attempt (.inr ((h.woken _).mp hr))
  | unlock hp => exact h.release hp

/-- In every reachable state at most one task is inside, each sleeping task is in the wait queue
once, and if the mutex is free while tasks sleep, one that was woken up is in a run queue. -/
theorem mutex_safe {acts : List Act} (hrun : Run Step initial acts s) :
    (∀ t u, s.pc t = .inside → s.pc u = .inside → t = u) ∧
    (s.mutex.locked = false → s.mutex.waiters ≠ [] → ∃ t ∈ s.ready, s.pc t = .woken) ∧
    ∀ t, s.pc t = .sleeping → s.mutex.waiters.count t = 1 := by
  have h : Inv s := hrun.invariant (fun _ _ _ h hs => h.step hs) inv_initial
  refine ⟨h.unique, fun hfree hne => ?_, fun t ht => ?_⟩
  · obtain ⟨t, ht⟩ := List.exists_mem_of_ne_nil _ (h.pending hfree hne)
    exact ⟨t, ht, (h.woken t).mp ht⟩
  · exact List.count_eq_one_of_mem h.once ((h.sleeping t).mpr ht)

/-- Two tasks come while a third one is inside; when that leaves, one is still asleep. -/
theorem mutex_safe_two_waiters : ∃ s, Run Step initial [.lock 0, .lock 1, .lock 2, .unlock 0] s ∧
    s.mutex.locked = false ∧ s.mutex.waiters = [2] ∧ ∃ t ∈ s.ready, s.pc t = .woken := by
  have hrun : Run Step initial [.lock 0, .lock 1, .lock 2, .unlock 0]
      (release 0 (attempt 2 (attempt 1 (attempt 0 initial)))) :=
    .snoc (.snoc (.snoc (.single (.lock rfl)) (.lock rfl)) (.lock rfl)) (.unlock rfl)
  exact ⟨_, hrun, rfl, rfl, (mutex_safe hrun).2.1 rfl (by decide)⟩

end MutexSystem

end CoroCore
