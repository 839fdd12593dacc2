import CoroCore.Atomic.Mutex

/-!
# `file_rw_lock`: `fs/file.h`

`lock` takes the mutex of the inode and sets `in_rw`, which tells `read` and `write` between `lock`
and `unlock` not to take it. The flag is one of the file, not of the task: a task that finds it set
goes past the mutex, whoever set it. `file_lock_ok`: in every run in which this branch is taken only
by the task that is between its own `lock` and `unlock`,

* nobody else reads, writes or is between `lock` and `unlock` in that time;
* the mutex is locked and unlocked in turn, each time by the same task.

`file_lock_bypassed` has the shortest runs in which the one and the other fail.
-/

namespace CoroCore

open Lib

namespace FileLock

/-- The functions that call `__file_rw_lock.lock`: `file_rw_lock.lock`, and `read` or `write`, which
the task calls between `lock` and `unlock` or not. -/
inductive Caller
  | lock
  | rw (inside : Bool)
  deriving DecidableEq

/-- Where a task is: in `coro_mutex::lock`, in the `load` of `get`, between `lock` and `unlock`, in
the inode's `read` or `write`. -/
inductive Pc
  | outside
  | waiting (c : Caller)
  | loading (c : Caller)
  | section
  | running (inside : Bool)
  deriving DecidableEq

/-- The mutex is locked or unlocked by a task. -/
inductive Event
  | get (t : Nat)
  | put (t : Nat)
  deriving DecidableEq

/-- The file and its inode, the tasks, those in a run queue, and what was done with the mutex. -/
structure Sys where
  inRw : Bool
  mutex : Mutex
  pc : Nat → Pc
  ready : List Nat
  log : List Event

inductive Act
  | lock (t : Nat)
  | rw (t : Nat)
  | resume (t : Nat)
  | loaded (t : Nat)
  | done (t : Nat)
  | unlock (t : Nat)

variable {s s' : Sys} {t : Nat} {a : Act}

/-- A round of the loop of `coro_mutex::lock`. -/
def attempt (t : Nat) (c : Caller) (s : Sys) : Sys :=
  if (s.mutex.tryLock t).1 then
    { s with mutex := (s.mutex.tryLock t).2, pc := Function.update s.pc t (.loading c),
             log := s.log ++ [.get t] }
  else { s with mutex := (s.mutex.tryLock t).2, pc := Function.update s.pc t (.waiting c) }

/-- What follows `__file_rw_lock.lock`. -/
def enter (t : Nat) (c : Caller) (s : Sys) : Sys :=
  match c with
  | .lock => { s with inRw := true, pc := Function.update s.pc t .section }
  | .rw inside => { s with pc := Function.update s.pc t (.running inside) }

/-- `__file_rw_lock.lock`. -/
def acquire (t : Nat) (c : Caller) (s : Sys) : Sys :=
  if s.inRw then enter t c s else attempt t c s

/-- `__file_rw_lock.unlock`, after which the task is at `p`. -/
def release (t : Nat) (p : Pc) (s : Sys) : Sys :=
  if s.inRw then { s with pc := Function.update s.pc t p }
  else
    { s with mutex := s.mutex.unlock.2, pc := Function.update s.pc t p,
             ready := s.ready ++ s.mutex.unlock.1.toList, log := s.log ++ [.put t] }

/-- What a task does up to its next `co_await`. -/
inductive Step : Sys → Act → Sys → Prop
  | lock {s : Sys} {t : Nat} : s.pc t = .outside → Step s (.lock t) (acquire t .lock s)
  | rw {s : Sys} {t : Nat} : s.pc t = .outside → Step s (.rw t) (acquire t (.rw false) s)
  | rwInside {s : Sys} {t : Nat} : s.pc t = .section → Step s (.rw t) (acquire t (.rw true) s)
  | resume {s : Sys} {t : Nat} {c : Caller} : t ∈ s.ready → s.pc t = .waiting c →
      Step s (.resume t) (attempt t c { s with ready := s.ready.erase t })
  | loaded {s : Sys} {t : Nat} {c : Caller} : s.pc t = .loading c →
      Step s (.loaded t) (enter t c s)
  | done {s : Sys} {t : Nat} {inside : Bool} : s.pc t = .running inside →
      Step s (.done t) (release t (if inside then .section else .outside) s)
  | unlock {s : Sys} {t : Nat} : s.pc t = .section →
      Step s (.unlock t) (release t .outside { s with inRw := false })

def initial : Sys := ⟨false, ⟨false, []⟩, fun _ => .outside, [], []⟩

/-! ## What a lock has to do -/

/-- The task is between its `lock` and its `unlock`. -/
def Pc.Locked : Pc → Prop
  | .section => True
  | .running inside => inside = true
  | .waiting c => c = .rw true
  | .loading c => c = .rw true
  | .outside => False

/-- The task reads or writes. -/
def Pc.Running : Pc → Prop
  | .running _ => True
  | _ => False

/-- The events of tasks that lock and unlock one after the other. -/
def pairs (ts : List Nat) : List Event := ts.flatMap fun t => [.get t, .put t]

theorem pairs_length (ts : List Nat) : (pairs ts).length = 2 * ts.length := by
  induction ts with
  | nil => rfl
  | cons t ts ih =>
    show (pairs ts).length + 1 + 1 = 2 * (ts.length + 1)
    rw [ih]
    rfl

/-- A task that is between `lock` and `unlock` is alone, and the mutex is locked and unlocked in
turn, each time by the same task. -/
structure Safe (s : Sys) : Prop where
  alone : ∀ t u, t ≠ u → (s.pc t).Locked → ¬(s.pc u).Locked ∧ ¬(s.pc u).Running
  paired : ∃ ts, s.log = pairs ts ∨ ∃ t, s.log = pairs ts ++ [.get t]

/-- The flag is set only while the task that finds it set is between `lock` and `unlock`. -/
def Own (s : Sys) : Act → Prop
  | .lock _ => s.inRw = false
  | .rw t => s.inRw = true → s.pc t = .section
  | _ => True

/-! ## The invariant -/

/-- A task that has no part of the lock. -/
def Pc.Away (p : Pc) : Prop := p = .outside ∨ p = .waiting .lock ∨ p = .waiting (.rw false)

instance (p : Pc) : Decidable p.Away := inferInstanceAs (Decidable (_ ∨ _ ∨ _))

/-- Where the task that has the mutex is, with the flag. -/
def Pc.Owns (b : Bool) : Pc → Prop
  | .loading .lock => b = false
  | .loading (.rw inside) => b = false ∧ inside = false
  | .running inside => b = inside
  | .section => b = true
  | _ => False

/-- The mutex is free, or one task has it; the flag is set only by that task. -/
inductive Inv (s : Sys) : Prop
  | free (ts : List Nat) (hlog : s.log = pairs ts) (hlocked : s.mutex.locked = false)
      (hflag : s.inRw = false) (haway : ∀ u, (s.pc u).Away) : Inv s
  | held (ts : List Nat) (t : Nat) (hlog : s.log = pairs ts ++ [.get t])
      (hlocked : s.mutex.locked = true) (howns : (s.pc t).Owns s.inRw)
      (haway : ∀ u, u ≠ t → (s.pc u).Away) : Inv s

theorem Pc.Away.not_locked {p : Pc} (h : p.Away) : ¬p.Locked ∧ ¬p.Running := by
  rcases h with rfl | rfl | rfl
  · exact ⟨id, id⟩
  · exact ⟨(nomatch ·), id⟩
  · exact ⟨(nomatch ·), id⟩

theorem inv_initial : Inv initial := .free [] rfl rfl rfl fun _ => .inl rfl

theorem Inv.safe (h : Inv s) : Safe s := by
  cases h with
  | free ts hlog _ _ haway =>
    exact ⟨fun t _ _ ht => absurd ht (haway t).not_locked.1, ts, .inl hlog⟩
  | held ts t hlog _ _ haway =>
    refine ⟨fun u v huv hu => ?_, ts, .inr ⟨t, hlog⟩⟩
    -- the task in the section is the one that has the mutex
    have hut : u = t := by
      by_contra hne
      exact (haway u hne).not_locked.1 hu
    exact (haway v fun he => huv (hut.trans he.symm)).not_locked

theorem away_update {pc : Nat → Pc} {p : Pc} (h : ∀ u, u ≠ t → (pc u).Away) :
    ∀ u, u ≠ t → (Function.update pc t p u).Away := fun u hu => by
  rw [Function.update_of_ne hu]
  exact h u hu

theorem away_update_all {pc : Nat → Pc} {p : Pc} (h : ∀ u, u ≠ t → (pc u).Away) (hp : p.Away) :
    ∀ u, (Function.update pc t p u).Away := fun u => by
  rcases eq_or_ne u t with rfl | hu
  · rw [Function.update_self]
    exact hp
  · exact away_update h u hu

/-- The task that has the mutex is not away. -/
theorem Pc.Owns.not_away {b : Bool} {p : Pc} (h : p.Owns b) : ¬p.Away := by
  rintro (rfl | rfl | rfl) <;> exact h

theorem attempt_free {c : Caller} (h : s.mutex.locked = false) : attempt t c s =
    { s with mutex := ⟨true, s.mutex.waiters⟩, pc := Function.update s.pc t (.loading c),
             log := s.log ++ [.get t] } := by
  simp [attempt, Mutex.tryLock, h]

theorem attempt_locked {c : Caller} (h : s.mutex.locked = true) : attempt t c s =
    { s with mutex := ⟨true, s.mutex.waiters ++ [t]⟩,
             pc := Function.update s.pc t (.waiting c) } := by
  simp [attempt, Mutex.tryLock, h]

/-- A task from outside, or one that was woken up, tries to lock the mutex. -/
theorem Inv.attempt {c : Caller} (h : Inv s) (hp : (s.pc t).Away) (hc : (Pc.waiting c).Away) :
    Inv (attempt t c s) := by
  cases h with
  | free ts hlog hlocked hflag haway =>
    rw [attempt_free hlocked]
    refine .held ts t (congrArg (· ++ [.get t]) hlog) rfl ?_ (away_update fun u _ => haway u)
    show (Function.update s.pc t (.loading c) t).Owns s.inRw
    rw [Function.update_self, hflag]
    rcases hc with hc | hc | hc <;> cases hc
    · rfl
    · exact ⟨rfl, rfl⟩
  | held ts v hlog hlocked hv haway =>
    have hvt : v ≠ t := by
      rintro rfl
      exact hv.not_away hp
    rw [attempt_locked hlocked]
    refine .held ts v hlog rfl ?_ fun u hu => ?_
    · show (Function.update s.pc t (.waiting c) v).Owns s.inRw
      rw [Function.update_of_ne hvt]
      exact hv
    · show (Function.update s.pc t (.waiting c) u).Away
      rcases eq_or_ne u t with rfl | hut
      · rw [Function.update_self]
        exact hc
      · rw [Function.update_of_ne hut]
        exact haway u hu

/-- The task that has the mutex gives it back. -/
theorem Inv.release {ts : List Nat} (hlog : s.log = pairs ts ++ [.get t]) (hflag : s.inRw = false)
    (haway : ∀ u, u ≠ t → (s.pc u).Away) : Inv (release t .outside s) := by
  unfold FileLock.release
  rw [hflag]
  refine .free (ts ++ [t]) ?_ rfl rfl (away_update_all haway (.inl rfl))
  show s.log ++ [.put t] = pairs (ts ++ [t])
  rw [hlog, pairs, pairs, List.flatMap_append, List.append_assoc]
  rfl

/-- A task comes to the flag. -/
theorem Inv.acquire {c : Caller} (h : Inv s) (hp : (s.pc t).Away) (hc : (Pc.waiting c).Away)
    (hflag : s.inRw = false) : Inv (acquire t c s) := by
  unfold FileLock.acquire
  rw [hflag]
  exact h.attempt hp hc

/-- The task that has the mutex moves on, and keeps it. -/
theorem Inv.move {ts : List Nat} {b : Bool} {p : Pc} (hlog : s.log = pairs ts ++ [.get t])
    (hlocked : s.mutex.locked = true) (haway : ∀ u, u ≠ t → (s.pc u).Away) (hp : p.Owns b) :
    Inv { s with inRw := b, pc := Function.update s.pc t p } := by
  refine .held ts t hlog hlocked ?_ (away_update haway)
  show (Function.update s.pc t p t).Owns b
  rw [Function.update_self]
  exact hp

/-- A task that is not away is the one that has the mutex. -/
theorem Inv.owner (h : Inv s) (hp : ¬(s.pc t).Away) : ∃ ts, s.log = pairs ts ++ [.get t] ∧
    s.mutex.locked = true ∧ (s.pc t).Owns s.inRw ∧ ∀ u, u ≠ t → (s.pc u).Away := by
  cases h with
  | free _ _ _ _ haway => exact absurd (haway t) hp
  | held ts v hlog hlocked hv haway =>
    obtain rfl : t = v := by
      by_contra hne
      exact hp (haway t hne)
    exact ⟨ts, hlog, hlocked, hv, haway⟩

theorem Inv.enter {c : Caller} (h : Inv s) (hp : s.pc t = .loading c) : Inv (enter t c s) := by
  obtain ⟨ts, hlog, hlocked, hv, haway⟩ := h.owner (t := t) (by
    rw [hp]
    rintro (hw | hw | hw) <;> cases hw)
  rw [hp] at hv
  cases c with
  | lock => exact Inv.move hlog hlocked haway rfl
  | rw inside =>
    obtain ⟨hflag, rfl⟩ := hv
    exact Inv.move hlog hlocked haway hflag

theorem Inv.done {inside : Bool} (h : Inv s) (hp : s.pc t = .running inside) :
    Inv (FileLock.release t (if inside then .section else .outside) s) := by
  obtain ⟨ts, hlog, hlocked, hv, haway⟩ := h.owner (t := t) (by
    rw [hp]
    rintro (hw | hw | hw) <;> cases hw)
  rw [hp] at hv
  have hflag : s.inRw = inside := hv
  cases inside with
  | true =>
    unfold FileLock.release
    rw [if_pos hflag, if_pos rfl]
    exact Inv.move hlog hlocked haway hflag
  | false => exact Inv.release hlog hflag haway

theorem Inv.step (h : Inv s) (ho : Own s a) (hs : Step s a s') : Inv s' := by
  cases hs with
  | lock hp => exact h.acquire (.inl hp) (.inr (.inl rfl)) ho
  | rw hp =>
    refine h.acquire (.inl hp) (.inr (.inr rfl)) (Bool.eq_false_iff.mpr fun hflag => ?_)
    rw [ho hflag] at hp
    cases hp
  | @rwInside t hp =>
    obtain ⟨ts, hlog, hlocked, hv, haway⟩ := h.owner (t := t) (by rw [hp]; decide)
    rw [hp] at hv
    have hflag : s.inRw = true := hv
    unfold FileLock.acquire
    rw [if_pos hflag]
    exact Inv.move hlog hlocked haway hflag
  | @resume t c hr hp =>
    have hc : (Pc.waiting c).Away := by
      by_contra hnot
      obtain ⟨-, -, -, hv, -⟩ := h.owner (t := t) (by rwa [hp])
      rw [hp] at hv
      exact hv
    refine Inv.attempt ?_ (by rw [hp]; exact hc) hc
    cases h with
    | free ts hlog hlocked hflag haway => exact .free ts hlog hlocked hflag haway
    | held ts v hlog hlocked hv haway => exact .held ts v hlog hlocked hv haway
  | loaded hp => exact h.enter hp
  | done hp => exact h.done hp
  | @unlock t hp =>
    obtain ⟨ts, hlog, hlocked, hv, haway⟩ := h.owner (t := t) (by rw [hp]; decide)
    exact Inv.release hlog rfl haway

/-- In every run in which only the task between its `lock` and `unlock` finds the flag set, this
task is alone, and the mutex is locked and unlocked in pairs. -/
theorem file_lock_ok {acts : List Act} (hrun : Run (Guarded Step Own) initial acts s) : Safe s :=
  (hrun.invariant (fun _ _ _ h hs => h.step hs.1 hs.2) inv_initial).safe

/-- A task with the lock reads, and then another one gets it. -/
theorem file_lock_ok_two : ∃ s, Run (Guarded Step Own) initial
    [.lock 0, .loaded 0, .rw 0, .done 0, .unlock 0, .lock 1, .loaded 1] s ∧ Safe s := by
  have hrun : Run (Guarded Step Own) initial
      [.lock 0, .loaded 0, .rw 0, .done 0, .unlock 0, .lock 1, .loaded 1] _ :=
    .snoc (.snoc (.snoc (.snoc (.snoc (.snoc (.single ⟨rfl, .lock rfl⟩) ⟨trivial, .loaded rfl⟩)
      ⟨fun _ => rfl, .rwInside rfl⟩) ⟨trivial, .done rfl⟩) ⟨trivial, .unlock rfl⟩)
      ⟨rfl, .lock rfl⟩) ⟨trivial, .loaded rfl⟩
  exact ⟨_, hrun, file_lock_ok hrun⟩

/-- Task 1 reads while task 0 is between `lock` and `unlock`; and when it is done after task 0, it
unlocks the mutex that it never locked. -/
theorem file_lock_bypassed :
    (∃ s, Run Step initial [.lock 0, .loaded 0, .rw 1] s ∧ (s.pc 0).Locked ∧ (s.pc 1).Running ∧
      ¬Safe s) ∧
    ∃ s, Run Step initial [.lock 0, .loaded 0, .rw 1, .unlock 0, .done 1] s ∧
      s.log = [.get 0, .put 0, .put 1] ∧ ¬Safe s := by
  have hread : Run Step initial [.lock 0, .loaded 0, .rw 1] _ :=
    .snoc (.snoc (.single (.lock rfl)) (.loaded rfl)) (.rw rfl)
  have hdone : Run Step initial [.lock 0, .loaded 0, .rw 1, .unlock 0, .done 1] _ :=
    .snoc (.snoc hread (.unlock rfl)) (.done rfl)
  refine ⟨⟨_, hread, trivial, trivial, fun h => (h.alone 0 1 (by decide) trivial).2 trivial⟩, _,
    hdone, rfl, ?_⟩
  rintro ⟨-, ts, hlog | ⟨t, hlog⟩⟩
  · have hlength := (congrArg List.length hlog).trans (pairs_length ts)
    change 3 = 2 * ts.length at hlength
    omega
  · have hlast := congrArg List.getLast? hlog
    rw [List.getLast?_concat] at hlast
    cases hlast

end FileLock

end CoroCore
