import CoroCore.Proc.Scheduler

/-!
# `process_queue::pop`, one access at a time

`pop` holds the lock of the queue but not that of a process (`src/os/proc/scheduler.cc`). So the
state of an entry can change between two accesses to it, and `set_runnable` writes over what is
there. In `Poll` every access of the loop is a step, among the other steps of the system.

* `pop_uninterrupted`: if nothing comes in between, the accesses do what `Sys.pop` does.
* `Polls.step`: nothing but a kill between `waken_up` and `set_runnable` can make `pop` overwrite a
  state that is not `WAKEN_UP`.
-/

namespace CoroCore.Proc

open Lib Sys

variable {k : Config} {s s' s₀ : Sys} {a : Act} {c d p q : Nat}

/-- The next access of `pop` to the entry where it is. -/
inductive Look
  | wakenUp
  /-- `waken_up` was true. -/
  | setRunnable
  | ready
  /-- The comparison with `SLEEPING`, after `ready` and the check of `binding_core`. -/
  | sleeping
  deriving DecidableEq

/-- A `pop` that is going on: the entries that it went over, and those from the one where it is. -/
structure Pop where
  core : Nat
  seen : List Nat
  rest : List Nat
  look : Look

/-- The system, and the `pop` that has the lock of the queue. -/
structure Polled where
  sys : Sys
  pop : Option Pop

/-- `continue`. -/
def Pop.skip (r : Pop) (p : Nat) (rest : List Nat) : Pop := ⟨r.core, r.seen ++ [p], rest, .wakenUp⟩

/-- One access of the loop of `pop`. At the end of the queue the core gets its `last_choice`. -/
def Pop.access (k : Config) (r : Pop) (s : Sys) : Polled :=
  match r.rest with
  | [] =>
    match k.lastChoice r.core with
    | some p => ⟨s.setCore r.core (.chosen p), none⟩
    | none => ⟨s.setCore r.core .stopped, none⟩
  | p :: rest =>
    match r.look with
    | .wakenUp =>
      ⟨s, some { r with look := if (s.proc p).state = .wakenUp then .setRunnable else .ready }⟩
    | .setRunnable => ⟨s.setState p .runnable, some { r with look := .ready }⟩
    | .ready =>
      if (s.proc p).state ≠ .runnable then ⟨s, some (r.skip p rest)⟩
      else if !bound k r.core p then ⟨s, some (r.skip p rest)⟩
      else ⟨s, some { r with look := .sleeping }⟩
    | .sleeping =>
      if (s.proc p).state = .sleeping then ⟨s, some (r.skip p rest)⟩
      else ⟨{ s with queue := r.seen ++ rest }.setCore r.core (.chosen p), none⟩

inductive Move
  | act (a : Act)
  | pop (c : Nat)
  | access

/-- The steps of the system, with `pop` access by access. Whoever adds to the queue waits for its
lock. -/
inductive Poll (k : Config) : Polled → Move → Polled → Prop
  | act {s s' : Sys} {a : Act} {o : Option Pop} : Step k s a s' → (∀ c r, a ≠ .pop c r) →
      (o ≠ none → s'.queue = s.queue) → Poll k ⟨s, o⟩ (.act a) ⟨s', o⟩
  | pop {s : Sys} {c : Nat} : s.core c = .looking →
      Poll k ⟨s, none⟩ (.pop c) ⟨s, some ⟨c, [], s.queue, .wakenUp⟩⟩
  | access {s : Sys} {r : Pop} : Poll k ⟨s, some r⟩ .access (r.access k s)

/-- `pop` has read that `p` is `WAKEN_UP`, and will set it to `RUNNABLE`. -/
def Polled.Waking (u : Polled) (p : Nat) : Prop :=
  ∃ r rest, u.pop = some r ∧ r.rest = p :: rest ∧ r.look = .setRunnable

/-! ## Without interruption -/

/-- What `pop` does from the entries `l` on. -/
def Sys.popFrom (k : Config) (c : Nat) (seen l : List Nat) (s : Sys) : Sys :=
  match (scan k c s.proc seen l).2 with
  | some (p, rest) =>
    { s with proc := (scan k c s.proc seen l).1, queue := rest }.setCore c (.chosen p)
  | none =>
    match k.lastChoice c with
    | some p => { s with proc := (scan k c s.proc seen l).1 }.setCore c (.chosen p)
    | none => { s with proc := (scan k c s.proc seen l).1 }.setCore c .stopped

/-- One process woken. -/
theorem access_wake (s : Sys) (c p : Nat) (seen rest : List Nat) : ∃ n, Run (Poll k)
    ⟨s, some ⟨c, seen, p :: rest, .wakenUp⟩⟩ (List.replicate n .access)
    ⟨{ s with proc := setRunnable s.proc p }, some ⟨c, seen, p :: rest, .ready⟩⟩ := by
  have h := Poll.access (k := k) (s := s) (r := ⟨c, seen, p :: rest, .wakenUp⟩)
  simp only [Pop.access] at h
  unfold setRunnable
  split
  · next hw =>
    rw [if_pos hw] at h
    exact ⟨2, (Run.single h).snoc .access⟩
  · next hw =>
    rw [if_neg hw] at h
    exact ⟨1, Run.single h⟩

theorem popFrom_run (l : List Nat) : ∀ (s : Sys) (seen : List Nat), ∃ n, Run (Poll k)
    ⟨s, some ⟨c, seen, l, .wakenUp⟩⟩ (List.replicate n .access) ⟨s.popFrom k c seen l, none⟩ := by
  induction l with
  | nil =>
    intro s seen
    refine ⟨1, Run.single ?_⟩
    have h := Poll.access (k := k) (s := s) (r := ⟨c, seen, [], .wakenUp⟩)
    simp only [Pop.access] at h
    simp only [popFrom, scan]
    cases hlast : k.lastChoice c <;> rw [hlast] at h <;> exact h
  | cons p rest ih =>
    intro s seen
    obtain ⟨n, hwake⟩ := access_wake (k := k) s c p seen rest
    have hready := Poll.access (k := k) (s := { s with proc := setRunnable s.proc p })
      (r := ⟨c, seen, p :: rest, .ready⟩)
    -- the loop goes on to the next entry
    have hskip : ∀ {m}, Run (Poll k) ⟨s, some ⟨c, seen, p :: rest, .wakenUp⟩⟩
      (List.replicate m .access)
        ⟨{ s with proc := setRunnable s.proc p }, some ⟨c, seen ++ [p], rest, .wakenUp⟩⟩ →
        scan k c s.proc seen (p :: rest) = scan k c (setRunnable s.proc p) (seen ++ [p]) rest →
        ∃ n, Run (Poll k) ⟨s, some ⟨c, seen, p :: rest, .wakenUp⟩⟩ (List.replicate n .access)
          ⟨s.popFrom k c seen (p :: rest), none⟩ := by
      intro m hm heq
      obtain ⟨n', hn'⟩ := ih { s with proc := setRunnable s.proc p } (seen ++ [p])
      refine ⟨m + n', ?_⟩
      rw [List.replicate_add, popFrom, heq]
      exact hm.append hn'
    have hmore : ∀ {u v : Polled}, Run (Poll k) ⟨s, some ⟨c, seen, p :: rest, .wakenUp⟩⟩
        (List.replicate n .access) u → Poll k u .access v →
        Run (Poll k) ⟨s, some ⟨c, seen, p :: rest, .wakenUp⟩⟩
          (List.replicate (n + 1) .access) v := by
      intro u v hu hv
      rw [List.replicate_succ']
      exact hu.snoc hv
    simp only [Pop.access] at hready
    by_cases hrun : (setRunnable s.proc p p).state = .runnable
    · rw [if_neg (not_not.mpr hrun)] at hready
      by_cases hb : bound k c p = true
      · rw [if_neg (by rw [hb]; decide)] at hready
        have hlast := Poll.access (k := k) (s := { s with proc := setRunnable s.proc p })
          (r := ⟨c, seen, p :: rest, .sleeping⟩)
        simp only [Pop.access] at hlast
        rw [if_neg (by rw [hrun]; decide)] at hlast
        refine ⟨n + 1 + 1, ?_⟩
        rw [List.replicate_succ', popFrom, scan_cons, if_pos ⟨setRunnable_self.mp hrun, hb⟩]
        exact (hmore hwake hready).snoc hlast
      · rw [if_pos (by simpa using hb)] at hready
        exact hskip (hmore hwake hready) (by rw [scan_cons, if_neg fun h => hb h.2])
    · rw [if_pos hrun] at hready
      exact hskip (hmore hwake hready)
        (by rw [scan_cons, if_neg fun h => hrun (setRunnable_self.mpr h.1)])

/-- A `pop` with no other step in between is `Sys.pop`. -/
theorem pop_uninterrupted (hc : s.core c = .looking) :
    ∃ n, Run (Poll k) ⟨s, none⟩ (.pop c :: List.replicate n .access) ⟨s.pop k c, none⟩ := by
  obtain ⟨n, hrun⟩ := popFrom_run (k := k) (c := c) s.queue s []
  exact ⟨n, (Run.single (.pop hc)).append hrun⟩

/-- A step with `pop` in one is a run with `pop` access by access. -/
theorem Step.polled {ok : Polled → Move → Prop} (hpop : ∀ u m, (∀ a, m ≠ .act a) → ok u m)
    (hok : ok ⟨s, none⟩ (.act a)) (h : Step k s a s') :
    ∃ moves, Run (Guarded (Poll k) ok) ⟨s, none⟩ moves ⟨s', none⟩ := by
  by_cases ha : ∃ c r, a = .pop c r
  · obtain ⟨c, r, rfl⟩ := ha
    cases h with
    | pop hc =>
      obtain ⟨n, hrun⟩ := pop_uninterrupted (k := k) hc
      refine ⟨_, hrun.restrict fun u m hm => hpop u m fun a heq => ?_⟩
      subst heq
      rcases List.mem_cons.mp hm with hm | hm
      · cases hm
      · cases List.eq_of_mem_replicate hm
  · exact ⟨_, Run.single ⟨hok, .act h (fun c r heq => ha ⟨c, r, heq⟩) fun h => absurd rfl h⟩⟩

theorem guarded_polled {ok : Polled → Move → Prop} {ok' : Sys → Act → Prop} {acts : List Act}
    (hpop : ∀ u m, (∀ a, m ≠ .act a) → ok u m) (hok : ∀ s a, ok' s a → ok ⟨s, none⟩ (.act a))
    (h : Run (Guarded (Step k) ok') s acts s') :
    ∃ moves, Run (Guarded (Poll k) ok) ⟨s, none⟩ moves ⟨s', none⟩ := by
  induction h with
  | nil => exact ⟨_, Run.nil _⟩
  | snoc _ hs ih =>
    obtain ⟨ms, hms⟩ := ih
    obtain ⟨ns, hns⟩ := hs.2.polled hpop (hok _ _ hs.1)
    exact ⟨_, hms.append hns⟩

theorem run_polled {acts : List Act} (h : Run (Step k) s acts s') :
    ∃ moves, Run (Poll k) ⟨s, none⟩ moves ⟨s', none⟩ := by
  have hall : Run (Guarded (Step k) fun _ _ => True) s acts s' := h.restrict fun _ _ _ => trivial
  obtain ⟨moves, hrun⟩ :
    ∃ moves, Run (Guarded (Poll k) fun _ _ => True) ⟨s, none⟩ moves ⟨s', none⟩ :=
    guarded_polled (fun _ _ _ => trivial) (fun _ _ _ => trivial) hall
  exact ⟨moves, hrun.unguard⟩

/-! ## What other steps leave alone -/

theorem runBegin_proc (hq : q ≠ p) : (s.runBegin k c p).proc q = s.proc q := by
  have hset : (s.setState p .running).proc q = s.proc q := setProc_of_ne hq
  unfold runBegin
  cases k.kind p with
  | user =>
    simp only [userRunBegin]
    split <;> first | exact hset | rfl
  | kernel =>
    simp only [kernelRunBegin]
    split <;> first | exact hset | rfl

theorem runEnd_proc (hq : q ≠ p) : (s.runEnd k c p).proc q = s.proc q := by
  have hset : ∀ {t : Sys} {st : State}, (t.setState p st).proc q = t.proc q := setProc_of_ne hq
  have hclean : (s.clean k false p).proc q = s.proc q := clean_of_ne hq
  unfold runEnd
  cases k.kind p with
  | user =>
    simp only [userRunEnd]
    split <;> first | exact hset.trans hclean | exact hset | rfl
  | kernel =>
    simp only [kernelRunEnd]
    split <;> first | exact hset | exact hclean | rfl

/-- A process that is awake and that no core holds changes only by a kill, or by a `pop`. -/
theorem Step.proc_awake (h : Step k s a s') (hpop : ∀ c r, a ≠ .pop c r) (hkill : a ≠ .kill p)
    (hfree : ∀ c, ¬ Holds s c p) (hw : (s.proc p).state = .wakenUp) : s'.proc p = s.proc p := by
  have hne : ∀ {c q ph}, s.core c = ph → ph.process = some q → p ≠ q := by
    rintro c q ph hc hph rfl
    exact hfree c (by rw [Holds, hc, hph])
  cases h with
  | pop _ => exact absurd rfl (hpop _ _)
  | runBegin hc _ => exact runBegin_proc (hne hc rfl)
  | switchTo hc => exact setProc_of_ne (hne hc rfl)
  | exitClean hc _ =>
    show (s.clean k true _).proc p = s.proc p
    exact clean_of_ne (hne hc rfl)
  | exitCode hc _ => exact setProc_of_ne (hne hc rfl)
  | checkKilled hc _ _ _ =>
    have hp := hne hc rfl
    exact (setProc_of_ne hp).trans ((setProc_of_ne hp).trans (clean_of_ne hp))
  | funcReturn hc _ => exact setProc_of_ne (hne hc rfl)
  | switchBack hc => rcases hc with hc | hc <;> exact setProc_of_ne (hne hc rfl)
  | runEnd hc _ => exact runEnd_proc (hne hc rfl)
  | relock _ _ => rfl
  | push _ => rw [push_same.2]
  | @sleep q _ =>
    unfold Sys.sleep
    split
    · rfl
    · next hx =>
      refine setProc_of_ne ?_
      rintro rfl
      exact hx (by rw [hw]; decide)
  | @wakeUp q _ =>
    unfold Sys.wakeUp
    split
    · next hx =>
      refine setProc_of_ne ?_
      rintro rfl
      rw [hw] at hx
      cases hx
    · rfl
  | @kill q _ =>
    have hp : p ≠ q := by
      rintro rfl
      exact hkill rfl
    unfold Sys.kill
    split
    · exact (setProc_of_ne hp).trans (clean_of_ne hp)
    · exact setProc_of_ne hp
  | spawn _ _ => rfl
  | pages _ => rfl

/-- A core that looks for a process makes no other step than `pop`. -/
theorem Step.looking (h : Step k s a s') (hpop : ∀ c r, a ≠ .pop c r) (hd : s.core d = .looking) :
    s'.core d = .looking := by
  have hmove : ∀ {c ph ph'}, s.core c = ph → ph ≠ .looking →
    s'.core = Function.update s.core c ph' →
      s'.core d = .looking := by
    intro c ph ph' hc hph hcore
    rw [hcore, Function.update_of_ne, hd]
    rintro rfl
    exact hph (hc.symm.trans hd)
  cases h with
  | pop _ => exact absurd rfl (hpop _ _)
  | runBegin hc _ =>
    obtain ⟨ph, hcore⟩ := runBegin_core (k := k) (s := s)
    exact hmove hc nofun hcore
  | switchTo hc => exact hmove hc nofun rfl
  | exitClean hc _ => exact hmove hc nofun rfl
  | exitCode hc _ => exact hmove hc nofun rfl
  | checkKilled hc _ _ _ => exact hmove hc nofun rfl
  | funcReturn hc _ => exact hmove hc nofun rfl
  | switchBack hc => rcases hc with hc | hc <;> exact hmove hc nofun rfl
  | runEnd hc _ =>
    obtain ⟨ph, hcore⟩ := runEnd_core (k := k) (s := s)
    exact hmove hc nofun hcore
  | relock hc _ => exact hmove hc nofun rfl
  | push hc => exact hmove hc nofun push_same.1
  | sleep _ => rw [sleep_same.1, hd]
  | wakeUp _ => rw [wakeUp_same.1, hd]
  | kill _ => rw [kill_same.1, hd]
  | spawn _ _ => exact hd
  | pages _ => exact hd

/-! ## The invariant of a `pop` -/

/-- The queue is as `pop` found it, its core does nothing else, the process that it wakes is still
`WAKEN_UP`, and the one that it is about to take may run on the core. -/
structure Pop.Going (k : Config) (r : Pop) (s : Sys) : Prop where
  queue : s.queue = r.seen ++ r.rest
  core : s.core r.core = .looking
  waking : ∀ p rest, r.rest = p :: rest → r.look = .setRunnable → (s.proc p).state = .wakenUp
  may : ∀ p rest, r.rest = p :: rest → r.look = .sleeping → bound k r.core p = true

/-- How an access ends: `pop` goes on, or the core has chosen a process or stops. -/
inductive Pop.Ends (k : Config) (r : Pop) (s : Sys) (u : Polled) : Prop
  | goesOn (r' : Pop) (pop : u.pop = some r') (going : r'.Going k u.sys)
    (core : u.sys.core = s.core)
  | chosen (ph : Phase) (pop : u.pop = none) (phase : (∃ p, ph = .chosen p) ∨ ph = .stopped)
      (core : u.sys.core = Function.update s.core r.core ph)

theorem Pop.Going.proc {r : Pop} (h : r.Going k s) (q : Nat) :
    (r.access k s).sys.proc q = s.proc q ∨ ((s.proc q).state = .wakenUp ∧
      (r.access k s).sys.proc q = { s.proc q with state := .runnable }) := by
  unfold Pop.access
  split
  · split <;> exact .inl rfl
  next p rest hrest =>
  split
  · exact .inl rfl
  · next hlook =>
    rcases eq_or_ne q p with rfl | hne
    · exact .inr ⟨h.waking q rest hrest hlook, setProc_self⟩
    · exact .inl (setProc_of_ne hne)
  · split
    · exact .inl rfl
    · split <;> exact .inl rfl
  · split <;> exact .inl rfl

theorem Pop.Going.skip {r : Pop} {rest : List Nat} (h : r.Going k s) (hrest : r.rest = p :: rest) :
    (r.skip p rest).Going k s where
  queue := by
    rw [h.queue, hrest]
    simp [Pop.skip]
  core := h.core
  waking _ _ _ hlook := by cases hlook
  may _ _ _ hlook := by cases hlook

theorem Pop.Going.ends {r : Pop} (h : r.Going k s) : r.Ends k s (r.access k s) := by
  unfold Pop.access
  split
  · split
    · next p _ => exact .chosen (.chosen p) rfl (.inl ⟨p, rfl⟩) rfl
    · exact .chosen .stopped rfl (.inr rfl) rfl
  next p rest hrest =>
  split
  · refine .goesOn _ rfl ⟨h.queue, h.core, fun q l hq hlook => ?_, fun q l _ hlook => ?_⟩ rfl
    · obtain ⟨rfl, -⟩ := List.cons.inj (hrest.symm.trans hq)
      by_contra hw
      rw [if_neg hw] at hlook
      cases hlook
    · dsimp only at hlook
      split at hlook <;> cases hlook
  · refine .goesOn _ rfl ⟨h.queue, h.core, fun _ _ _ hlook => ?_, fun _ _ _ hlook => ?_⟩ rfl <;>
      cases hlook
  · split
    · exact .goesOn _ rfl (h.skip hrest) rfl
    · split
      · exact .goesOn _ rfl (h.skip hrest) rfl
      · next hb =>
        refine .goesOn _ rfl ⟨h.queue, h.core, fun _ _ _ hlook => ?_, fun q l hq _ => ?_⟩ rfl
        · cases hlook
        · obtain ⟨rfl, -⟩ := List.cons.inj (hrest.symm.trans hq)
          simpa using hb
  · split
    · exact .goesOn _ rfl (h.skip hrest) rfl
    · exact .chosen (.chosen p) rfl (.inl ⟨p, rfl⟩) rfl

theorem Pop.Going.change {r : Pop} (h : r.Going k s) : Change k s (r.access k s).sys := by
  have hstay : Change k s s := .stay rfl rfl (fun _ => rfl) fun _ => .inl rfl
  unfold Pop.access
  split
  · split
    · next p hlast => exact .idle r.core p h.core hlast rfl rfl rfl rfl
    · exact .move .stopped (by rw [h.core]; rfl) rfl rfl rfl rfl
  next p rest hrest =>
  split
  · exact hstay
  · exact .stay rfl rfl (fun _ => rfl) fun _ => .inl rfl
  · split
    · exact hstay
    · split <;> exact hstay
  · next hlook =>
    split
    · exact hstay
    · exact .take r.core p r.seen rest h.core (h.may p rest hrest hlook)
        (hrest ▸ h.queue) rfl rfl rfl rfl

/-- What holds in every state, if no process is killed that a `pop` is about to wake. -/
structure Polls (k : Config) (u : Polled) : Prop where
  placed : Placed k u.sys
  tracked : Tracked u.sys
  going : ∀ r, u.pop = some r → r.Going k u.sys

theorem Placed.free (h : Placed k s) (hp : p ∈ s.queue) (c : Nat) : ¬ Holds s c p := by
  cases h.place p with
  | idle _ _ _ hq _ => exact absurd hp hq
  | new _ _ hq _ _ => exact absurd hp hq
  | queued _ _ _ hf _ => exact hf c
  | held _ _ _ hq _ _ _ => exact absurd hp hq
  | finished _ _ hq _ _ => exact absurd hp hq

theorem Polls.access {r : Pop} (h : Polls k ⟨s, some r⟩) : Polls k (r.access k s) := by
  have hgoing := h.going r rfl
  have hflags : SameFlags s (r.access k s).sys := fun q => by
    rcases hgoing.proc q with hq | ⟨-, hq⟩ <;> rw [hq] <;> exact ⟨rfl, rfl⟩
  have hterm : ∀ q, (s.proc q).state.Terminal → ((r.access k s).sys.proc q).state.Terminal := by
    intro q hq
    rcases hgoing.proc q with h | ⟨hw, -⟩
    · rwa [h]
    · rw [hw] at hq
      exact absurd hq (by decide)
  refine ⟨h.placed.change hgoing.change hterm, ?_, fun r' hr' => ?_⟩
  · cases hgoing.ends with
    | goesOn _ _ _ hcore => exact h.tracked.stay hterm hflags hcore
    | chosen _ _ _ hcore =>
      refine h.tracked.move hterm hflags hcore (fun q _ hq => ?_) fun q hq => ?_
      · rw [hgoing.core] at hq
        cases hq.process
      · rw [hgoing.core] at hq
        cases hq.process
  · cases hgoing.ends with
    | goesOn r'' hpop hr'' _ =>
      obtain rfl := Option.some.inj (hpop.symm.trans hr')
      exact hr''
    | chosen _ hpop _ _ =>
      rw [hpop] at hr'
      cases hr'

/-- If no process is killed that a `pop` is about to wake, then `pop` overwrites no other state than
`WAKEN_UP`. -/
theorem Polls.step {u v : Polled} {m : Move} (h : Polls k u)
    (hkill : ∀ p, m = .act (.kill p) → ¬ u.Waking p) (hs : Poll k u m v) : Polls k v := by
  cases hs with
  | @act s s' a o hs hpop hqueue =>
    refine ⟨h.placed.step hs, h.tracked.step hs, fun r hr => ?_⟩
    cases hr
    have hgoing := h.going r rfl
    refine ⟨(hqueue nofun).trans hgoing.queue, hs.looking hpop hgoing.core,
      fun p rest hrest hlook => ?_, hgoing.may⟩
    have hw := hgoing.waking p rest hrest hlook
    have hp : p ∈ s.queue := by
      rw [hgoing.queue, hrest]
      exact List.mem_append_right _ List.mem_cons_self
    rw [hs.proc_awake hpop (fun ha => hkill p (ha ▸ rfl) ⟨r, rest, rfl, hrest, hlook⟩)
      (h.placed.free hp) hw, hw]
  | pop hc =>
    refine ⟨h.placed, h.tracked, fun r hr => ?_⟩
    cases hr
    refine ⟨rfl, hc, fun _ _ _ hlook => ?_, fun _ _ _ hlook => ?_⟩ <;> cases hlook
  | access => exact h.access

theorem Start.polls (h : Start k s₀) : Polls k ⟨s₀, none⟩ := ⟨h.placed, h.tracked, nofun⟩

end CoroCore.Proc
