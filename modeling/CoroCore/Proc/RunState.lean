import CoroCore.Proc.Scheduler

/-!
# The states that `run` meets

`run` panics if it is called on a process that is neither runnable nor ended, or if a slice ends
in a state that it does not expect. Three things lead there: an idle process that is still
`WAKEN_UP` when it is chosen, since only the scan of the queue makes a process runnable; a kill of
a kernel process that is running; and a kernel process with a parent, which ends as a zombie. If
none of them happens, no panic is reached (`run_state_expected`).
-/

namespace CoroCore.Proc

open Lib Sys

variable {k : Config} {s s' s₀ : Sys} {a : Act} {acts : List Act} {c d p : Nat} {x y : State}

/-- The states in which `run` of the process may be called. -/
def Startable (k : Config) (p : Nat) (x : State) : Prop :=
  x = .runnable ∨ x = .exited ∨ (x = .zombie ∧ k.kind p = .user)

/-- The states that the last section of `run` expects. -/
def Handled (k : Config) (p : Nat) (x : State) : Prop :=
  match k.kind p with
  | .user => x ≠ .init ∧ x ≠ .allocated
  | .kernel => x = .running ∨ x = .exited ∨ x = .sleeping ∨ x = .runnable ∨ x = .wakenUp

/-- The core that calls `pop` gets a process from the queue, or its idle process may be run, and
no kernel process is killed while it is `RUNNING`. -/
def Calm (k : Config) (s : Sys) : Act → Prop
  | .pop c _ => (∃ p ∈ s.queue, (s.proc p).state.Ready ∧ bound k c p = true) ∨
      ∀ p, k.lastChoice c = some p → Startable k p (s.proc p).state
  | .kill p => k.kind p = .kernel → (s.proc p).state ≠ .running
  | _ => True

/-- Neither of the two panics of `run` has happened, or will happen in the next section. -/
structure Expected (k : Config) (s : Sys) : Prop where
  startable : ∀ c p, s.core c = .chosen p → Startable k p (s.proc p).state
  handled : ∀ c p, s.core c = .switched p → Handled k p (s.proc p).state
  noPanic : ∀ c p, s.core c ≠ .panicked p .notRunnable ∧ s.core c ≠ .panicked p .invalidState

/-- What the state of a process is when a core holds it in this phase. -/
def Fits (k : Config) (s : Sys) : Phase → Prop
  | .chosen p => Startable k p (s.proc p).state
  | .entered p | .executing p | .exiting p | .leaving p | .switched p =>
      Handled k p (s.proc p).state
  | .panicked _ why => why = .relock
  | .looking | .stopped | .pushing _ => True

theorem Placed.unique (h : Placed k s) (hc : Holds s c p) (hd : Holds s d p) : c = d := by
  cases h.place p with
  | idle _ _ _ _ hown => exact (hown c hc).trans (hown d hd).symm
  | new _ _ _ hf _ => exact absurd hc (hf c)
  | queued _ _ _ hf _ => exact absurd hc (hf c)
  | held _ _ _ _ _ hown _ => exact (hown c hc).trans (hown d hd).symm
  | finished _ _ _ hf _ => exact absurd hc (hf c)

section

variable (hparent : ∀ p, k.kind p = .kernel → k.hasParent p = false)
include hparent

theorem exitState_startable : Startable k p (exitState k p) := by
  unfold exitState
  cases hk : k.kind p with
  | user =>
    split
    · exact .inr (.inr ⟨rfl, hk⟩)
    · exact .inr (.inl rfl)
  | kernel =>
    rw [hparent p hk]
    exact .inr (.inl rfl)

theorem exitState_handled : Handled k p (exitState k p) := by
  unfold Handled
  rcases exitState_startable hparent (p := p) with h | h | ⟨h, hk⟩
  · rw [h]
    cases k.kind p
    · exact ⟨nofun, nofun⟩
    · exact .inr (.inr (.inr (.inl rfl)))
  · rw [h]
    cases k.kind p
    · exact ⟨nofun, nofun⟩
    · exact .inr (.inl rfl)
  · rw [h, hk]
    exact ⟨nofun, nofun⟩

/-- A process stays startable until `run` starts it. -/
theorem Turn.startable (h : Turn k s a p x y) (hrun : ∀ c, a = .runBegin c → s.core c ≠ .chosen p)
    (hx : Startable k p x) : Startable k p y := by
  cases h with
  | same => exact hx
  | exit => exact exitState_startable hparent
  | start ha hc => exact absurd hc (hrun _ ha)
  | ready | again | sleep | wake | kill => rcases hx with h | h | ⟨h, -⟩ <;> cases h

/-- A process that `run` can handle stays so. -/
theorem Turn.handled (h : Turn k s a p x y)
    (hkill : a = .kill p → k.kind p = .kernel → x ≠ .running) (hx : Handled k p x) :
    Handled k p y := by
  cases h with
  | same => exact hx
  | exit => exact exitState_handled hparent
  | kill ha =>
    unfold Handled
    cases hk : k.kind p with
    | user => exact ⟨nofun, nofun⟩
    | kernel => exact absurd rfl (hkill ha hk)
  | ready | start | again | sleep | wake =>
    unfold Handled
    cases k.kind p
    · exact ⟨nofun, nofun⟩
    · decide

theorem Step.handled (hs : Step k s a s') (hcalm : Calm k s a) (h : Handled k p (s.proc p).state) :
    Handled k p (s'.proc p).state := by
  refine (hs.turn p).handled hparent (fun ha hk => ?_) h
  subst ha
  exact hcalm hk

/-- A core that makes no step. -/
theorem Fits.frame (hplaced : Placed k s) (hs : Step k s a s') (hcalm : Calm k s a)
    (hother : ∀ c, a = .runBegin c → c ≠ d) (h : Fits k s (s.core d)) : Fits k s' (s.core d) := by
  generalize hph : s.core d = ph at h
  have hholds : ∀ {p}, ph.process = some p → Holds s d p := fun hp => by rwa [Holds, hph]
  cases ph with
  | chosen p =>
    refine (hs.turn p).startable hparent (fun c ha hc => hother c ha ?_) h
    exact hplaced.unique (by rw [Holds, hc]; rfl) (hholds rfl)
  | entered p | executing p | exiting p | leaving p | switched p => exact hs.handled hparent hcalm h
  | panicked p why => exact h
  | looking | stopped | pushing p => trivial

/-- Only core `c` makes a step, and it goes to phase `ph`. -/
theorem Fits.move {ph : Phase} (hplaced : Placed k s) (hs : Step k s a s') (hcalm : Calm k s a)
    (hother : ∀ e, a = .runBegin e → e = c) (hcore : s'.core = Function.update s.core c ph)
    (h : ∀ d, Fits k s (s.core d)) (hph : Fits k s' ph) (d : Nat) : Fits k s' (s'.core d) := by
  rw [hcore]
  rcases eq_or_ne d c with rfl | hne
  · rw [Function.update_self]
    exact hph
  · rw [Function.update_of_ne hne]
    exact Fits.frame hparent hplaced hs hcalm (fun e he hed => hne (hed ▸ hother e he)) (h d)

/-- No core makes a step. -/
theorem Fits.stay (hplaced : Placed k s) (hs : Step k s a s') (hcalm : Calm k s a)
    (hother : ∀ e, a ≠ .runBegin e) (hcore : s'.core = s.core)
    (h : ∀ d, Fits k s (s.core d)) (d : Nat) : Fits k s' (s'.core d) := by
  rw [hcore]
  exact Fits.frame hparent hplaced hs hcalm (fun e he => absurd he (hother e)) (h d)

theorem pop_fits (hcalm : Calm k s (.pop c (s.popped k c))) (hc : s.core c = .looking) :
    ∃ ph, (s.pop k c).core = Function.update s.core c ph ∧ Fits k (s.pop k c) ph := by
  have hstate := pop_proc (k := k) (s := s) (c := c)
  simp only [Sys.pop] at hstate ⊢
  cases hscan : (scan k c s.proc [] s.queue).2 with
  | some r =>
    obtain ⟨q, rest⟩ := r
    obtain ⟨-, -, -, -, -, hrun, -⟩ := scan_some hscan
    exact ⟨.chosen q, rfl, .inl hrun⟩
  | none =>
    cases hlast : k.lastChoice c with
    | none => exact ⟨.stopped, rfl, trivial⟩
    | some q =>
      refine ⟨.chosen q, rfl, ?_⟩
      rcases hcalm with ⟨p, hp, hready⟩ | hidle
      · exact absurd hready (scan_none hscan p hp)
      · have hturn := (Step.pop (k := k) hc).turn q
        rw [pop_proc] at hturn
        exact hturn.startable hparent (fun e he => by cases he) (hidle q hlast)

omit hparent in
theorem runEnd_fits (h : Handled k p (s.proc p).state) :
    ∃ ph, (s.runEnd k c p).core = Function.update s.core c ph ∧ Fits k (s.runEnd k c p) ph := by
  unfold runEnd
  unfold Handled at h
  cases hk : k.kind p with
  | user =>
    rw [hk] at h
    simp only [userRunEnd]
    cases hx : (s.proc p).state with
    | init => exact absurd hx h.1
    | allocated => exact absurd hx h.2
    | sleeping | wakenUp | runnable | running | killed | zombie | exited => exact ⟨_, rfl, trivial⟩
  | kernel =>
    rw [hk] at h
    simp only [kernelRunEnd]
    cases hx : (s.proc p).state with
    | running | exited | sleeping | runnable | wakenUp => exact ⟨_, rfl, trivial⟩
    | init | allocated | killed | zombie =>
      rw [hx] at h
      exact absurd h (by decide)

omit hparent in
theorem runBegin_fits (h : Startable k p (s.proc p).state) :
    ∃ ph, (s.runBegin k c p).core = Function.update s.core c ph ∧ Fits k (s.runBegin k c p) ph := by
  have hentered : Fits k ((s.setState p .running).setCore c (.entered p)) (.entered p) := by
    show Handled k p ((s.setState p .running).proc p).state
    rw [setState_state, if_pos rfl, Handled]
    cases k.kind p
    · exact ⟨nofun, nofun⟩
    · exact .inl rfl
  unfold runBegin
  cases hk : k.kind p with
  | user =>
    rcases h with hx | hx | ⟨hx, -⟩ <;> simp only [userRunBegin, hx]
    · exact ⟨_, rfl, hentered⟩
    · exact ⟨_, rfl, trivial⟩
    · exact ⟨_, rfl, trivial⟩
  | kernel =>
    rcases h with hx | hx | ⟨-, hx⟩
    · simp only [kernelRunBegin, hx]
      exact ⟨_, rfl, hentered⟩
    · simp only [kernelRunBegin, hx]
      exact ⟨_, rfl, trivial⟩
    · rw [hk] at hx
      cases hx

theorem Fits.step (hplaced : Placed k s) (hs : Step k s a s') (hcalm : Calm k s a)
    (h : ∀ d, Fits k s (s.core d)) : ∀ d, Fits k s' (s'.core d) := by
  -- a process that is inside `run` stays where `run` can handle it
  have hinside : ∀ {c p ph}, s.core c = ph → (Fits k s ph → Handled k p (s.proc p).state) →
      Handled k p (s'.proc p).state :=
    fun hc hph => hs.handled hparent hcalm (hph (hc ▸ h _))
  cases hs with
  | @pop c hc =>
    obtain ⟨ph, hcore, hph⟩ := pop_fits hparent hcalm hc
    exact Fits.move hparent hplaced (.pop hc) hcalm nofun hcore h hph
  | @runBegin c p hc hl =>
    have hx : Startable k p (s.proc p).state := by
      have := h c
      rwa [hc] at this
    obtain ⟨ph, hcore, hph⟩ := runBegin_fits (c := c) hx
    exact Fits.move hparent hplaced (.runBegin hc hl) hcalm (fun e he => (Act.runBegin.inj he).symm)
      hcore h hph
  | switchTo hc => exact Fits.move hparent hplaced (.switchTo hc) hcalm nofun rfl h (hinside hc id)
  | exitClean hc hk =>
    exact Fits.move hparent hplaced (.exitClean hc hk) hcalm nofun rfl h (hinside hc id)
  | exitCode hc hl =>
    exact Fits.move hparent hplaced (.exitCode hc hl) hcalm nofun rfl h (hinside hc id)
  | checkKilled hc hk hl hx =>
    exact Fits.move hparent hplaced (.checkKilled hc hk hl hx) hcalm nofun rfl h (hinside hc id)
  | funcReturn hc hk =>
    exact Fits.move hparent hplaced (.funcReturn hc hk) hcalm nofun rfl h (hinside hc id)
  | switchBack hc =>
    refine Fits.move hparent hplaced (.switchBack hc) hcalm nofun rfl h ?_
    rcases hc with hc | hc <;> exact hinside hc id
  | @runEnd c p hc hl =>
    have hx : Handled k p (s.proc p).state := by
      have := h c
      rwa [hc] at this
    obtain ⟨ph, hcore, hph⟩ := runEnd_fits (c := c) hx
    exact Fits.move hparent hplaced (.runEnd hc hl) hcalm nofun hcore h hph
  | relock hc hl => exact Fits.move hparent hplaced (.relock hc hl) hcalm nofun rfl h rfl
  | push hc => exact Fits.move hparent hplaced (.push hc) hcalm nofun push_same.1 h trivial
  | sleep hl => exact Fits.stay hparent hplaced (.sleep hl) hcalm nofun sleep_same.1 h
  | wakeUp hl => exact Fits.stay hparent hplaced (.wakeUp hl) hcalm nofun wakeUp_same.1 h
  | kill hl => exact Fits.stay hparent hplaced (.kill hl) hcalm nofun kill_same.1 h
  | spawn hn hl => exact Fits.stay hparent hplaced (.spawn hn hl) hcalm nofun rfl h
  | pages hl => exact Fits.stay hparent hplaced (.pages hl) hcalm nofun rfl h

/-- If kernel processes have no parent, an idle process is chosen only when it can run, and no
kernel process is killed while it is `RUNNING`, then `run` never meets a state that it does not
expect. -/
theorem run_state_expected (hstart : Start k s₀)
    (hrun : Run (Guarded (Step k) (Calm k)) s₀ acts s) : Expected k s := by
  have hfits : ∀ d, Fits k s (s.core d) := by
    refine (hrun.invariant (I := fun u => Placed k u ∧ ∀ d, Fits k u (u.core d)) ?_
      ⟨hstart.placed, fun d => ?_⟩).2
    · rintro u b v ⟨hplaced, hfits⟩ ⟨hcalm, hs⟩
      exact ⟨hplaced.step hs, Fits.step hparent hplaced hs hcalm hfits⟩
    · rw [hstart.core d]
      trivial
  refine ⟨fun c p hc => ?_, fun c p hc => ?_, fun c p => ⟨fun hc => ?_, fun hc => ?_⟩⟩ <;>
    have h := hfits c <;> rw [hc] at h
  · exact h
  · exact h
  · cases h
  · cases h

end

/-- Kernel processes: process `1` is the idle process of core `0`. -/
def kernelConfig : Config where
  kind _ := .kernel
  hasParent _ := false
  bindingCore p := if p = 1 then some 0 else none
  lastChoice c := if c = 0 then some 1 else none

/-- Process `0` is on the queue, and processes `0` and `1` have been made. -/
def kernelStart : Sys where
  proc p := if p < 2 then ⟨.wakenUp, none, false, [], (p + 2) * pageSize⟩
    else ⟨.init, none, false, [], 0⟩
  queue := [0]
  core _ := .looking
  live a := a = pageSize || a = 2 * pageSize
  pushed := [0]
  result _ := none
  log := []

theorem kernelStart_owned : kernelStart.owned kernelConfig p =
    if p < 2 then [(p + 1) * pageSize] else [] := by
  match p with
  | 0 => rfl
  | 1 => rfl
  | p + 2 =>
    have hp : ¬ p + 2 < 2 := Nat.not_lt.mpr (Nat.le_add_left 2 p)
    simp only [Sys.owned, kernelConfig, kernelStart, if_neg hp, if_true]

theorem kernelStart_start : Start kernelConfig kernelStart where
  fresh p := by
    have hlive : ∀ a ∈ kernelStart.owned kernelConfig p, kernelStart.live a = true := by
      intro a ha
      rw [kernelStart_owned] at ha
      match p with
      | 0 => exact List.mem_singleton.mp ha ▸ rfl
      | 1 => exact List.mem_singleton.mp ha ▸ rfl
      | p + 2 =>
        rw [if_neg (Nat.not_lt.mpr (Nat.le_add_left 2 p))] at ha
        exact (List.not_mem_nil ha).elim
    have hnodup : (kernelStart.owned kernelConfig p).Nodup := by
      rw [kernelStart_owned]
      split
      · exact List.nodup_singleton _
      · exact List.nodup_nil
    match p, hlive, hnodup with
    | 0, hlive, hnodup =>
        exact ⟨.inr (.inr rfl), rfl, rfl, hnodup, hlive, fun _ => .inl (by decide)⟩
    | 1, hlive, hnodup =>
        exact ⟨.inr (.inr rfl), rfl, rfl, hnodup, hlive, fun _ => .inl (by decide)⟩
    | p + 2, hlive, hnodup =>
      have hproc : kernelStart.proc (p + 2) = ⟨.init, none, false, [], 0⟩ := by
        simp only [kernelStart, if_neg (Nat.not_lt.mpr (Nat.le_add_left 2 p))]
      exact ⟨.inl (by rw [hproc]), by rw [hproc], by rw [hproc], hnodup, hlive,
        fun _ => .inr (by rw [hproc]; exact ⟨rfl, rfl⟩)⟩
  disjoint p q hpq := by
    rw [kernelStart_owned, kernelStart_owned]
    split
    · split
      · refine List.disjoint_singleton.mpr fun h => hpq ?_
        exact (Nat.succ.inj (Nat.eq_of_mul_eq_mul_right (by decide) (List.mem_singleton.mp h))).symm
      · exact List.disjoint_nil_right _
    · exact List.disjoint_nil_left _
  core _ := rfl
  queue := List.nodup_singleton 0
  pushed _ := Iff.rfl
  result _ := rfl
  log := rfl
  idle c p h := by
    obtain ⟨-, rfl⟩ : c = 0 ∧ 1 = p := by simpa [kernelConfig] using h
    decide
  one c d p hc hd := by
    obtain ⟨rfl, -⟩ : c = 0 ∧ 1 = p := by simpa [kernelConfig] using hc
    obtain ⟨rfl, -⟩ : d = 0 ∧ 1 = p := by simpa [kernelConfig] using hd
    rfl

/-- Process `0` of `kernelStart` after it was switched to. -/
def kernelRunning : Sys :=
  ((kernelStart.pop kernelConfig 0).runBegin kernelConfig 0 0).setExecuting 0 true |>.setCore 0
    (.executing 0)

theorem kernelRunning_run : Run (Guarded (Step kernelConfig) (Calm kernelConfig)) kernelStart
    [.pop 0 (some 0), .runBegin 0, .switchTo 0] kernelRunning := by
  have h1 : Run (Guarded (Step kernelConfig) (Calm kernelConfig)) kernelStart [.pop 0 (some 0)]
      (kernelStart.pop kernelConfig 0) :=
    Run.single ⟨.inl ⟨0, List.mem_singleton_self 0, .inr rfl, rfl⟩, .pop rfl⟩
  have h2 := h1.snoc ⟨by trivial, .runBegin (c := 0) (p := 0) rfl rfl⟩
  exact h2.snoc ⟨by trivial, .switchTo (c := 0) (p := 0) rfl⟩

/-- The process sleeps in its slice and goes back on the queue; it is woken and taken again. -/
theorem run_state_expected_sleep : ∃ s, Expected kernelConfig s ∧ s.core 0 = .entered 0 ∧
    (s.proc 0).state = .running ∧ s.result 0 = some true := by
  have h1 := kernelRunning_run.snoc ⟨by trivial, .sleep (p := 0) rfl⟩
  have h2 := h1.snoc ⟨by trivial, .switchBack (c := 0) (p := 0) (.inl rfl)⟩
  have h3 := h2.snoc ⟨by trivial, .runEnd (c := 0) (p := 0) rfl rfl⟩
  have h4 := h3.snoc ⟨by trivial, .push (c := 0) (p := 0) rfl⟩
  have h5 := h4.snoc ⟨by trivial, .wakeUp (p := 0) rfl⟩
  have h6 := h5.snoc ⟨by
    exact .inl ⟨0, List.mem_singleton_self 0, .inr rfl, rfl⟩, .pop (c := 0) rfl⟩
  have h7 := h6.snoc ⟨by trivial, .runBegin (c := 0) (p := 0) rfl rfl⟩
  exact ⟨_, run_state_expected (fun _ _ => rfl) kernelStart_start h7, rfl, rfl, rfl⟩

/-- Both panics are reached without a parent: the only process of the queue sleeps, and the idle
process is chosen; the process is killed in its slice. -/
theorem run_state_unexpected :
    (∃ acts s, Run (Step kernelConfig) kernelStart acts s ∧ s.core 0 = .panicked 1 .notRunnable) ∧
    ∃ acts s, Run (Step kernelConfig) kernelStart acts s ∧
    s.core 0 = .panicked 0 .invalidState := by
  have h := kernelRunning_run.unguard
  constructor
  · have h1 := (h.snoc (.sleep (p := 0) rfl)).snoc (.switchBack (c := 0) (p := 0) (.inl rfl))
    have h2 := (h1.snoc (.runEnd (c := 0) (p := 0) rfl rfl)).snoc (.push (c := 0) (p := 0) rfl)
    have h3 := (h2.snoc (.pop (c := 0) rfl)).snoc (.runBegin (c := 0) (p := 1) rfl rfl)
    exact ⟨_, _, h3, rfl⟩
  · have h1 := (h.snoc (.kill (p := 0) rfl)).snoc (.switchBack (c := 0) (p := 0) (.inl rfl))
    exact ⟨_, _, h1.snoc (.runEnd (c := 0) (p := 0) rfl rfl), rfl⟩

end CoroCore.Proc
