import CoroCore.Proc.Process

/-!
# No process is lost or run twice

A step moves at most one process between the queue, a core and the end (`Change`). So every
process that was pushed is in exactly one of these places (`Placed`, `process_placed`).
-/

namespace CoroCore.Proc

open Lib Sys

variable {k : Config} {s s' s₀ t : Sys} {a : Act} {acts : List Act} {c p q : Nat}

/-! ## Updates -/

@[simp] theorem setProc_self {x : Process} : (s.setProc p x).proc p = x := Function.update_self ..

theorem setProc_of_ne {x : Process} (h : q ≠ p) : (s.setProc p x).proc q = s.proc q :=
  Function.update_of_ne h ..

@[simp] theorem setCore_self {ph : Phase} : (s.setCore c ph).core c = ph := Function.update_self ..

theorem setCore_of_ne {ph : Phase} {d : Nat} (h : d ≠ c) : (s.setCore c ph).core d = s.core d :=
  Function.update_of_ne h ..

theorem setState_state {st : State} :
    ((s.setState p st).proc q).state = if q = p then st else (s.proc q).state := by
  rcases eq_or_ne q p with rfl | h
  · rw [if_pos rfl, setState, setProc_self]
  · rw [if_neg h, setState, setProc_of_ne h]

theorem clean_self {own : Bool} :
    (s.clean k own p).proc p = (s.proc p).cleanResources (k.kind p) := Function.update_self ..

theorem clean_of_ne {own : Bool} (h : q ≠ p) : (s.clean k own p).proc q = s.proc q :=
  Function.update_of_ne h ..

/-- `__clean_resources` changes the resources of the process only. -/
theorem clean_proc {own : Bool} :
    ((s.clean k own p).proc q).state = (s.proc q).state ∧
    ((s.clean k own p).proc q).lock = (s.proc q).lock ∧
    ((s.clean k own p).proc q).executing = (s.proc q).executing := by
  rcases eq_or_ne q p with rfl | h
  · rw [clean_self]
    cases k.kind q <;> exact ⟨rfl, rfl, rfl⟩
  · rw [clean_of_ne h]
    exact ⟨rfl, rfl, rfl⟩

/-- A terminal state of a process. -/
def State.Terminal (x : State) : Prop := x = .exited ∨ x = .zombie

instance : DecidablePred State.Terminal := fun x =>
  inferInstanceAs (Decidable (x = .exited ∨ x = .zombie))

/-- `pop` would take the process, if it may run on the core. -/
def State.Ready (x : State) : Prop := x = .runnable ∨ x = .wakenUp

theorem exitState_terminal : (exitState k p).Terminal := by
  unfold exitState
  split
  · exact .inr rfl
  · exact .inl rfl

theorem setExitCode_terminal : ((s.setExitCode k p).proc p).state.Terminal := by
  rw [setExitCode, setState, setProc_self]
  exact exitState_terminal

/-! ## `pop` -/

theorem setRunnable_cases (proc : Nat → Process) (p q : Nat) :
    setRunnable proc p q = proc q ∨ (q = p ∧ (proc q).state = .wakenUp ∧
      setRunnable proc p q = { proc q with state := .runnable }) := by
  unfold setRunnable
  split
  · next hw =>
    rcases eq_or_ne q p with rfl | hne
    · exact .inr ⟨rfl, hw, Function.update_self ..⟩
    · exact .inl (Function.update_of_ne hne ..)
  · exact .inl rfl

theorem setRunnable_ready {proc : Nat → Process} :
    (setRunnable proc p q).state.Ready ↔ (proc q).state.Ready := by
  rcases setRunnable_cases proc p q with h | ⟨-, hw, h⟩
  · rw [h]
  · rw [h]
    exact ⟨fun _ => .inr hw, fun _ => .inl rfl⟩

theorem setRunnable_self {proc : Nat → Process} :
    (setRunnable proc p p).state = .runnable ↔ (proc p).state.Ready := by
  unfold setRunnable
  split
  · next hw => exact ⟨fun _ => .inr hw, fun _ => by rw [Function.update_self]⟩
  · next hw => exact ⟨.inl, fun h => h.resolve_right hw⟩

/-- One round of the loop: an entry is taken if it is ready and not bound to another core. -/
theorem scan_cons {proc : Nat → Process} {seen rest : List Nat} :
    scan k c proc seen (p :: rest) =
      open scoped Classical in
      if (proc p).state.Ready ∧ bound k c p = true then (setRunnable proc p, some (p, seen ++ rest))
      else scan k c (setRunnable proc p) (seen ++ [p]) rest := by
  simp only [scan]
  split
  · next h =>
    rw [if_neg]
    exact fun h' => h (setRunnable_self.mpr h'.1)
  next h =>
  have hrun := not_not.mp h
  split
  · next hb =>
    rw [if_neg]
    rintro ⟨-, hb'⟩
    rw [hb'] at hb
    cases hb
  next hb =>
  have hb : bound k c p = true := by simpa using hb
  rw [if_neg (by rw [hrun]; exact nofun), if_pos ⟨setRunnable_self.mp hrun, hb⟩]

/-- What the scan does to a process: one that is awake becomes runnable. -/
theorem scan_proc {l : List Nat} : ∀ (proc : Nat → Process) (seen : List Nat),
    (scan k c proc seen l).1 q = proc q ∨ (q ∈ l ∧ (proc q).state = .wakenUp ∧
      (scan k c proc seen l).1 q = { proc q with state := .runnable }) := by
  induction l with
  | nil => exact fun _ _ => .inl rfl
  | cons p rest ih =>
    intro proc seen
    have hone := setRunnable_cases proc p q
    rw [scan_cons]
    split
    · rcases hone with h | ⟨rfl, hw, h⟩
      · exact .inl h
      · exact .inr ⟨List.mem_cons_self, hw, h⟩
    · rcases ih (setRunnable proc p) (seen ++ [p]) with h | ⟨hm, hw', h⟩
      · rw [h]
        rcases hone with h | ⟨rfl, hw, h⟩
        · exact .inl h
        · exact .inr ⟨List.mem_cons_self, hw, h⟩
      · rcases hone with h1 | ⟨-, -, h1⟩
        · rw [h1] at hw' h
          exact .inr ⟨List.mem_cons_of_mem p hm, hw', h⟩
        · rw [h1] at hw'
          cases hw'

/-- `pop` takes the first entry that is ready and not bound to another core. -/
theorem scan_some {l rest : List Nat} : ∀ {proc : Nat → Process} {seen : List Nat},
    (scan k c proc seen l).2 = some (p, rest) →
    ∃ l₁ l₂, l = l₁ ++ p :: l₂ ∧ rest = seen ++ l₁ ++ l₂ ∧ bound k c p = true ∧
      ((scan k c proc seen l).1 p).state = .runnable ∧
      ∀ q ∈ l₁, ¬ ((proc q).state.Ready ∧ bound k c q = true) := by
  induction l with
  | nil => exact fun h => nomatch h
  | cons x l ih =>
    intro proc seen
    rw [scan_cons]
    split
    · next hx =>
      intro h
      obtain ⟨rfl, rfl⟩ := Prod.mk.inj (Option.some.inj h)
      exact ⟨[], l, rfl, by
        simp, hx.2, setRunnable_self.mpr hx.1, fun _ h => (List.not_mem_nil h).elim⟩
    · next hx =>
      intro h
      obtain ⟨l₁, l₂, rfl, rfl, hb, hrun, hbefore⟩ := ih h
      refine ⟨x :: l₁, l₂, rfl, by simp, hb, hrun, fun q hq => ?_⟩
      rcases List.mem_cons.mp hq with rfl | hq
      · exact hx
      · rw [← setRunnable_ready (p := x)]
        exact hbefore q hq

theorem scan_none {l : List Nat} : ∀ {proc : Nat → Process} {seen : List Nat},
    (scan k c proc seen l).2 = none → ∀ q ∈ l, ¬ ((proc q).state.Ready ∧ bound k c q = true) := by
  induction l with
  | nil => exact fun _ q hq => (List.not_mem_nil hq).elim
  | cons x l ih =>
    intro proc seen
    rw [scan_cons]
    split
    · exact fun h => nomatch h
    · next hx =>
      intro h q hq
      rcases List.mem_cons.mp hq with rfl | hq
      · exact hx
      · rw [← setRunnable_ready (p := x)]
        exact ih h q hq

theorem pop_proc : (s.pop k c).proc = (scan k c s.proc [] s.queue).1 := by
  simp only [Sys.pop]
  split
  · rfl
  · split <;> rfl

theorem pop_proc_cases (q : Nat) : (s.pop k c).proc q = s.proc q ∨ (q ∈ s.queue ∧
    (s.proc q).state = .wakenUp ∧ (s.pop k c).proc q = { s.proc q with state := .runnable }) := by
  rw [pop_proc]
  exact scan_proc s.proc []

/-! ## Where a process goes -/

/-- What a step does to the places of the processes. -/
inductive Change (k : Config) (s s' : Sys) : Prop
  | stay (queue : s'.queue = s.queue) (pushed : s'.pushed = s.pushed)
      (core : ∀ c, (s'.core c).process = (s.core c).process)
      (result : ∀ p, s'.result p = s.result p ∨
        (s'.result p = some true ∧ ∃ c, (s.core c).process = some p))
  | ended (c p : Nat) (held : (s.core c).process = some p) (queue : s'.queue = s.queue)
      (pushed : s'.pushed = s.pushed) (core : s'.core = Function.update s.core c .looking)
      (result : s'.result = Function.update s.result p (some false))
      (terminal : (s'.proc p).state.Terminal)
  | take (c p : Nat) (l₁ l₂ : List Nat) (looking : s.core c = .looking) (may : bound k c p = true)
      (before : s.queue = l₁ ++ p :: l₂) (queue : s'.queue = l₁ ++ l₂)
      (pushed : s'.pushed = s.pushed)
      (core : s'.core = Function.update s.core c (.chosen p)) (result : s'.result = s.result)
  | idle (c p : Nat) (looking : s.core c = .looking) (last : k.lastChoice c = some p)
      (queue : s'.queue = s.queue) (pushed : s'.pushed = s.pushed)
      (core : s'.core = Function.update s.core c (.chosen p)) (result : s'.result = s.result)
  | put (c p : Nat) (held : (s.core c).process = some p) (last : k.lastChoice c ≠ some p)
      (queue : s'.queue = s.queue ++ [p]) (pushed : s'.pushed = s.pushed)
      (core : s'.core = Function.update s.core c .looking) (result : s'.result = s.result)
  | leave (c p : Nat) (held : (s.core c).process = some p) (last : k.lastChoice c = some p)
      (queue : s'.queue = s.queue) (pushed : s'.pushed = s.pushed)
      (core : s'.core = Function.update s.core c .looking) (result : s'.result = s.result)
  | spawn (p : Nat) (new : p ∉ s.pushed) (last : ∀ c, k.lastChoice c ≠ some p)
      (queue : s'.queue = s.queue ++ [p]) (pushed : s'.pushed = p :: s.pushed)
      (core : s'.core = s.core) (result : s'.result = s.result)

/-- A core goes on with the process it holds. -/
theorem Change.move (ph : Phase) (hheld : (s.core c).process = ph.process)
    (hqueue : s'.queue = s.queue) (hpushed : s'.pushed = s.pushed) (hresult : s'.result = s.result)
    (hcore : s'.core = Function.update s.core c ph) : Change k s s' := by
  refine .stay hqueue hpushed (fun d => ?_) (fun q => .inl (congrFun hresult q))
  rw [hcore]
  rcases eq_or_ne d c with rfl | h
  · rw [Function.update_self, hheld]
  · rw [Function.update_of_ne h]

theorem Change.again (hheld : (s.core c).process = some p) (hqueue : s'.queue = s.queue)
    (hpushed : s'.pushed = s.pushed) (hresult : s'.result = s.result) (hcore : s'.core = s.core) :
    Change k s (s'.returns c p true) := by
  refine .stay hqueue hpushed (fun d => ?_) fun q => ?_
  · show (Function.update s'.core c (.pushing p) d).process = _
    rw [hcore]
    rcases eq_or_ne d c with rfl | h
    · rw [Function.update_self, hheld]
      rfl
    · rw [Function.update_of_ne h]
  · rcases eq_or_ne q p with rfl | h
    · exact .inr ⟨Function.update_self .., c, hheld⟩
    · exact .inl ((Function.update_of_ne h ..).trans (congrFun hresult q))

theorem Change.last (hheld : (s.core c).process = some p) (hqueue : s'.queue = s.queue)
    (hpushed : s'.pushed = s.pushed) (hresult : s'.result = s.result) (hcore : s'.core = s.core)
    (hterm : (s'.proc p).state.Terminal) : Change k s (s'.returns c p false) := by
  refine .ended c p hheld hqueue hpushed ?_ ?_ hterm
  · rw [← hcore]
    rfl
  · rw [← hresult]
    rfl

theorem runBegin_change (hc : s.core c = .chosen p) : Change k s (s.runBegin k c p) := by
  have hheld : (s.core c).process = some p := by rw [hc]; rfl
  have hmove : ∀ s' ph, ph.process = some p → s'.queue = s.queue → s'.pushed = s.pushed →
      s'.result = s.result → s'.core = s.core → Change k s (Sys.setCore s' c ph) :=
    fun s' ph hph h1 h2 h3 h4 => .move ph (hheld.trans hph.symm) h1 h2 h3 (by rw [← h4]; rfl)
  unfold runBegin
  cases k.kind p with
  | user =>
    simp only [userRunBegin]
    split
    · next h => exact .last hheld rfl rfl rfl rfl (.inl h)
    · next h => exact .last hheld rfl rfl rfl rfl (.inr h)
    · exact hmove _ _ rfl rfl rfl rfl rfl
    · exact hmove _ _ rfl rfl rfl rfl rfl
  | kernel =>
    simp only [kernelRunBegin]
    split
    · next h => exact .last hheld rfl rfl rfl rfl (.inl h)
    · exact hmove _ _ rfl rfl rfl rfl rfl
    · exact hmove _ _ rfl rfl rfl rfl rfl

theorem runEnd_change (hc : s.core c = .switched p) : Change k s (s.runEnd k c p) := by
  have hheld : (s.core c).process = some p := by rw [hc]; rfl
  have hpanic : Change k s (s.setCore c (.panicked p .invalidState)) :=
    .move (.panicked p .invalidState) hheld rfl rfl rfl rfl
  unfold runEnd
  cases k.kind p with
  | user =>
    simp only [userRunEnd]
    split
    · exact .last hheld rfl rfl rfl rfl setExitCode_terminal
    · exact .again hheld rfl rfl rfl rfl
    · next h => exact .last hheld rfl rfl rfl rfl (.inl h)
    · next h => exact .last hheld rfl rfl rfl rfl (.inr h)
    · exact .again hheld rfl rfl rfl rfl
    · exact .again hheld rfl rfl rfl rfl
    · exact .again hheld rfl rfl rfl rfl
    · exact hpanic
  | kernel =>
    simp only [kernelRunEnd]
    split
    · exact .again hheld rfl rfl rfl rfl
    · next h =>
      refine .last hheld rfl rfl rfl rfl (.inl ?_)
      rw [clean_proc.1, h]
    · exact .again hheld rfl rfl rfl rfl
    · exact .again hheld rfl rfl rfl rfl
    · exact .again hheld rfl rfl rfl rfl
    · exact hpanic

theorem pop_change (hc : s.core c = .looking) : Change k s (s.pop k c) := by
  simp only [Sys.pop]
  split
  · next p rest h =>
    obtain ⟨l₁, l₂, hbefore, hrest, hb, -, -⟩ := scan_some h
    exact .take c p l₁ l₂ hc hb hbefore hrest rfl rfl rfl
  · split
    · next p h => exact .idle c p hc h rfl rfl rfl rfl
    · exact .move (.stopped) (by rw [hc]; rfl) rfl rfl rfl rfl

theorem Step.change (h : Step k s a s') : Change k s s' := by
  cases h with
  | pop hc => exact pop_change hc
  | runBegin hc _ => exact runBegin_change hc
  | @switchTo c p hc => exact .move (.executing p) (by rw [hc]; rfl) rfl rfl rfl rfl
  | @exitClean c p hc _ => exact .move (.exiting p) (by rw [hc]; rfl) rfl rfl rfl rfl
  | @exitCode c p hc _ => exact .move (.leaving p) (by rw [hc]; rfl) rfl rfl rfl rfl
  | @checkKilled c p hc _ _ _ => exact .move (.leaving p) (by rw [hc]; rfl) rfl rfl rfl rfl
  | @funcReturn c p hc _ => exact .move (.leaving p) (by rw [hc]; rfl) rfl rfl rfl rfl
  | @switchBack c p hc =>
    refine .move (.switched p) ?_ rfl rfl rfl rfl
    rcases hc with hc | hc <;> rw [hc] <;> rfl
  | runEnd hc _ => exact runEnd_change hc
  | @relock c p hc _ => exact .move (.panicked p .relock) (by rw [hc]; rfl) rfl rfl rfl rfl
  | @push c p hc =>
    have hheld : (s.core c).process = some p := by rw [hc]; rfl
    unfold Sys.push
    split
    · next hl => exact .leave c p hheld hl rfl rfl rfl rfl
    · next hl => exact .put c p hheld hl rfl rfl rfl rfl
  | sleep _ =>
    unfold Sys.sleep
    split <;> exact .stay rfl rfl (fun _ => rfl) fun _ => .inl rfl
  | wakeUp _ =>
    unfold Sys.wakeUp
    split <;> exact .stay rfl rfl (fun _ => rfl) fun _ => .inl rfl
  | kill _ =>
    unfold Sys.kill
    split <;> exact .stay rfl rfl (fun _ => rfl) fun _ => .inl rfl
  | spawn hnew hlast => exact .spawn _ hnew hlast rfl rfl rfl rfl
  | pages _ => exact .stay rfl rfl (fun _ => rfl) fun _ => .inl rfl

/-! ## How the state of a process changes -/

/-- The ways in which step `a` changes the state of process `p`. -/
inductive Turn (k : Config) (s : Sys) (a : Act) (p : Nat) : State → State → Prop
  | same (x : State) : Turn k s a p x x
  | ready : Turn k s a p .wakenUp .runnable
  | start {c : Nat} : a = .runBegin c → s.core c = .chosen p → Turn k s a p .runnable .running
  | again : Turn k s a p .running .runnable
  | sleep : Turn k s a p .running .sleeping
  | wake : Turn k s a p .sleeping .wakenUp
  | kill : a = .kill p → Turn k s a p .running .killed
  | exit (x : State) : Turn k s a p x (exitState k p)

theorem Turn.setState {st : State} (h : Turn k s a p (s.proc p).state st) (q : Nat) :
    Turn k s a q (s.proc q).state ((s.setState p st).proc q).state := by
  rw [setState_state]
  split
  · next hq => exact hq ▸ h
  · exact .same _

theorem Turn.doKill {own : Bool} (q : Nat) :
    Turn k s a q (s.proc q).state ((s.doKill k own p).proc q).state := by
  rw [Sys.doKill, setExitCode, setState_state]
  split
  · next hq => exact hq ▸ .exit _
  · rw [clean_proc.1]
    exact .same _

theorem runBegin_turn (hc : s.core c = .chosen p) (q : Nat) :
    Turn k s (.runBegin c) q (s.proc q).state ((s.runBegin k c p).proc q).state := by
  have hstart : (s.proc p).state = .runnable →
      Turn k s (.runBegin c) q (s.proc q).state ((s.setState p .running).proc q).state :=
    fun h => Turn.setState (h ▸ .start rfl hc) q
  unfold runBegin
  cases k.kind p with
  | user =>
    simp only [userRunBegin]
    split
    · exact .same _
    · exact .same _
    · next h => exact hstart h
    · exact .same _
  | kernel =>
    simp only [kernelRunBegin]
    split
    · exact .same _
    · next h => exact hstart h
    · exact .same _

theorem runEnd_turn (q : Nat) :
    Turn k s a q (s.proc q).state ((s.runEnd k c p).proc q).state := by
  have hagain : (s.proc p).state = .running →
      Turn k s a q (s.proc q).state ((s.setState p .runnable).proc q).state :=
    fun h => Turn.setState (h ▸ .again) q
  unfold runEnd
  cases k.kind p with
  | user =>
    simp only [userRunEnd]
    split
    · exact Turn.doKill q
    · next h => exact hagain h
    all_goals exact .same _
  | kernel =>
    simp only [kernelRunEnd]
    split
    · next h => exact hagain h
    · show Turn k s a q (s.proc q).state ((s.clean k false p).proc q).state
      rw [clean_proc.1]
      exact .same _
    all_goals exact .same _

theorem setExecuting_turn {b : Bool} (q : Nat) :
    Turn k s a q (s.proc q).state ((s.setExecuting p b).proc q).state := by
  rcases eq_or_ne q p with rfl | hne
  · rw [setExecuting, setProc_self]
    exact .same _
  · rw [setExecuting, setProc_of_ne hne]
    exact .same _

theorem Step.turn (h : Step k s a s') (q : Nat) :
    Turn k s a q (s.proc q).state (s'.proc q).state := by
  cases h with
  | @pop c _ =>
    rcases pop_proc_cases (k := k) (s := s) (c := c) q with h | ⟨-, hw, h⟩
    · rw [h]
      exact .same _
    · rw [h, hw]
      exact .ready
  | runBegin hc _ => exact runBegin_turn hc q
  | switchTo _ => exact setExecuting_turn q
  | @exitClean c p _ _ =>
    show Turn k s _ q (s.proc q).state ((s.clean k true p).proc q).state
    rw [clean_proc.1]
    exact .same _
  | exitCode _ _ => exact Turn.setState (.exit _) q
  | @checkKilled c p _ _ _ _ =>
    have hkill : Turn k s (.checkKilled c) q (s.proc q).state ((s.doKill k true p).proc q).state :=
      Turn.doKill q
    show Turn k s _ q (s.proc q).state (((s.doKill k true p).setProc p _).proc q).state
    rcases eq_or_ne q p with rfl | hne
    · rw [setProc_self]
      exact hkill
    · rw [setProc_of_ne hne]
      exact hkill
  | funcReturn _ _ => exact Turn.setState (.exit _) q
  | switchBack _ => exact setExecuting_turn q
  | runEnd _ _ => exact runEnd_turn q
  | relock _ _ => exact .same _
  | push _ =>
    unfold Sys.push
    split <;> exact .same _
  | sleep _ =>
    unfold Sys.sleep
    split
    · exact .same _
    · next h => exact Turn.setState (not_not.mp h ▸ .sleep) q
  | wakeUp _ =>
    unfold Sys.wakeUp
    split
    · next h => exact Turn.setState (h ▸ .wake) q
    · exact .same _
  | kill _ =>
    unfold Sys.kill
    split
    · exact Turn.doKill q
    · next h => exact Turn.setState (not_not.mp h ▸ .kill rfl) q
  | spawn _ _ => exact .same _
  | pages _ => exact .same _

theorem Turn.terminal {x y : State} (h : Turn k s a p x y) (hx : x.Terminal) : y.Terminal := by
  cases h with
  | same => exact hx
  | exit => exact exitState_terminal
  | ready | start | again | sleep | wake | kill => exact absurd hx (by decide)

theorem doKill_terminal {own : Bool} (hq : (s.proc q).state.Terminal) :
    ((s.doKill k own p).proc q).state.Terminal :=
  (Turn.doKill (a := .kill p) q).terminal hq

/-- A process that has ended stays so. -/
theorem Step.terminal (h : Step k s a s') (hq : (s.proc q).state.Terminal) :
    (s'.proc q).state.Terminal :=
  (h.turn q).terminal hq

/-! ## Each process is in one place -/

/-- Core `c` holds `p`: it took it from the queue and its slice has not ended. -/
def Holds (s : Sys) (c p : Nat) : Prop := (s.core c).process = some p

/-- The last `run` of `p` returned false, with `p` in a terminal state. -/
def Finished (s : Sys) (p : Nat) : Prop := s.result p = some false ∧ (s.proc p).state.Terminal

/-- Where process `p` is. -/
inductive Place (k : Config) (s : Sys) (p : Nat) : Prop
  | idle (c : Nat) (last : k.lastChoice c = some p) (old : p ∉ s.pushed) (queue : p ∉ s.queue)
      (own : ∀ d, Holds s d p → d = c)
  | new (last : ∀ c, k.lastChoice c ≠ some p) (old : p ∉ s.pushed) (queue : p ∉ s.queue)
      (free : ∀ d, ¬ Holds s d p) (result : s.result p ≠ some false)
  | queued (last : ∀ c, k.lastChoice c ≠ some p) (old : p ∈ s.pushed) (queue : p ∈ s.queue)
      (free : ∀ d, ¬ Holds s d p) (result : s.result p ≠ some false)
  | held (c : Nat) (last : ∀ c, k.lastChoice c ≠ some p) (old : p ∈ s.pushed) (queue : p ∉ s.queue)
      (holds : Holds s c p) (own : ∀ d, Holds s d p → d = c) (result : s.result p ≠ some false)
  | finished (last : ∀ c, k.lastChoice c ≠ some p) (old : p ∈ s.pushed) (queue : p ∉ s.queue)
      (free : ∀ d, ¬ Holds s d p) (done : Finished s p)

/-- Every process is in one place. -/
structure Placed (k : Config) (s : Sys) : Prop where
  nodup : s.queue.Nodup
  place : ∀ p, Place k s p
  one : ∀ c c' p, k.lastChoice c = some p → k.lastChoice c' = some p → c = c'

theorem Start.placed (h : Start k s) : Placed k s := by
  have hno : ∀ p c, ¬ Holds s c p := fun p c hp => by
    rw [Holds, h.core c] at hp
    cases hp
  have hres : ∀ p, s.result p ≠ some false := fun p => by
    rw [h.result p]
    exact nofun
  refine ⟨h.queue, fun p => ?_, h.one⟩
  by_cases hl : ∃ c, k.lastChoice c = some p
  · obtain ⟨c, hc⟩ := hl
    have hq := h.idle c p hc
    exact .idle c hc (fun hp => hq ((h.pushed p).mp hp)) hq fun d hd => absurd hd (hno p d)
  have hl : ∀ c, k.lastChoice c ≠ some p := fun c hc => hl ⟨c, hc⟩
  by_cases hq : p ∈ s.queue
  · exact .queued hl ((h.pushed p).mpr hq) hq (hno p) (hres p)
  · exact .new hl (fun hp => hq ((h.pushed p).mp hp)) hq (hno p) (hres p)

/-- A step that does not move `p`. -/
theorem Place.congr (h : Place k s p) (hpushed : p ∈ s'.pushed ↔ p ∈ s.pushed)
    (hqueue : p ∈ s'.queue ↔ p ∈ s.queue) (hholds : ∀ d, Holds s' d p ↔ Holds s d p)
    (hresult : s'.result p = s.result p ∨ (s'.result p = some true ∧ ∃ c, Holds s c p))
    (hterm : (s.proc p).state.Terminal → (s'.proc p).state.Terminal) : Place k s' p := by
  have hres : s.result p ≠ some false → s'.result p ≠ some false := by
    intro hp
    rcases hresult with h' | ⟨h', -⟩ <;> rw [h']
    · exact hp
    · exact nofun
  cases h with
  | idle c hl ho hq hown =>
    exact .idle c hl (mt hpushed.mp ho) (mt hqueue.mp hq) fun d hd => hown d ((hholds d).mp hd)
  | new hl ho hq hf hr =>
    exact .new hl (mt hpushed.mp ho) (mt hqueue.mp hq) (fun d => mt (hholds d).mp (hf d)) (hres hr)
  | queued hl ho hq hf hr =>
    exact .queued hl (hpushed.mpr ho) (hqueue.mpr hq) (fun d => mt (hholds d).mp (hf d)) (hres hr)
  | held c hl ho hq hc hown hr =>
    exact .held c hl (hpushed.mpr ho) (mt hqueue.mp hq) ((hholds c).mpr hc)
      (fun d hd => hown d ((hholds d).mp hd)) (hres hr)
  | finished hl ho hq hf hd =>
    refine .finished hl (hpushed.mpr ho) (mt hqueue.mp hq) (fun d => mt (hholds d).mp (hf d))
      ⟨?_, hterm hd.2⟩
    rcases hresult with h' | ⟨-, c, hc⟩
    · rw [h', hd.1]
    · exact absurd hc (hf c)

/-- Core `c` goes to a phase in which it holds no process but `p`, as before. -/
theorem holds_other {ph : Phase} {d : Nat} (hcore : s'.core = Function.update s.core c ph)
    (hold : ∀ x, Holds s c x → x = p) (hnew : ∀ x, ph.process = some x → x = p) (hne : q ≠ p) :
    Holds s' d q ↔ Holds s d q := by
  rw [Holds, hcore]
  rcases eq_or_ne d c with rfl | h
  · rw [Function.update_self]
    exact ⟨fun h => absurd (hnew q h) hne, fun h => absurd (hold q h) hne⟩
  · rw [Function.update_of_ne h]
    rfl

/-- A core that holds `p` gives it up. -/
theorem Place.release (h : Place k s p) (hheld : Holds s c p)
    (hcore : s'.core = Function.update s.core c .looking) (d : Nat) : ¬ Holds s' d p := by
  intro hd
  rw [Holds, hcore] at hd
  rcases eq_or_ne d c with rfl | hne
  · rw [Function.update_self] at hd
    cases hd
  rw [Function.update_of_ne hne] at hd
  cases h with
  | idle _ _ _ _ hown => exact hne ((hown d hd).trans (hown c hheld).symm)
  | new _ _ _ hf _ => exact hf d hd
  | queued _ _ _ hf _ => exact hf d hd
  | held _ _ _ _ _ hown _ => exact hne ((hown d hd).trans (hown c hheld).symm)
  | finished _ _ _ hf _ => exact hf d hd

theorem Placed.change (h : Placed k s) (hchange : Change k s s')
    (hterm : ∀ p, (s.proc p).state.Terminal → (s'.proc p).state.Terminal) : Placed k s' := by
  cases hchange with
  | stay hqueue hpushed hcore hresult =>
    refine ⟨hqueue ▸ h.nodup, fun p => (h.place p).congr (by rw [hpushed]) (by rw [hqueue])
      (fun d => by rw [Holds, Holds, hcore]) (hresult p) (hterm p), h.one⟩
  | ended c p hheld hqueue hpushed hcore hresult hp =>
    refine ⟨hqueue ▸ h.nodup, fun q => ?_, h.one⟩
    rcases eq_or_ne q p with rfl | hne
    · have hfree := (h.place q).release hheld hcore
      have hres : s'.result q = some false := by rw [hresult, Function.update_self]
      cases h.place q with
      | idle d hl ho hq _ =>
        exact .idle d hl (hpushed ▸ ho) (hqueue ▸ hq) fun e he => absurd he (hfree e)
      | new _ _ _ hf _ => exact absurd hheld (hf c)
      | queued _ _ _ hf _ => exact absurd hheld (hf c)
      | held _ hl ho hq _ _ _ => exact .finished hl (hpushed ▸ ho) (hqueue ▸ hq) hfree ⟨hres, hp⟩
      | finished _ _ _ hf _ => exact absurd hheld (hf c)
    · refine (h.place q).congr (by rw [hpushed]) (by rw [hqueue])
        (fun d => holds_other hcore (fun x hx => ?_) nofun hne) (.inl ?_) (hterm q)
      · exact Option.some.inj (hx.symm.trans hheld)
      · rw [hresult, Function.update_of_ne hne]
  | take c p l₁ l₂ hlook _ hbefore hqueue hpushed hcore hresult =>
    have hnodup := h.nodup
    rw [hbefore] at hnodup
    have hmid := List.nodup_middle.mp hnodup
    refine ⟨hqueue ▸ hmid.of_cons, fun q => ?_, h.one⟩
    rcases eq_or_ne q p with rfl | hne
    · have hin : q ∈ s.queue := by
        rw [hbefore]
        simp
      have hout : q ∉ s'.queue := by
        rw [hqueue]
        exact hmid.notMem
      cases h.place q with
      | idle _ _ _ hq _ => exact absurd hin hq
      | new _ _ hq _ _ => exact absurd hin hq
      | queued hl ho _ hf hr =>
        refine .held c hl (hpushed ▸ ho) hout ?_ (fun d hd => ?_) (hresult ▸ hr)
        · rw [Holds, hcore, Function.update_self]
          rfl
        · by_contra hdc
          rw [Holds, hcore, Function.update_of_ne hdc] at hd
          exact hf d hd
      | held _ _ _ hq _ _ _ => exact absurd hin hq
      | finished _ _ hq _ _ => exact absurd hin hq
    · refine (h.place q).congr (by rw [hpushed]) ?_ (fun d => holds_other hcore (fun x hx => ?_)
        (fun x hx => (Option.some.inj hx).symm) hne) (.inl (by rw [hresult])) (hterm q)
      · rw [hqueue, hbefore]
        simp [hne]
      · rw [Holds, hlook] at hx
        cases hx
  | idle c p hlook hlast hqueue hpushed hcore hresult =>
    refine ⟨hqueue ▸ h.nodup, fun q => ?_, h.one⟩
    rcases eq_or_ne q p with rfl | hne
    · cases h.place q with
      | idle d hl ho hq hown =>
        refine .idle d hl (hpushed ▸ ho) (hqueue ▸ hq) fun e he => ?_
        rcases eq_or_ne e c with rfl | hec
        · exact h.one e d q hlast hl
        · rw [Holds, hcore, Function.update_of_ne hec] at he
          exact hown e he
      | new hl _ _ _ _ => exact absurd hlast (hl c)
      | queued hl _ _ _ _ => exact absurd hlast (hl c)
      | held _ hl _ _ _ _ _ => exact absurd hlast (hl c)
      | finished hl _ _ _ _ => exact absurd hlast (hl c)
    · refine (h.place q).congr (by rw [hpushed]) (by rw [hqueue]) (fun d => holds_other hcore
        (fun x hx => ?_) (fun x hx => (Option.some.inj hx).symm) hne) (.inl
        (by rw [hresult])) (hterm q)
      rw [Holds, hlook] at hx
      cases hx
  | put c p hheld hlast hqueue hpushed hcore hresult =>
    have hfree := (h.place p).release hheld hcore
    have hout : p ∉ s.queue ∧ p ∈ s.pushed ∧ (∀ d, k.lastChoice d ≠ some p) ∧
        s.result p ≠ some false := by
      cases h.place p with
      | idle d hl _ _ hown => exact absurd ((hown c hheld) ▸ hl) hlast
      | new _ _ _ hf _ => exact absurd hheld (hf c)
      | queued _ _ _ hf _ => exact absurd hheld (hf c)
      | held _ hl ho hq _ _ hr => exact ⟨hq, ho, hl, hr⟩
      | finished _ _ _ hf _ => exact absurd hheld (hf c)
    refine ⟨?_, fun q => ?_, h.one⟩
    · rw [hqueue, ← List.concat_eq_append]
      exact h.nodup.concat hout.1
    rcases eq_or_ne q p with rfl | hne
    · exact .queued hout.2.2.1 (hpushed ▸ hout.2.1) (by rw [hqueue]; simp) hfree
        (hresult ▸ hout.2.2.2)
    · refine (h.place q).congr (by rw [hpushed]) (by rw [hqueue]; simp [hne]) (fun d => holds_other
        hcore (fun x hx => ?_) nofun hne) (.inl (by rw [hresult])) (hterm q)
      exact Option.some.inj (hx.symm.trans hheld)
  | leave c p hheld hlast hqueue hpushed hcore hresult =>
    refine ⟨hqueue ▸ h.nodup, fun q => ?_, h.one⟩
    rcases eq_or_ne q p with rfl | hne
    · have hfree := (h.place q).release hheld hcore
      cases h.place q with
      | idle d hl ho hq _ =>
        exact .idle d hl (hpushed ▸ ho) (hqueue ▸ hq) fun e he => absurd he (hfree e)
      | new hl _ _ _ _ => exact absurd hlast (hl c)
      | queued hl _ _ _ _ => exact absurd hlast (hl c)
      | held _ hl _ _ _ _ _ => exact absurd hlast (hl c)
      | finished hl _ _ _ _ => exact absurd hlast (hl c)
    · refine (h.place q).congr (by rw [hpushed]) (by rw [hqueue]) (fun d => holds_other hcore
        (fun x hx => ?_) nofun hne) (.inl (by rw [hresult])) (hterm q)
      exact Option.some.inj (hx.symm.trans hheld)
  | spawn p hnew hlast hqueue hpushed hcore hresult =>
    have hholds : ∀ d q, Holds s' d q ↔ Holds s d q := fun d q => by rw [Holds, Holds, hcore]
    have hout : p ∉ s.queue ∧ (∀ d, ¬ Holds s d p) ∧ s.result p ≠ some false := by
      cases h.place p with
      | idle c hl _ _ _ => exact absurd hl (hlast c)
      | new _ _ hq hf hr => exact ⟨hq, hf, hr⟩
      | queued _ ho _ _ _ => exact absurd ho hnew
      | held _ _ ho _ _ _ _ => exact absurd ho hnew
      | finished _ ho _ _ _ => exact absurd ho hnew
    refine ⟨?_, fun q => ?_, h.one⟩
    · rw [hqueue, ← List.concat_eq_append]
      exact h.nodup.concat hout.1
    rcases eq_or_ne q p with rfl | hne
    · exact .queued hlast (by rw [hpushed]; exact List.mem_cons_self) (by rw [hqueue]; simp)
        (fun d => mt (hholds d q).mp (hout.2.1 d)) (hresult ▸ hout.2.2)
    · exact (h.place q).congr (by rw [hpushed]; simp [hne]) (by rw [hqueue]; simp [hne])
        (fun d => hholds d q) (.inl (by rw [hresult])) (hterm q)

theorem Placed.step (h : Placed k s) (hs : Step k s a s') : Placed k s' :=
  h.change hs.change fun _ => hs.terminal

/-! ## Locks left held, and executing processes -/

/-- The lock flag and the executing flag of every process are the same. -/
def SameFlags (s s' : Sys) : Prop :=
  ∀ q, (s'.proc q).lock = (s.proc q).lock ∧ (s'.proc q).executing = (s.proc q).executing

theorem SameFlags.refl : SameFlags s s := fun _ => ⟨rfl, rfl⟩

theorem SameFlags.trans (h : SameFlags s s') (h' : SameFlags s' t) : SameFlags s t :=
  fun q => ⟨(h' q).1.trans (h q).1, (h' q).2.trans (h q).2⟩

theorem SameFlags.returns {b : Bool} (h : SameFlags s s') : SameFlags s (s'.returns c p b) := h

theorem SameFlags.setCore {ph : Phase} (h : SameFlags s s') : SameFlags s (s'.setCore c ph) := h

theorem setState_flags {st : State} : SameFlags s (s.setState p st) := by
  intro q
  rcases eq_or_ne q p with rfl | h
  · rw [setState, setProc_self]
    exact ⟨rfl, rfl⟩
  · rw [setState, setProc_of_ne h]
    exact ⟨rfl, rfl⟩

theorem clean_flags {own : Bool} : SameFlags s (s.clean k own p) :=
  fun _ => ⟨clean_proc.2.1, clean_proc.2.2⟩

theorem doKill_flags {own : Bool} : SameFlags s (s.doKill k own p) :=
  clean_flags.trans setState_flags

theorem runBegin_flags : SameFlags s (s.runBegin k c p) := by
  unfold runBegin
  cases k.kind p with
  | user =>
    simp only [userRunBegin]
    split <;> first | exact .refl | exact setState_flags
  | kernel =>
    simp only [kernelRunBegin]
    split <;> first | exact .refl | exact setState_flags

theorem runEnd_flags : SameFlags s (s.runEnd k c p) := by
  unfold runEnd
  cases k.kind p with
  | user =>
    simp only [userRunEnd]
    split <;> first | exact .refl | exact setState_flags | exact doKill_flags.returns
  | kernel =>
    simp only [kernelRunEnd]
    split <;> first | exact .refl | exact setState_flags | exact clean_flags.returns

theorem pop_flags : SameFlags s (s.pop k c) := by
  intro q
  rcases pop_proc_cases (k := k) (s := s) (c := c) q with h | ⟨-, -, h⟩ <;> rw [h]
    <;> exact ⟨rfl, rfl⟩

theorem push_same : (s.push k c p).core = Function.update s.core c .looking ∧
    (s.push k c p).proc = s.proc := by
  unfold Sys.push
  split <;> exact ⟨rfl, rfl⟩

theorem sleep_same : (s.sleep p).core = s.core ∧ SameFlags s (s.sleep p) := by
  unfold Sys.sleep
  split
  · exact ⟨rfl, .refl⟩
  · exact ⟨rfl, setState_flags⟩

theorem wakeUp_same : (s.wakeUp p).core = s.core ∧ SameFlags s (s.wakeUp p) := by
  unfold Sys.wakeUp
  split
  · exact ⟨rfl, setState_flags⟩
  · exact ⟨rfl, .refl⟩

theorem kill_same : (s.kill k p).core = s.core ∧ SameFlags s (s.kill k p) := by
  unfold Sys.kill
  split
  · exact ⟨rfl, doKill_flags⟩
  · exact ⟨rfl, setState_flags⟩

/-- A core in this phase can be the one that left the lock of `p` held. -/
def Phase.Locked (ph : Phase) (p : Nat) : Prop :=
  ph = .leaving p ∨ ph = .switched p ∨ ∃ w, ph = .panicked p w

/-- A core in this phase executes `p`. -/
def Phase.Executes (ph : Phase) (p : Nat) : Prop :=
  ph = .executing p ∨ ph = .exiting p ∨ ph = .leaving p

theorem Phase.Locked.process {ph : Phase} (h : ph.Locked p) : ph.process = some p := by
  rcases h with rfl | rfl | ⟨w, rfl⟩ <;> rfl

theorem Phase.Executes.process {ph : Phase} (h : ph.Executes p) : ph.process = some p := by
  rcases h with rfl | rfl | rfl <;> rfl

/-- The flags of the processes follow the phases of the cores. -/
structure Tracked (s : Sys) : Prop where
  lock : ∀ p c, (s.proc p).lock = some c → (s.core c).Locked p ∧ (s.proc p).state.Terminal
  executing : ∀ p, (s.proc p).executing = true → ∃ c, (s.core c).Executes p

theorem Start.tracked (h : Start k s) : Tracked s where
  lock p c hp := by
    rw [(h.fresh p).lock] at hp
    cases hp
  executing p hp := by
    rw [(h.fresh p).executing] at hp
    cases hp

section

variable (hterm : ∀ q, (s.proc q).state.Terminal → (s'.proc q).state.Terminal)
include hterm

theorem Tracked.move {ph : Phase} (h : Tracked s) (hflags : SameFlags s s')
    (hcore : s'.core = Function.update s.core c ph)
    (hlock : ∀ q, (s.proc q).lock = some c → (s.core c).Locked q → ph.Locked q)
    (hexec : ∀ q, (s.core c).Executes q → ph.Executes q) : Tracked s' where
  lock q d hq := by
    rw [(hflags q).1] at hq
    refine ⟨?_, hterm q (h.lock q d hq).2⟩
    rw [hcore]
    rcases eq_or_ne d c with rfl | hne
    · rw [Function.update_self]
      exact hlock q hq (h.lock q d hq).1
    · rw [Function.update_of_ne hne]
      exact (h.lock q d hq).1
  executing q hq := by
    rw [(hflags q).2] at hq
    obtain ⟨d, hd⟩ := h.executing q hq
    refine ⟨d, ?_⟩
    rw [hcore]
    rcases eq_or_ne d c with rfl | hne
    · rw [Function.update_self]
      exact hexec q hd
    · rwa [Function.update_of_ne hne]

theorem Tracked.stay (h : Tracked s) (hflags : SameFlags s s') (hcore : s'.core = s.core) :
    Tracked s' where
  lock q d hq := by
    rw [(hflags q).1] at hq
    rw [hcore]
    exact ⟨(h.lock q d hq).1, hterm q (h.lock q d hq).2⟩
  executing q hq := by
    rw [(hflags q).2] at hq
    rw [hcore]
    exact h.executing q hq

end

theorem runBegin_core : ∃ ph, (s.runBegin k c p).core = Function.update s.core c ph := by
  unfold runBegin
  cases k.kind p with
  | user =>
    simp only [userRunBegin]
    split <;> exact ⟨_, rfl⟩
  | kernel =>
    simp only [kernelRunBegin]
    split <;> exact ⟨_, rfl⟩

theorem runEnd_core : ∃ ph, (s.runEnd k c p).core = Function.update s.core c ph := by
  unfold runEnd
  cases k.kind p with
  | user =>
    simp only [userRunEnd]
    split <;> exact ⟨_, rfl⟩
  | kernel =>
    simp only [kernelRunEnd]
    split <;> exact ⟨_, rfl⟩

theorem pop_core : ∃ ph, (s.pop k c).core = Function.update s.core c ph := by
  simp only [Sys.pop]
  split
  · exact ⟨_, rfl⟩
  · split <;> exact ⟨_, rfl⟩

/-- `p` starts or stops executing on core `c`. -/
theorem Tracked.switch {b : Bool} {ph : Phase} (h : Tracked s) (hheld : Holds s c p)
    (hlock : (s.core c).Locked p → ph.Locked p) (hexec : b = true → ph.Executes p) :
    Tracked ((s.setExecuting p b).setCore c ph) where
  lock q d hq := by
    have hsame : (((s.setExecuting p b).setCore c ph).proc q).lock = (s.proc q).lock ∧
        (((s.setExecuting p b).setCore c ph).proc q).state = (s.proc q).state := by
      rcases eq_or_ne q p with rfl | hne
      · rw [setExecuting, setCore, setProc_self]
        exact ⟨rfl, rfl⟩
      · rw [setExecuting, setCore, setProc_of_ne hne]
        exact ⟨rfl, rfl⟩
    rw [hsame.1] at hq
    rw [hsame.2]
    obtain ⟨hold, hend⟩ := h.lock q d hq
    refine ⟨?_, hend⟩
    rcases eq_or_ne d c with rfl | hne
    · obtain rfl := Option.some.inj (hold.process.symm.trans hheld)
      rw [setCore_self]
      exact hlock hold
    · rw [setCore_of_ne hne]
      exact hold
  executing q hq := by
    rcases eq_or_ne q p with rfl | hne
    · rw [setExecuting, setCore, setProc_self] at hq
      exact ⟨c, by rw [setCore_self]; exact hexec hq⟩
    · rw [setExecuting, setCore, setProc_of_ne hne] at hq
      obtain ⟨d, hd⟩ := h.executing q hq
      refine ⟨d, ?_⟩
      rw [setCore_of_ne]
      · exact hd
      · rintro rfl
        exact hne (Option.some.inj (hd.process.symm.trans hheld))

theorem Tracked.checkKilled (h : Tracked s) (hc : s.core c = .executing p)
    (hflags : SameFlags s s') (hcore : s'.core = s.core) (hend : (s'.proc p).state.Terminal)
    (hterm : ∀ q, (s.proc q).state.Terminal → (s'.proc q).state.Terminal) :
    Tracked ((s'.setProc p { s'.proc p with lock := some c }).setCore c (.leaving p)) where
  lock q d hq := by
    rcases eq_or_ne q p with rfl | hne
    · rw [setCore, setProc_self] at hq ⊢
      refine ⟨?_, hend⟩
      rw [← Option.some.inj hq, ← setCore, setCore_self]
      exact .inl rfl
    · rw [setCore, setProc_of_ne hne] at hq ⊢
      rw [(hflags q).1] at hq
      obtain ⟨hold, hend⟩ := h.lock q d hq
      refine ⟨?_, hterm q hend⟩
      rw [← setCore, setCore_of_ne]
      · show (s'.core d).Locked q
        rwa [hcore]
      · rintro rfl
        rw [hc] at hold
        exact hne (Option.some.inj hold.process).symm
  executing q hq := by
    have hq : (s.proc q).executing = true := by
      rw [← (hflags q).2]
      rcases eq_or_ne q p with rfl | hne
      · rwa [setCore, setProc_self] at hq
      · rwa [setCore, setProc_of_ne hne] at hq
    obtain ⟨d, hd⟩ := h.executing q hq
    refine ⟨d, ?_⟩
    rcases eq_or_ne d c with rfl | hne
    · rw [hc] at hd
      obtain rfl := Option.some.inj hd.process
      rw [setCore_self]
      exact .inr (.inr rfl)
    · rw [setCore_of_ne hne]
      show (s'.core d).Executes q
      rwa [hcore]

theorem Tracked.step (h : Tracked s) (hs : Step k s a s') : Tracked s' := by
  have hterm : ∀ q, (s.proc q).state.Terminal → (s'.proc q).state.Terminal := fun q => hs.terminal
  cases hs with
  | pop hc =>
    obtain ⟨ph, hph⟩ := pop_core (k := k) (s := s)
    refine h.move hterm pop_flags hph (fun q _ hq => ?_) fun q hq => ?_
    · rw [hc] at hq
      cases hq.process
    · rw [hc] at hq
      cases hq.process
  | runBegin hc _ =>
    obtain ⟨ph, hph⟩ := runBegin_core (k := k) (s := s)
    refine h.move hterm runBegin_flags hph (fun q _ hq => ?_) fun q hq => ?_
    · rw [hc] at hq
      rcases hq with hq | hq | ⟨w, hq⟩ <;> cases hq
    · rw [hc] at hq
      rcases hq with hq | hq | hq <;> cases hq
  | switchTo hc =>
    refine h.switch (by rw [Holds, hc]; rfl) (fun hq => ?_) fun _ => .inl rfl
    rw [hc] at hq
    rcases hq with hq | hq | ⟨w, hq⟩ <;> cases hq
  | exitClean hc _ =>
    refine h.move hterm clean_flags.setCore rfl (fun q _ hq => ?_) fun q hq => ?_
    · rw [hc] at hq
      rcases hq with hq | hq | ⟨w, hq⟩ <;> cases hq
    · rw [hc] at hq
      obtain rfl := Option.some.inj hq.process
      exact .inr (.inl rfl)
  | exitCode hc _ =>
    refine h.move hterm setState_flags rfl (fun q _ hq => ?_) fun q hq => ?_
    · rw [hc] at hq
      rcases hq with hq | hq | ⟨w, hq⟩ <;> cases hq
    · rw [hc] at hq
      obtain rfl := Option.some.inj hq.process
      exact .inr (.inr rfl)
  | checkKilled hc _ _ _ =>
    exact h.checkKilled hc doKill_flags rfl setExitCode_terminal
      fun _ => doKill_terminal
  | funcReturn hc _ =>
    refine h.move hterm setState_flags rfl (fun q _ hq => ?_) fun q hq => ?_
    · rw [hc] at hq
      rcases hq with hq | hq | ⟨w, hq⟩ <;> cases hq
    · rw [hc] at hq
      obtain rfl := Option.some.inj hq.process
      exact .inr (.inr rfl)
  | switchBack hc =>
    refine h.switch ?_ (fun _ => .inr (.inl rfl)) nofun
    rcases hc with hc | hc <;> rw [Holds, hc] <;> rfl
  | runEnd hc hl =>
    obtain ⟨ph, hph⟩ := runEnd_core (k := k) (s := s)
    refine h.move hterm runEnd_flags hph (fun q hq hq' => ?_) fun q hq => ?_
    · rw [hc] at hq'
      obtain rfl := Option.some.inj hq'.process
      rw [hl] at hq
      cases hq
    · rw [hc] at hq
      rcases hq with hq | hq | hq <;> cases hq
  | relock hc _ =>
    refine h.move hterm .refl rfl (fun q _ hq => ?_) fun q hq => ?_
    · rw [hc] at hq
      obtain rfl := Option.some.inj hq.process
      exact .inr (.inr ⟨_, rfl⟩)
    · rw [hc] at hq
      rcases hq with hq | hq | hq <;> cases hq
  | push hc =>
    refine h.move hterm (fun q => by rw [push_same.2]; exact ⟨rfl, rfl⟩) push_same.1
      (fun q _ hq => ?_) fun q hq => ?_
    · rw [hc] at hq
      rcases hq with hq | hq | ⟨w, hq⟩ <;> cases hq
    · rw [hc] at hq
      rcases hq with hq | hq | hq <;> cases hq
  | sleep _ => exact h.stay hterm sleep_same.2 sleep_same.1
  | wakeUp _ => exact h.stay hterm wakeUp_same.2 wakeUp_same.1
  | kill _ => exact h.stay hterm kill_same.2 kill_same.1
  | spawn _ _ => exact h.stay hterm .refl rfl
  | pages _ => exact h.stay hterm .refl rfl

/-! ## A ready process can be taken -/

/-- A core gives the process it has chosen one slice and puts it back. -/
theorem slice (hc : s.core c = .chosen q) (hready : (s.proc q).state = .runnable)
    (hlock : (s.proc q).lock = none) (hlast : k.lastChoice c ≠ some q) :
    ∃ acts t, Run (Step k) s acts t ∧ t.core c = .looking ∧ t.queue = s.queue ++ [q] ∧
      ∀ p, p ≠ q → t.proc p = s.proc p := by
  have hbegin : s.runBegin k c q = (s.setState q .running).setCore c (.entered q) := by
    unfold runBegin
    cases k.kind q <;> simp only [userRunBegin, kernelRunBegin, hready]
  have h1 : Run (Step k) s [.runBegin c] ((s.setState q .running).setCore c (.entered q)) :=
    Run.single (hbegin ▸ .runBegin hc hlock)
  have h2 := (h1.snoc (.switchTo setCore_self)).snoc (.switchBack (.inl setCore_self))
  generalize hs₁ :
    (((((s.setState q .running).setCore c (.entered q)).setExecuting q true).setCore c
      (.executing q)).setExecuting q false).setCore c (.switched q) = s₁ at h2
  have hproc : ∀ p, p ≠ q → s₁.proc p = s.proc p := by
    intro p hp
    rw [← hs₁]
    exact (setProc_of_ne hp).trans ((setProc_of_ne hp).trans (setProc_of_ne hp))
  have hq : (s₁.proc q).state = .running ∧ (s₁.proc q).lock = none := by
    rw [← hs₁]
    simp only [setCore, setExecuting, setState, setProc, Function.update_self]
    exact ⟨trivial, hlock⟩
  have hcore : s₁.core c = .switched q := by
    rw [← hs₁]
    exact setCore_self
  have hend : s₁.runEnd k c q = (s₁.setState q .runnable).returns c q true := by
    unfold runEnd
    cases k.kind q <;> simp only [userRunEnd, kernelRunEnd, hq.1]
  have hstep := Step.runEnd (k := k) hcore hq.2
  rw [hend] at hstep
  have h3 := h2.snoc hstep
  have h4 := h3.snoc (.push (Function.update_self ..))
  refine ⟨_, _, h4, ?_, ?_, fun p hp => ?_⟩
  · rw [push_same.1, Function.update_self]
  · rw [Sys.push, if_neg hlast, ← hs₁]
    rfl
  · rw [push_same.2]
    exact (setProc_of_ne hp).trans (hproc p hp)

theorem Placed.unlocked (h : Placed k s) (ht : Tracked s) (hp : p ∈ s.queue) :
    (s.proc p).lock = none := by
  cases hl : (s.proc p).lock with
  | none => rfl
  | some c =>
    have hholds : Holds s c p := (ht.lock p c hl).1.process
    cases h.place p with
    | idle _ _ _ hq _ => exact absurd hp hq
    | new _ _ _ hf _ => exact absurd hholds (hf c)
    | queued _ _ _ hf _ => exact absurd hholds (hf c)
    | held _ _ _ hq _ _ _ => exact absurd hp hq
    | finished _ _ _ hf _ => exact absurd hholds (hf c)

theorem Placed.not_idle (h : Placed k s) (hp : p ∈ s.pushed) (c : Nat) :
    k.lastChoice c ≠ some p := by
  cases h.place p with
  | idle _ _ ho _ _ => exact absurd hp ho
  | new _ ho _ _ _ => exact absurd hp ho
  | queued hl _ _ _ _ => exact hl c
  | held _ hl _ _ _ _ _ => exact hl c
  | finished hl _ _ _ _ => exact hl c

theorem Placed.pushed (h : Placed k s) (hp : p ∈ s.queue) : p ∈ s.pushed := by
  cases h.place p with
  | idle _ _ _ hq _ => exact absurd hp hq
  | new _ _ hq _ _ => exact absurd hp hq
  | queued _ ho _ _ _ => exact ho
  | held _ _ ho _ _ _ _ => exact ho
  | finished _ ho _ _ _ => exact ho

/-- A core holds its own `last_choice`, or a process that may run on it. -/
def Suited (k : Config) (s : Sys) : Prop :=
  ∀ c p, Holds s c p → k.lastChoice c = some p ∨ bound k c p = true

theorem Suited.update {ph : Phase} (h : Suited k s) (hcore : s'.core = Function.update s.core c ph)
    (hnew : ∀ p, ph.process = some p → k.lastChoice c = some p ∨ bound k c p = true) :
    Suited k s' := by
  intro d p hd
  rw [Holds, hcore] at hd
  rcases eq_or_ne d c with rfl | hne
  · rw [Function.update_self] at hd
    exact hnew p hd
  · rw [Function.update_of_ne hne] at hd
    exact h d p hd

theorem Suited.step (h : Suited k s) (hs : Step k s a s') : Suited k s' := by
  cases hs.change with
  | stay _ _ hcore _ => exact fun c p hp => h c p (by rwa [Holds, hcore] at hp)
  | ended _ _ _ _ _ hcore _ _ => exact h.update hcore nofun
  | take _ _ _ _ _ hb _ _ _ hcore _ =>
    exact h.update hcore fun _ hx => .inr (Option.some.inj hx ▸ hb)
  | idle _ _ _ hl _ _ hcore _ => exact h.update hcore fun _ hx => .inl (hl.trans hx)
  | put _ _ _ _ _ _ hcore _ => exact h.update hcore nofun
  | leave _ _ _ _ _ _ hcore _ => exact h.update hcore nofun
  | spawn _ _ _ _ _ hcore _ => exact fun c p hp => h c p (by rwa [Holds, hcore] at hp)

/-- A process on the queue that is ready comes to the front: the core takes those before it, one
after the other, and puts them back behind it. -/
theorem can_pop (hb : bound k c p = true) : ∀ {n : Nat} {s : Sys}, Placed k s → Tracked s →
    s.core c = .looking → p ∈ s.queue → (s.proc p).state.Ready → s.queue.idxOf p = n →
    ∃ later t, Run (Step k) s later t ∧ .pop c (some p) ∈ later := by
  intro n
  induction n using Nat.strongRecOn with
  | ind n ih =>
    intro s hplaced htracked hc hp hready hn
    cases hscan : (scan k c s.proc [] s.queue).2 with
    | none => exact absurd ⟨hready, hb⟩ (scan_none hscan p hp)
    | some r =>
      obtain ⟨q, rest⟩ := r
      have hpop : Step k s (.pop c (some q)) (s.pop k c) := by
        have := Step.pop (k := k) hc
        rwa [popped, hscan] at this
      rcases eq_or_ne q p with rfl | hne
      · exact ⟨_, _, Run.single hpop, List.mem_singleton_self _⟩
      obtain ⟨l₁, l₂, hqueue, hrest, -, hrun, hbefore⟩ := scan_some hscan
      have hq : q ∈ s.queue := by
        rw [hqueue]
        simp
      have hs₁ : s.pop k c =
          { s with proc := (scan k c s.proc [] s.queue).1, queue := rest }.setCore c
          (.chosen q) := by
        simp only [Sys.pop, hscan]
      have hplaced₁ := hplaced.step hpop
      have htracked₁ := htracked.step hpop
      have hlock : ((s.pop k c).proc q).lock = none := by
        rw [(pop_flags q).1]
        exact hplaced.unlocked htracked hq
      obtain ⟨acts, t, hslice, hcore, htq, hproc⟩ :=
        slice (k := k) (s := s.pop k c) (c := c) (q := q)
        (by rw [hs₁]; exact setCore_self) (by rw [pop_proc]; exact hrun) hlock
        (hplaced.not_idle (hplaced.pushed hq) c)
      have hinv : Placed k t ∧ Tracked t := hslice.invariant (I := fun u => Placed k u ∧ Tracked u)
        (fun u b v hu hv => ⟨hu.1.step hv, hu.2.step hv⟩) ⟨hplaced₁, htracked₁⟩
      have htq : t.queue = l₁ ++ l₂ ++ [q] := by
        rw [htq, hs₁]
        show rest ++ [q] = _
        rw [hrest]
        rfl
      have hp₁ : p ∉ l₁ := fun h => hbefore p h ⟨hready, hb⟩
      have hp₂ : p ∈ l₂ := by
        rw [hqueue] at hp
        rcases List.mem_append.mp hp with h | h
        · exact absurd h hp₁
        · exact (List.mem_cons.mp h).resolve_left hne.symm
      have hready' : (t.proc p).state.Ready := by
        rw [hproc p hne.symm]
        rcases pop_proc_cases (k := k) (s := s) (c := c) p with h | ⟨-, -, h⟩ <;> rw [h]
        · exact hready
        · exact .inl rfl
      obtain ⟨later, u, hlater, hmem⟩ := ih (t.queue.idxOf p) (by
        rw [← hn, htq, hqueue, List.append_assoc, List.idxOf_append_of_notMem hp₁,
          List.idxOf_append_of_notMem hp₁, List.idxOf_append_of_mem hp₂,
          List.idxOf_cons_ne _ hne]
        omega) hinv.1 hinv.2 hcore (by rw [htq]; simp [hp₂]) hready' rfl
      exact ⟨_, u, ((Run.single hpop).append hslice).append hlater, List.mem_append_right _ hmem⟩

/-! ## The result -/

theorem Start.inv (hstart : Start k s₀) (hrun : Run (Step k) s₀ acts s) : Placed k s ∧ Tracked s :=
  hrun.invariant (I := fun u => Placed k u ∧ Tracked u)
    (fun _ _ _ hu hv => ⟨hu.1.step hv, hu.2.step hv⟩) ⟨hstart.placed, hstart.tracked⟩

theorem Start.suited (hstart : Start k s₀) (hrun : Run (Step k) s₀ acts s) : Suited k s := by
  refine hrun.invariant (I := Suited k) (fun _ _ _ hu hv => hu.step hv) fun c p hp => ?_
  rw [Holds, hstart.core c] at hp
  cases hp

/-- A core takes no process that is bound to another one. -/
theorem pop_bound (hrun : Run (Step k) s₀ acts s) : ∀ c p, .pop c (some p) ∈ acts →
    bound k c p = true := by
  refine hrun.history (I := fun ls _ => ∀ c p, .pop c (some p) ∈ ls → bound k c p = true) ?_
    fun _ _ h => (List.not_mem_nil h).elim
  intro ls u b v hls hv c p hmem
  rcases List.mem_append.mp hmem with hmem | hmem
  · exact hls c p hmem
  obtain rfl := (List.mem_singleton.mp hmem).symm
  generalize hr : some p = r at hv
  cases hv with
  | pop _ =>
    rw [popped, eq_comm, Option.map_eq_some_iff] at hr
    obtain ⟨⟨q, rest⟩, hscan, rfl⟩ := hr
    obtain ⟨-, -, -, -, hb, -, -⟩ := scan_some hscan
    exact hb

/-- What `run` does with a process that was woken during its slice. -/
theorem runEnd_wakenUp (hp : (s.proc p).state = .wakenUp) :
    s.runEnd k c p = s.returns c p true := by
  unfold runEnd
  cases k.kind p <;> simp only [userRunEnd, kernelRunEnd, hp]

/-- A process that was woken during its slice can be taken again. -/
theorem woken_can_pop (hplaced : Placed k s) (htracked : Tracked s) (hp : p ∈ s.pushed)
    (hb : bound k c p = true) (hc : s.core c = .switched p) (hw : (s.proc p).state = .wakenUp) :
    ∃ later t, Run (Step k) s later t ∧ .pop c (some p) ∈ later := by
  have hlock : (s.proc p).lock = none := by
    cases hl : (s.proc p).lock with
    | none => rfl
    | some d =>
      have hend := (htracked.lock p d hl).2
      rw [hw] at hend
      exact absurd hend (by decide)
  have hend := Step.runEnd (k := k) hc hlock
  rw [runEnd_wakenUp hw] at hend
  have hpush : Step k (s.returns c p true) (.push c) ((s.returns c p true).push k c p) :=
    .push (Function.update_self ..)
  have hplaced' := (hplaced.step hend).step hpush
  have htracked' := (htracked.step hend).step hpush
  obtain ⟨later, t, hlater, hmem⟩ := can_pop hb hplaced' htracked'
    (by rw [push_same.1, Function.update_self])
    (by rw [Sys.push, if_neg (hplaced.not_idle hp c)]; exact List.mem_append_right _ (by simp))
    (by rw [push_same.2]; exact .inr hw) rfl
  exact ⟨_, t, ((Run.single hend).snoc hpush).append hlater, List.mem_append_right _ hmem⟩

/-- Every process that was pushed is on the queue once, or held by one core, or finished. A core
takes no process that is bound to another one, and a process that goes to sleep and is woken
before the end of its slice goes back on the queue and can be taken again. -/
theorem process_placed (hstart : Start k s₀) (hrun : Run (Step k) s₀ acts s) :
    (∀ p ∈ s.pushed,
      (s.queue.count p = 1 ∧ (∀ c, ¬ Holds s c p) ∧ ¬ Finished s p) ∨
      (p ∉ s.queue ∧ (∃! c, Holds s c p) ∧ ¬ Finished s p) ∨
      (p ∉ s.queue ∧ (∀ c, ¬ Holds s c p) ∧ Finished s p)) ∧
    (∀ c p, .pop c (some p) ∈ acts → bound k c p = true) ∧
    ∀ c p, p ∈ s.pushed → s.core c = .executing p ∨ s.core c = .switched p →
      (s.proc p).state = .wakenUp →
      (∀ s', Step k s (.runEnd c) s' → s'.core c = .pushing p ∧
        ∀ t, Step k s' (.push c) t → p ∈ t.queue) ∧
      ∃ later t, Run (Step k) s later t ∧ .pop c (some p) ∈ later := by
  obtain ⟨hplaced, htracked⟩ := hstart.inv hrun
  refine ⟨fun p hp => ?_, pop_bound hrun, fun c p hp hc hw => ⟨fun s' hs' => ?_, ?_⟩⟩
  · cases hplaced.place p with
    | idle _ _ ho _ _ => exact absurd hp ho
    | new _ ho _ _ _ => exact absurd hp ho
    | queued _ _ hq hf hr =>
      exact .inl ⟨List.count_eq_one_of_mem hplaced.nodup hq, hf, fun h => hr h.1⟩
    | held c _ _ hq hc hown hr => exact .inr (.inl ⟨hq, ⟨c, hc, hown⟩, fun h => hr h.1⟩)
    | finished _ _ hq hf hd => exact .inr (.inr ⟨hq, hf, hd⟩)
  · have hlast := hplaced.not_idle hp c
    cases hs' with
    | runEnd hc' _ =>
      rcases hc with hc | hc
      · rw [hc] at hc'
        cases hc'
      obtain rfl := Phase.switched.inj (hc.symm.trans hc')
      rw [runEnd_wakenUp hw]
      have hcore : (s.returns c p true).core c = .pushing p := Function.update_self ..
      refine ⟨hcore, fun t ht => ?_⟩
      cases ht with
      | push h =>
        obtain rfl := Phase.pushing.inj (hcore.symm.trans h)
        rw [Sys.push, if_neg hlast]
        exact List.mem_append_right _ (List.mem_singleton_self p)
  · have hholds : Holds s c p := by
      rcases hc with hc | hc <;> rw [Holds, hc] <;> rfl
    have hb := (hstart.suited hrun c p hholds).resolve_left (hplaced.not_idle hp c)
    rcases hc with hc | hc
    · -- the process has to switch back first
      have hback := Step.switchBack (k := k) (.inl hc)
      obtain ⟨later, t, hlater, hmem⟩ :=
        woken_can_pop (hplaced.step hback) (htracked.step hback) hp hb
        setCore_self (by rw [setExecuting, setCore, setProc_self]; exact hw)
      exact ⟨_, t, (Run.single hback).append hlater, List.mem_append_right _ hmem⟩
    · exact woken_can_pop hplaced htracked hp hb hc hw

/-- User processes without parents that may run anywhere, and no idle processes. -/
def userConfig : Config := ⟨fun _ => .user, fun _ => false, fun _ => none, fun _ => none⟩

/-- One process on the queue. -/
def userStart : Sys where
  proc p := ⟨.wakenUp, none, false, [(p + 1) * pageSize], 0⟩
  queue := [0]
  core _ := .looking
  live _ := true
  pushed := [0]
  result _ := none
  log := []

theorem userStart_start : Start userConfig userStart where
  fresh _ := ⟨.inr (.inr rfl), rfl, rfl, List.nodup_singleton _, fun _ _ => rfl, nofun⟩
  disjoint p q hpq := by
    refine List.disjoint_singleton.mpr fun h => hpq ?_
    exact (Nat.succ.inj (Nat.eq_of_mul_eq_mul_right (by decide) (List.mem_singleton.mp h))).symm
  core _ := rfl
  queue := List.nodup_singleton 0
  pushed _ := Iff.rfl
  result _ := rfl
  log := rfl
  idle _ _ h := nomatch h
  one _ _ _ h := nomatch h

/-- The process of `userStart` after it was switched to. -/
def userRunning : Sys :=
  ((((userStart.pop userConfig 0).runBegin userConfig 0 0).setExecuting 0 true).setCore 0
    (.executing 0))

theorem userRunning_run :
    Run (Step userConfig) userStart [.pop 0 (some 0), .runBegin 0, .switchTo 0] userRunning := by
  have h1 : Run (Step userConfig) userStart [.pop 0 (some 0)] (userStart.pop userConfig 0) :=
    Run.single (.pop rfl)
  have h2 := h1.snoc (.runBegin (c := 0) (p := 0) rfl rfl)
  exact h2.snoc (.switchTo (c := 0) (p := 0) rfl)

/-- The process sleeps and is woken in its first slice. -/
theorem process_placed_woken :
    ((userRunning.sleep 0).wakeUp 0).core 0 = .executing 0 ∧
    (((userRunning.sleep 0).wakeUp 0).proc 0).state = .wakenUp ∧
    ∃ later t, Run (Step userConfig) ((userRunning.sleep 0).wakeUp 0) later t ∧
      .pop 0 (some 0) ∈ later := by
  have hrun := (userRunning_run.snoc (.sleep (p := 0) rfl)).snoc (.wakeUp (p := 0) rfl)
  have h := (process_placed userStart_start hrun).2.2 0 0 (by decide) (.inl rfl) rfl
  exact ⟨rfl, rfl, h.2⟩

end CoroCore.Proc
