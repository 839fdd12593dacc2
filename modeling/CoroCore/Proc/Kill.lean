import CoroCore.Proc.Poll
import CoroCore.Proc.RunState

/-!
# Killing a process

`kill` is lazy only for a process that is `RUNNING`: in every other state it cleans up at once.
A process that executes can be in another state, when it was killed before, when it has gone to
sleep, or when it has set its exit code; and a kernel process whose slice has not ended is cleaned
again by `run`. A kill between `waken_up` and `set_runnable` of `pop` is overwritten, and the
process runs again. Kills that avoid these moments are safe (`kill_safe`).
-/

namespace CoroCore.Proc

open Lib Sys

variable {k : Config} {s s' s₀ : Sys} {a : Act} {acts : List Act} {c d p q : Nat}

/-- The cleaning gives back pages of `p`. -/
def Clean.releases (e : Clean) (p : Nat) : Bool := e.process = p && e.freed ≠ []

/-- No process was cleaned while it was executing, but by itself; none released its resources
twice; and `free_page` got live pages only. -/
structure KillSafe (s : Sys) : Prop where
  executing : ∀ e ∈ s.log, e.executing = true → e.own = true
  once : ∀ p, s.log.countP (·.releases p) ≤ 1
  live : ∀ e ∈ s.log, ∀ r ∈ e.freed, r.2 = true

/-- A core in this phase is inside `run` of `p`, after the state was set to `RUNNING`. -/
def Phase.Inside (ph : Phase) (p : Nat) : Prop :=
  ph = .entered p ∨ ph = .executing p ∨ ph = .exiting p ∨ ph = .leaving p ∨ ph = .switched p

/-- `p` is inside `run` on some core. -/
def InRun (s : Sys) (p : Nat) : Prop := ∃ c, (s.core c).Inside p

/-- The process that is killed is `RUNNING`; or it is a user process that is not executing; or it
is a kernel process that is not inside `run` and still has its stack. -/
def KillOk (k : Config) (s : Sys) : Act → Prop
  | .kill p => (s.proc p).state = .running ∨ (k.kind p = .user ∧ (s.proc p).executing = false) ∨
      (k.kind p = .kernel ∧ ¬ InRun s p ∧ (s.proc p).stackBottom ≠ 0)
  | _ => True

/-- A kill meets `KillOk`, and no `pop` is about to wake the process. -/
def MoveOk (k : Config) (u : Polled) : Move → Prop
  | .act a => KillOk k u.sys a ∧ ∀ p, a = .kill p → ¬ u.Waking p
  | _ => True

/-! ## The pages of a process -/

/-- Every page of a process is live, no two processes share one, and a process that has pages has
released none. -/
structure Owns (k : Config) (s : Sys) : Prop where
  live : ∀ p, ∀ a ∈ s.owned k p, s.live a = true
  nodup : ∀ p, (s.owned k p).Nodup
  disjoint : ∀ p q, p ≠ q → (s.owned k p).Disjoint (s.owned k q)
  kept : ∀ p, s.owned k p ≠ [] → ∀ e ∈ s.log, e.releases p = false
  stack : ∀ p, k.kind p = .kernel → (s.proc p).stackBottom = 0 ∨
    (pageSize ≤ (s.proc p).stackBottom ∧ (s.proc p).stackBottom < 2 ^ 64)
  safe : KillSafe s

theorem Start.owns (h : Start k s) : Owns k s where
  live p := (h.fresh p).live
  nodup p := (h.fresh p).nodup
  disjoint := h.disjoint
  kept _ _ e he := by
    rw [h.log] at he
    exact (List.not_mem_nil he).elim
  stack p hk := by
    rcases (h.fresh p).stack hk with ⟨-, h⟩ | ⟨-, h⟩
    · exact .inr h
    · exact .inl h
  safe := by
    refine ⟨fun e he => ?_, fun p => ?_, fun e he => ?_⟩ <;> rw [h.log] at *
    · exact (List.not_mem_nil he).elim
    · exact Nat.zero_le 1
    · exact (List.not_mem_nil he).elim

/-- The resources of the processes, the live pages and the cleanings are the same. -/
structure SamePages (s s' : Sys) : Prop where
  mapped : ∀ q, (s'.proc q).mapped = (s.proc q).mapped
  stack : ∀ q, (s'.proc q).stackBottom = (s.proc q).stackBottom
  live : s'.live = s.live
  log : s'.log = s.log

theorem SamePages.refl : SamePages s s := ⟨fun _ => rfl, fun _ => rfl, rfl, rfl⟩

theorem SamePages.owned (h : SamePages s s') : s'.owned k p = s.owned k p := by
  unfold Sys.owned
  rw [h.mapped, h.stack]

theorem Owns.congr (h : Owns k s) (hs : SamePages s s') : Owns k s' where
  live p a ha := by
    rw [hs.live]
    exact h.live p a (hs.owned ▸ ha)
  nodup p := hs.owned ▸ h.nodup p
  disjoint p q hpq := by
    rw [hs.owned, hs.owned]
    exact h.disjoint p q hpq
  kept p hp e he := h.kept p (hs.owned ▸ hp) e (hs.log ▸ he)
  stack p hk := by
    rw [hs.stack]
    exact h.stack p hk
  safe := by
    refine ⟨?_, ?_, ?_⟩ <;> rw [hs.log]
    · exact h.safe.executing
    · exact h.safe.once
    · exact h.safe.live

/-- `free_page` on distinct live pages. -/
theorem freePages_spec : ∀ {l : List Nat} {live : Nat → Bool}, l.Nodup → (∀ a ∈ l, live a = true) →
    (∀ r ∈ (freePages l live).1, r.2 = true) ∧ ∀ a, a ∉ l → (freePages l live).2 a = live a
  | [], _, _, _ => ⟨fun _ hr => (List.not_mem_nil hr).elim, fun _ _ => rfl⟩
  | x :: l, live, hnodup, hlive => by
    obtain ⟨hx, hnodup⟩ := List.nodup_cons.mp hnodup
    obtain ⟨h1, h2⟩ := freePages_spec (l := l) hnodup fun a ha => by
      show Function.update live x false a = true
      rw [Function.update_of_ne]
      · exact hlive a (List.mem_cons_of_mem x ha)
      · rintro rfl
        exact hx ha
    refine ⟨fun r hr => ?_, fun a ha => ?_⟩
    · rcases List.mem_cons.mp hr with rfl | hr
      · exact hlive x List.mem_cons_self
      · exact h1 r hr
    · obtain ⟨hne, ha⟩ := not_or.mp (mt List.mem_cons.mpr ha)
      exact (h2 a ha).trans (Function.update_of_ne hne ..)

theorem freePages_nil {l : List Nat} {live : Nat → Bool}
    (h : (freePages l live).1 ≠ []) : l ≠ [] := by
  rintro rfl
  exact h rfl

/-- What `__clean_resources` frees, if a kernel process still has its stack. -/
theorem Owns.freed (h : Owns k s) (hp : k.kind p = .kernel → (s.proc p).stackBottom ≠ 0) :
    (s.proc p).freed (k.kind p) = s.owned k p := by
  unfold Process.freed Sys.owned
  cases hk : k.kind p with
  | user => rfl
  | kernel =>
    obtain ⟨hle, hlt⟩ := (h.stack p hk).resolve_left (hp hk)
    rw [if_neg (hp hk)]
    have : (s.proc p).stackBottom + 2 ^ 64 - pageSize =
        (s.proc p).stackBottom - pageSize + 2 ^ 64 := by
      omega
    show [((s.proc p).stackBottom + 2 ^ 64 - pageSize) % 2 ^ 64] = _
    rw [this, Nat.add_mod_right, Nat.mod_eq_of_lt (Nat.lt_of_le_of_lt (Nat.sub_le _ _) hlt)]

theorem clean_owned {own : Bool} : (s.clean k own p).owned k q = if q =
    p then [] else s.owned k q := by
  unfold Sys.owned
  rcases eq_or_ne q p with rfl | hq
  · rw [clean_self, if_pos rfl]
    cases k.kind q <;> rfl
  · rw [clean_of_ne hq, if_neg hq]

theorem clean_stack {own : Bool} (hq : k.kind q = .kernel) :
    ((s.clean k own p).proc q).stackBottom = if q = p then 0 else (s.proc q).stackBottom := by
  rcases eq_or_ne q p with rfl | h
  · rw [clean_self, hq, if_pos rfl]
    rfl
  · rw [clean_of_ne h, if_neg h]

/-- A process that is not executing is cleaned, or it cleans itself up. -/
theorem Owns.clean {own : Bool} (h : Owns k s)
    (hp : k.kind p = .kernel → (s.proc p).stackBottom ≠ 0)
    (hown : (s.proc p).executing = true → own = true) : Owns k (s.clean k own p) := by
  obtain ⟨hfreed, hother⟩ := freePages_spec (h.nodup p) (h.live p)
  have hlive : (s.clean k own p).live = (freePages (s.owned k p) s.live).2 := by
    rw [← h.freed hp]
    rfl
  have hlog : (s.clean k own p).log =
      s.log ++ [⟨p, own, (s.proc p).executing, (freePages (s.owned k p) s.live).1⟩] := by
    rw [← h.freed hp]
    rfl
  generalize he :
    (⟨p, own, (s.proc p).executing, (freePages (s.owned k p) s.live).1⟩ : Clean) = e at hlog
  have hmem : ∀ x ∈ (s.clean k own p).log, x ∈ s.log ∨ x = e := by
    intro x hx
    rw [hlog] at hx
    exact (List.mem_append.mp hx).imp_right List.mem_singleton.mp
  have hrel : ∀ q, e.releases q = true → q = p ∧ s.owned k p ≠ [] := by
    intro q hq
    rw [← he] at hq
    obtain ⟨h1, h2⟩ := Bool.and_eq_true_iff.mp hq
    exact ⟨(of_decide_eq_true h1).symm, freePages_nil (of_decide_eq_true h2)⟩
  refine ⟨fun q a ha => ?_, fun q => ?_, fun q r hqr => ?_, fun q hq x hx => ?_, fun q hk => ?_,
    ⟨fun x hx hexec => ?_, fun q => ?_, fun x hx r hr => ?_⟩⟩
  · rw [clean_owned] at ha
    split at ha
    · exact (List.not_mem_nil ha).elim
    · next hne =>
      rw [hlive, hother a fun ha' => h.disjoint q p hne ha ha']
      exact h.live q a ha
  · rw [clean_owned]
    split
    · exact List.nodup_nil
    · exact h.nodup q
  · rw [clean_owned, clean_owned]
    split
    · exact List.disjoint_nil_left _
    · split
      · exact List.disjoint_nil_right _
      · exact h.disjoint q r hqr
  · rw [clean_owned] at hq
    split at hq
    · exact absurd rfl hq
    · next hne =>
      rcases hmem x hx with hx | rfl
      · exact h.kept q hq x hx
      · exact Bool.eq_false_iff.mpr fun hr => hne (hrel q hr).1
  · rw [clean_stack hk]
    split
    · exact .inl rfl
    · exact h.stack q hk
  · rcases hmem x hx with hx | rfl
    · exact h.safe.executing x hx hexec
    · rw [← he] at hexec ⊢
      exact hown hexec
  · rw [hlog, List.countP_append, List.countP_singleton]
    split
    · next hr =>
      -- nothing was released before
      obtain ⟨rfl, hne⟩ := hrel q hr
      have hzero : s.log.countP (·.releases q) = 0 :=
        List.countP_eq_zero.mpr fun x hx => by
          rw [h.kept q hne x hx]
          exact nofun
      exact Nat.le_of_eq (congrArg (· + 1) hzero)
    · exact h.safe.once q
  · rcases hmem x hx with hx | rfl
    · exact h.safe.live x hx r hr
    · rw [← he] at hr
      exact hfreed r hr

/-! ## Which steps clean -/

theorem SamePages.trans {t : Sys} (h : SamePages s s') (h' : SamePages s' t) : SamePages s t :=
  ⟨fun q => (h'.mapped q).trans (h.mapped q), fun q => (h'.stack q).trans (h.stack q),
    h'.live.trans h.live, h'.log.trans h.log⟩

/-- An update of a process that leaves its resources alone. -/
theorem setProc_pages {x : Process} (hm : x.mapped = (s.proc p).mapped)
    (hb : x.stackBottom = (s.proc p).stackBottom) : SamePages s (s.setProc p x) := by
  refine ⟨fun q => ?_, fun q => ?_, rfl, rfl⟩ <;> rcases eq_or_ne q p with rfl | h
  · rw [setProc_self, hm]
  · rw [setProc_of_ne h]
  · rw [setProc_self, hb]
  · rw [setProc_of_ne h]

theorem setState_pages {st : State} : SamePages s (s.setState p st) := setProc_pages rfl rfl

theorem SamePages.setCore {ph : Phase} (h : SamePages s s') : SamePages s (s'.setCore c ph) :=
  ⟨h.mapped, h.stack, h.live, h.log⟩

theorem SamePages.returns {b : Bool} (h : SamePages s s') : SamePages s (s'.returns c p b) :=
  ⟨h.mapped, h.stack, h.live, h.log⟩

/-- What a step does to the resources. -/
inductive Spends (k : Config) (s : Sys) (a : Act) (s' : Sys) : Prop
  | none (same : SamePages s s')
  | self (p : Nat) (user : k.kind p = .user) (same : SamePages (s.clean k true p) s')
  | kill (p : Nat) (act : a = .kill p) (state : (s.proc p).state ≠ .running)
      (core : s'.core = s.core)
      (terminal : (s'.proc p).state.Terminal) (same : SamePages (s.clean k false p) s')
  | run (c p : Nat) (switched : s.core c = .switched p)
      (core : s'.core = Function.update s.core c .looking) (terminal : (s'.proc p).state.Terminal)
      (same : SamePages (s.clean k false p) s')
  | pages (proc : s'.proc = s.proc) (core : s'.core = s.core) (log : s'.log = s.log)
      (keep : ∀ p, ∀ a ∈ s.owned k p, s'.live a = true)

theorem runEnd_spends (hc : s.core c = .switched p) : Spends k s a (s.runEnd k c p) := by
  unfold runEnd
  cases hk : k.kind p with
  | user =>
    simp only [userRunEnd]
    split
    · exact .run c p hc rfl setExitCode_terminal (SamePages.returns setState_pages)
    · exact .none setState_pages.returns
    · exact .none SamePages.refl.returns
    · exact .none SamePages.refl.returns
    · exact .none SamePages.refl.returns
    · exact .none SamePages.refl.returns
    · exact .none SamePages.refl.returns
    · exact .none SamePages.refl.setCore
  | kernel =>
    simp only [kernelRunEnd]
    split
    · exact .none setState_pages.returns
    · next hx =>
      refine .run c p hc rfl (.inl ?_) SamePages.refl.returns
      show ((s.clean k false p).proc p).state = .exited
      rw [clean_proc.1, hx]
    · exact .none SamePages.refl.returns
    · exact .none SamePages.refl.returns
    · exact .none SamePages.refl.returns
    · exact .none SamePages.refl.setCore

theorem runBegin_pages : SamePages s (s.runBegin k c p) := by
  unfold runBegin
  cases k.kind p with
  | user =>
    simp only [userRunBegin]
    split
    · exact SamePages.refl.returns
    · exact SamePages.refl.returns
    · exact setState_pages.setCore
    · exact SamePages.refl.setCore
  | kernel =>
    simp only [kernelRunBegin]
    split
    · exact SamePages.refl.returns
    · exact setState_pages.setCore
    · exact SamePages.refl.setCore

theorem pop_pages : SamePages s (s.pop k c) := by
  have hproc : ∀ q, ((s.pop k c).proc q).mapped = (s.proc q).mapped ∧
      ((s.pop k c).proc q).stackBottom = (s.proc q).stackBottom := by
    intro q
    rcases pop_proc_cases (k := k) (s := s) (c := c) q with h | ⟨-, -, h⟩ <;> rw [h] <;>
      exact ⟨rfl, rfl⟩
  refine ⟨fun q => (hproc q).1, fun q => (hproc q).2, ?_, ?_⟩ <;> simp only [Sys.pop]
  all_goals
    split
    · rfl
    · split <;> rfl

theorem Pop.Going.pages {r : Pop} (h : r.Going k s) : SamePages s (r.access k s).sys := by
  have hproc : ∀ q, ((r.access k s).sys.proc q).mapped = (s.proc q).mapped ∧
      ((r.access k s).sys.proc q).stackBottom = (s.proc q).stackBottom := by
    intro q
    rcases h.proc q with h | ⟨-, h⟩ <;> rw [h] <;> exact ⟨rfl, rfl⟩
  refine ⟨fun q => (hproc q).1, fun q => (hproc q).2, ?_, ?_⟩ <;> unfold Pop.access
  all_goals
    split
    · split <;> rfl
    · split
      · rfl
      · rfl
      · split
        · rfl
        · split <;> rfl
      · split <;> rfl

theorem Step.spends (h : Step k s a s') : Spends k s a s' := by
  cases h with
  | pop _ => exact .none pop_pages
  | runBegin _ _ => exact .none runBegin_pages
  | switchTo _ => exact .none (SamePages.setCore (setProc_pages rfl rfl))
  | exitClean _ hk => exact .self _ hk SamePages.refl.setCore
  | exitCode _ _ => exact .none (SamePages.setCore setState_pages)
  | checkKilled _ hk _ _ =>
    exact .self _ hk (SamePages.setCore (setState_pages.trans (setProc_pages rfl rfl)))
  | funcReturn _ _ => exact .none (SamePages.setCore setState_pages)
  | switchBack _ => exact .none (SamePages.setCore (setProc_pages rfl rfl))
  | runEnd hc _ => exact runEnd_spends hc
  | relock _ _ => exact .none SamePages.refl.setCore
  | push _ =>
    refine .none ?_
    unfold Sys.push
    split <;> exact ⟨fun _ => rfl, fun _ => rfl, rfl, rfl⟩
  | sleep _ =>
    refine .none ?_
    unfold Sys.sleep
    split
    · exact .refl
    · exact setState_pages
  | wakeUp _ =>
    refine .none ?_
    unfold Sys.wakeUp
    split
    · exact setState_pages
    · exact .refl
  | kill _ =>
    unfold Sys.kill
    split
    · next hx => exact .kill _ rfl hx rfl setExitCode_terminal setState_pages
    · exact .none setState_pages
  | spawn _ _ => exact .none ⟨fun _ => rfl, fun _ => rfl, rfl, rfl⟩
  | pages hkeep => exact .pages rfl rfl rfl hkeep

/-! ## The stack of a kernel process -/

/-- The process was made and has not ended. -/
def State.Alive (x : State) : Prop := x ≠ .init ∧ x ≠ .allocated ∧ ¬ x.Terminal

instance : DecidablePred State.Alive := fun x =>
  inferInstanceAs (Decidable (x ≠ .init ∧ x ≠ .allocated ∧ ¬ x.Terminal))

/-- A kernel process that can still run has its stack. -/
structure Stacks (k : Config) (s : Sys) : Prop where
  inRun : ∀ p, k.kind p = .kernel → InRun s p → (s.proc p).stackBottom ≠ 0
  alive : ∀ p, k.kind p = .kernel → (s.proc p).state.Alive → (s.proc p).stackBottom ≠ 0

theorem Start.stacks (h : Start k s) : Stacks k s where
  inRun p _ hp := by
    obtain ⟨c, hc⟩ := hp
    rw [h.core c] at hc
    rcases hc with hc | hc | hc | hc | hc <;> cases hc
  alive p hk hp := by
    rcases (h.fresh p).stack hk with ⟨-, h, -⟩ | ⟨hx, -⟩
    · exact Nat.pos_iff_ne_zero.mp (Nat.lt_of_lt_of_le (by decide) h)
    · exact absurd hx hp.1

theorem Turn.alive {x y : State} (h : Turn k s a p x y) (hy : y.Alive) : x.Alive := by
  cases h with
  | same => exact hy
  | exit => exact absurd exitState_terminal hy.2.2
  | ready | start | again | sleep | wake | kill => decide

theorem Phase.Inside.process {ph : Phase} (h : ph.Inside p) : ph.process = some p := by
  rcases h with rfl | rfl | rfl | rfl | rfl <;> rfl

theorem Phase.Executes.inside {ph : Phase} (h : ph.Executes p) : ph.Inside p := by
  rcases h with rfl | rfl | rfl
  · exact .inr (.inl rfl)
  · exact .inr (.inr (.inl rfl))
  · exact .inr (.inr (.inr (.inl rfl)))

/-- Core `c` goes to phase `ph`. -/
theorem InRun.update {ph : Phase} (hcore : s'.core = Function.update s.core c ph) (h : InRun s' p)
    (hph : ph.Inside p → (s.core c).Inside p ∨ (s.proc p).state = .runnable) :
    InRun s p ∨ (s.proc p).state = .runnable := by
  obtain ⟨d, hd⟩ := h
  rw [hcore] at hd
  rcases eq_or_ne d c with rfl | hne
  · rw [Function.update_self] at hd
    exact (hph hd).imp_left fun h => ⟨d, h⟩
  · rw [Function.update_of_ne hne] at hd
    exact .inl ⟨d, hd⟩

theorem runBegin_phase : ∃ ph, (s.runBegin k c p).core = Function.update s.core c ph ∧
    ∀ q, ph.Inside q → q = p ∧ (s.proc p).state = .runnable := by
  have hno : ∀ w q, ¬ (Phase.panicked p w).Inside q := by
    rintro w q (h | h | h | h | h) <;> cases h
  have hno' : ∀ q, ¬ Phase.looking.Inside q := by
    rintro q (h | h | h | h | h) <;> cases h
  have hentered : (s.proc p).state = .runnable → ∀ q, (Phase.entered p).Inside q →
      q = p ∧ (s.proc p).state = .runnable := fun hx q h => ⟨(Option.some.inj h.process).symm, hx⟩
  unfold runBegin
  cases k.kind p with
  | user =>
    simp only [userRunBegin]
    split
    · exact ⟨.looking, rfl, fun q h => absurd h (hno' q)⟩
    · exact ⟨.looking, rfl, fun q h => absurd h (hno' q)⟩
    · next hx => exact ⟨.entered p, rfl, hentered hx⟩
    · exact ⟨_, rfl, fun q h => absurd h (hno _ q)⟩
  | kernel =>
    simp only [kernelRunBegin]
    split
    · exact ⟨.looking, rfl, fun q h => absurd h (hno' q)⟩
    · next hx => exact ⟨.entered p, rfl, hentered hx⟩
    · exact ⟨_, rfl, fun q h => absurd h (hno _ q)⟩

theorem runEnd_phase : ∃ ph, (s.runEnd k c p).core = Function.update s.core c ph ∧
    ∀ q, ¬ ph.Inside q := by
  have hno : ∀ ph : Phase, ph = .looking ∨ ph = .pushing p ∨ ph = .panicked p .invalidState →
      ∀ q, ¬ ph.Inside q := by
    rintro ph (rfl | rfl | rfl) q (h | h | h | h | h) <;> cases h
  unfold runEnd
  cases k.kind p with
  | user =>
    simp only [userRunEnd]
    split
    · exact ⟨.looking, rfl, hno _ (.inl rfl)⟩
    · exact ⟨.pushing p, rfl, hno _ (.inr (.inl rfl))⟩
    · exact ⟨.looking, rfl, hno _ (.inl rfl)⟩
    · exact ⟨.looking, rfl, hno _ (.inl rfl)⟩
    · exact ⟨.pushing p, rfl, hno _ (.inr (.inl rfl))⟩
    · exact ⟨.pushing p, rfl, hno _ (.inr (.inl rfl))⟩
    · exact ⟨.pushing p, rfl, hno _ (.inr (.inl rfl))⟩
    · exact ⟨_, rfl, hno _ (.inr (.inr rfl))⟩
  | kernel =>
    simp only [kernelRunEnd]
    split
    · exact ⟨.pushing p, rfl, hno _ (.inr (.inl rfl))⟩
    · exact ⟨.looking, rfl, hno _ (.inl rfl)⟩
    · exact ⟨.pushing p, rfl, hno _ (.inr (.inl rfl))⟩
    · exact ⟨.pushing p, rfl, hno _ (.inr (.inl rfl))⟩
    · exact ⟨.pushing p, rfl, hno _ (.inr (.inl rfl))⟩
    · exact ⟨_, rfl, hno _ (.inr (.inr rfl))⟩

theorem chosen_inside {ph : Phase} (h : (∃ q, ph = .chosen q) ∨ ph = .stopped) : ¬ ph.Inside p := by
  rcases h with ⟨q, rfl⟩ | rfl <;> rintro (h | h | h | h | h) <;> cases h

theorem pop_phase : ∃ ph, (s.pop k c).core = Function.update s.core c ph ∧ ∀ q, ¬ ph.Inside q := by
  simp only [Sys.pop]
  split
  · exact ⟨_, rfl, fun _ => chosen_inside (.inl ⟨_, rfl⟩)⟩
  · split
    · exact ⟨_, rfl, fun _ => chosen_inside (.inl ⟨_, rfl⟩)⟩
    · exact ⟨_, rfl, fun _ => chosen_inside (.inr rfl)⟩

/-- A process gets inside `run` only when it is runnable. -/
theorem Step.inRun (h : Step k s a s') (hp : InRun s' p) : InRun s p ∨
    (s.proc p).state = .runnable := by
  -- the acting core stays with its process
  have hmove : ∀ {c q ph ph'}, s.core c = ph → ph.Inside q →
    s'.core = Function.update s.core c ph' →
      ph'.process = some q → InRun s p ∨ (s.proc p).state = .runnable := by
    intro c q ph ph' hc hin hcore hph'
    refine hp.update hcore fun h => .inl ?_
    obtain rfl := Option.some.inj (h.process.symm.trans hph')
    rwa [hc]
  have hstay : s'.core = s.core → InRun s p ∨ (s.proc p).state = .runnable := fun hcore =>
    .inl (by rwa [InRun, hcore] at hp)
  cases h with
  | pop _ =>
    obtain ⟨ph, hcore, hph⟩ := pop_phase (k := k) (s := s)
    exact hp.update hcore fun h => absurd h (hph p)
  | runBegin _ _ =>
    obtain ⟨ph, hcore, hph⟩ := runBegin_phase (k := k) (s := s)
    refine hp.update hcore fun h => .inr ?_
    obtain ⟨rfl, hx⟩ := hph p h
    exact hx
  | switchTo hc => exact hmove hc (.inl rfl) rfl rfl
  | exitClean hc _ => exact hmove hc (.inr (.inl rfl)) rfl rfl
  | exitCode hc _ => exact hmove hc (.inr (.inr (.inl rfl))) rfl rfl
  | checkKilled hc _ _ _ => exact hmove hc (.inr (.inl rfl)) rfl rfl
  | funcReturn hc _ => exact hmove hc (.inr (.inl rfl)) rfl rfl
  | switchBack hc =>
    rcases hc with hc | hc
    · exact hmove hc (.inr (.inl rfl)) rfl rfl
    · exact hmove hc (.inr (.inr (.inr (.inl rfl)))) rfl rfl
  | runEnd _ _ =>
    obtain ⟨ph, hcore, hph⟩ := runEnd_phase (k := k) (s := s)
    exact hp.update hcore fun h => absurd h (hph p)
  | relock hc _ => exact hmove hc (.inr (.inr (.inr (.inr rfl)))) rfl rfl
  | push _ =>
    refine hp.update push_same.1 fun h => ?_
    rcases h with h | h | h | h | h <;> cases h
  | sleep _ => exact hstay sleep_same.1
  | wakeUp _ => exact hstay wakeUp_same.1
  | kill _ => exact hstay kill_same.1
  | spawn _ _ => exact hstay rfl
  | pages _ => exact hstay rfl

theorem Stacks.step (h : Stacks k s) (hplaced : Placed k s) (hs : Step k s a s')
    (hok : KillOk k s a) :
    Stacks k s' := by
  -- a step that leaves the stack of `p` alone
  have hsame : ∀ p, k.kind p = .kernel → (s'.proc p).stackBottom = (s.proc p).stackBottom →
      (InRun s' p → (s'.proc p).stackBottom ≠ 0) ∧
      ((s'.proc p).state.Alive → (s'.proc p).stackBottom ≠ 0) := by
    intro p hk hb
    rw [hb]
    refine ⟨fun hin => ?_, fun halive => h.alive p hk ((hs.turn p).alive halive)⟩
    rcases hs.inRun hin with hin | hx
    · exact h.inRun p hk hin
    · exact h.alive p hk (by rw [hx]; decide)
  have hall : ∀ p, k.kind p = .kernel → (InRun s' p → (s'.proc p).stackBottom ≠ 0) ∧
      ((s'.proc p).state.Alive → (s'.proc p).stackBottom ≠ 0) := by
    intro p hk
    cases hs.spends with
    | none hpages => exact hsame p hk (hpages.stack p)
    | self q hq hpages =>
      refine hsame p hk ?_
      rw [hpages.stack, clean_stack hk, if_neg]
      rintro rfl
      rw [hk] at hq
      cases hq
    | kill q ha hx hcore hterm hpages =>
      rcases eq_or_ne p q with rfl | hne
      · subst ha
        refine ⟨fun hin => ?_, fun halive => absurd hterm halive.2.2⟩
        rw [InRun, hcore] at hin
        rcases hok with hx' | ⟨hu, -⟩ | ⟨-, hno, -⟩
        · exact absurd hx' hx
        · rw [hk] at hu
          cases hu
        · exact absurd hin hno
      · exact hsame p hk (by rw [hpages.stack, clean_stack hk, if_neg hne])
    | run c q hc hcore hterm hpages =>
      rcases eq_or_ne p q with rfl | hne
      · refine ⟨fun ⟨d, hd⟩ => ?_, fun halive => absurd hterm halive.2.2⟩
        rw [hcore] at hd
        rcases eq_or_ne d c with rfl | hdc
        · rw [Function.update_self] at hd
          cases hd.process
        · rw [Function.update_of_ne hdc] at hd
          exact absurd (hplaced.unique hd.process (by rw [Holds, hc]; rfl)) hdc
      · exact hsame p hk (by rw [hpages.stack, clean_stack hk, if_neg hne])
    | pages hproc _ _ _ => exact hsame p hk (by rw [hproc])
  exact ⟨fun p hk => (hall p hk).1, fun p hk => (hall p hk).2⟩

/-! ## The result -/

theorem Owns.step (h : Owns k s) (hplaced : Placed k s) (htracked : Tracked s)
    (hstacks : Stacks k s) (hs : Step k s a s') (hok : KillOk k s a) : Owns k s' := by
  cases hs.spends with
  | none hpages => exact h.congr hpages
  | self p hp hpages =>
    exact (h.clean (fun hk => by rw [hp] at hk; cases hk) fun _ => rfl).congr hpages
  | kill p ha hx _ _ hpages =>
    subst ha
    rcases hok with hx' | ⟨hu, hexec⟩ | ⟨-, hno, hb⟩
    · exact absurd hx' hx
    · refine (h.clean (fun hk => by rw [hu] at hk; cases hk) fun he => ?_).congr hpages
      rw [hexec] at he
      cases he
    · refine (h.clean (fun _ => hb) fun he => ?_).congr hpages
      obtain ⟨c, hc⟩ := htracked.executing p he
      exact absurd ⟨c, hc.inside⟩ hno
  | run c p hc _ _ hpages =>
    have hin : (s.core c).Inside p := by
      rw [hc]
      exact .inr (.inr (.inr (.inr rfl)))
    refine (h.clean (fun hk => hstacks.inRun p hk ⟨c, hin⟩) fun he => ?_).congr hpages
    -- the core that switched back is the only one that could execute the process
    obtain ⟨d, hd⟩ := htracked.executing p he
    obtain rfl := hplaced.unique hd.process hin.process
    rw [hc] at hd
    rcases hd with hd | hd | hd <;> cases hd
  | pages hproc _ hlog hkeep =>
    have howned : ∀ p, s'.owned k p = s.owned k p := fun p => by rw [Sys.owned, Sys.owned, hproc]
    refine ⟨fun p a ha => hkeep p a (howned p ▸ ha), fun p => howned p ▸ h.nodup p,
      fun p q hpq => ?_, fun p hp e he => h.kept p (howned p ▸ hp) e (hlog ▸ he),
      fun p hk => ?_, ?_⟩
    · rw [howned, howned]
      exact h.disjoint p q hpq
    · rw [hproc]
      exact h.stack p hk
    · refine ⟨?_, ?_, ?_⟩ <;> rw [hlog]
      · exact h.safe.executing
      · exact h.safe.once
      · exact h.safe.live

/-- An access of `pop` gets no process into `run`, and leaves the stacks alone. -/
theorem Stacks.access {r : Pop} (h : Stacks k s) (hgoing : r.Going k s) :
    Stacks k (r.access k s).sys where
  inRun p hk hp := by
    rw [hgoing.pages.stack]
    refine h.inRun p hk ?_
    cases hgoing.ends with
    | goesOn _ _ _ hcore => rwa [InRun, hcore] at hp
    | chosen ph _ hph hcore =>
      obtain ⟨d, hd⟩ := hp
      rw [hcore] at hd
      rcases eq_or_ne d r.core with rfl | hne
      · rw [Function.update_self] at hd
        exact absurd hd (chosen_inside hph)
      · rw [Function.update_of_ne hne] at hd
        exact ⟨d, hd⟩
  alive p hk hp := by
    rw [hgoing.pages.stack]
    refine h.alive p hk ?_
    rcases hgoing.proc p with heq | ⟨hw, -⟩
    · rwa [heq] at hp
    · rw [hw]
      decide

/-- What holds in every state, if every kill meets the condition. -/
structure KillInv (k : Config) (u : Polled) : Prop where
  polls : Polls k u
  stack : Stacks k u.sys
  owns : Owns k u.sys

theorem KillInv.step {u v : Polled} {m : Move} (h : KillInv k u) (hok : MoveOk k u m)
    (hs : Poll k u m v) : KillInv k v := by
  have hpolls : Polls k v := h.polls.step (fun p hm => by subst hm; exact hok.2 p rfl) hs
  cases hs with
  | act hs _ _ =>
    exact ⟨hpolls, h.stack.step h.polls.placed hs hok.1,
      h.owns.step h.polls.placed h.polls.tracked h.stack hs hok.1⟩
  | pop _ => exact ⟨hpolls, h.stack, h.owns⟩
  | @access s r =>
    have hgoing := h.polls.going r rfl
    exact ⟨hpolls, h.stack.access hgoing, h.owns.congr hgoing.pages⟩

/-- If every kill finds its process `RUNNING`, or a user process that is not executing, or a
kernel process outside `run` that has its stack, and comes at no moment at which `pop` is about to
wake the process, then killing is safe. -/
theorem kill_safe {moves : List Move} {u : Polled} (hstart : Start k s₀)
    (hrun : Run (Guarded (Poll k) (MoveOk k)) ⟨s₀, none⟩ moves u) : KillSafe u.sys :=
  (hrun.invariant (I := KillInv k) (fun _ _ _ h hs => h.step hs.1 hs.2)
    ⟨hstart.polls, hstart.stacks, hstart.owns⟩).owns.safe

theorem userRunning_guarded : Run (Guarded (Step userConfig) (KillOk userConfig)) userStart
    [.pop 0 (some 0), .runBegin 0, .switchTo 0] userRunning := by
  have h1 : Run (Guarded (Step userConfig) (KillOk userConfig)) userStart [.pop 0 (some 0)]
      (userStart.pop userConfig 0) := Run.single ⟨by trivial, .pop rfl⟩
  have h2 := h1.snoc ⟨by trivial, .runBegin (c := 0) (p := 0) rfl rfl⟩
  exact h2.snoc ⟨by trivial, .switchTo (c := 0) (p := 0) rfl⟩

theorem killOk_polled (h : Run (Guarded (Step k) (KillOk k)) s acts s') :
    ∃ moves, Run (Guarded (Poll k) (MoveOk k)) ⟨s, none⟩ moves ⟨s', none⟩ := by
  refine guarded_polled (fun u m hm => ?_) (fun s a ha => ⟨ha, ?_⟩) h
  · cases m with
    | act a => exact absurd rfl (hm a)
    | pop _ | access => trivial
  · rintro p - ⟨r, rest, hr, -⟩
    cases hr

/-- A process is killed in its slice, and `run` cleans up. -/
theorem kill_safe_running : ∃ s, KillSafe s ∧ s.log = [⟨0, false, false, [(pageSize, true)]⟩] := by
  have h1 := userRunning_guarded.snoc ⟨by exact .inl rfl, .kill (p := 0) rfl⟩
  have h2 := h1.snoc ⟨by trivial, .switchBack (c := 0) (p := 0) (.inl rfl)⟩
  have h3 := h2.snoc ⟨by trivial, .runEnd (c := 0) (p := 0) rfl rfl⟩
  obtain ⟨moves, hrun⟩ := killOk_polled h3
  exact ⟨_, kill_safe userStart_start hrun, rfl⟩

/-- Process `0` of `kernelStart` was killed while `pop` was about to wake it, and taken. -/
def kernelWoken : Sys :=
  { (kernelStart.kill kernelConfig 0).setState 0 .runnable with queue := [] }.setCore 0 (.chosen 0)

theorem kernelWoken_run : Run (Poll kernelConfig) ⟨kernelStart, none⟩
    [.pop 0, .access, .act (.kill 0), .access, .access, .access] ⟨kernelWoken, none⟩ := by
  have h1 : Run (Poll kernelConfig) ⟨kernelStart, none⟩ _
      ⟨kernelStart, some ⟨0, [], [0], .wakenUp⟩⟩ := Run.single (.pop rfl)
  have h2 : Run (Poll kernelConfig) _ _ ⟨kernelStart, some ⟨0, [], [0], .setRunnable⟩⟩ :=
    h1.snoc .access
  have h3 := h2.snoc (.act (.kill (p := 0) rfl) nofun fun _ => rfl)
  have h4 : Run (Poll kernelConfig) _ _ ⟨(kernelStart.kill kernelConfig 0).setState 0 .runnable,
      some ⟨0, [], [0], .ready⟩⟩ := h3.snoc .access
  have h5 : Run (Poll kernelConfig) _ _ ⟨(kernelStart.kill kernelConfig 0).setState 0 .runnable,
      some ⟨0, [], [0], .sleeping⟩⟩ := h4.snoc .access
  exact h5.snoc .access

/-- The cleanings of a kernel process that is cleaned twice: `free_page` gets an address that is not
a page. -/
def twice : List Clean :=
  [⟨0, false, false, [(pageSize, true)]⟩, ⟨0, false, false, [(2 ^ 64 - pageSize, false)]⟩]

theorem twice_unsafe (h : s.log = twice) : ¬ KillSafe s := by
  intro hsafe
  have hlive := hsafe.live ⟨0, false, false, [(2 ^ 64 - pageSize, false)]⟩ (by rw [h]; decide)
  cases hlive _ List.mem_cons_self

/-- A user process is killed twice in its slice: the second kill cleans it while it executes. A
kernel process goes to sleep and is killed before its slice ends: `run` cleans it again, and
`free_page` gets an address that is not a page. The same happens to one that is killed while `pop`
is about to wake it: it runs again without its stack. -/
theorem kill_unsafe :
    (∃ moves s, Run (Poll userConfig) ⟨userStart, none⟩ moves ⟨s, none⟩ ∧ ¬ KillSafe s) ∧
    (∃ moves s, Run (Poll kernelConfig) ⟨kernelStart, none⟩ moves ⟨s, none⟩ ∧ ¬ KillSafe s ∧
      s.log = twice) ∧
    ∃ moves s, Run (Poll kernelConfig) ⟨kernelStart, none⟩
        ([.pop 0, .access, .act (.kill 0), .access, .access, .access] ++ moves) ⟨s, none⟩ ∧
      ¬ KillSafe s ∧ s.log = twice := by
  refine ⟨?_, ?_, ?_⟩
  · have h := (userRunning_run.snoc (.kill (p := 0) rfl)).snoc (.kill (p := 0) rfl)
    obtain ⟨moves, hrun⟩ := run_polled h
    refine ⟨moves, _, hrun, fun hsafe => ?_⟩
    cases hsafe.executing ⟨0, false, true, [(pageSize, true)]⟩ List.mem_cons_self rfl
  · have h1 := kernelRunning_run.unguard.snoc (.sleep (p := 0) rfl)
    have h2 := h1.snoc (.switchBack (c := 0) (p := 0) (.inl rfl))
    have h3 := (h2.snoc (.kill (p := 0) rfl)).snoc (.runEnd (c := 0) (p := 0) rfl rfl)
    obtain ⟨s, hrun, hlog⟩ : ∃ s, Run (Step kernelConfig) kernelStart _ s ∧ s.log = twice :=
      ⟨_, h3, by decide +kernel⟩
    obtain ⟨moves, hrun⟩ := run_polled hrun
    exact ⟨moves, s, hrun, twice_unsafe hlog, hlog⟩
  · have h1 : Run (Step kernelConfig) kernelWoken [.runBegin 0] _ :=
      Run.single (.runBegin (c := 0) (p := 0) rfl rfl)
    have h2 := (h1.snoc (.switchTo (c := 0) (p := 0) rfl)).snoc
      (.funcReturn (c := 0) (p := 0) rfl rfl)
    have h3 := (h2.snoc (.switchBack (c := 0) (p := 0) (.inr rfl))).snoc
      (.runEnd (c := 0) (p := 0) rfl rfl)
    obtain ⟨s, hrun, hlog⟩ : ∃ s, Run (Step kernelConfig) kernelWoken _ s ∧ s.log = twice :=
      ⟨_, h3, by decide +kernel⟩
    obtain ⟨moves, hrun⟩ := run_polled hrun
    exact ⟨moves, s, kernelWoken_run.append hrun, twice_unsafe hlog, hlog⟩

end CoroCore.Proc
