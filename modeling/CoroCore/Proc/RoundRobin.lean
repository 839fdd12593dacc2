import CoroCore.Proc.Scheduler

/-!
# The scheduler goes round

`pop` takes the first process in the queue that is ready and may run on the core, and a process that
was run goes to the end (`src/os/proc/scheduler.cc`). So a process that is ready waits only for
those before it, each once.

* `round_robin`: what the cores that may run a process take while it waits.
-/

namespace CoroCore.Proc

open Lib Sys

variable {k : Config} {s s' s₀ t : Sys} {a : Act} {acts acts₀ : List Act} {c p q : Nat}
    {l₁ l₂ : List Nat}

/-! ## The processes before one -/

def ahead (p : Nat) (l : List Nat) : List Nat := l.takeWhile fun q => q != p

theorem ahead_append (hp : p ∈ l₁) : ahead p (l₁ ++ l₂) = ahead p l₁ := by
  induction l₁ with
  | nil => exact absurd hp List.not_mem_nil
  | cons x l ih =>
    rcases eq_or_ne x p with rfl | hx
    · simp [ahead]
    · have hin : p ∈ l := (List.mem_cons.mp hp).resolve_left hx.symm
      simpa [ahead, hx] using ih hin

/-- Without one of the others, no more are before `p`. -/
theorem ahead_remove (hq : q ≠ p) : ahead p (l₁ ++ l₂) ⊆ ahead p (l₁ ++ q :: l₂) := by
  induction l₁ with
  | nil =>
    intro x hx
    simp only [ahead, List.nil_append, List.takeWhile_cons, bne_iff_ne.mpr hq, if_true] at hx ⊢
    exact List.mem_cons_of_mem q hx
  | cons y l ih =>
    intro x hx
    rcases eq_or_ne y p with rfl | hy
    · simp [ahead] at hx
    · simp only [ahead, List.cons_append, List.takeWhile_cons, bne_iff_ne.mpr hy, if_true,
        List.mem_cons] at hx ⊢
      exact hx.imp_right fun hx => ih hx

theorem mem_ahead (hp : p ∉ l₁) (hq : q ≠ p) : q ∈ ahead p (l₁ ++ q :: l₂) := by
  have hall : ∀ x ∈ l₁, (x != p) = true := fun x hx => bne_iff_ne.mpr fun heq => hp (heq ▸ hx)
  rw [ahead, List.takeWhile_append_of_pos hall, List.takeWhile_cons, bne_iff_ne.mpr hq]
  exact List.mem_append_right _ List.mem_cons_self

/-! ## A step -/

theorem runBegin_queue : (s.runBegin k c p).queue = s.queue := by
  unfold runBegin
  cases k.kind p with
  | user =>
    simp only [userRunBegin]
    split <;> rfl
  | kernel =>
    simp only [kernelRunBegin]
    split <;> rfl

theorem runEnd_queue : (s.runEnd k c p).queue = s.queue := by
  unfold runEnd
  cases k.kind p with
  | user =>
    simp only [userRunEnd]
    split <;> rfl
  | kernel =>
    simp only [kernelRunEnd]
    split <;> rfl

theorem sleep_queue : (s.sleep p).queue = s.queue := by
  unfold Sys.sleep
  split <;> rfl

theorem wakeUp_queue : (s.wakeUp p).queue = s.queue := by
  unfold Sys.wakeUp
  split <;> rfl

theorem kill_queue : (s.kill k p).queue = s.queue := by
  unfold Sys.kill
  split <;> rfl

/-- What a step does to the queue: `pop` takes the first entry that is ready and may run on the
core, and all other steps only add to the end. -/
inductive Queued (k : Config) (s : Sys) (a : Act) (s' : Sys) : Prop
  | taken (c q : Nat) (l₁ l₂ : List Nat) (act : a = .pop c (some q))
    (before : s.queue = l₁ ++ q :: l₂)
      (queue : s'.queue = l₁ ++ l₂)
      (first : ∀ x ∈ l₁, ¬((s.proc x).state.Ready ∧ bound k c x = true))
  | missed (c : Nat) (act : a = .pop c none) (queue : s'.queue = s.queue)
      (none : ∀ x ∈ s.queue, ¬((s.proc x).state.Ready ∧ bound k c x = true))
  | other (l : List Nat) (act : ∀ c r, a ≠ .pop c r) (queue : s'.queue = s.queue ++ l)

theorem Step.queued (h : Step k s a s') : Queued k s a s' := by
  have hsame : ∀ {a : Act} {s' : Sys}, (∀ c r, a ≠ .pop c r) → s'.queue = s.queue →
      Queued k s a s' :=
    fun ha hqueue => .other [] ha (by rw [hqueue, List.append_nil])
  cases h with
  | @pop c hc =>
    rw [Sys.popped, Sys.pop]
    cases hscan : (scan k c s.proc [] s.queue).2 with
    | none =>
      refine .missed c rfl ?_ (scan_none hscan)
      cases k.lastChoice c <;> rfl
    | some r =>
      obtain ⟨q, rest⟩ := r
      obtain ⟨l₁, l₂, hqueue, hrest, -, -, hbefore⟩ := scan_some hscan
      exact .taken c q l₁ l₂ rfl hqueue hrest hbefore
  | runBegin hc _ => exact hsame (fun _ _ heq => by cases heq) runBegin_queue
  | runEnd hc _ => exact hsame (fun _ _ heq => by cases heq) runEnd_queue
  | @push c p hc =>
    have hact : ∀ d r, Act.push c ≠ .pop d r := fun _ _ heq => by cases heq
    unfold Sys.push
    split
    · exact hsame hact rfl
    · exact .other [p] hact rfl
  | sleep _ => exact hsame (fun _ _ heq => by cases heq) sleep_queue
  | wakeUp _ => exact hsame (fun _ _ heq => by cases heq) wakeUp_queue
  | kill _ => exact hsame (fun _ _ heq => by cases heq) kill_queue
  | @spawn p _ _ => exact .other [p] (fun _ _ heq => by cases heq) rfl
  | _ => exact hsame (fun _ _ heq => by cases heq) rfl

theorem setState_other {st : State} (h : q ≠ p) : ((s.setState p st).proc q).state =
    (s.proc q).state := by
  rw [setState_state, if_neg h]

theorem clean_state (own : Bool) : ((s.clean k own p).proc q).state = (s.proc q).state := by
    rw [clean_proc.1]

theorem doKill_other {own : Bool} (h : q ≠ p) : ((s.doKill k own p).proc q).state =
    (s.proc q).state := by
  rw [Sys.doKill, setExitCode, setState_other h, clean_state]

theorem runBegin_other (h : q ≠ p) : ((s.runBegin k c p).proc q).state = (s.proc q).state := by
  unfold runBegin
  cases k.kind p with
  | user =>
    simp only [userRunBegin]
    split <;> first | rfl | exact setState_other h
  | kernel =>
    simp only [kernelRunBegin]
    split <;> first | rfl | exact setState_other h

theorem runEnd_other (h : q ≠ p) : ((s.runEnd k c p).proc q).state = (s.proc q).state := by
  unfold runEnd
  cases k.kind p with
  | user =>
    simp only [userRunEnd]
    split <;> first | rfl | exact setState_other h | exact doKill_other h
  | kernel =>
    simp only [kernelRunEnd]
    split <;> first | rfl | exact setState_other h | exact clean_state false

theorem State.Ready.ne {x : State} (h : x.Ready) : x ≠ .running ∧ x ≠ .sleeping := by
  rcases h with rfl | rfl <;> decide

/-- A process that no core holds stays ready unless it is killed. -/
theorem Step.ready (h : Step k s a s') (hfree : ∀ c, ¬Holds s c p) (hkill : a ≠ .kill p)
    (hp : (s.proc p).state.Ready) : (s'.proc p).state.Ready := by
  have hne : ∀ {c q : Nat} {ph : Phase}, s.core c = ph → ph.process = some q → p ≠ q := by
    rintro c q ph hc hph rfl
    exact hfree c (by rw [Holds, hc, hph])
  have hsame : ∀ {t : Sys}, (t.proc p).state = (s.proc p).state → (t.proc p).state.Ready := by
    intro t ht
    rw [ht]
    exact hp
  cases h with
  | @pop c _ =>
    rcases pop_proc_cases (k := k) (s := s) (c := c) p with heq | ⟨-, -, heq⟩
    · exact hsame (congrArg Process.state heq)
    · rw [heq]
      exact .inl rfl
  | runBegin hc _ => exact hsame (runBegin_other (hne hc rfl))
  | switchTo hc => exact hsame (congrArg Process.state (setProc_of_ne (hne hc rfl)))
  | exitClean hc _ => exact hsame (clean_state true)
  | exitCode hc _ => exact hsame (setState_other (hne hc rfl))
  | checkKilled hc _ _ _ =>
    exact hsame ((congrArg Process.state (setProc_of_ne (hne hc rfl))).trans
      (doKill_other (hne hc rfl)))
  | funcReturn hc _ => exact hsame (setState_other (hne hc rfl))
  | switchBack hc =>
    refine hsame (congrArg Process.state (setProc_of_ne ?_))
    rcases hc with hc | hc <;> exact hne hc rfl
  | runEnd hc _ => exact hsame (runEnd_other (hne hc rfl))
  | push hc =>
    unfold Sys.push
    split <;> exact hp
  | @sleep q _ =>
    unfold Sys.sleep
    split
    · exact hp
    · next hrunning =>
      refine hsame (setState_other ?_)
      rintro rfl
      exact hp.ne.1 (not_not.mp hrunning)
  | @wakeUp q _ =>
    unfold Sys.wakeUp
    split
    · next hsleeping =>
      refine hsame (setState_other ?_)
      rintro rfl
      exact hp.ne.2 hsleeping
    · exact hp
  | @kill q _ =>
    have hq : p ≠ q := by
      rintro rfl
      exact hkill rfl
    unfold Sys.kill
    split
    · exact hsame (doKill_other hq)
    · exact hsame (setState_other hq)
  | _ => exact hp

/-! ## A process that waits -/

/-- What `pop` returns to a core that may run `p`. -/
def Act.poll (k : Config) (p : Nat) : Act → Option (Option Nat)
  | .pop c r => if bound k c p then some r else none
  | _ => none

/-- `p` is not taken and not killed. -/
def Waits (p : Nat) (_ : Sys) (a : Act) : Prop := a ≠ .kill p ∧ ∀ c, a ≠ .pop c (some p)

/-- Since `s`, the cores that may run `p` took `qs` while `p` waited. -/
structure Passed (p : Nat) (s : Sys) (qs : List Nat) (t : Sys) : Prop where
  queue : p ∈ t.queue
  ready : (t.proc p).state.Ready
  once : qs.Nodup
  before : qs ⊆ ahead p s.queue
  left : ahead p t.queue ⊆ ahead p s.queue
  gone : ∀ q ∈ qs, q ∉ ahead p t.queue

theorem Passed.step {qs : List Nat} (h : Passed p s qs t) (hplaced : Placed k t)
    (hs : Step k t a s') (hw : Waits p t a) : ∃ r, Passed p s (qs ++ r) s' ∧
    (Act.poll k p a).toList = r.map some := by
  have hfree : ∀ c, ¬Holds t c p := by
    cases hplaced.place p with
    | queued _ _ _ hfree _ => exact hfree
    | idle _ _ _ hq _ | new _ _ hq _ _ | held _ _ _ hq _ _ _ | finished _ _ hq _ _ =>
        exact absurd h.queue hq
  have hready := hs.ready hfree hw.1 h.ready
  cases hs.queued with
  | @taken c q l₁ l₂ hact hbefore hqueue hfirst =>
    subst hact
    have hne : q ≠ p := by
      rintro rfl
      exact hw.2 c rfl
    have hleft : ahead p s'.queue ⊆ ahead p t.queue := by
      rw [hqueue, hbefore]
      exact ahead_remove hne
    have hnd : (l₁ ++ q :: l₂).Nodup := hbefore ▸ hplaced.nodup
    have hp : p ∈ l₁ ++ q :: l₂ := hbefore ▸ h.queue
    have hin : p ∈ s'.queue := by
      rw [hqueue]
      simpa [hne.symm] using hp
    have hgone : q ∉ s'.queue := by
      rw [hqueue]
      exact (List.nodup_middle.mp hnd |> List.nodup_cons.mp).1
    cases hb : bound k c p with
    | false =>
      refine ⟨[], ?_, by simp [Act.poll, hb]⟩
      rw [List.append_nil]
      exact ⟨hin, hready, h.once, h.before, List.Subset.trans hleft h.left,
        fun x hx hx' => h.gone x hx (hleft hx')⟩
    | true =>
      -- what is before `q` may not run on the core, so `p` is not
      have hnot : p ∉ l₁ := fun hmem => hfirst p hmem ⟨h.ready, hb⟩
      have hq : q ∈ ahead p t.queue := by
        rw [hbefore]
        exact mem_ahead hnot hne
      refine ⟨[q], ⟨hin, hready, ?_, ?_, List.Subset.trans hleft h.left, ?_⟩,
        by simp [Act.poll, hb]⟩
      · refine List.nodup_append.mpr ⟨h.once, List.nodup_singleton q, ?_⟩
        rintro x hx y hy rfl
        rw [List.mem_singleton.mp hy] at hx
        exact h.gone q hx hq
      · exact List.append_subset.mpr ⟨h.before, List.cons_subset.mpr ⟨h.left hq, List.nil_subset _⟩⟩
      · intro x hx hx'
        rcases List.mem_append.mp hx with hx | hx
        · exact h.gone x hx (hleft hx')
        · rw [List.mem_singleton.mp hx] at hx'
          exact hgone ((List.takeWhile_prefix _).subset hx')
  | @missed c hact hqueue hnone =>
    subst hact
    have hb : bound k c p = false := by
      rw [Bool.eq_false_iff]
      exact fun hb => hnone p h.queue ⟨h.ready, hb⟩
    refine ⟨[], ?_, by simp [Act.poll, hb]⟩
    rw [List.append_nil]
    exact ⟨hqueue ▸ h.queue, hready, h.once, h.before, hqueue ▸ h.left, hqueue ▸ h.gone⟩
  | @other l hact hqueue =>
    have hahead : ahead p s'.queue = ahead p t.queue := by rw [hqueue, ahead_append h.queue]
    have hpoll : Act.poll k p a = none := by
      cases a with
      | pop c r => exact absurd rfl (hact c r)
      | _ => rfl
    refine ⟨[], ?_, by rw [hpoll]; rfl⟩
    rw [List.append_nil]
    exact ⟨hqueue ▸ List.mem_append_left l h.queue, hready, h.once, h.before, hahead ▸ h.left,
      hahead ▸ h.gone⟩

/-- While a process in the queue is ready, the cores that may run it find something whenever they
look, each time another of the processes that were before it. -/
theorem round_robin (hstart : Start k s₀) (hrun₀ : Run (Step k) s₀ acts₀ s) (hp : p ∈ s.queue)
    (hready : (s.proc p).state.Ready) (hrun : Run (Guarded (Step k) (Waits p)) s acts t) :
    (p ∈ t.queue ∧ (t.proc p).state.Ready) ∧
      ∃ qs : List Nat, acts.filterMap (Act.poll k p) = qs.map some ∧ qs.Nodup ∧
      qs ⊆ ahead p s.queue := by
  have hplaced : ∀ {acts t}, Run (Guarded (Step k) (Waits p)) s acts t → Placed k t := fun hrun =>
    (hrun.unguard.invariant (I := Placed k) (fun _ _ _ h hs => h.step hs) (hstart.inv hrun₀).1)
  have hpassed : ∃ qs : List Nat, acts.filterMap (Act.poll k p) = qs.map some ∧
      Passed p s qs t := by
    induction hrun with
    | nil =>
      exact ⟨[], rfl, hp, hready, List.nodup_nil, List.nil_subset _, List.Subset.refl _,
        List.forall_mem_nil _⟩
    | @snoc _ _ acts a hrun hs ih =>
      obtain ⟨qs, hqs, h⟩ := ih
      obtain ⟨r, h', hr⟩ := h.step (hplaced hrun) hs.2 hs.1
      refine ⟨qs ++ r, ?_, h'⟩
      rw [List.filterMap_append, hqs, List.map_append, ← hr, List.filterMap_cons,
        List.filterMap_nil]
      cases Act.poll k p a <;> rfl
  obtain ⟨qs, hqs, h⟩ := hpassed
  exact ⟨⟨h.queue, h.ready⟩, qs, hqs, h.once, h.before⟩

/-- Three processes on the queue. -/
def waitingStart : Sys := { userStart with queue := [0, 1, 2], pushed := [0, 1, 2] }

theorem waitingStart_start : Start userConfig waitingStart :=
  { userStart_start with
    fresh := fun p => ⟨(userStart_start.fresh p).state, rfl, rfl, (userStart_start.fresh p).nodup,
      (userStart_start.fresh p).live, (userStart_start.fresh p).stack⟩
    queue := by decide
    pushed := fun _ => Iff.rfl
    idle := fun _ _ h => absurd h (Option.some_ne_none _).symm }

/-- Two cores take the two processes before the last one. -/
theorem round_robin_sample : ∃ t,
    Run (Step userConfig) waitingStart [.pop 0 (some 0), .runBegin 0, .pop 1 (some 1)] t ∧
    (2 ∈ t.queue ∧ (t.proc 2).state.Ready) ∧
      ∃ qs : List Nat,
        [Act.pop 0 (some 0), .runBegin 0, .pop 1 (some 1)].filterMap
        (Act.poll userConfig 2) = qs.map some ∧
          qs.Nodup ∧ qs ⊆ ahead 2 waitingStart.queue := by
  have h₁ : Run (Guarded (Step userConfig) (Waits 2)) waitingStart [.pop 0 (some 0)]
      (waitingStart.pop userConfig 0) := Run.single ⟨⟨by simp, by simp⟩, .pop rfl⟩
  have h₂ := h₁.snoc ⟨⟨by simp, by simp⟩, .runBegin (c := 0) (p := 0) rfl rfl⟩
  have h₃ := h₂.snoc (l := .pop 1 (some 1)) ⟨⟨by simp, by simp⟩, .pop (c := 1) rfl⟩
  exact ⟨_, h₃.unguard, round_robin waitingStart_start (.nil _) (by decide) (.inr rfl) h₃⟩

end CoroCore.Proc
