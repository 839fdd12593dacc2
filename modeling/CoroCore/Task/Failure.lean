import CoroCore.Task.Coroutine
import Mathlib.Data.List.Perm.Basic
import Mathlib.Data.List.Nodup
import Mathlib.Logic.Relation

/-!
# Task failure reaches the nearest handler

The coroutines that wait for an active one form a stack, with a `__task_executor` at its bottom.
No coroutine is on two stacks (`Good`). A failure therefore finds a handler on the way down, the
one that the executor sets at the latest, and leaves the frames above it for good
(`failure_handled`).
-/

namespace CoroCore.Task

open Lib

/-- A coroutine, the one that awaits it, and so on to the executor. -/
def IsStack (s : Tasks) : List Nat → Prop
  | [] => False
  | [e] => (∃ q, s.executor e = some q) ∧ (s.promise e).caller = none
  | a :: c :: l =>
    (s.executor a = none ∧ (s.promise a).caller = some c ∧ (s.promise a).status = .running ∧
      ∀ q, s.executor c = some q → q = a ∧ (s.promise a).hasErrorHandler = true) ∧
    IsStack s (c :: l)

/-- A task given to the scheduler whose executor has not started is awaited by no one else. -/
def Pending (s : Tasks) : Prop :=
  ∀ e q, s.executor e = some q → (s.promise e).status = .init →
    q < s.count ∧ s.executor q = none ∧ (s.promise q).status.Awaitable ∧
      ∀ e', s.executor e' = some q → (s.promise e').status = .init → e' = e

/-- The stacks of the active coroutines. -/
structure Good (s : Tasks) (st : List (List Nat)) : Prop where
  active : s.active.Perm (st.map (·.headD 0))
  stack : ∀ l ∈ st, IsStack s l
  nodup : st.flatten.Nodup
  made : ∀ x ∈ st.flatten, x < s.count
  executors : ∀ e q, s.executor e = some q → e < s.count
  pending : Pending s

variable {s s' : Tasks} {st : List (List Nat)} {l : List Nat} {x r q h c n : Nat} {a : Act}

/-! ## Stacks -/

theorem IsStack.tail {y : Nat} (h : IsStack s (x :: y :: l)) : IsStack s (y :: l) := h.2

theorem IsStack.congr : ∀ {l : List Nat}, IsStack s l → (∀ x ∈ l, s'.promise x = s.promise x) →
    (∀ x ∈ l, s'.executor x = s.executor x) → IsStack s' l
  | [], h, _, _ => h
  | [e], h, hp, he => by
    rw [IsStack, hp e List.mem_cons_self, he e List.mem_cons_self]
    exact h
  | a :: c :: l, h, hp, he => by
    have ha := hp a List.mem_cons_self
    have hc : c ∈ a :: c :: l := List.mem_cons_of_mem a List.mem_cons_self
    refine ⟨?_, IsStack.congr h.2 (fun x hx => hp x (List.mem_cons_of_mem a hx))
      fun x hx => he x (List.mem_cons_of_mem a hx)⟩
    rw [ha, he a List.mem_cons_self, he c hc]
    exact h.1

/-- Whoever waits on a stack and is not an executor is running. -/
theorem IsStack.running : ∀ {l : List Nat}, IsStack s l → x ∈ l → s.executor x = none →
    (s.promise x).status = .running
  | [e], h, hx, hnone => by
    obtain ⟨q, hq⟩ := h.1
    rw [List.mem_singleton.mp hx, hq] at hnone
    cases hnone
  | a :: c :: l, h, hx, hnone => by
    rcases List.mem_cons.mp hx with rfl | hx
    · exact h.1.2.2.1
    · exact IsStack.running h.2 hx hnone

/-- An executor is at the bottom of its stack. -/
theorem IsStack.executor (h : IsStack s (x :: l)) (he : s.executor x = some q) : l = [] := by
  cases l with
  | nil => rfl
  | cons c l =>
    rw [h.1.1] at he
    cases he

theorem IsStack.caller {y : Nat} (h : IsStack s (x :: l)) (hc : (s.promise x).caller = some y) :
    ∃ l', l = y :: l' := by
  cases l with
  | nil =>
    rw [h.2] at hc
    cases hc
  | cons d l =>
    rw [h.1.2.1] at hc
    exact ⟨l, by rw [Option.some.inj hc]⟩

theorem Good.not_mem (h : Good s st) (hplain : s.executor q = none)
    (hstatus : (s.promise q).status.Awaitable) : q ∉ st.flatten := by
  intro hq
  obtain ⟨l, hl, hq⟩ := List.mem_flatten.mp hq
  have hrun := (h.stack l hl).running hq hplain
  rcases hstatus with hs | hs <;> rw [hs] at hrun <;> cases hrun

/-- The stack of an active coroutine may be taken as the first one. -/
theorem Good.focus (h : Good s st) (hr : r ∈ s.active) :
    ∃ l st', Good s ((r :: l) :: st') ∧ ∀ x, x ∈ ((r :: l) :: st').flatten ↔ x ∈ st.flatten := by
  obtain ⟨k, hk, hkr⟩ := List.mem_map.mp (h.active.mem_iff.mp hr)
  have hperm : st.Perm (k :: st.erase k) := List.perm_cons_erase hk
  cases k with
  | nil => exact absurd (h.stack [] hk) id
  | cons y l =>
    obtain rfl : y = r := hkr
    refine ⟨l, st.erase (y :: l),
      ⟨h.active.trans (hperm.map _), fun k' hk' => ?_, ?_, fun x hx => ?_, h.executors, h.pending⟩,
      fun x => hperm.flatten.mem_iff.symm⟩
    · exact h.stack k' (hperm.mem_iff.mpr hk')
    · exact (hperm.flatten.nodup_iff).mp h.nodup
    · exact h.made x (hperm.flatten.mem_iff.mpr hx)

/-- Control moves from `r` to another stack top. The other stacks stay as they are. -/
theorem Good.replace {y : Nat} {l' : List Nat} (h : Good s ((r :: l) :: st))
    (hactive : s'.active = y :: s.active.erase r) (hcount : s'.count = s.count)
    (hexec : s'.executor = s.executor) (hframe : ∀ x ∈ st.flatten, s'.promise x = s.promise x)
    (hstack : IsStack s' (y :: l')) (hnodup : (y :: l').Nodup)
    (hnew : ∀ x ∈ y :: l', x < s.count ∧ x ∉ st.flatten) (hpending : Pending s') :
    Good s' ((y :: l') :: st) := by
  have herase : (s.active.erase r).Perm (st.map (·.headD 0)) := by
    have := h.active.erase r
    rwa [List.map_cons, List.headD_cons, List.erase_cons_head] at this
  refine ⟨?_, fun k hk => ?_, ?_, fun x hx => ?_, fun e q he => ?_, hpending⟩
  · rw [hactive, List.map_cons]
    exact herase.cons y
  · rcases List.mem_cons.mp hk with rfl | hk
    · exact hstack
    · exact (h.stack k (List.mem_cons_of_mem _ hk)).congr
        (fun x hx => hframe x (List.mem_flatten.mpr ⟨k, hk, hx⟩)) fun x _ => by rw [hexec]
  · rw [List.flatten_cons]
    have hrest := h.nodup
    rw [List.flatten_cons] at hrest
    refine List.nodup_append.mpr ⟨hnodup, (List.nodup_append.mp hrest).2.1, ?_⟩
    rintro x hx z hz rfl
    exact (hnew x hx).2 hz
  · rw [hcount]
    rcases List.mem_append.mp (List.flatten_cons ▸ hx) with hx | hx
    · exact (hnew x hx).1
    · exact h.made x (by rw [List.flatten_cons]; exact List.mem_append_right _ hx)
  · rw [hcount]
    exact h.executors e q (hexec ▸ he)

/-- What is on the first stack is on no other. -/
theorem Good.first (h : Good s (l :: st)) (hx : x ∈ l) : x < s.count ∧ x ∉ st.flatten := by
  have hnodup := h.nodup
  rw [List.flatten_cons] at hnodup
  refine ⟨h.made x (by rw [List.flatten_cons]; exact List.mem_append_left _ hx), fun hx' => ?_⟩
  exact (List.nodup_append.mp hnodup).2.2 x hx x hx' rfl

theorem Good.first_nodup (h : Good s (l :: st)) : l.Nodup := by
  have hnodup := h.nodup
  rw [List.flatten_cons] at hnodup
  exact (List.nodup_append.mp hnodup).1

/-- `Pending` depends on the tasks that wait for an executor only. -/
theorem Pending.congr (h : Pending s) (hcount : s'.count = s.count)
    (hexec : s'.executor = s.executor)
    (hinit : ∀ x, (s'.promise x).status = .init → (s.promise x).status = .init)
    (hwait : ∀ e q, s.executor e = some q → (s'.promise e).status = .init →
      s.executor q = none → (s.promise q).status.Awaitable → (s'.promise q).status.Awaitable) :
    Pending s' := by
  intro e q he hs
  rw [hexec] at he
  obtain ⟨h1, h2, h3, h4⟩ := h e q he (hinit e hs)
  rw [hcount, hexec]
  exact ⟨h1, h2, hwait e q he hs h2 h3, fun e' he' hs' => h4 e' he' (hinit e' hs')⟩

/-! ## The loop of `coroutine_handle_fail` -/

theorem handleFail_mono {w : Handled} : ∀ {n m : Nat} {x : Nat}, n ≤ m →
    s.handleFail n x = some w → s.handleFail m x = some w := by
  intro n
  induction n with
  | zero => exact fun _ hn => nomatch hn
  | succ n ih =>
    intro m x hle hn
    obtain ⟨m, rfl⟩ := Nat.exists_eq_add_of_le' (Nat.lt_of_lt_of_le (Nat.succ_pos n) hle)
    unfold Tasks.handleFail at hn ⊢
    split at hn
    · exact hn
    · split at hn
      · next hh =>
        rw [if_pos hh]
        exact hn
      · next hh =>
        rw [if_neg hh]
        exact ih (Nat.le_of_succ_le_succ hle) hn

theorem handleFail_unique {w w' : Handled} {m : Nat} (hn : s.handleFail n x = some w)
    (hm : s.handleFail m x = some w') : w = w' := by
  have h1 := handleFail_mono (Nat.le_max_left n m) hn
  have h2 := handleFail_mono (Nat.le_max_right n m) hm
  exact Option.some.inj (h1.symm.trans h2)

/-- Where a failure at the top of a stack stops: `pre` are the frames that it skips. -/
structure Stops (s : Tasks) (l pre : List Nat) (h c : Nat) (post : List Nat) : Prop where
  split : l = pre ++ h :: c :: post
  skipped : ∀ x ∈ pre, (s.promise x).hasErrorHandler = false
  handler : (s.promise h).hasErrorHandler = true
  caller : (s.promise h).caller = some c
  executor : ∀ q, s.executor c = some q → q = h

theorem IsStack.stops {s₁ : Tasks} (hc : ∀ x, (s₁.promise x).caller = (s.promise x).caller)
    (hh : ∀ x, (s₁.promise x).hasErrorHandler = (s.promise x).hasErrorHandler) :
    ∀ {l : List Nat} {x : Nat}, IsStack s (x :: l) → s.executor x = none →
    ∃ pre h c post n, Stops s (x :: l) pre h c post ∧ s₁.handleFail n x = some (.resume h c)
  | [], x, hs, hx => by
    obtain ⟨q, hq⟩ := hs.1
    rw [hq] at hx
    cases hx
  | c :: l, x, hs, hx => by
    obtain ⟨⟨-, hcaller, -, hexec⟩, hrest⟩ := hs
    cases hhandler : (s.promise x).hasErrorHandler with
    | true =>
      refine ⟨[], x, c, l, 1, ⟨rfl, fun _ hx => (List.not_mem_nil hx).elim, hhandler, hcaller,
        fun q hq => (hexec q hq).1⟩, ?_⟩
      simp only [Tasks.handleFail, hc, hcaller, hh, hhandler, if_true]
    | false =>
      have hplain : s.executor c = none := by
        cases he : s.executor c with
        | none => rfl
        | some q =>
          rw [(hexec q he).2] at hhandler
          cases hhandler
      obtain ⟨pre, h, d, post, n, hstop, hn⟩ := IsStack.stops hc hh hrest hplain
      refine ⟨x :: pre, h, d, post, n + 1, ⟨by rw [hstop.split]; rfl, fun y hy => ?_, hstop.handler,
        hstop.caller, hstop.executor⟩, ?_⟩
      · rcases List.mem_cons.mp hy with rfl | hy
        · exact hhandler
        · exact hstop.skipped y hy
      · simp only [Tasks.handleFail, hc, hcaller, hh, hhandler]
        exact hn

theorem IsStack.suffix : ∀ {pre : List Nat}, IsStack s (pre ++ x :: l) → IsStack s (x :: l)
  | [], h => h
  | [_], h => h.2
  | _ :: b :: pre, h => by
    have htail : IsStack s ((b :: pre) ++ x :: l) := h.2
    exact htail.suffix

/-! ## The steps -/

theorem initial_good : Good .initial [] where
  active := List.Perm.refl _
  stack _ hl := (List.not_mem_nil hl).elim
  nodup := List.nodup_nil
  made _ hx := (List.not_mem_nil hx).elim
  executors _ _ he := nomatch he
  pending _ _ he := nomatch he

theorem Good.create (h : Good s st) : Good s.create st := by
  have hold : ∀ x, x < s.count → s.create.promise x = s.promise x :=
    fun x hx => Function.update_of_ne (Nat.ne_of_lt hx) ..
  refine ⟨h.active, fun l hl => (h.stack l hl).congr (fun x hx => ?_) fun _ _ => rfl, h.nodup,
    fun x hx => Nat.lt_succ_of_lt (h.made x hx),
    fun e q he => Nat.lt_succ_of_lt (h.executors e q he), fun e q he hs => ?_⟩
  · exact hold x (h.made x (List.mem_flatten.mpr ⟨l, hl, hx⟩))
  · rw [hold e (h.executors e q he)] at hs
    obtain ⟨h1, h2, h3, h4⟩ := h.pending e q he hs
    refine ⟨Nat.lt_succ_of_lt h1, h2, ?_, fun e' he' hs' => h4 e' he' ?_⟩
    · rw [hold q h1]
      exact h3
    · rwa [hold e' (h.executors e' q he')] at hs'

theorem Good.setHandler {v : Bool} (h : Good s st) (hq : s.Held q) :
    Good (s.set q { s.promise q with hasErrorHandler := v }) st := by
  have hstatus : ∀ x, ((s.set q { s.promise q with hasErrorHandler := v }).promise x).status =
      (s.promise x).status := by
    intro x
    rcases eq_or_ne x q with rfl | hx
    · rw [Tasks.set_self]
    · rw [Tasks.set_of_ne hx]
  refine ⟨h.active, fun l hl => (h.stack l hl).congr (fun x hx => ?_) fun _ _ => rfl,
    h.nodup, h.made, h.executors,
    h.pending.congr rfl rfl (fun x hx => hstatus x ▸ hx) fun _ p _ _ _ hp => ?_⟩
  · refine Tasks.set_of_ne ?_
    rintro rfl
    exact h.not_mem hq.plain hq.status (List.mem_flatten.mpr ⟨l, hl, hx⟩)
  · rwa [hstatus]

theorem Good.schedule (h : Good s st) (hq : s.Held q) : Good (s.schedule q) ([s.count] :: st) := by
  have hold : ∀ x, x < s.count → (s.schedule q).promise x = s.promise x :=
    fun x hx => Function.update_of_ne (Nat.ne_of_lt hx) ..
  have hexec : ∀ x, x < s.count → (s.schedule q).executor x = s.executor x :=
    fun x hx => Function.update_of_ne (Nat.ne_of_lt hx) ..
  have hself : (s.schedule q).executor s.count = some q := Function.update_self ..
  have hnew : (s.schedule q).promise s.count = .new := Function.update_self ..
  have hcases : ∀ e p, (s.schedule q).executor e = some p →
      (e = s.count ∧ p = q) ∨ (e < s.count ∧ s.executor e = some p) := by
    intro e p he
    rcases eq_or_ne e s.count with rfl | hne
    · rw [hself] at he
      exact .inl ⟨rfl, (Option.some.inj he).symm⟩
    · have he : s.executor e = some p := by
        rw [← he]
        exact (Function.update_of_ne hne ..).symm
      exact .inr ⟨h.executors e p he, he⟩
  refine ⟨h.active.cons _, fun l hl => ?_, ?_, fun x hx => ?_, fun e p he => ?_,
    fun e p he hs => ?_⟩
  · rcases List.mem_cons.mp hl with rfl | hl
    · exact ⟨⟨q, hself⟩, by rw [hnew]; rfl⟩
    · have hlt : ∀ x ∈ l, x < s.count := fun x hx => h.made x (List.mem_flatten.mpr ⟨l, hl, hx⟩)
      exact (h.stack l hl).congr (fun x hx => hold x (hlt x hx)) fun x hx => hexec x (hlt x hx)
  · rw [List.flatten_cons, List.singleton_append, List.nodup_cons]
    exact ⟨fun hm => Nat.lt_irrefl _ (h.made _ hm), h.nodup⟩
  · rw [List.flatten_cons, List.singleton_append] at hx
    rcases List.mem_cons.mp hx with rfl | hx
    · exact Nat.lt_succ_self _
    · exact Nat.lt_succ_of_lt (h.made x hx)
  · rcases hcases e p he with ⟨rfl, -⟩ | ⟨hlt, -⟩
    · exact Nat.lt_succ_self _
    · exact Nat.lt_succ_of_lt hlt
  · rcases hcases e p he with ⟨rfl, rfl⟩ | ⟨hlt, hp⟩
    · refine ⟨Nat.lt_succ_of_lt hq.made, ?_, ?_, fun e' he' hs' => ?_⟩
      · rw [hexec p hq.made]
        exact hq.plain
      · rw [hold p hq.made]
        exact hq.status
      · rcases hcases e' p he' with ⟨rfl, -⟩ | ⟨hlt', hp'⟩
        · rfl
        · rw [hold e' hlt'] at hs'
          exact absurd hs' (hq.unscheduled e' hp')
    · rw [hold e hlt] at hs
      obtain ⟨h1, h2, h3, h4⟩ := h.pending e p hp hs
      refine ⟨Nat.lt_succ_of_lt h1, ?_, ?_, fun e' he' hs' => ?_⟩
      · rwa [hexec p h1]
      · rwa [hold p h1]
      · rcases hcases e' p he' with ⟨rfl, rfl⟩ | ⟨hlt', hp'⟩
        · exact absurd hs (hq.unscheduled e hp)
        · rw [hold e' hlt'] at hs'
          exact h4 e' hp' hs'

/-- `r` awaits `q`, which is not on a stack. -/
theorem Good.await (h : Good s ((r :: l) :: st)) (hr : ∀ p, s.executor r = some p → p = q ∧
      (s.promise q).hasErrorHandler = true) (hmade : q < s.count) (hplain : s.executor q = none)
    (hnot : q ∉ ((r :: l) :: st).flatten)
    (hpend : ∀ e, s.executor e = some q → (s.promise e).status ≠ .init) :
    Good (s.await r q) ((q :: r :: l) :: st) := by
  have hne : ∀ x ∈ ((r :: l) :: st).flatten, (s.await r q).promise x = s.promise x := by
    intro x hx
    refine Tasks.set_of_ne ?_
    rintro rfl
    exact hnot hx
  have hself : (s.await r q).promise q =
      { s.promise q with caller := some r, status := .running } :=
    Tasks.set_self
  have hfirst : ∀ x ∈ r :: l, (s.await r q).promise x = s.promise x := fun x hx =>
    hne x (by rw [List.flatten_cons]; exact List.mem_append_left _ hx)
  refine h.replace rfl rfl rfl (fun x hx => ?_) ⟨⟨hplain, ?_, ?_, fun p hp => ?_⟩, ?_⟩ ?_
    (fun x hx => ?_) (h.pending.congr rfl rfl (fun x hx => ?_) fun e p he hs _ hp => ?_)
  · exact hne x (by rw [List.flatten_cons]; exact List.mem_append_right _ hx)
  · rw [hself]
  · rw [hself]
  · rw [hself]
    exact hr p hp
  · exact (h.stack _ List.mem_cons_self).congr hfirst fun _ _ => rfl
  · refine List.nodup_cons.mpr ⟨fun hq => hnot ?_, h.first_nodup⟩
    rw [List.flatten_cons]
    exact List.mem_append_left _ hq
  · rcases List.mem_cons.mp hx with rfl | hx
    · refine ⟨hmade, fun hq => hnot ?_⟩
      rw [List.flatten_cons]
      exact List.mem_append_right _ hq
    · exact h.first hx
  · rcases eq_or_ne x q with rfl | hxq
    · rw [hself] at hx
      cases hx
    · rwa [show (s.await r q).promise x = s.promise x from Tasks.set_of_ne hxq] at hx
  · have hpq : p ≠ q := by
      rintro rfl
      rcases eq_or_ne e p with rfl | hep
      · rw [hself] at hs
        cases hs
      · rw [show (s.await r p).promise e = s.promise e from Tasks.set_of_ne hep] at hs
        exact hpend e he hs
    rwa [show (s.await r q).promise p = s.promise p from Tasks.set_of_ne hpq]

/-- A coroutine leaves the top of its stack, together with the frames `pre`; those that change are
among them. -/
theorem Good.unwind {pre : List Nat} {y : Nat} {l' : List Nat} (h : Good s ((r :: l) :: st))
    (hsplit : r :: l = pre ++ y :: l') (hactive : s'.active = y :: s.active.erase r)
    (hcount : s'.count = s.count) (hexec : s'.executor = s.executor)
    (hframe : ∀ x, x ∉ pre → s'.promise x = s.promise x)
    (hinit : ∀ x, (s'.promise x).status = .init → (s.promise x).status = .init) :
    Good s' ((y :: l') :: st) := by
  have hnodup := h.first_nodup
  rw [hsplit] at hnodup
  obtain ⟨-, hn, hdisj⟩ := List.nodup_append.mp hnodup
  have hmem : ∀ x ∈ y :: l', x ∈ r :: l := fun x hx => by
    rw [hsplit]
    exact List.mem_append_right _ hx
  have hpre : ∀ x ∈ pre, x ∈ r :: l := fun x hx => by
    rw [hsplit]
    exact List.mem_append_left _ hx
  refine h.replace hactive hcount hexec (fun x hx => hframe x fun hp => (h.first (hpre x hp)).2 hx)
    ?_ hn (fun x hx => h.first (hmem x hx))
    (h.pending.congr hcount hexec hinit fun e p _ _ hp ha => ?_)
  · have hstack := h.stack _ List.mem_cons_self
    rw [hsplit] at hstack
    exact hstack.suffix.congr (fun x hx => hframe x fun hp => hdisj x hp x hx rfl)
      fun x _ => by rw [hexec]
  · rw [hframe p fun hm => ?_]
    · exact ha
    · exact h.not_mem hp ha (by rw [List.flatten_cons]; exact List.mem_append_left _ (hpre p hm))

theorem leave_eq {st : Status} (hc : (s.promise r).caller = some c) :
    s.leave r st = (s.setStatus r st).pass r c := by
  unfold Tasks.leave
  rw [hc]

/-- `co_yield` and `co_return`. -/
theorem Good.leave {x : Status} (h : Good s ((r :: c :: l) :: st)) (hx : x ≠ .init)
    (hc : (s.promise r).caller = some c) :
    Good (s.leave r x) ((c :: l) :: st) := by
  rw [leave_eq hc]
  have hsplit : r :: c :: l = [r] ++ c :: l := rfl
  refine h.unwind hsplit rfl rfl rfl (fun y hy => ?_) fun y hy => ?_
  · exact Tasks.setStatus_of_ne fun he => hy (he ▸ List.mem_singleton_self r)
  · rcases eq_or_ne y r with rfl | hyr
    · rw [show ((s.setStatus y x).pass y c).promise y = { s.promise y with status := x } from
        Tasks.setStatus_self] at hy
      exact absurd hy hx
    · rwa [show ((s.setStatus r x).pass r c).promise y = s.promise y from
        Tasks.setStatus_of_ne hyr] at hy

/-- A failure. -/
theorem Good.failAt {pre post : List Nat} (h : Good s ((r :: l) :: st))
    (hstop : Stops s (r :: l) pre n c post) (hr : r ∈ pre ++ [n]) :
    Good (s.failAt r n c) ((c :: post) :: st) := by
  have hsplit : r :: l = (pre ++ [n]) ++ c :: post := by
    rw [hstop.split, List.append_assoc]
    rfl
  have hn : n ∈ pre ++ [n] := List.mem_append_right _ (List.mem_singleton_self n)
  have hsame : ∀ y, y ≠ r → y ≠ n → (s.failAt r n c).promise y = s.promise y := fun y hyr hyn =>
    (Tasks.setStatus_of_ne hyn).trans (Tasks.setStatus_of_ne hyr)
  refine h.unwind hsplit rfl rfl rfl (fun y hy => hsame y (fun he => hy (he ▸ hr))
    fun he => hy (he ▸ hn)) fun y hy => ?_
  rcases eq_or_ne y n with rfl | hyn
  · rw [show (s.failAt r y c).promise y =
      { (s.setStatus r .fail).promise y with status := .fail } from
      Tasks.setStatus_self] at hy
    cases hy
  rcases eq_or_ne y r with rfl | hyr
  · rw [show (s.failAt y n c).promise y = { s.promise y with status := .fail } from
      (Tasks.setStatus_of_ne hyn).trans Tasks.setStatus_self] at hy
    cases hy
  · rwa [hsame y hyr hyn] at hy

/-- The start of an executor. -/
theorem Good.start {e : Nat} (h : Good s ((e :: l) :: st)) (he : s.executor e = some q)
    (hs : (s.promise e).status = .init) : Good (s.start e q) ((q :: e :: l) :: st) := by
  obtain ⟨hmade, hplain, hstatus, hone⟩ := h.pending e q he hs
  have hnot := h.not_mem hplain hstatus
  have hqe : q ≠ e := fun heq => by
    rw [heq, he] at hplain
    cases hplain
  obtain rfl : l = [] := (h.stack _ List.mem_cons_self).executor he
  -- the executor runs, and it sets the handler of its task
  let t := (s.setStatus e .running).set q
    { (s.setStatus e .running).promise q with hasErrorHandler := true }
  have hte : t.promise e = { s.promise e with status := .running } :=
    (Tasks.set_of_ne hqe.symm).trans Tasks.setStatus_self
  have htq : t.promise q = { s.promise q with hasErrorHandler := true } := by
    show Tasks.promise (Tasks.set _ _ _) q = _
    rw [Tasks.set_self, Tasks.setStatus_of_ne hqe]
  have hto : ∀ x, x ≠ e → x ≠ q → t.promise x = s.promise x := fun x hxe hxq =>
    (Tasks.set_of_ne hxq).trans (Tasks.setStatus_of_ne hxe)
  have ht : Good t ([e] :: st) := by
    refine ⟨h.active, fun k hk => ?_, h.nodup, h.made, h.executors,
      h.pending.congr rfl rfl (fun x hx => ?_) fun e' p he' hs' hp ha => ?_⟩
    · rcases List.mem_cons.mp hk with rfl | hk
      · refine ⟨⟨q, he⟩, ?_⟩
        rw [hte]
        exact (h.stack _ List.mem_cons_self).2
      · refine (h.stack k (List.mem_cons_of_mem _ hk)).congr (fun x hx => ?_) fun _ _ => rfl
        have hx : x ∈ st.flatten := List.mem_flatten.mpr ⟨k, hk, hx⟩
        refine hto x ?_ ?_
        · rintro rfl
          exact (h.first List.mem_cons_self).2 hx
        · rintro rfl
          exact hnot (by rw [List.flatten_cons]; exact List.mem_append_right _ hx)
    · rcases eq_or_ne x e with rfl | hxe
      · exact hs
      rcases eq_or_ne x q with rfl | hxq
      · rwa [htq] at hx
      · rwa [hto x hxe hxq] at hx
    · rcases eq_or_ne p q with rfl | hpq
      · rwa [htq]
      · rwa [hto p (fun hpe => by rw [hpe, he] at hp; cases hp) hpq]
  have hawait : Good (t.await e q) ([q, e] :: st) := by
    refine ht.await (fun p hp => ?_) hmade hplain hnot fun e' he' hs' => ?_
    · have hp : s.executor e = some p := hp
      rw [he] at hp
      refine ⟨(Option.some.inj hp).symm, ?_⟩
      rw [htq]
    · rcases eq_or_ne e' e with rfl | hee
      · rw [hte] at hs'
        cases hs'
      · have heq : e' ≠ q := fun heq => by
          rw [heq] at he'
          have he' : s.executor q = some q := he'
          rw [hplain] at he'
          cases he'
        rw [hto e' hee heq] at hs'
        exact hee (hone e' he' hs')
  exact hawait

/-- An executor ends. -/
theorem Good.finish {e : Nat} (h : Good s ((e :: l) :: st)) (he : s.executor e = some q) :
    Good (s.leave e .done) st := by
  have hstack := h.stack _ List.mem_cons_self
  obtain rfl : l = [] := hstack.executor he
  have heq : s.leave e .done = { s.setStatus e .done with active := s.active.erase e } := by
    unfold Tasks.leave
    rw [hstack.2]
  rw [heq]
  have hto : ∀ x, x ≠ e → (s.setStatus e .done).promise x = s.promise x :=
    fun x hx => Tasks.setStatus_of_ne hx
  have hnodup := h.nodup
  rw [List.flatten_cons, List.singleton_append, List.nodup_cons] at hnodup
  refine ⟨?_, fun k hk => ?_, hnodup.2, fun x hx => ?_, h.executors,
    h.pending.congr rfl rfl (fun x hx => ?_) fun e' p _ _ hp ha => ?_⟩
  · have := h.active.erase e
    rwa [List.map_cons, List.headD_cons, List.erase_cons_head] at this
  · refine (h.stack k (List.mem_cons_of_mem _ hk)).congr (fun x hx => hto x ?_) fun _ _ => rfl
    rintro rfl
    exact hnodup.1 (List.mem_flatten.mpr ⟨k, hk, hx⟩)
  · exact h.made x (by rw [List.flatten_cons]; exact List.mem_append_right _ hx)
  · have hx : ((s.setStatus e .done).promise x).status = .init := hx
    rcases eq_or_ne x e with rfl | hxe
    · rw [Tasks.setStatus_self] at hx
      cases hx
    · rwa [hto x hxe] at hx
  · show ((s.setStatus e .done).promise p).status.Awaitable
    rwa [hto p fun hpe => by rw [hpe, he] at hp; cases hp]

/-- The scheduler resumes an active coroutine. -/
theorem Good.resume (h : Good s ((r :: l) :: st)) (hs : (s.promise r).status ≠ .init) :
    Good (s.setStatus r .running) ((r :: l) :: st) := by
  have hstack := h.stack _ List.mem_cons_self
  have hto : ∀ x, x ≠ r → (s.setStatus r .running).promise x = s.promise x :=
    fun x hx => Tasks.setStatus_of_ne hx
  refine ⟨h.active, fun k hk => ?_, h.nodup, h.made, h.executors,
    h.pending.congr rfl rfl (fun x hx => ?_) fun e' p _ _ hp ha => ?_⟩
  · rcases List.mem_cons.mp hk with rfl | hk
    · cases l with
      | nil =>
        refine ⟨hstack.1, ?_⟩
        rw [Tasks.setStatus_self]
        exact hstack.2
      | cons c l =>
        have hsame : (s.setStatus r .running).promise r = s.promise r := by
          rw [Tasks.setStatus_self, ← hstack.1.2.2.1]
        exact hstack.congr (fun x _ => by
          rcases eq_or_ne x r with rfl | hx
          · exact hsame
          · exact hto x hx) fun _ _ => rfl
    · refine (h.stack k (List.mem_cons_of_mem _ hk)).congr (fun x hx => hto x fun hxr => ?_)
        fun _ _ => rfl
      have hx : x ∈ st.flatten := List.mem_flatten.mpr ⟨k, hk, hx⟩
      exact (h.first List.mem_cons_self).2 (hxr ▸ hx)
  · rcases eq_or_ne x r with rfl | hxr
    · rw [Tasks.setStatus_self] at hx
      cases hx
    · rwa [hto x hxr] at hx
  · rwa [hto p]
    rintro rfl
    exact h.not_mem hp ha
      (by rw [List.flatten_cons]; exact List.mem_append_left _ List.mem_cons_self)

/-! ## Runs -/

/-- A promise that no one resumes any more: it is on no stack, and it has run. -/
structure Gone (s : Tasks) (st : List (List Nat)) (x : Nat) : Prop where
  made : x < s.count
  off : x ∉ st.flatten
  ran : ¬(s.promise x).status.Awaitable

theorem Gone.congr {st' : List (List Nat)} (h : Gone s st x) (hcount : s.count ≤ s'.count)
    (hst : ∀ y ∈ st'.flatten, y ∈ st.flatten ∨ y ≠ x) (hp : s'.promise x = s.promise x) :
    Gone s' st' x := by
  refine ⟨Nat.lt_of_lt_of_le h.made hcount, fun hx => ?_, by rw [hp]; exact h.ran⟩
  exact (hst x hx).elim h.off fun hne => hne rfl

theorem Gone.ne_of_mem {y : Nat} (h : Gone s st x) (hy : y ∈ st.flatten) : x ≠ y :=
  fun he => h.off (he ▸ hy)

/-- A failing coroutine that is not an executor, and the stack that is left. -/
theorem Good.fail {h' c' m : Nat} (h : Good s ((r :: l) :: st)) (hplain : s.executor r = none)
    (hm : (s.setStatus r .fail).handleFail m r = some (.resume h' c')) :
    ∃ pre post, Stops s (r :: l) pre h' c' post ∧ r ∈ pre ++ [h'] ∧
      Good (s.failAt r h' c') ((c' :: post) :: st) := by
  have hfield : ∀ x, ((s.setStatus r .fail).promise x).caller = (s.promise x).caller ∧
      ((s.setStatus r .fail).promise x).hasErrorHandler = (s.promise x).hasErrorHandler := by
    intro x
    rcases eq_or_ne x r with rfl | hx
    · rw [Tasks.setStatus_self]
      exact ⟨rfl, rfl⟩
    · rw [Tasks.setStatus_of_ne hx]
      exact ⟨rfl, rfl⟩
  obtain ⟨pre, h₁, c₁, post, k, hstop, hk⟩ := (h.stack _ List.mem_cons_self).stops
    (fun x => (hfield x).1) (fun x => (hfield x).2) hplain
  obtain ⟨rfl, rfl⟩ := Handled.resume.inj (handleFail_unique hm hk)
  have hr : r ∈ pre ++ [h'] := by
    have hsplit := hstop.split
    cases pre with
    | nil => exact List.mem_cons.mpr (.inl (List.cons.inj hsplit).1)
    | cons y pre =>
      rw [(List.cons.inj hsplit).1]
      exact List.mem_cons_self
  exact ⟨pre, post, hstop, hr, h.failAt hstop hr⟩

/-- A coroutine that yields or returns. -/
theorem Good.leave_step {y : Status} (h : Good s st) (ha : r ∈ s.active) (hy : y ≠ .init)
    (hc : (s.promise r).caller = some c) :
    ∃ st', Good (s.leave r y) st' ∧ ∀ x, Gone s st x → Gone (s.leave r y) st' x ∧ x ∉ [c] := by
  obtain ⟨l, st₁, hg, hmem⟩ := h.focus ha
  obtain ⟨l, rfl⟩ := (hg.stack _ List.mem_cons_self).caller hc
  have hr : r ∈ st.flatten := (hmem r).mp (by simp)
  have hin : c ∈ st.flatten := (hmem c).mp (by simp)
  refine ⟨_, hg.leave hy hc,
    fun x hx => ⟨?_, fun hm => hx.ne_of_mem hin (List.mem_singleton.mp hm)⟩⟩
  rw [leave_eq hc]
  refine hx.congr (Nat.le_refl _) (fun z hz => .inl ((hmem z).mp ?_))
    (Tasks.setStatus_of_ne (hx.ne_of_mem hr))
  rw [List.flatten_cons] at hz ⊢
  exact List.mem_cons_of_mem r hz

/-- A coroutine that fails: the frames down to the handler are gone. -/
theorem Good.fail_step {h' : Nat} (h : Good s st) (ha : r ∈ s.active) (hplain : s.executor r = none)
    (hn : (s.setStatus r .fail).handleFail n r = some (.resume h' c)) :
    ∃ st', Good (s.failAt r h' c) st' ∧
      (∃ l pre post, IsStack s (r :: l) ∧ (r :: l).Nodup ∧ Stops s (r :: l) pre h' c post ∧
        ∀ x ∈ pre ++ [h'], Gone (s.failAt r h' c) st' x) ∧
      ∀ x, Gone s st x → Gone (s.failAt r h' c) st' x ∧ x ∉ [c] := by
  obtain ⟨l, st₁, hg, hmem⟩ := h.focus ha
  obtain ⟨pre, post, hstop, hr, hg'⟩ := hg.fail hplain hn
  have hsplit : r :: l = (pre ++ [h']) ++ c :: post := by
    rw [hstop.split, List.append_assoc]
    rfl
  have hstack := hg.stack _ List.mem_cons_self
  have hnodup := hg.first_nodup
  have hdisj := hnodup
  rw [hsplit] at hdisj
  have hleft : ∀ x ∈ pre ++ [h'], x ∈ r :: l := fun x hx => by
    rw [hsplit]
    exact List.mem_append_left _ hx
  have hold : ∀ x ∈ r :: l, x ∈ st.flatten := fun x hx =>
    (hmem x).mp (by rw [List.flatten_cons]; exact List.mem_append_left _ hx)
  have hc : c ∈ st.flatten := hold c (by rw [hsplit]; simp)
  have hh : h' ∈ pre ++ [h'] := by simp
  have hsame : ∀ x, x ≠ r → x ≠ h' → (s.failAt r h' c).promise x = s.promise x := fun x hxr hxh =>
    (Tasks.setStatus_of_ne hxh).trans (Tasks.setStatus_of_ne hxr)
  refine ⟨_, hg', ⟨l, pre, post, hstack, hnodup, hstop, fun x hx => ⟨?_, ?_, ?_⟩⟩,
    fun x hx => ⟨?_, ?_⟩⟩
  · exact (hg.first (hleft x hx)).1
  · rw [List.flatten_cons]
    intro hm
    rcases List.mem_append.mp hm with hm | hm
    · exact (List.nodup_append.mp hdisj).2.2 x hx x hm rfl
    · exact (hg.first (hleft x hx)).2 hm
  · rcases eq_or_ne x h' with rfl | hxh
    · rw [show (s.failAt r x c).promise x =
        { (s.setStatus r .fail).promise x with status := .fail } from
        Tasks.setStatus_self]
      exact fun ha => ha.elim nofun nofun
    rcases eq_or_ne x r with rfl | hxr
    · rw [show (s.failAt x h' c).promise x = { s.promise x with status := .fail } from
        (Tasks.setStatus_of_ne hxh).trans Tasks.setStatus_self]
      exact fun ha => ha.elim nofun nofun
    · -- a frame that was skipped still waits
      rw [hsame x hxr hxh]
      have hrun : (s.promise x).status = .running := by
        refine hstack.running (hleft x hx) ?_
        cases hexec : s.executor x with
        | none => rfl
        | some q =>
          obtain ⟨u, v, huv⟩ := List.append_of_mem hx
          have hx' : IsStack s (x :: (v ++ c :: post)) := by
            rw [hsplit, huv, List.append_assoc, List.cons_append] at hstack
            exact hstack.suffix
          have := hx'.executor hexec
          simp at this
      rw [hrun]
      exact fun ha => ha.elim nofun nofun
  · refine hx.congr (Nat.le_refl _) (fun z hz => .inl ((hmem z).mp ?_)) ?_
    · rw [List.flatten_cons] at hz ⊢
      rcases List.mem_append.mp hz with hz | hz
      · exact List.mem_append_left _ (by rw [hsplit]; exact List.mem_append_right _ hz)
      · exact List.mem_append_right _ hz
    · exact hsame x (hx.ne_of_mem (hold r (hleft r hr))) (hx.ne_of_mem (hold h' (hleft h' hh)))
  · exact fun hm => hx.ne_of_mem hc (List.mem_singleton.mp hm)

theorem Good.step (h : Good s st) (hs : Step s a s') :
    ∃ st', Good s' st' ∧ ∀ x, Gone s st x → Gone s' st' x ∧ x ∉ a.resumed := by
  -- what is on a stack, or can be awaited, is not gone
  have hheld : ∀ {q x}, (s.promise q).status.Awaitable → Gone s st x → x ≠ q := fun hq hx he =>
    hx.ran (he ▸ hq)
  cases hs with
  | create =>
    refine ⟨st, h.create, fun x hx => ⟨hx.congr (Nat.le_succ _) (fun y hy => .inl hy) ?_,
      List.not_mem_nil⟩⟩
    exact Function.update_of_ne (Nat.ne_of_lt hx.made) ..
  | setHandler hq =>
    exact ⟨st, h.setHandler hq, fun x hx => ⟨hx.congr (Nat.le_refl _) (fun y hy => .inl hy)
      (Tasks.set_of_ne (hheld hq.status hx)), List.not_mem_nil⟩⟩
  | schedule hq _ =>
    refine ⟨_, h.schedule hq, fun x hx => ⟨hx.congr (Nat.le_succ _) (fun y hy => ?_) ?_,
      List.not_mem_nil⟩⟩
    · rw [List.flatten_cons, List.singleton_append] at hy
      rcases List.mem_cons.mp hy with rfl | hy
      · exact .inr (Nat.ne_of_gt hx.made)
      · exact .inl hy
    · exact Function.update_of_ne (Nat.ne_of_lt hx.made) ..
  | @start e q ha he hs =>
    obtain ⟨l, st₁, hg, hmem⟩ := h.focus ha
    have hq := (h.pending e q he hs).2.2.1
    have hin : e ∈ st.flatten := (hmem e).mp (by simp)
    refine ⟨_, hg.start he hs, fun x hx => ⟨hx.congr (Nat.le_refl _) (fun y hy => ?_) ?_, ?_⟩⟩
    · rw [List.flatten_cons, List.cons_append] at hy
      rcases List.mem_cons.mp hy with rfl | hy
      · exact .inr (hheld hq hx).symm
      · exact .inl ((hmem y).mp hy)
    · exact (Tasks.set_of_ne (hheld hq hx)).trans
        ((Tasks.set_of_ne (hheld hq hx)).trans (Tasks.setStatus_of_ne (hx.ne_of_mem hin)))
    · intro hm
      rcases List.mem_cons.mp hm with rfl | hm
      · exact hx.off hin
      · exact hheld hq hx (List.mem_singleton.mp hm)
  | @await r q ha hplain hq =>
    obtain ⟨l, st₁, hg, hmem⟩ := h.focus ha
    refine ⟨_, hg.await (fun p hp => by rw [hplain] at hp; cases hp) hq.made hq.plain
      (hg.not_mem hq.plain hq.status) hq.unscheduled, fun x hx =>
      ⟨hx.congr (Nat.le_refl _) (fun y hy => ?_) (Tasks.set_of_ne (hheld hq.status hx)), ?_⟩⟩
    · rw [List.flatten_cons, List.cons_append] at hy
      rcases List.mem_cons.mp hy with rfl | hy
      · exact .inr (hheld hq.status hx).symm
      · exact .inl ((hmem y).mp hy)
    · exact fun hm => hheld hq.status hx (List.mem_singleton.mp hm)
  | yield ha _ hc => exact h.leave_step ha (by decide) hc
  | ret ha _ hc => exact h.leave_step ha (by decide) hc
  | @finish e q ha he hs =>
    obtain ⟨l, st₁, hg, hmem⟩ := h.focus ha
    have hin : e ∈ st.flatten := (hmem e).mp (by simp)
    refine ⟨_, hg.finish he, fun x hx => ⟨hx.congr ?_ (fun y hy => ?_) ?_, List.not_mem_nil⟩⟩
    · unfold Tasks.leave
      split <;> exact Nat.le_refl _
    · exact .inl ((hmem y).mp (by rw [List.flatten_cons]; exact List.mem_append_right _ hy))
    · unfold Tasks.leave
      split <;> exact Tasks.setStatus_of_ne (hx.ne_of_mem hin)
  | @resume r ha hs =>
    obtain ⟨l, st₁, hg, hmem⟩ := h.focus ha
    have hin : r ∈ st.flatten := (hmem r).mp (by simp)
    refine ⟨_, hg.resume hs,
      fun x hx => ⟨hx.congr (Nat.le_refl _) (fun y hy => .inl ((hmem y).mp hy))
      (Tasks.setStatus_of_ne (hx.ne_of_mem hin)), fun hm => ?_⟩⟩
    exact hx.ne_of_mem hin (List.mem_singleton.mp hm)
  | fail ha hplain hn =>
    obtain ⟨st', hg, -, hgone⟩ := h.fail_step ha hplain hn
    exact ⟨st', hg, hgone⟩
  | awaitFailed ha hplain hn =>
    obtain ⟨st', hg, -, hgone⟩ := h.fail_step ha hplain hn
    exact ⟨st', hg, hgone⟩

/-! ## The handler -/

/-- `y` is `x`, or it waits for `x`, directly or through others. -/
def Above (s : Tasks) : Nat → Nat → Prop :=
  Relation.ReflTransGen fun x y => (s.promise x).caller = some y

/-- `h` is the first promise from `f` on that has a handler. -/
structure Innermost (s : Tasks) (f h : Nat) : Prop where
  above : Above s f h
  handler : (s.promise h).hasErrorHandler = true
  inner : ∀ x, Above s f x → Above s x h → x ≠ h → (s.promise x).hasErrorHandler = false

theorem IsStack.caller_mem : ∀ {l : List Nat} {x y : Nat}, IsStack s l → x ∈ l →
    (s.promise x).caller = some y → y ∈ l
  | [e], x, y, h, hx, hc => by
    rw [List.mem_singleton.mp hx, h.2] at hc
    cases hc
  | a :: d :: l, x, y, h, hx, hc => by
    rcases List.mem_cons.mp hx with rfl | hx
    · rw [h.1.2.1] at hc
      rw [← Option.some.inj hc]
      exact List.mem_cons_of_mem x List.mem_cons_self
    · exact List.mem_cons_of_mem a (IsStack.caller_mem h.2 hx hc)

theorem IsStack.mem_of_above {y : Nat} (h : IsStack s l) (hx : x ∈ l)
    (ha : Above s x y) : y ∈ l := by
  induction ha with
  | refl => exact hx
  | tail _ hc ih => exact h.caller_mem ih hc

theorem IsStack.above_of_mem : ∀ {l : List Nat} {x y : Nat}, IsStack s (x :: l) → y ∈ x :: l →
    Above s x y
  | [], x, y, _, hy => by
    rw [List.mem_singleton.mp hy]
    exact .refl
  | c :: l, x, y, h, hy => by
    rcases List.mem_cons.mp hy with rfl | hy
    · exact .refl
    · exact .head h.1.2.1 (IsStack.above_of_mem h.2 hy)

/-- The promises between a failing one and the handler are those that the failure skips. -/
theorem Stops.between {f : Nat} {pre post : List Nat} (hstop : Stops s (f :: l) pre h c post)
    (hs : IsStack s (f :: l)) (hnodup : (f :: l).Nodup) (ha : Above s f x) (hb : Above s x h) :
    x ∈ pre ∨ x = h := by
  have hx := hs.mem_of_above List.mem_cons_self ha
  have hsplit : f :: l = (pre ++ [h]) ++ c :: post := by
    rw [hstop.split, List.append_assoc]
    rfl
  rw [hsplit] at hx hs hnodup
  rcases List.mem_append.mp hx with hx | hx
  · rcases List.mem_append.mp hx with hx | hx
    · exact .inl hx
    · exact .inr (List.mem_singleton.mp hx)
  · have hmem := hs.suffix.mem_of_above hx hb
    exact absurd rfl ((List.nodup_append.mp hnodup).2.2 h (by simp) h hmem)

theorem Stops.innermost {f : Nat} {pre post : List Nat} (hstop : Stops s (f :: l) pre h c post)
    (hs : IsStack s (f :: l)) (hnodup : (f :: l).Nodup) : Innermost s f h where
  above := hs.above_of_mem (by rw [hstop.split]; simp)
  handler := hstop.handler
  inner x ha hb hne := hstop.skipped x ((hstop.between hs hnodup ha hb).resolve_right hne)

/-- Promises that are gone stay so, and no step resumes one. -/
theorem Good.never {D : Nat → Prop} {later : List Act} {t : Tasks} (h : Good s st)
    (hgone : ∀ x, D x → Gone s st x) (hrun : Run Step s later t) :
    ∀ a ∈ later, ∀ x, D x → x ∉ a.resumed := by
  have hinv : (∃ st', Good t st' ∧ ∀ x, D x → Gone t st' x) ∧
      ∀ a ∈ later, ∀ x, D x → x ∉ a.resumed := by
    refine hrun.history (I := fun ls u => (∃ st', Good u st' ∧ ∀ x, D x → Gone u st' x) ∧
      ∀ a ∈ ls, ∀ x, D x → x ∉ a.resumed) ?_ ⟨⟨st, h, hgone⟩,
      fun a ha => (List.not_mem_nil ha).elim⟩
    rintro ls u b v ⟨⟨st', hg, hd⟩, hls⟩ hstep
    obtain ⟨st'', hg', hd'⟩ := hg.step hstep
    refine ⟨⟨st'', hg', fun x hx => (hd' x (hd x hx)).1⟩, fun a ha x hx => ?_⟩
    rcases List.mem_append.mp ha with ha | ha
    · exact hls a ha x hx
    · rw [List.mem_singleton.mp ha]
      exact (hd' x (hd x hx)).2
  exact hinv.2

/-- Wherever a coroutine fails, `coroutine_handle_fail` ends without a panic. It marks the
innermost promise with a handler and resumes the caller of that promise, which is the executor if
no handler was set below the task that was scheduled. No promise from the failing one to the
handler ever runs again. -/
theorem failure_handled {acts : List Act} {f : Nat} (hrun : Run Step .initial acts s)
    (hf : f ∈ s.active) (hplain : s.executor f = none) :
    (∃ n h c, (s.setStatus f .fail).handleFail n f = some (.resume h c)) ∧
    (∀ n, (s.setStatus f .fail).handleFail n f ≠ some .panic) ∧
    ∀ h c s', Step s (.fail f h c) s' ∨ Step s (.awaitFailed f h c) s' →
      Innermost s f h ∧ (s.promise h).caller = some c ∧ c ∈ s'.active ∧
      (∀ x, s'.promise x =
        if x = f ∨ x = h then { s.promise x with status := .fail } else s.promise x) ∧
      ((∀ x, Above s f x → (∀ e, (s.promise x).caller = some e → s.executor e = none) →
        (s.promise x).hasErrorHandler = false) → s.executor c = some h) ∧
      ∀ later t, Run Step s' later t → ∀ a ∈ later, ∀ x, Above s f x → Above s x h →
        x ∉ a.resumed := by
  obtain ⟨st, hg⟩ : ∃ st, Good s st := hrun.invariant (I := fun u => ∃ st, Good u st)
    (fun u b v ⟨st, hg⟩ hs => by
      obtain ⟨st', hg', -⟩ := hg.step hs
      exact ⟨st', hg'⟩) ⟨[], initial_good⟩
  have hends : ∃ n h c, (s.setStatus f .fail).handleFail n f = some (.resume h c) := by
    obtain ⟨l, st₁, hg₁, -⟩ := hg.focus hf
    have hfield : ∀ x, ((s.setStatus f .fail).promise x).caller = (s.promise x).caller ∧
        ((s.setStatus f .fail).promise x).hasErrorHandler = (s.promise x).hasErrorHandler := by
      intro x
      rcases eq_or_ne x f with rfl | hx
      · rw [Tasks.setStatus_self]
        exact ⟨rfl, rfl⟩
      · rw [Tasks.setStatus_of_ne hx]
        exact ⟨rfl, rfl⟩
    obtain ⟨-, h, c, -, n, -, hn⟩ := (hg₁.stack _ List.mem_cons_self).stops
      (fun x => (hfield x).1) (fun x => (hfield x).2) hplain
    exact ⟨n, h, c, hn⟩
  refine ⟨hends, fun m hm => ?_, fun h c s' hstep => ?_⟩
  · obtain ⟨n, h, c, hn⟩ := hends
    exact nomatch handleFail_unique hm hn
  obtain ⟨rfl, n, hn⟩ : s' = s.failAt f h c ∧
      ∃ n, (s.setStatus f .fail).handleFail n f = some (.resume h c) := by
    rcases hstep with hstep | hstep
    · cases hstep with
      | fail _ _ hn => exact ⟨rfl, _, hn⟩
    · cases hstep with
      | awaitFailed _ _ hn => exact ⟨rfl, _, hn⟩
  obtain ⟨st', hg', ⟨l, pre, post, hs, hnodup, hstop, hgone⟩, -⟩ := hg.fail_step hf hplain hn
  refine ⟨hstop.innermost hs hnodup, hstop.caller, List.mem_cons_self, fun x => ?_, fun hno => ?_,
    fun later t hlater a ha x h1 h2 => ?_⟩
  · show ((s.setStatus f .fail).setStatus h .fail).promise x = _
    rcases eq_or_ne x h with rfl | hxh
    · rw [if_pos (.inr rfl), Tasks.setStatus_self]
      rcases eq_or_ne x f with rfl | hxf
      · rw [Tasks.setStatus_self]
      · rw [Tasks.setStatus_of_ne hxf]
    rw [Tasks.setStatus_of_ne hxh]
    rcases eq_or_ne x f with rfl | hxf
    · rw [if_pos (.inl rfl), Tasks.setStatus_self]
    · rw [if_neg (not_or.mpr ⟨hxf, hxh⟩), Tasks.setStatus_of_ne hxf]
  · cases hexec : s.executor c with
    | some q => rw [hstop.executor q hexec]
    | none =>
      have hfalse := hno h (hstop.innermost hs hnodup).above fun e he => by
        rw [hstop.caller] at he
        rw [← Option.some.inj he]
        exact hexec
      rw [hstop.handler] at hfalse
      cases hfalse
  · refine hg'.never (D := fun x => x ∈ pre ++ [h]) hgone hlater a ha x ?_
    rcases hstop.between hs hnodup h1 h2 with hx | rfl
    · exact List.mem_append_left _ hx
    · exact List.mem_append_right _ (List.mem_singleton_self x)

/-- A task given to the scheduler that awaits another one. -/
def nested : Tasks := (((Tasks.initial.create.schedule 0).start 1 0).create).await 0 2

theorem nested_run :
    Run Step .initial [.create, .schedule 0, .start 1 0, .create, .await 0 2] nested := by
  have h1 : Run Step .initial [.create] Tasks.initial.create := Run.single .create
  have h2 := h1.snoc (Step.schedule (q := 0) ⟨by decide, rfl, .inl rfl, nofun⟩ rfl)
  have h3 := h2.snoc (Step.start (e := 1) (q := 0) List.mem_cons_self rfl rfl)
  refine (h3.snoc Step.create).snoc (Step.await (r := 0) (q := 2) List.mem_cons_self rfl
    ⟨by decide, rfl, .inl rfl, fun e he => ?_⟩)
  have he : Function.update (fun _ => none) 1 (some 0) e = some 2 := he
  rcases eq_or_ne e 1 with rfl | hne
  · cases he
  · rw [Function.update_of_ne hne] at he
    cases he

theorem failure_handled_nested :
    2 ∈ nested.active ∧ nested.executor 2 = none ∧ nested.executor 1 = some 0 ∧
      Innermost nested 2 0 ∧ (nested.promise 0).caller = some 1 ∧
      1 ∈ (nested.failAt 2 0 1).active := by
  have hf : 2 ∈ nested.active := List.mem_cons_self
  have h := failure_handled nested_run hf rfl
  obtain ⟨hin, hc, ha, -⟩ := h.2.2 0 1 _ (.inl (.fail (n := 2) hf rfl rfl))
  exact ⟨hf, rfl, rfl, hin, hc, ha⟩

end CoroCore.Task
