import CoroCore.Trap.Threads

/-!
# Switching and interrupts are invisible to threads

The invariant says for each core what the assembly on it is about to complete, and for each thread
that is on no core where its registers are: those it called `swtch` with in its context, and if it
was interrupted those of its own code in the frame on its stack.

* `Sim.step`: a step of a core is one of a thread with registers of its own, or none;
* `threads_refined`: so is a run, on any number of cores, interrupted anywhere, and a thread finds
  in `tp` the core that it is on.
-/

namespace CoroCore.Trap

open Lib Lib.Riscv

variable {κ π : Type}

/-- The frame and the copy of `sepc` are those of code with the registers `h`. -/
structure Shelved (f : Interrupted) (h : Hart) (mem : Bytes) : Prop where
  kept : f.kept = true
  sepc : f.sepc = h.pc
  framed : Framed f.frame h.reg mem

theorem Shelved.congr {f : Interrupted} {h : Hart} {mem mem' : Bytes} (hs : Shelved f h mem)
    (hmem : ∀ b ∈ frameArea f.frame, mem' b = mem b) : Shelved f h mem' :=
  ⟨hs.kept, hs.sepc, hs.framed.congr hmem⟩

/-- `kernel_vec` filled the frame, for code with the registers `h`. -/
structure Vectored (f : Interrupted) (h : Hart) (w : Word) (m : Machine) : Prop where
  framed : Framed f.frame h.reg m.mem
  sepc : m.hart.csr .sepc = h.pc
  tp : m.hart.reg .tp = w

/-- The registers are `h` again. -/
structure Restored (h : Hart) (w : Word) (m : Machine) : Prop where
  same : Same h m.hart
  tp : m.hart.reg .tp = w

theorem Vectored.on {f : Interrupted} {h : Hart} {w : Word} :
    On (frameArea f.frame) (Vectored f h w) :=
  fun _ _ hm hv => ⟨hv.framed.congr hm.mem, hm.hart ▸ hv.sepc, hm.hart ▸ hv.tp⟩

theorem Restored.on {R : Set Nat} {h : Hart} {w : Word} : On R (Restored h w) :=
  fun _ _ hm hr => ⟨hm.hart ▸ hr.same, hm.hart ▸ hr.tp⟩

section Invariant

variable (P : Places κ π) (tp : κ → Word) (a : Threads κ π) (called : Thread κ π → Reg → Word)
    (x : Kernel κ π)

/-- What a thread that called `swtch` will go on with. -/
structure Remembered (t : Thread κ π) : Prop where
  called : x.trap t = none → ∀ p ∈ contextLayout, x.called t p.1 = (a.own t).reg p.1
  trapped : ∀ f, x.trap t = some f → a.fresh t = false ∧ Shelved f (a.own t) x.mem

/-- The thread is on no core. -/
structure Parked (t : Thread κ π) : Prop where
  saved : contextLayout.Saved x.mem (P.context t) (x.called t)
  first : a.fresh t = true → load x.mem (P.context t + contextA0) = (a.own t).reg .a0
  remembered : Remembered a x t

/-- `swtch` returned to `t`. -/
structure Landed (t : Thread κ π) (tpk : Word) (h : Hart) : Prop where
  reg : ∀ p ∈ contextLayout, h.reg p.1 = called t p.1
  pc : h.pc = called t .ra
  first : a.fresh t = true → h.reg .a0 = (a.own t).reg .a0 ∧ h.reg .a1 = called t .sp
  tp : h.reg .tp = tpk

/-- `swtch` saved `old` and went on with `new`. -/
structure Switched (old : Option (Thread κ π)) (new : Thread κ π) (w : Word)
    (m : Machine) : Prop where
  saved : ∀ t, old = some t → contextLayout.Saved m.mem (P.context t) (called t)
  landed : Landed a called new w m.hart

/-- The memory that `swtch` touches. -/
def switchArea (old : Option (Thread κ π)) (new : Thread κ π) : Set Nat :=
  old.elim ∅ (fun t => contextArea (P.context t)) ∪ contextArea (P.context new)

/-- What the job of core `k` rests on. -/
def Doing (k : κ) : Job κ π → Prop
  | .body t => x.rest k = [] ∧ x.trap t = none ∧ a.fresh t = false ∧ Same (a.own t) (x.hart k) ∧
      (x.hart k).reg .tp = tp k
  | .vec t => a.fresh t = false ∧ ∃ f, x.trap t = some f ∧ f.kept = true ∧
      Expects direct (frameArea f.frame) (x.rest k) (x.machine k) (Vectored f (a.own t) (tp k))
  | .handler t => x.rest k = [] ∧ a.fresh t = false ∧
      (∃ f, x.trap t = some f ∧ Shelved f (a.own t) x.mem) ∧
      (x.hart k).reg .tp = tp k
  | .ret t => a.fresh t = false ∧ ∃ f, x.trap t = some f ∧
      Expects direct (frameArea f.frame) (x.rest k) (x.machine k) (Restored (a.own t) (tp k))
  | .swtch old new => (∀ t, old = some t → a.fresh t = false ∧ Remembered a x t) ∧
      Remembered a x new ∧
      Expects direct (switchArea P old new) (x.rest k) (x.machine k)
      (Switched P a x.called old new (tp k))

/-- The thread is on core `k`, or its `run` is. -/
def Owns (k : κ) (t : Thread κ π) : Prop :=
  t = .scheduler k ∨ ∃ p, x.slice k = some p ∧ t = .process p

structure Sim : Prop where
  doing : ∀ k, Doing P tp a x k (x.job k)
  parked : ∀ t, x.Alive t → (∀ k, ¬(x.job k).Mentions t) → Parked P a x t
  owner : ∀ k t, (x.job k).Mentions t → Owns x k t
  slices : ∀ j k p, x.slice j = some p → x.slice k = some p → j = k
  queued : ∀ k p, x.slice k = some p → p ∉ x.queue
  once : x.queue.Nodup
  frames : ∀ t f, x.trap t = some f → x.Alive t ∧ f.frame + frameSize ≤ 2 ^ 64 ∧
    frameArea f.frame ⊆ P.stack t

/-- Nothing that belongs to the thread is changed. -/
structure Untouched (a' : Threads κ π) (x' : Kernel κ π) (t : Thread κ π) : Prop where
  trap : x'.trap t = x.trap t
  called : x'.called t = x.called t
  own : a'.own t = a.own t
  fresh : a'.fresh t = a.fresh t
  context : ∀ b ∈ contextArea (P.context t), x'.mem b = x.mem b
  frame : ∀ f, x.trap t = some f → ∀ b ∈ frameArea f.frame, x'.mem b = x.mem b

end Invariant

variable {P : Places κ π} {tp : κ → Word} {a a' : Threads κ π} {called : Thread κ π → Reg → Word}
  {x x' : Kernel κ π} {k : κ} {t : Thread κ π}

theorem Remembered.untouched (h : Remembered a x t) (hu : Untouched P a x a' x' t) :
    Remembered a' x' t := by
  refine ⟨fun hnone => ?_, fun f hf => ?_⟩
  · rw [hu.called, hu.own]
    exact h.called (hu.trap ▸ hnone)
  · rw [hu.trap] at hf
    rw [hu.own, hu.fresh]
    exact ⟨(h.trapped f hf).1, (h.trapped f hf).2.congr (hu.frame f hf)⟩

theorem Parked.untouched (h : Parked P a x t) (hu : Untouched P a x a' x' t) :
    Parked P a' x' t := by
  refine ⟨?_, fun hfresh => ?_, h.remembered.untouched hu⟩
  · rw [hu.called]
    exact h.saved.congr contextLayout_fits.inside hu.context
  · rw [hu.fresh] at hfresh
    rw [hu.own, ← h.first hfresh]
    refine load_congr fun i hi => hu.context _ ⟨?_, ?_⟩
      <;> simp only [contextA0, contextSize] <;> omega

theorem Landed.untouched {h : Hart} {w : Word} (hl : Landed a x.called t w h)
    (hu : Untouched P a x a' x' t) :
    Landed a' x'.called t w h := by
  refine ⟨?_, ?_, fun hfresh => ?_, hl.tp⟩
  · rw [hu.called]
    exact hl.reg
  · rw [hu.called]
    exact hl.pc
  · rw [hu.called, hu.own]
    exact hl.first (hu.fresh ▸ hfresh)

theorem Switched.on {old : Option (Thread κ π)} {new : Thread κ π} {w : Word} :
    On (switchArea P old new) (Switched P a called old new w) := by
  refine fun m m' hm hs =>
    ⟨fun t ht => (hs.saved t ht).congr contextLayout_fits.inside fun b hb => ?_,
      hm.hart ▸ hs.landed⟩
  rw [ht] at hm
  exact hm.mem b (.inl hb)

/-- What others do does not disturb a core. -/
theorem Doing.untouched {j : Job κ π} (h : Doing P tp a x k j) (hhart : x'.hart k = x.hart k)
    (hrest : x'.rest k = x.rest k) (hu : ∀ t, j.Mentions t → Untouched P a x a' x' t) :
    Doing P tp a' x' k j := by
  have hagree : ∀ R : Set Nat, (∀ b ∈ R, x'.mem b = x.mem b) →
      Agree R (x.machine k) (x'.machine k) :=
    fun R hR => ⟨hhart, hR⟩
  cases j with
  | body t =>
    obtain ⟨hnil, htrap, hfresh, hsame, htp⟩ := h
    have ht := hu t rfl
    exact ⟨hrest.trans hnil, ht.trap.trans htrap, ht.fresh.trans hfresh,
      by rw [ht.own, hhart]; exact hsame, by rw [hhart]; exact htp⟩
  | vec t =>
    obtain ⟨hfresh, f, hf, hkept, hexp⟩ := h
    have ht := hu t rfl
    refine ⟨ht.fresh.trans hfresh, f, ht.trap.trans hf, hkept, ?_⟩
    rw [hrest, ht.own]
    exact hexp.agree Vectored.on (hagree _ (ht.frame f hf))
  | handler t =>
    obtain ⟨hnil, hfresh, ⟨f, hf, hshelved⟩, htp⟩ := h
    have ht := hu t rfl
    refine ⟨hrest.trans hnil, ht.fresh.trans hfresh, ⟨f, ht.trap.trans hf, ?_⟩,
      by rw [hhart]; exact htp⟩
    rw [ht.own]
    exact hshelved.congr (ht.frame f hf)
  | ret t =>
    obtain ⟨hfresh, f, hf, hexp⟩ := h
    have ht := hu t rfl
    refine ⟨ht.fresh.trans hfresh, f, ht.trap.trans hf, ?_⟩
    rw [hrest, ht.own]
    exact hexp.agree Restored.on (hagree _ (ht.frame f hf))
  | swtch old new =>
    obtain ⟨hold, hnew, hexp⟩ := h
    have hunew := hu new (.inr rfl)
    have huold : ∀ t, old = some t → Untouched P a x a' x' t := fun t ht => hu t (.inl ht)
    refine ⟨fun t ht => ⟨(huold t ht).fresh.trans (hold t ht).1,
      (hold t ht).2.untouched (huold t ht)⟩, hnew.untouched hunew, ?_⟩
    rw [hrest]
    have harea : ∀ b ∈ switchArea P old new, x'.mem b = x.mem b := by
      rintro b (hb | hb)
      · cases old with
        | none => exact absurd hb (Set.notMem_empty b)
        | some t => exact (huold t rfl).context b hb
      · exact hunew.context b hb
    refine (hexp.agree Switched.on (hagree _ harea)).imp fun m hpost =>
      ⟨fun t ht => ?_, hpost.landed.untouched hunew⟩
    rw [(huold t ht).called]
    exact hpost.saved t ht

theorem Untouched.refl : Untouched P a x a x t :=
  ⟨rfl, rfl, rfl, rfl, fun _ _ => rfl, fun _ _ _ _ => rfl⟩

namespace Sim

theorem owns_scheduler {j : κ} (h : Owns x j (.scheduler k)) : j = k := by
  rcases h with heq | ⟨p, -, heq⟩
  · exact (Thread.scheduler.inj heq).symm
  · cases heq

theorem owns_process {p : π} (h : Owns x k (.process p)) : x.slice k = some p := by
  rcases h with heq | ⟨q, hq, heq⟩
  · cases heq
  · exact (Thread.process.inj heq) ▸ hq

theorem alive_of_owns (h : Owns x k t) : x.Alive t := by
  rcases h with rfl | ⟨p, hp, rfl⟩
  · trivial
  · exact .inr ⟨k, hp⟩

theorem owns_unique (h : Sim P tp a x) {j : κ} (hj : Owns x j t) (hk : Owns x k t) : j = k := by
  cases t with
  | scheduler i => exact (owns_scheduler hj).trans (owns_scheduler hk).symm
  | process p => exact h.slices j k p (owns_process hj) (owns_process hk)

theorem alive (h : Sim P tp a x) (hm : (x.job k).Mentions t) : x.Alive t :=
  alive_of_owns (h.owner k t hm)

theorem elsewhere (h : Sim P tp a x) {j : κ} (hj : j ≠ k) (hm : (x.job j).Mentions t) :
    ¬(x.job k).Mentions t :=
  fun hk => hj (h.owns_unique (h.owner j t hm) (h.owner k t hk))

theorem frame_of (h : Sim P tp a x) {f : Interrupted} (hf : x.trap t = some f) :
    f.frame + frameSize ≤ 2 ^ 64 ∧ frameArea f.frame ⊆ P.stack t := (h.frames t f hf).2

/-- A step of core `k` that leaves the threads alone which are not on it. What comes alive is
parked. -/
theorem evolve {j : Job κ π} (h : Sim P tp a x)
    (hlive : ∀ t, x'.Alive t → x.Alive t ∨ Parked P a' x' t)
    (hslices : ∀ i j p, x'.slice i = some p → x'.slice j = some p → i = j)
    (hqueued : ∀ i p, x'.slice i = some p → p ∉ x'.queue) (honce : x'.queue.Nodup)
    (hother : ∀ i ≠ k, x'.hart i = x.hart i ∧ x'.job i = x.job i ∧ x'.rest i = x.rest i)
    (hstays : ∀ i ≠ k, ∀ t, (x.job i).Mentions t → Owns x' i t)
    (hfar : ∀ t, x.Alive t → x'.Alive t → ¬(x.job k).Mentions t → Untouched P a x a' x' t)
    (hjob : x'.job k = j) (howner : ∀ t, j.Mentions t → Owns x' k t) (hdoing : Doing P tp a' x' k j)
    (hparked : ∀ t, x'.Alive t → (x.job k).Mentions t → ¬j.Mentions t → Parked P a' x' t)
    (hframes : ∀ t f, x'.trap t = some f →
      x'.Alive t ∧ f.frame + frameSize ≤ 2 ^ 64 ∧
      frameArea f.frame ⊆ P.stack t) : Sim P tp a' x' := by
  refine ⟨fun i => ?_, fun t ht hno => ?_, fun i t hm => ?_, hslices, hqueued, honce, hframes⟩
  · rcases eq_or_ne i k with rfl | hi
    · rw [hjob]
      exact hdoing
    · obtain ⟨hhart, hj, hrest⟩ := hother i hi
      rw [hj]
      exact (h.doing i).untouched hhart hrest fun t hm =>
        hfar t (h.alive hm) (alive_of_owns (hstays i hi t hm)) (h.elsewhere hi hm)
  · by_cases hm : (x.job k).Mentions t
    · exact hparked t ht hm (hjob ▸ hno k)
    rcases hlive t ht with hlive | hparked
    · refine (h.parked t hlive fun i => ?_).untouched (hfar t hlive ht hm)
      rcases eq_or_ne i k with rfl | hi
      · exact hm
      · rw [← (hother i hi).2.1]
        exact hno i
    · exact hparked
  · rcases eq_or_ne i k with rfl | hi
    · exact howner t (hjob ▸ hm)
    · rw [(hother i hi).2.1] at hm
      exact hstays i hi t hm

/-- The same where no process changes hands. -/
theorem update {j : Job κ π} (h : Sim P tp a x) (hslice : x'.slice = x.slice)
    (hqueue : x'.queue = x.queue)
    (hother : ∀ i ≠ k, x'.hart i = x.hart i ∧ x'.job i = x.job i ∧ x'.rest i = x.rest i)
    (hfar : ∀ t, x.Alive t → ¬(x.job k).Mentions t → Untouched P a x a' x' t)
    (htrap : ∀ t, ¬(x.job k).Mentions t → x'.trap t = x.trap t) (hjob : x'.job k = j)
    (howner : ∀ t, j.Mentions t → Owns x k t) (hdoing : Doing P tp a' x' k j)
    (hparked : ∀ t, (x.job k).Mentions t → ¬j.Mentions t → Parked P a' x' t)
    (hframes : ∀ t f, (x.job k).Mentions t → x'.trap t = some f →
      f.frame + frameSize ≤ 2 ^ 64 ∧ frameArea f.frame ⊆ P.stack t) : Sim P tp a' x' := by
  have halive : ∀ t, x'.Alive t ↔ x.Alive t := by
    intro t
    cases t with
    | scheduler i => exact Iff.rfl
    | process p => rw [Kernel.Alive, Kernel.Alive, hslice, hqueue]
  have howns : ∀ i t, Owns x i t → Owns x' i t := fun i t => by rw [Owns, Owns, hslice]; exact id
  refine h.evolve (fun t ht => .inl ((halive t).mp ht)) ?_ ?_ ?_ hother
    (fun i _ t hm => howns i t (h.owner i t hm))
    (fun t ht _ => hfar t ht) hjob (fun t hm => howns k t (howner t hm)) hdoing
    (fun t _ => hparked t) fun t f hf => ?_
  · rw [hslice]
    exact h.slices
  · rw [hslice, hqueue]
    exact h.queued
  · rw [hqueue]
    exact h.once
  · by_cases hm : (x.job k).Mentions t
    · exact ⟨(halive t).mpr (h.alive hm), hframes t f hm hf⟩
    · rw [htrap t hm] at hf
      obtain ⟨ht, hframe⟩ := h.frames t f hf
      exact ⟨(halive t).mpr ht, hframe⟩

/-- The same where one thread is on the core before and after the step. -/
theorem update_one {j : Job κ π} (h : Sim P tp a x) (hold : ∀ u, (x.job k).Mentions u ↔ u = t)
    (hnew : ∀ u, j.Mentions u ↔ u = t) (hslice : x'.slice = x.slice) (hqueue : x'.queue = x.queue)
    (hother : ∀ i ≠ k, x'.hart i = x.hart i ∧ x'.job i = x.job i ∧ x'.rest i = x.rest i)
    (hfar : ∀ u ≠ t, x.Alive u → Untouched P a x a' x' u) (htrap : ∀ u ≠ t, x'.trap u = x.trap u)
    (hjob : x'.job k = j) (hdoing : Doing P tp a' x' k j)
    (hframe : ∀ f, x'.trap t = some f → f.frame + frameSize ≤ 2 ^ 64 ∧
      frameArea f.frame ⊆ P.stack t) :
    Sim P tp a' x' := by
  refine h.update hslice hqueue hother (fun u hu hno => hfar u (mt (hold u).mpr hno) hu)
    (fun u hno => htrap u (mt (hold u).mpr hno)) hjob (fun u hu => ?_) hdoing
    (fun u hu hno => absurd ((hnew u).mpr ((hold u).mp hu)) hno) fun u f hu hf => ?_
  · exact h.owner k u ((hold u).mpr ((hnew u).mp hu))
  · obtain rfl := (hold u).mp hu
    exact hframe f hf

/-- What is written in the frame of `t` is nothing of another thread. -/
theorem far_of_frame (h : Sim P tp a x) {f : Interrupted} (hf : x.trap t = some f) {mem : Bytes}
    (hmem : ∀ b ∉ frameArea f.frame, mem b = x.mem b) {u : Thread κ π} (hne : u ≠ t) :
    (∀ b ∈ contextArea (P.context u), mem b = x.mem b) ∧
    ∀ g, x.trap u = some g → ∀ b ∈ frameArea g.frame, mem b = x.mem b := by
  have hroom := (h.frame_of hf).2
  refine ⟨fun b hb => hmem b fun hin => ?_, fun g hg b hb => hmem b fun hin => ?_⟩
  · exact Set.disjoint_left.mp (P.context_off_stack u t) hb (hroom hin)
  · exact Set.disjoint_left.mp (P.stacks_apart u t hne) ((h.frame_of hg).2 hb) (hroom hin)

/-- What is written in contexts is not in a frame. -/
theorem frame_of_switch (h : Sim P tp a x) {old : Option (Thread κ π)}
    {new : Thread κ π} {mem : Bytes} (hmem : ∀ b ∉ switchArea P old new, mem b = x.mem b)
    {g : Interrupted} (hg : x.trap t = some g) :
    ∀ b ∈ frameArea g.frame, mem b = x.mem b := by
  refine fun b hb => hmem b fun hin => ?_
  have hstack := (h.frame_of hg).2 hb
  rcases hin with hin | hin
  · cases old with
    | none => exact hin
    | some u => exact Set.disjoint_left.mp (P.context_off_stack u t) hin hstack
  · exact Set.disjoint_left.mp (P.context_off_stack new t) hin hstack

theorem context_of_switch {old : Option (Thread κ π)} {new u : Thread κ π} {mem : Bytes}
    (hmem : ∀ b ∉ switchArea P old new, mem b = x.mem b) (hno : ¬(Job.swtch old new).Mentions u) :
    ∀ b ∈ contextArea (P.context u), mem b = x.mem b := by
  rw [Job.Mentions, not_or] at hno
  refine fun b hb => hmem b fun hin => ?_
  rcases hin with hin | hin
  · cases old with
    | none => exact hin
    | some v =>
      exact Set.disjoint_left.mp (P.contexts_apart v u fun heq => hno.1 (heq ▸ rfl)) hin hb
  · exact Set.disjoint_left.mp (P.contexts_apart new u (Ne.symm hno.2)) hin hb

/-- What the code that calls `swtch` will go on with. -/
theorem remembered_of_call (h : Sim P tp a x) {y : Kernel κ π}
    (hjob : x.job k = .body t ∨ x.job k = .handler t) (htrap : y.trap t = x.trap t)
    (hcalled : y.called t = (x.hart k).reg) (hmem : y.mem = x.mem) :
    a.fresh t = false ∧ (x.hart k).reg .tp = tp k ∧ Remembered a y t := by
  have hdoing := h.doing k
  rcases hjob with hjob | hjob
  · rw [hjob] at hdoing
    obtain ⟨-, hnone, hfresh, hsame, htpk⟩ := hdoing
    refine ⟨hfresh, htpk, fun _ p hp => ?_, fun f hf => ?_⟩
    · rw [hcalled]
      exact (hsame.reg p.1 fun heq => tp_not_mem_contextLayout (heq ▸ List.mem_map_of_mem hp)).symm
    · rw [htrap, hnone] at hf
      cases hf
  · rw [hjob] at hdoing
    obtain ⟨-, hfresh, ⟨f, hf, hshelved⟩, htpk⟩ := hdoing
    refine ⟨hfresh, htpk, fun hnone => ?_, fun g hg => ?_⟩
    · rw [htrap, hf] at hnone
      cases hnone
    · rw [htrap, hf] at hg
      cases hg
      rw [hmem]
      exact ⟨hfresh, hshelved⟩

/-- A thread of core `k` that is not on it is parked. -/
theorem parked_of_owns (h : Sim P tp a x) {u : Thread κ π} (hu : Owns x k u)
    (hno : ¬(x.job k).Mentions u) :
    Parked P a x u := by
  refine h.parked u (alive_of_owns hu) fun i hm => hno ?_
  rw [h.owns_unique hu (h.owner i u hm)]
  exact hm

/-- `swtch` is about to return. -/
theorem switched (h : Sim P tp a x) {old : Option (Thread κ π)} (hjob : x.job k = .swtch old t)
    (hrest : x.rest k = []) : (∀ v, old = some v → Parked P a x v) ∧ Remembered a x t ∧
      Landed a x.called t (tp k) (x.hart k) := by
  have hdoing := h.doing k
  rw [hjob] at hdoing
  obtain ⟨hold, hnew, hexp⟩ := hdoing
  rw [hrest] at hexp
  refine ⟨fun v hv => ⟨hexp.done.saved v hv, fun hf => ?_, (hold v hv).2⟩, hnew, hexp.done.landed⟩
  rw [(hold v hv).1] at hf
  cases hf

/-- Passing a process to the queue or from it moves no thread. -/
theorem reslice (h : Sim P tp a x) {s : κ → Option π} {q : List π}
    (halive : ∀ t, Kernel.Alive { x with slice := s, queue := q } t ↔ x.Alive t)
    (howner : ∀ i p, (x.job i).Mentions (.process p) → s i = some p)
    (hslices : ∀ i j p, s i = some p → s j = some p → i = j) (hqueued : ∀ i p, s i = some p → p ∉ q)
    (honce : q.Nodup) : Sim P tp a { x with slice := s, queue := q } := by
  have hu : ∀ t, Untouched P a x a { x with slice := s, queue := q } t :=
    fun t => ⟨rfl, rfl, rfl, rfl, fun _ _ => rfl, fun _ _ _ _ => rfl⟩
  refine ⟨fun i => (h.doing i).untouched rfl rfl fun t _ => hu t,
    fun t ht hno => (h.parked t ((halive t).mp ht) hno).untouched (hu t), fun i t hm => ?_, hslices,
    hqueued, honce, fun t f hf => ⟨(halive t).mpr (h.frames t f hf).1, (h.frames t f hf).2⟩⟩
  cases t with
  | scheduler j => exact .inl (congrArg Thread.scheduler (owns_scheduler (h.owner i _ hm)).symm)
  | process p => exact .inr ⟨p, howner i p hm, rfl⟩

variable [DecidableEq κ]

theorem instr (h : Sim P tp a x) {i : Instr} {l : List Instr} (hrest : x.rest k = i :: l) :
    Sim P tp a (x.put k (exec direct i (x.machine k)) (x.job k) l) := by
  have hdoing := h.doing k
  cases hjob : x.job k with
  | body t =>
    rw [hjob] at hdoing
    exact absurd (hdoing.1.symm.trans hrest) (List.cons_ne_nil i l).symm
  | handler t =>
    rw [hjob] at hdoing
    exact absurd (hdoing.1.symm.trans hrest) (List.cons_ne_nil i l).symm
  | vec t =>
    rw [hjob] at hdoing
    obtain ⟨hfresh, f, hf, hkept, hexp⟩ := hdoing
    rw [hrest] at hexp
    have hfar := fun u => h.far_of_frame hf (fun _ => hexp.other) (u := u)
    refine h.update_one (t := t) (fun u => by rw [hjob]; rfl) (fun u => Iff.rfl) rfl rfl
      (fun i hi => Kernel.put_other hi)
      (fun u hne _ => ⟨rfl, rfl, rfl, rfl, (hfar u hne).1, (hfar u hne).2⟩)
      (fun _ _ => rfl) Kernel.job_put ?_ fun f hf => h.frame_of hf
    refine ⟨hfresh, f, hf, hkept, ?_⟩
    rw [Kernel.machine_put, Kernel.rest_put]
    exact hexp.exec
  | ret t =>
    rw [hjob] at hdoing
    obtain ⟨hfresh, f, hf, hexp⟩ := hdoing
    rw [hrest] at hexp
    have hfar := fun u => h.far_of_frame hf (fun _ => hexp.other) (u := u)
    refine h.update_one (t := t) (fun u => by rw [hjob]; rfl) (fun u => Iff.rfl) rfl rfl
      (fun i hi => Kernel.put_other hi)
      (fun u hne _ => ⟨rfl, rfl, rfl, rfl, (hfar u hne).1, (hfar u hne).2⟩)
      (fun _ _ => rfl) Kernel.job_put ?_ fun f hf => h.frame_of hf
    refine ⟨hfresh, f, hf, ?_⟩
    rw [Kernel.machine_put, Kernel.rest_put]
    exact hexp.exec
  | swtch old new =>
    rw [hjob] at hdoing
    obtain ⟨hold, hnew, hexp⟩ := hdoing
    rw [hrest] at hexp
    have hmem : ∀ b ∉ switchArea P old new, (exec direct i (x.machine k)).mem b = x.mem b :=
      fun _ => hexp.other
    have hremember : ∀ t, Remembered a x t →
        Remembered a (x.put k (exec direct i (x.machine k)) (.swtch old new) l) t :=
      fun t ht => ⟨ht.called, fun f hf =>
        ⟨(ht.trapped f hf).1, (ht.trapped f hf).2.congr (h.frame_of_switch hmem hf)⟩⟩
    refine h.update rfl rfl (fun i hi => Kernel.put_other hi) (fun u _ hno => ?_)
      (fun _ _ => rfl) Kernel.job_put
      (fun u hu => h.owner k u (by rw [hjob]; exact hu)) ?_
      (fun u hu hno => absurd (by rw [hjob] at hu; exact hu) hno) fun u f _ hf => h.frame_of hf
    · rw [hjob] at hno
      exact ⟨rfl, rfl, rfl, rfl, context_of_switch hmem hno, fun f hf => h.frame_of_switch hmem hf⟩
    · refine ⟨fun t ht => ⟨(hold t ht).1, hremember t (hold t ht).2⟩, hremember new hnew, ?_⟩
      rw [Kernel.machine_put, Kernel.rest_put]
      exact hexp.exec

theorem handle (h : Sim P tp a x) {m : Machine} (hjob : x.job k = .handler t)
    (htp : m.hart.reg .tp = (x.hart k).reg .tp) (hmem : x.Spares P t m.mem) :
    Sim P tp a (x.put k m (.handler t) []) := by
  have hdoing := h.doing k
  rw [hjob] at hdoing
  obtain ⟨-, hfresh, ⟨f, hf, hshelved⟩, htpk⟩ := hdoing
  refine h.update_one (fun u => by rw [hjob]; rfl) (fun u => Iff.rfl) rfl rfl
    (fun i hi => Kernel.put_other hi)
    (fun u hne hu => ⟨rfl, rfl, rfl, rfl, hmem.contexts u hne hu, hmem.frames u⟩)
    (fun _ _ => rfl) Kernel.job_put
    ?_ fun f hf => h.frame_of hf
  exact ⟨Kernel.rest_put, hfresh, ⟨f, hf, hshelved.congr (hmem.frames t f hf)⟩,
    by rw [Kernel.hart_put, htp, htpk]⟩

theorem leave (h : Sim P tp a x) {f : Interrupted} (hjob : x.job k = .handler t)
    (hf : x.trap t = some f) (hsp : f.kept = true → (x.hart k).reg .sp = BitVec.ofNat 64 f.frame) :
    Sim P tp a (x.put k ⟨(x.hart k).setCsr .sepc f.sepc, x.mem⟩ (.ret t) kernelRet) := by
  have hdoing := h.doing k
  rw [hjob] at hdoing
  obtain ⟨-, hfresh, ⟨g, hg, hshelved⟩, htpk⟩ := hdoing
  obtain rfl : g = f := Option.some.inj (hg.symm.trans hf)
  refine h.update_one (t := t) (fun u => by rw [hjob]; rfl) (fun u => Iff.rfl) rfl rfl
    (fun i hi => Kernel.put_other hi) (fun u hne hu => ?_) (fun _ _ => rfl) Kernel.job_put
    ?_ fun f hf => h.frame_of hf
  · exact ⟨rfl, rfl, rfl, rfl, fun _ _ => rfl, fun _ _ _ _ => rfl⟩
  · refine ⟨hfresh, g, hg, ?_⟩
    rw [Kernel.machine_put, Kernel.rest_put]
    refine (kernelRet_expects (hsp hshelved.kept) (h.frame_of hf).1 hshelved.framed).imp fun m hm =>
      ⟨⟨fun r hr => (hm.1 r hr).symm, ?_⟩, hm.2.2.trans htpk⟩
    rw [hm.2.1, ← hshelved.sepc]
    exact (Function.update_self Csr.sepc g.sepc (x.hart k).csr).symm

/-- `k` gives its process away. -/
theorem cleared (h : Sim P tp a x) {p : π} (hs : x.slice k = some p) (i : κ) (q : π) :
    Function.update x.slice k none i = some q ↔ x.slice i = some q ∧ q ≠ p := by
  rcases eq_or_ne i k with rfl | hi
  · simp only [Function.update_self, reduceCtorEq, hs, Option.some.injEq, false_iff,
      not_and, not_not]
    exact Eq.symm
  · rw [Function.update_of_ne hi]
    exact ⟨fun hq => ⟨hq, fun heq => hi (h.slices i k p (heq ▸ hq) hs)⟩, And.left⟩

theorem push (h : Sim P tp a x) {p : π} (hs : x.slice k = some p)
    (hno : ¬(x.job k).Mentions (.process p)) :
    Sim P tp a { x with slice := Function.update x.slice k none, queue := x.queue ++ [p] } := by
  have hfree : p ∉ x.queue := h.queued k p hs
  refine h.reslice (fun t => ?_) (fun i q hm => (h.cleared hs i q).mpr ?_)
    (fun i j q hi hj => h.slices i j q ((h.cleared hs i q).mp hi).1 ((h.cleared hs j q).mp hj).1)
    (fun i q hi => ?_) ?_
  · cases t with
    | scheduler j => exact Iff.rfl
    | process q =>
      simp only [Kernel.Alive, h.cleared hs, List.mem_append, List.mem_singleton]
      constructor
      · rintro ((hq | rfl) | ⟨i, hi, -⟩)
        · exact .inl hq
        · exact .inr ⟨k, hs⟩
        · exact .inr ⟨i, hi⟩
      · rintro (hq | ⟨i, hi⟩)
        · exact .inl (.inl hq)
        · rcases eq_or_ne q p with rfl | hne
          · exact .inl (.inr rfl)
          · exact .inr ⟨i, hi, hne⟩
  · have hi := owns_process (h.owner i _ hm)
    refine ⟨hi, fun heq => hno ?_⟩
    rw [heq] at hm hi
    rw [← h.slices i k p hi hs]
    exact hm
  · obtain ⟨hi, hne⟩ := (h.cleared hs i q).mp hi
    simp only [List.mem_append, List.mem_singleton, not_or]
    exact ⟨h.queued i q hi, hne⟩
  · exact List.nodup_append.mpr ⟨h.once, List.nodup_cons.mpr ⟨List.not_mem_nil, List.nodup_nil⟩,
      fun b hb c hc heq =>
      hfree (List.mem_singleton.mp hc ▸ heq ▸ hb)⟩

theorem owns_cleared (h : Sim P tp a x) {p : π} (hs : x.slice k = some p)
    (hslice : x'.slice = Function.update x.slice k none) {i : κ} (ht : Owns x i t)
    (hne : t ≠ .process p) :
    Owns x' i t := by
  rcases ht with rfl | ⟨q, hq, rfl⟩
  · exact .inl rfl
  · refine .inr ⟨q, ?_, rfl⟩
    rw [hslice]
    exact (h.cleared hs i q).mpr ⟨hq, fun heq => hne (congrArg Thread.process heq)⟩

/-- `k` gives its process away, and nobody takes it. -/
theorem alive_cleared (h : Sim P tp a x) {p : π} (hs : x.slice k = some p) {y : Kernel κ π}
    (hslice : y.slice = Function.update x.slice k none) (hqueue : y.queue = x.queue)
    (t : Thread κ π) :
    y.Alive t ↔ x.Alive t ∧ t ≠ .process p := by
  cases t with
  | scheduler j => exact ⟨fun _ => ⟨trivial, fun heq => by cases heq⟩, fun _ => trivial⟩
  | process q =>
    have hcleared := fun i => h.cleared hs i q
    simp only [Kernel.Alive, hslice, hqueue, hcleared, ne_eq, Thread.process.injEq]
    constructor
    · rintro (hq | ⟨i, hi, hne⟩)
      · exact ⟨.inl hq, fun heq => h.queued k p hs (heq ▸ hq)⟩
      · exact ⟨.inr ⟨i, hi⟩, hne⟩
    · rintro ⟨hq | ⟨i, hi⟩, hne⟩
      · exact .inl hq
      · exact .inr ⟨i, hi, hne⟩

theorem exit (h : Sim P tp a x) {p : π} (hjob : x.job k = .body (.process p))
    (hc : Kernel.Calls P (x.hart k) none (.scheduler k)) :
    Sim P tp a (Kernel.put { x with slice := Function.update x.slice k none } k (x.machine k)
      (.swtch none (.scheduler k)) (swtch (x.hart k))) := by
  have hs : x.slice k = some p := owns_process (h.owner k (.process p) (by rw [hjob]; exact rfl))
  have hpark : Parked P a x (.scheduler k) :=
    h.parked_of_owns (.inl rfl) (by rw [hjob]; exact fun heq => by cases heq)
  have hdoing := h.doing k
  rw [hjob] at hdoing
  obtain ⟨-, hnone, -, -, htpk⟩ := hdoing
  have halive := h.alive_cleared hs
    (y := Kernel.put { x with slice := Function.update x.slice k none } k
    (x.machine k) (.swtch none (.scheduler k)) (swtch (x.hart k))) rfl rfl
  refine h.evolve (fun t ht => .inl ((halive t).mp ht).1)
    (fun i j q hi hj => h.slices i j q ((h.cleared hs i q).mp hi).1 ((h.cleared hs j q).mp hj).1)
    (fun i q hi => h.queued i q ((h.cleared hs i q).mp hi).1) h.once
    (fun i hi => Kernel.put_other hi)
    (fun i hi t hm => h.owns_cleared hs rfl (h.owner i t hm) fun heq => ?_)
    (fun t _ _ _ => ⟨rfl, rfl, rfl, rfl, fun _ _ => rfl, fun _ _ _ _ => rfl⟩) Kernel.job_put
    (fun t hm => ?_) ?_
    (fun t ht hm _ => ?_) fun t f hf => ?_
  · exact h.elsewhere hi hm (by rw [hjob]; exact heq)
  · exact .inl (hm.resolve_left fun heq => by cases heq)
  · refine ⟨fun v hv => (by cases hv), ⟨hpark.remembered.called, hpark.remembered.trapped⟩, ?_⟩
    have hexp := Switching.load (m := x.machine k) hc.a1 (P.inside _) hpark.saved
    rw [Kernel.machine_put, Kernel.rest_put, swtch_none hc.a0, switchArea, Option.elim,
      Set.empty_union]
    refine hexp.imp fun m hm => ⟨fun v hv => (by cases hv), ?_⟩
    have hr := hm.2
    exact ⟨hr.reg, hr.pc, fun hfirst => ⟨hr.a0.trans (hpark.first hfirst), hr.a1⟩, hr.tp.trans htpk⟩
  · rw [hjob] at hm
    exact absurd hm ((halive t).mp ht).2
  · obtain ⟨ht, hframe⟩ := h.frames t f hf
    refine ⟨(halive t).mpr ⟨ht, ?_⟩, hframe⟩
    rintro rfl
    cases hnone.symm.trans hf

variable [DecidableEq π]

theorem compute (h : Sim P tp a x) {m : Machine} (hjob : x.job k = .body t)
    (htp : m.hart.reg .tp = (x.hart k).reg .tp) (hmem : x.Spares P t m.mem) :
    Sim P tp { a with own := Function.update a.own t m.hart } (x.put k m (.body t) []) := by
  have hdoing := h.doing k
  rw [hjob] at hdoing
  obtain ⟨-, htrap, hfresh, -, htpk⟩ := hdoing
  have hown : Same (Function.update a.own t m.hart t) m.hart := by
    rw [Function.update_self]
    exact ⟨fun _ _ => rfl, rfl⟩
  refine h.update_one (fun u => by rw [hjob]; rfl) (fun u => Iff.rfl) rfl rfl
    (fun i hi => Kernel.put_other hi)
    (fun u hne hu => ?_) (fun _ _ => rfl) Kernel.job_put ?_ fun f hf => h.frame_of hf
  · exact ⟨rfl, rfl, Function.update_of_ne hne _ _, rfl, hmem.contexts u hne hu, hmem.frames u⟩
  · refine ⟨Kernel.rest_put, htrap, hfresh, ?_, ?_⟩
    · rw [Kernel.hart_put]
      exact hown
    · rw [Kernel.hart_put, htp, htpk]

theorem interrupt (h : Sim P tp a x) {frame : Nat} (hjob : x.job k = .body t)
    (hsp : (x.hart k).reg .sp = BitVec.ofNat 64 frame + BitVec.ofNat 64 frameSize)
    (hframe : frame + frameSize ≤ 2 ^ 64) (hroom : frameArea frame ⊆ P.stack t) :
    Sim P tp a (Kernel.put { x with trap := Function.update x.trap t (some ⟨frame, 0, true⟩) } k
      ⟨{ (x.hart k).setCsr .sepc (x.hart k).pc with pc := (x.hart k).csr .stvec }, x.mem⟩
      (.vec t) kernelVec) := by
  have hdoing := h.doing k
  rw [hjob] at hdoing
  obtain ⟨-, -, hfresh, hsame, htpk⟩ := hdoing
  refine h.update_one (t := t) (fun u => by rw [hjob]; rfl) (fun u => Iff.rfl) rfl rfl
    (fun i hi => Kernel.put_other hi) (fun u hne hu => ?_)
    (fun u hne => Function.update_of_ne hne _ _)
    Kernel.job_put ?_ fun f hf => ?_
  · exact ⟨Function.update_of_ne hne _ _, rfl, rfl, rfl, fun _ _ => rfl, fun _ _ _ _ => rfl⟩
  · refine ⟨hfresh, ⟨frame, 0, true⟩, Function.update_self _ _ _, rfl, ?_⟩
    rw [Kernel.machine_put, Kernel.rest_put]
    refine (kernelVec_expects hsp hframe).imp fun m hm =>
      ⟨hm.1.of_same hsame.reg, ?_, hm.2.2.1.trans htpk⟩
    rw [hm.2.2.2, hsame.pc]
    exact Function.update_self Csr.sepc (x.hart k).pc (x.hart k).csr
  · have hf' : some (⟨frame, 0, true⟩ : Interrupted) = some f :=
      (Function.update_self t _ _).symm.trans hf
    cases hf'
    exact ⟨hframe, hroom⟩

theorem enter (h : Sim P tp a x) {f : Interrupted} (hjob : x.job k = .vec t) (hrest : x.rest k = [])
    (hf : x.trap t = some f) :
    Sim P tp a (Kernel.put { x with
        trap := Function.update x.trap t (some { f with sepc := (x.hart k).csr .sepc }) } k
      (x.machine k) (.handler t) []) := by
  have hdoing := h.doing k
  rw [hjob] at hdoing
  obtain ⟨hfresh, g, hg, hkept, hexp⟩ := hdoing
  obtain rfl : g = f := Option.some.inj (hg.symm.trans hf)
  rw [hrest] at hexp
  have hv := hexp.done
  have hroom := h.frame_of hg
  refine h.update_one (t := t) (fun u => by rw [hjob]; rfl) (fun u => Iff.rfl) rfl rfl
    (fun i hi => Kernel.put_other hi) (fun u hne hu => ?_)
    (fun u hne => Function.update_of_ne hne _ _)
    Kernel.job_put ?_ fun f' hf' => ?_
  · exact ⟨Function.update_of_ne hne _ _, rfl, rfl, rfl, fun _ _ => rfl, fun _ _ _ _ => rfl⟩
  · refine ⟨Kernel.rest_put, hfresh, ⟨_, Function.update_self _ _ _, hkept, hv.sepc, hv.framed⟩, ?_⟩
    rw [Kernel.hart_put]
    exact hv.tp
  · cases (Function.update_self t _ x.trap).symm.trans hf'
    exact hroom

theorem sret (h : Sim P tp a x) (hjob : x.job k = .ret t) (hrest : x.rest k = []) :
    Sim P tp a (Kernel.put { x with trap := Function.update x.trap t none } k (x.machine k)
      (.body t) []) := by
  have hdoing := h.doing k
  rw [hjob] at hdoing
  obtain ⟨hfresh, f, hf, hexp⟩ := hdoing
  rw [hrest] at hexp
  have hr := hexp.done
  refine h.update_one (t := t) (fun u => by rw [hjob]; rfl) (fun u => Iff.rfl) rfl rfl
    (fun i hi => Kernel.put_other hi) (fun u hne hu => ?_)
    (fun u hne => Function.update_of_ne hne _ _)
    Kernel.job_put ?_ fun f' hf' => ?_
  · exact ⟨Function.update_of_ne hne _ _, rfl, rfl, rfl, fun _ _ => rfl, fun _ _ _ _ => rfl⟩
  · refine ⟨Kernel.rest_put, Function.update_self _ _ _, hfresh, ?_, ?_⟩
    · rw [Kernel.hart_put]
      exact hr.same
    · rw [Kernel.hart_put]
      exact hr.tp
  · cases (Function.update_self t _ x.trap).symm.trans hf'

theorem call (h : Sim P tp a x) {u : Thread κ π} (hjob : x.job k = .body t ∨ x.job k = .handler t)
    (hu : Owns x k u) (hne : t ≠ u) (hc : Kernel.Calls P (x.hart k) (some t) u) :
    Sim P tp a (Kernel.put { x with called := Function.update x.called t (x.hart k).reg }
      k (x.machine k)
      (.swtch (some t) u) (swtch (x.hart k))) := by
  have hold : ∀ v, (x.job k).Mentions v ↔ v = t := by
    intro v
    rcases hjob with hjob | hjob <;> rw [hjob] <;> rfl
  have hpark : Parked P a x u := h.parked_of_owns hu (mt (hold u).mp hne.symm)
  obtain ⟨hfresh, htpk, hremember⟩ := h.remembered_of_call hjob
    (y := Kernel.put { x with called := Function.update x.called t (x.hart k).reg } k (x.machine k)
      (.swtch (some t) u) (swtch (x.hart k))) rfl (Function.update_self t _ x.called) rfl
  have hcalled : Function.update x.called t (x.hart k).reg u = x.called u :=
    Function.update_of_ne hne.symm _ _
  refine h.update rfl rfl (fun i hi => Kernel.put_other hi) (fun v _ hno => ?_) (fun _ _ => rfl)
    Kernel.job_put (fun v hv => ?_) ?_ (fun v hv hno => ?_) fun v f _ hf => h.frame_of hf
  · exact ⟨rfl, Function.update_of_ne (mt (hold v).mpr hno) _ _, rfl, rfl, fun _ _ => rfl,
      fun _ _ _ _ => rfl⟩
  · rcases hv with heq | rfl
    · exact h.owner k v ((hold v).mpr (Option.some.inj heq).symm)
    · exact hu
  · refine ⟨fun v hv => ?_, ⟨fun hnone => ?_, hpark.remembered.trapped⟩, ?_⟩
    · cases hv
      exact ⟨hfresh, hremember⟩
    · exact fun p hp => (congrFun hcalled p.1).trans (hpark.remembered.called hnone p hp)
    · have hexp := Switching.save (m := x.machine k) hc.a0 hc.a1 (P.inside t) (P.inside u)
        (P.contexts_apart t u hne) hpark.saved
      rw [Kernel.machine_put, Kernel.rest_put, swtch_some hc.a0 (P.nonnull t) (P.inside t)]
      refine hexp.imp fun m hm => ⟨fun v hv => ?_, ?_⟩
      · cases hv
        exact fun p hp => (hm.1 p hp).trans (congrFun (Function.update_self t _ x.called) p.1).symm
      · have hr := hm.2
        rw [← hcalled] at hr
        exact ⟨hr.reg, hr.pc, fun hfirst => ⟨hr.a0.trans (hpark.first hfirst), hr.a1⟩,
          hr.tp.trans htpk⟩
  · exact absurd (.inl (congrArg some ((hold v).mp hv).symm)) hno

theorem arrive (h : Sim P tp a x) {old : Option (Thread κ π)} (hjob : x.job k = .swtch old t)
    (hrest : x.rest k = []) (htrap : x.trap t = none) :
    Threads.Step a (.returned t (x.hart k))
      ⟨Function.update a.own t (x.hart k), Function.update a.fresh t false⟩ ∧
    Sim P tp ⟨Function.update a.own t (x.hart k), Function.update a.fresh t false⟩
      (x.put k (x.machine k) (.body t) []) := by
  obtain ⟨hold, hnew, hland⟩ := h.switched hjob hrest
  have hcalled := hnew.called htrap
  refine ⟨.returned (fun p hp => (hland.reg p hp).trans (hcalled p hp)) ?_ fun hfresh => ?_, ?_⟩
  · exact hland.pc.trans (hcalled (.ra, 0) (by decide))
  · obtain ⟨ha0, ha1⟩ := hland.first hfresh
    exact ⟨ha0, ha1.trans (hcalled (.sp, 8) (by decide))⟩
  have hfar : ∀ v ≠ t,
    Untouched P a x ⟨Function.update a.own t (x.hart k), Function.update a.fresh t false⟩
      (x.put k (x.machine k) (.body t) []) v := fun v hne =>
    ⟨rfl, rfl, Function.update_of_ne hne _ _, Function.update_of_ne hne _ _, fun _ _ => rfl,
      fun _ _ _ _ => rfl⟩
  refine h.update rfl rfl (fun i hi => Kernel.put_other hi)
    (fun v _ hno => hfar v fun heq => hno ?_) (fun _ _ => rfl)
    Kernel.job_put (fun v hv => h.owner k v ?_) ?_ (fun v hv hno => ?_)
    fun v f _ hf => h.frame_of hf
  · rw [hjob]
    exact .inr heq
  · rw [hjob]
    exact .inr hv
  · refine ⟨Kernel.rest_put, htrap, Function.update_self t _ a.fresh, ?_, ?_⟩
    · have hsame : Same (Function.update a.own t (x.hart k) t) (x.hart k) := by
        rw [Function.update_self]
        exact ⟨fun _ _ => rfl, rfl⟩
      rw [Kernel.hart_put]
      exact hsame
    · rw [Kernel.hart_put]
      exact hland.tp
  · rw [hjob] at hv
    exact (hold v (hv.resolve_right hno)).untouched (hfar v hno)

theorem arriveTrapped (h : Sim P tp a x) {old : Option (Thread κ π)} {f : Interrupted}
    (hjob : x.job k = .swtch old t) (hrest : x.rest k = []) (hf : x.trap t = some f) :
    Sim P tp a (Kernel.put { x with trap := Function.update x.trap t (some { f with
      kept := f.kept && contextLayout.all fun p => (x.hart k).reg p.1 == x.called t p.1 }) } k
      (x.machine k) (.handler t) []) := by
  obtain ⟨hold, hnew, hland⟩ := h.switched hjob hrest
  obtain ⟨hfresh, hshelved⟩ := hnew.trapped f hf
  have hroom := h.frame_of hf
  have hkept :
      (f.kept && contextLayout.all fun p => (x.hart k).reg p.1 == x.called t p.1) = true := by
    rw [hshelved.kept, Bool.true_and, List.all_eq_true]
    exact fun p hp => beq_iff_eq.mpr (hland.reg p hp)
  have hfar : ∀ v ≠ t,
      Untouched P a x a (Kernel.put { x with trap := Function.update x.trap t (some { f with
      kept := f.kept && contextLayout.all fun p => (x.hart k).reg p.1 == x.called t p.1 }) } k
      (x.machine k) (.handler t) []) v := fun v hne =>
    ⟨Function.update_of_ne hne _ _, rfl, rfl, rfl, fun _ _ => rfl, fun _ _ _ _ => rfl⟩
  refine h.update rfl rfl (fun i hi => Kernel.put_other hi)
    (fun v _ hno => hfar v fun heq => hno ?_)
    (fun v hno => Function.update_of_ne (fun heq => hno ?_) _ _) Kernel.job_put
    (fun v hv => h.owner k v ?_) ?_
    (fun v hv hno => ?_) fun v g hv hg => ?_
  · rw [hjob]
    exact .inr heq
  · rw [hjob]
    exact .inr heq
  · rw [hjob]
    exact .inr hv
  · refine ⟨Kernel.rest_put, hfresh,
      ⟨_, Function.update_self _ _ _, hkept, hshelved.sepc, hshelved.framed⟩, ?_⟩
    rw [Kernel.hart_put]
    exact hland.tp
  · rw [hjob] at hv
    exact (hold v (hv.resolve_right hno)).untouched (hfar v hno)
  · rcases eq_or_ne v t with rfl | hne
    · cases (Function.update_self v _ x.trap).symm.trans hg
      exact hroom
    · exact h.frame_of ((Function.update_of_ne hne _ _).symm.trans hg)

theorem pop (h : Sim P tp a x) {p : π} (hnone : x.slice k = none) (hp : p ∈ x.queue) :
    Sim P tp a
      { x with slice := Function.update x.slice k (some p), queue := x.queue.erase p } := by
  have hslice : ∀ i q, Function.update x.slice k (some p) i = some q ↔ (i = k ∧ q = p) ∨
      x.slice i = some q := by
    intro i q
    rcases eq_or_ne i k with rfl | hi
    · simp [hnone, eq_comm]
    · simp [hi]
  have hfree : ∀ i, x.slice i ≠ some p := fun i hi => h.queued i p hi hp
  refine h.reslice (fun t => ?_)
    (fun i q hm => (hslice i q).mpr (.inr (owns_process (h.owner i _ hm))))
    (fun i j q hi hj => ?_) (fun i q hi => ?_) (h.once.erase p)
  · cases t with
    | scheduler j => exact Iff.rfl
    | process q =>
      simp only [Kernel.Alive, hslice, h.once.mem_erase_iff]
      constructor
      · rintro (hq | ⟨i, ⟨-, rfl⟩ | hi⟩)
        · exact .inl hq.2
        · exact .inl hp
        · exact .inr ⟨i, hi⟩
      · rintro (hq | ⟨i, hi⟩)
        · rcases eq_or_ne q p with rfl | hne
          · exact .inr ⟨k, .inl ⟨rfl, rfl⟩⟩
          · exact .inl ⟨hne, hq⟩
        · exact .inr ⟨i, .inr hi⟩
  · rcases (hslice i q).mp hi with ⟨hik, hqp⟩ | hi'
    · rcases (hslice j q).mp hj with ⟨hjk, -⟩ | hj'
      · exact hik.trans hjk.symm
      · exact absurd (hqp ▸ hj') (hfree j)
    · rcases (hslice j q).mp hj with ⟨-, hqp⟩ | hj'
      · exact absurd (hqp ▸ hi') (hfree i)
      · exact h.slices i j q hi' hj'
  · rw [h.once.mem_erase_iff]
    rcases (hslice i q).mp hi with ⟨rfl, rfl⟩ | hi
    · exact fun hq => hq.1 rfl
    · exact fun hq => h.queued i q hi hq.2

theorem drop (h : Sim P tp a x) {p : π} (hs : x.slice k = some p)
    (hno : ¬(x.job k).Mentions (.process p)) :
    Sim P tp a (x.abandon k p) := by
  have halive := h.alive_cleared hs (y := x.abandon k p) rfl rfl
  have hfar : ∀ t ≠ .process p, Untouched P a x a (x.abandon k p) t := fun t hne =>
    ⟨Function.update_of_ne hne _ _, rfl, rfl, rfl, fun _ _ => rfl, fun _ _ _ _ => rfl⟩
  have hnone : ∀ i t, (x.job i).Mentions t → t ≠ .process p := by
    rintro i t hm rfl
    refine hno ?_
    rw [← h.slices i k p (owns_process (h.owner i _ hm)) hs]
    exact hm
  refine h.evolve (k := k) (fun t ht => .inl ((halive t).mp ht).1)
    (fun i j q hi hj => h.slices i j q ((h.cleared hs i q).mp hi).1 ((h.cleared hs j q).mp hj).1)
    (fun i q hi => h.queued i q ((h.cleared hs i q).mp hi).1) h.once (fun i _ => ⟨rfl, rfl, rfl⟩)
    (fun i _ t hm => h.owns_cleared hs rfl (h.owner i t hm) (hnone i t hm))
    (fun t _ ht _ => hfar t ((halive t).mp ht).2) rfl
    (fun t hm => h.owns_cleared hs rfl (h.owner k t hm) (hnone k t hm))
    ((h.doing k).untouched rfl rfl fun t hm => hfar t (hnone k t hm))
    (fun t _ hm hno => absurd hm hno)
    fun t f hf => ?_
  rcases eq_or_ne t (.process p) with rfl | hne
  · cases (Function.update_self _ _ x.trap).symm.trans hf
  · obtain ⟨ht, hframe⟩ := h.frames t f ((Function.update_of_ne hne _ _).symm.trans hf)
    exact ⟨(halive t).mpr ⟨ht, hne⟩, hframe⟩

theorem create (h : Sim P tp a x) {p : π} {caller sp func : Word} (hdead : ¬x.Alive (.process p)) :
    Sim P tp (a.spawn p caller sp func) (x.spawn P p caller sp func) := by
  rw [Kernel.Alive, not_or, not_exists] at hdead
  obtain ⟨hqueue, hslice⟩ := hdead
  have hmem : ∀ b ∉ contextArea (P.context (.process p)),
      (x.spawn P p caller sp func).mem b = x.mem b :=
    fun b hb => Kernel.newContext_other hb
  have hfar : ∀ t ≠ .process p,
      Untouched P a x (a.spawn p caller sp func) (x.spawn P p caller sp func) t := by
    refine fun t hne => ⟨rfl, Function.update_of_ne hne _ _, Function.update_of_ne hne _ _,
      Function.update_of_ne hne _ _, fun b hb => hmem b ?_, fun f hf b hb => hmem b ?_⟩
    · exact Set.disjoint_left.mp (P.contexts_apart t _ hne) hb
    · exact Set.disjoint_right.mp (P.context_off_stack _ t) ((h.frame_of hf).2 hb)
  have hlive : ∀ t, (x.spawn P p caller sp func).Alive t ↔ x.Alive t ∨ t = .process p := by
    intro t
    cases t with
    | scheduler j => exact ⟨fun _ => .inl trivial, fun _ => trivial⟩
    | process q =>
      simp only [Kernel.Alive, Kernel.spawn, List.mem_append, List.mem_singleton,
        Thread.process.injEq]
      exact or_right_comm
  have hnone : ∀ i t, (x.job i).Mentions t → t ≠ .process p := by
    rintro i t hm rfl
    exact hslice i (owns_process (h.owner i _ hm))
  have hpark : Parked P (a.spawn p caller sp func) (x.spawn P p caller sp func) (.process p) := by
    have hcalled : (x.spawn P p caller sp func).called (.process p) = firstRegs caller sp func :=
      Function.update_self _ _ _
    have hown : (a.spawn p caller sp func).own (.process p) =
        ⟨firstRegs caller sp func, fun _ => 0, 0⟩ :=
      Function.update_self _ _ _
    refine ⟨?_, fun _ => ?_, fun _ q _ => ?_, fun f hf => ?_⟩
    · rw [hcalled]
      exact Kernel.newContext_saved
    · rw [hown]
      exact load_store
    · rw [hcalled, hown]
    · rcases (h.frames _ f hf).1 with hq | ⟨i, hi⟩
      · exact absurd hq hqueue
      · exact absurd hi (hslice i)
  refine ⟨fun i => (h.doing i).untouched rfl rfl fun t hm => hfar t (hnone i t hm),
    fun t ht hno => ?_, h.owner, h.slices, fun i q hi => ?_, ?_, fun t f hf => ?_⟩
  · rcases eq_or_ne t (.process p) with rfl | hne
    · exact hpark
    · exact (h.parked t (((hlive t).mp ht).resolve_right hne) hno).untouched (hfar t hne)
  · simp only [Kernel.spawn, List.mem_append, List.mem_singleton, not_or]
    exact ⟨h.queued i q hi, fun heq => hslice i (heq ▸ hi)⟩
  · exact List.nodup_append.mpr ⟨h.once, List.nodup_cons.mpr ⟨List.not_mem_nil, List.nodup_nil⟩,
      fun b hb c hc heq => hqueue (List.mem_singleton.mp hc ▸ heq ▸ hb)⟩
  · exact ⟨(hlive t).mpr (.inl (h.frames t f hf).1), (h.frames t f hf).2⟩

/-- A step of a core is an act of a thread with registers of its own, or none. -/
theorem step (h : Sim P tp a x) {l : Option (Act κ π)} (hs : Kernel.Step P x l x') :
    ∃ a', Silently Threads.Step a l a' ∧ Sim P tp a' x' := by
  cases hs with
  | @compute k t m hjob htp hmem =>
    have hdoing := h.doing k
    rw [hjob] at hdoing
    exact ⟨_, .computed hdoing.2.2.2.1, h.compute hjob htp hmem⟩
  | handle hjob htp hmem => exact ⟨a, rfl, h.handle hjob htp hmem⟩
  | interrupt hjob hsp hframe hroom => exact ⟨a, rfl, h.interrupt hjob hsp hframe hroom⟩
  | instr hrest => exact ⟨a, rfl, h.instr hrest⟩
  | enter hjob hrest hf => exact ⟨a, rfl, h.enter hjob hrest hf⟩
  | leave hjob hf hsp => exact ⟨a, rfl, h.leave hjob hf hsp⟩
  | sret hjob hrest => exact ⟨a, rfl, h.sret hjob hrest⟩
  | pop _ hnone hp => exact ⟨a, rfl, h.pop hnone hp⟩
  | switchTo hjob hs hc =>
      exact ⟨a, rfl, h.call (.inl hjob) (.inr ⟨_, hs, rfl⟩) (fun heq => by cases heq) hc⟩
  | switchBack hjob hc => exact ⟨a, rfl, h.call hjob (.inl rfl) (fun heq => by cases heq) hc⟩
  | exit hjob hc => exact ⟨a, rfl, h.exit hjob hc⟩
  | arrive hjob hrest htrap => exact ⟨_, h.arrive hjob hrest htrap⟩
  | arriveTrapped hjob hrest hf => exact ⟨a, rfl, h.arriveTrapped hjob hrest hf⟩
  | push hjob hs => exact ⟨a, rfl, h.push hs (by rw [hjob]; exact fun heq => by cases heq)⟩
  | drop hjob hs => exact ⟨a, rfl, h.drop hs (by rw [hjob]; exact fun heq => by cases heq)⟩
  | create hjob hdead => exact ⟨_, .spawned, h.create hdead⟩

end Sim

/-! ## Runs -/

theorem Kernel.Booted.sim (h : x.Booted) : Sim P (fun k => (x.hart k).reg .tp) x.threads x where
  doing k := by
    rw [h.job]
    exact ⟨h.rest k, h.trap _, rfl, ⟨fun _ _ => rfl, rfl⟩, rfl⟩
  parked t ht hno := by
    cases t with
    | scheduler k => exact absurd (by rw [h.job]; exact rfl) (hno k)
    | process p =>
      rcases ht with hp | ⟨k, hk⟩
      · rw [h.queue] at hp
        exact absurd hp List.not_mem_nil
      · rw [h.slice] at hk
        cases hk
  owner k t hm := by
    rw [h.job] at hm
    exact .inl hm
  slices j k p hj _ := by
    rw [h.slice] at hj
    cases hj
  queued k p hk := by
    rw [h.slice] at hk
    cases hk
  once := by
    rw [h.queue]
    exact List.nodup_nil
  frames t f hf := by
    rw [h.trap] at hf
    cases hf

variable [DecidableEq κ] [DecidableEq π] {x₀ : Kernel κ π} {ls : List (Option (Act κ π))}

/-- However the cores interleave, wherever interrupts come and whichever core a process is run on
next, the threads do what threads with registers of their own do. In `tp` they have the core. -/
theorem threads_refined (hboot : x₀.Booted) (hrun : Run (Kernel.Step P) x₀ ls x) :
    ∃ a, Run Threads.Step x₀.threads ls.reduceOption a ∧ ∀ k t, x.job k = .body t →
      Same (a.own t) (x.hart k) ∧ (x.hart k).reg .tp = (x₀.hart k).reg .tp := by
  obtain ⟨a, habstract, hsim⟩ := Run.simulate (fun _ _ _ _ h hs => Sim.step h hs) hrun hboot.sim
  refine ⟨a, habstract, fun k t hjob => ?_⟩
  have hdoing := hsim.doing k
  rw [hjob] at hdoing
  exact ⟨hdoing.2.2.2.1, hdoing.2.2.2.2⟩

def samplePage : Thread Unit Unit → Nat
  | .scheduler _ => 1
  | .process _ => 2

theorem samplePage_inj {t u : Thread Unit Unit} (h : samplePage t = samplePage u) : t = u := by
  cases t <;> cases u <;> first | rfl | cases h

theorem samplePage_bounds (t : Thread Unit Unit) : 0 < samplePage t ∧ samplePage t ≤ 2 := by
  cases t with
  | scheduler k => exact ⟨Nat.one_pos, Nat.le_succ 1⟩
  | process p => exact ⟨Nat.two_pos, Nat.le_refl 2⟩

theorem samplePage_context (t : Thread Unit Unit) : 0 < 4096 * samplePage t ∧
    4096 * samplePage t + contextSize ≤ 2 ^ 64 := by
  have := samplePage_bounds t
  simp only [contextSize]
  omega

theorem contextSize_le : contextSize ≤ 2048 ∧ contextSize ≤ 4096 := by decide

/-- Parts of the pages, which follow each other if they are of one page. -/
theorem samplePage_apart {t u : Thread Unit Unit} {a b i j : Nat} (h : t = u → b ≤ i)
    (hb : b ≤ 4096) (hj : j ≤ 4096) :
    Disjoint (Set.Ico (4096 * samplePage t + a) (4096 * samplePage t + b))
      (Set.Ico (4096 * samplePage u + i) (4096 * samplePage u + j)) := by
  rw [Set.disjoint_left]
  rintro x ⟨h1, h2⟩ ⟨h3, h4⟩
  rcases eq_or_ne t u with rfl | hne
  · have := h rfl
    omega
  · have hpage : samplePage t ≠ samplePage u := mt samplePage_inj hne
    omega

/-- One core and one process, each with a page for its context and its stack. -/
def samplePlaces : Places Unit Unit where
  context t := 4096 * samplePage t
  stack t := Set.Ico (4096 * samplePage t + 2048) (4096 * samplePage t + 4096)
  nonnull t := (samplePage_context t).1
  inside t := (samplePage_context t).2
  contexts_apart _ _ hne :=
    samplePage_apart (a := 0) (i := 0) (absurd · hne) contextSize_le.2 contextSize_le.2
  stacks_apart _ _ hne := samplePage_apart (absurd · hne) (Nat.le_refl _) (Nat.le_refl _)
  context_off_stack _ _ :=
    samplePage_apart (a := 0) (fun _ => contextSize_le.1) contextSize_le.2 (Nat.le_refl _)

def sampleKernel : Kernel Unit Unit where
  hart _ := ⟨fun _ => 0, fun _ => 0, 0⟩
  mem _ := 0
  job k := .body (.scheduler k)
  rest _ := []
  trap _ := none
  called _ _ := 0
  slice _ := none
  queue := []

/-! ## A process is preempted -/

theorem Kernel.run_code {j : Job κ π} {l : List Instr} (hjob : x.job k = j) (hrest : x.rest k = l) :
    Run (Kernel.Step P) x (List.replicate l.length none)
      (x.put k (run direct l (x.machine k)) j []) := by
  subst hjob
  exact Kernel.run_instrs hrest

/-- An interrupt takes a thread to `kernel_trap`. -/
theorem Kernel.run_interrupt {frame : Nat} (hjob : x.job k = .body t)
    (hsp : (x.hart k).reg .sp = BitVec.ofNat 64 frame + BitVec.ofNat 64 frameSize)
    (hframe : frame + frameSize ≤ 2 ^ 64) (hroom : frameArea frame ⊆ P.stack t) :
    ∃ ls y f, Run (Kernel.Step P) x ls y ∧ y.job k = .handler t ∧
      (y.hart k).reg .sp = BitVec.ofNat 64 frame ∧ y.trap = Function.update x.trap t (some f) ∧
      f.frame = frame ∧ y.slice = x.slice ∧ y.queue = x.queue := by
  have hdown : ∀ m : Machine, m.hart.reg .sp = BitVec.ofNat 64 frame + BitVec.ofNat 64 frameSize →
      (run direct kernelVec m).hart.reg .sp = BitVec.ofNat 64 frame :=
    fun _ hm => (kernelVec_expects hm hframe).post.2.1
  have hint := Kernel.Step.interrupt hjob hsp hframe hroom
  have hvec := (Run.single hint).append (Kernel.run_code Kernel.job_put Kernel.rest_put)
  have henter := hvec.snoc (Kernel.Step.enter (k := k) Kernel.job_put Kernel.rest_put
    (Function.update_self t _ x.trap))
  refine ⟨_, _, _, henter, Kernel.job_put, ?_, Function.update_idem _ _ _, rfl, rfl, rfl⟩
  rw [Kernel.hart_put, Kernel.machine_put, Kernel.machine_put]
  exact hdown _ hsp

/-- `kernel_trap` returns, and the thread goes on. -/
theorem Kernel.run_return {f : Interrupted} (hjob : x.job k = .handler t)
    (htrap : x.trap t = some f)
    (hsp : f.kept = true → (x.hart k).reg .sp = BitVec.ofNat 64 f.frame) :
    ∃ ls y, Run (Kernel.Step P) x ls y ∧ y.job k = .body t := by
  have hleave := (Run.single (Kernel.Step.leave (P := P) hjob htrap hsp)).append
    (Kernel.run_code Kernel.job_put Kernel.rest_put)
  exact ⟨_, _, hleave.snoc (Kernel.Step.sret (k := k) Kernel.job_put Kernel.rest_put),
    Kernel.job_put⟩

/-- The registers with the arguments of `swtch`. -/
def withArguments (h : Hart) (old new : Nat) : Hart :=
  (h.set .a0 (BitVec.ofNat 64 old)).set .a1 (BitVec.ofNat 64 new)

/-- `kernel_trap` gives the core to the scheduler. -/
theorem Kernel.run_away {p : π} (hjob : x.job k = .handler (.process p))
    (hsched : x.trap (.scheduler k) = none) :
    ∃ ls y, Run (Kernel.Step P) x ls y ∧ y.job k = .body (.scheduler k) ∧ y.trap = x.trap ∧
      y.slice = x.slice ∧ y.called (.process p) .sp = (x.hart k).reg .sp := by
  have hargs := Run.single (Kernel.Step.handle (P := P) (m := ⟨withArguments (x.hart k)
    (P.context (.process p)) (P.context (.scheduler k)), x.mem⟩) hjob rfl
    ⟨fun _ _ _ _ _ => rfl, fun _ _ _ _ _ => rfl⟩)
  have hback := hargs.snoc (Kernel.Step.switchBack (k := k) (p := p) (.inr Kernel.job_put) (by
    rw [Kernel.hart_put]
    exact ⟨rfl, rfl⟩))
  have harrive := (hback.append (Kernel.run_code Kernel.job_put Kernel.rest_put)).snoc
    (Kernel.Step.arrive (k := k) Kernel.job_put Kernel.rest_put hsched)
  refine ⟨_, _, harrive, Kernel.job_put, rfl, rfl, ?_⟩
  refine (congrFun (Function.update_self (Thread.process p) _ x.called) .sp).trans ?_
  rw [Kernel.hart_put]
  rfl

/-- The scheduler puts a process that is in `kernel_trap` in the queue, and runs it again. -/
theorem Kernel.run_again {p : π} {f : Interrupted} (hjob : x.job k = .body (.scheduler k))
    (hslice : x.slice k = some p) (htrap : x.trap (.process p) = some f) :
    ∃ ls y kept, Run (Kernel.Step P) x ls y ∧ y.job k = .handler (.process p) ∧
      y.trap (.process p) = some { f with kept := kept } ∧
      (kept = true → (y.hart k).reg .sp = x.called (.process p) .sp) := by
  have hpush := Run.single (Kernel.Step.push (P := P) hjob hslice)
  have hpop := hpush.snoc (Kernel.Step.pop (k := k) (p := p) hjob
    (Function.update_self k none x.slice) (List.mem_append_right _ List.mem_cons_self))
  have hargs := hpop.snoc (Kernel.Step.compute (P := P) (k := k) (m := ⟨withArguments (x.hart k)
    (P.context (.scheduler k)) (P.context (.process p)), x.mem⟩) hjob rfl
    ⟨fun _ _ _ _ _ => rfl, fun _ _ _ _ _ => rfl⟩)
  have hto := hargs.snoc (Kernel.Step.switchTo (k := k) (p := p) Kernel.job_put
    (Function.update_self (β := fun _ => Option π) k (some p) _) (by
      rw [Kernel.hart_put]
      exact ⟨rfl, rfl⟩))
  have harrive := (hto.append (Kernel.run_code Kernel.job_put Kernel.rest_put)).snoc
    (Kernel.Step.arriveTrapped (k := k) Kernel.job_put Kernel.rest_put htrap)
  refine ⟨_, _, _, harrive, Kernel.job_put, Function.update_self _ _ _, fun hkept => ?_⟩
  have hsame := List.all_eq_true.mp (Bool.and_eq_true_iff.mp hkept).2 (.sp, 8) (by decide)
  rw [Kernel.hart_put]
  exact beq_iff_eq.mp hsame

/-- A process that is interrupted gives the core away in `kernel_trap`, and goes on later. -/
theorem Kernel.run_preempted {p : π} {frame : Nat} (hjob : x.job k = .body (.process p))
    (hsp : (x.hart k).reg .sp = BitVec.ofNat 64 frame + BitVec.ofNat 64 frameSize)
    (hframe : frame + frameSize ≤ 2 ^ 64) (hroom : frameArea frame ⊆ P.stack (.process p))
    (hslice : x.slice k = some p) (hsched : x.trap (.scheduler k) = none) :
    ∃ ls ls' y z, Run (Kernel.Step P) x ls y ∧ y.job k = .body (.scheduler k) ∧
      (y.trap (.process p)).isSome ∧ Run (Kernel.Step P) y ls' z ∧
      z.job k = .body (.process p) := by
  obtain ⟨ls₁, u, f, hu, hujob, husp, hutrap, rfl, huslice, -⟩ :=
    Kernel.run_interrupt hjob hsp hframe hroom
  have hsched' : u.trap (.scheduler k) = none := by
    rw [hutrap, Function.update_of_ne fun heq => by cases heq]
    exact hsched
  obtain ⟨ls₂, y, hy, hyjob, hytrap, hyslice, hcalled⟩ := Kernel.run_away (P := P) hujob hsched'
  have htrap : y.trap (.process p) = some f := by
    rw [hytrap, hutrap, Function.update_self]
  obtain ⟨ls₃, v, kept, hv, hvjob, hvtrap, hvsp⟩ :=
    Kernel.run_again (P := P) hyjob (by rw [hyslice, huslice, hslice]) htrap
  obtain ⟨ls₄, z, hz, hzjob⟩ := Kernel.run_return (P := P) hvjob hvtrap fun hkept =>
    (hvsp hkept).trans (hcalled.trans husp)
  exact ⟨_, _, y, z, hu.append hy, hyjob, Option.isSome_of_eq_some htrap, hv.append hz, hzjob⟩

/-- A process is created and the scheduler switches to it. -/
theorem sample_switch : ∃ (ls : List (Option (Act Unit Unit))) (x : Kernel Unit Unit),
    Run (Kernel.Step samplePlaces) sampleKernel ls x ∧ x.job () = .body (.process ()) ∧
      (x.hart ()).reg .sp = BitVec.ofNat 64 0x2f00 + BitVec.ofNat 64 frameSize ∧
      x.slice () = some () ∧ x.trap (.scheduler ()) = none := by
  have hdead : ¬sampleKernel.Alive (.process ()) := by
    rintro (hq | ⟨k, hk⟩)
    · exact absurd hq List.not_mem_nil
    · cases hk
  have hcreate : Kernel.Step samplePlaces sampleKernel (some (.spawned () 7 0x3000 9))
    (sampleKernel.spawn samplePlaces () 7 0x3000 9) := Kernel.Step.create (k := ()) rfl hdead
  have hargs := Kernel.Step.compute (P := samplePlaces)
    (x := sampleKernel.spawn samplePlaces () 7 0x3000 9) (k := ())
    (t := .scheduler ())
    (m := ⟨withArguments (sampleKernel.hart ()) 4096 8192,
      (sampleKernel.spawn samplePlaces () 7 0x3000 9).mem⟩) rfl rfl
    ⟨fun _ _ _ _ _ => rfl, fun _ _ _ _ _ => rfl⟩
  have hpop := Kernel.Step.pop (P := samplePlaces)
    (x := (sampleKernel.spawn samplePlaces () 7 0x3000 9).put ()
      ⟨withArguments (sampleKernel.hart ()) 4096 8192,
        (sampleKernel.spawn samplePlaces () 7 0x3000 9).mem⟩ (.body (.scheduler ())) [])
    (k := ()) (p := ()) rfl rfl List.mem_cons_self
  have hrun := ((Run.single hcreate).snoc hargs).snoc hpop
  have hswitch := hrun.snoc (Kernel.Step.switchTo (k := ()) (p := ()) rfl rfl ⟨rfl, rfl⟩)
  have hassembly := hswitch.append (Kernel.run_instrs (k := ()) Kernel.rest_put)
  refine ⟨_, _, hassembly.snoc (Kernel.Step.arrive (k := ()) Kernel.job_put Kernel.rest_put rfl),
    Kernel.job_put, ?_, rfl, rfl⟩
  rw [Kernel.hart_put]
  decide +kernel

/-- The process is interrupted, the scheduler gets the core, and the process gets it back. -/
theorem sample_preempted :
    ∃ (ls ls' : List (Option (Act Unit Unit))) (x y : Kernel Unit Unit),
      Run (Kernel.Step samplePlaces) sampleKernel ls x ∧ x.job () = .body (.scheduler ()) ∧
      (x.trap (.process ())).isSome ∧ Run (Kernel.Step samplePlaces) x ls' y ∧
      y.job () = .body (.process ()) := by
  obtain ⟨ls, x, hrun, hjob, hsp, hslice, htrap⟩ := sample_switch
  -- the frame is at the end of the stack
  have hroom : frameArea 0x2f00 ⊆ samplePlaces.stack (.process ()) :=
    Set.Ico_subset_Ico (by decide) (by decide)
  obtain ⟨ls', ls'', y, z, hy, hyjob, hytrap, hz, hzjob⟩ :=
    Kernel.run_preempted hjob hsp (by decide) hroom hslice htrap
  exact ⟨_, _, y, z, hrun.append hy, hyjob, hytrap, hz, hzjob⟩

theorem threads_refined_sample :
    ∃ (ls ls' : List (Option (Act Unit Unit))) (x y : Kernel Unit Unit),
      Run (Kernel.Step samplePlaces) sampleKernel ls x ∧ x.job () = .body (.scheduler ()) ∧
      (x.trap (.process ())).isSome ∧ Run (Kernel.Step samplePlaces) x ls' y ∧
      y.job () = .body (.process ()) ∧
      ∃ a, Run Threads.Step sampleKernel.threads (ls ++ ls').reduceOption a ∧
        ∀ k t, y.job k = .body t →
          Same (a.own t) (y.hart k) ∧ (y.hart k).reg .tp = (sampleKernel.hart k).reg .tp := by
  obtain ⟨ls, ls', x, y, hx, hxjob, hxtrap, hy, hyjob⟩ := sample_preempted
  exact ⟨ls, ls', x, y, hx, hxjob, hxtrap, hy, hyjob,
    threads_refined ⟨fun _ => rfl, fun _ => rfl, fun _ => rfl, fun _ => rfl, rfl⟩ (hx.append hy)⟩

end CoroCore.Trap
