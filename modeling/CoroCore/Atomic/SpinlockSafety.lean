import CoroCore.Atomic.Spinlock

/-!
# Spin locks belong to threads

* `Doing.exec`: what an access does, from what the core is doing;
* `spinlocks_refined`: cores run the code of spin locks as threads use locks that belong to them;
* `spinlock_holders`: who has a lock is on a core, with interrupts off.
-/

namespace CoroCore.Spin

open Lib

variable {κ τ ι : Type}

/-! ## What a core is doing -/

/-- The lock that the core has but that does not have its number. -/
def Pc.unnamed : Pc ι → Option ι
  | .setOwner l _ | .loadStatus l | .clearStatus l _ | .release l _ => some l
  | _ => none

/-- What was taken, but for a lock that does not have the status of before. -/
def Pc.stored (pc : Pc ι) (gs : List (Guard ι)) : List (Guard ι) :=
  match pc with
  | .setOwner _ _ | .setStatus _ _ | .release _ _ => gs.tail
  | _ => gs

/-- The status that is restored. -/
def Guard.old (lock : ι → Spinlock) : Guard ι → Bool
  | .cpu old => old
  | .lock l => (lock l).oldStatus

/-- Interrupts were on only before the first was taken, if `en`. -/
def Stacked (en : Bool) (lock : ι → Spinlock) : List (Guard ι) → Prop
  | [] => True
  | g :: gs => g.old lock = (en && gs.isEmpty) ∧ Stacked en lock gs

/-- Where interrupts may still be on. -/
def Pc.Calm : Pc ι → Prop
  | .idle | .lock _ | .holding _ | .unlockTest _ | .unlockOwner _ => True
  | _ => False

/-- The status, and what the function called knows. -/
def View.State (en : Bool) (v : View ι) : Prop :=
  match v.pc with
  | .idle | .lock _ | .holding _ => v.irq = (en && v.guards.isEmpty)
  | .unlockTest l | .unlockOwner l =>
      v.irq = (en && v.guards.isEmpty) ∧ (v.guards.head? = some (.lock l) ∨ l ∉ locks v.guards)
  | .lockTest _ old | .lockOwner _ old | .holdingTest _ old | .holdingOwner _ old | .restore old =>
      v.irq = false ∧ old = (en && v.guards.isEmpty)
  | .swap l old => v.irq = false ∧ old = (en && v.guards.isEmpty) ∧ l ∉ locks v.guards
  | .setOwner l old | .setStatus l old | .clearStatus l old | .release l old =>
      v.irq = false ∧ ∃ gs, v.guards = .lock l :: gs ∧ old = (en && gs.isEmpty)
  | .clearOwner l | .loadStatus l => v.irq = false ∧ ∃ gs, v.guards = .lock l :: gs
  | .holdingRestore l old ret => v.irq = false ∧ old = (en && v.guards.isEmpty) ∧
      (ret = true ↔ l ∈ locks v.guards)
  | .panicked => True

section

variable {en : Bool} {lock lock' : ι → Spinlock} {g : Guard ι} {gs : List (Guard ι)}
    {l : ι} {pc : Pc ι}

@[simp] theorem locks_nil : locks ([] : List (Guard ι)) = [] := rfl

@[simp] theorem locks_cpu {old : Bool} : locks (.cpu old :: gs) = locks gs := rfl

@[simp] theorem locks_lock : locks (.lock l :: gs) = l :: locks gs := rfl

theorem mem_taken : some l ∈ gs.map Guard.lock? ↔ l ∈ locks gs := by
  rw [locks, List.mem_filterMap, List.mem_map]

theorem stored_cases (pc : Pc ι) (gs : List (Guard ι)) : pc.stored gs = gs ∨
    pc.stored gs = gs.tail := by
  cases pc <;> first | exact .inl rfl | exact .inr rfl

theorem Stacked.tail (h : Stacked en lock gs) : Stacked en lock gs.tail := by
  cases gs with
  | nil => exact h
  | cons g gs => exact h.2

theorem Stacked.congr (h : Stacked en lock gs) (hlock : ∀ l ∈ locks gs, lock' l = lock l) :
    Stacked en lock' gs := by
  induction gs with
  | nil => exact trivial
  | cons g gs ih =>
    obtain ⟨hold, hrest⟩ := h
    cases g with
    | cpu old => exact ⟨hold, ih hrest hlock⟩
    | lock l =>
      obtain ⟨hl, hlock⟩ := List.forall_mem_cons.mp hlock
      exact ⟨by rw [Guard.old, hl]; exact hold, ih hrest hlock⟩

end

/-- What an access does to the locks and to what is in scope, under its label. -/
inductive Effect (t : τ) (v v' : View ι) : Option (Act τ ι) → Prop
  | quiet {o : Option (Act τ ι)} : v'.guards = v.guards →
    (∀ l ∉ locks v.guards, v'.lock l = v.lock l) →
      (o = none ∨ (∃ l b, o = some (.asked t l b) ∧ (b = true ↔ l ∈ locks v.guards)) ∨
        (∃ l ∈ locks v.guards, o = some (.relocked t l)) ∨ ∃ l ∉ locks v.guards,
        o = some (.misreleased t l)) →
      Effect t v v' o
  | locked {l : ι} : (v.lock l).locked = false → v'.guards = .lock l :: v.guards →
      (∀ j ≠ l, v'.lock j = v.lock j) → Effect t v v' (some (.locked t l))
  | unlocked {l : ι} {gs : List (Guard ι)} : v.guards = .lock l :: gs → v'.guards = gs →
      (∀ j ≠ l, v'.lock j = v.lock j) → (v'.lock l).locked = false → (v'.lock l).coreId = nobody →
      Effect t v v' (some (.unlocked t l))

theorem Effect.silent {t : τ} {v v' : View ι} {o : Option (Act τ ι)} (hg : v'.guards = v.guards)
    (hlock : v'.lock = v.lock) (ho : o = none) : Effect t v v' o :=
  .quiet hg (fun _ _ => congrFun hlock _) (.inl ho)

variable [DecidableEq ι]

/-- A core with number `id` whose thread enabled interrupts, or not. -/
structure Doing (id : Nat) (en : Bool) (v : View ι) : Prop where
  held : ∀ l ∈ locks v.guards,
    (v.lock l).locked = true ∧ (v.lock l).coreId = if v.pc.unnamed = some l then nobody else id
  stacked : Stacked en v.lock (v.pc.stored v.guards)
  once : (locks v.guards).Nodup
  state : v.State en

variable {id : Nat} {en : Bool} {v : View ι} {t : τ}

theorem Effect.wrote {l : ι} {gs : List (Guard ι)} {s : Spinlock} {pc : Pc ι}
    (hg : v.guards = .lock l :: gs) :
    Effect t v (v.write l s pc) none := by
  refine .quiet rfl (fun j hj => Function.update_of_ne ?_ _ _) (.inl rfl)
  rintro rfl
  rw [hg, locks_lock] at hj
  exact hj List.mem_cons_self

/-- Between two calls. -/
structure Idle (id : Nat) (en : Bool) (v : View ι) : Prop where
  held : ∀ l ∈ locks v.guards, (v.lock l).locked = true ∧ (v.lock l).coreId = id
  stacked : Stacked en v.lock v.guards
  once : (locks v.guards).Nodup
  irq : v.irq = (en && v.guards.isEmpty)

theorem doing_idle (hpc : v.pc = .idle) : Doing id en v ↔ Idle id en v := by
  obtain ⟨lock, irq, pc, gs⟩ := v
  obtain rfl := hpc
  exact ⟨fun h => ⟨h.held, h.stacked, h.once, h.state⟩, fun h => ⟨h.held, h.stacked, h.once, h.irq⟩⟩

namespace Doing

/-- Others may do what they like with the locks that the core does not have. -/
theorem congr (h : Doing id en v) {lock : ι → Spinlock}
    (hlock : ∀ l ∈ locks v.guards, lock l = v.lock l) :
    Doing id en { v with lock := lock } := by
  refine ⟨fun l hl => ?_, ?_, h.once, h.state⟩
  · change (lock l).locked = true ∧ (lock l).coreId = _
    rw [hlock l hl]
    exact h.held l hl
  · refine h.stacked.congr fun l hl => hlock l ?_
    rcases stored_cases v.pc v.guards with heq | heq <;> rw [heq] at hl
    · exact hl
    · exact ((List.tail_sublist v.guards).filterMap Guard.lock?).subset hl

/-- Nothing is written. -/
theorem goto (h : Doing id en v) {b : Bool} {pc : Pc ι} (hun : pc.unnamed = v.pc.unnamed)
    (hstored : pc.stored v.guards = v.pc.stored v.guards)
    (hstate : View.State en { v with irq := b, pc := pc }) :
    Doing id en { v with irq := b, pc := pc } := by
  refine ⟨fun l hl => ?_, ?_, h.once, hstate⟩
  · change (v.lock l).locked = true ∧ (v.lock l).coreId = if pc.unnamed = some l then nobody else id
    rw [hun]
    exact h.held l hl
  · change Stacked en v.lock (pc.stored v.guards)
    rw [hstored]
    exact h.stacked

/-- The lock taken last is written. -/
theorem write (h : Doing id en v) {l : ι} {gs : List (Guard ι)} {s : Spinlock} {pc : Pc ι}
    (hg : v.guards = .lock l :: gs) (hun : ∀ j, v.pc.unnamed = some j → j = l)
    (hun' : ∀ j, pc.unnamed = some j → j = l) (hlocked : s.locked = true)
    (hid : s.coreId = if pc.unnamed = some l then nobody else id)
    (hstored : pc.stored v.guards = gs ∨ pc.stored v.guards = v.guards ∧
      s.oldStatus = (en && gs.isEmpty))
    (hstate : View.State en (v.write l s pc)) : Doing id en (v.write l s pc) := by
  have honce := h.once
  have hheld := h.held
  rw [hg, locks_lock] at honce hheld
  have hother : ∀ j ∈ locks gs, Function.update v.lock l s j = v.lock j := by
    refine fun j hj => Function.update_of_ne ?_ _ _
    rintro rfl
    exact (List.nodup_cons.mp honce).1 hj
  have htail : Stacked en (Function.update v.lock l s) gs := by
    refine Stacked.congr ?_ hother
    have hstacked := h.stacked
    rcases stored_cases v.pc v.guards with heq | heq <;> rw [heq, hg] at hstacked
    · exact hstacked.2
    · exact hstacked
  refine ⟨?_, ?_, h.once, hstate⟩
  · change ∀ j ∈ locks v.guards, (Function.update v.lock l s j).locked = true ∧
      (Function.update v.lock l s j).coreId = if pc.unnamed = some j then nobody else id
    rw [hg, locks_lock]
    refine List.forall_mem_cons.mpr ⟨?_, fun j hj => ?_⟩
    · rw [Function.update_self]
      exact ⟨hlocked, hid⟩
    · obtain ⟨hlocked', hid'⟩ := hheld j (List.mem_cons_of_mem l hj)
      have hne : j ≠ l := by
        rintro rfl
        exact (List.nodup_cons.mp honce).1 hj
      rw [hother j hj, if_neg fun heq => hne (hun' j heq)]
      rw [if_neg fun heq => hne (hun j heq)] at hid'
      exact ⟨hlocked', hid'⟩
  · change Stacked en (Function.update v.lock l s) (pc.stored v.guards)
    rcases hstored with heq | ⟨heq, hold⟩
    · rw [heq]
      exact htail
    · rw [heq, hg]
      exact ⟨by rw [Guard.old, Function.update_self]; exact hold, htail⟩

/-- `lock` until it has turned interrupts off and has seen that the core does not have the lock. -/
theorem exec_lock (h : Doing id en v) (old : Bool)
    (hown : ∀ l, (v.lock l).coreId = id → l ∈ locks v.guards) {l : ι}
    (hpc : v.pc = .lock l ∨ v.pc = .lockTest l old ∨ v.pc = .lockOwner l old) :
    Doing id en (v.exec id) ∧ Effect t v (v.exec id) (v.act id t) := by
  obtain ⟨lock, irq, pc, gs⟩ := v
  have hstate := h.state
  obtain rfl | rfl | rfl := hpc
  · exact ⟨h.goto rfl rfl ⟨rfl, hstate⟩, .silent rfl rfl rfl⟩
  · simp only [View.exec]
    cases hl : (lock l).locked with
    | true => exact ⟨h.goto rfl rfl hstate, .silent rfl rfl rfl⟩
    | false =>
      refine ⟨h.goto rfl rfl ⟨hstate.1, hstate.2, fun hin => ?_⟩, .silent rfl rfl rfl⟩
      rw [(h.held l hin).1] at hl
      cases hl
  · simp only [View.exec, View.act]
    rcases eq_or_ne (lock l).coreId id with hid | hid
    · rw [if_pos hid, if_pos hid]
      exact ⟨h.goto rfl rfl trivial,
        .quiet rfl (fun _ _ => rfl) (.inr (.inr (.inl ⟨l, hown l hid, rfl⟩)))⟩
    · rw [if_neg hid, if_neg hid]
      exact ⟨h.goto rfl rfl ⟨hstate.1, hstate.2, fun hin => hid (h.held l hin).2⟩,
        .silent rfl rfl rfl⟩

/-- `lock` from where it tries to take the lock. -/
theorem exec_take (h : Doing id en v) (hid : id < nobody)
    (hfree : ∀ l, (v.lock l).locked = false → (v.lock l).coreId = nobody) {l : ι} {old : Bool}
    (hpc : v.pc = .swap l old ∨ v.pc = .setOwner l old ∨ v.pc = .setStatus l old) :
    Doing id en (v.exec id) ∧ Effect t v (v.exec id) (v.act id t) := by
  obtain ⟨lock, irq, pc, gs⟩ := v
  have hstate := h.state
  obtain rfl | rfl | rfl := hpc
  · obtain ⟨hirq, hold, hnot⟩ := hstate
    simp only [View.exec, View.act]
    cases hl : (lock l).locked with
    | true => exact ⟨h, .silent rfl rfl rfl⟩
    | false =>
      have hother : ∀ j ≠ l, Function.update lock l { lock l with locked := true } j = lock j :=
        fun j hj => Function.update_of_ne hj _ _
      have hne : ∀ j ∈ locks gs, j ≠ l := by
        rintro j hj rfl
        exact hnot hj
      refine ⟨⟨?_, ?_, List.nodup_cons.mpr ⟨hnot, h.once⟩, ⟨hirq, gs, rfl, hold⟩⟩,
        .locked hl rfl hother⟩
      · refine List.forall_mem_cons.mpr ⟨?_, fun j hj => ?_⟩
        · change (Function.update lock l { lock l with locked := true } l).locked = true ∧
            (Function.update lock l { lock l with locked := true } l).coreId = if some l =
              some l then nobody else id
          rw [Function.update_self, if_pos rfl]
          exact ⟨rfl, hfree l hl⟩
        · change (Function.update lock l { lock l with locked := true } j).locked = true ∧
            (Function.update lock l { lock l with locked := true } j).coreId = if some l =
              some j then nobody else id
          rw [hother j (hne j hj), if_neg fun heq => hne j hj (Option.some.inj heq).symm]
          exact h.held j hj
      · exact Stacked.congr h.stacked fun j hj => hother j (hne j hj)
  · obtain ⟨hirq, gs, rfl, hold⟩ := hstate
    have hlocked := (h.held l List.mem_cons_self).1
    have hmod : id % 2 ^ 16 = id := Nat.mod_eq_of_lt (by unfold nobody at hid; omega)
    exact ⟨h.write rfl (fun j hj => (Option.some.inj hj).symm)
      (fun j hj => by cases hj) hlocked hmod (.inl rfl)
      ⟨hirq, gs, rfl, hold⟩, .wrote rfl⟩
  · obtain ⟨hirq, gs, rfl, hold⟩ := hstate
    obtain ⟨hlocked, hid'⟩ := h.held l List.mem_cons_self
    refine ⟨h.write rfl (fun j hj => by cases hj) (fun j hj => by cases hj) hlocked hid'
      (.inr ⟨rfl, hold⟩) ?_, .wrote rfl⟩
    exact hirq.trans (Bool.and_false en).symm

/-- `unlock` until it has made sure that the core has the lock. -/
theorem exec_unlock (h : Doing id en v)
    (hown : ∀ l, (v.lock l).coreId = id → l ∈ locks v.guards) {l : ι}
    (hpc : v.pc = .unlockTest l ∨ v.pc = .unlockOwner l) :
    Doing id en (v.exec id) ∧ Effect t v (v.exec id) (v.act id t) := by
  obtain ⟨lock, irq, pc, gs⟩ := v
  have hstate := h.state
  obtain rfl | rfl := hpc
  · simp only [View.exec, View.act]
    cases hl : (lock l).locked with
    | true => exact ⟨h.goto rfl rfl hstate, .silent rfl rfl rfl⟩
    | false =>
      refine ⟨h.goto rfl rfl trivial,
        .quiet rfl (fun _ _ => rfl) (.inr (.inr (.inr ⟨l, fun hin => ?_, rfl⟩)))⟩
      rw [(h.held l hin).1] at hl
      cases hl
  · simp only [View.exec, View.act]
    rcases eq_or_ne (lock l).coreId id with hid | hid
    · rw [if_pos hid, if_pos hid]
      obtain ⟨hirq, hhead | hnot⟩ := hstate
      · obtain ⟨gs', rfl⟩ := List.head?_eq_some_iff.mp hhead
        exact ⟨h.goto rfl rfl ⟨hirq.trans (Bool.and_false en), gs', rfl⟩, .silent rfl rfl rfl⟩
      · exact absurd (hown l hid) hnot
    · rw [if_neg hid, if_neg hid]
      exact ⟨h.goto rfl rfl trivial,
        .quiet rfl (fun _ _ => rfl) (.inr (.inr (.inr ⟨l, fun hin => hid (h.held l hin).2, rfl⟩)))⟩

/-- `unlock` from where it gives the lock back. -/
theorem exec_release (h : Doing id en v) {l : ι} (old : Bool)
    (hpc : v.pc = .clearOwner l ∨ v.pc = .loadStatus l ∨ v.pc = .clearStatus l old ∨
      v.pc = .release l old) :
    Doing id en (v.exec id) ∧ Effect t v (v.exec id) (v.act id t) := by
  obtain ⟨lock, irq, pc, gs⟩ := v
  have hstate := h.state
  obtain rfl | rfl | rfl | rfl := hpc
  · obtain ⟨hirq, gs, rfl⟩ := hstate
    have hlocked := (h.held l List.mem_cons_self).1
    exact ⟨h.write rfl (fun j hj => by cases hj) (fun j hj => (Option.some.inj hj).symm) hlocked
      (if_pos rfl).symm
      (.inr ⟨rfl, h.stacked.1⟩) ⟨hirq, gs, rfl⟩, .wrote rfl⟩
  · obtain ⟨hirq, gs, rfl⟩ := hstate
    exact ⟨h.goto rfl rfl ⟨hirq, gs, rfl, h.stacked.1⟩, .silent rfl rfl rfl⟩
  · obtain ⟨hirq, gs, rfl, hold⟩ := hstate
    obtain ⟨hlocked, hid⟩ := h.held l List.mem_cons_self
    exact ⟨h.write rfl (fun j hj => (Option.some.inj hj).symm)
      (fun j hj => (Option.some.inj hj).symm) hlocked hid
      (.inl rfl) ⟨hirq, gs, rfl, hold⟩, .wrote rfl⟩
  · obtain ⟨hirq, gs, rfl, hold⟩ := hstate
    obtain ⟨hnot, honce⟩ := List.nodup_cons.mp h.once
    have hother : ∀ j ≠ l, Function.update lock l { lock l with locked := false } j = lock j :=
      fun j hj => Function.update_of_ne hj _ _
    have hne : ∀ j ∈ locks gs, j ≠ l := by
      rintro j hj rfl
      exact hnot hj
    have hid : (lock l).coreId = nobody := (h.held l List.mem_cons_self).2.trans (if_pos rfl)
    refine ⟨⟨fun j hj => ?_, Stacked.congr h.stacked fun j hj => hother j (hne j hj),
      honce, hirq, hold⟩, .unlocked rfl rfl hother ?_ ?_⟩
    · obtain ⟨hlocked', hid'⟩ := h.held j (List.mem_cons_of_mem _ hj)
      change (Function.update lock l { lock l with locked := false } j).locked = true ∧
        (Function.update lock l { lock l with locked := false } j).coreId = id
      rw [hother j (hne j hj)]
      exact ⟨hlocked', hid'.trans (if_neg fun heq => hne j hj (Option.some.inj heq).symm)⟩
    · exact congrArg Spinlock.locked (Function.update_self l _ lock)
    · exact (congrArg Spinlock.coreId (Function.update_self l _ lock)).trans hid

theorem exec_restore (h : Doing id en v) {old : Bool} (hpc : v.pc = .restore old) :
    Doing id en (v.exec id) ∧ Effect t v (v.exec id) (v.act id t) := by
  obtain ⟨lock, irq, pc, gs⟩ := v
  have hstate := h.state
  obtain rfl := hpc
  obtain ⟨hirq, hold⟩ := hstate
  refine ⟨h.goto rfl rfl ?_, .silent rfl rfl rfl⟩
  change (old || irq) = (en && gs.isEmpty)
  rw [show irq = false from hirq, Bool.or_false]
  exact hold

theorem exec_holding (h : Doing id en v) (old ret : Bool)
    (hown : ∀ l, (v.lock l).coreId = id → l ∈ locks v.guards) {l : ι} (hpc : v.pc = .holding l ∨
      v.pc = .holdingTest l old ∨ v.pc = .holdingOwner l old ∨ v.pc = .holdingRestore l old ret) :
    Doing id en (v.exec id) ∧ Effect t v (v.exec id) (v.act id t) := by
  obtain ⟨lock, irq, pc, gs⟩ := v
  have hstate := h.state
  obtain rfl | rfl | rfl | rfl := hpc
  · exact ⟨h.goto rfl rfl ⟨rfl, hstate⟩, .silent rfl rfl rfl⟩
  · simp only [View.exec]
    cases hl : (lock l).locked with
    | true => exact ⟨h.goto rfl rfl hstate, .silent rfl rfl rfl⟩
    | false =>
      refine ⟨h.goto rfl rfl ⟨hstate.1, hstate.2, fun hf => absurd hf Bool.false_ne_true,
        fun hin => ?_⟩, .silent rfl rfl rfl⟩
      rw [(h.held l hin).1] at hl
      cases hl
  · refine ⟨h.goto rfl rfl ⟨hstate.1, hstate.2, ?_⟩, .silent rfl rfl rfl⟩
    rw [beq_iff_eq]
    exact ⟨hown l, fun hin => (h.held l hin).2⟩
  · obtain ⟨hirq, hold, hret⟩ := hstate
    refine ⟨h.goto rfl rfl ?_, .quiet rfl (fun _ _ => rfl) (.inr (.inl ⟨l, ret, rfl, hret⟩))⟩
    change (old || irq) = (en && gs.isEmpty)
    rw [show irq = false from hirq, Bool.or_false]
    exact hold

/-- An access of a core that knows its locks by its number. -/
theorem exec (h : Doing id en v) (hid : id < nobody)
    (hown : ∀ l, (v.lock l).coreId = id → l ∈ locks v.guards)
    (hfree : ∀ l, (v.lock l).locked = false → (v.lock l).coreId = nobody) :
    Doing id en (v.exec id) ∧ Effect t v (v.exec id) (v.act id t) := by
  cases hpc : v.pc with
  | idle | panicked =>
    simp only [View.exec, View.act, hpc]
    exact ⟨h, .silent rfl rfl rfl⟩
  | lock l => exact h.exec_lock false hown (.inl hpc)
  | lockTest l old => exact h.exec_lock old hown (.inr (.inl hpc))
  | lockOwner l old => exact h.exec_lock old hown (.inr (.inr hpc))
  | swap l old => exact h.exec_take hid hfree (.inl hpc)
  | setOwner l old => exact h.exec_take hid hfree (.inr (.inl hpc))
  | setStatus l old => exact h.exec_take hid hfree (.inr (.inr hpc))
  | unlockTest l => exact h.exec_unlock hown (.inl hpc)
  | unlockOwner l => exact h.exec_unlock hown (.inr hpc)
  | clearOwner l => exact h.exec_release false (.inl hpc)
  | loadStatus l => exact h.exec_release false (.inr (.inl hpc))
  | clearStatus l old => exact h.exec_release old (.inr (.inr (.inl hpc)))
  | release l old => exact h.exec_release old (.inr (.inr (.inr hpc)))
  | restore old => exact h.exec_restore hpc
  | holding l => exact h.exec_holding false false hown (.inl hpc)
  | holdingTest l old => exact h.exec_holding old false hown (.inr (.inl hpc))
  | holdingOwner l old => exact h.exec_holding old false hown (.inr (.inr (.inl hpc)))
  | holdingRestore l old ret => exact h.exec_holding old ret hown (.inr (.inr (.inr hpc)))

end Doing

/-! ## All cores -/

/-- A thread that is on no core has no lock, and did not leave interrupts on. -/
structure Resting (en : Bool) (lock : ι → Spinlock) (f : Activation ι) : Prop where
  pc : f.pc = .idle
  locks : locks f.guards = []
  stacked : Stacked en lock f.guards
  off : (en && f.guards.isEmpty) = false

/-- The lock is with no thread but that of core `k`. -/
def Cores.Apart (x : Cores κ τ ι) (k : κ) (l : ι) : Prop :=
  ∀ t ≠ x.cur k, l ∉ locks (x.thread t).top.guards

variable {ids : Ids κ} {a a' : Owners τ ι} {x x' : Cores κ τ ι} {k : κ} {l : ι}

structure Sim (ids : Ids κ) (a : Owners τ ι) (x : Cores κ τ ι) : Prop where
  taken : ∀ t, a.taken t = (x.thread t).top.guards.map Guard.lock?
  depth : ∀ t, a.depth t = (x.thread t).under.length
  under : ∀ t, ∀ f ∈ (x.thread t).under, f.guards = [] ∧ f.pc.Calm
  cur : ∀ i j, x.cur i = x.cur j → i = j
  doing : ∀ k, Doing (ids.id k) (a.enabled (x.cur k)) (x.view k)
  resting : ∀ t, (∀ k, x.cur k ≠ t) → Resting (a.enabled t) x.lock (x.thread t).top
  alone : ∀ t u l, l ∈ locks (x.thread t).top.guards → l ∈ locks (x.thread u).top.guards → t = u
  free : ∀ l, (∀ t, l ∉ locks (x.thread t).top.guards) → (x.lock l).locked = false ∧
    (x.lock l).coreId = nobody

namespace Sim

/-- A thread that has a lock is on a core. -/
theorem on_core (h : Sim ids a x) (hl : l ∈ locks (x.thread t).top.guards) : ∃ k, x.cur k = t := by
  by_contra hno
  rw [(h.resting t fun k hk => hno ⟨k, hk⟩).locks] at hl
  exact List.not_mem_nil hl

theorem apart (h : Sim ids a x) (hl : l ∈ locks (x.view k).guards) : x.Apart k l :=
  fun t hne ht => hne (h.alone t _ l ht hl)

/-- The number of a core is in the locks that it has only. -/
theorem owner (h : Sim ids a x) (hid : (x.lock l).coreId = ids.id k) :
    l ∈ locks (x.view k).guards := by
  have hne : ids.id k ≠ nobody := Nat.ne_of_lt (ids.small k)
  by_cases hheld : ∃ t, l ∈ locks (x.thread t).top.guards
  · obtain ⟨t, ht⟩ := hheld
    obtain ⟨j, rfl⟩ := h.on_core ht
    have hcore := ((h.doing j).held l ht).2
    change (x.lock l).coreId = _ at hcore
    rw [hid] at hcore
    split at hcore
    · exact absurd hcore hne
    · rw [ids.inj k j hcore]
      exact ht
  · exact absurd (hid.symm.trans (h.free l fun t ht => hheld ⟨t, ht⟩).2) hne

theorem unlocked (h : Sim ids a x) (hl : (x.lock l).locked = false) :
    (∀ t, l ∉ locks (x.thread t).top.guards) ∧ (x.lock l).coreId = nobody := by
  have hno : ∀ t, l ∉ locks (x.thread t).top.guards := by
    intro t ht
    obtain ⟨j, rfl⟩ := h.on_core ht
    rw [show (x.lock l).locked = true from ((h.doing j).held l ht).1] at hl
    cases hl
  exact ⟨hno, (h.free l hno).2⟩

/-- Core `k` steps, and writes no lock of another thread. -/
theorem evolve [DecidableEq κ] [DecidableEq τ] (h : Sim ids a x) (k : κ) {th : Thread ι} {b : Bool}
    (hthread : x'.thread = Function.update x.thread (x.cur k) th)
    (hirq : x'.irq = Function.update x.irq k b) (hcur : x'.cur = x.cur)
    (hdoing : Doing (ids.id k) (a'.enabled (x.cur k)) ⟨x'.lock, b, th.top.pc, th.top.guards⟩)
    (hother : ∀ t ≠ x.cur k, a'.taken t = a.taken t ∧ a'.enabled t = a.enabled t ∧
      a'.depth t = a.depth t)
    (htaken : a'.taken (x.cur k) = th.top.guards.map Guard.lock?)
    (hdepth : a'.depth (x.cur k) = th.under.length)
    (hunder : ∀ f ∈ th.under, f.guards = [] ∧ f.pc.Calm)
    (hwrite : ∀ l, ¬x.Apart k l → x'.lock l = x.lock l)
    (hapart : ∀ l ∈ locks th.top.guards, x.Apart k l)
    (hfree : ∀ l ∉ locks th.top.guards, x.Apart k l → (x'.lock l).locked = false ∧
      (x'.lock l).coreId = nobody) :
    Sim ids a' x' := by
  have hself : x'.thread (x.cur k) = th := by rw [hthread, Function.update_self]
  have hfar : ∀ t ≠ x.cur k, x'.thread t = x.thread t :=
    fun t ht => by rw [hthread, Function.update_of_ne ht]
  have hkeep : ∀ t ≠ x.cur k, ∀ l ∈ locks (x.thread t).top.guards, x'.lock l = x.lock l :=
    fun t ht l hl => hwrite l fun hp => hp t ht hl
  refine ⟨fun t => ?_, fun t => ?_, fun t => ?_,
    by rw [hcur]; exact h.cur, fun i => ?_, fun t hno => ?_, fun t u l ht hu => ?_, fun l hno => ?_⟩
  · rcases eq_or_ne t (x.cur k) with rfl | ht
    · rw [hself, htaken]
    · rw [hfar t ht, (hother t ht).1, h.taken]
  · rcases eq_or_ne t (x.cur k) with rfl | ht
    · rw [hself, hdepth]
    · rw [hfar t ht, (hother t ht).2.2, h.depth]
  · rcases eq_or_ne t (x.cur k) with rfl | ht
    · rw [hself]
      exact hunder
    · rw [hfar t ht]
      exact h.under t
  · rcases eq_or_ne i k with rfl | hi
    · rw [Cores.view, hcur, hself, hirq, Function.update_self]
      exact hdoing
    · have ht : x.cur i ≠ x.cur k := fun heq => hi (h.cur i k heq)
      rw [Cores.view, hcur, hfar _ ht, hirq, Function.update_of_ne hi, (hother _ ht).2.1]
      exact (h.doing i).congr (hkeep _ ht)
  · rw [hcur] at hno
    have ht : t ≠ x.cur k := fun heq => hno k heq.symm
    obtain ⟨hpc, hlocks, hstacked, hoff⟩ := h.resting t hno
    rw [hfar t ht, (hother t ht).2.1]
    exact ⟨hpc, hlocks, hstacked.congr (hkeep t ht), hoff⟩
  · rcases eq_or_ne t (x.cur k) with rfl | hne <;> rcases eq_or_ne u (x.cur k) with rfl | hne'
    · rfl
    · rw [hself] at ht
      rw [hfar u hne'] at hu
      exact absurd hu (hapart l ht u hne')
    · rw [hself] at hu
      rw [hfar t hne] at ht
      exact absurd ht (hapart l hu t hne)
    · rw [hfar t hne] at ht
      rw [hfar u hne'] at hu
      exact h.alone t u l ht hu
  · refine hfree l (hself ▸ hno (x.cur k)) fun t ht => ?_
    rw [← hfar t ht]
    exact hno t

theorem free_apart (h : Sim ids a x) (hl : l ∉ locks (x.view k).guards) (hp : x.Apart k l) :
    (x.lock l).locked = false ∧ (x.lock l).coreId = nobody := by
  refine h.free l fun t => ?_
  rcases eq_or_ne t (x.cur k) with rfl | ht
  · exact hl
  · exact hp t ht

theorem idle (h : Sim ids a x) (hpc : (x.view k).pc = .idle) :
    Idle (ids.id k) (a.enabled (x.cur k)) (x.view k) :=
  (doing_idle hpc).mp (h.doing k)

/-- Where interrupts are on, the code is between two calls or has only begun one, and took
nothing. -/
theorem calm (h : Sim ids a x) (hirq : x.irq k = true) (hpc : (x.view k).pc ≠ .panicked) :
    (x.view k).pc.Calm ∧ a.enabled (x.cur k) = true ∧ (x.view k).guards = [] := by
  have hstate := (h.doing k).state
  have hstatus : ∀ {b : Bool}, x.irq k = (b && (x.view k).guards.isEmpty) → b = true ∧
      (x.view k).guards = [] := by
    intro b hb
    rwa [hirq, eq_comm, Bool.and_eq_true, List.isEmpty_iff] at hb
  have hoff : (x.view k).irq ≠ false := by
    change x.irq k ≠ false
    rw [hirq]
    decide
  rw [View.State] at hstate
  cases hp : (x.view k).pc with
  | idle | lock | holding =>
    rw [hp] at hstate
    exact ⟨trivial, hstatus hstate⟩
  | unlockTest | unlockOwner =>
    rw [hp] at hstate
    exact ⟨trivial, hstatus hstate.1⟩
  | panicked => exact absurd hp hpc
  | _ =>
    rw [hp] at hstate
    exact absurd hstate.1 hoff

theorem switch [DecidableEq κ] (h : Sim ids a x) (hpc : (x.view k).pc = .idle)
    (hirq : x.irq k = false) (hlocks : locks (x.view k).guards = []) (hfree : ∀ j, x.cur j ≠ t) :
    Sim ids a { x with cur := Function.update x.cur k t } := by
  obtain ⟨-, hstacked, -, hstatus⟩ := h.idle hpc
  have hrest := h.resting t hfree
  refine ⟨h.taken, h.depth, h.under, fun i j hij => ?_, fun i => ?_, fun u hu => ?_,
    h.alone, h.free⟩
  · change Function.update x.cur k t i = Function.update x.cur k t j at hij
    rcases eq_or_ne i k with rfl | hi <;> rcases eq_or_ne j i with rfl | hj
    · rfl
    · rw [Function.update_self, Function.update_of_ne hj] at hij
      exact absurd hij.symm (hfree j)
    · rfl
    · rw [Function.update_of_ne hi] at hij
      rcases eq_or_ne j k with rfl | hjk
      · rw [Function.update_self] at hij
        exact absurd hij (hfree i)
      · rw [Function.update_of_ne hjk] at hij
        exact h.cur i j hij
  · rcases eq_or_ne i k with rfl | hi
    · have hview : Cores.view { x with cur := Function.update x.cur i t } i =
          ⟨x.lock, x.irq i, (x.thread t).top.pc, (x.thread t).top.guards⟩ := by
        simp only [Cores.view, Function.update_self]
      have hcur : Function.update x.cur i t i = t := Function.update_self i _ _
      rw [hview]
      change Doing _ (a.enabled (Function.update x.cur i t i)) _
      rw [hcur]
      refine (doing_idle hrest.pc).mpr ⟨?_, hrest.stacked, ?_, ?_⟩
      · simp only [hrest.locks]
        exact List.forall_mem_nil _
      · simp only [hrest.locks]
        exact List.nodup_nil
      · exact hirq.trans hrest.off.symm
    · have hcur : Function.update x.cur k t i = x.cur i := Function.update_of_ne hi _ _
      have hview : Cores.view { x with cur := Function.update x.cur k t } i = x.view i := by
        simp only [Cores.view, hcur]
      rw [hview]
      change Doing _ (a.enabled (Function.update x.cur k t i)) _
      rw [hcur]
      exact h.doing i
  · rcases eq_or_ne u (x.cur k) with rfl | hne
    · exact ⟨hpc, hlocks, hstacked, hstatus.symm.trans hirq⟩
    · refine h.resting u fun i hi => ?_
      rcases eq_or_ne i k with rfl | hik
      · exact hne hi.symm
      · exact hu i ((Function.update_of_ne hik _ _).trans hi)

section

variable [DecidableEq κ] [DecidableEq τ] {o : Option (Act τ ι)}

/-- The thread of the core goes on in the same activation. -/
theorem put (h : Sim ids a x) (hdoing : Doing (ids.id k) (a'.enabled (x.cur k)) v)
    (hother : ∀ t ≠ x.cur k, a'.taken t = a.taken t ∧ a'.enabled t = a.enabled t)
    (hdepth : a'.depth = a.depth) (htaken : a'.taken (x.cur k) = v.guards.map Guard.lock?)
    (hwrite : ∀ l, ¬x.Apart k l → v.lock l = x.lock l) (hapart : ∀ l ∈ locks v.guards, x.Apart k l)
    (hfree : ∀ l ∉ locks v.guards, x.Apart k l → (v.lock l).locked = false ∧
      (v.lock l).coreId = nobody) :
    Sim ids a' (x.put k v) :=
  h.evolve k rfl rfl rfl hdoing
    (fun t ht => ⟨(hother t ht).1, (hother t ht).2, congrFun hdepth t⟩) htaken
    ((congrFun hdepth _).trans (h.depth _)) (h.under _) hwrite hapart hfree

/-- The locks stay as they are. -/
theorem hold (h : Sim ids a x) (hdoing : Doing (ids.id k) (a'.enabled (x.cur k)) v)
    (hlock : v.lock = x.lock) (hg : locks v.guards = locks (x.view k).guards)
    (hother : ∀ t ≠ x.cur k, a'.taken t = a.taken t ∧ a'.enabled t = a.enabled t)
    (hdepth : a'.depth = a.depth) (htaken : a'.taken (x.cur k) = v.guards.map Guard.lock?) :
    Sim ids a' (x.put k v) := by
  refine h.put hdoing hother hdepth htaken (fun l _ => congrFun hlock l)
    (fun l hl => ?_) fun l hl hp => ?_
  · rw [hg] at hl
    exact h.apart hl
  · rw [hg] at hl
    rw [hlock]
    exact h.free_apart hl hp

/-- An access on core `k`. -/
theorem access (h : Sim ids a x) (hdoing : Doing (ids.id k) (a.enabled (x.cur k)) v)
    (heffect : Effect (x.cur k) (x.view k) v o) : ∃ a', Silently Owners.Step a o a' ∧
    Sim ids a' (x.put k v) := by
  have htaken : a.taken (x.cur k) = (x.view k).guards.map Guard.lock? := h.taken _
  cases heffect with
  | quiet hg hlock ho =>
    refine ⟨a, ?_, h.put hdoing (fun t _ => ⟨rfl, rfl⟩) rfl (by rw [hg, htaken])
      (fun l hp => hlock l fun hl => hp (h.apart hl)) (fun l hl => h.apart (hg ▸ hl))
      fun l hl hp => ?_⟩
    · rcases ho with rfl | ⟨l, b, rfl, hb⟩ | ⟨l, hl, rfl⟩ | ⟨l, hl, rfl⟩
      · rfl
      · exact .asked (by rw [hb, htaken, mem_taken])
      · exact .relocked (by rwa [htaken, mem_taken])
      · exact .misreleased (by rwa [htaken, mem_taken])
    · rw [hg] at hl
      rw [hlock l hl]
      exact h.free_apart hl hp
  | @locked l hl hg hlock =>
    obtain ⟨hno, -⟩ := h.unlocked hl
    refine ⟨_, .locked fun u => ?_,
      h.put hdoing (fun t ht => Owners.take_other ht) rfl ?_ (fun j hp => hlock j ?_) ?_ ?_⟩
    · rw [h.taken, mem_taken]
      exact hno u
    · rw [hg, List.map_cons, ← htaken]
      exact Function.update_self _ _ _
    · rintro rfl
      exact hp fun t _ => hno t
    · rw [hg, locks_lock]
      exact List.forall_mem_cons.mpr ⟨fun t _ => hno t, fun j hj => h.apart hj⟩
    · intro j hj hp
      rw [hg, locks_lock, List.mem_cons, not_or] at hj
      rw [hlock j hj.1]
      exact h.free_apart hj.2 hp
  | @unlocked l gs hg hg' hlock hlocked hid =>
    have hl : l ∈ locks (x.view k).guards := by
      rw [hg, locks_lock]
      exact List.mem_cons_self
    rw [hg, List.map_cons] at htaken
    refine ⟨_, .unlocked htaken,
      h.put hdoing (fun t ht => Owners.take_other ht) rfl ?_ (fun j hp => hlock j ?_) ?_ ?_⟩
    · rw [hg']
      exact Function.update_self _ _ _
    · rintro rfl
      exact hp (h.apart hl)
    · intro j hj
      refine h.apart ?_
      rw [hg, locks_lock]
      exact List.mem_cons_of_mem l (hg' ▸ hj)
    · intro j hj hp
      rcases eq_or_ne j l with rfl | hne
      · exact ⟨hlocked, hid⟩
      · rw [hlock j hne]
        refine h.free_apart ?_ hp
        rw [hg, locks_lock, List.mem_cons, not_or]
        exact ⟨hne, hg' ▸ hj⟩

theorem call (h : Sim ids a x) {pc : Pc ι} (hpc : (x.view k).pc = .idle)
    (hc : Calls (x.view k).guards pc) :
    Sim ids a (x.put k { x.view k with pc := pc }) := by
  obtain ⟨hheld, hstacked, honce, hirq⟩ := h.idle hpc
  refine h.hold ?_ rfl rfl (fun _ _ => ⟨rfl, rfl⟩) rfl (h.taken _)
  cases hc with
  | lock l => exact ⟨hheld, hstacked, honce, hirq⟩
  | holding l => exact ⟨hheld, hstacked, honce, hirq⟩
  | unlock l hl => exact ⟨hheld, hstacked, honce, hirq, hl⟩

theorem pin (h : Sim ids a x) (hpc : (x.view k).pc = .idle) :
    Sim ids (a.take (x.cur k) (none :: a.taken (x.cur k)))
      (x.put k { x.view k with irq := false, guards := .cpu (x.irq k) :: (x.view k).guards }) := by
  obtain ⟨hheld, hstacked, honce, hirq⟩ := h.idle hpc
  refine h.hold ((doing_idle ?_).mpr ⟨hheld, ⟨hirq, hstacked⟩, honce, (Bool.and_false _).symm⟩) rfl
    rfl
    (fun t ht => Owners.take_other ht) rfl ?_
  · exact hpc
  · rw [h.taken]
    exact Function.update_self _ _ _

theorem unpin (h : Sim ids a x) {old : Bool} {gs : List (Guard ι)} (hpc : (x.view k).pc = .idle)
    (hg : (x.view k).guards = .cpu old :: gs) :
    Sim ids (a.take (x.cur k) (gs.map Guard.lock?))
      (x.put k { x.view k with irq := old || x.irq k, guards := gs }) := by
  obtain ⟨hheld, hstacked, honce, hirq⟩ := h.idle hpc
  rw [hg] at hheld hstacked honce hirq
  have hoff : x.irq k = false := hirq.trans (Bool.and_false _)
  refine h.hold ((doing_idle ?_).mpr ⟨hheld, hstacked.2, honce, ?_⟩) rfl (by rw [hg]; rfl)
    (fun t ht => Owners.take_other ht) rfl (Function.update_self _ _ _)
  · exact hpc
  · change (old || x.irq k) = _
    rw [hoff, Bool.or_false]
    exact hstacked.1

theorem set (h : Sim ids a x) {b : Bool} (hpc : (x.view k).pc = .idle)
    (hg : (x.view k).guards = []) :
    Sim ids (a.trap (x.cur k) b (a.depth (x.cur k))) (x.put k { x.view k with irq := b }) := by
  obtain ⟨hheld, -, honce, -⟩ := h.idle hpc
  have hen : (a.trap (x.cur k) b (a.depth (x.cur k))).enabled (x.cur k) = b :=
    Function.update_self _ _ _
  refine h.hold ((doing_idle ?_).mpr ⟨hheld, ?_, honce, ?_⟩) rfl rfl
    (fun t ht => ⟨rfl, Function.update_of_ne ht _ _⟩) (Function.update_eq_self _ _) (h.taken _)
  · exact hpc
  · change Stacked _ _ (x.view k).guards
    rw [hg]
    trivial
  · change b = (_ && (x.view k).guards.isEmpty)
    rw [hen, hg]
    exact (Bool.and_true b).symm

/-- The thread of the core goes on in another activation, and took nothing in either. -/
theorem replace (h : Sim ids a x) {b en : Bool} (th : Thread ι) (hg : (x.view k).guards = [])
    (hg' : th.top.guards = []) (hstate : View.State en ⟨x.lock, b, th.top.pc, []⟩)
    (hunder : ∀ f ∈ th.under, f.guards = [] ∧ f.pc.Calm) :
    Sim ids (a.trap (x.cur k) en th.under.length) (x.replace k b th) := by
  have hen : (a.trap (x.cur k) en th.under.length).enabled (x.cur k) = en :=
    Function.update_self _ _ _
  refine h.evolve k rfl rfl rfl ?_
    (fun t ht => ⟨rfl, Function.update_of_ne ht _ _, Function.update_of_ne ht _ _⟩)
    ?_ (Function.update_self _ _ _)
    hunder (fun _ _ => rfl) (fun l hl => ?_) fun l _ hp => h.free_apart ?_ hp
  · rw [hen, hg']
    refine ⟨List.forall_mem_nil _, ?_, List.nodup_nil, hstate⟩
    change Stacked en x.lock (th.top.pc.stored [])
    rcases stored_cases th.top.pc [] with heq | heq <;> rw [heq] <;> trivial
  · rw [hg']
    exact (h.taken _).trans (congrArg (List.map Guard.lock?) hg)
  · rw [hg'] at hl
    exact absurd hl List.not_mem_nil
  · rw [hg]
    exact List.not_mem_nil

theorem interrupt (h : Sim ids a x) (hirq : x.irq k = true) (hpc : (x.view k).pc ≠ .panicked) :
    Sim ids (a.trap (x.cur k) false (a.depth (x.cur k) + 1)) (x.replace k false
      ⟨⟨.idle, []⟩, (x.thread (x.cur k)).top :: (x.thread (x.cur k)).under⟩) := by
  obtain ⟨hcalm, -, hg⟩ := h.calm hirq hpc
  rw [h.depth]
  exact h.replace ⟨⟨.idle, []⟩, (x.thread (x.cur k)).top :: (x.thread (x.cur k)).under⟩ hg rfl rfl
    (List.forall_mem_cons.mpr ⟨⟨hg, hcalm⟩, h.under _⟩)

theorem sret (h : Sim ids a x) {f : Activation ι} {fs : List (Activation ι)}
    (hg : (x.view k).guards = []) (hunder : (x.thread (x.cur k)).under = f :: fs) :
    Sim ids (a.trap (x.cur k) true fs.length) (x.replace k true ⟨f, fs⟩) := by
  have hcalm := h.under (x.cur k)
  rw [hunder] at hcalm
  obtain ⟨⟨hf, hpc⟩, hfs⟩ := List.forall_mem_cons.mp hcalm
  refine h.replace ⟨f, fs⟩ hg hf ?_ hfs
  rw [View.State]
  cases hp : f.pc with
  | idle | lock | holding => exact rfl
  | unlockTest | unlockOwner => exact ⟨rfl, .inr List.not_mem_nil⟩
  | _ =>
    rw [hp] at hpc
    exact hpc.elim

theorem step (h : Sim ids a x) (hs : Cores.Step ids x o x') : ∃ a', Silently Owners.Step a o a' ∧
    Sim ids a' x' := by
  cases hs with
  | @exec k =>
    obtain ⟨hdoing, heffect⟩ :=
      (h.doing k).exec (t := x.cur k) (ids.small k) (fun l hid => h.owner hid)
      fun l hl => (h.unlocked hl).2
    exact h.access hdoing heffect
  | call hpc hc => exact ⟨a, rfl, h.call hpc hc⟩
  | pin hpc => exact ⟨_, .pinned, h.pin hpc⟩
  | @unpin k old gs hpc hg =>
    have htaken : a.taken (x.cur k) = none :: gs.map Guard.lock? :=
      (h.taken _).trans (congrArg (List.map Guard.lock?) hg)
    exact ⟨_, .unpinned htaken, h.unpin hpc hg⟩
  | @set k b hpc hg =>
      exact ⟨_, .set ((h.taken _).trans (congrArg (List.map Guard.lock?) hg)), h.set hpc hg⟩
  | @interrupt k hirq hpc =>
    obtain ⟨-, hen, hg⟩ := h.calm hirq hpc
    exact ⟨_, .interrupted hen ((h.taken _).trans (congrArg (List.map Guard.lock?) hg)),
      h.interrupt hirq hpc⟩
  | @sret k f fs _ hg hunder =>
    have hdepth : a.depth (x.cur k) = fs.length + 1 :=
      (h.depth _).trans (congrArg List.length hunder)
    exact ⟨_, .returned hdepth ((h.taken _).trans (congrArg (List.map Guard.lock?) hg)),
      h.sret hg hunder⟩
  | switch hpc hirq hlocks hfree => exact ⟨a, rfl, h.switch hpc hirq hlocks hfree⟩

end

end Sim

/-! ## Runs -/

theorem Cores.Booted.sim (h : x.Booted) : Sim ids .initial x where
  taken t := by
    rw [h.thread]
    rfl
  depth t := by
    rw [h.thread]
    rfl
  under t f hf := by
    rw [h.thread] at hf
    exact absurd hf List.not_mem_nil
  cur := h.cur
  doing k := by
    rw [Cores.view, h.thread, h.irq]
    exact ⟨List.forall_mem_nil _, trivial, List.nodup_nil, rfl⟩
  resting t _ := by
    rw [h.thread]
    exact ⟨rfl, rfl, trivial, rfl⟩
  alone t u l ht _ := by
    rw [h.thread] at ht
    exact absurd ht List.not_mem_nil
  free l _ := ⟨h.locked l, h.coreId l⟩

variable [DecidableEq κ] [DecidableEq τ] {x₀ : Cores κ τ ι} {ls : List (Option (Act τ ι))}

theorem Cores.sim (hboot : x₀.Booted) (hrun : Run (Cores.Step ids) x₀ ls x) :
    ∃ a, Run Owners.Step .initial ls.reduceOption a ∧ Sim ids a x :=
  Run.simulate (R := Sim ids) (fun _ _ _ _ h hs => h.step hs) hrun hboot.sim

/-- However the accesses of the cores interleave, wherever interrupts come and wherever threads go
on, locks behave as if they belonged to threads and were taken and given back at once. Interrupts
are on where the thread enabled them and has taken nothing. -/
theorem spinlocks_refined (hboot : x₀.Booted) (hrun : Run (Cores.Step ids) x₀ ls x) :
    ∃ a, Run Owners.Step .initial ls.reduceOption a ∧
      (∀ t, a.taken t = (x.thread t).top.guards.map Guard.lock?) ∧
      ∀ k, (x.view k).pc = .idle →
      x.irq k = (a.enabled (x.cur k) && (a.taken (x.cur k)).isEmpty) := by
  obtain ⟨a, habstract, hsim⟩ := Cores.sim hboot hrun
  refine ⟨a, habstract, hsim.taken, fun k hpc => ?_⟩
  rw [hsim.taken, List.isEmpty_map]
  exact (hsim.idle hpc).irq

/-- A lock has one holder, whose core has interrupts off. A core that tries to take it waits for
another core, and what a trap interrupted has no lock. -/
theorem spinlock_holders (hboot : x₀.Booted) (hrun : Run (Cores.Step ids) x₀ ls x) :
    (∀ t u l, l ∈ locks (x.thread t).top.guards → l ∈ locks (x.thread u).top.guards → t = u) ∧
      (∀ t l, l ∈ locks (x.thread t).top.guards → ∃ k, x.cur k = t ∧
        ((x.view k).pc = .panicked ∨ x.irq k = false)) ∧
      (∀ k l old, (x.view k).pc = .swap l old → (x.lock l).locked = true →
        ∃ j ≠ k, l ∈ locks (x.view j).guards) ∧
      ∀ t, ∀ f ∈ (x.thread t).under, locks f.guards = [] := by
  obtain ⟨a, -, hsim⟩ := Cores.sim hboot hrun
  refine ⟨hsim.alone, fun t l hl => ?_, fun k l old hpc hlocked => ?_, fun t f hf => by
    rw [(hsim.under t f hf).1]; rfl⟩
  · obtain ⟨k, rfl⟩ := hsim.on_core hl
    refine ⟨k, rfl, or_iff_not_imp_left.mpr fun hpc => Bool.eq_false_iff.mpr fun hirq => ?_⟩
    have hg := (hsim.calm hirq hpc).2.2
    change (x.thread (x.cur k)).top.guards = [] at hg
    rw [hg] at hl
    exact absurd hl List.not_mem_nil
  · have hstate := (hsim.doing k).state
    rw [View.State, hpc] at hstate
    have hheld : ∃ t, l ∈ locks (x.thread t).top.guards := by
      by_contra hno
      rw [(hsim.free l fun t ht => hno ⟨t, ht⟩).1] at hlocked
      cases hlocked
    obtain ⟨t, ht⟩ := hheld
    obtain ⟨j, rfl⟩ := hsim.on_core ht
    refine ⟨j, ?_, ht⟩
    rintro rfl
    exact hstate.2.2 ht

/-- Two cores and a lock. -/
def sampleIds : Ids Bool where
  id b := b.toNat
  inj i j h := by cases i <;> cases j <;> first | rfl | cases h
  small k := by cases k <;> decide

def sampleCores : Cores Bool Bool Unit where
  lock _ := ⟨false, false, nobody⟩
  irq _ := false
  thread _ := ⟨⟨.idle, []⟩, []⟩
  cur k := k

theorem sampleCores_booted : sampleCores.Booted :=
  ⟨fun _ => rfl, fun _ => rfl, fun _ => rfl, fun _ => rfl, fun _ _ h => h⟩

/-- One core takes the lock, the other waits for it. -/
theorem sample_wait : ∃ (ls : List (Option (Act Bool Unit))) (x : Cores Bool Bool Unit),
    Run (Cores.Step sampleIds) sampleCores ls x ∧ (x.thread false).top.guards = [.lock ()] ∧
      (x.view true).pc = .swap () false ∧ (x.lock ()).locked = true := by
  have hcall : Run (Cores.Step sampleIds) sampleCores [none] _ :=
    Run.single (.call (k := false) rfl (.lock ()))
  have htaken := ((hcall.snoc (.exec (k := false))).snoc (.exec (k := false))).snoc
    (.exec (k := false))
  have hwait := htaken.snoc (.call (k := true) rfl (.lock ()))
  have hspin := ((hwait.snoc (.exec (k := true))).snoc (.exec (k := true))).snoc (.exec (k := true))
  have hdone := (hspin.snoc (.exec (k := false))).snoc (.exec (k := false))
  exact ⟨_, _, hdone, rfl, rfl, rfl⟩

theorem spinlocks_refined_sample :
    ∃ (ls : List (Option (Act Bool Unit))) (x : Cores Bool Bool Unit), (x.thread false).top.guards =
    [.lock ()] ∧ ∃ a, Run Owners.Step .initial ls.reduceOption a ∧
      (∀ t, a.taken t = (x.thread t).top.guards.map Guard.lock?) ∧
      ∀ k, (x.view k).pc = .idle →
      x.irq k = (a.enabled (x.cur k) && (a.taken (x.cur k)).isEmpty) := by
  obtain ⟨ls, x, hrun, hheld, -⟩ := sample_wait
  exact ⟨ls, x, hheld, spinlocks_refined sampleCores_booted hrun⟩

theorem spinlock_holders_sample : ∃ x : Cores Bool Bool Unit,
    ((x.view true).pc = .swap () false ∧ (x.lock ()).locked = true) ∧
    (∀ t u l, l ∈ locks (x.thread t).top.guards → l ∈ locks (x.thread u).top.guards → t = u) ∧
      (∀ t l, l ∈ locks (x.thread t).top.guards → ∃ k, x.cur k = t ∧
        ((x.view k).pc = .panicked ∨ x.irq k = false)) ∧
      (∀ k l old, (x.view k).pc = .swap l old → (x.lock l).locked = true →
        ∃ j ≠ k, l ∈ locks (x.view j).guards) ∧
      ∀ t, ∀ f ∈ (x.thread t).under, locks f.guards = [] := by
  obtain ⟨ls, x, hrun, -, hwait⟩ := sample_wait
  exact ⟨x, hwait, spinlock_holders sampleCores_booted hrun⟩

end CoroCore.Spin
