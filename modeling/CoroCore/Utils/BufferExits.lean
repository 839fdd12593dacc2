import CoroCore.Utils.BufferCoherence

/-!
# The exits of `buffer_manager::get_derived`

A single call of `get_derived`, with no other task running meanwhile, from any state whose
`flush_list` is empty. What it meets is an argument: whether a new buffer and its data can be
allocated, and how the write-back of a dirty victim ends. `block_buffer_node::__flush` does not look
at what `bdev->write` returns, so that an error of the device goes unnoticed; a failure of the task
leaves the frame of `get_derived` to be destroyed.

* `getDerived`: the call, over the sections of `BufSystem`; `getDerived_run`: it is a run of steps;
* `cleanExit_iff`: the call leaves the manager as it should exactly if it does not fail to allocate
  a buffer that it needs, and the contents of a dirty victim reach the device.
-/

namespace CoroCore

open Lib

/-- How the write-back of a victim ends: done, with an error from `bdev->write`, or with the failure
of a task. -/
inductive WriteBack
  | done
  | ignored
  | failed
  deriving DecidableEq

namespace BufSystem

variable {K D : Type} [DecidableEq K]

/-- `flush` with an error from `bdev->write`, of which it does not know. -/
def flushIgnored (s : BufSystem K D) (b : BufId) : BufSystem K D :=
  { s.flush b with device := s.device }

/-- `co_await buf->flush()`. Nothing is returned if it fails. -/
def tryFlush (s : BufSystem K D) (b : BufId) : WriteBack → Option (BufSystem K D)
  | .done => some (s.flush b)
  | .ignored => some (s.flushIgnored b)
  | .failed => none

/-- The sections of `get_derived(k)` of call `t`, one after the other. A call that fails is over,
with its locals destroyed. -/
def getDerived (min max t : Nat) (k : K) (mem : Bool) (wb : WriteBack) (s : BufSystem K D) :
    BufSystem K D :=
  match (s.enter max t k (s.unused min) mem).calls[t]? with
  | some (.flushing _ b) =>
    match (s.enter max t k (s.unused min) mem).tryFlush b wb with
    | none => (s.enter max t k (s.unused min) mem).setCall t .idle
    | some u => (u.setCall t (.flushed k b)).finish t k b
  | _ => s.enter max t k (s.unused min) mem

/-- The contents of buffer `b` of `s` are on the device in `s'`. -/
def WrittenTo (s s' : BufSystem K D) (b : BufId) : Prop :=
  ∃ k, (s.bufs b).key = some k ∧ s'.device k = (s.bufs b).data

/-- What a call of `get_derived(k)` should leave behind, however it ends. Only the victim `v`, if
there is one, changes: it was clean or is written back, and has the requested key. -/
structure CleanExit (k : K) (s s' : BufSystem K D) : Prop where
  lock : s'.stuck = false
  flush : s'.flushList.nodes = []
  kept : ∃ v : Option BufId,
    (∀ b ∈ s.bufferList.nodes, b ∈ s'.bufferList.nodes ∧ (v ≠ some b → s'.bufs b = s.bufs b)) ∧
    ∀ b, v = some b → ((s.bufs b).dirty = false ∨ s.WrittenTo s' b) ∧ (s'.bufs b).key = some k

/-- The write-back of the victim `b` brings its contents to the device, or they are there. -/
def Writes (s : BufSystem K D) (b : BufId) (wb : WriteBack) : Prop :=
  wb ≠ .failed ∧ ∃ k, (s.bufs b).key = some k ∧
    (wb = .done ∧ (s.bufs b).valid = true ∨ s.device k = (s.bufs b).data)

/-- A call that finds no buffer for `k` can allocate one if it has to, and write a dirty victim
back. -/
def Served (min max : Nat) (k : K) (mem : Bool) (wb : WriteBack) (s : BufSystem K D) : Prop :=
  s.bufferList.nodes.find? (s.isKey k) = none →
    match s.unused min with
    | none => s.bufferList.nodes.length < max → mem = true
    | some b => (s.bufs b).dirty = true → s.Writes b wb

variable {s : BufSystem K D} {min max t : Nat} {k : K} {b : BufId} {mem : Bool} {wb : WriteBack}

/-! ## The victim -/

omit [DecidableEq K] in
theorem mem_of_unused (h : s.unused min = some b) : b ∈ s.bufferList.nodes := by
  have hok := unused_ok min s
  rw [h] at hok
  exact hok.2.1

/-- The buffers other than the victim stay in the list. -/
theorem mem_pushFront_erase {l : PtrList} {c : BufId} (h : c ∈ l.nodes) :
    c ∈ ((l.erase b).pushFront b).nodes := by
  rcases eq_or_ne c b with rfl | hne
  · exact List.mem_cons_self
  · exact List.mem_cons_of_mem b ((List.mem_erase_of_ne hne).mpr h)

theorem miss_key (h : s.bufferList.nodes.find? (s.isKey k) = none) {c : BufId}
    (hc : c ∈ s.bufferList.nodes) : (s.bufs c).key ≠ some k := by
  intro hk
  exact List.find?_eq_none.mp h c hc (isKey_eq_true.mpr hk)

/-! ## The end of the call after a write-back -/

/-- The state in which the victim `b` waits to be written back. -/
def evicting (s : BufSystem K D) (t : Nat) (k : K) (b : BufId) : BufSystem K D :=
  { s with
    bufferList := s.bufferList.erase b
    flushList := s.flushList.pushBack b }.setCall t (.flushing k b)

/-- What `flush` does to the buffers and the device, whether it is done or ignored. -/
structure Flushed (s u : BufSystem K D) (b : BufId) (wb : WriteBack) : Prop where
  frame : u = { s with bufs := u.bufs, device := u.device }
  other : ∀ c, c ≠ b → u.bufs c = s.bufs c
  key : ∀ c, (u.bufs c).key = (s.bufs c).key
  device : (s.bufs b).dirty = true → (wb ≠ .failed ∧ s.WrittenTo u b ↔ s.Writes b wb)

theorem flush_device_self {k' : K} (hk : (s.bufs b).key = some k') (hd : (s.bufs b).dirty = true) :
    (s.flush b).device k' = (s.bufs b).data ↔
      (s.bufs b).valid = true ∨ s.device k' = (s.bufs b).data := by
  unfold BufSystem.flush
  rw [hk, hd]
  cases hv : (s.bufs b).valid with
  | true => simp
  | false => simp

theorem flush_other {c : BufId} (h : c ≠ b) : (s.flush b).bufs c = s.bufs c := by
  unfold BufSystem.flush
  repeat' split
  · simp [setBuf, Function.update_of_ne h]
  all_goals rfl

theorem tryFlush_spec {u : BufSystem K D} (h : s.tryFlush b wb = some u) : s.Flushed u b wb := by
  cases wb with
  | done =>
    cases h
    refine ⟨flush_frame s b, fun c => flush_other, flush_key, fun hd => ?_⟩
    refine and_congr_right fun _ => exists_congr fun k' => and_congr_right fun hk => ?_
    rw [flush_device_self hk hd]
    simp
  | ignored =>
    cases h
    refine ⟨?_, fun c => flush_other, flush_key, fun hd => ?_⟩
    · conv_lhs => rw [flushIgnored, flush_frame]
      rfl
    · refine and_congr_right fun _ => exists_congr fun k' => and_congr_right fun hk => ?_
      simp [flushIgnored]
  | failed => cases h

theorem finish_of_miss (h : s.bufferList.nodes.find? (s.isKey k) = none) :
    s.finish t k b = { (s.endFlush b).initBuf b (some k) with
      bufferList := s.bufferList.pushFront b }.hand t b := by
  unfold BufSystem.finish
  rw [h]

/-- The state after a victim with a key other than `k` has been written back. -/
theorem finish_evicting {u : BufSystem K D} (hmiss : s.bufferList.nodes.find? (s.isKey k) = none)
    (hflush : s.flushList.nodes = []) (hu : (s.evicting t k b).Flushed u b wb) :
    let s' := (u.setCall t (.flushed k b)).finish t k b
    s'.stuck = s.stuck ∧ s'.flushList.nodes = [] ∧
      s'.bufferList.nodes = b :: s.bufferList.nodes.erase b ∧
      (∀ c, c ≠ b → s'.bufs c = s.bufs c) ∧ (s'.bufs b).key = some k ∧ s'.device = u.device := by
  obtain ⟨bufs, device, rfl⟩ : ∃ bufs device,
      u = { s.evicting t k b with bufs := bufs, device := device } := ⟨_, _, hu.frame⟩
  have hfind :
      (s.bufferList.nodes.erase b).find? (fun c => decide ((bufs c).key = some k)) = none := by
    rw [List.find?_eq_none]
    intro c hc hk
    have hkey : (bufs c).key = (s.bufs c).key := hu.key c
    rw [decide_eq_true_eq, hkey] at hk
    exact miss_key hmiss (List.mem_of_mem_erase hc) hk
  intro s'
  rw [show s' = _ from finish_of_miss hfind]
  refine ⟨rfl, ?_, rfl, fun c hc => ?_, ?_, rfl⟩
  · show ((s.flushList.nodes ++ [b]).erase b) = []
    rw [hflush]
    simp
  · show Function.update bufs b _ c = _
    rw [Function.update_of_ne hc]
    exact hu.other c hc
  · show (Function.update bufs b _ b).key = _
    rw [Function.update_self]

/-! ## The exits -/

omit [DecidableEq K] in
theorem set_idle_ne {calls : List (Call K)} {k' : K} {c : BufId} :
    (calls.set t .idle)[t]? ≠ some (.flushing k' c) := by
  intro h
  rcases getElem?_set_some h with ⟨-, he⟩ | ⟨hne, -⟩
  · cases he
  · exact hne rfl

/-- A call that does not come to the write-back ends with its first section. -/
theorem getDerived_of_idle {calls : List (Call K)}
    (h : (s.enter max t k (s.unused min) mem).calls = calls.set t .idle) :
    getDerived min max t k mem wb s = s.enter max t k (s.unused min) mem := by
  unfold getDerived
  split
  · next k' c hc =>
    rw [h] at hc
    exact absurd hc set_idle_ne
  · rfl

omit [DecidableEq K] in
/-- Nothing but the order of the buffers has changed. -/
theorem CleanExit.of_same {s' : BufSystem K D} (hlock : s'.stuck = false)
    (hflush : s'.flushList.nodes = []) (hmem : ∀ b ∈ s.bufferList.nodes, b ∈ s'.bufferList.nodes)
    (hbufs : ∀ b ∈ s.bufferList.nodes, s'.bufs b = s.bufs b) : CleanExit k s s' :=
  ⟨hlock, hflush, none, fun b hb => ⟨hmem b hb, fun _ => hbufs b hb⟩, fun _ hv => nomatch hv⟩

section Exits

variable (hlock : s.stuck = false) (hflush : s.flushList.nodes = [])
include hlock hflush

theorem exit_hit (hfind : s.bufferList.nodes.find? (s.isKey k) = some b) :
    CleanExit k s (getDerived min max t k mem wb s) := by
  have henter : s.enter max t k (s.unused min) mem =
      { s with bufferList := s.bufferList.moveToFront b }.hand t b := by
    unfold BufSystem.enter
    rw [hflush, hfind]
    rfl
  rw [getDerived_of_idle (by rw [henter]; rfl), henter]
  refine .of_same hlock hflush (fun c hc => ?_) fun _ _ => rfl
  exact (List.perm_cons_erase (List.mem_of_find?_eq_some hfind)).mem_iff.mp hc

theorem exit_clean (hmiss : s.bufferList.nodes.find? (s.isKey k) = none)
    (hv : s.unused min = some b) (hclean : (s.bufs b).dirty = false) :
    CleanExit k s (getDerived min max t k mem wb s) := by
  have henter : s.enter max t k (s.unused min) mem =
      ({ s.initBuf b (some k) with
        bufferList := (s.bufferList.erase b).pushFront b }).hand t b := by
    unfold BufSystem.enter
    rw [hflush, hmiss, hv]
    show BufSystem.place _ t k b = _
    unfold BufSystem.place
    rw [if_neg (by rw [hclean]; exact Bool.false_ne_true)]
    rfl
  rw [getDerived_of_idle (by rw [henter]; rfl), henter]
  refine ⟨hlock, hflush, some b, fun c hc => ⟨mem_pushFront_erase hc, fun hne => ?_⟩, ?_⟩
  · exact Function.update_of_ne (fun he => hne (congrArg some he.symm)) ..
  · rintro _ ⟨rfl⟩
    refine ⟨.inl hclean, ?_⟩
    show (Function.update s.bufs b _ b).key = _
    rw [Function.update_self]

theorem exit_dirty (ht : t < s.calls.length)
    (hmiss : s.bufferList.nodes.find? (s.isKey k) = none) (hv : s.unused min = some b)
    (hdirty : (s.bufs b).dirty = true) :
    CleanExit k s (getDerived min max t k mem wb s) ↔ s.Writes b wb := by
  have henter : s.enter max t k (s.unused min) mem = s.evicting t k b := by
    unfold BufSystem.enter
    rw [hflush, hmiss, hv]
    show BufSystem.place _ t k b = _
    unfold BufSystem.place
    rw [if_pos hdirty]
    rfl
  have hcall : (s.evicting t k b).calls[t]? = some (.flushing k b) := List.getElem?_set_self ht
  unfold getDerived
  rw [henter, hcall]
  simp only
  cases hres : (s.evicting t k b).tryFlush b wb with
  | none =>
    -- the buffer stays in `flush_list`
    have hfailed : wb = .failed := by
      cases wb with
      | failed => rfl
      | done => cases hres
      | ignored => cases hres
    simp only
    constructor
    · intro h
      have hnil : s.flushList.nodes ++ [b] = [] := h.flush
      rw [hflush] at hnil
      cases hnil
    · exact fun h => absurd hfailed h.1
  | some u =>
    have hspec := tryFlush_spec hres
    have hne : wb ≠ .failed := by
      rintro rfl
      cases hres
    have hwrites : s.WrittenTo u b ↔ s.Writes b wb := by
      rw [← show (s.evicting t k b).Writes b wb ↔ s.Writes b wb from Iff.rfl, ← hspec.device hdirty,
        and_iff_right hne]
      exact Iff.rfl
    obtain ⟨h1, h2, h3, h4, h5, h6⟩ := finish_evicting hmiss hflush hspec
    have hdev : s.WrittenTo ((u.setCall t (.flushed k b)).finish t k b) b ↔ s.WrittenTo u b := by
      unfold WrittenTo
      rw [h6]
    simp only
    rw [← hwrites, ← hdev]
    constructor
    · rintro ⟨-, -, v, hkeep, hvictim⟩
      -- the victim has another key now, so it is the exception
      have hvb : v = some b := by
        by_contra hvb
        have hsame := (hkeep b (mem_of_unused hv)).2 hvb
        rw [hsame] at h5
        exact miss_key hmiss (mem_of_unused hv) h5
      refine (hvictim b hvb).1.resolve_left fun hclean => ?_
      rw [hdirty] at hclean
      cases hclean
    · intro hw
      refine ⟨h1.trans hlock, h2, some b, fun c hc => ⟨?_, fun hcb => ?_⟩, ?_⟩
      · rw [h3]
        exact mem_pushFront_erase hc
      · exact h4 c fun he => hcb (congrArg some he.symm)
      · rintro _ ⟨rfl⟩
        exact ⟨.inr hw, h5⟩

theorem exit_new (hnew : s.next ∉ s.bufferList.nodes)
    (hmiss : s.bufferList.nodes.find? (s.isKey k) = none) (hv : s.unused min = none) :
    CleanExit k s (getDerived min max t k mem wb s) ↔
      (s.bufferList.nodes.length < max → mem = true) := by
  have henter : s.enter max t k (s.unused min) mem =
      if max ≤ s.bufferList.nodes.length then s.setCall t .idle
      else if mem = false then { s.setCall t .idle with stuck := true }
      else
        { s.setBuf s.next { s.bufs s.next with key := none, valid := false, dirty := false } with
          next := s.next + 1 }.place t k s.next := by
    unfold BufSystem.enter
    rw [hflush, hmiss, hv]
    rfl
  by_cases hfull : max ≤ s.bufferList.nodes.length
  · rw [if_pos hfull] at henter
    rw [getDerived_of_idle (by rw [henter]; rfl), henter]
    refine ⟨fun _ hlt => absurd hlt (Nat.not_lt.mpr hfull), fun _ => ?_⟩
    exact .of_same hlock hflush (fun _ hc => hc) fun _ _ => rfl
  rw [if_neg hfull] at henter
  cases mem with
  | false =>
    rw [if_pos rfl] at henter
    rw [getDerived_of_idle (by rw [henter]; rfl), henter]
    constructor
    · intro h
      have hstuck : true = false := h.lock
      cases hstuck
    · intro h
      cases h (Nat.not_le.mp hfull)
  | true =>
    rw [if_neg (by decide)] at henter
    have hplace : ∀ u : BufSystem K D, (u.bufs s.next).dirty = false → u.place t k s.next =
        { u.initBuf s.next (some k) with bufferList := u.bufferList.pushFront s.next }.hand t
          s.next := fun u hd => by
      unfold BufSystem.place
      rw [if_neg (by rw [hd]; exact Bool.false_ne_true)]
    rw [hplace _ (by simp [setBuf])] at henter
    rw [getDerived_of_idle (by rw [henter]; rfl), henter]
    refine ⟨fun _ _ => rfl, fun _ => ?_⟩
    refine .of_same hlock hflush (fun c hc => List.mem_cons_of_mem _ hc) fun c hc => ?_
    have hne : c ≠ s.next := fun he => hnew (he ▸ hc)
    exact (Function.update_of_ne hne ..).trans (Function.update_of_ne hne ..)

/-- From any state with an empty `flush_list`, a call of `get_derived` leaves the manager clean if
and only if it is served. -/
theorem cleanExit_iff (hnew : s.next ∉ s.bufferList.nodes) (ht : s.calls[t]? = some (.start k)) :
    CleanExit k s (getDerived min max t k mem wb s) ↔ Served min max k mem wb s := by
  unfold Served
  cases hfind : s.bufferList.nodes.find? (s.isKey k) with
  | some b => exact iff_of_true (exit_hit hlock hflush hfind) fun hn => nomatch hn
  | none =>
    simp only [true_imp_iff]
    cases hv : s.unused min with
    | none => exact exit_new hlock hflush hnew hfind hv
    | some b =>
      cases hd : (s.bufs b).dirty with
      | false =>
        refine iff_of_true (exit_clean hlock hflush hfind hv hd) fun hdirty => ?_
        rw [hd] at hdirty
        cases hdirty
      | true =>
        have hiff : CleanExit k s (getDerived min max t k mem wb s) ↔ s.Writes b wb :=
          exit_dirty hlock hflush (List.getElem?_eq_some_iff.mp ht).1 hfind hv hd
        exact hiff.trans ⟨fun h _ => h, fun h => h hd⟩

end Exits

omit [DecidableEq K] in
theorem place_flushing {u : BufSystem K D} {k' : K} {c : BufId}
    (h : (u.place t k b).calls[t]? = some (.flushing k' c)) :
    k' = k ∧ (u.place t k b).stuck = u.stuck := by
  unfold BufSystem.place at h ⊢
  split at h
  · next hd =>
    rw [if_pos hd]
    rcases getElem?_set_some h with ⟨-, he⟩ | ⟨hne, -⟩
    · cases he
      exact ⟨rfl, rfl⟩
    · exact absurd rfl hne
  · exact absurd h set_idle_ne

theorem enter_flushing {victim : Option BufId} {k' : K} {c : BufId}
    (h : (s.enter max t k victim mem).calls[t]? = some (.flushing k' c)) :
    k' = k ∧ (s.enter max t k victim mem).stuck = s.stuck := by
  unfold BufSystem.enter at h ⊢
  split at h
  · rcases getElem?_set_some h with ⟨-, he⟩ | ⟨hne, -⟩
    · cases he
    · exact absurd rfl hne
  next hflush =>
  rw [if_neg hflush]
  split at h
  · exact absurd h set_idle_ne
  · exact place_flushing h
  · split at h
    · exact absurd h set_idle_ne
    next hfull =>
    split at h
    · exact absurd h set_idle_ne
    · next hmem =>
      rw [if_neg hfull, if_neg hmem]
      exact place_flushing h

/-- A call whose write-back is done is a run of the steps of the buffer system. -/
theorem getDerived_run (hlock : s.stuck = false) (ht : s.calls[t]? = some (.start k)) :
    ∃ es, Run (Step min max) s es (getDerived min max t k mem .done s) := by
  have henter : Step min max s (.enter t (s.unused min) mem) (s.enter max t k (s.unused min) mem) :=
    .enter ht hlock (unused_ok min s)
  unfold getDerived
  split
  · next k' c hc =>
    obtain ⟨rfl, hstuck⟩ := enter_flushing hc
    have hlt : t < ((s.enter max t k' (s.unused min) mem).flush c).calls.length := by
      rw [flush_calls]
      exact (List.getElem?_eq_some_iff.mp hc).1
    refine ⟨_, .snoc (.snoc (Run.single henter) (.writeBack hc))
      (.finish (List.getElem?_set_self hlt) ?_)⟩
    show ((s.enter max t k' (s.unused min) mem).flush c).stuck = false
    rw [flush_frame]
    exact hstuck.trans hlock
  · exact ⟨_, Run.single henter⟩

/-- The cache holds the dirty buffer of key 3, and a call asks for key 5. -/
def oneDirty : BufSystem Nat Nat :=
  { init (fun _ => 0) 0 with
    bufferList := ⟨[0], []⟩
    bufs := fun _ => ⟨some 3, true, true, 9⟩
    next := 1
    calls := [.start 5] }

/-- The buffer is written back and takes key 5. -/
theorem cleanExit_written : CleanExit 5 oneDirty (getDerived 1 2 0 5 true .done oneDirty) :=
  (cleanExit_iff rfl rfl (by decide) rfl).mpr fun _ _ => ⟨by decide, 3, rfl, .inl ⟨rfl, rfl⟩⟩

/-- The write-back fails, and the buffer stays in `flush_list`. No memory for a new buffer: the lock
stays held. -/
theorem not_cleanExit : ¬ CleanExit 5 oneDirty (getDerived 1 2 0 5 true .failed oneDirty) ∧
    ¬ CleanExit 5 oneDirty (getDerived 2 2 0 5 false .done oneDirty) := by
  constructor
  · intro h
    have hnil : [0] = ([] : List BufId) := h.flush
    cases hnil
  · intro h
    have hstuck : true = false := h.lock
    cases hstuck

end BufSystem

end CoroCore
