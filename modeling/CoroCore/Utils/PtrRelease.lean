import CoroCore.Lib.Tally
import CoroCore.Utils.SharedPtr

/-!
# Releases

`Inv ex s t` is the invariant of the handles while the stack `t` is run: a pending release counts as
a handle, and the handle `ex` that is being assigned to does not count, since its old fields are
released already. The control blocks and the objects without handles are exactly those that are
about to be deleted. Every task preserves this (`runTask_spec`), so that a whole release does
(`runTasks_spec`), and it ends.

`Doomed s h p` says which objects a release of `h` deletes: those whose handles are `h` itself and
members of such objects.
-/

namespace CoroCore

open Lib

/-- The fields of a `shared_ptr` with the control block `c`. -/
def isShared (c : Nat) : Option Handle → Bool
  | some (.shared _ c') => c' = c
  | _ => false

/-- The fields of a `weak_ptr` with the control block `c`. -/
def isWeak (c : Nat) : Option Handle → Bool
  | some (.weak _ c') => c' = c
  | _ => false

namespace PtrTask

def isRelease (c : Nat) : PtrTask → Bool
  | .release _ c' => c' = c
  | _ => false

def isReleaseWeak (c : Nat) : PtrTask → Bool
  | .releaseWeak c' => c' = c
  | _ => false

end PtrTask

namespace Ptrs

variable {s s' : Ptrs} {ex : Option Nat} {t : List PtrTask} {a : PtrTask} {c p h x : Nat}

/-! ## The invariant -/

/-- The handles that count. -/
def view (s : Ptrs) (ex : Option Nat) (x : Nat) : Option Handle :=
  if ex = some x then none else s.handle x

/-- The `shared_ptr`s of a control block, with the pending releases. -/
def refs (s : Ptrs) (ex : Option Nat) (t : List PtrTask) (c : Nat) : Nat :=
  tally s.next (isShared c) (s.view ex) + t.countP (PtrTask.isRelease c)

/-- The `weak_ptr`s of a control block, with the pending releases. -/
def weaks (s : Ptrs) (ex : Option Nat) (t : List PtrTask) (c : Nat) : Nat :=
  tally s.next (isWeak c) (s.view ex) + t.countP (PtrTask.isReleaseWeak c)

/-- An object whose pointer was given to a `shared_ptr`. -/
def Managed (s : Ptrs) (p : Nat) : Prop := s.obj p ≠ none ∧ s.raw p = false

instance (s : Ptrs) (p : Nat) : Decidable (s.Managed p) :=
  inferInstanceAs (Decidable (s.obj p ≠ none ∧ s.raw p = false))

/-- The fields of a `shared_ptr` are null, or an object with the control block made for it last. -/
def Valid (s : Ptrs) (p c : Nat) : Prop :=
  p = 0 ∧ c = 0 ∨ c ≠ 0 ∧ s.objOf c = p ∧ s.current p = c ∧ s.Managed p ∧ s.cb c ≠ none

/-- The object of a `weak_ptr` may be gone. -/
def ValidWeak (s : Ptrs) (p c : Nat) : Prop := c = 0 ∨ s.objOf c = p ∧ s.cb c ≠ none

structure Inv (ex : Option Nat) (s : Ptrs) (t : List PtrTask) : Prop where
  safe : s.dangling = false
  shared : ∀ x p c, s.view ex x = some (.shared p c) → s.Valid p c
  weak : ∀ x p c, s.view ex x = some (.weak p c) → s.ValidWeak p c
  release : ∀ p c, .release p c ∈ t → s.Valid p c
  releaseWeak : ∀ c, .releaseWeak c ∈ t → c = 0 ∨ s.cb c ≠ none
  count : ∀ c r, s.cb c = some r →
    r.refCount = s.refs ex t c ∧ r.weakCount = s.refs ex t c + s.weaks ex t c
  cbTask : ∀ c, t.count (.deleteCb c) = if s.cb c = some ⟨0, 0⟩ then 1 else 0
  objTask : ∀ p, t.count (.delete p) =
    if s.Managed p ∧ s.refs ex t (s.current p) = 0 then 1 else 0
  current : ∀ p, s.Managed p → s.objOf (s.current p) = p ∧ s.current p ≠ 0
  member : ∀ p ms, s.obj p = some ms →
    p ≠ 0 ∧ ms.Nodup ∧ ∀ x ∈ ms, s.home x = p ∧ s.handle x ≠ none
  destroy : ∀ x, t.count (.destroy x) ≤ 1 ∧
    (.destroy x ∈ t → s.handle x ≠ none ∧ s.obj (s.home x) = none)
  handleBound : ∀ x, s.handle x ≠ none → x < s.next
  objBound : ∀ p, s.obj p ≠ none → p < s.next
  cbBound : ∀ c, s.cb c ≠ none → c < s.next ∧ c ≠ 0
  apart : ∀ i, s.obj i ≠ none → s.cb i = none
  freedNodup : s.freed.Nodup
  freedDead : ∀ i ∈ s.freed, i < s.next ∧ s.obj i = none ∧ s.cb i = none

theorem refs_cons : s.refs ex (a :: t) c = s.refs ex t c + (a.isRelease c).toNat := by
  rw [refs, refs, List.countP_cons, Nat.add_assoc]
  cases a.isRelease c <;> rfl

theorem weaks_cons : s.weaks ex (a :: t) c = s.weaks ex t c + (a.isReleaseWeak c).toNat := by
  rw [weaks, weaks, List.countP_cons, Nat.add_assoc]
  cases a.isReleaseWeak c <;> rfl

/-- Tasks that release nothing. -/
theorem refs_append {u : List PtrTask} (hu : ∀ a ∈ u, a.isRelease c = false) :
    s.refs ex (u ++ t) c = s.refs ex t c := by
  rw [refs, refs, List.countP_append, List.countP_eq_zero.mpr fun a ha => by simp [hu a ha],
    Nat.zero_add]

theorem weaks_append {u : List PtrTask} (hu : ∀ a ∈ u, a.isReleaseWeak c = false) :
    s.weaks ex (u ++ t) c = s.weaks ex t c := by
  rw [weaks, weaks, List.countP_append, List.countP_eq_zero.mpr fun a ha => by simp [hu a ha],
    Nat.zero_add]

theorem Inv.obj_ne_zero (h : Inv ex s t) (hp : s.Managed p) : p ≠ 0 := by
  obtain ⟨ms, hms⟩ := Option.ne_none_iff_exists'.mp hp.1
  exact (h.member p ms hms).1

theorem Inv.cb_ne_zero (h : Inv ex s t) (hc : s.cb c ≠ none) : c ≠ 0 := (h.cbBound c hc).2

/-- A handle or a pending release of a control block. -/
theorem Inv.refs_pos (h : Inv ex s t) (hpos : 0 < s.refs ex t c) (hc : c ≠ 0) :
    s.cb c ≠ none ∧ s.current (s.objOf c) = c ∧ s.Managed (s.objOf c) := by
  have hval : ∀ p, s.Valid p c →
      s.cb c ≠ none ∧ s.current (s.objOf c) = c ∧ s.Managed (s.objOf c) := by
    rintro p (⟨-, h0⟩ | ⟨-, rfl, hcur, hobj, hcb⟩)
    · exact absurd h0 hc
    · exact ⟨hcb, hcur, hobj⟩
  rcases Nat.eq_zero_or_pos (tally s.next (isShared c) (s.view ex)) with hz | hp
  · have : 0 < t.countP (PtrTask.isRelease c) := by
      unfold refs at hpos
      omega
    obtain ⟨a, ha, hrel⟩ := List.countP_pos_iff.mp this
    cases a with
    | release p c' =>
      obtain rfl : c' = c := by simpa [PtrTask.isRelease] using hrel
      exact hval p (h.release p c' ha)
    | _ => cases hrel
  · obtain ⟨x, -, hx⟩ := tally_pos.mp hp
    rcases hv : s.view ex x with _ | ⟨p, c'⟩ | ⟨p, c'⟩
    · rw [hv] at hx
      cases hx
    · rw [hv] at hx
      obtain rfl : c' = c := by simpa [isShared] using hx
      exact hval p (h.shared x p c' hv)
    · rw [hv] at hx
      cases hx

theorem view_ne_none (hv : s.view ex x ≠ none) : s.handle x ≠ none := by
  unfold view at hv
  split at hv
  · exact absurd rfl hv
  · exact hv

theorem refs_pos_of_view (hx : x < s.next) (hv : s.view ex x = some (.shared p c)) :
    0 < s.refs ex t c := by
  have hpos : 0 < tally s.next (isShared c) (s.view ex) :=
    tally_pos.mpr ⟨x, hx, by simp [hv, isShared]⟩
  unfold refs
  omega

theorem Inv.refs_pos_of_handle (h : Inv ex s t) (hv : s.view ex x = some (.shared p c)) :
    0 < s.refs ex t c :=
  refs_pos_of_view (h.handleBound x (view_ne_none (by rw [hv]; simp))) hv

theorem refs_pos_of_release (hm : .release p c ∈ t) : 0 < s.refs ex t c := by
  have hpos : 0 < t.countP (PtrTask.isRelease c) :=
    List.countP_pos_iff.mpr ⟨_, hm, by simp [PtrTask.isRelease]⟩
  unfold refs
  omega

theorem Inv.weaks_pos_of_handle (h : Inv ex s t) (hv : s.view ex x = some (.weak p c)) :
    0 < s.weaks ex t c := by
  have hx := h.handleBound x (view_ne_none (by rw [hv]; simp))
  have hpos : 0 < tally s.next (isWeak c) (s.view ex) :=
    tally_pos.mpr ⟨x, hx, by simp [hv, isWeak]⟩
  unfold weaks
  omega

theorem weaks_pos_of_release (hm : .releaseWeak c ∈ t) : 0 < s.weaks ex t c := by
  have hpos : 0 < t.countP (PtrTask.isReleaseWeak c) :=
    List.countP_pos_iff.mpr ⟨_, hm, by simp [PtrTask.isReleaseWeak]⟩
  unfold weaks
  omega

theorem view_update {v : Option Handle} (hx : ex ≠ some x) :
    view { s with handle := Function.update s.handle x v } ex =
      Function.update (s.view ex) x v := by
  funext y
  by_cases hy : y = x
  · subst hy
    simp [view, hx]
  · simp [view, hy]

theorem refs_update {v : Option Handle} (hx : ex ≠ some x) (hlt : x < s.next) :
    refs { s with handle := Function.update s.handle x v } ex t c +
      (isShared c (s.view ex x)).toNat = s.refs ex t c + (isShared c v).toNat := by
  have := tally_update (P := isShared c) (f := s.view ex) (v := v) hlt
  simp only [refs, view_update hx]
  omega

theorem weaks_update {v : Option Handle} (hx : ex ≠ some x) (hlt : x < s.next) :
    weaks { s with handle := Function.update s.handle x v } ex t c +
      (isWeak c (s.view ex x)).toNat = s.weaks ex t c + (isWeak c v).toNat := by
  have := tally_update (P := isWeak c) (f := s.view ex) (v := v) hlt
  simp only [weaks, view_update hx]
  omega

/-! ## One task -/

/-- The fields stay valid if the object and the control block stay. -/
theorem Valid.congr (h : s.Valid p c) (hof : s'.objOf = s.objOf) (hcur : s'.current = s.current)
    (hobj : s.Managed p → s'.Managed p) (hcb : s.cb c ≠ none → s'.cb c ≠ none) :
    s'.Valid p c := by
  rcases h with h | ⟨h0, h1, h2, h3, h4⟩
  · exact Or.inl h
  · exact Or.inr ⟨h0, by rw [hof, h1], by rw [hcur, h2], hobj h3, hcb h4⟩

theorem ValidWeak.congr (h : s.ValidWeak p c) (hof : s'.objOf = s.objOf)
    (hcb : s.cb c ≠ none → s'.cb c ≠ none) : s'.ValidWeak p c := by
  rcases h with h | ⟨h1, h2⟩
  · exact Or.inl h
  · exact Or.inr ⟨by rw [hof, h1], hcb h2⟩

/-- The release of a null handle. -/
theorem Inv.dropNull (h : Inv ex s (a :: t)) (ha : a = .release 0 0 ∨ a = .releaseWeak 0) :
    Inv ex s t := by
  have hrefs : ∀ c, c ≠ 0 → s.refs ex (a :: t) c = s.refs ex t c := by
    intro c hc
    rw [refs_cons]
    rcases ha with rfl | rfl
    · simp [PtrTask.isRelease, Ne.symm hc]
    · rfl
  have hweaks : ∀ c, c ≠ 0 → s.weaks ex (a :: t) c = s.weaks ex t c := by
    intro c hc
    rw [weaks_cons]
    rcases ha with rfl | rfl
    · rfl
    · simp [PtrTask.isReleaseWeak, Ne.symm hc]
  have hcount : ∀ b, a ≠ b → (a :: t).count b = t.count b := fun b hb => List.count_cons_of_ne hb
  refine { h with
    release := fun p c hm => h.release p c (List.mem_cons_of_mem _ hm)
    releaseWeak := fun c hm => h.releaseWeak c (List.mem_cons_of_mem _ hm)
    count := fun c r hr => ?_
    cbTask := fun c => ?_
    objTask := fun p => ?_
    destroy := fun x => ⟨?_, fun hm => (h.destroy x).2 (List.mem_cons_of_mem _ hm)⟩ }
  · have hc := h.cb_ne_zero (c := c) (by rw [hr]; simp)
    have := h.count c r hr
    rwa [hrefs c hc, hweaks c hc] at this
  · have := h.cbTask c
    rwa [hcount _ (by rcases ha with rfl | rfl <;> simp)] at this
  · have := h.objTask p
    rw [hcount _ (by rcases ha with rfl | rfl <;> simp)] at this
    rw [this]
    by_cases hp : s.Managed p
    · rw [hrefs _ (h.current p hp).2]
    · simp [hp]
  · have := (h.destroy x).1
    rwa [hcount _ (by rcases ha with rfl | rfl <;> simp)] at this

theorem count_ite {α : Type*} [DecidableEq α] (P : Prop) [Decidable P] (a b : α) :
    (if P then [a] else []).count b = if b = a ∧ P then 1 else 0 := by
  by_cases hP : P
  · by_cases hb : b = a
    · subst hb
      simp [hP]
    · simp [hP, hb, Ne.symm hb]
  · simp [hP]

theorem runTask_release {r : RefCount} (hp : p ≠ 0) (hc : c ≠ 0) (hr : s.cb c = some r) :
    s.runTask (.release p c) = ({ s with cb := Function.update s.cb c (some (decRef r)) },
      (if (decRef r).refCount = 0 then [.delete p] else []) ++
        (if (decRef r).weakCount = 0 then [.deleteCb c] else [])) := by
  simp [runTask, updateCb, hp, hc, hr]

/-- A pending release is done: the counters of its control block are lowered, and what nothing
refers to any more is to be deleted. -/
theorem Inv.consume {u : List PtrTask} (h : Inv ex s (a :: t)) (hcb : s.cb c ≠ none)
    (ha : ∀ d x, a ≠ .deleteCb d ∧ a ≠ .destroy x)
    (hold : s.cb c ≠ some ⟨0, 0⟩)
    (hrefs : ∀ d, d ≠ c → s.refs ex (a :: t) d = s.refs ex t d)
    (hweaks : ∀ d, d ≠ c → s.weaks ex (a :: t) d = s.weaks ex t d)
    (hmem : ∀ b ∈ u, b = .delete p ∨ b = .deleteCb c)
    (hucb : u.count (.deleteCb c) = if s.refs ex t c + s.weaks ex t c = 0 then 1 else 0)
    (huobj : ∀ q, u.count (.delete q) + t.count (.delete q) =
      if s.Managed q ∧ s.refs ex t (s.current q) = 0 then 1 else 0) :
    Inv ex { s with
      cb := Function.update s.cb c (some ⟨s.refs ex t c, s.refs ex t c + s.weaks ex t c⟩) }
      (u ++ t) := by
  have hnorel : ∀ d, ∀ b ∈ u, b.isRelease d = false := by
    intro d b hb
    rcases hmem b hb with rfl | rfl <;> rfl
  have hnoweak : ∀ d, ∀ b ∈ u, b.isReleaseWeak d = false := by
    intro d b hb
    rcases hmem b hb with rfl | rfl <;> rfl
  have hnone : ∀ b, b ≠ .delete p → b ≠ .deleteCb c → u.count b = 0 := by
    intro b hp hc
    exact List.count_eq_zero.mpr fun hb => (hmem b hb).elim hp hc
  have htail : ∀ b, b ≠ .delete p → b ≠ .deleteCb c → b ∈ u ++ t → b ∈ a :: t := by
    intro b hp hc hb
    rcases List.mem_append.mp hb with hb | hb
    · exact absurd (hmem b hb) (by simp [hp, hc])
    · exact List.mem_cons_of_mem _ hb
  have hcb' : ∀ d, s.cb d ≠ none → Function.update s.cb c
      (some ⟨s.refs ex t c, s.refs ex t c + s.weaks ex t c⟩) d ≠ none := by
    intro d hne
    by_cases he : d = c
    · subst he
      simp
    · rwa [Function.update_of_ne he]
  refine ⟨h.safe, fun x q d hv => (h.shared x q d hv).congr rfl rfl id (hcb' d),
    fun x q d hv => (h.weak x q d hv).congr rfl (hcb' d), fun q d hm => ?_, fun d hm => ?_,
    fun d r' hr' => ?_, fun d => ?_, fun q => ?_, h.current, h.member, fun x => ⟨?_, fun hm => ?_⟩,
    h.handleBound, h.objBound, fun d hd => ?_, fun i hi => ?_, h.freedNodup, fun i hi => ?_⟩
  · exact (h.release q d (htail _ (by simp) (by simp) hm)).congr rfl rfl id (hcb' d)
  · exact (h.releaseWeak d (htail _ (by simp) (by simp) hm)).imp_right (hcb' d)
  · show r'.refCount = s.refs ex (u ++ t) d ∧
      r'.weakCount = s.refs ex (u ++ t) d + s.weaks ex (u ++ t) d
    rw [refs_append (hnorel d), weaks_append (hnoweak d)]
    by_cases hd : d = c
    · subst hd
      simp only [Function.update_self, Option.some.injEq] at hr'
      subst hr'
      exact ⟨rfl, rfl⟩
    · simp only [Function.update_of_ne hd] at hr'
      have := h.count d r' hr'
      rwa [hrefs d hd, hweaks d hd] at this
  · have htask := h.cbTask d
    rw [List.count_cons_of_ne (ha d 0).1] at htask
    rw [List.count_append, htask]
    by_cases hd : d = c
    · subst hd
      rw [hucb, if_neg hold]
      simp
    · rw [hnone _ (by simp) (by simp [hd])]
      simp [hd]
  · show (u ++ t).count (.delete q) =
      if s.Managed q ∧ s.refs ex (u ++ t) (s.current q) = 0 then 1 else 0
    rw [List.count_append, refs_append (hnorel _)]
    exact huobj q
  · have := (h.destroy x).1
    rw [List.count_cons_of_ne (ha 0 x).2] at this
    rwa [List.count_append, hnone _ (by simp) (by simp), Nat.zero_add]
  · exact (h.destroy x).2 (htail _ (by simp) (by simp) hm)
  · by_cases he : d = c
    · subst he
      exact h.cbBound d hcb
    · exact h.cbBound d (by simpa only [Function.update_of_ne he] using hd)
  · have h3 := h.apart i hi
    have hne : i ≠ c := by
      rintro rfl
      exact hcb h3
    simpa only [Function.update_of_ne hne] using h3
  · obtain ⟨h1, h2, h3⟩ := h.freedDead i hi
    have hne : i ≠ c := by
      rintro rfl
      exact hcb h3
    exact ⟨h1, h2, by simpa only [Function.update_of_ne hne] using h3⟩

theorem inv_release (h : Inv ex s (.release p c :: t)) :
    Inv ex (s.runTask (.release p c)).1 ((s.runTask (.release p c)).2 ++ t) := by
  rcases h.release p c (by simp) with ⟨rfl, rfl⟩ | ⟨hc, hof, hcur, hobj, hcb⟩
  · simpa [runTask] using h.dropNull (Or.inl rfl)
  obtain ⟨r, hr⟩ := Option.ne_none_iff_exists'.mp hcb
  obtain ⟨href, hweak⟩ := h.count c r hr
  have hself : s.refs ex (.release p c :: t) c = s.refs ex t c + 1 := by
    rw [refs_cons]
    simp [PtrTask.isRelease]
  have hother : ∀ d, d ≠ c → s.refs ex (.release p c :: t) d = s.refs ex t d := by
    intro d hd
    rw [refs_cons]
    simp [PtrTask.isRelease, Ne.symm hd]
  have hweaks : ∀ d, s.weaks ex (.release p c :: t) d = s.weaks ex t d := fun d => by
    rw [weaks_cons]
    rfl
  rw [hself] at href hweak
  rw [hweaks] at hweak
  have hdec : decRef r = ⟨s.refs ex t c, s.refs ex t c + s.weaks ex t c⟩ := by
    have hw : r.weakCount = (s.refs ex t c + s.weaks ex t c) + 1 := by omega
    simp only [decRef, href, hw, decrement]
  have hold : s.cb c ≠ some ⟨0, 0⟩ := by
    rw [hr]
    intro he
    have hz : r.refCount = 0 := by rw [Option.some.inj he]
    omega
  rw [runTask_release (h.obj_ne_zero hobj) hc hr, hdec]
  refine h.consume hcb (by simp) hold hother (fun d _ => hweaks d) (p := p) ?_ ?_ fun q => ?_
  · intro b hb
    rcases List.mem_append.mp hb with hb | hb
    · split at hb
      · exact Or.inl (List.mem_singleton.mp hb)
      · cases hb
    · split at hb
      · exact Or.inr (List.mem_singleton.mp hb)
      · cases hb
  · rw [List.count_append, count_ite, count_ite]
    simp
  · have htask := h.objTask q
    rw [List.count_cons_of_ne (by simp)] at htask
    rw [List.count_append, count_ite, count_ite, htask]
    by_cases hq : q = p
    · subst hq
      rw [hcur, hself]
      simp [hobj]
    · by_cases hqo : s.Managed q
      · -- the control block belongs to `p`
        have hne : s.current q ≠ c := by
          intro he
          have := (h.current q hqo).1
          rw [he, hof] at this
          exact hq this.symm
        rw [hother _ hne]
        simp [hq]
      · simp [hq, hqo]

theorem inv_releaseWeak (h : Inv ex s (.releaseWeak c :: t)) :
    Inv ex (s.runTask (.releaseWeak c)).1 ((s.runTask (.releaseWeak c)).2 ++ t) := by
  rcases eq_or_ne c 0 with rfl | hc
  · simpa [runTask] using h.dropNull (Or.inr rfl)
  have hcb : s.cb c ≠ none := (h.releaseWeak c (by simp)).resolve_left hc
  obtain ⟨r, hr⟩ := Option.ne_none_iff_exists'.mp hcb
  obtain ⟨href, hweak⟩ := h.count c r hr
  have hrefs : ∀ d, s.refs ex (.releaseWeak c :: t) d = s.refs ex t d := fun d => by
    rw [refs_cons]
    rfl
  have hself : s.weaks ex (.releaseWeak c :: t) c = s.weaks ex t c + 1 := by
    rw [weaks_cons]
    simp [PtrTask.isReleaseWeak]
  have hother : ∀ d, d ≠ c → s.weaks ex (.releaseWeak c :: t) d = s.weaks ex t d := by
    intro d hd
    rw [weaks_cons]
    simp [PtrTask.isReleaseWeak, Ne.symm hd]
  rw [hrefs] at href hweak
  rw [hself] at hweak
  have hdec : decWeak r = ⟨s.refs ex t c, s.refs ex t c + s.weaks ex t c⟩ := by
    have hw : r.weakCount = (s.refs ex t c + s.weaks ex t c) + 1 := by omega
    simp only [decWeak, href, hw, decrement]
  have hold : s.cb c ≠ some ⟨0, 0⟩ := by
    rw [hr]
    intro he
    have hz : r.weakCount = 0 := by rw [Option.some.inj he]
    omega
  have hrun : s.runTask (.releaseWeak c) =
      ({ s with cb := Function.update s.cb c (some (decWeak r)) },
      if (decWeak r).weakCount = 0 then [.deleteCb c] else []) := by
    simp [runTask, updateCb, hc, hr]
  rw [hrun, hdec]
  refine h.consume hcb (by simp) hold (fun d _ => hrefs d) hother (p := 0) ?_ ?_ fun q => ?_
  · intro b hb
    split at hb
    · exact Or.inr (List.mem_singleton.mp hb)
    · cases hb
  · rw [count_ite]
    simp
  · have htask := h.objTask q
    rw [List.count_cons_of_ne (by simp), hrefs] at htask
    rw [count_ite, htask]
    simp

theorem runTask_destroy {v : Handle} (hv : s.handle x = some v) : ∃ a, s.runTask (.destroy x) =
    ({ s with handle := Function.update s.handle x none }, [a]) ∧
    ((∃ p c, v = .shared p c ∧ a = .release p c) ∨ ∃ p c, v = .weak p c ∧ a = .releaseWeak c) := by
  cases v with
  | shared p c => exact ⟨.release p c, by simp [runTask, hv], Or.inl ⟨p, c, rfl, rfl⟩⟩
  | weak p c => exact ⟨.releaseWeak c, by simp [runTask, hv], Or.inr ⟨p, c, rfl, rfl⟩⟩

/-- A handle is destroyed: from now on it is a pending release. -/
theorem inv_destroy (h : Inv ex s (.destroy x :: t)) (hx : ex ≠ some x) :
    Inv ex (s.runTask (.destroy x)).1 ((s.runTask (.destroy x)).2 ++ t) := by
  obtain ⟨hlive, hhome⟩ := (h.destroy x).2 (by simp)
  obtain ⟨v, hv⟩ := Option.ne_none_iff_exists'.mp hlive
  have hview : s.view ex x = some v := by simp [view, hx, hv]
  have hlt := h.handleBound x hlive
  obtain ⟨a, hrun, ha⟩ := runTask_destroy hv
  rw [hrun]
  simp only [List.singleton_append]
  have hrefs : ∀ d, refs { s with handle := Function.update s.handle x none } ex (a :: t) d =
      s.refs ex (.destroy x :: t) d := by
    intro d
    have hup := refs_update (s := s) (t := t) (c := d) (v := none) hx hlt
    rw [refs_cons, refs_cons]
    rw [hview] at hup
    rcases ha with ⟨p, c, rfl, rfl⟩ | ⟨p, c, rfl, rfl⟩
    · simp only [isShared, PtrTask.isRelease, Bool.toNat_false, Nat.add_zero] at *
      omega
    · simp only [isShared, PtrTask.isRelease, Bool.toNat_false, Nat.add_zero] at *
      omega
  have hweaks : ∀ d, weaks { s with handle := Function.update s.handle x none } ex (a :: t) d =
      s.weaks ex (.destroy x :: t) d := by
    intro d
    have hup := weaks_update (s := s) (t := t) (c := d) (v := none) hx hlt
    rw [weaks_cons, weaks_cons]
    rw [hview] at hup
    rcases ha with ⟨p, c, rfl, rfl⟩ | ⟨p, c, rfl, rfl⟩
    · simp only [isWeak, PtrTask.isReleaseWeak, Bool.toNat_false, Nat.add_zero] at *
      omega
    · simp only [isWeak, PtrTask.isReleaseWeak, Bool.toNat_false, Nat.add_zero] at *
      omega
  have hold : ∀ y, view { s with handle := Function.update s.handle x none } ex y ≠ none →
      view { s with handle := Function.update s.handle x none } ex y = s.view ex y := by
    intro y hy
    rw [view_update hx] at hy ⊢
    by_cases he : y = x
    · subst he
      simp at hy
    · rw [Function.update_of_ne he]
  have hcount : ∀ b, (∀ p c, b ≠ .release p c ∧ b ≠ .releaseWeak c) → a ≠ b := by
    rintro b hb rfl
    rcases ha with ⟨p, c, -, rfl⟩ | ⟨p, c, -, rfl⟩
    · exact (hb p c).1 rfl
    · exact (hb p c).2 rfl
  have hnotin : PtrTask.destroy x ∉ t := by
    have := (h.destroy x).1
    rw [List.count_cons_self] at this
    exact List.count_eq_zero.mp (by omega)
  refine ⟨h.safe, fun y p c hy => ?_, fun y p c hy => ?_, fun p c hm => ?_, fun c hm => ?_,
    fun c r hr => ?_, fun c => ?_, fun p => ?_, h.current, fun p ms hms => ?_,
    fun y => ⟨?_, fun hm => ?_⟩, fun y hy => ?_, h.objBound, h.cbBound, h.apart, h.freedNodup,
    h.freedDead⟩
  · rw [hold y (by rw [hy]; simp)] at hy
    exact h.shared y p c hy
  · rw [hold y (by rw [hy]; simp)] at hy
    exact h.weak y p c hy
  · rcases List.mem_cons.mp hm with he | hm
    · rcases ha with ⟨p', c', rfl, rfl⟩ | ⟨p', c', rfl, rfl⟩
      · cases he
        exact h.shared x p c hview
      · cases he
    · exact h.release p c (List.mem_cons_of_mem _ hm)
  · rcases List.mem_cons.mp hm with he | hm
    · rcases ha with ⟨p', c', rfl, rfl⟩ | ⟨p', c', rfl, rfl⟩
      · cases he
      · cases he
        exact (h.weak x p' c hview).imp_right And.right
    · exact h.releaseWeak c (List.mem_cons_of_mem _ hm)
  · rw [hrefs, hweaks]
    exact h.count c r hr
  · have := h.cbTask c
    rw [List.count_cons_of_ne (by simp)] at this
    rw [List.count_cons_of_ne (hcount _ (by simp)), this]
  · have := h.objTask p
    rw [List.count_cons_of_ne (by simp)] at this
    rw [List.count_cons_of_ne (hcount _ (by simp)), this, hrefs]
    rfl
  · obtain ⟨h0, hnd, hmem⟩ := h.member p ms hms
    refine ⟨h0, hnd, fun y hy => ⟨(hmem y hy).1, ?_⟩⟩
    have hne : y ≠ x := by
      rintro rfl
      rw [(hmem y hy).1, hms] at hhome
      cases hhome
    simp only [Function.update_of_ne hne]
    exact (hmem y hy).2
  · rw [List.count_cons_of_ne (hcount _ (by simp))]
    have := (h.destroy y).1
    rw [List.count_cons] at this
    omega
  · have hm' : PtrTask.destroy y ∈ t := by
      rcases List.mem_cons.mp hm with he | hm
      · exact absurd he.symm (hcount _ (by simp))
      · exact hm
    obtain ⟨h1, h2⟩ := (h.destroy y).2 (List.mem_cons_of_mem _ hm')
    have hne : y ≠ x := by
      rintro rfl
      exact hnotin hm'
    exact ⟨by simpa only [Function.update_of_ne hne] using h1, h2⟩
  · by_cases he : y = x
    · subst he
      exact hlt
    · exact h.handleBound y (by simpa only [Function.update_of_ne he] using hy)

/-- An object without handles is deleted: its members are to be destroyed. -/
theorem inv_delete (h : Inv ex s (.delete p :: t)) :
    Inv ex (s.runTask (.delete p)).1 ((s.runTask (.delete p)).2 ++ t) := by
  have htask := h.objTask p
  rw [List.count_cons_self] at htask
  obtain ⟨⟨hobj, hrefs0⟩, hcount0⟩ :
      (s.Managed p ∧ s.refs ex (.delete p :: t) (s.current p) = 0) ∧ t.count (.delete p) = 0 := by
    split at htask
    · next hyp => exact ⟨hyp, by omega⟩
    · omega
  obtain ⟨ms, hms⟩ := Option.ne_none_iff_exists'.mp hobj.1
  obtain ⟨hp0, hnd, hmem⟩ := h.member p ms hms
  have hrun : s.runTask (.delete p) =
      ({ s with obj := Function.update s.obj p none, freed := p :: s.freed },
        ms.reverse.map .destroy) := by
    simp [runTask, hms]
  rw [hrun]
  have hu : ∀ b ∈ ms.reverse.map PtrTask.destroy, ∃ x ∈ ms, b = .destroy x := by
    intro b hb
    obtain ⟨x, hx, rfl⟩ := List.mem_map.mp hb
    exact ⟨x, List.mem_reverse.mp hx, rfl⟩
  have hnorel : ∀ d, ∀ b ∈ ms.reverse.map PtrTask.destroy, b.isRelease d = false := by
    intro d b hb
    obtain ⟨x, -, rfl⟩ := hu b hb
    rfl
  have hnoweak : ∀ d, ∀ b ∈ ms.reverse.map PtrTask.destroy, b.isReleaseWeak d = false := by
    intro d b hb
    obtain ⟨x, -, rfl⟩ := hu b hb
    rfl
  have hnone : ∀ b, (∀ x, b ≠ .destroy x) → (ms.reverse.map PtrTask.destroy).count b = 0 := by
    intro b hb
    refine List.count_eq_zero.mpr fun hm => ?_
    obtain ⟨x, -, he⟩ := hu b hm
    exact hb x he
  have htail : ∀ b, (∀ x, b ≠ .destroy x) → b ∈ ms.reverse.map PtrTask.destroy ++ t →
      b ∈ PtrTask.delete p :: t := by
    intro b hb hm
    rcases List.mem_append.mp hm with hm | hm
    · obtain ⟨x, -, he⟩ := hu b hm
      exact absurd he (hb x)
    · exact List.mem_cons_of_mem _ hm
  have hrefs : ∀ d, s.refs ex (.delete p :: t) d = s.refs ex t d := fun d => by
    rw [refs_cons]
    rfl
  have hweaks : ∀ d, s.weaks ex (.delete p :: t) d = s.weaks ex t d := fun d => by
    rw [weaks_cons]
    rfl
  -- nothing refers to `p`
  have hvalid : ∀ q d, 0 < s.refs ex (.delete p :: t) d → s.Valid q d →
      Valid { s with obj := Function.update s.obj p none, freed := p :: s.freed } q d := by
    intro q d hpos hval
    refine hval.congr rfl rfl (fun hq => ⟨?_, hq.2⟩) id
    have hne : q ≠ p := by
      rintro rfl
      rcases hval with ⟨h0, -⟩ | ⟨-, -, hcur, -⟩
      · exact hp0 h0
      · rw [hcur] at hrefs0
        omega
    simpa only [Function.update_of_ne hne] using hq.1
  refine ⟨h.safe, fun x q d hv => hvalid q d (h.refs_pos_of_handle hv) (h.shared x q d hv),
    fun x q d hv => (h.weak x q d hv).congr rfl id, fun q d hm => ?_, fun d hm => ?_,
    fun d r hr => ?_, fun d => ?_, fun q => ?_, fun q hq => ?_, fun q ms' hms' => ?_,
    fun x => ⟨?_, fun hm => ?_⟩, h.handleBound, fun q hq => ?_, h.cbBound, fun i hi => ?_, ?_,
    fun i hi => ?_⟩
  · have hm' := htail _ (by simp) hm
    exact hvalid q d (refs_pos_of_release hm') (h.release q d hm')
  · exact h.releaseWeak d (htail _ (by simp) hm)
  · show r.refCount = s.refs ex (_ ++ t) d ∧
      r.weakCount = s.refs ex (_ ++ t) d + s.weaks ex (_ ++ t) d
    rw [refs_append (hnorel d), weaks_append (hnoweak d), ← hrefs, ← hweaks]
    exact h.count d r hr
  · have := h.cbTask d
    rw [List.count_cons_of_ne (by simp)] at this
    rw [List.count_append, hnone _ (by simp), Nat.zero_add, this]
  · show (_ ++ t).count (.delete q) =
      if (Function.update s.obj p none q ≠ none ∧ s.raw q = false) ∧
        s.refs ex (_ ++ t) (s.current q) = 0 then 1 else 0
    rw [List.count_append, hnone _ (by simp), Nat.zero_add, refs_append (hnorel _), ← hrefs]
    by_cases hq : q = p
    · subst hq
      simp [hcount0]
    · have := h.objTask q
      rw [List.count_cons_of_ne (by simp [Ne.symm hq])] at this
      rw [this, Function.update_of_ne hq]
      rfl
  · have hne : q ≠ p := by
      rintro rfl
      exact hq.1 (by simp)
    exact h.current q ⟨by simpa only [Function.update_of_ne hne] using hq.1, hq.2⟩
  · have hne : q ≠ p := by
      rintro rfl
      simp at hms'
    exact h.member q ms' (by simpa only [Function.update_of_ne hne] using hms')
  · rw [List.count_append, List.count_map_of_injective _ _ (fun _ _ => PtrTask.destroy.inj),
      List.count_reverse]
    have hold := (h.destroy x).1
    rw [List.count_cons_of_ne (by simp)] at hold
    by_cases hx : x ∈ ms
    · have hnot : PtrTask.destroy x ∉ t := by
        intro hm
        have := ((h.destroy x).2 (List.mem_cons_of_mem _ hm)).2
        rw [(hmem x hx).1, hms] at this
        cases this
      rw [List.count_eq_zero.mpr hnot]
      exact List.nodup_iff_count_le_one.mp hnd x
    · rw [List.count_eq_zero.mpr hx]
      omega
  · rcases List.mem_append.mp hm with hm | hm
    · obtain ⟨y, hy, he⟩ := hu _ hm
      cases he
      exact ⟨(hmem x hy).2, by simp [(hmem x hy).1]⟩
    · obtain ⟨h1, h2⟩ := (h.destroy x).2 (List.mem_cons_of_mem _ hm)
      refine ⟨h1, ?_⟩
      by_cases he : s.home x = p
      · simp [he]
      · simpa only [Function.update_of_ne he] using h2
  · have hne : q ≠ p := by
      rintro rfl
      exact hq (by simp)
    exact h.objBound q (by simpa only [Function.update_of_ne hne] using hq)
  · have hne : i ≠ p := by
      rintro rfl
      exact hi (by simp)
    exact h.apart i (by simpa only [Function.update_of_ne hne] using hi)
  · refine List.nodup_cons.mpr ⟨fun hin => ?_, h.freedNodup⟩
    exact hobj.1 (h.freedDead p hin).2.1
  · rcases List.mem_cons.mp hi with rfl | hi
    · exact ⟨h.objBound i hobj.1, by simp, h.apart i hobj.1⟩
    · obtain ⟨h1, h2, h3⟩ := h.freedDead i hi
      refine ⟨h1, ?_, h3⟩
      by_cases he : i = p
      · simp [he]
      · simpa only [Function.update_of_ne he] using h2

/-- A control block without handles is deleted. -/
theorem inv_deleteCb (h : Inv ex s (.deleteCb c :: t)) :
    Inv ex (s.runTask (.deleteCb c)).1 ((s.runTask (.deleteCb c)).2 ++ t) := by
  have htask := h.cbTask c
  rw [List.count_cons_self] at htask
  obtain ⟨hcb, hcount0⟩ : s.cb c = some ⟨0, 0⟩ ∧ t.count (.deleteCb c) = 0 := by
    split at htask
    · next hyp => exact ⟨hyp, by omega⟩
    · omega
  have hrefs : ∀ d, s.refs ex (.deleteCb c :: t) d = s.refs ex t d := fun d => by
    rw [refs_cons]
    rfl
  have hweaks : ∀ d, s.weaks ex (.deleteCb c :: t) d = s.weaks ex t d := fun d => by
    rw [weaks_cons]
    rfl
  obtain ⟨hr0, hw0⟩ := h.count c _ hcb
  simp only at hr0 hw0
  have hrun : s.runTask (.deleteCb c) = ({ s with cb := Function.update s.cb c none
                                                  freed := c :: s.freed }, []) := by
    simp [runTask, hcb]
  rw [hrun, List.nil_append]
  -- nothing refers to `c`
  have hkeep : ∀ d, d ≠ c → s.cb d ≠ none → Function.update s.cb c none d ≠ none := by
    intro d hd hne
    rwa [Function.update_of_ne hd]
  have hback : ∀ d r, Function.update s.cb c none d = some r → d ≠ c ∧ s.cb d = some r := by
    intro d r hr
    have hne : d ≠ c := by
      rintro rfl
      simp at hr
    exact ⟨hne, by rwa [Function.update_of_ne hne] at hr⟩
  have hshared : ∀ d, 0 < s.refs ex (.deleteCb c :: t) d → d ≠ c := by
    rintro d hpos rfl
    omega
  have hweak : ∀ d, 0 < s.weaks ex (.deleteCb c :: t) d → d ≠ c := by
    rintro d hpos rfl
    omega
  refine ⟨h.safe, fun x q d hv => ?_, fun x q d hv => ?_, fun q d hm => ?_, fun d hm => ?_,
    fun d r hr => ?_, fun d => ?_, fun q => ?_, h.current, h.member, fun x => ⟨?_, fun hm => ?_⟩,
    h.handleBound, h.objBound, fun d hd => ?_, fun i hi => ?_, ?_, fun i hi => ?_⟩
  · exact (h.shared x q d hv).congr rfl rfl id (hkeep d (hshared d (h.refs_pos_of_handle hv)))
  · exact (h.weak x q d hv).congr rfl (hkeep d (hweak d (h.weaks_pos_of_handle hv)))
  · have hm' := List.mem_cons_of_mem (PtrTask.deleteCb c) hm
    exact (h.release q d hm').congr rfl rfl id (hkeep d (hshared d (refs_pos_of_release hm')))
  · have hm' := List.mem_cons_of_mem (PtrTask.deleteCb c) hm
    exact (h.releaseWeak d hm').imp_right (hkeep d (hweak d (weaks_pos_of_release hm')))
  · show r.refCount = s.refs ex t d ∧ r.weakCount = s.refs ex t d + s.weaks ex t d
    rw [← hrefs, ← hweaks]
    exact h.count d r (hback d r hr).2
  · by_cases hd : d = c
    · subst hd
      simp [hcount0]
    · have := h.cbTask d
      rw [List.count_cons_of_ne (by simp [Ne.symm hd])] at this
      simp only [this, Function.update_of_ne hd]
  · show t.count (.delete q) = if s.Managed q ∧ s.refs ex t (s.current q) = 0 then 1 else 0
    have := h.objTask q
    rw [List.count_cons_of_ne (by simp), hrefs] at this
    exact this
  · have := (h.destroy x).1
    rwa [List.count_cons_of_ne (by simp)] at this
  · exact (h.destroy x).2 (List.mem_cons_of_mem _ hm)
  · obtain ⟨r, hr⟩ := Option.ne_none_iff_exists'.mp hd
    exact h.cbBound d (by rw [(hback d r hr).2]; simp)
  · have := h.apart i hi
    by_cases he : i = c
    · simp [he]
    · simpa only [Function.update_of_ne he] using this
  · refine List.nodup_cons.mpr ⟨fun hin => ?_, h.freedNodup⟩
    have := (h.freedDead c hin).2.2
    rw [hcb] at this
    cases this
  · rcases List.mem_cons.mp hi with rfl | hi
    · refine ⟨(h.cbBound i (by rw [hcb]; simp)).1, ?_, by simp⟩
      by_contra hobj
      have := h.apart i hobj
      rw [hcb] at this
      cases this
    · obtain ⟨h1, h2, h3⟩ := h.freedDead i hi
      refine ⟨h1, h2, ?_⟩
      by_cases he : i = c
      · simp [he]
      · simpa only [Function.update_of_ne he] using h3

/-! ## A whole release -/

/-- The objects that a release of `h` deletes. -/
inductive Doomed (s : Ptrs) (h : Nat) : Nat → Prop
  | intro {p : Nat} : p ≠ 0 → s.raw p = false →
      (∀ x c, s.handle x = some (.shared p c) → x ≠ h → Doomed s h (s.home x)) → Doomed s h p

/-- How far a release of `h` has come since the state `s₀`. What is gone, or about to be destroyed,
is `h` or a member of a doomed object. -/
structure Since (s₀ : Ptrs) (h : Nat) (ex : Option Nat) (s : Ptrs) (t : List PtrTask) : Prop where
  home : s.home = s₀.home
  next : s.next = s₀.next
  raw : s.raw = s₀.raw
  objOf : s.objOf = s₀.objOf
  current : s.current = s₀.current
  handle : ∀ x v, s₀.handle x = some v →
    s.handle x = some v ∨ x = h ∧ ex ≠ some h ∨ Doomed s₀ h (s₀.home x)
  old : ∀ x v, s.handle x = some v → s₀.handle x = some v
  destroy : ∀ x, .destroy x ∈ t → x = h ∧ ex ≠ some h ∨ Doomed s₀ h (s₀.home x)
  delete : ∀ p, .delete p ∈ t → Doomed s₀ h p
  obj : ∀ p, s₀.obj p ≠ none → s.obj p ≠ none ∨ Doomed s₀ h p

section Since

variable {s₀ : Ptrs}

/-- A task that changes counters only, and pushes nothing but deletions. -/
theorem Since.counters (hs : Since s₀ h ex s (a :: t)) {u : List PtrTask}
    (hstate : s'.home = s.home ∧ s'.next = s.next ∧ s'.raw = s.raw ∧ s'.objOf = s.objOf ∧
      s'.current = s.current ∧
      s'.handle = s.handle ∧ s'.obj = s.obj)
    (hdestroy : ∀ x, .destroy x ∉ u) (hdelete : ∀ p, .delete p ∈ u → Doomed s₀ h p) :
    Since s₀ h ex s' (u ++ t) := by
  obtain ⟨h1, h2, h0, h3, h4, h5, h6⟩ := hstate
  refine ⟨h1.trans hs.home, h2.trans hs.next, h0.trans hs.raw, h3.trans hs.objOf,
    h4.trans hs.current, fun x v hv => ?_, fun x v hv => ?_, fun x hm => ?_, fun p hm => ?_,
    fun p hp => ?_⟩
  · rw [h5]
    exact hs.handle x v hv
  · rw [h5] at hv
    exact hs.old x v hv
  · rcases List.mem_append.mp hm with hm | hm
    · exact absurd hm (hdestroy x)
    · exact hs.destroy x (List.mem_cons_of_mem _ hm)
  · rcases List.mem_append.mp hm with hm | hm
    · exact hdelete p hm
    · exact hs.delete p (List.mem_cons_of_mem _ hm)
  · rw [h6]
    exact hs.obj p hp

/-- An object whose last handle is released is doomed. -/
theorem Since.doomed (hs : Since s₀ h ex s (.release p c :: t))
    (hinv : Inv ex s (.release p c :: t)) (hex : ∀ x, ex = some x → x = h) (hp : p ≠ 0)
    (hraw : s.raw p = false) (hcur : s.current p = c) (hzero : s.refs ex t c = 0) :
    Doomed s₀ h p := by
  refine .intro hp (by rw [← hs.raw, hraw]) fun x d hx hne => ?_
  rcases hs.handle x _ hx with hlive | ⟨he, -⟩ | hd
  · -- the handle would still count
    have hview : s.view ex x = some (.shared p d) := by
      unfold view
      rw [if_neg fun he => hne (hex x he)]
      exact hlive
    have hdc : d = c := by
      rcases hinv.shared x p d hview with ⟨h0, -⟩ | ⟨-, -, hcur', -⟩
      · exact absurd h0 hp
      · rw [← hcur, hcur']
    subst hdc
    have hpos : 0 < s.refs ex t d := refs_pos_of_view
      (hinv.handleBound x (by rw [hlive]; simp)) hview
    omega
  · exact absurd he hne
  · exact hd

theorem since_release (hs : Since s₀ h ex s (.release p c :: t))
    (hinv : Inv ex s (.release p c :: t)) (hex : ∀ x, ex = some x → x = h) :
    Since s₀ h ex (s.runTask (.release p c)).1 ((s.runTask (.release p c)).2 ++ t) := by
  rcases hinv.release p c (by simp) with ⟨rfl, rfl⟩ | ⟨hc, -, hcur, hobj, hcb⟩
  · have hrun : s.runTask (.release 0 0) = (s, []) := by simp [runTask]
    rw [hrun]
    exact hs.counters ⟨rfl, rfl, rfl, rfl, rfl, rfl, rfl⟩ (by simp) (by simp)
  obtain ⟨r, hr⟩ := Option.ne_none_iff_exists'.mp hcb
  have hp := hinv.obj_ne_zero hobj
  have href := (hinv.count c r hr).1
  rw [refs_cons] at href
  simp only [PtrTask.isRelease, decide_true, Bool.toNat_true] at href
  rw [runTask_release hp hc hr]
  refine hs.counters ⟨rfl, rfl, rfl, rfl, rfl, rfl, rfl⟩ (fun x hm => ?_) fun q hm => ?_
  · rcases List.mem_append.mp hm with hm | hm <;> split at hm <;> simp at hm
  · rcases List.mem_append.mp hm with hm | hm
    · split at hm
      · next hz =>
        obtain rfl : q = p := by simpa using hm
        refine hs.doomed hinv hex hp hobj.2 hcur ?_
        simpa only [decRef, href, decrement] using hz
      · cases hm
    · split at hm <;> simp at hm

theorem since_releaseWeak (hs : Since s₀ h ex s (.releaseWeak c :: t))
    (hinv : Inv ex s (.releaseWeak c :: t)) :
    Since s₀ h ex (s.runTask (.releaseWeak c)).1 ((s.runTask (.releaseWeak c)).2 ++ t) := by
  rcases hinv.releaseWeak c (by simp) with rfl | hcb
  · have hrun : s.runTask (.releaseWeak 0) = (s, []) := by simp [runTask]
    rw [hrun]
    exact hs.counters ⟨rfl, rfl, rfl, rfl, rfl, rfl, rfl⟩ (by simp) (by simp)
  obtain ⟨r, hr⟩ := Option.ne_none_iff_exists'.mp hcb
  have hc := hinv.cb_ne_zero hcb
  simp only [runTask, hc, if_false, hr, updateCb]
  refine hs.counters ⟨rfl, rfl, rfl, rfl, rfl, rfl, rfl⟩ (fun x hm => ?_) fun q hm => ?_
  · split at hm <;> simp at hm
  · split at hm <;> simp at hm

theorem since_destroy (hs : Since s₀ h ex s (.destroy x :: t)) (hinv : Inv ex s (.destroy x :: t)) :
    Since s₀ h ex (s.runTask (.destroy x)).1 ((s.runTask (.destroy x)).2 ++ t) := by
  obtain ⟨v, hv⟩ := Option.ne_none_iff_exists'.mp ((hinv.destroy x).2 (by simp)).1
  obtain ⟨b, hrun, hb⟩ := runTask_destroy hv
  have hnot : (∀ y, b ≠ .destroy y) ∧ ∀ q, b ≠ .delete q := by
    rcases hb with ⟨p, c, -, rfl⟩ | ⟨p, c, -, rfl⟩ <;> simp
  rw [hrun]
  refine ⟨hs.home, hs.next, hs.raw, hs.objOf, hs.current, fun y w hw => ?_, fun y w hw => ?_,
    fun y hm => ?_, fun q hm => ?_, hs.obj⟩
  · by_cases he : y = x
    · subst he
      exact Or.inr (hs.destroy y (by simp))
    · simp only [Function.update_of_ne he]
      exact hs.handle y w hw
  · by_cases he : y = x
    · subst he
      simp at hw
    · simp only [Function.update_of_ne he] at hw
      exact hs.old y w hw
  · rcases List.mem_cons.mp hm with he | hm
    · exact absurd he.symm (hnot.1 y)
    · exact hs.destroy y (List.mem_cons_of_mem _ hm)
  · rcases List.mem_cons.mp hm with he | hm
    · exact absurd he.symm (hnot.2 q)
    · exact hs.delete q (List.mem_cons_of_mem _ hm)

theorem since_delete (hs : Since s₀ h ex s (.delete p :: t)) (hinv : Inv ex s (.delete p :: t)) :
    Since s₀ h ex (s.runTask (.delete p)).1 ((s.runTask (.delete p)).2 ++ t) := by
  have hdoom := hs.delete p (by simp)
  rcases hms : s.obj p with _ | ms
  · have htask := hinv.objTask p
    rw [List.count_cons_self] at htask
    simp [Managed, hms] at htask
  have hmem := (hinv.member p ms hms).2.2
  simp only [runTask, hms]
  refine ⟨hs.home, hs.next, hs.raw, hs.objOf, hs.current, hs.handle, hs.old, fun x hm => ?_,
    fun q hm => ?_, fun q hq => ?_⟩
  · rcases List.mem_append.mp hm with hm | hm
    · obtain ⟨y, hy, he⟩ := List.mem_map.mp hm
      obtain rfl := PtrTask.destroy.inj he
      refine Or.inr ?_
      rw [← hs.home, (hmem y (List.mem_reverse.mp hy)).1]
      exact hdoom
    · exact hs.destroy x (List.mem_cons_of_mem _ hm)
  · rcases List.mem_append.mp hm with hm | hm
    · obtain ⟨y, -, he⟩ := List.mem_map.mp hm
      cases he
    · exact hs.delete q (List.mem_cons_of_mem _ hm)
  · by_cases he : q = p
    · subst he
      exact Or.inr hdoom
    · simpa only [Function.update_of_ne he] using hs.obj q hq

theorem since_deleteCb (hs : Since s₀ h ex s (.deleteCb c :: t)) :
    Since s₀ h ex (s.runTask (.deleteCb c)).1 ((s.runTask (.deleteCb c)).2 ++ t) := by
  simp only [runTask]
  split
  · exact hs.counters ⟨rfl, rfl, rfl, rfl, rfl, rfl, rfl⟩ (by simp) (by simp)
  · exact hs.counters ⟨rfl, rfl, rfl, rfl, rfl, rfl, rfl⟩ (by simp) (by simp)

/-- One task of a release. Only a release that destroys the handle `ex` itself goes wrong. -/
theorem runTask_spec (hinv : Inv ex s (a :: t)) (hs : Since s₀ h ex s (a :: t))
    (hex : ∀ x, ex = some x → x = h ∧ ¬ Doomed s₀ h (s₀.home h)) :
    Inv ex (s.runTask a).1 ((s.runTask a).2 ++ t) ∧
      Since s₀ h ex (s.runTask a).1 ((s.runTask a).2 ++ t) := by
  cases a with
  | release p c => exact ⟨inv_release hinv, since_release hs hinv fun x hx => (hex x hx).1⟩
  | releaseWeak c => exact ⟨inv_releaseWeak hinv, since_releaseWeak hs hinv⟩
  | destroy x =>
    refine ⟨inv_destroy hinv fun he => ?_, since_destroy hs hinv⟩
    obtain ⟨rfl, hnot⟩ := hex x he
    rcases hs.destroy x (by simp) with ⟨-, hne⟩ | hd
    · exact hne he
    · exact hnot hd
  | delete p => exact ⟨inv_delete hinv, since_delete hs hinv⟩
  | deleteCb c => exact ⟨inv_deleteCb hinv, since_deleteCb hs⟩

/-! ## Releases end -/

theorem sum_range_update (f : Nat → Nat) {n x : Nat} (hx : x < n) :
    ((List.range n).map (Function.update f x 0)).sum + f x = ((List.range n).map f).sum := by
  induction n with
  | zero => omega
  | succ n ih =>
    rw [List.range_succ, List.map_append, List.map_append, List.sum_append, List.sum_append]
    rcases Nat.lt_or_eq_of_le (Nat.le_of_lt_succ hx) with hlt | rfl
    · have := ih hlt
      simp only [List.map_singleton, List.sum_singleton]
      rw [Function.update_of_ne (by omega)]
      omega
    · have hsame : (List.range x).map (Function.update f x 0) = (List.range x).map f :=
        List.map_congr_left fun y hy => by
          have := List.mem_range.mp hy
          rw [Function.update_of_ne (by omega)]
      rw [hsame]
      simp

theorem fuel_lt (hinv : Inv ex s (a :: t)) :
    (s.runTask a).1.fuel ((s.runTask a).2 ++ t) < s.fuel (a :: t) := by
  have hsum : ∀ u : List PtrTask, ((u ++ t).map taskCost).sum =
      (u.map taskCost).sum + (t.map taskCost).sum := fun u => by
    rw [List.map_append, List.sum_append]
  cases a with
  | release p c =>
    rcases hinv.release p c (by simp) with ⟨rfl, rfl⟩ | ⟨hc, -, -, hobj, hcb⟩
    · simp [runTask, fuel, taskCost]
    obtain ⟨r, hr⟩ := Option.ne_none_iff_exists'.mp hcb
    rw [runTask_release (hinv.obj_ne_zero hobj) hc hr]
    simp only [fuel, hsum, List.map_cons, List.sum_cons, taskCost]
    show _ + ((List.range s.next).map s.memberCost).sum < _
    have hle : (((if (decRef r).refCount = 0 then [PtrTask.delete p] else []) ++
        if (decRef r).weakCount = 0 then [PtrTask.deleteCb c] else []).map taskCost).sum ≤ 2 := by
      split <;> split <;> simp [taskCost]
    omega
  | releaseWeak c =>
    rcases hinv.releaseWeak c (by simp) with rfl | hcb
    · simp [runTask, fuel, taskCost]
    obtain ⟨r, hr⟩ := Option.ne_none_iff_exists'.mp hcb
    simp only [runTask, hinv.cb_ne_zero hcb, if_false, hr, updateCb, fuel, hsum, List.map_cons,
      List.sum_cons, taskCost]
    show _ + ((List.range s.next).map s.memberCost).sum < _
    have hle : ((if (decWeak r).weakCount = 0 then [PtrTask.deleteCb c] else []).map taskCost).sum
        ≤ 1 := by
      split <;> simp [taskCost]
    omega
  | destroy x =>
    obtain ⟨v, hv⟩ := Option.ne_none_iff_exists'.mp ((hinv.destroy x).2 (by simp)).1
    obtain ⟨b, hrun, hb⟩ := runTask_destroy hv
    rw [hrun]
    simp only [fuel, hsum, List.map_cons, List.sum_cons, List.map_nil, List.sum_nil]
    show _ + ((List.range s.next).map s.memberCost).sum < 4 + _ + _
    have hle : taskCost b ≤ 3 := by
      rcases hb with ⟨p, c, -, rfl⟩ | ⟨p, c, -, rfl⟩ <;> simp [taskCost]
    omega
  | delete p =>
    rcases hms : s.obj p with _ | ms
    · have htask := hinv.objTask p
      rw [List.count_cons_self] at htask
      simp [Managed, hms] at htask
    -- the members of the object are paid for by the object
    have hcost : memberCost { s with obj := Function.update s.obj p none, freed := p :: s.freed } =
        Function.update s.memberCost p 0 := by
      funext q
      by_cases hq : q = p
      · subst hq
        simp [memberCost]
      · simp [memberCost, hq]
    have hp := sum_range_update s.memberCost (hinv.objBound p (by rw [hms]; simp))
    have hself : s.memberCost p = 4 * ms.length := by simp [memberCost, hms]
    have hdes : ((ms.reverse.map PtrTask.destroy).map taskCost).sum = 4 * ms.length := by
      rw [List.map_map]
      simp [Function.comp_def, taskCost, Nat.mul_comm]
    simp only [runTask, hms, fuel, hsum, hdes, hcost, List.map_cons, List.sum_cons, taskCost]
    omega
  | deleteCb c =>
    simp only [runTask]
    split
    · simp only [fuel, List.nil_append, List.map_cons, List.sum_cons, taskCost]
      show _ + ((List.range s.next).map s.memberCost).sum < _
      omega
    · simp only [fuel, List.nil_append, List.map_cons, List.sum_cons, taskCost]
      show _ + ((List.range s.next).map s.memberCost).sum < _
      omega

theorem runTasks_spec (hex : ∀ x, ex = some x → x = h ∧ ¬ Doomed s₀ h (s₀.home h)) :
    ∀ {n : Nat} {t : List PtrTask} {s : Ptrs}, s.fuel t ≤ n → Inv ex s t → Since s₀ h ex s t →
      ∃ s', runTasks n t s = some s' ∧ Inv ex s' [] ∧ Since s₀ h ex s' [] := by
  intro n
  induction n with
  | zero =>
    intro t s hfuel hinv hs
    cases t with
    | nil => exact ⟨s, rfl, hinv, hs⟩
    | cons a t =>
      have := fuel_lt hinv
      omega
  | succ n ih =>
    intro t s hfuel hinv hs
    cases t with
    | nil => exact ⟨s, rfl, hinv, hs⟩
    | cons a t =>
      obtain ⟨hinv', hs'⟩ := runTask_spec hinv hs hex
      have := fuel_lt hinv
      exact ih (by omega) hinv' hs'

end Since

end Ptrs

end CoroCore
