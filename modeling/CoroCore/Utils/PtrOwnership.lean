import CoroCore.Lib.Run
import CoroCore.Utils.PtrRelease

/-!
# `shared_ptr` and `weak_ptr` own what they point to

`Owned` is what the kernel relies on: the counters count the handles, objects and control blocks
live as long as there are handles to them and are deleted once, and `lock` fails exactly when no
`shared_ptr` of the control block is left.

`__reset` releases the old fields before it acquires the new ones. So an assignment goes wrong if
the release deletes the object that is assigned, or the one that the handle itself is a member of.

Results:
* `owned_ok`: in every run without such assignments every state is owned, and every call returns.
* `self_assign_dangling`: the assignment of the only handle of an object to itself uses its control
  block after it was deleted.
-/

namespace CoroCore

open Lib

theorem RefCount.eq_zero (r : RefCount) (h1 : r.refCount = 0) (h2 : r.weakCount = 0) :
    r = ⟨0, 0⟩ := by
  cases r
  simp only at h1 h2
  rw [h1, h2]

namespace Ptrs

variable {s s' : Ptrs} {ex : Option Nat} {p c h x : Nat}

/-! ## What the kernel relies on -/

/-- The number of `shared_ptr`s of a control block. -/
def sharedCount (s : Ptrs) (c : Nat) : Nat := tally s.next (isShared c) s.handle

/-- The number of `weak_ptr`s of a control block. -/
def weakCountOf (s : Ptrs) (c : Nat) : Nat := tally s.next (isWeak c) s.handle

/-- Some `shared_ptr` of the control block is left. -/
def Shared (s : Ptrs) (c : Nat) : Prop := c ≠ 0 ∧ ∃ x p, s.handle x = some (.shared p c)

structure Owned (s : Ptrs) : Prop where
  /-- No freed memory was used. -/
  safe : s.dangling = false
  /-- What was deleted was deleted once, and is not there any more. -/
  once : s.freed.Nodup ∧ ∀ i ∈ s.freed, s.obj i = none ∧ s.cb i = none
  numbered : ∀ x, s.handle x ≠ none → x < s.next
  counts : ∀ c r, s.cb c = some r →
    r.refCount = s.sharedCount c ∧ r.weakCount = s.sharedCount c + s.weakCountOf c
  /-- An object is not deleted before its last `shared_ptr` is gone. -/
  shared : ∀ x p c, s.handle x = some (.shared p c) →
    p = 0 ∧ c = 0 ∨ s.obj p ≠ none ∧ s.cb c ≠ none
  weak : ∀ x p c, s.handle x = some (.weak p c) → c = 0 ∨ s.cb c ≠ none
  /-- An object is deleted when its last `shared_ptr` is gone, and so is a control block. -/
  deleted : ∀ p, s.Managed p → ∃ x c, s.handle x = some (.shared p c)
  cbDeleted : ∀ c, s.cb c ≠ none →
    ∃ x p, s.handle x = some (.shared p c) ∨ s.handle x = some (.weak p c)
  lock : ∀ x p c, s.handle x = some (.weak p c) →
    ((s.lock p c).handle s.next = some nullShared ↔ ¬ s.Shared c)
  expired : ∀ x p c, s.handle x = some (.weak p c) →
    ∃ b, s.expired c = some b ∧ (b = true ↔ ¬ s.Shared c)

/-- The release in an assignment deletes neither the object that is assigned nor the one that the
handle is a member of. A `weak_ptr` that is assigned to itself is not the last handle of its control
block. -/
def AssignOk (s : Ptrs) : PtrOp → Prop
  | .assign dst src => ¬ s.Doomed dst (s.home dst) ∧
      ∀ p c, s.handle src = some (.shared p c) → ¬ s.Doomed dst p
  | .reset h => ¬ s.Doomed h (s.home h)
  | .resetNew h _ => ¬ s.Doomed h (s.home h)
  | .weakAssign dst src => dst = src → ∀ p c, s.handle src = some (.weak p c) → c = 0 ∨
      ∃ x q, x ≠ dst ∧ (s.handle x = some (.shared q c) ∨ s.handle x = some (.weak q c))
  | _ => True

theorem view_none : s.view none = s.handle := by
  funext x
  simp [view]

theorem view_some : s.view (some h) = Function.update s.handle h none := by
  funext x
  by_cases hx : x = h
  · subst hx
    simp [view]
  · simp [view, hx, Ne.symm hx]

theorem refs_nil : s.refs ex [] c = tally s.next (isShared c) (s.view ex) := rfl

theorem weaks_nil : s.weaks ex [] c = tally s.next (isWeak c) (s.view ex) := rfl

/-! ## Between calls -/

/-- The invariant when no call is under way. -/
theorem Inv.of_nil (safe : s.dangling = false)
    (shared : ∀ x p c, s.view ex x = some (.shared p c) → s.Valid p c)
    (weak : ∀ x p c, s.view ex x = some (.weak p c) → s.ValidWeak p c)
    (count : ∀ c r, s.cb c = some r →
      r.refCount = s.refs ex [] c ∧ r.weakCount = s.refs ex [] c + s.weaks ex [] c)
    (cbUsed : ∀ c, s.cb c ≠ some ⟨0, 0⟩)
    (held : ∀ p, s.Managed p → s.refs ex [] (s.current p) ≠ 0)
    (current : ∀ p, s.Managed p → s.objOf (s.current p) = p ∧ s.current p ≠ 0)
    (member : ∀ p ms, s.obj p = some ms →
      p ≠ 0 ∧ ms.Nodup ∧ ∀ x ∈ ms, s.home x = p ∧ s.handle x ≠ none)
    (handleBound : ∀ x, s.handle x ≠ none → x < s.next)
    (objBound : ∀ p, s.obj p ≠ none → p < s.next)
    (cbBound : ∀ c, s.cb c ≠ none → c < s.next ∧ c ≠ 0)
    (apart : ∀ i, s.obj i ≠ none → s.cb i = none) (freedNodup : s.freed.Nodup)
    (freedDead : ∀ i ∈ s.freed, i < s.next ∧ s.obj i = none ∧ s.cb i = none) : Inv ex s [] := by
  refine ⟨safe, shared, weak, fun _ _ hm => absurd hm List.not_mem_nil,
    fun _ hm => absurd hm List.not_mem_nil, count, fun c => ?_, fun p => ?_, current, member,
    fun x => ⟨by simp, fun hm => absurd hm List.not_mem_nil⟩, handleBound, objBound, cbBound, apart,
    freedNodup, freedDead⟩
  · rw [if_neg (cbUsed c)]
    rfl
  · rw [if_neg fun hp => held p hp.1 hp.2]
    rfl

theorem Inv.cbUsed (h : Inv ex s []) (c : Nat) : s.cb c ≠ some ⟨0, 0⟩ := by
  intro hc
  have := h.cbTask c
  rw [if_pos hc] at this
  simp at this

theorem Inv.held (h : Inv ex s []) (hp : s.Managed p) : 0 < s.refs ex [] (s.current p) := by
  have := h.objTask p
  by_contra hz
  rw [if_pos ⟨hp, by omega⟩] at this
  simp at this

/-- A `shared_ptr` of a control block that counts one. -/
theorem refs_pos_iff : 0 < s.refs none [] c ↔
    ∃ x p, x < s.next ∧ s.handle x = some (.shared p c) := by
  rw [refs_nil, tally_pos, view_none]
  constructor
  · rintro ⟨x, hx, hs⟩
    rcases hv : s.handle x with _ | ⟨p, d⟩ | ⟨p, d⟩
    · rw [hv] at hs
      cases hs
    · rw [hv] at hs
      obtain rfl : d = c := by simpa [isShared] using hs
      exact ⟨x, p, hx, hv⟩
    · rw [hv] at hs
      cases hs
  · rintro ⟨x, p, hx, hv⟩
    exact ⟨x, hx, by simp [hv, isShared]⟩

theorem weaks_pos_iff : 0 < s.weaks none [] c ↔
    ∃ x p, x < s.next ∧ s.handle x = some (.weak p c) := by
  rw [weaks_nil, tally_pos, view_none]
  constructor
  · rintro ⟨x, hx, hs⟩
    rcases hv : s.handle x with _ | ⟨p, d⟩ | ⟨p, d⟩
    · rw [hv] at hs
      cases hs
    · rw [hv] at hs
      cases hs
    · rw [hv] at hs
      obtain rfl : d = c := by simpa [isWeak] using hs
      exact ⟨x, p, hx, hv⟩
  · rintro ⟨x, p, hx, hv⟩
    exact ⟨x, hx, by simp [hv, isWeak]⟩

theorem Inv.shared_iff (h : Inv none s []) (hc : c ≠ 0) : s.Shared c ↔ 0 < s.refs none [] c := by
  rw [refs_pos_iff]
  constructor
  · rintro ⟨-, x, p, hx⟩
    exact ⟨x, p, h.handleBound x (by rw [hx]; simp), hx⟩
  · rintro ⟨x, p, -, hx⟩
    exact ⟨hc, x, p, hx⟩

theorem Inv.owned (h : Inv none s []) : s.Owned := by
  have hcount : ∀ c r, s.cb c = some r →
      r.refCount = s.sharedCount c ∧ r.weakCount = s.sharedCount c + s.weakCountOf c := by
    intro c r hr
    have := h.count c r hr
    rwa [refs_nil, weaks_nil, view_none] at this
  have hshared : ∀ x p c, s.handle x = some (.shared p c) → s.Valid p c := fun x p c hx =>
    h.shared x p c (by rwa [view_none])
  have hweak : ∀ x p c, s.handle x = some (.weak p c) → s.ValidWeak p c := fun x p c hx =>
    h.weak x p c (by rwa [view_none])
  refine ⟨h.safe, ⟨h.freedNodup, fun i hi => (h.freedDead i hi).2⟩, h.handleBound, hcount,
    fun x p c hx => ?_, fun x p c hx => (hweak x p c hx).imp_right And.right, fun p hp => ?_,
    fun c hc => ?_, fun x p c hx => ?_, fun x p c hx => ?_⟩
  · rcases hshared x p c hx with h0 | ⟨-, -, -, hp, hc⟩
    · exact Or.inl h0
    · exact Or.inr ⟨hp.1, hc⟩
  · obtain ⟨x, q, -, hx⟩ := refs_pos_iff.mp (h.held hp)
    refine ⟨x, s.current p, ?_⟩
    -- the control block was made for `p`
    rcases hshared x q _ hx with ⟨-, h0⟩ | ⟨-, hof, -⟩
    · exact absurd h0 (h.current p hp).2
    · rwa [← hof, (h.current p hp).1] at hx
  · obtain ⟨r, hr⟩ := Option.ne_none_iff_exists'.mp hc
    have hcnt := h.count c r hr
    by_cases hpos : 0 < s.refs none [] c
    · obtain ⟨x, q, -, hx⟩ := refs_pos_iff.mp hpos
      exact ⟨x, q, Or.inl hx⟩
    · have hw : 0 < s.weaks none [] c := by
        by_contra hz
        refine h.cbUsed c ?_
        rw [hr, RefCount.eq_zero r (by omega) (by omega)]
      obtain ⟨x, q, -, hx⟩ := weaks_pos_iff.mp hw
      exact ⟨x, q, Or.inr hx⟩
  · rcases eq_or_ne c 0 with rfl | hc
    · simp [Ptrs.lock, declare, Shared]
    · have hcb : s.cb c ≠ none := ((hweak x p c hx).resolve_left hc).2
      obtain ⟨r, hr⟩ := Option.ne_none_iff_exists'.mp hcb
      have hcnt := (h.count c r hr).1
      rw [h.shared_iff hc]
      simp only [Ptrs.lock, hc, if_false, sharedResetWeak, declare, hr]
      by_cases hz : r.refCount = 0
      · simp [hz, setHandle, ← hcnt]
      · simp [hz, setHandle, updateCb, hr, nullShared, ← hcnt, hc]
  · rcases eq_or_ne c 0 with rfl | hc
    · exact ⟨true, by simp [Ptrs.expired], by simp [Shared]⟩
    · have hcb : s.cb c ≠ none := ((hweak x p c hx).resolve_left hc).2
      obtain ⟨r, hr⟩ := Option.ne_none_iff_exists'.mp hcb
      have hcnt := (h.count c r hr).1
      refine ⟨r.refCount = 0, by simp [Ptrs.expired, hc, hr], ?_⟩
      rw [h.shared_iff hc, ← hcnt]
      simp

/-! ## Assignment: the old fields -/

/-- The fields of a handle are about to be released: they are a pending release now. -/
theorem Inv.begin {v : Handle} {a : PtrTask} (hi : Inv none s []) (hv : s.handle h = some v)
    (ha : (∃ p c, v = .shared p c ∧ a = .release p c) ∨ ∃ p c, v = .weak p c ∧ a = .releaseWeak c) :
    Inv (some h) s [a] := by
  have hlt := hi.handleBound h (by rw [hv]; simp)
  have hrefs : ∀ d, s.refs (some h) [a] d = s.refs none [] d := by
    intro d
    have hup := tally_update (P := isShared d) (f := s.handle) (v := none) hlt
    rw [refs_cons, refs_nil, refs_nil, view_none, view_some]
    rw [hv] at hup
    rcases ha with ⟨p, c, rfl, rfl⟩ | ⟨p, c, rfl, rfl⟩
    · simp only [isShared, PtrTask.isRelease, Bool.toNat_false, Nat.add_zero] at *
      omega
    · simp only [isShared, PtrTask.isRelease, Bool.toNat_false, Nat.add_zero] at *
      omega
  have hweaks : ∀ d, s.weaks (some h) [a] d = s.weaks none [] d := by
    intro d
    have hup := tally_update (P := isWeak d) (f := s.handle) (v := none) hlt
    rw [weaks_cons, weaks_nil, weaks_nil, view_none, view_some]
    rw [hv] at hup
    rcases ha with ⟨p, c, rfl, rfl⟩ | ⟨p, c, rfl, rfl⟩
    · simp only [isWeak, PtrTask.isReleaseWeak, Bool.toNat_false, Nat.add_zero] at *
      omega
    · simp only [isWeak, PtrTask.isReleaseWeak, Bool.toNat_false, Nat.add_zero] at *
      omega
  have hview : ∀ y w, s.view (some h) y = some w → s.view none y = some w := by
    intro y w hy
    rw [view_none]
    unfold view at hy
    split at hy
    · cases hy
    · exact hy
  have hvw : s.view none h = some v := by rw [view_none, hv]
  have hcount : ∀ b, (∀ p c, b ≠ .release p c ∧ b ≠ .releaseWeak c) → [a].count b = 0 := by
    intro b hb
    refine List.count_eq_zero.mpr fun hm => ?_
    obtain rfl := List.mem_singleton.mp hm
    rcases ha with ⟨p, c, -, rfl⟩ | ⟨p, c, -, rfl⟩
    · exact (hb p c).1 rfl
    · exact (hb p c).2 rfl
  refine ⟨hi.safe, fun y q d hy => hi.shared y q d (hview y _ hy),
    fun y q d hy => hi.weak y q d (hview y _ hy), fun q d hm => ?_, fun d hm => ?_,
    fun d r hr => ?_, fun d => ?_, fun q => ?_, hi.current, hi.member, fun y => ⟨?_, fun hm => ?_⟩,
    hi.handleBound, hi.objBound, hi.cbBound, hi.apart, hi.freedNodup, hi.freedDead⟩
  · have he := List.mem_singleton.mp hm
    rcases ha with ⟨p, c, rfl, rfl⟩ | ⟨p, c, rfl, rfl⟩
    · cases he
      exact hi.shared h q d hvw
    · cases he
  · have he := List.mem_singleton.mp hm
    rcases ha with ⟨p, c, rfl, rfl⟩ | ⟨p, c, rfl, rfl⟩
    · cases he
    · cases he
      exact (hi.weak h p d hvw).imp_right And.right
  · rw [hrefs, hweaks]
    exact hi.count d r hr
  · rw [hcount _ (by simp), if_neg (hi.cbUsed d)]
  · rw [hcount _ (by simp), hrefs, if_neg]
    rintro ⟨hq, hz⟩
    have := hi.held hq
    omega
  · rw [hcount _ (by simp)]
    omega
  · have := List.count_pos_iff.mpr hm
    rw [hcount _ (by simp)] at this
    omega

/-- Nothing has happened yet. -/
theorem Since.start {a : PtrTask} (ha : (∃ p c, a = .release p c) ∨ ∃ c, a = .releaseWeak c) :
    Since s h (some h) s [a] := by
  refine ⟨rfl, rfl, rfl, rfl, rfl, fun _ _ hv => Or.inl hv, fun _ _ hv => hv, fun x hm => ?_,
    fun p hm => ?_, fun _ hp => Or.inl hp⟩
  · have he := List.mem_singleton.mp hm
    rcases ha with ⟨p, c, rfl⟩ | ⟨c, rfl⟩ <;> cases he
  · have he := List.mem_singleton.mp hm
    rcases ha with ⟨q, c, rfl⟩ | ⟨c, rfl⟩ <;> cases he

/-! ## Assignment: the new fields -/

/-- The handle gets its new fields, and the counters count it. -/
theorem Inv.attach (hi : Inv (some h) s []) (v : Handle) (cb' : Nat → Option RefCount)
    (hlive : s.handle h ≠ none)
    (hv : (∃ p c, v = .shared p c ∧ s.Valid p c) ∨ ∃ p c, v = .weak p c ∧ s.ValidWeak p c)
    (hcb : ∀ d, cb' d ≠ none ↔ s.cb d ≠ none)
    (hcount : ∀ d r, cb' d = some r →
      r.refCount = s.refs (some h) [] d + (isShared d (some v)).toNat ∧
      r.weakCount = s.refs (some h) [] d + (isShared d (some v)).toNat +
        (s.weaks (some h) [] d + (isWeak d (some v)).toNat)) :
    Inv none { s with handle := Function.update s.handle h (some v), cb := cb' } [] := by
  have hlt := hi.handleBound h hlive
  have hnone : s.view (some h) h = none := by simp [view]
  have hview : view { s with handle := Function.update s.handle h (some v), cb := cb' } none =
      Function.update (s.view (some h)) h (some v) := by
    rw [view_none, view_some, Function.update_idem]
  have hrefs : ∀ d, refs { s with handle := Function.update s.handle h (some v), cb := cb' } none []
      d = s.refs (some h) [] d + (isShared d (some v)).toNat := by
    intro d
    have hup := tally_update (P := isShared d) (f := s.view (some h)) (v := some v) hlt
    rw [hnone] at hup
    rw [refs_nil, refs_nil, hview]
    simpa only [isShared, Bool.toNat_false, Nat.add_zero] using hup
  have hweaks : ∀ d, weaks { s with handle := Function.update s.handle h (some v), cb := cb' } none
      [] d = s.weaks (some h) [] d + (isWeak d (some v)).toNat := by
    intro d
    have hup := tally_update (P := isWeak d) (f := s.view (some h)) (v := some v) hlt
    rw [hnone] at hup
    rw [weaks_nil, weaks_nil, hview]
    simpa only [isWeak, Bool.toNat_false, Nat.add_zero] using hup
  have hval : ∀ q d, s.Valid q d →
      Valid { s with handle := Function.update s.handle h (some v), cb := cb' } q d :=
    fun q d hq => hq.congr rfl rfl id (hcb d).mpr
  have hvalw : ∀ q d, s.ValidWeak q d →
      ValidWeak { s with handle := Function.update s.handle h (some v), cb := cb' } q d :=
    fun q d hq => hq.congr rfl (hcb d).mpr
  refine Inv.of_nil hi.safe (fun y q d hy => ?_) (fun y q d hy => ?_) (fun d r hr => ?_)
    (fun d hd => ?_) (fun q hq => ?_) hi.current (fun q ms hms => ?_) (fun y hy => ?_) hi.objBound
    (fun d hd => hi.cbBound d ((hcb d).mp hd)) (fun i hobj => ?_) hi.freedNodup (fun i hf => ?_)
  · rw [hview] at hy
    by_cases he : y = h
    · subst he
      rw [Function.update_self] at hy
      rcases hv with ⟨p, c, rfl, hpc⟩ | ⟨p, c, rfl, -⟩
      · cases hy
        exact hval q d hpc
      · cases hy
    · rw [Function.update_of_ne he] at hy
      exact hval q d (hi.shared y q d hy)
  · rw [hview] at hy
    by_cases he : y = h
    · subst he
      rw [Function.update_self] at hy
      rcases hv with ⟨p, c, rfl, -⟩ | ⟨p, c, rfl, hpc⟩
      · cases hy
      · cases hy
        exact hvalw q d hpc
    · rw [Function.update_of_ne he] at hy
      exact hvalw q d (hi.weak y q d hy)
  · rw [hrefs, hweaks]
    exact hcount d r hr
  · -- a control block that nothing refers to would have been deleted before
    have hd' : cb' d = some ⟨0, 0⟩ := hd
    obtain ⟨h1, h2⟩ := hcount d _ hd'
    simp only at h1 h2
    obtain ⟨r, hr⟩ := Option.ne_none_iff_exists'.mp ((hcb d).mp (by rw [hd']; simp))
    obtain ⟨h3, h4⟩ := hi.count d r hr
    refine hi.cbUsed d ?_
    rw [hr, RefCount.eq_zero r (by omega) (by omega)]
  · rw [hrefs]
    have := hi.held (p := q) hq
    show s.refs (some h) [] (s.current q) + _ ≠ 0
    omega
  · obtain ⟨h1, h2, h3⟩ := hi.member q ms hms
    refine ⟨h1, h2, fun y hy => ⟨(h3 y hy).1, ?_⟩⟩
    by_cases he : y = h
    · subst he
      simp
    · simp only [Function.update_of_ne he]
      exact (h3 y hy).2
  · by_cases he : y = h
    · subst he
      exact hlt
    · exact hi.handleBound y (by simpa only [Function.update_of_ne he] using hy)
  · by_contra hne
    exact (hcb i).mp hne (hi.apart i hobj)
  · obtain ⟨h1, h2, h3⟩ := hi.freedDead i hf
    refine ⟨h1, h2, ?_⟩
    by_contra hne
    exact (hcb i).mp hne h3

theorem setHandle_of_live {v : Handle} (hlive : s.handle h ≠ none) :
    s.setHandle h v = { s with handle := Function.update s.handle h (some v) } := by
  obtain ⟨w, hw⟩ := Option.ne_none_iff_exists'.mp hlive
  simp [setHandle, hw]

theorem isShared_shared : (isShared x (some (.shared p c))).toNat = if x = c then 1 else 0 := by
  by_cases hx : x = c
  · simp [isShared, hx]
  · simp [isShared, hx, Ne.symm hx]

theorem isWeak_weak : (isWeak x (some (.weak p c))).toNat = if x = c then 1 else 0 := by
  by_cases hx : x = c
  · simp [isWeak, hx]
  · simp [isWeak, hx, Ne.symm hx]

/-- The end of `shared_ptr::__reset`. -/
theorem inv_setShared (hi : Inv (some h) s []) (hlive : s.handle h ≠ none) (hv : s.Valid p c) :
    Inv none ((s.setHandle h (.shared p c)).sharedInc p c) [] := by
  rw [setHandle_of_live hlive]
  rcases hv with ⟨rfl, rfl⟩ | ⟨hc, hof, hcur, hm, hcb⟩
  · have hatt := hi.attach (.shared 0 0) s.cb hlive
      (Or.inl ⟨0, 0, rfl, Or.inl ⟨rfl, rfl⟩⟩) (fun _ => Iff.rfl) fun d r hr => ?_
    · simpa [sharedInc] using hatt
    · have hd := hi.cb_ne_zero (c := d) (by rw [hr]; simp)
      rw [isShared_shared, if_neg hd]
      simpa [isWeak] using hi.count d r hr
  · obtain ⟨r, hr⟩ := Option.ne_none_iff_exists'.mp hcb
    have hp := hi.obj_ne_zero hm
    have hatt := hi.attach (.shared p c) (Function.update s.cb c (some (incRef r))) hlive
      (Or.inl ⟨p, c, rfl, Or.inr ⟨hc, hof, hcur, hm, hcb⟩⟩) (fun d => ?_) fun d r' hr' => ?_
    · simpa [sharedInc, hp, hc, updateCb, hr] using hatt
    · by_cases hd : d = c
      · subst hd
        simp [hr]
      · rw [Function.update_of_ne hd]
    · rw [isShared_shared]
      by_cases hd : d = c
      · subst hd
        rw [Function.update_self] at hr'
        obtain rfl := Option.some.inj hr'
        have := hi.count d r hr
        simp only [incRef, isWeak, if_true, Bool.toNat_false]
        omega
      · rw [Function.update_of_ne hd] at hr'
        rw [if_neg hd]
        simpa [isWeak] using hi.count d r' hr'

/-- The end of `weak_ptr::__reset`. -/
theorem inv_setWeak (hi : Inv (some h) s []) (hlive : s.handle h ≠ none) (hv : s.ValidWeak p c) :
    Inv none (if c = 0 then s.setHandle h (.weak p c)
      else (s.setHandle h (.weak p c)).updateCb c incWeak) [] := by
  rw [setHandle_of_live hlive]
  rcases eq_or_ne c 0 with rfl | hc
  · have hatt := hi.attach (.weak p 0) s.cb hlive
      (Or.inr ⟨p, 0, rfl, Or.inl rfl⟩) (fun _ => Iff.rfl) fun d r hr => ?_
    · simpa using hatt
    · have hd := hi.cb_ne_zero (c := d) (by rw [hr]; simp)
      rw [isWeak_weak, if_neg hd]
      simpa [isShared] using hi.count d r hr
  · have hcb := (hv.resolve_left hc).2
    obtain ⟨r, hr⟩ := Option.ne_none_iff_exists'.mp hcb
    have hatt := hi.attach (.weak p c) (Function.update s.cb c (some (incWeak r))) hlive
      (Or.inr ⟨p, c, rfl, hv⟩)
      (fun d => ?_) fun d r' hr' => ?_
    · simpa [hc, updateCb, hr] using hatt
    · by_cases hd : d = c
      · subst hd
        simp [hr]
      · rw [Function.update_of_ne hd]
    · rw [isWeak_weak]
      by_cases hd : d = c
      · subst hd
        rw [Function.update_self] at hr'
        obtain rfl := Option.some.inj hr'
        have := hi.count d r hr
        simp only [incWeak, isShared, if_true, Bool.toNat_false]
        omega
      · rw [Function.update_of_ne hd] at hr'
        rw [if_neg hd]
        simpa [isShared] using hi.count d r' hr'

/-- The end of `reset(new_ptr)`: a control block for an object that no handle points to yet. -/
theorem inv_own (hi : Inv (some h) s []) (hlive : s.handle h ≠ none) (hobj : s.obj p ≠ none)
    (hraw : s.raw p = true) : Inv none ((s.newCb p).setHandle h (.shared p s.next)) [] := by
  have hlt := hi.handleBound h hlive
  have hp0 : p ≠ 0 := by
    obtain ⟨ms, hms⟩ := Option.ne_none_iff_exists'.mp hobj
    exact (hi.member p ms hms).1
  have hset : (s.newCb p).setHandle h (.shared p s.next) = { s with
      handle := Function.update s.handle h (some (.shared p s.next))
      cb := Function.update s.cb s.next (some ⟨1, 1⟩)
      objOf := Function.update s.objOf s.next p
      current := Function.update s.current p s.next
      raw := Function.update s.raw p false
      next := s.next + 1 } := setHandle_of_live hlive
  rw [hset]
  generalize hs' : ({ s with
      handle := Function.update s.handle h (some (.shared p s.next))
      cb := Function.update s.cb s.next (some ⟨1, 1⟩)
      objOf := Function.update s.objOf s.next p
      current := Function.update s.current p s.next
      raw := Function.update s.raw p false
      next := s.next + 1 } : Ptrs) = s'
  have hview : s'.view none = Function.update (s.view (some h)) h (some (.shared p s.next)) := by
    subst hs'
    rw [view_none, view_some, Function.update_idem]
  have hfresh : ∀ c, s.cb c ≠ none → c ≠ s.next := by
    rintro c hc rfl
    exact absurd (hi.cbBound _ hc).1 (by omega)
  have hcbn : s.cb s.next = none := by
    by_contra hc
    exact hfresh _ hc rfl
  have hobjn : s.obj s.next = none := by
    by_contra hc
    exact absurd (hi.objBound _ hc) (by omega)
  have hnone : ∀ f : Option Handle → Bool, f none = false →
      tally (s.next + 1) f (Function.update (s.view (some h)) h (some (.shared p s.next))) =
        tally s.next f (s.view (some h)) + (f (some (.shared p s.next))).toNat := by
    intro f hf
    have hup := tally_update (P := f) (f := s.view (some h)) (v := some (.shared p s.next))
      (show h < s.next + 1 by omega)
    have hself : s.view (some h) h = none := by simp [view]
    have hnext : s.view (some h) s.next = none := by
      by_contra hne
      exact absurd (hi.handleBound _ (view_ne_none hne)) (by omega)
    have hsucc : tally (s.next + 1) f (s.view (some h)) = tally s.next f (s.view (some h)) := by
      rw [tally_succ, hnext, hf]
      rfl
    rw [hself, hf, hsucc] at hup
    simpa using hup
  have hrefs : ∀ d, s'.refs none [] d = s.refs (some h) [] d + if d = s.next then 1 else 0 := by
    intro d
    rw [refs_nil, refs_nil, hview, ← isShared_shared (p := p)]
    subst hs'
    exact hnone (isShared d) rfl
  have hweaks : ∀ d, s'.weaks none [] d = s.weaks (some h) [] d := by
    intro d
    rw [weaks_nil, weaks_nil, hview]
    subst hs'
    exact hnone (isWeak d) rfl
  -- tokens of the new control block: none yet
  have hzero : s.refs (some h) [] s.next = 0 ∧ s.weaks (some h) [] s.next = 0 := by
    constructor
    · by_contra hne
      have := (hi.refs_pos (c := s.next) (by omega) (by omega)).1
      exact this hcbn
    · by_contra hne
      rw [weaks_nil] at hne
      obtain ⟨y, -, hy⟩ := tally_pos.mp (Nat.pos_of_ne_zero hne)
      rcases hv : s.view (some h) y with _ | ⟨q, d⟩ | ⟨q, d⟩
      · rw [hv] at hy
        cases hy
      · rw [hv] at hy
        cases hy
      · rw [hv] at hy
        obtain rfl : d = s.next := by simpa [isWeak] using hy
        rcases hi.weak y q _ hv with h0 | ⟨-, hc⟩
        · omega
        · exact hc hcbn
  have hvalid : ∀ q d, s.Valid q d → s'.Valid q d := by
    rintro q d (h0 | ⟨h1, h2, h3, h4, h5⟩)
    · exact Or.inl h0
    · have hd := hfresh d h5
      have hq : q ≠ p := by
        rintro rfl
        rw [h4.2] at hraw
        cases hraw
      subst hs'
      exact Or.inr ⟨h1, by simp [hd, h2], by simp [hq, h3], ⟨h4.1, by simp [hq, h4.2]⟩,
        by simpa [hd] using h5⟩
  have hvalidw : ∀ q d, s.ValidWeak q d → s'.ValidWeak q d := by
    rintro q d (h0 | ⟨h1, h2⟩)
    · exact Or.inl h0
    · have hd := hfresh d h2
      subst hs'
      exact Or.inr ⟨by simp [hd, h1], by simpa [hd] using h2⟩
  have hnext : s'.next = s.next + 1 := by subst hs'; rfl
  refine Inv.of_nil ?_ (fun y q d hy => ?_) (fun y q d hy => ?_) (fun d r hr => ?_)
    (fun d hd => ?_) (fun q hq => ?_) (fun q hq => ?_) (fun q ms hms => ?_) (fun y hy => ?_)
    (fun q hq => ?_) (fun d hd => ?_) (fun i hiobj => ?_) ?_ (fun i hf => ?_)
  · subst hs'
    exact hi.safe
  · rw [hview] at hy
    by_cases he : y = h
    · subst he
      rw [Function.update_self] at hy
      cases hy
      subst hs'
      exact Or.inr ⟨by omega, by simp, by simp, ⟨hobj, by simp⟩, by simp⟩
    · rw [Function.update_of_ne he] at hy
      exact hvalid q d (hi.shared y q d hy)
  · rw [hview] at hy
    by_cases he : y = h
    · subst he
      rw [Function.update_self] at hy
      cases hy
    · rw [Function.update_of_ne he] at hy
      exact hvalidw q d (hi.weak y q d hy)
  · rw [hrefs, hweaks]
    by_cases hd : d = s.next
    · subst hd
      have : r = ⟨1, 1⟩ := by
        subst hs'
        simpa using hr.symm
      subst this
      simp [hzero]
    · have hr' : s.cb d = some r := by
        subst hs'
        simpa [hd] using hr
      simpa [hd] using hi.count d r hr'
  · by_cases he : d = s.next
    · subst he hs'
      simp at hd
    · refine hi.cbUsed d ?_
      subst hs'
      simpa [he] using hd
  · rw [hrefs]
    by_cases he : q = p
    · have : s'.current q = s.next := by
        subst hs' he
        simp
      rw [this]
      simp
    · have hq' : s.Managed q := by
        subst hs'
        exact ⟨hq.1, by simpa [he] using hq.2⟩
      have hcur : s'.current q = s.current q := by
        subst hs'
        simp [he]
      have := hi.held hq'
      rw [hcur]
      omega
  · by_cases he : q = p
    · subst he hs'
      exact ⟨by simp, by simp; omega⟩
    · have hq' : s.Managed q := by
        subst hs'
        exact ⟨hq.1, by simpa [he] using hq.2⟩
      have hcb := (hi.refs_pos (hi.held hq') (hi.current q hq').2).1
      have hne := hfresh _ hcb
      subst hs'
      simpa [he, hne] using hi.current q hq'
  · have hms' : s.obj q = some ms := by
      subst hs'
      exact hms
    obtain ⟨h1, h2, h3⟩ := hi.member q ms hms'
    refine ⟨h1, h2, fun y hy => ?_⟩
    subst hs'
    refine ⟨(h3 y hy).1, ?_⟩
    by_cases he : y = h
    · simp [he]
    · simpa [he] using (h3 y hy).2
  · rw [hnext]
    by_cases he : y = h
    · omega
    · have := hi.handleBound y (by subst hs'; simpa [he] using hy)
      omega
  · have := hi.objBound q (by subst hs'; exact hq)
    omega
  · by_cases he : d = s.next
    · omega
    · have := hi.cbBound d (by subst hs'; simpa [he] using hd)
      exact ⟨by omega, this.2⟩
  · have hiobj' : s.obj i ≠ none := by
      subst hs'
      exact hiobj
    have hne : i ≠ s.next := by
      rintro rfl
      exact hiobj' hobjn
    subst hs'
    simpa [hne] using hi.apart i hiobj'
  · subst hs'
    exact hi.freedNodup
  · have hf' : i ∈ s.freed := by
      subst hs'
      exact hf
    obtain ⟨h1, h2, h3⟩ := hi.freedDead i hf'
    subst hs'
    have hne : i ≠ s.next := by omega
    exact ⟨by simp only; omega, h2, by simpa [hne] using h3⟩

/-! ## New handles and objects -/

/-- A null handle does not count. -/
theorem isNull_counts {v : Handle} (hv : isNull v = true) (hc : c ≠ 0) :
    isShared c (some v) = false ∧ isWeak c (some v) = false := by
  simp only [isNull, Bool.or_eq_true, decide_eq_true_eq] at hv
  rcases hv with rfl | rfl
  · exact ⟨by simp [isShared, nullShared, Ne.symm hc], rfl⟩
  · exact ⟨rfl, by simp [isWeak, nullWeak, Ne.symm hc]⟩

theorem isNull_valid {v : Handle} (hv : isNull v = true) (s : Ptrs) :
    (∀ p c, v = .shared p c → s.Valid p c) ∧ ∀ p c, v = .weak p c → s.ValidWeak p c := by
  simp only [isNull, Bool.or_eq_true, decide_eq_true_eq] at hv
  rcases hv with rfl | rfl
  · refine ⟨fun p c he => ?_, fun p c he => ?_⟩
    · cases he
      exact Or.inl ⟨rfl, rfl⟩
    · cases he
  · refine ⟨fun p c he => ?_, fun p c he => ?_⟩
    · cases he
    · cases he
      exact Or.inl rfl

/-- Storage for null handles is added: variables, or an object with members. -/
theorem Inv.extend (hi : Inv none s []) (n : Nat) (handle : Nat → Option Handle) (home : Nat → Nat)
    (obj : Nat → Option (List Nat)) (raw : Nat → Bool)
    (hold : ∀ x, x < s.next → handle x = s.handle x ∧ home x = s.home x ∧ obj x = s.obj x ∧
      raw x = s.raw x)
    (hnew : ∀ x v, s.next ≤ x → handle x = some v → x < s.next + n ∧ isNull v = true)
    (hobj : ∀ p ms, s.next ≤ p → obj p = some ms → p < s.next + n ∧ raw p = true ∧ ms.Nodup ∧
      ∀ x ∈ ms, home x = p ∧ handle x ≠ none) (h0 : 0 < s.next) :
    Inv none { s with handle := handle, home := home, obj := obj, raw := raw
                      next := s.next + n } [] := by
  generalize hs' : ({ s with handle := handle, home := home, obj := obj, raw := raw
                             next := s.next + n } : Ptrs) = s'
  have hcount : ∀ f : Option Handle → Bool, f none = false →
      (∀ v, isNull v = true → f (some v) = false) → tally (s.next + n) f handle =
        tally s.next f s.handle := by
    intro f hf hfn
    rw [tally_add fun x hx => ?_]
    · exact tally_congr fun x hx => by rw [(hold x hx).1]
    · rcases hv : handle x with _ | v
      · exact hf
      · exact hfn v (hnew x v hx hv).2
  have hview : s'.view none = handle := by
    subst hs'
    exact view_none
  have hrefs : ∀ d, d ≠ 0 → s'.refs none [] d = s.refs none [] d := by
    intro d hd
    rw [refs_nil, refs_nil, hview, view_none]
    subst hs'
    exact hcount (isShared d) rfl fun v hv => (isNull_counts hv hd).1
  have hweaks : ∀ d, d ≠ 0 → s'.weaks none [] d = s.weaks none [] d := by
    intro d hd
    rw [weaks_nil, weaks_nil, hview, view_none]
    subst hs'
    exact hcount (isWeak d) rfl fun v hv => (isNull_counts hv hd).2
  have hman : ∀ p, s.Managed p → s'.Managed p := by
    intro p hp
    obtain ⟨-, -, h3, h4⟩ := hold p (hi.objBound p hp.1)
    have hp' : obj p ≠ none ∧ raw p = false := ⟨by rw [h3]; exact hp.1, by rw [h4]; exact hp.2⟩
    subst hs'
    exact hp'
  have hman' : ∀ p, s'.Managed p → s.Managed p := by
    intro p hp
    have hp' : obj p ≠ none ∧ raw p = false := by
      subst hs'
      exact hp
    by_cases hlt : p < s.next
    · obtain ⟨-, -, h3, h4⟩ := hold p hlt
      exact ⟨by rw [← h3]; exact hp'.1, by rw [← h4]; exact hp'.2⟩
    · obtain ⟨ms, hms⟩ := Option.ne_none_iff_exists'.mp hp'.1
      have := (hobj p ms (by omega) hms).2.1
      rw [hp'.2] at this
      cases this
  have hvalid : ∀ p d, s.Valid p d → s'.Valid p d := fun p d hpd =>
    hpd.congr (by subst hs'; rfl) (by subst hs'; rfl) (hman p) (by subst hs'; exact id)
  have hvalidw : ∀ p d, s.ValidWeak p d → s'.ValidWeak p d := fun p d hpd =>
    hpd.congr (by subst hs'; rfl) (by subst hs'; exact id)
  refine Inv.of_nil (by subst hs'; exact hi.safe) (fun y q d hy => ?_) (fun y q d hy => ?_)
    (fun d r hr => ?_) (fun d => by subst hs'; exact hi.cbUsed d) (fun q hq => ?_)
    (fun q hq => ?_) (fun q ms hms => ?_) (fun y hy => ?_) (fun q hq => ?_) (fun d hd => ?_)
    (fun i hio => ?_) (by subst hs'; exact hi.freedNodup) (fun i hf => ?_)
  · rw [hview] at hy
    by_cases hlt : y < s.next
    · rw [(hold y hlt).1] at hy
      exact hvalid q d (hi.shared y q d (by rwa [view_none]))
    · exact (isNull_valid (hnew y _ (by omega) hy).2 s').1 q d rfl
  · rw [hview] at hy
    by_cases hlt : y < s.next
    · rw [(hold y hlt).1] at hy
      exact hvalidw q d (hi.weak y q d (by rwa [view_none]))
    · exact (isNull_valid (hnew y _ (by omega) hy).2 s').2 q d rfl
  · have hr' : s.cb d = some r := by
      subst hs'
      exact hr
    have hd := hi.cb_ne_zero (c := d) (by rw [hr']; simp)
    rw [hrefs d hd, hweaks d hd]
    exact hi.count d r hr'
  · have hcur : s'.current q = s.current q := by
      subst hs'
      rfl
    have hq' := hman' q hq
    rw [hcur, hrefs _ (hi.current q hq').2]
    have := hi.held hq'
    omega
  · subst hs'
    exact hi.current q (hman' q hq)
  · have hms' : obj q = some ms := by
      subst hs'
      exact hms
    by_cases hlt : q < s.next
    · rw [(hold q hlt).2.2.1] at hms'
      obtain ⟨h1, h2, h3⟩ := hi.member q ms hms'
      refine ⟨h1, h2, fun y hy => ?_⟩
      obtain ⟨hh, ho, -, -⟩ := hold y (hi.handleBound y (h3 y hy).2)
      have hlive : handle y ≠ none := by
        rw [hh]
        exact (h3 y hy).2
      subst hs'
      exact ⟨ho.trans (h3 y hy).1, hlive⟩
    · obtain ⟨-, -, h3, h4⟩ := hobj q ms (by omega) hms'
      refine ⟨by omega, h3, fun y hy => ?_⟩
      subst hs'
      exact h4 y hy
  · have hy' : handle y ≠ none := by
      subst hs'
      exact hy
    have hlt : y < s.next + n := by
      by_cases hlt : y < s.next
      · omega
      · obtain ⟨v, hv⟩ := Option.ne_none_iff_exists'.mp hy'
        exact (hnew y v (by omega) hv).1
    subst hs'
    exact hlt
  · have hq' : obj q ≠ none := by
      subst hs'
      exact hq
    have hlt : q < s.next + n := by
      by_cases hlt : q < s.next
      · omega
      · obtain ⟨ms, hms⟩ := Option.ne_none_iff_exists'.mp hq'
        exact (hobj q ms (by omega) hms).1
    subst hs'
    exact hlt
  · have := hi.cbBound d (by subst hs'; exact hd)
    subst hs'
    exact ⟨by simp only; omega, this.2⟩
  · have hio' : obj i ≠ none := by
      subst hs'
      exact hio
    have hcb : s.cb i = none := by
      by_contra hc
      have hlt := (hi.cbBound i hc).1
      rw [(hold i hlt).2.2.1] at hio'
      exact hc (hi.apart i hio')
    subst hs'
    exact hcb
  · have hf' : i ∈ s.freed := by
      subst hs'
      exact hf
    obtain ⟨h1, h2, h3⟩ := hi.freedDead i hf'
    have hi2 := (hold i h1).2.2.1
    subst hs'
    exact ⟨by simp only; omega, hi2.trans h2, h3⟩

/-- The invariant between calls. Numbers begin at 1. -/
structure Good (s : Ptrs) : Prop where
  inv : Inv none s []
  pos : 0 < s.next

theorem declare_next {v : Handle} : (s.declare v).handle s.next = some v := by simp [declare]

theorem declare_old {v : Handle} (hx : x ≠ s.next) : (s.declare v).handle x = s.handle x := by
  simp [declare, hx]

theorem Good.declare {v : Handle} (hg : Good s) (hv : isNull v = true) : Good (s.declare v) := by
  refine ⟨hg.inv.extend 1 (Function.update s.handle s.next (some v))
    (Function.update s.home s.next 0)
    s.obj s.raw (fun x hx => ?_) (fun x w hx hw => ?_) (fun p ms hp hms => ?_) hg.pos,
    by simp [Ptrs.declare]⟩
  · have hne : x ≠ s.next := by omega
    simp [hne]
  · by_cases he : x = s.next
    · subst he
      obtain rfl : v = w := by simpa using hw
      exact ⟨by omega, hv⟩
    · rw [Function.update_of_ne he] at hw
      have := hg.inv.handleBound x (by rw [hw]; simp)
      omega
  · have := hg.inv.objBound p (by rw [hms]; simp)
    omega

theorem Good.newObject {ms : List Handle} (hg : Good s) (hms : ms.all isNull = true) :
    Good (s.newObject ms) := by
  have hinv := hg.inv.extend (1 + ms.length)
    (fun x => if s.next < x ∧ x < s.next + 1 + ms.length then ms[x - s.next - 1]? else s.handle x)
    (fun x => if s.next < x ∧ x < s.next + 1 + ms.length then s.next else s.home x)
    (Function.update s.obj s.next (some ((List.range ms.length).map (s.next + 1 + ·))))
    (Function.update s.raw s.next true) (fun x hx => ?_) (fun x w hx hw => ?_)
    (fun p ids hp hids => ?_) hg.pos
  · refine ⟨?_, by simp only [Ptrs.newObject]; omega⟩
    rw [← Nat.add_assoc] at hinv
    exact hinv
  · have h1 : ¬ (s.next < x ∧ x < s.next + 1 + ms.length) := by omega
    have h2 : x ≠ s.next := by omega
    simp [h1, h2]
  · split at hw
    · next hin =>
      have hmem := List.mem_of_getElem? hw
      exact ⟨by omega, List.all_eq_true.mp hms w hmem⟩
    · have := hg.inv.handleBound x (by rw [hw]; simp)
      omega
  · by_cases he : p = s.next
    · subst he
      obtain rfl : (List.range ms.length).map (s.next + 1 + ·) = ids := by simpa using hids
      refine ⟨by omega, by simp, ?_, fun x hx => ?_⟩
      · exact (List.nodup_range).map fun a b hab => by omega
      · obtain ⟨i, hi, rfl⟩ := List.mem_map.mp hx
        have hlt := List.mem_range.mp hi
        have hin : s.next < s.next + 1 + i ∧ s.next + 1 + i < s.next + 1 + ms.length := by omega
        have hidx : s.next + 1 + i - s.next - 1 = i := by omega
        simp only [hin, and_self, if_true, hidx, true_and]
        simp [hlt]
    · rw [Function.update_of_ne he] at hids
      have := hg.inv.objBound p (by rw [hids]; simp)
      omega

/-! ## Calls -/

/-- The handle and what was assigned outlive the release. -/
theorem Since.obj_live (hs : Since s h ex s' []) (hnot : ¬ s.Doomed h p) (hp : s.Managed p) :
    s'.Managed p :=
  ⟨(hs.obj p hp.1).resolve_right hnot, by rw [hs.raw]; exact hp.2⟩

theorem Since.handle_live {v : Handle} (hs : Since s h (some h) s' [])
    (hnot : ¬ s.Doomed h (s.home h)) (hv : s.handle h = some v) : s'.handle h = some v := by
  rcases hs.handle h v hv with hl | ⟨-, hne⟩ | hd
  · exact hl
  · exact absurd rfl hne
  · exact absurd hd hnot

/-- A release of the fields of a handle. -/
theorem Good.perform {v : Handle} {a : PtrTask} (hg : Good s) (hv : s.handle h = some v)
    (ha : (∃ p c, v = .shared p c ∧ a = .release p c) ∨ ∃ p c, v = .weak p c ∧ a = .releaseWeak c)
    (hnot : ¬ s.Doomed h (s.home h)) :
    ∃ s', s.perform [a] = some s' ∧ Inv (some h) s' [] ∧ Since s h (some h) s' [] ∧
      s'.handle h = some v := by
  have ha' : (∃ p c, a = .release p c) ∨ ∃ c, a = .releaseWeak c := by
    rcases ha with ⟨p, c, -, rfl⟩ | ⟨p, c, -, rfl⟩
    · exact Or.inl ⟨p, c, rfl⟩
    · exact Or.inr ⟨c, rfl⟩
  have hex : ∀ x, some h = some x → x = h ∧ ¬ s.Doomed h (s.home h) := fun x hx =>
    ⟨(Option.some.inj hx).symm, hnot⟩
  obtain ⟨s', hrun, hinv, hs⟩ := runTasks_spec hex le_rfl (hg.inv.begin hv ha) (Since.start ha')
  exact ⟨s', hrun, hinv, hs, hs.handle_live hnot hv⟩

/-- `current` names the only control block of an object that has handles. -/
theorem valid_since (hinv : Inv (some h) s' []) (hs : Since s h (some h) s' [])
    (hval : s.Valid p c) (hnot : ¬ s.Doomed h p) : s'.Valid p c := by
  rcases hval with h0 | ⟨hc, hof, hcur, hman, -⟩
  · exact Or.inl h0
  · have hman' := hs.obj_live hnot hman
    have hpos := hinv.held hman'
    rw [hs.current, hcur] at hpos
    exact Or.inr ⟨hc, by rw [hs.objOf, hof], by rw [hs.current, hcur], hman',
      (hinv.refs_pos hpos hc).1⟩

theorem updateCb_next (f : RefCount → RefCount) : (s.updateCb c f).next = s.next := by
  unfold updateCb
  split <;> rfl

theorem setHandle_next {v : Handle} : (s.setHandle h v).next = s.next := by
  unfold setHandle
  split <;> rfl

/-- The release of a null handle does nothing. -/
theorem perform_null : s.perform [.release 0 0] = some s := by
  have hfuel : s.fuel [.release 0 0] = (2 + ((List.range s.next).map s.memberCost).sum) + 1 := by
    simp only [fuel, List.map_cons, List.map_nil, List.sum_cons, List.sum_nil, taskCost]
    omega
  rw [perform, hfuel, runTasks]
  simp [runTask, runTasks]

theorem Good.begin_null (hg : Good s) (hh : s.handle h = some nullShared) : Inv (some h) s [] :=
  (hg.inv.begin hh (Or.inl ⟨0, 0, rfl, rfl⟩)).dropNull (Or.inl rfl)

theorem sharedReset_next : ((s.setHandle h (.shared p c)).sharedInc p c).next = s.next := by
  unfold sharedInc
  split
  · exact setHandle_next
  · rw [updateCb_next, setHandle_next]

/-- Copy construction: the new handle is null. -/
theorem Good.sharedReset_null (hg : Good s) (hh : s.handle h = some nullShared)
    (hval : s.Valid p c) : ∃ s', s.sharedReset h p c = some s' ∧ Good s' := by
  have hrun : s.sharedReset h p c = some ((s.setHandle h (.shared p c)).sharedInc p c) := by
    rw [Ptrs.sharedReset, hh]
    simp only [nullShared, perform_null, Option.map_some]
  refine ⟨_, hrun, inv_setShared (hg.begin_null hh) (by rw [hh]; simp) hval, ?_⟩
  rw [sharedReset_next]
  exact hg.pos

theorem Good.sharedReset {q d : Nat} (hg : Good s) (hh : s.handle h = some (.shared q d))
    (hval : s.Valid p c) (hnot : ¬ s.Doomed h (s.home h)) (hnotp : ¬ s.Doomed h p) :
    ∃ s', s.sharedReset h p c = some s' ∧ Good s' := by
  obtain ⟨s1, hperf, hinv, hs, hlive⟩ := hg.perform hh (Or.inl ⟨q, d, rfl, rfl⟩) hnot
  have hrun : s.sharedReset h p c = some ((s1.setHandle h (.shared p c)).sharedInc p c) := by
    rw [Ptrs.sharedReset, hh]
    simp only [hperf, Option.map_some]
  refine ⟨_, hrun, inv_setShared hinv (by rw [hlive]; simp) (valid_since hinv hs hval hnotp), ?_⟩
  rw [sharedReset_next, hs.next]
  exact hg.pos

/-- The end of `reset(new_ptr)`. -/
theorem good_resetRaw (hinv : Inv (some h) s []) (hlive : s.handle h ≠ none) (hpos : 0 < s.next)
    (hp : p = 0 ∨ s.obj p ≠ none ∧ s.raw p = true) :
    Good (if p = 0 then s.setHandle h nullShared else (s.newCb p).setHandle h
      (.shared p s.next)) := by
  by_cases h0 : p = 0
  · rw [if_pos h0]
    have hnull := inv_setShared (p := 0) (c := 0) hinv hlive (Or.inl ⟨rfl, rfl⟩)
    refine ⟨by simpa [sharedInc, nullShared] using hnull, ?_⟩
    rw [setHandle_next]
    exact hpos
  · rw [if_neg h0]
    obtain ⟨hobj, hraw⟩ := hp.resolve_left h0
    refine ⟨inv_own hinv hlive hobj hraw, ?_⟩
    rw [setHandle_next]
    simp [newCb]

theorem Good.resetRaw_null (hg : Good s) (hh : s.handle h = some nullShared)
    (hp : p = 0 ∨ s.obj p ≠ none ∧ s.raw p = true) : ∃ s', s.resetRaw h p = some s' ∧ Good s' := by
  have hgood := good_resetRaw (hg.begin_null hh) (by rw [hh]; simp) hg.pos hp
  refine ⟨_, ?_, hgood⟩
  rw [Ptrs.resetRaw, hh]
  simp only [nullShared, perform_null, Option.map_some]

theorem Good.resetRaw {q d : Nat} (hg : Good s) (hh : s.handle h = some (.shared q d))
    (hp : p = 0 ∨ s.obj p ≠ none ∧ s.raw p = true) (hnot : ¬ s.Doomed h (s.home h)) :
    ∃ s', s.resetRaw h p = some s' ∧ Good s' := by
  obtain ⟨s1, hperf, hinv, hs, hlive⟩ := hg.perform hh (Or.inl ⟨q, d, rfl, rfl⟩) hnot
  have hp1 : p = 0 ∨ s1.obj p ≠ none ∧ s1.raw p = true := by
    refine hp.imp_right fun ⟨hobj, hraw⟩ => ⟨(hs.obj p hobj).resolve_right ?_, by rw [hs.raw, hraw]⟩
    -- a raw object is not doomed
    rintro ⟨-, hr, -⟩
    rw [hraw] at hr
    cases hr
  have hgood := good_resetRaw hinv (by rw [hlive]; simp) (by rw [hs.next]; exact hg.pos) hp1
  refine ⟨_, ?_, hgood⟩
  rw [Ptrs.resetRaw, hh]
  simp only [hperf, Option.map_some]

/-- The release of a `weak_ptr` deletes nothing but its control block. -/
theorem perform_weak (hi : Inv ex s [.releaseWeak c]) :
    ∃ s', s.perform [.releaseWeak c] = some s' ∧ Inv ex s' [] ∧ s'.handle = s.handle ∧
      s'.objOf = s.objOf ∧ s'.next = s.next := by
  have hfuel : s.fuel [.releaseWeak c] = ((List.range s.next).map s.memberCost).sum + 1 + 1 := by
    simp only [fuel, List.map_cons, List.map_nil, List.sum_cons, List.sum_nil, taskCost]
    omega
  have hinv := inv_releaseWeak hi
  rw [perform, hfuel, runTasks]
  rw [List.append_nil] at *
  have hstate : (s.runTask (.releaseWeak c)).1.handle = s.handle ∧
      (s.runTask (.releaseWeak c)).1.objOf = s.objOf ∧
      (s.runTask (.releaseWeak c)).1.next = s.next := by
    simp only [runTask, updateCb]
    split
    · exact ⟨rfl, rfl, rfl⟩
    · split
      · exact ⟨rfl, rfl, rfl⟩
      · simp
  have htasks : (s.runTask (.releaseWeak c)).2 = [] ∨
      (s.runTask (.releaseWeak c)).2 = [.deleteCb c] := by
    simp only [runTask]
    split
    · exact Or.inl rfl
    · split
      · exact Or.inl rfl
      · split
        · exact Or.inr rfl
        · exact Or.inl rfl
  generalize (s.runTask (.releaseWeak c)).1 = s1 at *
  rcases htasks with ht | ht
  · rw [ht] at hinv ⊢
    exact ⟨s1, by simp [runTasks], hinv, hstate⟩
  · rw [ht] at hinv ⊢
    have hinv' := inv_deleteCb hinv
    refine ⟨(s1.runTask (.deleteCb c)).1, ?_, ?_, ?_⟩
    · simp only [runTasks, runTask]
      split <;> simp [runTasks]
    · simp only [runTask] at hinv' ⊢
      split at hinv' <;> simpa using hinv'
    · simp only [runTask]
      split <;> exact hstate

/-- Another handle keeps the control block that is assigned. -/
theorem Good.weakReset {q d : Nat} (hg : Good s) (hh : s.handle h = some (.weak q d))
    (hval : s.ValidWeak p c)
    (hlast : c = 0 ∨ ∃ x r, x ≠ h ∧ (s.handle x = some (.shared r c) ∨
      s.handle x = some (.weak r c))) : ∃ s', s.weakReset h p c = some s' ∧ Good s' := by
  obtain ⟨s1, hperf, hinv, hhandle, hof, hnext⟩ :=
    perform_weak (hg.inv.begin hh (Or.inr ⟨q, d, rfl, rfl⟩))
  have hval1 : s1.ValidWeak p c := by
    rcases hlast with h0 | ⟨x, r, hx, hxr⟩
    · exact Or.inl h0
    · rcases eq_or_ne c 0 with h0 | h0
      · exact Or.inl h0
      · have hview : s1.view (some h) x = s.handle x := by
          rw [view_some, Function.update_of_ne hx, hhandle]
        refine Or.inr ⟨by rw [hof]; exact (hval.resolve_left h0).1, ?_⟩
        rcases hxr with hxr | hxr
        · rcases hinv.shared x r c (by rw [hview, hxr]) with ⟨-, hz⟩ | ⟨-, -, -, -, hcb⟩
          · exact absurd hz h0
          · exact hcb
        · exact ((hinv.weak x r c (by rw [hview, hxr])).resolve_left h0).2
  have hrun : s.weakReset h p c = some (if c = 0 then s1.setHandle h (.weak p c)
      else (s1.setHandle h (.weak p c)).updateCb c incWeak) := by
    rw [Ptrs.weakReset, hh]
    simp only [hperf, Option.map_some]
  refine ⟨_, hrun, inv_setWeak hinv (by rw [hhandle, hh]; simp) hval1, ?_⟩
  have hpos : 0 < s1.next := by
    rw [hnext]
    exact hg.pos
  split
  · rw [setHandle_next]
    exact hpos
  · rw [updateCb_next, setHandle_next]
    exact hpos

/-- Two `shared_ptr`s exchange their fields. -/
theorem Good.swap {g : Nat} (hg : Good s) (hh : s.handle h ≠ none) (hgl : s.handle g ≠ none) :
    Good (s.swap h g) := by
  have hi := hg.inv
  have hlt := hi.handleBound h hh
  have hlt' := hi.handleBound g hgl
  have hfrom : ∀ y, ∃ z, (s.swap h g).handle y = s.handle z := by
    intro y
    by_cases h1 : y = g
    · subst h1
      exact ⟨h, by simp [Ptrs.swap]⟩
    · by_cases h2 : y = h
      · subst h2
        exact ⟨g, by simp [Ptrs.swap, h1]⟩
      · exact ⟨y, by simp [Ptrs.swap, h1, h2]⟩
  have hlive : ∀ y, (s.swap h g).handle y ≠ none ↔ s.handle y ≠ none := by
    intro y
    by_cases h1 : y = g
    · subst h1
      simp [Ptrs.swap, hh, hgl]
    · by_cases h2 : y = h
      · subst h2
        simp [Ptrs.swap, h1, hh, hgl]
      · simp [Ptrs.swap, h1, h2]
  have hcount : ∀ f : Option Handle → Bool, tally s.next f (s.swap h g).handle =
      tally s.next f s.handle := fun f => tally_swap hlt hlt'
  have hrefs : ∀ d, (s.swap h g).refs none [] d = s.refs none [] d := fun d => by
    rw [refs_nil, refs_nil, view_none, view_none]
    exact hcount _
  have hweaks : ∀ d, (s.swap h g).weaks none [] d = s.weaks none [] d := fun d => by
    rw [weaks_nil, weaks_nil, view_none, view_none]
    exact hcount _
  refine ⟨Inv.of_nil hi.safe (fun y q d hy => ?_) (fun y q d hy => ?_) (fun d r hr => ?_) hi.cbUsed
    (fun q hq => ?_) hi.current (fun q ms hms => ?_)
    (fun y hy => hi.handleBound y ((hlive y).mp hy))
    hi.objBound hi.cbBound hi.apart hi.freedNodup hi.freedDead, hg.pos⟩
  · obtain ⟨z, hz⟩ := hfrom y
    rw [view_none, hz] at hy
    exact hi.shared z q d (by rwa [view_none])
  · obtain ⟨z, hz⟩ := hfrom y
    rw [view_none, hz] at hy
    exact hi.weak z q d (by rwa [view_none])
  · rw [hrefs, hweaks]
    exact hi.count d r hr
  · rw [hrefs]
    have := hi.held (p := q) hq
    show s.refs none [] (s.current q) ≠ 0
    omega
  · obtain ⟨h1, h2, h3⟩ := hi.member q ms hms
    exact ⟨h1, h2, fun y hy => ⟨(h3 y hy).1, (hlive y).mpr (h3 y hy).2⟩⟩

theorem Good.destroy (hg : Good s) (hh : s.handle h ≠ none) (hhome : s.home h = 0) :
    ∃ s', s.perform [.destroy h] = some s' ∧ Good s' := by
  have hi := hg.inv
  have hobj0 : s.obj 0 = none := by
    by_contra hne
    obtain ⟨ms, hms⟩ := Option.ne_none_iff_exists'.mp hne
    exact (hi.member 0 ms hms).1 rfl
  have hrefs : ∀ d, s.refs none [.destroy h] d = s.refs none [] d := fun d => by
    rw [refs_cons]
    rfl
  have hweaks : ∀ d, s.weaks none [.destroy h] d = s.weaks none [] d := fun d => by
    rw [weaks_cons]
    rfl
  have hstart : Inv none s [.destroy h] := by
    refine { hi with
      release := fun p c hm => absurd (List.mem_singleton.mp hm) (by simp)
      releaseWeak := fun c hm => absurd (List.mem_singleton.mp hm) (by simp)
      count := fun d r hr => ?_
      cbTask := fun d => ?_
      objTask := fun q => ?_
      destroy := fun x => ⟨?_, fun hm => ?_⟩ }
    · rw [hrefs, hweaks]
      exact hi.count d r hr
    · rw [List.count_cons_of_ne (by simp)]
      exact hi.cbTask d
    · rw [List.count_cons_of_ne (by simp), hrefs]
      exact hi.objTask q
    · rw [List.count_singleton]
      split <;> omega
    · obtain rfl : x = h := by simpa using hm
      exact ⟨hh, by rw [hhome]; exact hobj0⟩
  have hsince : Since s h none s [.destroy h] := by
    refine ⟨rfl, rfl, rfl, rfl, rfl, fun _ _ hv => Or.inl hv, fun _ _ hv => hv, fun x hm => ?_,
      fun p hm => absurd (List.mem_singleton.mp hm) (by simp), fun _ hp => Or.inl hp⟩
    obtain rfl : x = h := by simpa using hm
    exact Or.inl ⟨rfl, by simp⟩
  obtain ⟨s', hrun, hinv, hs⟩ := runTasks_spec (fun x hx => by cases hx) le_rfl hstart hsince
  exact ⟨s', hrun, hinv, by rw [hs.next]; exact hg.pos⟩

/-- An object that is about to be deleted gets a new owner instead. -/
theorem Inv.rescue {t : List PtrTask} (hi : Inv ex s (.delete p :: t)) :
    Inv ex { s with raw := Function.update s.raw p true } t ∧ s.obj p ≠ none := by
  have htask := hi.objTask p
  rw [List.count_cons_self] at htask
  obtain ⟨⟨hobj, hrefs0⟩, hcount0⟩ :
      (s.Managed p ∧ s.refs ex (.delete p :: t) (s.current p) = 0) ∧ t.count (.delete p) = 0 := by
    split at htask
    · next hyp => exact ⟨hyp, by omega⟩
    · omega
  have hrefs : ∀ d, s.refs ex (.delete p :: t) d = s.refs ex t d := fun d => by
    rw [refs_cons]
    rfl
  have hweaks : ∀ d, s.weaks ex (.delete p :: t) d = s.weaks ex t d := fun d => by
    rw [weaks_cons]
    rfl
  have hman : ∀ q, q ≠ p → (Managed { s with raw := Function.update s.raw p true } q ↔
      s.Managed q) := by
    intro q hq
    simp [Managed, hq]
  have hself : ¬ Managed { s with raw := Function.update s.raw p true } p := by
    simp [Managed]
  have hvalid : ∀ q d, 0 < s.refs ex (.delete p :: t) d → s.Valid q d →
      Valid { s with raw := Function.update s.raw p true } q d := by
    intro q d hpos hval
    refine hval.congr rfl rfl (fun hq => (hman q ?_).mpr hq) id
    rintro rfl
    rcases hval with ⟨h0, -⟩ | ⟨-, -, hcur, -⟩
    · exact hi.obj_ne_zero hobj h0
    · rw [hcur] at hrefs0
      omega
  refine ⟨⟨hi.safe, fun x q d hv => hvalid q d (hi.refs_pos_of_handle hv) (hi.shared x q d hv),
    fun x q d hv => (hi.weak x q d hv).congr rfl id, fun q d hm => ?_,
    fun d hm => hi.releaseWeak d (List.mem_cons_of_mem _ hm), fun d r hr => ?_, fun d => ?_,
    fun q => ?_, fun q hq => ?_, hi.member, fun x => ⟨?_, fun hm => ?_⟩,
    hi.handleBound, hi.objBound, hi.cbBound, hi.apart, hi.freedNodup, hi.freedDead⟩, hobj.1⟩
  · have hm' := List.mem_cons_of_mem (PtrTask.delete p) hm
    exact hvalid q d (refs_pos_of_release hm') (hi.release q d hm')
  · show r.refCount = s.refs ex t d ∧ r.weakCount = s.refs ex t d + s.weaks ex t d
    rw [← hrefs, ← hweaks]
    exact hi.count d r hr
  · have := hi.cbTask d
    rwa [List.count_cons_of_ne (by simp)] at this
  · by_cases hq : q = p
    · subst hq
      rw [hcount0, if_neg fun hm => hself hm.1]
    · have := hi.objTask q
      rw [List.count_cons_of_ne (by simp [Ne.symm hq]), hrefs] at this
      rw [this]
      exact if_congr (and_congr_left fun _ => (hman q hq).symm) rfl rfl
  · by_cases he : q = p
    · subst he
      exact absurd hq hself
    · exact hi.current q ((hman q he).mp hq)
  · have := (hi.destroy x).1
    rwa [List.count_cons_of_ne (by simp)] at this
  · exact (hi.destroy x).2 (List.mem_cons_of_mem _ hm)

/-- The handle `h` becomes the only one of a new control block. -/
def detached (s : Ptrs) (h p : Nat) : Ptrs := (s.newCb p).setHandle h (.shared p s.next)

theorem good_detached (hi : Inv (some h) { s with raw := Function.update s.raw p true } [])
    (hlive : s.handle h ≠ none) (hobj : s.obj p ≠ none) : Good (detached s h p) := by
  have hown := inv_own (p := p) hi hlive hobj (by simp)
  have hraw : newCb { s with raw := Function.update s.raw p true } p = s.newCb p := by
    simp [newCb]
  rw [hraw] at hown
  refine ⟨hown, ?_⟩
  rw [detached, setHandle_next]
  simp [newCb]

theorem Good.tryDetachWeak (hg : Good s) (hh : s.handle h = some (.shared p c)) :
    ∃ s', s.tryDetachWeak h = some s' ∧ Good s' := by
  have hi := hg.inv
  have hlive : s.handle h ≠ none := by
    rw [hh]
    simp
  rcases hi.shared h p c (by rw [view_none, hh]) with ⟨rfl, rfl⟩ | ⟨hc, -, -, hman, hcb⟩
  · exact ⟨s, by simp [Ptrs.tryDetachWeak, hh], hg⟩
  obtain ⟨r, hr⟩ := Option.ne_none_iff_exists'.mp hcb
  have hp := hi.obj_ne_zero hman
  by_cases hone : 1 < r.refCount
  · exact ⟨s, by simp [Ptrs.tryDetachWeak, hh, hp, hc, hr, hone], hg⟩
  have hpos : 0 < s.refs none [] c := hi.refs_pos_of_handle (by rw [view_none, hh])
  have hcount := hi.count c r hr
  have href : (decRef r).refCount = 0 := by
    have : r.refCount = 0 + 1 := by omega
    simp only [decRef, this, decrement]
  -- release the only handle, and keep the object
  have hrel := inv_release (hi.begin hh (Or.inl ⟨p, c, rfl, rfl⟩))
  rw [runTask_release hp hc hr, if_pos href] at hrel
  obtain ⟨hres, hobj⟩ := Inv.rescue (by simpa using hrel)
  have hlow : s.updateCb c decRef = { s with cb := Function.update s.cb c (some (decRef r)) } := by
    simp [updateCb, hr]
  by_cases hw : (decRef r).weakCount = 0
  · rw [if_pos hw] at hres
    have hdel := inv_deleteCb hres
    simp only [runTask, Function.update_self, List.append_nil] at hdel
    have hrun : s.tryDetachWeak h = some (detached
        { s with cb := Function.update (Function.update s.cb c (some (decRef r))) c none
                 freed := c :: s.freed } h p) := by
      simp only [Ptrs.tryDetachWeak, hh, hp, hc, or_self, if_false, hr, hone, hw, if_true, hlow,
        detached]
    exact ⟨_, hrun, good_detached hdel hlive hobj⟩
  · rw [if_neg hw] at hres
    have hrun : s.tryDetachWeak h = some (detached
        { s with cb := Function.update s.cb c (some (decRef r)) } h p) := by
      simp only [Ptrs.tryDetachWeak, hh, hp, hc, or_self, if_false, hr, hone, hw, hlow, detached]
    exact ⟨_, hrun, good_detached hres hlive hobj⟩

theorem Good.lock (hg : Good s) (hx : s.handle x = some (.weak p c)) : Good (s.lock p c) := by
  have hdecl : Good (s.declare nullShared) := hg.declare rfl
  rcases eq_or_ne c 0 with rfl | hc
  · simpa [Ptrs.lock] using hdecl
  obtain ⟨hof, hcb⟩ := (hg.inv.weak x p c (by rw [view_none, hx])).resolve_left hc
  obtain ⟨r, hr⟩ := Option.ne_none_iff_exists'.mp hcb
  have hnull : (s.declare nullShared).handle s.next = some nullShared := declare_next
  have hbegin := hdecl.begin_null hnull
  have hlock : s.lock p c = if r.refCount = 0
      then (s.declare nullShared).setHandle s.next nullShared
      else ((s.declare nullShared).setHandle s.next (.shared p c)).updateCb c incRef := by
    have hcb' : (s.declare nullShared).cb c = some r := hr
    simp only [Ptrs.lock, hc, if_false, sharedResetWeak, hcb']
  rw [hlock]
  by_cases hz : r.refCount = 0
  · rw [if_pos hz]
    have hset := inv_setShared (p := 0) (c := 0) hbegin (by rw [hnull]; simp) (Or.inl ⟨rfl, rfl⟩)
    refine ⟨by simpa [sharedInc, nullShared] using hset, ?_⟩
    rw [setHandle_next]
    exact hdecl.pos
  · rw [if_neg hz]
    have hpos : 0 < s.refs none [] c := by
      have := (hg.inv.count c r hr).1
      omega
    obtain ⟨-, hcur, hman⟩ := hg.inv.refs_pos hpos hc
    rw [hof] at hcur hman
    have hval : (s.declare nullShared).Valid p c := Or.inr ⟨hc, hof, hcur, hman, hcb⟩
    have hset := inv_setShared hbegin (by rw [hnull]; simp) hval
    have hp := hg.inv.obj_ne_zero hman
    refine ⟨by simpa [sharedInc, hp, hc] using hset, ?_⟩
    rw [updateCb_next, setHandle_next]
    exact hdecl.pos

/-! ## Every call, every run -/

/-- The operation is a call in this state. -/
def Callable (s : Ptrs) (op : PtrOp) : Prop :=
  match op with
  | .new ms => ms.all isNull = true
  | .null _ => True
  | .construct p => s.raw p = true ∧ s.obj p ≠ none
  | .copy src | .move src | .getWeak src => ∃ p c, s.handle src = some (.shared p c)
  | .assign dst src | .moveAssign dst src =>
    (∃ p c, s.handle dst = some (.shared p c)) ∧ ∃ p c, s.handle src = some (.shared p c)
  | .reset h | .tryDetachWeak h => ∃ p c, s.handle h = some (.shared p c)
  | .resetNew h p => (∃ q c, s.handle h = some (.shared q c)) ∧ s.raw p = true ∧ s.obj p ≠ none
  | .destroy h => s.handle h ≠ none ∧ s.home h = 0
  | .weakCopy src | .lock src => ∃ p c, s.handle src = some (.weak p c)
  | .weakAssign dst src =>
    (∃ p c, s.handle dst = some (.weak p c)) ∧ ∃ p c, s.handle src = some (.weak p c)

theorem exec_good {op : PtrOp} (hg : Good s) (hcall : s.Callable op) (hok : s.AssignOk op) :
    ∃ s', s.exec op = some s' ∧ Good s' := by
  have hold : ∀ {y : Nat} {v w : Handle}, s.handle y = some v →
      (s.declare w).handle y = some v := by
    intro y v w hy
    have hlt := hg.inv.handleBound y (by rw [hy]; simp)
    rw [declare_old (by omega), hy]
  have hvalid : ∀ {y q d : Nat}, s.handle y = some (.shared q d) → s.Valid q d := fun hy =>
    hg.inv.shared _ _ _ (by rw [view_none, hy])
  have hvalidw : ∀ {y q d : Nat}, s.handle y = some (.weak q d) → s.ValidWeak q d := fun hy =>
    hg.inv.weak _ _ _ (by rw [view_none, hy])
  cases op with
  | new ms =>
    have hnull : ms.all isNull = true := hcall
    exact ⟨s.newObject ms, by simp only [exec, hnull, if_true], hg.newObject hnull⟩
  | null weak =>
    refine ⟨_, rfl, hg.declare ?_⟩
    cases weak <;> rfl
  | construct p =>
    obtain ⟨s', hs', hg'⟩ := (hg.declare (v := nullShared) rfl).resetRaw_null (h := s.next) (p := p)
      declare_next (Or.inr ⟨hcall.2, hcall.1⟩)
    exact ⟨s', by simp only [exec]; rw [if_pos ⟨hcall.1, hcall.2⟩, hs'], hg'⟩
  | copy src =>
    obtain ⟨p, c, hsrc⟩ := hcall
    have hval : (s.declare nullShared).Valid p c := hvalid hsrc
    obtain ⟨s', hs', hg'⟩ := (hg.declare (v := nullShared) rfl).sharedReset_null declare_next hval
    exact ⟨s', by simp only [exec, hsrc, hs'], hg'⟩
  | move src =>
    obtain ⟨p, c, hsrc⟩ := hcall
    refine ⟨(s.declare nullShared).swap s.next src, by simp only [exec, hsrc],
      (hg.declare (v := nullShared) rfl).swap ?_ ?_⟩
    · rw [declare_next]
      simp
    · rw [hold hsrc]
      simp
  | assign dst src =>
    obtain ⟨⟨q, d, hdst⟩, p, c, hsrc⟩ := hcall
    obtain ⟨s', hs', hg'⟩ := hg.sharedReset hdst (hvalid hsrc) hok.1 (hok.2 p c hsrc)
    exact ⟨s', by simp only [exec, hsrc, hs'], hg'⟩
  | moveAssign dst src =>
    obtain ⟨⟨q, d, hdst⟩, p, c, hsrc⟩ := hcall
    exact ⟨s.swap dst src, by simp only [exec, hdst, hsrc],
      hg.swap (by rw [hdst]; simp) (by rw [hsrc]; simp)⟩
  | reset h =>
    obtain ⟨q, d, hh⟩ := hcall
    exact hg.resetRaw hh (Or.inl rfl) hok
  | resetNew h p =>
    obtain ⟨⟨q, d, hh⟩, hraw, hobj⟩ := hcall
    obtain ⟨s', hs', hg'⟩ := hg.resetRaw hh (Or.inr ⟨hobj, hraw⟩) hok
    exact ⟨s', by simp only [exec]; rw [if_pos ⟨hraw, hobj⟩, hs'], hg'⟩
  | destroy h =>
    obtain ⟨s', hs', hg'⟩ := hg.destroy hcall.1 hcall.2
    exact ⟨s', by simp only [exec]; rw [if_neg (by simp [hcall.1, hcall.2]), hs'], hg'⟩
  | getWeak src =>
    obtain ⟨p, c, hsrc⟩ := hcall
    have hlt := hg.inv.handleBound src (by rw [hsrc]; simp)
    have hval : (s.declare nullWeak).ValidWeak p c := by
      rcases hvalid hsrc with ⟨-, h0⟩ | ⟨-, hof, -, -, hcb⟩
      · exact Or.inl h0
      · exact Or.inr ⟨hof, hcb⟩
    obtain ⟨s', hs', hg'⟩ := (hg.declare (v := nullWeak) rfl).weakReset declare_next hval
      (Or.inr ⟨src, p, by omega, Or.inl (hold hsrc)⟩)
    exact ⟨s', by simp only [exec, hsrc, hs'], hg'⟩
  | weakCopy src =>
    obtain ⟨p, c, hsrc⟩ := hcall
    have hlt := hg.inv.handleBound src (by rw [hsrc]; simp)
    have hval : (s.declare nullWeak).ValidWeak p c := hvalidw hsrc
    obtain ⟨s', hs', hg'⟩ := (hg.declare (v := nullWeak) rfl).weakReset declare_next hval
      (Or.inr ⟨src, p, by omega, Or.inr (hold hsrc)⟩)
    exact ⟨s', by simp only [exec, hsrc, hs'], hg'⟩
  | weakAssign dst src =>
    obtain ⟨⟨q, d, hdst⟩, p, c, hsrc⟩ := hcall
    have hlast : c = 0 ∨ ∃ x r, x ≠ dst ∧
        (s.handle x = some (.shared r c) ∨ s.handle x = some (.weak r c)) := by
      by_cases he : dst = src
      · exact hok he p c hsrc
      · exact Or.inr ⟨src, p, Ne.symm he, Or.inr hsrc⟩
    obtain ⟨s', hs', hg'⟩ := hg.weakReset hdst (hvalidw hsrc) hlast
    exact ⟨s', by simp only [exec, hsrc, hs'], hg'⟩
  | lock src =>
    obtain ⟨p, c, hsrc⟩ := hcall
    exact ⟨_, by simp only [exec, hsrc], hg.lock hsrc⟩
  | tryDetachWeak h =>
    obtain ⟨p, c, hh⟩ := hcall
    exact hg.tryDetachWeak hh

theorem resetRaw_callable (hs : s.resetRaw h p = some s') :
    ∃ q d, s.handle h = some (.shared q d) := by
  unfold Ptrs.resetRaw at hs
  split at hs
  · next q d hh => exact ⟨q, d, hh⟩
  · cases hs

theorem sharedReset_callable (hs : s.sharedReset h p c = some s') :
    ∃ q d, s.handle h = some (.shared q d) := by
  unfold Ptrs.sharedReset at hs
  split at hs
  · next q d hh => exact ⟨q, d, hh⟩
  · cases hs

theorem weakReset_callable (hs : s.weakReset h p c = some s') :
    ∃ q d, s.handle h = some (.weak q d) := by
  unfold Ptrs.weakReset at hs
  split at hs
  · next q d hh => exact ⟨q, d, hh⟩
  · cases hs

theorem tryDetachWeak_callable (hs : s.tryDetachWeak h = some s') :
    ∃ q d, s.handle h = some (.shared q d) := by
  unfold Ptrs.tryDetachWeak at hs
  split at hs
  · next q d hh => exact ⟨q, d, hh⟩
  · cases hs

theorem step_callable {op : PtrOp} (hs : Step s op s') : s.Callable op := by
  unfold Step at hs
  cases op <;> simp only [exec] at hs
  case new ms =>
    split at hs
    · next hms => exact hms
    · cases hs
  case null => trivial
  case construct p =>
    split at hs
    · next hp => exact hp
    · cases hs
  case copy src =>
    split at hs
    · next p c hsrc => exact ⟨p, c, hsrc⟩
    · cases hs
  case move src =>
    split at hs
    · next p c hsrc => exact ⟨p, c, hsrc⟩
    · cases hs
  case assign dst src =>
    split at hs
    · next p c hsrc => exact ⟨sharedReset_callable hs, p, c, hsrc⟩
    · cases hs
  case moveAssign dst src =>
    split at hs
    · next q d p c hdst hsrc => exact ⟨⟨q, d, hdst⟩, p, c, hsrc⟩
    · cases hs
  case reset h => exact resetRaw_callable hs
  case resetNew h p =>
    split at hs
    · next hp => exact ⟨resetRaw_callable hs, hp⟩
    · cases hs
  case destroy h =>
    split at hs
    · cases hs
    · next hn => exact ⟨fun h0 => hn (Or.inl h0), by_contra fun h0 => hn (Or.inr h0)⟩
  case getWeak src =>
    split at hs
    · next p c hsrc => exact ⟨p, c, hsrc⟩
    · cases hs
  case weakCopy src =>
    split at hs
    · next p c hsrc => exact ⟨p, c, hsrc⟩
    · cases hs
  case weakAssign dst src =>
    split at hs
    · next p c hsrc => exact ⟨weakReset_callable hs, p, c, hsrc⟩
    · cases hs
  case lock src =>
    split at hs
    · next p c hsrc => exact ⟨p, c, hsrc⟩
    · cases hs
  case tryDetachWeak h => exact tryDetachWeak_callable hs

theorem good_empty : Good empty := by
  have hrefs : ∀ d, empty.refs none [] d = 0 := fun d => by
    rw [refs_nil, view_none]
    exact tally_eq_zero.mpr fun _ _ => rfl
  refine ⟨Inv.of_nil rfl (fun y q d hy => ?_) (fun y q d hy => ?_) (fun d r hr => ?_)
    (fun d hd => ?_)
    (fun q hq => absurd rfl hq.1) (fun q hq => absurd rfl hq.1) (fun q ms hms => ?_)
    (fun y hy => absurd rfl hy) (fun q hq => absurd rfl hq) (fun d hd => absurd rfl hd)
    (fun i _ => rfl) List.nodup_nil (fun i hf => absurd hf List.not_mem_nil), by decide⟩
  · rw [view_none] at hy
    cases hy
  · rw [view_none] at hy
    cases hy
  · cases hr
  · cases hd
  · cases hms

/-- One call between states without calls under way. -/
theorem step_good {op : PtrOp} (hg : Good s) (hs : Guarded Step AssignOk s op s') : Good s' := by
  obtain ⟨t, ht, hgt⟩ := exec_good hg (step_callable hs.2) hs.1
  have he : some s' = some t := hs.2.symm.trans ht
  rwa [Option.some.inj he]

/-- In a run whose assignments do not release what they assign, the handles own what they point to
at all times, and every call returns. -/
theorem owned_ok {ops : List PtrOp} {s : Ptrs} (hrun : Run (Guarded Step AssignOk) empty ops s) :
    s.Owned ∧ ∀ op, s.Callable op → s.AssignOk op → ∃ s', Step s op s' := by
  have hg : Good s := hrun.invariant (fun _ _ _ h hs => step_good h hs) good_empty
  refine ⟨hg.inv.owned, fun op hcall hok => ?_⟩
  obtain ⟨s', hs', -⟩ := exec_good hg hcall hok
  exact ⟨s', hs'⟩

theorem owned_ok_reset : ∃ s : Ptrs, Run (Guarded Step AssignOk) empty
    [.new [], .construct 1, .copy 2, .reset 2] s ∧ s.Owned := by
  have hnot : ∀ s : Ptrs, s.home 2 = 0 → s.AssignOk (.reset 2) := by
    intro s h0 hd
    rw [h0] at hd
    cases hd with
    | intro hne _ _ => exact hne rfl
  have hrun : ∃ s : Ptrs, Run (Guarded Step AssignOk) empty
      ([] ++ [.new []] ++ [.construct 1] ++ [.copy 2] ++ [.reset 2]) s :=
    ⟨_, Run.snoc (Run.snoc (Run.snoc (Run.snoc (Run.nil empty) ⟨trivial, rfl⟩) ⟨trivial, rfl⟩)
      ⟨trivial, rfl⟩) ⟨hnot _ rfl, rfl⟩⟩
  obtain ⟨s, hs⟩ := hrun
  exact ⟨s, hs, (owned_ok hs).1⟩

/-- Several calls. -/
def execAll (s : Ptrs) : List PtrOp → Option Ptrs
  | [] => some s
  | op :: ops => (s.exec op).bind fun s => s.execAll ops

theorem run_execAll {ops : List PtrOp} : ∀ {s s' : Ptrs}, s.execAll ops = some s' →
    Run Step s ops s' := by
  induction ops with
  | nil =>
    intro s s' h
    obtain rfl := Option.some.inj h
    exact Run.nil s
  | cons op ops ih =>
    intro s s' h
    obtain ⟨t, ht, hrest⟩ := Option.bind_eq_some_iff.mp h
    have hstep : Step s op t := ht
    exact (Run.single hstep).append (ih hrest)

/-- The only handle of an object is assigned to itself. -/
theorem self_assign_dangling : ¬ ∀ ops s, Run Step empty ops s → s.Owned := by
  intro hall
  have hdangling : (empty.execAll [.new [], .construct 1, .assign 2 2]).map (·.dangling) =
      some true := by
    decide +kernel
  obtain ⟨s, hs, hd⟩ := Option.map_eq_some_iff.mp hdangling
  have := (hall _ s (run_execAll hs)).safe
  rw [hd] at this
  cases this

end Ptrs

end CoroCore
