import CoroCore.Drivers.VirtioFlight

/-!
# The descriptor protocol of the virtio disk

Every event keeps the invariant as long as no call finds the device broken and the device publishes
no failed request (`Inv.step`). `descriptor_protocol` is what the driver may rely on with a device
that serves every chain, reports success and never has to be reset.
-/

namespace CoroCore.Virtio

open Lib Disk Sys

variable {s s' : Sys} {d d' : Disk} {pc : Nat → Pc} {c t : Nat} {r : Req} {ch : Chain}
    {reset : Bool}

/-! ## Every event keeps the invariant -/

/-- The events after which the driver does not recover. A call in the second wait loop reads
`DEVICE_NEEDS_RESET` before its chain is done, also in the round right after it has submitted the
chain; or the device publishes a request whose status byte is not 0. -/
def Faulty (s : Sys) : Event → Prop
  | .call _ r config needsReset =>
    needsReset = true ∧ r.count = 1 ∧ ¬ outOfRange r config ∧ 3 ≤ s.disk.freeSet.card
  | .resume c needsReset =>
    needsReset = true ∧
      match s.pc c with
      | .retry _ => 3 ≤ s.disk.freeSet.card
      | .waiting _ ch _ => s.disk.done ch.head = false
      | _ => False
  | .publish j => s.disk.status j.head ≠ 0
  | _ => False

theorem init_inv : Inv init where
  unlocked := by simp [init]
  owns := by
    refine ⟨fun c r ch t hc => ?_, fun c r ch t hc => ?_, fun i => ?_, fun i o o' ho => ?_⟩
    · cases hc
    · cases hc
    · refine ⟨fun hi => ?_, ?_⟩
      · have hfree : decide (i < NUM) = false := hi.2
        exact absurd hi.1 (of_decide_eq_false hfree)
      · rintro ⟨o, r, ch, t, ho, -⟩
        cases ho
    · obtain ⟨r, ch, t, ho, -⟩ := ho
      cases ho
  sleeps := by
    refine ⟨fun c hc => ?_, List.nodup_nil, fun i c hc => ?_, fun c hc => ?_⟩
    · cases hc
    · cases hc
    · cases hc
  flight := by
    refine ⟨.empty _, .empty _, .refl _, by simp [init], by simp [init], fun c r ch t hc => ?_,
      by simp [init], fun c t hc => ?_⟩
    · cases hc
    · cases hc
  succeeded j hj := by cases hj

/-- What the test of the second wait loop does. -/
theorem Inv.check_cases (h : Inv s) (hpc : s.pc c = .waiting r ch t) (reset : Bool) :
    (s.disk.done ch.head = true ∧ ∃ d', Released s.disk ch.descs d' ∧
      s.check c r ch t reset = setPc { s with disk := d' } c (.returned t 0)) ∨
    (s.disk.done ch.head = false ∧ reset = true ∧
      s.check c r ch t reset = setPc { s with lock := .abandoned } c (.returned t (-1))) ∨
    (s.disk.done ch.head = false ∧ reset = false ∧ (s.check c r ch t reset = s ∨
      s.check c r ch t reset =
        { s with
          disk :=
            { s.disk with
              sleeper := Function.update s.disk.sleeper ch.head (some c)
              asleep := Function.update s.disk.asleep c true } })) := by
  unfold check
  cases hdone : s.disk.done ch.head with
  | true =>
    obtain ⟨d', hd', hr⟩ := freeChain_descs (h.owns.formatted c r ch t hpc)
      (h.owns.nodup c r ch t hpc) fun i hi => h.owns.held hpc hi
    exact .inl ⟨rfl, d', hr, by rw [if_pos rfl, hd']⟩
  | false =>
    cases reset with
    | true => exact .inr (.inl ⟨rfl, rfl, rfl⟩)
    | false =>
      refine .inr (.inr ⟨rfl, rfl, ?_⟩)
      cases r.noYield with
      | true => exact .inl rfl
      | false => exact .inr rfl

/-- What a round of the first wait loop does. -/
theorem attempt_cases (s : Sys) (c : Nat) (r : Req) (reset : Bool) :
    (3 ≤ s.disk.freeSet.card ∧ ∃ ch d', Held s.disk ch.descs d' ∧
      s.attempt c r reset =
        (submit { s with disk := d' } c r ch).check c r ch s.submitted.length reset) ∨
    (s.disk.freeSet.card < 3 ∧ ∃ d' is, Released s.disk is d' ∧ (∀ i ∈ is, s.disk.free i = true) ∧
      (s.attempt c r reset = setPc { s with disk := d' } c (.retry r) ∨
        s.attempt c r reset =
          setPc
            { s with
              disk :=
                { d' with
                  requestQueue := d'.requestQueue ++ [c]
                  asleep := Function.update d'.asleep c true } } c (.retry r))) := by
  unfold attempt
  rcases allocDescs_cases s.disk with ⟨a, b, k, d', he, hheld, hcard⟩ | ⟨d', is, he,
    hr, hall, hcard⟩
  · exact .inl ⟨hcard, ⟨a, b, k⟩, d', hheld, by rw [he]; rfl⟩
  · refine .inr ⟨hcard, d', is, hr, hall, ?_⟩
    rw [he]
    cases r.noYield with
    | true => exact .inl rfl
    | false => exact .inr rfl

theorem Inv.check (h : Inv s) (hpc : s.pc c = .waiting r ch t) (hawake : s.disk.asleep c = false)
    (hok : s.disk.done ch.head = false → reset = false) : Inv (s.check c r ch t reset) := by
  rcases h.check_cases hpc reset with
    ⟨hdone, d', hr, heq⟩ | ⟨hdone, hreset, -⟩ | ⟨hdone, -, heq | heq⟩
  · rw [heq]
    obtain ⟨hsl, haw⟩ := h.sleeps.release hr
    refine ⟨h.unlocked, h.owns.release hpc hr (by simp), hsl.setPc (haw c hawake) _,
      h.flight.retarget hr.sameRings (fun c' r' ch' t' hc' => ?_) (fun c' r' ch' t' hc' hd => ?_)
        fun c' t' hc' => ?_, ?_⟩
    · rcases eq_or_ne c' c with rfl | hne
      · rw [Function.update_self] at hc'
        cases hc'
      · rwa [Function.update_of_ne hne] at hc'
    · have hne : c' ≠ c := by
        rintro rfl
        rw [hpc, Pc.waiting.injEq] at hc'
        obtain ⟨rfl, rfl, rfl⟩ := hc'
        rw [hdone] at hd
        cases hd
      rwa [Function.update_of_ne hne]
    · rcases eq_or_ne c' c with rfl | hne
      · rw [Function.update_self, Pc.returned.injEq] at hc'
        exact .inr ⟨r, ch, hc'.1 ▸ hpc, hdone⟩
      · rw [Function.update_of_ne hne] at hc'
        exact .inl hc'
    · obtain ⟨k, rfl⟩ := hr
      exact h.succeeded
  · rw [hok hdone] at hreset
    cases hreset
  · rw [heq]
    exact h
  · rw [heq]
    refine ⟨h.unlocked, ?_, h.sleeps.sleep h.owns hpc hawake hdone,
      h.flight.retarget ⟨_, _, _, _, _, _, rfl⟩ (fun _ _ _ _ hc => hc) (fun _ _ _ _ hc _ => hc)
        fun _ _ hc => .inl hc, h.succeeded⟩
    exact h.owns.congr (fun _ => rfl) rfl (fun _ _ => rfl) fun _ _ _ _ => Iff.rfl

/-- A call that has taken three descriptors submits a chain and goes into the second wait loop. -/
theorem Inv.submit (h : Inv s) (hawake : s.disk.asleep c = false)
    (hnew : ∀ r ch t, s.pc c ≠ .waiting r ch t) (hheld : Held s.disk ch.descs d') :
    Inv (submit { s with disk := d' } c r ch) := by
  refine ⟨h.unlocked, ?_, ?_, h.flight.submit h.owns hheld hnew, fun j hj => ?_⟩
  · have htake := h.owns.take (r := r) (t := s.submitted.length) hheld hnew
    exact htake.congr (fun _ => rfl) rfl (fun _ _ => rfl) fun _ _ _ _ => Iff.rfl
  · have hsl : Sleeps d' s.pc := by
      rw [hheld.eq]
      exact ⟨h.sleeps.queue, h.sleeps.nodup, h.sleeps.sleeper, h.sleeps.asleep⟩
    have haw : d'.asleep c = false := by
      rw [hheld.eq]
      exact hawake
    have hfmt := (hsl.setPc haw (.waiting r ch s.submitted.length)).format r ch
    exact ⟨hfmt.queue, hfmt.nodup, hfmt.sleeper, hfmt.asleep⟩
  · obtain ⟨e, -, hhead, hpc, -⟩ := h.flight.owner (.inr (.inr hj))
    have hne : j.head ≠ ch.head := by
      intro heq
      have hused := (h.owns.held hpc e.chain.head_mem).2
      rw [hhead, heq, (hheld.free _ ch.head_mem).2] at hused
      cases hused
    have hst : d'.status j.head = s.disk.status j.head := by
      rw [hheld.eq]
    exact (Function.update_of_ne hne ..).trans (hst.trans (h.succeeded j hj))

theorem submit_facts (s : Sys) (c : Nat) (r : Req) (ch : Chain) :
    (s.submit c r ch).pc c = .waiting r ch s.submitted.length ∧
      (s.submit c r ch).disk.done ch.head = false ∧
      (s.submit c r ch).disk.asleep = s.disk.asleep :=
  ⟨Function.update_self .., Function.update_self .., rfl⟩

theorem Inv.attempt (h : Inv s) (hawake : s.disk.asleep c = false)
    (hnew : ∀ r ch t, s.pc c ≠ .waiting r ch t) (hok : 3 ≤ s.disk.freeSet.card → reset = false) :
    Inv (s.attempt c r reset) := by
  rcases attempt_cases s c r reset with ⟨hcard, ch, d', hheld, heq⟩ | ⟨-, d', is, hr, hall, heq⟩
  · rw [heq]
    obtain ⟨hpc, -, hasleep⟩ := submit_facts { s with disk := d' } c r ch
    have haw : d'.asleep c = false := by
      rw [hheld.eq]
      exact hawake
    exact (h.submit hawake hnew hheld).check hpc ((congrFun hasleep c).trans haw) fun _ => hok hcard
  · obtain ⟨hsl, haw⟩ := h.sleeps.release hr
    have hfree : ∀ i, d'.free i = s.disk.free i := by
      intro i
      rw [hr.free_eq]
      by_cases hi : i ∈ is
      · simp [hi, hall i hi]
      · simp [hi]
    have hdesc : ∀ i, s.disk.free i = false → d'.desc i = s.disk.desc i := by
      intro i hi
      refine hr.desc_eq fun hmem => ?_
      rw [hall i hmem] at hi
      cases hi
    have hiff : ∀ c' r' ch' t', Function.update s.pc c (.retry r) c' = .waiting r' ch' t' ↔
        s.pc c' = .waiting r' ch' t' := by
      intro c' r' ch' t'
      rcases eq_or_ne c' c with rfl | hne
      · simpa using hnew r' ch' t'
      · rw [Function.update_of_ne hne]
    have hret : ∀ c' t', Function.update s.pc c (.retry r) c' = .returned t' 0 →
        s.pc c' = .returned t' 0 := by
      intro c' t' hc'
      rcases eq_or_ne c' c with rfl | hne
      · rw [Function.update_self] at hc'
        cases hc'
      · rwa [Function.update_of_ne hne] at hc'
    have hops : d'.ops = s.disk.ops := by
      obtain ⟨k, rfl⟩ := hr
      rfl
    have hst : d'.status = s.disk.status := by
      obtain ⟨k, rfl⟩ := hr
      rfl
    have hsucc : ∀ j ∈ s.published.drop s.seen, d'.status j.head = 0 := by
      rw [hst]
      exact h.succeeded
    rcases heq with heq | heq
    · rw [heq]
      exact ⟨h.unlocked, h.owns.congr hfree hops hdesc hiff, hsl.setPc (haw c hawake) _,
        h.flight.retarget hr.sameRings (fun c' r' ch' t' => (hiff c' r' ch' t').mp)
          (fun c' r' ch' t' hc' _ => (hiff c' r' ch' t').mpr hc') fun c' t' hc' =>
          .inl (hret c' t' hc'),
        hsucc⟩
    · rw [heq]
      obtain ⟨k, rfl⟩ := hr
      exact ⟨h.unlocked, h.owns.congr hfree hops hdesc hiff, hsl.enqueue (haw c hawake) r,
        h.flight.retarget ⟨_, _, _, _, _, _, rfl⟩ (fun c' r' ch' t' => (hiff c' r' ch' t').mp)
          (fun c' r' ch' t' hc' _ => (hiff c' r' ch' t').mpr hc') fun c' t' hc' =>
          .inl (hret c' t' hc'),
        hsucc⟩

/-- Everything an event can do, with what it needs. -/
inductive Change (s : Sys) : Event → Sys → Prop
  | count {c : Nat} {r : Req} {config : Nat} {reset : Bool} :
      s.pc c = .idle → r.count ≠ 1 →
      Change s (.call c r config reset) { s with panicked := some .count }
  | fail {c : Nat} {r : Req} {config : Nat} {reset : Bool} :
      s.pc c = .idle → r.count = 1 → outOfRange r config →
      Change s (.call c r config reset) (s.setPc c .failed)
  | start {c : Nat} {r : Req} {config : Nat} {reset : Bool} :
      s.pc c = .idle → r.count = 1 → ¬ outOfRange r config → s.lock = .free →
      Change s (.call c r config reset) (s.attempt c r reset)
  | retry {c : Nat} {r : Req} {reset : Bool} :
      s.pc c = .retry r → s.lock = .free → s.disk.asleep c = false →
      Change s (.resume c reset) (s.attempt c r reset)
  | check {c : Nat} {r : Req} {ch : Chain} {t : Nat} {reset : Bool} :
      s.pc c = .waiting r ch t → s.lock = .free → s.disk.asleep c = false →
      Change s (.resume c reset) (s.check c r ch t reset)
  | enter : s.lock = .free → Change s .intrEnter { s with lock := .handler }
  | spin :
      s.lock = .handler → s.disk.usedSeen ≠ s.disk.usedIdx → s.disk.intrRound = none →
      Change s .intrRound s
  | round {d : Disk} :
      s.lock = .handler → s.disk.usedSeen ≠ s.disk.usedIdx → s.disk.intrRound = some d →
      Change s .intrRound { s with disk := d, seen := s.seen + 1 }
  | leave :
      s.lock = .handler → s.disk.usedSeen = s.disk.usedIdx →
      Change s .intrLeave { s with lock := .free }
  | fetch {s' : Sys} : s.lastAvail ≠ s.disk.availIdx → s.fetchStep = some s' → Change s .fetch s'
  | execute {j : Job} {b : Nat} {s' : Sys} :
      j ∈ s.taken → s.executeStep j b = some s' → Change s (.execute j b) s'
  | publish {j : Job} {s' : Sys} :
      j ∈ s.executed → s.publishStep j = some s' → Change s (.publish j) s'

theorem Change.of_step {a : Event} (h : Step s a s') : s.panicked = none ∧ Change s a s' := by
  unfold Step step at h
  split at h
  · cases h
  · next hp =>
    refine ⟨by simpa using hp, ?_⟩
    cases a with
    | call c r config reset =>
      simp only [callStep] at h
      split at h
      · cases h
      next hidle =>
      rw [not_not] at hidle
      split at h
      · next hcount => exact (Option.some.inj h) ▸ .count hidle hcount
      next hcount =>
      rw [not_not] at hcount
      split at h
      · next hout => exact (Option.some.inj h) ▸ .fail hidle hcount hout
      next hout =>
      split at h
      · next hlock => exact (Option.some.inj h) ▸ .start hidle hcount hout hlock
      · cases h
    | resume c reset =>
      simp only [resumeStep] at h
      split at h
      · next hfree =>
        split at h
        · next r hpc => exact (Option.some.inj h) ▸ .retry hpc hfree.1 hfree.2
        · next r ch t hpc => exact (Option.some.inj h) ▸ .check hpc hfree.1 hfree.2
        · cases h
      · cases h
    | intrEnter =>
      simp only at h
      split at h
      · next hlock => exact (Option.some.inj h) ▸ .enter hlock
      · cases h
    | intrRound =>
      simp only [intrRoundStep] at h
      split at h
      · next hin =>
        split at h
        · next hnone => exact (Option.some.inj h) ▸ .spin hin.1 hin.2 hnone
        · next d hd => exact (Option.some.inj h) ▸ .round hin.1 hin.2 hd
      · cases h
    | intrLeave =>
      simp only at h
      split at h
      · next hin => exact (Option.some.inj h) ▸ .leave hin.1 hin.2
      · cases h
    | fetch =>
      refine .fetch ?_ h
      simp only [fetchStep] at h
      split at h
      · next hne => exact hne
      · cases h
    | execute j b =>
      refine .execute ?_ h
      simp only [executeStep] at h
      split at h
      · next hj => exact hj
      · cases h
    | publish j =>
      refine .publish ?_ h
      simp only [publishStep] at h
      split at h
      · next hj => exact hj
      · cases h

/-- A call that is not yet in a wait loop does not sleep. -/
theorem Sleeps.awake_of_idle (h : Sleeps d pc) (hpc : pc c = .idle) : d.asleep c = false := by
  rcases Bool.eq_false_or_eq_true (d.asleep c) with hs | hs
  · rcases h.asleep c hs with hq | ⟨r, ch, t, hw, -⟩
    · obtain ⟨⟨r, hr⟩, -⟩ := h.queue c hq
      rw [hpc] at hr
      cases hr
    · rw [hpc] at hw
      cases hw
  · exact hs

theorem Inv.round (h : Inv s) (hne : s.disk.usedSeen ≠ s.disk.usedIdx)
    (hd : s.disk.intrRound = some d') : Inv { s with disk := d', seen := s.seen + 1 } := by
  obtain ⟨j, -, -, hdrop⟩ := h.flight.next hne
  refine ⟨h.unlocked, h.owns.round hd, h.sleeps.round hd, h.flight.round h.owns hne hd,
    fun k hk => ?_⟩
  obtain ⟨-, _, _, rfl⟩ := intrRound_eq hd
  exact h.succeeded k (hdrop ▸ List.mem_cons_of_mem _ hk)

/-- Every event that is not faulty keeps the invariant. -/
theorem Inv.step {a : Event} (h : Inv s) (hok : ¬ Faulty s a) (hs : Step s a s') : Inv s' := by
  obtain ⟨-, hchange⟩ := Change.of_step hs
  cases hchange with
  | count _ _ =>
    exact ⟨h.unlocked, h.owns, h.sleeps, ⟨h.flight.avail, h.flight.used, h.flight.once,
      h.flight.jobs, h.flight.flying, h.flight.landed, h.flight.performed, h.flight.returned⟩,
      h.succeeded⟩
  | @fail c r config reset hidle _ _ =>
    have hback : ∀ c' p, p ≠ .failed → Function.update s.pc c .failed c' = p → s.pc c' = p := by
      intro c' p hp hc'
      rcases eq_or_ne c' c with rfl | hne
      · rw [Function.update_self] at hc'
        exact absurd hc'.symm hp
      · rwa [Function.update_of_ne hne] at hc'
    have hkeep : ∀ c' r ch t, s.pc c' = .waiting r ch t →
        Function.update s.pc c .failed c' = .waiting r ch t := by
      intro c' r ch t hc'
      rcases eq_or_ne c' c with rfl | hne
      · rw [hidle] at hc'
        cases hc'
      · rwa [Function.update_of_ne hne]
    refine ⟨h.unlocked, ?_, h.sleeps.setPc (h.sleeps.awake_of_idle hidle) _, ?_, h.succeeded⟩
    · exact h.owns.congr (fun _ => rfl) rfl (fun _ _ => rfl) fun c' r ch t =>
        ⟨hback c' _ (by simp), hkeep c' r ch t⟩
    · exact h.flight.retarget ⟨_, _, _, _, _, _, rfl⟩ (fun c' r ch t => hback c' _ (by simp))
        (fun c' r ch t hc' _ => hkeep c' r ch t hc') fun c' t hc' => .inl (hback c' _ (by simp) hc')
  | start hidle hcount hin hlock =>
    refine h.attempt (h.sleeps.awake_of_idle hidle) (by simp [hidle]) fun hcard => ?_
    by_contra hreset
    exact hok ⟨by simpa using hreset, hcount, hin, hcard⟩
  | @retry c r reset hpc hlock hawake =>
    refine h.attempt hawake (by simp [hpc]) fun hcard => ?_
    by_contra hreset
    exact hok ⟨by simpa using hreset, by simpa only [hpc] using hcard⟩
  | @check c r ch t reset hpc hlock hawake =>
    refine h.check hpc hawake fun hdone => ?_
    by_contra hreset
    exact hok ⟨by simpa using hreset, by simpa only [hpc] using hdone⟩
  | enter _ =>
    exact ⟨by simp, h.owns, h.sleeps, h.flight.retarget ⟨_, _, _, _, _, _, rfl⟩
      (fun _ _ _ _ hc => hc) (fun _ _ _ _ hc _ => hc) fun _ _ hc => .inl hc, h.succeeded⟩
  | spin _ _ _ => exact h
  | round _ hne hd => exact h.round hne hd
  | leave _ _ =>
    exact ⟨by simp, h.owns, h.sleeps, h.flight.retarget ⟨_, _, _, _, _, _, rfl⟩
      (fun _ _ _ _ hc => hc) (fun _ _ _ _ hc _ => hc) fun _ _ hc => .inl hc, h.succeeded⟩
  | fetch hne hs' =>
    rw [fetchStep, if_pos hne, Option.some.injEq] at hs'
    exact hs' ▸ ⟨h.unlocked, h.owns, h.sleeps, h.flight.fetch hne, h.succeeded⟩
  | @execute j b _ hj hs' =>
    obtain ⟨e, -, hresolve, hflight⟩ := h.flight.execute h.owns hj b
    rw [executeStep, if_pos hj, hresolve] at hs'
    rw [← Option.some.inj hs']
    refine ⟨h.unlocked, ?_, ⟨h.sleeps.queue, h.sleeps.nodup, h.sleeps.sleeper, h.sleeps.asleep⟩,
      hflight, fun k hk => ?_⟩
    · exact h.owns.congr (fun _ => rfl) rfl (fun _ _ => rfl) fun _ _ _ _ => Iff.rfl
    · have hne := h.flight.head_ne h.owns hj (.inr hk)
      exact (Function.update_of_ne hne ..).trans (h.succeeded k hk)
  | @publish j _ hj hs' =>
    obtain ⟨hflight, hdrop⟩ := h.flight.publish h.owns hj
    rw [publishStep, if_pos hj] at hs'
    rw [← Option.some.inj hs']
    refine ⟨h.unlocked, ?_, ⟨h.sleeps.queue, h.sleeps.nodup, h.sleeps.sleeper, h.sleeps.asleep⟩,
      hflight, fun k hk => ?_⟩
    · exact h.owns.congr (fun _ => rfl) rfl (fun _ _ => rfl) fun _ _ _ _ => Iff.rfl
    · simp only [hdrop] at hk
      rcases List.mem_append.mp hk with hk | hk
      · exact h.succeeded k hk
      · rw [List.mem_singleton.mp hk]
        exact not_not.mp hok

/-! ## A device that works -/

/-- What a working device and the callers of `disk_command` do: the request is for one block in
range, `DEVICE_NEEDS_RESET` is never set and every request succeeds. -/
def Honest : Event → Prop
  | .call _ r config needsReset =>
    needsReset = false ∧ r.count = 1 ∧ r.blockNo + r.count ≤ capacity config
  | .resume _ needsReset => needsReset = false
  | .execute _ b => b = 0
  | _ => True

instance : DecidablePred Honest
  | .call .. => inferInstanceAs (Decidable (_ ∧ _ ∧ _))
  | .resume .. => inferInstanceAs (Decidable (_ = _))
  | .execute .. => inferInstanceAs (Decidable (_ = _))
  | .intrEnter | .intrRound | .intrLeave | .fetch | .publish _ => inferInstanceAs (Decidable True)

/-- What the driver may rely on. -/
structure Protocol (s : Sys) : Prop where
  /-- A descriptor is free, or one call has it in its chain. -/
  descriptors : ∀ i < NUM, (s.disk.free i = true ∧ ¬ ∃ c, Holds s.pc c i) ∨
    (s.disk.free i = false ∧ ∃! c, Holds s.pc c i)
  /-- A chain is made of three descriptors. -/
  chains : ∀ c r ch t, s.pc c = .waiting r ch t → ch.descs.Nodup ∧ ∀ i ∈ ch.descs, i < NUM
  /-- A call returns 0 after the device has performed and published what it submitted. -/
  completed : ∀ c t, s.pc c = .returned t 0 → t ∈ s.published.map Job.ticket ∧
    ∃ r ch, s.submitted[t]? = some ⟨c, r, ch⟩ ∧ s.Served t r 0
  noPanic : s.panicked = none
  /-- The device has no more than `NUM` entries of the avail ring to read, and finds in each of
  them what was put there. -/
  outstanding : s.fetched ≤ s.submitted.length ∧ s.submitted.length ≤ s.fetched + NUM
  unread : ∀ t e, s.fetched ≤ t → s.submitted[t]? = some e →
    s.disk.availRing (t % NUM) = e.chain.head
  /-- When no call waits for its chain, every descriptor is free. -/
  idle : (∀ c r ch t, s.pc c ≠ .waiting r ch t) → ∀ i < NUM, s.disk.free i = true

/-- The invariant of the runs of a device that works. -/
structure HonestInv (s : Sys) : Prop extends Inv s where
  noPanic : s.panicked = none
  succeeds : ∀ v ∈ s.served, v.status = 0

theorem check_served : (s.check c r ch t reset).served = s.served := by
  unfold check
  split
  · split <;> rfl
  · split
    · rfl
    · split <;> rfl

theorem Inv.check_panicked (h : Inv s) (hpc : s.pc c = .waiting r ch t) :
    (s.check c r ch t reset).panicked = s.panicked := by
  rcases h.check_cases hpc reset with ⟨-, d', -, heq⟩ | ⟨-, -, heq⟩ | ⟨-, -, heq | heq⟩ <;>
    rw [heq] <;> rfl

theorem Inv.attempt_frame (h : Inv s) (hawake : s.disk.asleep c = false)
    (hnew : ∀ r ch t, s.pc c ≠ .waiting r ch t) :
    (s.attempt c r reset).served = s.served ∧ (s.attempt c r reset).panicked = s.panicked := by
  rcases attempt_cases s c r reset with ⟨-, ch, d', hheld, heq⟩ | ⟨-, d', is, -, -, heq | heq⟩
  · rw [heq]
    have hinv := h.submit (r := r) hawake hnew hheld
    have hpc := (submit_facts { s with disk := d' } c r ch).1
    exact ⟨check_served, hinv.check_panicked hpc⟩
  · rw [heq]
    exact ⟨rfl, rfl⟩
  · rw [heq]
    exact ⟨rfl, rfl⟩

/-- The status byte of what the device has performed says that it succeeded. -/
theorem HonestInv.not_faulty {a : Event} (h : HonestInv s) (ha : Honest a) (hs : Step s a s') :
    ¬ Faulty s a := by
  obtain ⟨-, hchange⟩ := Change.of_step hs
  cases hchange with
  | publish hj _ =>
    obtain ⟨e, he, -⟩ := h.flight.jobs _ (.inr (.inl hj))
    have hst := h.succeeds _ (h.flight.performed _ (.inl hj) e he)
    exact not_not.mpr hst
  | count | fail | start =>
    rintro ⟨hreset, -⟩
    rw [ha.1] at hreset
    cases hreset
  | retry | check =>
    rintro ⟨hreset, -⟩
    rw [show _ = false from ha] at hreset
    cases hreset
  | _ => exact not_false

theorem HonestInv.step {a : Event} (h : HonestInv s) (ha : Honest a) (hs : Step s a s') :
    HonestInv s' := by
  refine ⟨h.toInv.step (h.not_faulty ha hs) hs, ?_, ?_⟩
  · obtain ⟨hp, hchange⟩ := Change.of_step hs
    cases hchange with
    | count _ hcount => exact absurd ha.2.1 hcount
    | start hidle _ _ _ =>
      exact (h.attempt_frame (h.sleeps.awake_of_idle hidle) (by simp [hidle])).2.trans hp
    | retry hpc _ hawake => exact (h.attempt_frame hawake (by simp [hpc])).2.trans hp
    | check hpc _ _ => exact (h.check_panicked hpc).trans hp
    | fetch hne hs' =>
      rw [fetchStep, if_pos hne] at hs'
      exact Option.some.inj hs' ▸ hp
    | execute hj hs' =>
      rw [executeStep, if_pos hj] at hs'
      split at hs'
      · cases hs'
      · exact Option.some.inj hs' ▸ hp
    | publish hj hs' =>
      rw [publishStep, if_pos hj] at hs'
      exact Option.some.inj hs' ▸ hp
    | _ => exact hp
  · obtain ⟨-, hchange⟩ := Change.of_step hs
    cases hchange with
    | start hidle _ _ _ =>
      rw [(h.attempt_frame (h.sleeps.awake_of_idle hidle) (by simp [hidle])).1]
      exact h.succeeds
    | retry hpc _ hawake =>
      rw [(h.attempt_frame hawake (by simp [hpc])).1]
      exact h.succeeds
    | check hpc _ _ =>
      rw [check_served]
      exact h.succeeds
    | fetch hne hs' =>
      rw [fetchStep, if_pos hne] at hs'
      exact Option.some.inj hs' ▸ h.succeeds
    | execute hj hs' =>
      rw [executeStep, if_pos hj] at hs'
      split at hs'
      · cases hs'
      · rw [← Option.some.inj hs']
        intro v hv
        rcases List.mem_append.mp hv with hv | hv
        · exact h.succeeds v hv
        · rw [List.mem_singleton.mp hv]
          exact ha
    | publish hj hs' =>
      rw [publishStep, if_pos hj] at hs'
      exact Option.some.inj hs' ▸ h.succeeds
    | _ => exact h.succeeds

theorem HonestInv.protocol (h : HonestInv s) : Protocol s where
  descriptors i hi := by
    rcases Bool.eq_false_or_eq_true (s.disk.free i) with hf | hf
    · refine .inl ⟨hf, ?_⟩
      rintro ⟨c, r, ch, t, hc, hmem⟩
      rw [(h.owns.held hc hmem).2] at hf
      cases hf
    · obtain ⟨c, hc⟩ := (h.owns.owned.total i).mp ⟨hi, hf⟩
      exact .inr ⟨hf, c, hc, fun c' hc' => h.owns.owned.unique i c' c hc' hc⟩
  chains c r ch t hc := ⟨h.owns.nodup c r ch t hc, fun i hi => (h.owns.held hc hi).1⟩
  completed c t hc := by
    obtain ⟨ht, hserved⟩ := h.flight.returned c t hc
    exact ⟨List.map_subset _ (List.take_subset _ _) ht, hserved⟩
  noPanic := h.noPanic
  outstanding := by
    have hle := h.flight.avail.le
    have hroom := h.flight.avail.room
    rw [List.length_map] at hle hroom
    exact ⟨hle, hroom⟩
  unread t e ht he := h.flight.avail.holds t _ ht (by rw [List.getElem?_map, he]; rfl)
  idle hnone i hi := by
    by_contra hf
    obtain ⟨c, r, ch, t, hc, -⟩ := (h.owns.owned.total i).mp ⟨hi, by simpa using hf⟩
    exact hnone c r ch t hc

/-- With a device that works the descriptors, the rings and the results are right after every run,
however the calls, the handler and the device are interleaved. -/
theorem descriptor_protocol {as : List Event}
    (hrun : Run (Guarded Step fun _ a => Honest a) init as s) : Protocol s := by
  have hinit : HonestInv init := ⟨init_inv, rfl, fun v hv => by cases hv⟩
  exact (hrun.invariant (fun _ _ _ hi hs => hi.step hs.1 hs.2) hinit).protocol

/-- Three calls. The third gets two descriptors, gives them back and waits for a free one. -/
def crowd : List Event :=
  [.call 1 ⟨0, 3, 1, 77, false⟩ 100 false, .call 2 ⟨1, 4, 1, 78, false⟩ 100 false,
    .call 3 ⟨0, 5, 1, 79, false⟩ 100 false]

/-- The device serves the second call before the first. The third gets the descriptors of the
second while the first still waits. -/
def crowdServed : List Event :=
  [.fetch, .fetch, .execute ⟨1, 3⟩ 0, .publish ⟨1, 3⟩, .execute ⟨0, 0⟩ 0, .intrEnter, .intrRound,
    .intrLeave, .publish ⟨0, 0⟩, .resume 2 false, .resume 3 false, .fetch, .execute ⟨2, 3⟩ 0,
    .intrEnter, .publish ⟨2, 3⟩, .intrRound, .intrRound, .intrLeave, .resume 3 false,
    .resume 1 false]

theorem protocol_overlapping : ∃ s t, Run Step init crowd s ∧ Run Step s crowdServed t ∧
    (s.pc 3 = .retry ⟨0, 5, 1, 79, false⟩ ∧ s.disk.freeSet = {6, 7} ∧ Protocol s) ∧
    t.pc 1 = .returned 0 0 ∧ t.pc 2 = .returned 1 0 ∧ t.pc 3 = .returned 2 0 ∧ Protocol t := by
  have hcrowd : (init.exec (fun _ a => decide (Honest a)) crowd).map (fun s =>
      decide (s.pc 3 = .retry ⟨0, 5, 1, 79, false⟩ ∧ s.disk.freeSet = {6, 7})) = some true := by
    decide +kernel
  have hserved : ((init.exec (fun _ a => decide (Honest a)) crowd).bind fun s =>
      s.exec (fun _ a => decide (Honest a)) crowdServed).map (fun s =>
        decide (s.pc 1 = .returned 0 0 ∧ s.pc 2 = .returned 1 0 ∧ s.pc 3 = .returned 2 0)) =
      some true := by
    decide +kernel
  obtain ⟨s, hs, hwait⟩ := Option.map_eq_some_iff.mp hcrowd
  rw [hs, Option.bind_some] at hserved
  obtain ⟨t, ht, hdone⟩ := Option.map_eq_some_iff.mp hserved
  obtain ⟨hretry, hfree⟩ := of_decide_eq_true hwait
  obtain ⟨h1, h2, h3⟩ := of_decide_eq_true hdone
  have hrun := run_exec hs
  have hrun' := run_exec ht
  simp only [decide_eq_true_eq] at hrun hrun'
  exact ⟨s, t, hrun.unguard, hrun'.unguard, ⟨hretry, hfree, descriptor_protocol hrun⟩, h1, h2, h3,
    descriptor_protocol (hrun.append hrun')⟩

end CoroCore.Virtio
