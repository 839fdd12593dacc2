import CoroCore.Drivers.VirtioProtocol

/-!
# What a call of `disk_command` leaves behind

With a device that may fail, set `DEVICE_NEEDS_RESET` or store any status byte:

* `releases_iff`: as long as nothing faulty has happened, the lock and the descriptors are given
  back, the handler ends, and a call returns 0 for a request that succeeded only; every faulty
  event breaks this at once;
* `abandoned_stays`: after a call has found the device broken nobody gets the lock and no
  descriptor is freed any more;
* `handler_rounds`: the handler ends within `NUM` rounds whatever the device publishes meanwhile;
* `not_releases`: a broken device and a failed request.
-/

namespace CoroCore.Virtio

open Lib Disk Sys

variable {s s' : Sys} {d : Disk} {c t n : Nat} {r : Req} {ch : Chain} {reset : Bool} {a : Event}

/-- Nothing is left behind, and the handler does its part. -/
structure Releases (s : Sys) : Prop where
  /-- No call has returned with the lock. -/
  unlocked : s.lock ≠ .abandoned
  /-- What is not free belongs to a call that has not returned. -/
  freed : ∀ i < NUM, s.disk.free i = false → ∃ c, Holds s.pc c i
  /-- The loop of `virtio_disk_intr` ends. -/
  handlerEnds : ∃ n d, s.disk.intrLoop n = some d
  /-- A call whose completion the handler has seen is awake and returns 0 next. -/
  finishes : ∀ c r ch t, s.pc c = .waiting r ch t → t ∈ s.seenTickets →
    s.disk.asleep c = false ∧ ∀ reset, (s.check c r ch t reset).pc c = .returned t 0
  /-- A call returns 0 only if the device has stored 0. -/
  zero : ∀ c t, s.pc c = .returned t 0 →
    ∃ r ch, s.submitted[t]? = some ⟨c, r, ch⟩ ∧ s.Served t r 0

/-! ## The loop of the handler -/

theorem Flight.caught_up (h : Flight s) (heq : s.disk.usedSeen = s.disk.usedIdx) :
    s.published.drop s.seen = [] := by
  have hle := (h.used.pending_iff (by decide)).not.mp (not_not.mpr heq)
  rw [List.length_map, Nat.not_lt] at hle
  exact List.drop_eq_nil_of_le hle

/-- The handler gets to the end of the used ring only if every request on its way succeeded. -/
theorem Flight.of_intrLoop (h : Flight s) (ho : Owns s.disk s.pc)
    (hloop : s.disk.intrLoop n = some d) :
    ∀ j ∈ s.published.drop s.seen, s.disk.status j.head = 0 := by
  induction n generalizing s with
  | zero =>
    simp only [intrLoop] at hloop
    split at hloop
    · next heq =>
      rw [h.caught_up heq]
      exact fun j hj => absurd hj List.not_mem_nil
    · cases hloop
  | succ n ih =>
    simp only [intrLoop] at hloop
    split at hloop
    · next heq =>
      rw [h.caught_up heq]
      exact fun j hj => absurd hj List.not_mem_nil
    · next hne =>
      obtain ⟨d₁, hd₁, hrest⟩ := Option.bind_eq_some_iff.mp hloop
      obtain ⟨j, -, hhead, hdrop⟩ := h.next hne
      have hlater := ih (h.round ho hne hd₁) (ho.round hd₁) hrest
      obtain ⟨hst, _, _, rfl⟩ := intrRound_eq hd₁
      intro k hk
      rw [hdrop] at hk
      rcases List.mem_cons.mp hk with rfl | hk
      · rw [hhead]
        exact hst
      · exact hlater k hk

theorem intrRound_isSome {d : Disk} (h : d.status (d.usedRing (d.usedSeen % NUM)) = 0) :
    ∃ d', d.intrRound = some d' := by
  unfold intrRound
  exact ⟨_, if_neg (not_not.mpr h)⟩

theorem Inv.round_isSome (h : Inv s) (hne : s.disk.usedSeen ≠ s.disk.usedIdx) :
    ∃ d', s.disk.intrRound = some d' := by
  obtain ⟨j, -, hhead, hdrop⟩ := h.flight.next hne
  refine intrRound_isSome ?_
  rw [← hhead]
  exact h.succeeded j (hdrop ▸ List.mem_cons_self)

theorem Inv.handler_ends (h : Inv s) (hn : (s.published.drop s.seen).length ≤ n) :
    ∃ d, s.disk.intrLoop n = some d := by
  induction n generalizing s with
  | zero =>
    refine ⟨s.disk, if_pos ?_⟩
    by_contra hne
    obtain ⟨j, -, -, hdrop⟩ := h.flight.next hne
    rw [hdrop] at hn
    exact absurd hn (Nat.not_succ_le_zero _)
  | succ n ih =>
    simp only [intrLoop]
    split
    · exact ⟨_, rfl⟩
    · next hne =>
      obtain ⟨d', hd'⟩ := h.round_isSome hne
      obtain ⟨j, -, -, hdrop⟩ := h.flight.next hne
      rw [hdrop, List.length_cons] at hn
      obtain ⟨d, hd⟩ := ih (h.round hne hd') (Nat.le_of_succ_le_succ hn)
      exact ⟨d, by rw [hd', Option.bind_some, hd]⟩

/-! ## The exact condition -/

theorem Inv.releases (h : Inv s) : Releases s where
  unlocked := h.unlocked
  freed i hi hf := (h.owns.owned.total i).mp ⟨hi, hf⟩
  handlerEnds := ⟨_, h.handler_ends (Nat.le_refl _)⟩
  finishes c r ch t hc ht := by
    have hdone := (h.flight.done_iff hc).mpr ht
    refine ⟨h.sleeps.awake_of_done hc hdone, fun reset => ?_⟩
    rcases h.check_cases hc reset with ⟨-, d', -, heq⟩ | ⟨hnot, -⟩ | ⟨hnot, -⟩
    · rw [heq]
      exact Function.update_self ..
    · rw [hnot] at hdone
      cases hdone
    · rw [hnot] at hdone
      cases hdone
  zero c t hc := (h.flight.returned c t hc).2

/-- A call that finds the device broken keeps the lock. -/
theorem Inv.check_abandons (h : Inv s) (hc : s.pc c = .waiting r ch t)
    (hdone : s.disk.done ch.head = false) : (s.check c r ch t true).lock = .abandoned := by
  rcases h.check_cases hc true with ⟨hdone', -⟩ | ⟨-, -, heq⟩ | ⟨-, hreset, -⟩
  · rw [hdone] at hdone'
    cases hdone'
  · rw [heq]
    rfl
  · cases hreset

theorem Inv.attempt_abandons (h : Inv s) (hawake : s.disk.asleep c = false)
    (hnew : ∀ r ch t, s.pc c ≠ .waiting r ch t) (hcard : 3 ≤ s.disk.freeSet.card) :
    (s.attempt c r true).lock = .abandoned := by
  rcases attempt_cases s c r true with ⟨-, ch, d', hheld, heq⟩ | ⟨hfew, -⟩
  · rw [heq]
    obtain ⟨hpc, hdone, -⟩ := submit_facts { s with disk := d' } c r ch
    exact (h.submit hawake hnew hheld).check_abandons hpc hdone
  · exact absurd hcard (Nat.not_le.mpr hfew)

/-- A faulty event breaks what the events before it have kept. -/
theorem Inv.breaks (h : Inv s) (hbad : Faulty s a) (hs : Step s a s') : ¬ Releases s' := by
  obtain ⟨-, hchange⟩ := Change.of_step hs
  intro hrel
  cases hchange with
  | count _ hcount => exact hcount hbad.2.1
  | fail _ _ hout => exact hbad.2.2.1 hout
  | start hidle _ _ _ =>
    obtain ⟨rfl, -, -, hcard⟩ := hbad
    exact hrel.unlocked
      (h.attempt_abandons (h.sleeps.awake_of_idle hidle) (by simp [hidle]) hcard)
  | retry hpc _ hawake =>
    obtain ⟨rfl, hcard⟩ := hbad
    simp only [hpc] at hcard
    exact hrel.unlocked (h.attempt_abandons hawake (by simp [hpc]) hcard)
  | check hpc _ _ =>
    obtain ⟨rfl, hdone⟩ := hbad
    simp only [hpc] at hdone
    exact hrel.unlocked (h.check_abandons hpc hdone)
  | @publish j _ hj hs' =>
    obtain ⟨hflight, hdrop⟩ := h.flight.publish h.owns hj
    rw [publishStep, if_pos hj] at hs'
    rw [← Option.some.inj hs'] at hrel
    obtain ⟨n, d, hloop⟩ := hrel.handlerEnds
    have howns : Owns
        { s.disk with
          usedRing := Function.update s.disk.usedRing (s.disk.usedIdx % NUM) j.head
          usedIdx := (s.disk.usedIdx + 1) % idxRange } s.pc :=
      h.owns.congr (fun _ => rfl) rfl (fun _ _ => rfl) fun _ _ _ _ => Iff.rfl
    refine hbad (hflight.of_intrLoop howns hloop j ?_)
    simp only [hdrop]
    exact List.mem_append_right _ (List.mem_singleton_self j)
  | _ => exact hbad

/-- As long as nothing faulty has happened everything is released, and an event keeps this
exactly if it is not faulty itself. -/
theorem releases_iff {as : List Event}
    (hrun : Run (Guarded Step fun s a => ¬ Faulty s a) init as s) :
    Releases s ∧ ∀ a s', Step s a s' → (Releases s' ↔ ¬ Faulty s a) := by
  have hinv : Inv s := hrun.invariant (fun _ _ _ hi hs => hi.step hs.1 hs.2) init_inv
  refine ⟨hinv.releases, fun a s' hs => ⟨fun hrel hbad => hinv.breaks hbad hs hrel, fun hok => ?_⟩⟩
  exact (hinv.step hok hs).releases

instance (s : Sys) : DecidablePred (Faulty s)
  | .call .. => inferInstanceAs (Decidable (_ ∧ _ ∧ _ ∧ _))
  | .resume c reset =>
    match h : s.pc c with
    | .retry _ => decidable_of_iff (reset = true ∧ 3 ≤ s.disk.freeSet.card)
        (by simp only [Faulty, h])
    | .waiting _ ch _ =>
      decidable_of_iff (reset = true ∧ s.disk.done ch.head = false) (by simp only [Faulty, h])
    | .idle | .returned _ _ | .failed =>
        .isFalse (by simp only [Faulty, h, and_false, not_false_iff])
  | .publish j => inferInstanceAs (Decidable (s.disk.status j.head ≠ 0))
  | .intrEnter | .intrRound | .intrLeave | .fetch | .execute .. => .isFalse not_false

/-- A read of block 3 until its call is about to be resumed. -/
def almostRead : List Event :=
  [.call 1 ⟨0, 3, 1, 77, false⟩ 100 false, .fetch, .execute ⟨0, 0⟩ 0, .publish ⟨0, 0⟩, .intrEnter,
    .intrRound, .intrLeave]

/-- The handler has seen the completion of a request, and its call is about to return. -/
theorem releases_roundTrip : ∃ s s', Step s (.resume 1 true) s' ∧ s'.pc 1 = .returned 0 0 ∧
    Releases s' := by
  let ok : Sys → Event → Bool := fun s a => decide (¬ Faulty s a)
  have hexec : ((init.exec ok almostRead).bind fun s => (s.step (.resume 1 true)).map
      fun s' => (s'.pc 1, decide (Faulty s (.resume 1 true)))) = some (.returned 0 0, false) := by
    decide +kernel
  obtain ⟨s, hs, hrest⟩ := Option.bind_eq_some_iff.mp hexec
  obtain ⟨s', hs', hpc⟩ := Option.map_eq_some_iff.mp hrest
  have hrun := run_exec hs
  simp only [ok, decide_eq_true_eq] at hrun
  simp only [Prod.mk.injEq, decide_eq_false_iff_not] at hpc
  exact ⟨s, s', hs', hpc.1, ((releases_iff hrun).2 _ _ hs').mpr hpc.2⟩

/-- A call finds the device broken and returns with the lock and its descriptors. A request fails,
and the handler does not get past it. -/
theorem not_releases :
    (∃ s, Run Step init [.call 1 ⟨0, 3, 1, 77, false⟩ 100 true] s ∧ s.pc 1 = .returned 0 (-1) ∧
      s.disk.free 0 = false ∧ ¬ Releases s) ∧
    ∃ s, Run Step init [.call 1 ⟨0, 3, 1, 77, false⟩ 100 false, .fetch, .execute ⟨0, 0⟩ 1,
      .publish ⟨0, 0⟩, .intrEnter] s ∧ Step s .intrRound s ∧ ¬ Releases s := by
  constructor
  · have hexec : (init.exec (fun _ _ => true) [.call 1 ⟨0, 3, 1, 77, false⟩ 100 true]).map
        (fun s => (s.pc 1, s.disk.free 0, s.lock)) =
        some (.returned 0 (-1), false, .abandoned) := by decide +kernel
    obtain ⟨s, hs, hend⟩ := Option.map_eq_some_iff.mp hexec
    simp only [Prod.mk.injEq] at hend
    exact ⟨s, (run_exec hs).unguard, hend.1, hend.2.1, fun h => h.unlocked hend.2.2⟩
  · have hexec : (init.exec (fun _ _ => true) [.call 1 ⟨0, 3, 1, 77, false⟩ 100 false, .fetch,
        .execute ⟨0, 0⟩ 1, .publish ⟨0, 0⟩, .intrEnter]).map
        (fun s => (s.panicked.isSome, s.lock, s.disk.usedSeen, s.disk.usedIdx,
          s.disk.intrRound.isNone)) = some (false, .handler, 0, 1, true) := by decide +kernel
    obtain ⟨s, hs, hend⟩ := Option.map_eq_some_iff.mp hexec
    simp only [Prod.mk.injEq, Option.isNone_iff_eq_none] at hend
    obtain ⟨hp, hlock, hseen, hidx, hround⟩ := hend
    have hne : s.disk.usedSeen ≠ s.disk.usedIdx := by simp [hseen, hidx]
    refine ⟨s, (run_exec hs).unguard, ?_, fun h => ?_⟩
    · unfold Step step
      rw [hp]
      simp only [Bool.false_eq_true, if_false, intrRoundStep, if_pos (And.intro hlock hne), hround]
    · obtain ⟨n, d, hloop⟩ := h.handlerEnds
      cases n with
      | zero =>
        rw [intrLoop, if_neg hne] at hloop
        cases hloop
      | succ n =>
        rw [intrLoop, if_neg hne, hround] at hloop
        cases hloop

/-! ## The lock -/

/-- After a call has returned with the lock nobody gets into the driver. -/
theorem abandoned_stays {as : List Event} (h : s.lock = .abandoned) (hrun : Run Step s as s') :
    s'.lock = .abandoned ∧ s'.disk.free = s.disk.free ∧
      ∀ c t code, s'.pc c = .returned t code → s.pc c = .returned t code := by
  have hstep : ∀ u a u', (u.lock = .abandoned ∧ u.disk.free = s.disk.free ∧
      ∀ c t code, u.pc c = .returned t code → s.pc c = .returned t code) → Step u a u' →
      u'.lock = .abandoned ∧ u'.disk.free = s.disk.free ∧
        ∀ c t code, u'.pc c = .returned t code → s.pc c = .returned t code := by
    rintro u a u' ⟨hlock, hfree, hret⟩ hs
    obtain ⟨-, hchange⟩ := Change.of_step hs
    cases hchange with
    | count _ _ => exact ⟨hlock, hfree, hret⟩
    | @fail c r config reset _ _ _ =>
      refine ⟨hlock, hfree, fun c' t code hc' => hret c' t code ?_⟩
      rcases eq_or_ne c' c with rfl | hne
      · simp only [setPc, Function.update_self] at hc'
        cases hc'
      · simpa only [setPc, Function.update_of_ne hne] using hc'
    | fetch hne hs' =>
      rw [fetchStep, if_pos hne] at hs'
      exact Option.some.inj hs' ▸ ⟨hlock, hfree, hret⟩
    | execute hj hs' =>
      rw [executeStep, if_pos hj] at hs'
      split at hs'
      · cases hs'
      · exact Option.some.inj hs' ▸ ⟨hlock, hfree, hret⟩
    | publish hj hs' =>
      rw [publishStep, if_pos hj] at hs'
      exact Option.some.inj hs' ▸ ⟨hlock, hfree, hret⟩
    | start _ _ _ hl => exact absurd (hlock.symm.trans hl) (by decide)
    | retry _ hl _ => exact absurd (hlock.symm.trans hl) (by decide)
    | check _ hl _ => exact absurd (hlock.symm.trans hl) (by decide)
    | enter hl => exact absurd (hlock.symm.trans hl) (by decide)
    | spin hl _ _ => exact absurd (hlock.symm.trans hl) (by decide)
    | round hl _ _ => exact absurd (hlock.symm.trans hl) (by decide)
    | leave hl _ => exact absurd (hlock.symm.trans hl) (by decide)
  exact hrun.invariant hstep ⟨h, rfl, fun _ _ _ hc => hc⟩

/-- The chains the handler has still to see are at most `NUM`. -/
theorem Inv.unseen_le (h : Inv s) : s.submitted.length ≤ s.seen + NUM := by
  have hsplit : s.stages = (List.range' s.fetched (s.submitted.length - s.fetched) ++
      s.taken.map Job.ticket ++ s.executed.map Job.ticket) ++
        (s.seenTickets ++ (s.published.drop s.seen).map Job.ticket) := by
    rw [seenTickets, ← List.map_append, List.take_append_drop]
    rfl
  have hnd := h.flight.nodup
  rw [hsplit, (List.perm_append_comm_assoc _ _ _).nodup_iff] at hnd
  obtain ⟨-, hrest, hdisj⟩ := List.nodup_append.mp hnd
  have hcard := h.flight.outstanding_le h.owns hrest (fun t ht => ⟨h.flight.mem_lt ?_,
    fun hseen => hdisj t hseen t ht rfl⟩) (Finset.empty_subset _)
  · have hlen := congrArg List.length hsplit
    rw [h.flight.once.length_eq, List.length_range] at hlen
    have hseen : s.seenTickets.length ≤ s.seen := by
      rw [seenTickets, List.length_map]
      exact List.length_take_le _ _
    rw [Finset.card_empty] at hcard
    simp only [List.length_append] at hlen hcard
    omega
  · rw [hsplit]
    rcases List.mem_append.mp ht with ht | ht
    · exact List.mem_append_left _ ht
    · exact List.mem_append_right _ (List.mem_append_right _ ht)

/-- Once it is inside, the handler makes at most `NUM` rounds before it leaves. -/
theorem handler_rounds {as : List Event} (h : Inv s) (hlock : s.lock = .handler)
    (hrun : Run (Guarded Step fun s a => ¬ Faulty s a ∧ a ≠ .intrLeave) s as s') :
    as.count .intrRound ≤ NUM := by
  have hstep : ∀ ls u a u', (Inv u ∧ u.lock = .handler ∧ u.submitted = s.submitted ∧
      u.seen = s.seen + ls.count .intrRound) →
      Guarded Step (fun s a => ¬ Faulty s a ∧ a ≠ .intrLeave) u a u' →
      Inv u' ∧ u'.lock = .handler ∧ u'.submitted = s.submitted ∧
        u'.seen = s.seen + (ls ++ [a]).count .intrRound := by
    rintro ls u a u' ⟨hinv, hl, hsub, hseen⟩ ⟨⟨hok, hstay⟩, hs⟩
    refine ⟨hinv.step hok hs, ?_⟩
    rw [List.count_append, List.count_singleton, ← Nat.add_assoc, ← hseen]
    obtain ⟨-, hchange⟩ := Change.of_step hs
    cases hchange with
    | count _ _ => exact ⟨hl, hsub, rfl⟩
    | fail _ _ _ => exact ⟨hl, hsub, rfl⟩
    | spin _ hne hnone =>
      obtain ⟨d', hd'⟩ := hinv.round_isSome hne
      rw [hd'] at hnone
      cases hnone
    | round _ _ _ => exact ⟨hl, hsub, rfl⟩
    | leave _ _ => exact absurd rfl hstay
    | fetch hne hs' =>
      rw [fetchStep, if_pos hne] at hs'
      exact Option.some.inj hs' ▸ ⟨hl, hsub, rfl⟩
    | execute hj hs' =>
      rw [executeStep, if_pos hj] at hs'
      split at hs'
      · cases hs'
      · exact Option.some.inj hs' ▸ ⟨hl, hsub, rfl⟩
    | publish hj hs' =>
      rw [publishStep, if_pos hj] at hs'
      exact Option.some.inj hs' ▸ ⟨hl, hsub, rfl⟩
    | start _ _ _ hf => exact absurd (hl.symm.trans hf) (by decide)
    | retry _ hf _ => exact absurd (hl.symm.trans hf) (by decide)
    | check _ hf _ => exact absurd (hl.symm.trans hf) (by decide)
    | enter hf => exact absurd (hl.symm.trans hf) (by decide)
  obtain ⟨hinv, -, hsub, hseen⟩ := hrun.history hstep ⟨h, hlock, rfl, rfl⟩
  have hpub := hinv.flight.used.le
  have hall := hinv.flight.once.length_eq
  rw [List.length_map] at hpub
  simp only [stages, List.length_append, List.length_map, List.length_range, hsub] at hall
  have hle := h.unseen_le
  omega

end CoroCore.Virtio
