import Mathlib.Data.List.Nodup
import Mathlib.Data.List.Range
import CoroCore.Drivers.VirtioInvariant

/-!
# The way of a chain through the rings

A chain is submitted, read by the device, performed, published and seen by the handler. Each of
these steps moves one ticket to the next stage and keeps `Flight`. The rings have room because the
heads of the chains under way are different descriptors (`Flight.outstanding_le`).
-/

namespace CoroCore.Virtio

open Lib Disk Sys

variable {s : Sys} {d d' : Disk} {pc' : Nat → Pc} {c t : Nat} {r : Req} {ch : Chain} {j : Job}

/-! ## Where a chain is -/

theorem mem_stages : t ∈ s.stages ↔
    (s.fetched ≤ t ∧ t < s.fetched + (s.submitted.length - s.fetched)) ∨
    t ∈ s.taken.map Job.ticket ∨ t ∈ s.executed.map Job.ticket ∨
    t ∈ s.published.map Job.ticket := by
  simp only [stages, List.mem_append, List.mem_range'_1, or_assoc]

theorem Flight.nodup (h : Flight s) : s.stages.Nodup := h.once.nodup_iff.mpr List.nodup_range

theorem Flight.mem_lt (h : Flight s) (ht : t ∈ s.stages) : t < s.submitted.length :=
  List.mem_range.mp (h.once.subset ht)

/-- What the device has still to publish the handler has not seen. -/
theorem Flight.unseen (h : Flight s) (ht : s.fetched ≤ t ∧ t < s.submitted.length ∨
    t ∈ s.taken.map Job.ticket ∨ t ∈ s.executed.map Job.ticket) : t ∉ s.seenTickets := by
  intro hseen
  have hpub : t ∈ s.published.map Job.ticket := by
    obtain ⟨j, hj, rfl⟩ := List.mem_map.mp hseen
    exact List.mem_map_of_mem (List.mem_of_mem_take hj)
  refine (List.nodup_append.mp h.nodup).2.2 t ?_ t hpub rfl
  simp only [List.mem_append, List.mem_range'_1, or_assoc]
  rcases ht with ⟨hlo, hlt⟩ | ht
  · exact .inl ⟨hlo, by omega⟩
  · exact .inr ht

theorem Flight.drop_unseen (h : Flight s) (hj : j ∈ s.published.drop s.seen) :
    j.ticket ∉ s.seenTickets := by
  intro hseen
  have hnd := (List.nodup_append.mp h.nodup).2.1
  rw [← List.take_append_drop s.seen s.published, List.map_append] at hnd
  exact (List.nodup_append.mp hnd).2.2 _ hseen _ (List.mem_map_of_mem hj) rfl

/-- What has been performed and not been seen belongs to a call that waits. -/
theorem Flight.owner (h : Flight s)
    (hj : j ∈ s.taken ∨ j ∈ s.executed ∨ j ∈ s.published.drop s.seen) :
    ∃ e, s.submitted[j.ticket]? = some e ∧ e.chain.head = j.head ∧
      s.pc e.call = .waiting e.req e.chain j.ticket ∧ s.disk.done j.head = false := by
  have hjobs : j ∈ s.taken ∨ j ∈ s.executed ∨ j ∈ s.published :=
    hj.imp_right fun hj => hj.imp_right fun hj => List.mem_of_mem_drop hj
  have hunseen : j.ticket ∉ s.seenTickets := by
    rcases hj with hj | hj | hj
    · exact h.unseen (.inr (.inl (List.mem_map_of_mem hj)))
    · exact h.unseen (.inr (.inr (List.mem_map_of_mem hj)))
    · exact h.drop_unseen hj
  obtain ⟨e, he, hhead⟩ := h.jobs j hjobs
  obtain ⟨hpc, hdone⟩ := h.flying j.ticket e he hunseen
  exact ⟨e, he, hhead, hpc, hhead ▸ hdone⟩

theorem Flight.done_iff (h : Flight s) (hpc : s.pc c = .waiting r ch t) :
    s.disk.done ch.head = true ↔ t ∈ s.seenTickets := by
  obtain ⟨he, hseen⟩ := h.landed c r ch t hpc
  refine ⟨fun hdone => ?_, fun ht => (hseen ht).1⟩
  by_contra hunseen
  rw [(h.flying t _ he hunseen).2] at hdone
  cases hdone

/-- Chains that have not been seen are different ones, and none of them has a free head. So there
are at most as many of them as descriptors that are not free. -/
theorem Flight.outstanding_le (h : Flight s) (ho : Owns s.disk s.pc) {l : List Nat} (hnd : l.Nodup)
    (hl : ∀ t ∈ l, t < s.submitted.length ∧ t ∉ s.seenTickets) {A : Finset Nat}
    (hA : A ⊆ s.disk.freeSet) : l.length + A.card ≤ NUM := by
  let f : Nat → Nat := fun t => ((s.submitted[t]?).map fun e => e.chain.head).getD 0
  have hf : ∀ t ∈ l, ∃ e : Submission, f t = e.chain.head ∧
      s.pc e.call = .waiting e.req e.chain t := by
    intro t ht
    obtain ⟨hlt, hunseen⟩ := hl t ht
    have he := List.getElem?_eq_getElem hlt
    exact ⟨s.submitted[t], by simp [f, he], (h.flying t _ he hunseen).1⟩
  have hinj : (l.map f).Nodup := by
    refine hnd.map_on fun t ht u hu heq => ?_
    obtain ⟨e, hte, hpc⟩ := hf t ht
    obtain ⟨e', hue, hpc'⟩ := hf u hu
    have hcall := ho.same_call hpc' hpc (by rw [← hte, ← hue, heq])
    rw [hcall, hpc', Pc.waiting.injEq] at hpc
    exact hpc.2.2.symm
  have hheld : ∀ i ∈ (l.map f).toFinset, i < NUM ∧ s.disk.free i = false := by
    intro i hi
    obtain ⟨t, ht, rfl⟩ := List.mem_map.mp (List.mem_toFinset.mp hi)
    obtain ⟨e, hte, hpc⟩ := hf t ht
    rw [hte]
    exact ho.held hpc e.chain.head_mem
  have hdisj : Disjoint (l.map f).toFinset A := by
    refine Finset.disjoint_left.mpr fun i hi hiA => ?_
    have hfree := (mem_freeSet.mp (hA hiA)).2
    rw [(hheld i hi).2] at hfree
    cases hfree
  have hsub : (l.map f).toFinset ∪ A ⊆ Finset.range NUM := by
    intro i hi
    rcases Finset.mem_union.mp hi with hi | hi
    · exact Finset.mem_range.mpr (hheld i hi).1
    · exact Finset.mem_range.mpr (mem_freeSet.mp (hA hi)).1
  have hcard := Finset.card_le_card hsub
  rwa [Finset.card_union_of_disjoint hdisj, List.toFinset_card_of_nodup hinj, List.length_map,
    Finset.card_range] at hcard

/-! ## How a chain moves on -/

/-- The two disks differ only in what the rings and the completions do not depend on. -/
def SameRings (d d' : Disk) : Prop :=
  ∃ desc free ops sleeper queue asleep, d' =
    { d with
      desc := desc, free := free, ops := ops, sleeper := sleeper, requestQueue := queue
      asleep := asleep }

theorem Disk.Released.sameRings {is : List Nat} (h : Released d is d') : SameRings d d' := by
  obtain ⟨k, rfl⟩ := h
  exact ⟨_, _, _, _, _, _, rfl⟩

/-- Calls may move as long as a chain that is not done keeps its owner. -/
theorem Flight.retarget (h : Flight s) {l : Lock} (hd : SameRings s.disk d')
    (hwait : ∀ c r ch t, pc' c = .waiting r ch t → s.pc c = .waiting r ch t)
    (hfly : ∀ c r ch t, s.pc c = .waiting r ch t → s.disk.done ch.head = false →
      pc' c = .waiting r ch t)
    (hret : ∀ c t, pc' c = .returned t 0 → s.pc c = .returned t 0 ∨
      ∃ r ch, s.pc c = .waiting r ch t ∧ s.disk.done ch.head = true) :
    Flight { s with disk := d', pc := pc', lock := l } := by
  obtain ⟨_, _, _, _, _, _, rfl⟩ := hd
  refine ⟨h.avail, h.used, h.once, h.jobs, fun t e he hunseen => ?_, fun c r ch t hc => ?_,
    h.performed, fun c t hc => ?_⟩
  · obtain ⟨hpc, hdone⟩ := h.flying t e he hunseen
    exact ⟨hfly _ _ _ _ hpc hdone, hdone⟩
  · exact h.landed c r ch t (hwait c r ch t hc)
  · rcases hret c t hc with hold | ⟨r, ch, hold, hdone⟩
    · exact h.returned c t hold
    · obtain ⟨he, hseen⟩ := h.landed c r ch t hold
      have ht := (h.done_iff hold).mp hdone
      exact ⟨ht, r, ch, he, (hseen ht).2⟩

/-- An element leaves one list for the end of the next one. -/
theorem perm_move {α : Type*} {k : α} {T T' E P : List α} (h : T.Perm (k :: T')) :
    (T' ++ (E ++ k :: P)).Perm (T ++ (E ++ P)) := by
  have hout : (T' ++ (E ++ k :: P)).Perm (k :: (T' ++ (E ++ P))) :=
    (List.Perm.append_left T' List.perm_middle).trans List.perm_middle
  exact hout.trans (h.append_right (E ++ P)).symm

/-- A call that had no chain submits one. -/
theorem Flight.submit (h : Flight s) (ho : Owns s.disk s.pc) (hheld : Held s.disk ch.descs d')
    (hnew : ∀ r ch t, s.pc c ≠ .waiting r ch t) :
    Flight (Sys.submit { s with disk := d' } c r ch) := by
  have hfree : ch.head ∈ s.disk.freeSet := mem_freeSet.mpr (hheld.free _ ch.head_mem)
  have hother : ∀ c' r' ch' t', s.pc c' = .waiting r' ch' t' → c' ≠ c ∧ ch'.head ≠ ch.head := by
    intro c' r' ch' t' hc'
    refine ⟨fun he => hnew r' ch' t' (he ▸ hc'), fun he => ?_⟩
    have hused := (ho.held hc' ch'.head_mem).2
    rw [he, (mem_freeSet.mp hfree).2] at hused
    cases hused
  have hroom : (s.submitted.map fun e => e.chain.head).length < s.fetched + NUM := by
    have hle := h.outstanding_le ho (l := List.range' s.fetched (s.submitted.length - s.fetched))
      List.nodup_range' (fun t ht => by
        obtain ⟨hlo, hlt⟩ := List.mem_range'_1.mp ht
        have hlt' : t < s.submitted.length := by omega
        exact ⟨hlt', h.unseen (.inl ⟨hlo, hlt'⟩)⟩) (Finset.singleton_subset_iff.mpr hfree)
    rw [List.length_range', Finset.card_singleton] at hle
    rw [List.length_map]
    omega
  have hget : ∀ t e, t ≠ s.submitted.length →
      ((s.submitted ++ [⟨c, r, ch⟩])[t]? = some e ↔ s.submitted[t]? = some e) := by
    intro t e hne
    rcases Nat.lt_or_gt_of_ne hne with hlt | hgt
    · rw [List.getElem?_append_left hlt]
    · have hlen : (s.submitted ++ [(⟨c, r, ch⟩ : Submission)]).length ≤ t := by
        rw [List.length_append]
        exact hgt
      rw [List.getElem?_eq_none hlen, List.getElem?_eq_none hgt.le]
  have hold : ∀ t e, s.submitted[t]? = some e → t ≠ s.submitted.length := by
    rintro t e he rfl
    rw [List.getElem?_eq_none (Nat.le_refl _)] at he
    cases he
  have hkeep : ∀ t e, s.submitted[t]? = some e → (s.submitted ++ [⟨c, r, ch⟩])[t]? = some e :=
    fun t e he => (hget t e (hold t e he)).mpr he
  obtain ⟨rfl, -, -⟩ := hheld
  refine ⟨?_, h.used, ?_, fun j hj => ?_, fun t e he hunseen => ?_, fun c' r' ch' t hc' => ?_,
    fun j hj e he => ?_, fun c' t hc' => ?_⟩
  · simpa only [submit, setPc, pushAvail, format, List.map_append, List.map_cons, List.map_nil]
      using h.avail.push (by decide) hroom
  · have hle : s.fetched ≤ s.submitted.length := by simpa using h.avail.le
    have hlen : s.submitted.length + 1 - s.fetched = s.submitted.length - s.fetched + 1 :=
      Nat.sub_add_comm hle
    have hlast : s.fetched + (s.submitted.length - s.fetched) = s.submitted.length :=
      Nat.add_sub_cancel' hle
    have honce := h.once
    simp only [stages, List.append_assoc] at honce
    simp only [stages, submit, setPc, List.length_append, List.length_singleton, hlen,
      List.range'_1_concat, hlast, List.append_assoc, List.range_succ, List.singleton_append]
    exact List.perm_middle.trans ((honce.cons _).trans (List.perm_append_singleton _ _).symm)
  · obtain ⟨e, he, hhead⟩ := h.jobs j hj
    exact ⟨e, hkeep _ _ he, hhead⟩
  · simp only [submit, setPc, pushAvail, format] at he hunseen ⊢
    rcases eq_or_ne t s.submitted.length with rfl | hne
    · simp only [List.getElem?_concat_length, Option.some.injEq] at he
      subst he
      exact ⟨Function.update_self .., Function.update_self ..⟩
    · obtain ⟨hpc, hdone⟩ := h.flying t e ((hget t e hne).mp he) hunseen
      obtain ⟨hcall, hhead⟩ := hother _ _ _ _ hpc
      rw [Function.update_of_ne hcall, Function.update_of_ne hhead]
      exact ⟨hpc, hdone⟩
  · simp only [submit, setPc, pushAvail, format] at hc' ⊢
    rcases eq_or_ne c' c with rfl | hne
    · simp only [Function.update_self, Pc.waiting.injEq] at hc'
      obtain ⟨rfl, rfl, rfl⟩ := hc'
      refine ⟨List.getElem?_concat_length, fun hseen => ?_⟩
      obtain ⟨j, hj, hjt⟩ := List.mem_map.mp hseen
      obtain ⟨e, he, -⟩ := h.jobs j (.inr (.inr (List.mem_of_mem_take hj)))
      exact absurd hjt (hold _ e he)
    · rw [Function.update_of_ne hne] at hc'
      obtain ⟨he, hseen⟩ := h.landed c' r' ch' t hc'
      refine ⟨hkeep _ _ he, fun ht => ?_⟩
      rw [Function.update_of_ne (hother _ _ _ _ hc').2]
      exact hseen ht
  · simp only [submit, setPc, pushAvail, format] at he hj ⊢
    obtain ⟨e', he', hhead, hpc, -⟩ := h.owner (.inr hj)
    rw [hget _ _ (hold _ _ he')] at he
    rw [Function.update_of_ne (hhead ▸ (hother _ _ _ _ hpc).2)]
    exact h.performed j hj e he
  · simp only [submit, setPc] at hc'
    rcases eq_or_ne c' c with rfl | hne
    · rw [Function.update_self] at hc'
      cases hc'
    · rw [Function.update_of_ne hne] at hc'
      obtain ⟨ht, r', ch', he, hserved⟩ := h.returned c' t hc'
      exact ⟨ht, r', ch', hkeep _ _ he, hserved⟩

/-- The device reads an entry of the avail ring. -/
theorem Flight.fetch (h : Flight s) (hne : s.lastAvail ≠ s.disk.availIdx) :
    Flight
      { s with
        lastAvail := (s.lastAvail + 1) % idxRange
        fetched := s.fetched + 1
        taken := s.taken ++ [⟨s.fetched, s.disk.availRing (s.lastAvail % NUM)⟩] } := by
  have hlt := (h.avail.pending_iff (by decide)).mp hne
  obtain ⟨hread, hpop⟩ := h.avail.pop (by decide) hlt
  rw [List.length_map] at hlt
  rw [List.getElem?_map, Option.map_eq_some_iff] at hread
  obtain ⟨e, he, hhead⟩ := hread
  refine ⟨hpop, h.used, ?_, fun j hj => ?_, h.flying, h.landed, h.performed, h.returned⟩
  · have hrange : List.range' s.fetched (s.submitted.length - s.fetched) =
        s.fetched :: List.range' (s.fetched + 1) (s.submitted.length - (s.fetched + 1)) := by
      rw [← List.range'_succ]
      congr 1
      omega
    have honce := h.once
    simp only [stages, List.append_assoc] at honce
    simp only [stages, List.map_append, List.map_cons, List.map_nil, List.append_assoc,
      List.singleton_append]
    exact (perm_move (hrange ▸ List.Perm.refl _)).trans honce
  · rcases hj with hj | hj
    · rcases List.mem_append.mp hj with hj | hj
      · exact h.jobs j (.inl hj)
      · rw [List.mem_singleton.mp hj]
        exact ⟨e, he, hhead⟩
    · exact h.jobs j (.inr hj)

/-- The device works on different heads. -/
theorem Flight.head_ne (h : Flight s) (ho : Owns s.disk s.pc) {k : Job} (hj : j ∈ s.taken)
    (hk : k ∈ s.executed ∨ k ∈ s.published.drop s.seen) : k.head ≠ j.head := by
  obtain ⟨e, -, hhead, hpc, -⟩ := h.owner (.inl hj)
  obtain ⟨e', -, hhead', hpc', -⟩ := h.owner (.inr hk)
  intro heq
  have hcall := ho.same_call hpc hpc' (by rw [hhead', hhead, heq])
  rw [hcall, hpc, Pc.waiting.injEq] at hpc'
  have hpub := (List.nodup_append.mp h.nodup).2.2
  have hexec := (List.nodup_append.mp (List.nodup_append.mp h.nodup).1).2.2
  have hjm := List.mem_map_of_mem (f := Job.ticket) hj
  rcases hk with hk | hk
  · exact hexec _ (List.mem_append_right _ hjm) _ (List.mem_map_of_mem hk) hpc'.2.2
  · exact hpub _ (List.mem_append_left _ (List.mem_append_right _ hjm)) _
      (List.mem_map_of_mem (List.mem_of_mem_drop hk)) hpc'.2.2

/-- The device performs a request. -/
theorem Flight.execute (h : Flight s) (ho : Owns s.disk s.pc) (hj : j ∈ s.taken) (b : Nat) :
    ∃ e, s.submitted[j.ticket]? = some e ∧
      s.disk.resolve j.head = some (⟨e.req.command % 2 ^ 32, e.req.sector⟩, e.req.buf, j.head) ∧
      Flight
        { s with
          disk := { s.disk with status := Function.update s.disk.status j.head b }
          taken := s.taken.erase j
          executed := s.executed ++ [j]
          served := s.served ++
            [⟨j.ticket, ⟨e.req.command % 2 ^ 32, e.req.sector⟩, e.req.buf, b⟩] } := by
  obtain ⟨e, he, hhead, hpc, -⟩ := h.owner (.inl hj)
  have hresolve := (ho.formatted _ _ _ _ hpc).resolve
  rw [hhead] at hresolve
  refine ⟨e, he, hresolve, h.avail, h.used, ?_, fun k hk => ?_, h.flying, fun c r ch t hc => ?_,
    fun k hk e' he' => ?_, fun c t hc => ?_⟩
  · have honce := h.once
    simp only [stages, List.append_assoc] at honce
    simp only [stages, List.map_append, List.map_cons, List.map_nil, List.append_assoc,
      List.singleton_append]
    exact ((perm_move ((List.perm_cons_erase hj).map _)).append_left _).trans honce
  · refine h.jobs k ?_
    rcases hk with hk | hk | hk
    · exact .inl (List.mem_of_mem_erase hk)
    · rcases List.mem_append.mp hk with hk | hk
      · exact .inr (.inl hk)
      · exact .inl (List.mem_singleton.mp hk ▸ hj)
    · exact .inr (.inr hk)
  · obtain ⟨hc, hseen⟩ := h.landed c r ch t hc
    exact ⟨hc, fun ht => ⟨(hseen ht).1, List.mem_append_left _ (hseen ht).2⟩⟩
  · have hcases : k = j ∨ k ∈ s.executed ∨ k ∈ s.published.drop s.seen := by
      rcases hk with hk | hk
      · exact (List.mem_append.mp hk).elim (fun hk => .inr (.inl hk))
          fun hk => .inl (List.mem_singleton.mp hk)
      · exact .inr (.inr hk)
    rcases hcases with rfl | hk
    · rw [he, Option.some.injEq] at he'
      subst he'
      simp only [Function.update_self]
      exact List.mem_append_right _ (List.mem_singleton_self _)
    · simp only [Function.update_of_ne (h.head_ne ho hj hk)]
      exact List.mem_append_left _ (h.performed k hk e' he')
  · obtain ⟨ht, r, ch, hc, hserved⟩ := h.returned c t hc
    exact ⟨ht, r, ch, hc, List.mem_append_left _ hserved⟩

/-- The device publishes a chain. -/
theorem Flight.publish (h : Flight s) (ho : Owns s.disk s.pc) (hj : j ∈ s.executed) :
    Flight
      { s with
        disk :=
          { s.disk with
            usedRing := Function.update s.disk.usedRing (s.disk.usedIdx % NUM) j.head
            usedIdx := (s.disk.usedIdx + 1) % idxRange }
        executed := s.executed.erase j
        published := s.published ++ [j] } ∧
      (s.published ++ [j]).drop s.seen = s.published.drop s.seen ++ [j] := by
  have hle : s.seen ≤ s.published.length := by simpa using h.used.le
  have hunseen : j.ticket ∉ s.seenTickets := h.unseen (.inr (.inr (List.mem_map_of_mem hj)))
  have hdisj := (List.nodup_append.mp h.nodup).2.2
  have hnew : j.ticket ∉ s.published.map Job.ticket := fun hp =>
    hdisj _ (List.mem_append_right _ (List.mem_map_of_mem hj)) _ hp rfl
  have hroom : (s.published.map Job.head).length < s.seen + NUM := by
    have hnd : (j.ticket :: (s.published.drop s.seen).map Job.ticket).Nodup := by
      refine List.nodup_cons.mpr ⟨fun hp => hnew ?_, ?_⟩
      · exact (List.map_subset _ (List.drop_subset _ _)) hp
      · exact (List.nodup_append.mp h.nodup).2.1.sublist ((List.drop_sublist _ _).map _)
    have hcard := h.outstanding_le ho hnd (fun t ht => ?_) (Finset.empty_subset _)
    · rw [List.length_cons, List.length_map, List.length_drop] at hcard
      rw [List.length_map]
      simp only [Finset.card_empty] at hcard
      omega
    · rcases List.mem_cons.mp ht with rfl | ht
      · exact ⟨h.mem_lt (mem_stages.mpr (.inr (.inr (.inl (List.mem_map_of_mem hj))))), hunseen⟩
      · obtain ⟨k, hk, rfl⟩ := List.mem_map.mp ht
        refine ⟨h.mem_lt (mem_stages.mpr (.inr (.inr (.inr ?_)))), h.drop_unseen hk⟩
        exact List.mem_map_of_mem (List.mem_of_mem_drop hk)
  have hdrop : (s.published ++ [j]).drop s.seen = s.published.drop s.seen ++ [j] :=
    List.drop_append_of_le_length hle
  have htake : (s.published ++ [j]).take s.seen = s.published.take s.seen :=
    List.take_append_of_le_length hle
  refine ⟨⟨h.avail, ?_, ?_, fun k hk => ?_, fun t e he ht => ?_, fun c r ch t hc => ?_,
    fun k hk => ?_, fun c t hc => ?_⟩, hdrop⟩
  · simpa only [List.map_append, List.map_cons, List.map_nil] using h.used.push (by decide) hroom
  · have honce := h.once
    simp only [stages, List.append_assoc] at honce
    simp only [stages, List.map_append, List.map_cons, List.map_nil, List.append_assoc]
    refine (List.Perm.append_left _ (List.Perm.append_left _ ?_)).trans honce
    simpa using perm_move (E := s.published.map Job.ticket) (P := [])
      ((List.perm_cons_erase hj).map Job.ticket)
  · refine h.jobs k ?_
    rcases hk with hk | hk | hk
    · exact .inl hk
    · exact .inr (.inl (List.mem_of_mem_erase hk))
    · rcases List.mem_append.mp hk with hk | hk
      · exact .inr (.inr hk)
      · exact .inr (.inl (List.mem_singleton.mp hk ▸ hj))
  · refine h.flying t e he ?_
    simpa only [seenTickets, htake] using ht
  · obtain ⟨hc, hseen⟩ := h.landed c r ch t hc
    refine ⟨hc, fun ht => hseen ?_⟩
    simpa only [seenTickets, htake] using ht
  · refine h.performed k ?_
    simp only [hdrop] at hk
    rcases hk with hk | hk
    · exact .inl (List.mem_of_mem_erase hk)
    · rcases List.mem_append.mp hk with hk | hk
      · exact .inr hk
      · exact .inl (List.mem_singleton.mp hk ▸ hj)
  · obtain ⟨ht, hserved⟩ := h.returned c t hc
    refine ⟨?_, hserved⟩
    simpa only [seenTickets, htake] using ht

/-- The next entry of the used ring. -/
theorem Flight.next (h : Flight s) (hne : s.disk.usedSeen ≠ s.disk.usedIdx) :
    ∃ j, s.published[s.seen]? = some j ∧ j.head = s.disk.usedRing (s.disk.usedSeen % NUM) ∧
      s.published.drop s.seen = j :: s.published.drop (s.seen + 1) := by
  have hlt := (h.used.pending_iff (by decide)).mp hne
  obtain ⟨hread, -⟩ := h.used.pop (by decide) hlt
  rw [List.getElem?_map, Option.map_eq_some_iff] at hread
  obtain ⟨j, hj, hhead⟩ := hread
  rw [List.length_map] at hlt
  rw [List.getElem?_eq_getElem hlt, Option.some.injEq] at hj
  refine ⟨j, ?_, hhead, ?_⟩
  · rw [List.getElem?_eq_getElem hlt, hj]
  · rw [← hj]
    exact List.drop_eq_getElem_cons hlt

/-- A round of the handler. -/
theorem Flight.round (h : Flight s) (ho : Owns s.disk s.pc) (hne : s.disk.usedSeen ≠ s.disk.usedIdx)
    (hd : s.disk.intrRound = some d') : Flight { s with disk := d', seen := s.seen + 1 } := by
  obtain ⟨j, hj, hhead, hdrop⟩ := h.next hne
  obtain ⟨hstatus, _, _, rfl⟩ := intrRound_eq hd
  rw [← hhead] at hstatus ⊢
  have hmem : j ∈ s.published.drop s.seen := hdrop ▸ List.mem_cons_self
  obtain ⟨e, he, heh, hpc, -⟩ := h.owner (.inr (.inr hmem))
  have hseen : ({ s with seen := s.seen + 1 } : Sys).seenTickets = s.seenTickets ++ [j.ticket] := by
    simp only [seenTickets, List.take_add_one, hj, Option.toList_some, List.map_append,
      List.map_cons, List.map_nil]
  refine ⟨h.avail, (h.used.pop (by decide) ((h.used.pending_iff (by decide)).mp hne)).2, h.once,
    h.jobs, fun t e' he' ht => ?_, fun c r ch t hc => ?_, fun k hk => ?_, fun c t hc => ?_⟩
  · change t ∉ ({ s with seen := s.seen + 1 } : Sys).seenTickets at ht
    rw [hseen, List.mem_append, List.mem_singleton, not_or] at ht
    obtain ⟨hpc', hdone⟩ := h.flying t e' he' ht.1
    refine ⟨hpc', ?_⟩
    have hother : e'.chain.head ≠ j.head := by
      intro heq
      have hcall := ho.same_call hpc hpc' (by rw [heq, heh])
      rw [hcall, hpc, Pc.waiting.injEq] at hpc'
      exact ht.2 hpc'.2.2.symm
    exact (Function.update_of_ne hother ..).trans hdone
  · obtain ⟨hold, hserved⟩ := h.landed c r ch t hc
    refine ⟨hold, fun ht => ?_⟩
    change t ∈ ({ s with seen := s.seen + 1 } : Sys).seenTickets at ht
    rw [hseen, List.mem_append, List.mem_singleton] at ht
    rcases ht with ht | rfl
    · obtain ⟨hdone, hsv⟩ := hserved ht
      refine ⟨?_, hsv⟩
      rcases eq_or_ne ch.head j.head with heq | hother
      · simp [heq]
      · exact (Function.update_of_ne hother ..).trans hdone
    · rw [he, Option.some.injEq] at hold
      subst hold
      refine ⟨by simp [← heh], ?_⟩
      exact hstatus ▸ h.performed j (.inr hmem) _ he
  · refine h.performed k (hk.imp_right fun hk => ?_)
    rw [hdrop]
    exact List.mem_cons_of_mem _ hk
  · obtain ⟨ht, hserved⟩ := h.returned c t hc
    refine ⟨?_, hserved⟩
    change t ∈ ({ s with seen := s.seen + 1 } : Sys).seenTickets
    exact hseen ▸ List.mem_append_left _ ht

end CoroCore.Virtio
