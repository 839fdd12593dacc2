import CoroCore.Lib.Ownership
import CoroCore.Lib.Ring
import CoroCore.Drivers.VirtioDescriptors

/-!
# The invariant of the virtio disk

Between two events a descriptor is free or belongs to the chain of one call that waits
(`Owns`), who sleeps is on the queue where the event he waits for wakes him (`Sleeps`), and every
chain that was submitted is at one stage on its way through the two rings (`Flight`). This
module has the steps that keep the first two.
-/

namespace CoroCore.Virtio

open Lib Disk

variable {d d' : Disk} {pc pc' : Nat → Pc} {c t : Nat} {r : Req} {ch : Chain}

/-! ## The invariant -/

/-- The call `c` waits for a chain that the descriptor belongs to. -/
def Holds (pc : Nat → Pc) (c i : Nat) : Prop := ∃ r ch t, pc c = .waiting r ch t ∧ i ∈ ch.descs

/-- The descriptors that are not free belong to the calls that wait, each of which has a
formatted chain of three. -/
structure Owns (d : Disk) (pc : Nat → Pc) : Prop where
  nodup : ∀ c r ch t, pc c = .waiting r ch t → ch.descs.Nodup
  formatted : ∀ c r ch t, pc c = .waiting r ch t → Formatted d r ch
  owned : Owned {i | i < NUM ∧ d.free i = false} (Holds pc)

/-- A call that sleeps is on the request queue and has no chain, or it is the sleeper of its
own chain, which is not done. -/
structure Sleeps (d : Disk) (pc : Nat → Pc) : Prop where
  queue : ∀ c ∈ d.requestQueue, (∃ r, pc c = .retry r) ∧ d.asleep c = true
  nodup : d.requestQueue.Nodup
  sleeper : ∀ i c, d.sleeper i = some c →
    (∃ r ch t, pc c = .waiting r ch t ∧ ch.head = i) ∧ d.done i = false ∧ d.asleep c = true
  asleep : ∀ c, d.asleep c = true →
    c ∈ d.requestQueue ∨ ∃ r ch t, pc c = .waiting r ch t ∧ d.sleeper ch.head = some c

namespace Sys

/-- The tickets at the four stages: in the avail ring, read by the device, performed,
published. -/
def stages (s : Sys) : List Nat :=
  List.range' s.fetched (s.submitted.length - s.fetched) ++ s.taken.map Job.ticket ++
    s.executed.map Job.ticket ++ s.published.map Job.ticket

/-- The tickets the handler has seen. -/
def seenTickets (s : Sys) : List Nat := (s.published.take s.seen).map Job.ticket

/-- The device has performed what the request asks for and reported `b`. -/
def Served (s : Sys) (t : Nat) (r : Req) (b : Nat) : Prop :=
  ⟨t, ⟨r.command % 2 ^ 32, r.sector⟩, r.buf, b⟩ ∈ s.served

end Sys

open Sys

/-- Every submitted chain is at one stage. Until the handler has seen it its call waits and is
not done; then it is done, and the device has served this very request. -/
structure Flight (s : Sys) : Prop where
  avail : RingLog NUM idxRange s.disk.availRing s.lastAvail s.disk.availIdx
    (s.submitted.map fun e => e.chain.head) s.fetched
  used : RingLog NUM idxRange s.disk.usedRing s.disk.usedSeen s.disk.usedIdx
    (s.published.map Job.head) s.seen
  once : s.stages.Perm (List.range s.submitted.length)
  jobs : ∀ j, j ∈ s.taken ∨ j ∈ s.executed ∨ j ∈ s.published →
    ∃ e, s.submitted[j.ticket]? = some e ∧ e.chain.head = j.head
  flying : ∀ t e, s.submitted[t]? = some e → t ∉ s.seenTickets →
    s.pc e.call = .waiting e.req e.chain t ∧ s.disk.done e.chain.head = false
  landed : ∀ c r ch t, s.pc c = .waiting r ch t → s.submitted[t]? = some ⟨c, r, ch⟩ ∧
    (t ∈ s.seenTickets → s.disk.done ch.head = true ∧ s.Served t r 0)
  performed : ∀ j, j ∈ s.executed ∨ j ∈ s.published.drop s.seen →
    ∀ e, s.submitted[j.ticket]? = some e → s.Served j.ticket e.req (s.disk.status j.head)
  returned : ∀ c t, s.pc c = .returned t 0 →
    t ∈ s.seenTickets ∧ ∃ r ch, s.submitted[t]? = some ⟨c, r, ch⟩ ∧ s.Served t r 0

/-- What holds between two events. `succeeded`: the device has published no failed request that
the handler has still to see. -/
structure Inv (s : Sys) : Prop where
  unlocked : s.lock ≠ .abandoned
  owns : Owns s.disk s.pc
  sleeps : Sleeps s.disk s.pc
  flight : Flight s
  succeeded : ∀ j ∈ s.published.drop s.seen, s.disk.status j.head = 0

/-! ## Who owns a descriptor -/

theorem Chain.head_mem (ch : Chain) : ch.head ∈ ch.descs := List.mem_cons_self

theorem Owns.held {i : Nat} (h : Owns d pc) (hpc : pc c = .waiting r ch t) (hi : i ∈ ch.descs) :
    i < NUM ∧ d.free i = false :=
  h.owned.mem c ⟨r, ch, t, hpc, hi⟩

/-- Two calls that wait for chains with the same head are the same call. -/
theorem Owns.same_call (h : Owns d pc) {c' t' : Nat} {r' : Req} {ch' : Chain}
    (hpc : pc c = .waiting r ch t) (hpc' : pc c' = .waiting r' ch' t')
    (hhead : ch'.head = ch.head) :
    c' = c :=
  h.owned.unique ch.head c' c ⟨r', ch', t', hpc', hhead ▸ ch'.head_mem⟩ ⟨r, ch, t, hpc, ch.head_mem⟩

theorem Owns.congr (h : Owns d pc) (hfree : ∀ i, d'.free i = d.free i) (hops : d'.ops = d.ops)
    (hdesc : ∀ i, d.free i = false → d'.desc i = d.desc i)
    (hpc : ∀ c r ch t, pc' c = .waiting r ch t ↔ pc c = .waiting r ch t) : Owns d' pc' where
  nodup c r ch t hc := h.nodup c r ch t ((hpc c r ch t).mp hc)
  formatted c r ch t hc := by
    have hc := (hpc c r ch t).mp hc
    exact (h.formatted c r ch t hc).congr (congrFun hops _) fun i hi => hdesc i (h.held hc hi).2
  owned := by
    have hset : {i | i < NUM ∧ d'.free i = false} = {i | i < NUM ∧ d.free i = false} := by
      ext i
      simp only [Set.mem_ofPred_eq, hfree]
    rw [hset]
    refine h.owned.congr fun c i => ?_
    simp only [Holds, hpc]

/-- Descriptors that were free go to a call that had none. -/
theorem Owns.take (h : Owns d pc) (hheld : Held d ch.descs d')
    (hnew : ∀ r ch t, pc c ≠ .waiting r ch t) :
    Owns (d'.format r ch) (Function.update pc c (.waiting r ch t)) := by
  obtain ⟨rfl, hnd, hall⟩ := hheld
  have hother : ∀ c' r' ch' t', c' ≠ c → pc c' = .waiting r' ch' t' →
      ∀ i ∈ ch'.descs, i ∉ ch.descs := by
    intro c' r' ch' t' _ hc' i hi hmem
    have hfree := (h.held hc' hi).2
    rw [(hall i hmem).2] at hfree
    cases hfree
  have hcases : ∀ c' i, Holds (Function.update pc c (.waiting r ch t)) c' i ↔
      c' = c ∧ i ∈ ch.descs ∨ c' ≠ c ∧ Holds pc c' i := by
    intro c' i
    rcases eq_or_ne c' c with rfl | hne
    · simp [Holds]
    · simp [Holds, hne]
  refine ⟨fun c' r' ch' t' hc' => ?_, fun c' r' ch' t' hc' => ?_, fun i => ?_,
    fun i o o' ho ho' => ?_⟩
  · rcases eq_or_ne c' c with rfl | hne
    · simp only [Function.update_self, Pc.waiting.injEq] at hc'
      obtain ⟨rfl, rfl, rfl⟩ := hc'
      exact hnd
    · rw [Function.update_of_ne hne] at hc'
      exact h.nodup c' r' ch' t' hc'
  · rcases eq_or_ne c' c with rfl | hne
    · simp only [Function.update_self, Pc.waiting.injEq] at hc'
      obtain ⟨rfl, rfl, rfl⟩ := hc'
      exact format_formatted hnd
    · rw [Function.update_of_ne hne] at hc'
      have hout := hother c' r' ch' t' hne hc'
      refine (h.formatted c' r' ch' t' hc').congr ?_ fun i hi => ?_
      · have hne : ch'.head ≠ ch.head := fun he => hout ch'.head ch'.head_mem (he ▸ ch.head_mem)
        exact Function.update_of_ne hne ..
      · have hi := hout i hi
        simp only [Chain.descs, List.mem_cons, List.not_mem_nil, or_false, not_or] at hi
        simp [format, hi]
  · constructor
    · rintro ⟨hlt, hfree⟩
      rcases Bool.eq_false_or_eq_true (d.free i) with hi | hi
      · refine ⟨c, (hcases c i).mpr (.inl ⟨rfl, ?_⟩)⟩
        simpa [format, hi] using hfree
      · obtain ⟨c', hc'⟩ := (h.owned.total i).mp ⟨hlt, hi⟩
        have hne : c' ≠ c := by
          rintro rfl
          obtain ⟨r', ch', t', hpc, -⟩ := hc'
          exact hnew r' ch' t' hpc
        exact ⟨c', (hcases c' i).mpr (.inr ⟨hne, hc'⟩)⟩
    · rintro ⟨c', hc'⟩
      rcases (hcases c' i).mp hc' with ⟨-, hmem⟩ | ⟨-, hold⟩
      · exact ⟨(hall i hmem).1, by simp [format, hmem]⟩
      · obtain ⟨hlt, hfree⟩ := h.owned.mem c' hold
        exact ⟨hlt, by simp [format, hfree]⟩
  · rcases (hcases o i).mp ho with ⟨rfl, hmem⟩ | ⟨hne, hold⟩
    · rcases (hcases o' i).mp ho' with ⟨rfl, -⟩ | ⟨hne', r', ch', t', hc', hi⟩
      · rfl
      · exact absurd hmem (hother o' r' ch' t' hne' hc' i hi)
    · rcases (hcases o' i).mp ho' with ⟨rfl, hmem⟩ | ⟨-, hold'⟩
      · obtain ⟨r', ch', t', hc', hi⟩ := hold
        exact absurd hmem (hother o r' ch' t' hne hc' i hi)
      · exact h.owned.unique i o o' hold hold'

/-- A call gives its descriptors back. -/
theorem Owns.release (h : Owns d pc) (hpc : pc c = .waiting r ch t) (hr : Released d ch.descs d')
    {p : Pc} (hp : ∀ r ch t, p ≠ .waiting r ch t) : Owns d' (Function.update pc c p) := by
  have hold : ∀ c' r' ch' t', Function.update pc c p c' = .waiting r' ch' t' →
      c' ≠ c ∧ pc c' = .waiting r' ch' t' := by
    intro c' r' ch' t' hc'
    rcases eq_or_ne c' c with rfl | hne
    · rw [Function.update_self] at hc'
      exact absurd hc' (hp r' ch' t')
    · rw [Function.update_of_ne hne] at hc'
      exact ⟨hne, hc'⟩
  have hholds : ∀ c' i, Holds (Function.update pc c p) c' i ↔ c' ≠ c ∧ Holds pc c' i := by
    intro c' i
    constructor
    · rintro ⟨r', ch', t', hc', hi⟩
      exact ⟨(hold c' r' ch' t' hc').1, r', ch', t', (hold c' r' ch' t' hc').2, hi⟩
    · rintro ⟨hne, r', ch', t', hc', hi⟩
      exact ⟨r', ch', t', by rw [Function.update_of_ne hne, hc'], hi⟩
  have hout : ∀ c' i, c' ≠ c → Holds pc c' i → i ∉ ch.descs := fun c' i hne hc' hi =>
    hne (h.owned.unique i c' c hc' ⟨r, ch, t, hpc, hi⟩)
  have hops : d'.ops = d.ops := by
    obtain ⟨k, rfl⟩ := hr
    rfl
  refine ⟨fun c' r' ch' t' hc' => h.nodup c' r' ch' t' (hold c' r' ch' t' hc').2,
    fun c' r' ch' t' hc' => ?_, fun i => ?_, fun i o o' ho ho' => ?_⟩
  · obtain ⟨hne, hc'⟩ := hold c' r' ch' t' hc'
    refine (h.formatted c' r' ch' t' hc').congr (congrFun hops _) fun i hi => ?_
    exact hr.desc_eq (hout c' i hne ⟨r', ch', t', hc', hi⟩)
  · rw [Set.mem_ofPred_eq, hr.free_eq, Bool.or_eq_false_iff, decide_eq_false_iff_not]
    constructor
    · rintro ⟨hlt, hi, hfree⟩
      obtain ⟨c', hc'⟩ := (h.owned.total i).mp ⟨hlt, hfree⟩
      refine ⟨c', (hholds c' i).mpr ⟨?_, hc'⟩⟩
      rintro rfl
      obtain ⟨r', ch', t', hpc', hi'⟩ := hc'
      rw [hpc, Pc.waiting.injEq] at hpc'
      exact hi (hpc'.2.1 ▸ hi')
    · rintro ⟨c', hc'⟩
      obtain ⟨hne, hc'⟩ := (hholds c' i).mp hc'
      obtain ⟨hlt, hfree⟩ := h.owned.mem c' hc'
      exact ⟨hlt, hout c' i hne hc', hfree⟩
  · exact h.owned.unique i o o' ((hholds o i).mp ho).2 ((hholds o' i).mp ho').2

theorem Owns.round (h : Owns d pc) (hd : d.intrRound = some d') : Owns d' pc := by
  obtain ⟨-, _, _, rfl⟩ := intrRound_eq hd
  exact h.congr (fun _ => rfl) rfl (fun _ _ => rfl) fun _ _ _ _ => Iff.rfl

/-! ## Who sleeps -/

/-- A call that is done is awake. -/
theorem Sleeps.awake_of_done (h : Sleeps d pc) (hpc : pc c = .waiting r ch t)
    (hdone : d.done ch.head = true) : d.asleep c = false := by
  rcases Bool.eq_false_or_eq_true (d.asleep c) with hs | hs
  · rcases h.asleep c hs with hq | ⟨r', ch', t', hpc', hsl⟩
    · obtain ⟨⟨r', hr'⟩, -⟩ := h.queue c hq
      rw [hpc] at hr'
      cases hr'
    · rw [hpc, Pc.waiting.injEq] at hpc'
      obtain ⟨rfl, rfl, rfl⟩ := hpc'
      rw [(h.sleeper _ c hsl).2.1] at hdone
      cases hdone
  · exact hs

/-- A call that is awake may go on to a place where it still does not sleep. -/
theorem Sleeps.setPc (h : Sleeps d pc) (hawake : d.asleep c = false) (p : Pc) :
    Sleeps d (Function.update pc c p) := by
  have hne : ∀ c', d.asleep c' = true → c' ≠ c := by
    rintro c' hs rfl
    rw [hawake] at hs
    cases hs
  refine ⟨fun c' hc' => ?_, h.nodup, fun i c' hc' => ?_, fun c' hc' => ?_⟩
  · have hold := h.queue c' hc'
    rwa [Function.update_of_ne (hne c' hold.2)]
  · have hold := h.sleeper i c' hc'
    rwa [Function.update_of_ne (hne c' hold.2.2)]
  · rw [Function.update_of_ne (hne c' hc')]
    exact h.asleep c' hc'

theorem Sleeps.release {is : List Nat} (h : Sleeps d pc) (hr : Released d is d') :
    Sleeps d' pc ∧ ∀ c, d.asleep c = false → d'.asleep c = false := by
  obtain ⟨k, rfl⟩ := hr
  have hsplit : ∀ c, c ∈ d.requestQueue ↔ c ∈ d.requestQueue.take k ∨
      c ∈ d.requestQueue.drop k := by
    intro c
    rw [← List.mem_append, List.take_append_drop]
  have hdisj := List.disjoint_take_drop h.nodup (Nat.le_refl k)
  have hsleeper : ∀ i c, d.sleeper i = some c → c ∉ d.requestQueue := by
    intro i c hc hq
    obtain ⟨⟨r, ch, t, hpc, -⟩, -⟩ := h.sleeper i c hc
    obtain ⟨⟨r', hpc'⟩, -⟩ := h.queue c hq
    rw [hpc] at hpc'
    cases hpc'
  refine ⟨⟨fun c hc => ?_, h.nodup.sublist (List.drop_sublist k _), fun i c hc => ?_,
    fun c hc => ?_⟩, fun c hc => by simp [hc]⟩
  · obtain ⟨hpc, hs⟩ := h.queue c ((hsplit c).mpr (.inr hc))
    exact ⟨hpc, by simpa [hs] using fun ht => hdisj ht hc⟩
  · obtain ⟨hpc, hdone, hs⟩ := h.sleeper i c hc
    refine ⟨hpc, hdone, ?_⟩
    simpa [hs] using fun ht => hsleeper i c hc ((hsplit c).mpr (.inl ht))
  · simp only [Bool.and_eq_true, decide_eq_true_eq] at hc
    rcases h.asleep c hc.1 with hq | hw
    · exact .inl (((hsplit c).mp hq).resolve_left hc.2)
    · exact .inr hw

/-- A new chain is not done; its owner does not sleep. -/
theorem Sleeps.format (h : Sleeps d pc) (r : Req) (ch : Chain) : Sleeps (d.format r ch) pc where
  queue := h.queue
  nodup := h.nodup
  sleeper i c hc := by
    obtain ⟨hpc, hdone, hs⟩ := h.sleeper i c hc
    refine ⟨hpc, ?_, hs⟩
    rcases eq_or_ne i ch.head with rfl | hne
    · exact Function.update_self ..
    · exact (Function.update_of_ne hne ..).trans hdone
  asleep := h.asleep

/-- `request_queue.done(lock)`. -/
theorem Sleeps.enqueue (h : Sleeps d pc) (hawake : d.asleep c = false) (r : Req) :
    Sleeps
      { d with
        requestQueue := d.requestQueue ++ [c]
        asleep := Function.update d.asleep c true } (Function.update pc c (.retry r)) := by
  have hne : ∀ c', d.asleep c' = true → c' ≠ c := by
    rintro c' hs rfl
    rw [hawake] at hs
    cases hs
  refine ⟨fun c' hc' => ?_, ?_, fun i c' hc' => ?_, fun c' hc' => ?_⟩
  · rcases eq_or_ne c' c with rfl | hcc
    · exact ⟨⟨r, Function.update_self ..⟩, Function.update_self ..⟩
    · have hmem : c' ∈ d.requestQueue := by simpa [hcc] using hc'
      simpa only [Function.update_of_ne hcc] using h.queue c' hmem
  · refine List.nodup_append.mpr ⟨h.nodup, List.nodup_singleton c, ?_⟩
    intro a ha b hb
    rw [List.mem_singleton.mp hb]
    exact hne a (h.queue a ha).2
  · have hold := h.sleeper i c' hc'
    simpa only [Function.update_of_ne (hne c' hold.2.2)] using hold
  · rcases eq_or_ne c' c with rfl | hcc
    · exact .inl (by simp)
    · simp only [Function.update_of_ne hcc] at hc' ⊢
      rcases h.asleep c' hc' with hq | hw
      · exact .inl (List.mem_append_left _ hq)
      · exact .inr hw

/-- `info[idx[0]].wait_queue.done(lock)`. -/
theorem Sleeps.sleep (h : Sleeps d pc) (ho : Owns d pc) (hpc : pc c = .waiting r ch t)
    (hawake : d.asleep c = false) (hdone : d.done ch.head = false) :
    Sleeps
      { d with
        sleeper := Function.update d.sleeper ch.head (some c)
        asleep := Function.update d.asleep c true } pc := by
  have hmono : ∀ c', d.asleep c' = true → Function.update d.asleep c true c' = true := by
    intro c' hs
    rcases eq_or_ne c' c with rfl | hcc
    · exact Function.update_self ..
    · rwa [Function.update_of_ne hcc]
  refine ⟨fun c' hc' => ⟨(h.queue c' hc').1, hmono c' (h.queue c' hc').2⟩, h.nodup,
    fun i c' hc' => ?_, fun c' hc' => ?_⟩
  · rcases eq_or_ne i ch.head with rfl | hi
    · simp only [Function.update_self, Option.some.injEq] at hc'
      subst hc'
      exact ⟨⟨r, ch, t, hpc, rfl⟩, hdone, Function.update_self ..⟩
    · simp only [Function.update_of_ne hi] at hc'
      obtain ⟨hold, hd, hs⟩ := h.sleeper i c' hc'
      exact ⟨hold, hd, hmono c' hs⟩
  · rcases eq_or_ne c' c with rfl | hcc
    · exact .inr ⟨r, ch, t, hpc, Function.update_self ..⟩
    · simp only [Function.update_of_ne hcc] at hc'
      rcases h.asleep c' hc' with hq | ⟨r', ch', t', hpc', hsl⟩
      · exact .inl hq
      · have hhead : ch'.head ≠ ch.head := fun he => hcc (ho.same_call hpc hpc' he)
        exact .inr ⟨r', ch', t', hpc', (Function.update_of_ne hhead ..).trans hsl⟩

/-- A round of the handler wakes the call whose chain is done. -/
theorem Sleeps.round (h : Sleeps d pc) (hd : d.intrRound = some d') : Sleeps d' pc := by
  unfold intrRound at hd
  simp only at hd
  split at hd
  · cases hd
  rw [← Option.some.inj hd]
  generalize d.usedRing (d.usedSeen % NUM) = i
  unfold wakeSleeper
  cases hsl : d.sleeper i with
  | none =>
    refine ⟨h.queue, h.nodup, fun k c hc => ?_, h.asleep⟩
    have hne : k ≠ i := by
      rintro rfl
      rw [hsl] at hc
      cases hc
    simpa only [Function.update_of_ne hne] using h.sleeper k c hc
  | some c =>
    obtain ⟨⟨r, ch, t, hpc, hhead⟩, -⟩ := h.sleeper i c hsl
    have hqueue : ∀ c' ∈ d.requestQueue, c' ≠ c := by
      rintro c' hc' rfl
      obtain ⟨⟨r', hpc'⟩, -⟩ := h.queue c' hc'
      rw [hpc] at hpc'
      cases hpc'
    refine ⟨fun c' hc' => ?_, h.nodup, fun k c' hc' => ?_, fun c' hc' => ?_⟩
    · simpa only [Function.update_of_ne (hqueue c' hc')] using h.queue c' hc'
    · rcases eq_or_ne k i with rfl | hne
      · simp at hc'
      · simp only [Function.update_of_ne hne] at hc' ⊢
        obtain ⟨⟨r', ch', t', hpc', hhead'⟩, hd, hs⟩ := h.sleeper k c' hc'
        have hcc : c' ≠ c := by
          rintro rfl
          rw [hpc, Pc.waiting.injEq] at hpc'
          exact hne (hhead'.symm.trans ((congrArg Chain.head hpc'.2.1).symm.trans hhead))
        exact ⟨⟨r', ch', t', hpc', hhead'⟩, hd, by rwa [Function.update_of_ne hcc]⟩
    · rcases eq_or_ne c' c with rfl | hcc
      · simp at hc'
      · simp only [Function.update_of_ne hcc] at hc'
        rcases h.asleep c' hc' with hq | ⟨r', ch', t', hpc', hsl'⟩
        · exact .inl hq
        · have hne : ch'.head ≠ i := by
            rintro he
            rw [he, hsl] at hsl'
            exact hcc (Option.some.inj hsl').symm
          exact .inr ⟨r', ch', t', hpc', (Function.update_of_ne hne ..).trans hsl'⟩

end CoroCore.Virtio
