import Mathlib.Data.Finset.Card
import CoroCore.Drivers.VirtioDisk

/-!
# Descriptors are taken and given back in threes

What the functions of the driver do to the descriptors, in terms of who may use which:

* `allocDescs_cases`: `alloc_descs` takes three free descriptors, or there are fewer than three and
  it changes nothing a call relies on, though it may wake calls up;
* `freeChain_descs`: `free_chain` frees the three descriptors of a formatted chain and does not
  panic;
* `Formatted.resolve`: the device finds in such a chain what the call asked for.
-/

namespace CoroCore.Virtio

namespace Disk

variable {d d' d₁ : Disk} {i j n : Nat} {is js idx : List Nat} {r : Req} {ch : Chain}

/-! ## Giving back -/

/-- `d'` is `d` after the descriptors `is` were freed: each of them is cleared, and some calls at
the front of the request queue are awake. -/
def Released (d : Disk) (is : List Nat) (d' : Disk) : Prop :=
  ∃ k, d' =
    { d with
      desc := fun i => if i ∈ is then Desc.zero else d.desc i
      free := fun i => decide (i ∈ is) || d.free i
      requestQueue := d.requestQueue.drop k
      asleep := fun c => d.asleep c && decide (c ∉ d.requestQueue.take k) }

theorem Released.refl : Released d [] d := ⟨0, by simp⟩

theorem Released.wakeUpOne (h : Released d is d₁) : Released d is d₁.wakeUpOne := by
  obtain ⟨k, rfl⟩ := h
  unfold Disk.wakeUpOne
  cases hq : d.requestQueue.drop k with
  | nil => exact ⟨k, by simp [hq]⟩
  | cons c cs =>
    refine ⟨k + 1, ?_⟩
    have htake : d.requestQueue.take (k + 1) = d.requestQueue.take k ++ [c] := by
      rw [List.take_add, hq, List.take_succ_cons, List.take_zero]
    have hdrop : d.requestQueue.drop (k + 1) = cs := by
      rw [← List.drop_drop, hq, List.drop_succ_cons, List.drop_zero]
    simp only [htake, hdrop]
    congr 1
    funext x
    rcases eq_or_ne x c with rfl | hne
    · simp
    · simp [hne]

theorem Released.freeDesc (h : Released d is d₁) (hlt : i < NUM) (hfree : d₁.free i = false) :
    ∃ d', d₁.freeDesc i = some d' ∧ Released d (is ++ [i]) d' := by
  unfold Disk.freeDesc
  rw [if_neg (Nat.not_le.mpr hlt), hfree]
  refine ⟨_, rfl, Released.wakeUpOne ?_⟩
  obtain ⟨k, rfl⟩ := h
  refine ⟨k, ?_⟩
  congr 1
  · funext x
    rcases eq_or_ne x i with rfl | hne
    · simp
    · simp [hne]
  · funext x
    rcases eq_or_ne x i with rfl | hne
    · simp
    · simp [hne]

theorem Released.free_eq (h : Released d is d') (i : Nat) :
    d'.free i = (decide (i ∈ is) || d.free i) := by
  obtain ⟨k, rfl⟩ := h
  rfl

theorem Released.desc_eq (h : Released d is d') (hi : i ∉ is) : d'.desc i = d.desc i := by
  obtain ⟨k, rfl⟩ := h
  exact if_neg hi

theorem Released.freeAll (h : Released d is d₁) (hnd : js.Nodup)
    (hjs : ∀ j ∈ js, j < NUM ∧ d₁.free j = false) :
    ∃ d', Disk.freeAll js d₁ = some d' ∧ Released d (is ++ js) d' := by
  induction js generalizing is d₁ with
  | nil => exact ⟨d₁, rfl, by simpa using h⟩
  | cons j js ih =>
    obtain ⟨hj, hnd⟩ := List.nodup_cons.mp hnd
    obtain ⟨d₂, hd₂, hr⟩ := h.freeDesc (hjs j (by simp)).1 (hjs j (by simp)).2
    have hrest : ∀ x ∈ js, x < NUM ∧ d₂.free x = false := by
      intro x hx
      have hxj : x ≠ j := fun he => hj (he ▸ hx)
      obtain ⟨hlt, hfree⟩ := hjs x (List.mem_cons_of_mem _ hx)
      refine ⟨hlt, ?_⟩
      rw [h.free_eq] at hfree
      rw [hr.free_eq]
      simpa [hxj] using hfree
    obtain ⟨d', hd', hr'⟩ := ih hr hnd hrest
    refine ⟨d', ?_, by simpa using hr'⟩
    rw [Disk.freeAll, hd₂, Option.bind_some, hd']

/-! ## Taking -/

/-- The descriptors that are free. -/
def freeSet (d : Disk) : Finset Nat := (Finset.range NUM).filter fun i => d.free i = true

theorem mem_freeSet : i ∈ d.freeSet ↔ i < NUM ∧ d.free i = true := by
  simp only [freeSet, Finset.mem_filter, Finset.mem_range]

/-- `d'` is `d` after the free descriptors `idx` were taken. -/
structure Held (d : Disk) (idx : List Nat) (d' : Disk) : Prop where
  eq : d' = { d with free := fun i => d.free i && decide (i ∉ idx) }
  nodup : idx.Nodup
  free : ∀ i ∈ idx, i < NUM ∧ d.free i = true

theorem Held.refl : Held d [] d := ⟨by simp, List.nodup_nil, by simp⟩

theorem allocDesc_cases (d : Disk) :
    (d.allocDesc = none ∧ d.freeSet = ∅) ∨
      ∃ i, i < NUM ∧ d.free i = true ∧
        d.allocDesc = some (i, { d with free := Function.update d.free i false }) := by
  unfold allocDesc
  cases hf : (List.range NUM).find? d.free with
  | none =>
    refine .inl ⟨rfl, Finset.eq_empty_of_forall_notMem fun i hi => ?_⟩
    obtain ⟨hlt, hfree⟩ := mem_freeSet.mp hi
    exact List.find?_eq_none.mp hf i (List.mem_range.mpr hlt) hfree
  | some i =>
    exact .inr ⟨i, List.mem_range.mp (List.mem_of_find?_eq_some hf), List.find?_some hf, rfl⟩

theorem Held.snoc (h : Held d idx d₁) (hlt : i < NUM) (hfree : d₁.free i = true) :
    Held d (idx ++ [i]) { d₁ with free := Function.update d₁.free i false } := by
  obtain ⟨rfl, hnd, hall⟩ := h
  simp only [Bool.and_eq_true, decide_eq_true_eq] at hfree
  refine ⟨?_, ?_, ?_⟩
  · congr 1
    funext x
    rcases eq_or_ne x i with rfl | hne
    · simp
    · simp [hne]
  · exact List.nodup_append.mpr ⟨hnd, List.nodup_singleton i, by
      rintro a ha b hb rfl
      exact hfree.2 (List.mem_singleton.mp hb ▸ ha)⟩
  · intro x hx
    rcases List.mem_append.mp hx with hx | hx
    · exact hall x hx
    · rw [List.mem_singleton.mp hx]
      exact ⟨hlt, hfree.1⟩

/-- What was taken and is given back leaves every descriptor as free as before. -/
theorem Held.rollback (h : Held d idx d₁) :
    ∃ d', Disk.freeAll idx d₁ = some d' ∧ Released d idx d' := by
  have hheld : ∀ j ∈ idx, j < NUM ∧ d₁.free j = false := by
    intro j hj
    refine ⟨(h.free j hj).1, ?_⟩
    rw [h.eq]
    simp [hj]
  obtain ⟨d', hd', k, hk⟩ := Released.refl.freeAll h.nodup hheld
  refine ⟨d', hd', k, ?_⟩
  rw [hk, h.eq]
  congr 1
  funext i
  by_cases hi : i ∈ idx <;> simp [hi]

theorem Held.card_le (h : Held d idx d₁) : idx.length ≤ d.freeSet.card := by
  rw [← List.toFinset_card_of_nodup h.nodup]
  refine Finset.card_le_card fun i hi => ?_
  exact mem_freeSet.mpr (h.free i (List.mem_toFinset.mp hi))

theorem Held.card_eq (h : Held d idx d₁) (hnone : d₁.freeSet = ∅) :
    d.freeSet.card ≤ idx.length := by
  have hsub : d.freeSet ⊆ idx.toFinset := by
    intro i hi
    obtain ⟨hlt, hfree⟩ := mem_freeSet.mp hi
    by_contra hidx
    have hmem : i ∈ d₁.freeSet := by
      refine mem_freeSet.mpr ⟨hlt, ?_⟩
      rw [h.eq]
      simpa [hfree] using hidx
    rw [hnone] at hmem
    exact absurd hmem (Finset.notMem_empty i)
  exact (Finset.card_le_card hsub).trans (List.toFinset_card_le idx)

theorem allocDescsLoop_cases (h : Held d idx d₁) :
    (∃ idx' d', allocDescsLoop n idx d₁ = some (some idx', d') ∧ Held d idx' d' ∧
      idx'.length = idx.length + n) ∨
    ∃ d' is, allocDescsLoop n idx d₁ = some (none, d') ∧ Released d is d' ∧
      (∀ i ∈ is, d.free i = true) ∧ d.freeSet.card < idx.length + n := by
  induction n generalizing idx d₁ with
  | zero => exact .inl ⟨idx, d₁, rfl, h, rfl⟩
  | succ n ih =>
    rcases allocDesc_cases d₁ with ⟨hnone, hempty⟩ | ⟨i, hlt, hfree, hsome⟩
    · obtain ⟨d', hd', hr⟩ := h.rollback
      refine .inr ⟨d', idx, ?_, hr, fun i hi => (h.free i hi).2, ?_⟩
      · simp [allocDescsLoop, hnone, hd']
      · exact Nat.lt_of_le_of_lt (h.card_eq hempty) (Nat.lt_add_of_pos_right n.succ_pos)
    · have hlen : (idx ++ [i]).length + n = idx.length + (n + 1) := by
        rw [List.length_append, List.length_singleton, Nat.add_right_comm, Nat.add_assoc]
      simp only [allocDescsLoop, hsome, ← hlen]
      exact ih (h.snoc hlt hfree)

theorem allocDescs_cases (d : Disk) :
    (∃ a b c d', d.allocDescs = some (some [a, b, c], d') ∧ Held d [a, b, c] d' ∧
      3 ≤ d.freeSet.card) ∨
    ∃ d' is, d.allocDescs = some (none, d') ∧ Released d is d' ∧
      (∀ i ∈ is, d.free i = true) ∧ d.freeSet.card < 3 := by
  rcases allocDescsLoop_cases (n := 3) (Held.refl (d := d)) with ⟨idx, d', he, hh, hlen⟩ | hnone
  · match idx, hlen with
    | [a, b, c], _ => exact .inl ⟨a, b, c, d', he, hh, hh.card_le⟩
  · exact .inr hnone

/-! ## Chains -/

/-- The descriptors of the chain and its header say what the request asks for. -/
structure Formatted (d : Disk) (r : Req) (ch : Chain) : Prop where
  op : d.ops ch.head = ⟨r.command % 2 ^ 32, r.sector⟩
  head : d.desc ch.head = ⟨.op ch.head, 16, VRING_DESC_F_NEXT, ch.data⟩
  data : d.desc ch.data =
    ⟨.data r.buf, r.count * BLOCK_SIZE % 2 ^ 32, dataFlags r.command, ch.stat⟩
  stat : d.desc ch.stat = ⟨.status ch.head, 1, VRING_DESC_F_WRITE, 0⟩

theorem dataFlags_next (command : Nat) : dataFlags command &&& VRING_DESC_F_NEXT ≠ 0 := by
  unfold dataFlags
  split <;> decide

theorem format_formatted (hnd : ch.descs.Nodup) : (d.format r ch).Formatted r ch := by
  simp only [Chain.descs, List.nodup_cons, List.mem_cons, List.not_mem_nil, or_false, not_or] at hnd
  obtain ⟨⟨hhd, hhs⟩, hds, -⟩ := hnd
  constructor
  · exact Function.update_self ..
  · simp [format, Function.update_of_ne hhd, Function.update_of_ne hhs]
  · simp [format, Function.update_of_ne hds]
  · simp [format]

theorem Formatted.congr (h : Formatted d r ch) (hops : d'.ops ch.head = d.ops ch.head)
    (hdesc : ∀ i ∈ ch.descs, d'.desc i = d.desc i) : Formatted d' r ch where
  op := hops.trans h.op
  head := (hdesc ch.head (by simp [Chain.descs])).trans h.head
  data := (hdesc ch.data (by simp [Chain.descs])).trans h.data
  stat := (hdesc ch.stat (by simp [Chain.descs])).trans h.stat

theorem Formatted.resolve (h : Formatted d r ch) :
    d.resolve ch.head = some (⟨r.command % 2 ^ 32, r.sector⟩, r.buf, ch.head) := by
  unfold Disk.resolve
  simp only [h.head, h.data, h.stat, h.op]

theorem freeChain_descs (h : Formatted d r ch) (hnd : ch.descs.Nodup)
    (hheld : ∀ i ∈ ch.descs, i < NUM ∧ d.free i = false) :
    ∃ d', d.freeChain (NUM + 1) ch.head = some d' ∧ Released d ch.descs d' := by
  simp only [Chain.descs, List.nodup_cons, List.mem_cons, List.not_mem_nil, or_false, not_or] at hnd
  obtain ⟨⟨hhd, hhs⟩, hds, -⟩ := hnd
  obtain ⟨d₁, hd₁, hr₁⟩ := Released.refl.freeDesc (hheld ch.head (by simp [Chain.descs])).1
    (hheld ch.head (by simp [Chain.descs])).2
  obtain ⟨hdlt, hdfree⟩ := hheld ch.data (by simp [Chain.descs])
  obtain ⟨d₂, hd₂, hr₂⟩ := hr₁.freeDesc (i := ch.data) hdlt (by
    rw [hr₁.free_eq]
    simpa [Ne.symm hhd] using hdfree)
  obtain ⟨hslt, hsfree⟩ := hheld ch.stat (by simp [Chain.descs])
  obtain ⟨d₃, hd₃, hr₃⟩ := hr₂.freeDesc (i := ch.stat) hslt (by
    rw [hr₂.free_eq]
    simpa [Ne.symm hhs, Ne.symm hds] using hsfree)
  refine ⟨d₃, ?_, by simpa [Chain.descs] using hr₃⟩
  have hdata : d₁.desc ch.data = d.desc ch.data := hr₁.desc_eq (by simpa using Ne.symm hhd)
  have hstat : d₂.desc ch.stat = d.desc ch.stat :=
    hr₂.desc_eq (by simpa using ⟨Ne.symm hhs, Ne.symm hds⟩)
  have hnext : VRING_DESC_F_NEXT &&& VRING_DESC_F_NEXT ≠ 0 := by decide
  have hlast : ¬ VRING_DESC_F_WRITE &&& VRING_DESC_F_NEXT ≠ 0 := by decide
  rw [freeChain, h.head]
  simp only [hd₁, if_pos hnext]
  rw [freeChain, hdata, h.data]
  simp only [hd₂, if_pos (dataFlags_next _)]
  rw [freeChain, hstat, h.stat]
  simp only [hd₃, if_neg hlast]

/-! ## The handler -/

/-- A round of the handler reports one completion and wakes the call that waits for it. -/
theorem intrRound_eq (h : d.intrRound = some d') :
    d.status (d.usedRing (d.usedSeen % NUM)) = 0 ∧
      ∃ sleeper asleep, d' =
        { d with
          usedSeen := (d.usedSeen + 1) % idxRange
          done := Function.update d.done (d.usedRing (d.usedSeen % NUM)) true
          sleeper := sleeper
          asleep := asleep } := by
  unfold intrRound at h
  simp only at h
  split at h
  · cases h
  · next hst =>
    refine ⟨not_not.mp hst, ?_⟩
    rw [← Option.some.inj h]
    unfold wakeSleeper
    split <;> exact ⟨_, _, rfl⟩

end Disk

end CoroCore.Virtio
