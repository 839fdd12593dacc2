import Mathlib.Data.Set.Card
import Mathlib.Logic.Function.Basic

/-!
# A finite map kept in slots

`f p` is what slot `p` holds: a key with its value, or nothing. The slots hold the map `m` if each
key of it is in one slot, and nothing else is in a slot (`Holds`).

* `Holds.insert`: a free slot takes a new key;
* `Holds.erase`: the slot of a key is cleared;
* `Holds.ncard_carriers`: as many slots hold a value as the map has keys for it;
* `ncard_keys_insert`, `ncard_keys_erase`: how many keys a value has.
-/

namespace CoroCore.Lib

open Function

variable {σ κ ν : Type*}

/-- The slots `f` hold the map `m`. -/
structure Holds (f : σ → Option (κ × ν)) (m : κ → Option ν) : Prop where
  sound : ∀ p k v, f p = some (k, v) → m k = some v
  complete : ∀ k v, m k = some v → ∃ p, f p = some (k, v)
  unique : ∀ p q k v w, f p = some (k, v) → f q = some (k, w) → p = q

/-- The slots that hold value `v`. -/
def carriers (f : σ → Option (κ × ν)) (v : ν) : Set σ := {p | ∃ k, f p = some (k, v)}

/-- The keys of value `v`. -/
def keys (m : κ → Option ν) (v : ν) : Set κ := {k | m k = some v}

variable {f : σ → Option (κ × ν)} {m : κ → Option ν} {p : σ} {k : κ} {v w : ν}

theorem mem_keys : k ∈ keys m v ↔ m k = some v := Iff.rfl

/-- Each key is in one of the slots that are in use. -/
theorem Holds.keys_finite (h : Holds f m) (hfin : {p | f p ≠ none}.Finite) : (keys m v).Finite := by
  refine ((hfin.image fun p => (f p).map Prod.fst).preimage
    (Option.some_injective κ).injOn).subset ?_
  intro k hk
  obtain ⟨p, hp⟩ := h.complete k v hk
  refine ⟨p, ?_, congrArg (Option.map Prod.fst) hp⟩
  rw [Set.mem_ofPred_eq, hp]
  exact Option.some_ne_none _

/-- As many slots hold a value as the map has keys for it. -/
theorem Holds.ncard_carriers (h : Holds f m) : (carriers f v).ncard = (keys m v).ncard := by
  refine Set.ncard_congr (fun p hp => hp.choose) (fun p hp => ?_)
    (fun p q hp hq he => ?_) fun k hk => ?_
  · exact h.sound p _ v hp.choose_spec
  · exact h.unique p q hp.choose v v hp.choose_spec (he ▸ hq.choose_spec)
  · obtain ⟨p, hp⟩ := h.complete k v hk
    have hc : p ∈ carriers f v := ⟨k, hp⟩
    refine ⟨p, hc, ?_⟩
    exact (Prod.mk.inj (Option.some.inj (hc.choose_spec.symm.trans hp))).1

theorem Holds.eq_none_iff (h : Holds f m) : m k = none ↔ ∀ p v, f p ≠ some (k, v) := by
  constructor
  · intro hk p v hp
    rw [h.sound p k v hp] at hk
    cases hk
  · intro hnone
    cases hk : m k with
    | none => rfl
    | some v =>
      obtain ⟨p, hp⟩ := h.complete k v hk
      exact absurd hp (hnone p v)

section Update

variable [DecidableEq κ]

theorem keys_insert_self : keys (update m k (some v)) v = insert k (keys m v) := by
  ext k'
  rw [Set.mem_insert_iff, mem_keys, mem_keys]
  rcases eq_or_ne k' k with rfl | hk
  · rw [update_self]
    exact ⟨fun _ => .inl rfl, fun _ => rfl⟩
  · rw [update_of_ne hk, or_iff_right hk]

theorem keys_insert_of_ne (hk : m k = none) (hw : w ≠ v) :
    keys (update m k (some v)) w = keys m w := by
  ext k'
  rw [mem_keys, mem_keys]
  rcases eq_or_ne k' k with rfl | hkk
  · rw [update_self, hk]
    exact ⟨fun he => absurd (Option.some.inj he).symm hw,
      fun he => absurd he.symm (Option.some_ne_none w)⟩
  · rw [update_of_ne hkk]

theorem keys_erase : keys (update m k none) w = keys m w \ {k} := by
  ext k'
  rw [Set.mem_sdiff, Set.mem_singleton_iff, mem_keys, mem_keys]
  rcases eq_or_ne k' k with rfl | hkk
  · rw [update_self]
    exact ⟨fun he => absurd he.symm (Option.some_ne_none w), fun hm => absurd rfl hm.2⟩
  · rw [update_of_ne hkk, and_iff_left hkk]

theorem ncard_keys_insert (hfin : (keys m v).Finite) (hk : m k = none) :
    (keys (update m k (some v)) v).ncard = (keys m v).ncard + 1 := by
  rw [keys_insert_self, Set.ncard_insert_of_notMem _ hfin]
  rw [mem_keys, hk]
  exact (Option.some_ne_none v).symm

theorem ncard_keys_erase (hfin : (keys m v).Finite) (hk : m k = some v) :
    (keys (update m k none) v).ncard + 1 = (keys m v).ncard := by
  rw [keys_erase, Set.ncard_sdiff_singleton_add_one (mem_keys.mpr hk) hfin]

theorem keys_erase_of_ne (hk : m k = some v) (hw : w ≠ v) :
    keys (update m k none) w = keys m w := by
  rw [keys_erase]
  refine Set.sdiff_singleton_eq_self ?_
  rw [mem_keys, hk]
  exact fun he => hw (Option.some.inj he).symm

variable [DecidableEq σ]

/-- A free slot takes a new key. -/
theorem Holds.insert (h : Holds f m) (hp : f p = none) (hk : m k = none) :
    Holds (update f p (some (k, v))) (update m k (some v)) := by
  -- the new key is in no other slot
  have hnew : ∀ q w, f q ≠ some (k, w) := h.eq_none_iff.mp hk
  have hcases : ∀ q k' w, update f p (some (k, v)) q = some (k', w) →
      q = p ∧ k' = k ∧ w = v ∨ k' ≠ k ∧ f q = some (k', w) := by
    intro q k' w hq
    rcases eq_or_ne q p with rfl | hqp
    · rw [update_self] at hq
      cases hq
      exact .inl ⟨rfl, rfl, rfl⟩
    · rw [update_of_ne hqp] at hq
      exact .inr ⟨fun he => hnew q w (hq.trans (by rw [he])), hq⟩
  refine ⟨fun q k' w hq => ?_, fun k' w hw => ?_, fun q r k' w w' hq hr => ?_⟩
  · rcases hcases q k' w hq with ⟨-, rfl, rfl⟩ | ⟨hkk, hq⟩
    · exact update_self ..
    · rw [update_of_ne hkk]
      exact h.sound q k' w hq
  · rcases eq_or_ne k' k with rfl | hkk
    · rw [update_self] at hw
      cases hw
      exact ⟨p, update_self ..⟩
    · rw [update_of_ne hkk] at hw
      obtain ⟨q, hq⟩ := h.complete k' w hw
      refine ⟨q, ?_⟩
      rwa [update_of_ne]
      rintro rfl
      rw [hp] at hq
      cases hq
  · rcases hcases q k' w hq with ⟨rfl, rfl, -⟩ | ⟨hkk, hq⟩
    · rcases hcases r k' w' hr with ⟨rfl, -, -⟩ | ⟨hkk, -⟩
      · rfl
      · exact absurd rfl hkk
    · rcases hcases r k' w' hr with ⟨-, rfl, -⟩ | ⟨-, hr⟩
      · exact absurd rfl hkk
      · exact h.unique q r k' w w' hq hr

/-- The slot of a key is cleared. -/
theorem Holds.erase (h : Holds f m) (hp : f p = some (k, v)) :
    Holds (update f p none) (update m k none) := by
  have hleft : ∀ q k' w, update f p none q = some (k', w) → q ≠ p ∧ f q = some (k', w) := by
    intro q k' w hq
    rcases eq_or_ne q p with rfl | hqp
    · rw [update_self] at hq
      cases hq
    · rw [update_of_ne hqp] at hq
      exact ⟨hqp, hq⟩
  refine ⟨fun q k' w hq => ?_, fun k' w hw => ?_, fun q r k' w w' hq hr => ?_⟩
  · obtain ⟨hqp, hq⟩ := hleft q k' w hq
    rw [update_of_ne]
    · exact h.sound q k' w hq
    · rintro rfl
      exact hqp (h.unique q p k' w v hq hp)
  · rcases eq_or_ne k' k with rfl | hkk
    · rw [update_self] at hw
      cases hw
    · rw [update_of_ne hkk] at hw
      obtain ⟨q, hq⟩ := h.complete k' w hw
      refine ⟨q, ?_⟩
      rwa [update_of_ne]
      rintro rfl
      rw [hp] at hq
      exact hkk (Prod.mk.inj (Option.some.inj hq)).1.symm
  · exact h.unique q r k' w w' (hleft q k' w hq).2 (hleft r k' w' hr).2

end Update

end CoroCore.Lib
