import Mathlib.Data.List.Chain
import Mathlib.Data.List.Nodup
import CoroCore.Lib.Chain

/-!
# Doubly linked chains

`Linked next prev l` says that neighbours in `l` are linked in both directions. The ends of `l` are
often sentinels.

* `Linked.insert`, `Linked.remove`, `Linked.splice`: what has to be written for a cell to be put in
  or taken out, and for the cells between two sentinels to be put in;
* `Linked.chain_next`, `Linked.chain_prev`: following the links gives the cells between the ends, in
  order or in reverse.
-/

namespace CoroCore.Lib

variable {A : Type*} {next prev next' prev' : A → A} {a b n p e : A} {l u v w : List A}

/-- Neighbours are linked in both directions. -/
def Linked (next prev : A → A) (l : List A) : Prop := l.IsChain fun a b => next a = b ∧ prev b = a

/-- The link forward of the last cell and the link back of the first one are not looked at. -/
theorem Linked.congr_ends : ∀ {l : List A}, Linked next prev l →
    (∀ x ∈ l.dropLast, next' x = next x) → (∀ x ∈ l.tail, prev' x = prev x) → Linked next' prev' l
  | [], _, _, _ => .nil
  | [a], _, _, _ => .singleton a
  | a :: b :: l, h, hnext, hprev => by
    obtain ⟨⟨h1, h2⟩, h⟩ := List.isChain_cons_cons.mp h
    refine List.isChain_cons_cons.mpr
      ⟨⟨?_, ?_⟩, Linked.congr_ends h (fun x hx => ?_) fun x hx => ?_⟩
    · rw [hnext a List.mem_cons_self, h1]
    · rw [hprev b List.mem_cons_self, h2]
    · exact hnext x (List.mem_cons_of_mem a hx)
    · exact hprev x (List.mem_cons_of_mem b hx)

theorem Linked.congr (h : Linked next prev l) (hnext : ∀ x ∈ l, next' x = next x)
    (hprev : ∀ x ∈ l, prev' x = prev x) : Linked next' prev' l :=
  h.congr_ends (fun x hx => hnext x (List.dropLast_subset _ hx))
    fun x hx => hprev x (List.mem_of_mem_tail hx)

/-- The cells up to `a`, where only the link forward of `a` was written. -/
theorem Linked.left (h : Linked next prev (u ++ [a])) (hnext : ∀ x ∈ u, next' x = next x)
    (hprev : ∀ x ∈ u ++ [a], prev' x = prev x) : Linked next' prev' (u ++ [a]) := by
  refine h.congr_ends ?_ fun x hx => hprev x (List.mem_of_mem_tail hx)
  rwa [List.dropLast_concat]

/-- The cells from `b` on, where only the link back of `b` was written. -/
theorem Linked.right (h : Linked next prev (b :: v)) (hnext : ∀ x ∈ b :: v, next' x = next x)
    (hprev : ∀ x ∈ v, prev' x = prev x) : Linked next' prev' (b :: v) :=
  h.congr_ends (fun x hx => hnext x (List.dropLast_subset _ hx)) hprev

theorem linked_split : Linked next prev (u ++ a :: b :: v) ↔
    Linked next prev (u ++ [a]) ∧ (next a = b ∧ prev b = a) ∧ Linked next prev (b :: v) :=
  List.isChain_append_cons_cons

/-- Around the link between `a` and `b`, the cells are different ones. -/
theorem nodup_split (h : (u ++ a :: b :: v).Nodup) :
    a ∉ u ∧ b ∉ u ++ [a] ∧ a ∉ b :: v ∧ b ∉ v := by
  simp only [List.nodup_append, List.nodup_cons, List.mem_append, List.mem_cons, List.not_mem_nil,
    or_false, not_or] at h ⊢
  obtain ⟨-, ⟨⟨hab, hav⟩, hbv, -⟩, hu⟩ := h
  exact ⟨fun hau => hu a hau a (.inl rfl) rfl,
    ⟨fun hbu => hu b hbu b (.inr (.inl rfl)) rfl, fun hba => hab hba.symm⟩, ⟨hab, hav⟩, hbv⟩

section Write

variable (hnodup : (u ++ a :: b :: v).Nodup)
  (hnext : ∀ x ∈ u ++ a :: b :: v, x ≠ a → next' x = next x)
  (hprev : ∀ x ∈ u ++ a :: b :: v, x ≠ b → prev' x = prev x)
include hnodup hnext hprev

/-- Only the links between `a` and `b` are written. -/
theorem Linked.sides (hu : Linked next prev (u ++ [a])) (hv : Linked next prev (b :: v)) :
    Linked next' prev' (u ++ [a]) ∧ Linked next' prev' (b :: v) := by
  obtain ⟨hau, hbu, hav, hbv⟩ := nodup_split hnodup
  have hleft : ∀ x ∈ u ++ [a], x ∈ u ++ a :: b :: v := fun x hx => by
    simp only [List.mem_append, List.mem_cons, List.not_mem_nil, or_false] at hx ⊢
    exact hx.imp_right .inl
  have hright : ∀ x ∈ b :: v, x ∈ u ++ a :: b :: v := fun x hx =>
    List.mem_append_right u (List.mem_cons_of_mem a hx)
  refine ⟨hu.left (fun x hx => hnext x (List.mem_append_left _ hx) fun h => hau (h ▸ hx))
      fun x hx => hprev x (hleft x hx) fun h => hbu (h ▸ hx),
    hv.right (fun x hx => hnext x (hright x hx) fun h => hav (h ▸ hx)) fun x hx => ?_⟩
  exact hprev x (hright x (List.mem_cons_of_mem b hx)) fun h => hbv (h ▸ hx)

/-- `n` is put in between `a` and `b`. -/
theorem Linked.insert (h : Linked next prev (u ++ a :: b :: v)) (hna : next' a = n)
    (hpn : prev' n = a) (hnn : next' n = b) (hpb : prev' b = n) :
    Linked next' prev' (u ++ a :: n :: b :: v) := by
  obtain ⟨hu, -, hv⟩ := linked_split.mp h
  obtain ⟨hu', hv'⟩ := Linked.sides hnodup hnext hprev hu hv
  exact linked_split.mpr ⟨hu', ⟨hna, hpn⟩, List.isChain_cons_cons.mpr ⟨⟨hnn, hpb⟩, hv'⟩⟩

/-- What was between `a` and `b` is taken out. -/
theorem Linked.remove (h : Linked next prev (u ++ a :: (w ++ b :: v))) (hna : next' a = b)
    (hpb : prev' b = a) : Linked next' prev' (u ++ a :: b :: v) := by
  have hu : Linked next prev (u ++ [a]) := (List.isChain_split.mp h).1
  have hv : Linked next prev (b :: v) := by
    have hw := (List.isChain_split.mp h).2
    rw [← List.cons_append] at hw
    exact (List.isChain_split.mp hw).2
  obtain ⟨hu', hv'⟩ := Linked.sides hnodup hnext hprev hu hv
  exact linked_split.mpr ⟨hu', ⟨hna, hpb⟩, hv'⟩

/-- The cells `n :: w` of another chain are put in between `a` and `b`. -/
theorem Linked.splice (h : Linked next prev (u ++ a :: b :: v)) (hw : Linked next' prev' (n :: w))
    (hna : next' a = n) (hpn : prev' n = a) (hnw : next' ((n :: w).getLast (by simp)) = b)
    (hpb : prev' b = (n :: w).getLast (by simp)) :
    Linked next' prev' (u ++ a :: (n :: w ++ b :: v)) := by
  obtain ⟨hu, -, hv⟩ := linked_split.mp h
  obtain ⟨hu', hv'⟩ := Linked.sides hnodup hnext hprev hu hv
  obtain ⟨w', e, he⟩ : ∃ w' e, n :: w = w' ++ [e] :=
    ⟨(n :: w).dropLast, _, (List.dropLast_append_getLast (by simp)).symm⟩
  have hmid : Linked next' prev' (n :: w ++ b :: v) := by
    simp only [he, List.getLast_append_singleton] at hnw hpb hw ⊢
    rw [List.append_assoc]
    exact linked_split.mpr ⟨hw, ⟨hnw, hpb⟩, hv'⟩
  exact linked_split.mpr ⟨hu', ⟨hna, hpn⟩, hmid⟩

end Write

theorem Linked.reverse (h : Linked next prev l) : Linked prev next l.reverse :=
  List.isChain_reverse.mpr (List.IsChain.imp (fun _ _ hab => hab.symm) h)

/-- Following the links from the first cell gives the cells before the last one. -/
theorem Linked.chain_next : ∀ {l : List A} {p : A}, Linked next prev (p :: l ++ [e]) → e ∉ l →
    Chain next e (next p) l
  | [], _, h, _ => (List.isChain_cons_cons.mp h).1.1
  | x :: l, p, h, he => by
    obtain ⟨⟨hp, -⟩, h⟩ := List.isChain_cons_cons.mp h
    rw [List.mem_cons, not_or] at he
    exact ⟨hp, fun hx => he.1 hx.symm, Linked.chain_next h he.2⟩

theorem Linked.chain_prev (h : Linked next prev (p :: l ++ [e])) (hp : p ∉ l) :
    Chain prev p (prev e) l.reverse := by
  have hrev : Linked prev next (e :: l.reverse ++ [p]) := by
    have hr := h.reverse
    rwa [List.cons_append, List.reverse_cons, List.reverse_append] at hr
  exact hrev.chain_next (by rwa [List.mem_reverse])

end CoroCore.Lib
