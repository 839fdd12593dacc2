import Mathlib.Data.List.Count
import Mathlib.Data.List.TakeWhile
import Mathlib.Order.Basic
import Mathlib.Order.Lattice

/-!
# Sorting that keeps the order of equal keys

`StableSort key p l` says that `l` is `p` in the order of the keys, with elements of one key in the
order of `p`.

* `StableSort.insert`: a last element goes behind the elements whose keys are not larger;
* `StableSort.split`: the elements with keys up to a bound come first.
-/

namespace CoroCore.Lib

variable {A K : Type*} [LinearOrder K] {key : A → K} {p l : List A} {k : K}

/-- `l` is `p` in the order of the keys, and in the order of `p` where keys are equal. -/
structure StableSort (key : A → K) (p l : List A) : Prop where
  sorted : l.Pairwise fun a b => key a ≤ key b
  order : ∀ k, l.filter (key · = k) = p.filter (key · = k)

theorem StableSort.nil : StableSort key [] [] := ⟨List.Pairwise.nil, fun _ => rfl⟩

theorem StableSort.perm (h : StableSort key p l) : l.Perm p := by
  classical
  refine List.perm_iff_count.mpr fun a => ?_
  have hcount : ∀ w : List A, w.count a = (w.filter (key · = key a)).count a := fun w => by
    rw [List.count_filter (by simp)]
  rw [hcount l, hcount p, h.order]

theorem takeWhile_eq_filter (h : l.Pairwise fun a b => key a ≤ key b) :
    l.takeWhile (key · ≤ k) = l.filter (key · ≤ k) ∧
      l.dropWhile (key · ≤ k) = l.filter (k < key ·) := by
  induction l with
  | nil => exact ⟨rfl, rfl⟩
  | cons a l ih =>
    obtain ⟨hle, h⟩ := List.pairwise_cons.mp h
    rcases le_or_gt (key a) k with hk | hk
    · obtain ⟨ht, hd⟩ := ih h
      simp [hk, ht, hd, not_lt.mpr hk]
    · have hall : ∀ b ∈ l, k < key b := fun b hb => hk.trans_le (hle b hb)
      have hnone : l.filter (key · ≤ k) = [] := List.filter_eq_nil_iff.mpr fun b hb hle =>
        (hall b hb).not_ge (of_decide_eq_true hle)
      have hsome : l.filter (k < key ·) = l :=
        List.filter_eq_self.mpr fun b hb => decide_eq_true (hall b hb)
      simp [hk, hk.not_ge, hnone, hsome]

theorem StableSort.filter (h : StableSort key p l) (q : A → Bool) :
    StableSort key (p.filter q) (l.filter q) := by
  refine ⟨h.sorted.filter _, fun k => ?_⟩
  have hcomm : ∀ w : List A, (w.filter q).filter (key · = k) = (w.filter (key · = k)).filter q :=
    fun w => by simp only [List.filter_filter, Bool.and_comm]
  rw [hcomm, hcomm, h.order]

/-- Up to a bound, and above it. -/
theorem StableSort.split (h : StableSort key p l) (k : K) :
    StableSort key (p.filter (key · ≤ k)) (l.takeWhile (key · ≤ k)) ∧
      StableSort key (p.filter (k < key ·)) (l.dropWhile (key · ≤ k)) := by
  rw [(takeWhile_eq_filter h.sorted).1, (takeWhile_eq_filter h.sorted).2]
  exact ⟨h.filter _, h.filter _⟩

/-- A new last element goes in front of the first larger one. -/
theorem StableSort.insert (h : StableSort key p l) (x : A) :
    StableSort key (p ++ [x])
      (l.takeWhile (key · ≤ key x) ++ x :: l.dropWhile (key · ≤ key x)) := by
  obtain ⟨ht, hd⟩ := takeWhile_eq_filter (k := key x) h.sorted
  rw [ht, hd]
  refine ⟨List.pairwise_append.mpr ⟨h.sorted.filter _, List.pairwise_cons.mpr
    ⟨fun b hb => ?_, h.sorted.filter _⟩, fun a ha b hb => ?_⟩, fun k => ?_⟩
  · exact (of_decide_eq_true (List.mem_filter.mp hb).2).le
  · have hax : key a ≤ key x := of_decide_eq_true (List.mem_filter.mp ha).2
    rcases List.mem_cons.mp hb with rfl | hb
    · exact hax
    · exact hax.trans (of_decide_eq_true (List.mem_filter.mp hb).2 : key x < key b).le
  · have hsplit : l.filter (key · = k) = (l.filter (key · ≤ key x)).filter (key · = k) ++
        (l.filter (key x < key ·)).filter (key · = k) := by
      conv_lhs => rw [← List.takeWhile_append_dropWhile (p := (key · ≤ key x)) (l := l), ht, hd]
      rw [List.filter_append]
    rw [List.filter_append, List.filter_append, ← h.order, hsplit]
    by_cases hk : key x = k
    · have hnone : (l.filter (key x < key ·)).filter (key · = k) = [] := by
        rw [List.filter_eq_nil_iff]
        intro a ha hak
        have hlt : key x < key a := of_decide_eq_true (List.mem_filter.mp ha).2
        exact hlt.ne (hk.trans (of_decide_eq_true hak : key a = k).symm)
      simp [hk, hk ▸ hnone]
    · simp [hk]

end CoroCore.Lib
