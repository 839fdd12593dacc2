import CoroCore.Mm.PageFree

/-!
# `mappages` on any range

`mappages_spec` is about ranges below `MAXVA` in which nothing is mapped. Calls with other ranges
may panic, but when they return there are facts about what they did.

* `mappages_some`: the pages from the first one on were mapped, up to the last one or up to where
  there was no page for a table;
* `mappages_valid`: a first page that is mapped is a panic.
-/

namespace CoroCore.Vmem

open Lib

variable {root va x n k pa perm last size fuel : Nat} {s s' : Vm} {r : Int}

/-- The first `k` pages from page `n` on were mapped. -/
structure MappedSome (root : Nat) (s : Vm) (n k pa perm : Nat) (s' : Vm) : Prop where
  uses : Uses root s s'
  tree : Tree root s'
  first : 0 < k → entry root s' (n * pgSize) = leafPte pa perm
  mapped : ∀ va < maxVa, n ≤ va / pgSize → va / pgSize < n + k →
    valid (entry root s' va) ∧ ¬ valid (entry root s va)
  other : ∀ va < maxVa, ¬ (n ≤ va / pgSize ∧ va / pgSize < n + k) →
    entry root s' va = entry root s va

theorem entry_write (ht : Tree root s) {a e : Nat} (ha : a < maxVa) (hva : va < maxVa)
    (hx : Radix.node child s.mem root (path 2 va) = some x) :
    entry root (s.write x (px 0 va) e) a = if a / pgSize =
    va / pgSize then e else entry root s a := by
  have hentry : entry root (s.write x (px 0 va) e) a =
      if path 2 a = path 2 va ∧ px 0 a = px 0 va then e else entry root s a :=
    Radix.leaf_write ht (path_length 2) hx (path_length 2)
  rw [hentry]
  simp only [slot_eq_iff ha hva]

theorem mapLoop_some : ∀ (fuel n pa : Nat) (s : Vm), Tree root s → Fresh root s →
    n + fuel ≤ maxVa / pgSize → mapLoop root last perm fuel (n * pgSize) pa s = .ok (r, s') →
    ∃ k, MappedSome root s n k pa perm s' ∧ (r = 0 ∧ 0 < k ∧ last = (n + k - 1) * pgSize ∨
      r = -1 ∧ s'.free = [] ∧
        (k = 0 → Radix.node child s.mem root (path 2 (n * pgSize)) = none))
  | 0, _, _, _, _, _, _, hok => by cases hok
  | fuel + 1, n, pa, s, ht, hf, hlt, hok => by
    have hva : n * pgSize < maxVa := by
      simp only [pgSize, maxVa] at hlt ⊢
      omega
    have hn : n * pgSize / pgSize = n := Nat.mul_div_cancel n (by decide)
    obtain ⟨w, s1, hwalk, hgrown, hno, hfound⟩ := walk_alloc ht hf hva
    rw [mapLoop, hwalk] at hok
    cases w with
    | none =>
      obtain ⟨rfl, rfl⟩ := Prod.mk.inj (Except.ok.inj hok)
      refine ⟨0, ⟨hgrown.toUses, hgrown.tree, fun h => absurd h (Nat.lt_irrefl 0),
        fun va _ h1 h2 => absurd h2 (by omega), fun va _ _ => hgrown.entry va⟩, .inr ⟨rfl,
        hno rfl, fun _ => ?_⟩⟩
      cases hx : Radix.node child s.mem root (path 2 (n * pgSize)) with
      | none => rfl
      | some x =>
        rw [walk, if_neg hva.not_ge, walkLevels_of_node _ true 2 root hx] at hwalk
        cases hwalk
    | some xi =>
      obtain ⟨x, i⟩ := xi
      obtain ⟨rfl, hx⟩ := hfound x i rfl
      simp only [bind, Except.bind] at hok
      split at hok
      · cases hok
      rename_i hinv
      rw [entry_of_node hx, hgrown.entry] at hinv
      have hwrite : ∀ a < maxVa, entry root (s1.write x (px 0 (n * pgSize)) (leafPte pa perm)) a =
          if a / pgSize = n then leafPte pa perm else entry root s a := fun a ha => by
        rw [entry_write hgrown.tree ha hva hx, hn, hgrown.entry]
      have huses : Uses root s (s1.write x (px 0 (n * pgSize)) (leafPte pa perm)) :=
        hgrown.toUses.trans (Uses.write hgrown.fresh hgrown.tree hx (px_lt hva rfl))
      have ht2 : Tree root (s1.write x (px 0 (n * pgSize)) (leafPte pa perm)) :=
        Radix.Separated.write_leaf hgrown.tree (path_length 2) hx
      have hpage : ∀ a < maxVa, a / pgSize = n → ¬ valid (entry root s a) := fun a ha han => by
        have hslot := (slot_eq_iff ha hva).mpr (han.trans hn.symm)
        rwa [entry, hslot.1, hslot.2]
      split at hok
      · rename_i hlast
        obtain ⟨rfl, rfl⟩ := Prod.mk.inj (Except.ok.inj hok)
        refine ⟨1, ⟨huses, ht2, fun _ => ?_, fun a ha h1 h2 => ?_, fun a ha hout => ?_⟩,
          .inl ⟨rfl, Nat.one_pos, hlast.symm⟩⟩
        · exact (hwrite _ hva).trans (if_pos hn)
        · have han : a / pgSize = n := by omega
          refine ⟨?_, hpage a ha han⟩
          have heq := (hwrite a ha).trans (if_pos han)
          rw [← leafPte, heq]
          exact valid_or _
        · exact (hwrite a ha).trans (if_neg (by omega))
      · have hstep : n * pgSize + pgSize = (n + 1) * pgSize := (Nat.succ_mul n pgSize).symm
        rw [hstep] at hok
        obtain ⟨k, hmap, hend⟩ := mapLoop_some fuel (n + 1) _ _ ht2 huses.fresh (by omega) hok
        refine ⟨k + 1, ⟨huses.trans hmap.uses, hmap.tree, fun _ => ?_, fun a ha h1 h2 => ?_,
          fun a ha hout => ?_⟩, ?_⟩
        · rw [hmap.other _ hva (by omega)]
          exact (hwrite _ hva).trans (if_pos hn)
        · rcases Nat.eq_or_lt_of_le h1 with han | han
          · refine ⟨?_, hpage a ha han.symm⟩
            rw [hmap.other a ha (by omega), (hwrite a ha).trans (if_pos han.symm)]
            exact valid_or _
          · have h := hmap.mapped a ha han (by omega)
            have heq := (hwrite a ha).trans (if_neg han.ne')
            exact ⟨h.1, heq ▸ h.2⟩
        · rw [hmap.other a ha (by omega)]
          exact (hwrite a ha).trans (if_neg (by omega))
        · rcases hend with ⟨rfl, _, hlast⟩ | ⟨rfl, hfree, _⟩
          · exact .inl ⟨rfl, Nat.succ_pos k, by rw [hlast]; congr 1; omega⟩
          · exact .inr ⟨rfl, hfree, fun h => absurd h k.succ_ne_zero⟩

/-- What `mappages` did when it returns. -/
theorem mappages_some (ht : Tree root s) (hf : Fresh root s) (hva : va < maxVa)
    (hok : mappages root va pa size perm s = .ok (r, s')) :
    ∃ k, MappedSome root s (va / pgSize) k pa perm s' ∧
      (r = 0 ∧ 0 < k ∧ lastPage va size = (va / pgSize + k - 1) * pgSize ∨
      r = -1 ∧ s'.free = [] ∧
        (k = 0 → Radix.node child s.mem root (path 2 (va / pgSize * pgSize)) = none)) := by
  refine mapLoop_some _ _ _ _ ht hf ?_ hok
  simp only [pgSize, maxVa] at hva ⊢
  omega

/-- `mappages` panics when its first page is mapped. -/
theorem mappages_valid (hva : va < maxVa) (hv : valid (entry root s (va / pgSize * pgSize))) :
    mappages root va pa size perm s = .error .remap := by
  have hlt : va / pgSize * pgSize < maxVa := Nat.lt_of_le_of_lt (Nat.div_mul_le_self _ _) hva
  obtain ⟨x, hx⟩ := node_of_valid hv
  obtain ⟨fuel, hfuel⟩ : ∃ fuel, maxVa / pgSize - va / pgSize = fuel + 1 := by
    refine ⟨maxVa / pgSize - va / pgSize - 1, ?_⟩
    simp only [pgSize, maxVa] at *
    omega
  rw [mappages, hfuel, mapLoop, pgRoundDown, walk, if_neg hlt.not_ge,
    walkLevels_of_node _ true 2 root hx]
  simp only [bind, Except.bind]
  rw [if_pos (by rwa [entry_of_node hx])]
  rfl

end CoroCore.Vmem
