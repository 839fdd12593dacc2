import CoroCore.Lib.Result
import CoroCore.Nfs.Fs

/-!
# Calls that hold `nfs::lock`

`get_inode` holds `nfs::lock` when the inode cache flushes the object that it recycles. A call that
is done is done in the same way by an allocator that gives more blocks (`Alloc.Le`), so the flush
under the lock, if it does not panic, is `flush` (`flush_of_held`).
-/

namespace CoroCore.Nfs

open Lib

/-- `a'` gives the blocks that `a` gives, and may give more. -/
def Alloc.Le {α : Type} (a a' : Alloc α) : Prop := ∀ d r, a d = .ok r → a' d = .ok r

namespace Store

variable {ι α : Type} [DecidableEq ι] {a a' : Alloc α} {i : ι} {s : Store ι α} {write : Bool}
  {offset pos size : Nat} {buf : Bytes}

theorem directDataBlockRw_of_le {k off : Nat} {r : Bytes × Store ι α} (h : a.Le a')
    (hr : directDataBlockRw a write i k off pos size buf s = .ok r) :
    directDataBlockRw a' write i k off pos size buf s = .ok r := by
  unfold directDataBlockRw at hr ⊢
  split at hr
  · next hnone =>
    rw [if_pos hnone]
    split at hr
    · next hw =>
      rw [if_pos hw]
      cases ha : a s.dev with
      | error d =>
        rw [ha] at hr
        cases hr
      | ok p =>
        rw [ha] at hr
        rw [h _ _ ha]
        exact hr
    · next hw => rwa [if_neg hw]
  · next hsome => rwa [if_neg hsome]

omit [DecidableEq ι] in
theorem dataBlockRw_of_le {ab j off : Nat} {r : Bytes × Store ι α} (h : a.Le a')
    (hr : dataBlockRw a write ab j off pos size buf s = .ok r) :
    dataBlockRw a' write ab j off pos size buf s = .ok r := by
  unfold dataBlockRw at hr ⊢
  split at hr
  · next hnone =>
    rw [if_pos hnone]
    split at hr
    · next hw =>
      rw [if_pos hw]
      cases ha : a s.dev with
      | error d =>
        rw [ha] at hr
        cases hr
      | ok p =>
        rw [ha] at hr
        rw [h _ _ ha]
        exact hr
    · next hw => rwa [if_neg hw]
  · next hsome => rwa [if_neg hsome]

theorem extend_of_le (h : a.Le a') : ∀ (fuel b o : Nat) (d : Dev α) (r : Nat × Nat × Dev α),
    extend a fuel b o d = .ok r → extend a' fuel b o d = .ok r := by
  intro fuel
  induction fuel with
  | zero => exact fun _ _ _ _ hr => hr
  | succ fuel ih =>
    intro b o d r hr
    unfold extend at hr ⊢
    split at hr
    · next hlt => rwa [if_pos hlt]
    · next hge =>
      rw [if_neg hge]
      cases ha : a d with
      | error e =>
        rw [ha] at hr
        cases hr
      | ok p =>
        rw [ha] at hr
        rw [h _ _ ha]
        exact ih _ _ _ _ hr

theorem getBlockIndex_of_le {start : Nat} {d : Dev α} {r : Nat × Nat × Nat × Dev α} (h : a.Le a')
    (hr : getBlockIndex a start offset d = .ok r) : getBlockIndex a' start offset d = .ok r := by
  unfold getBlockIndex at hr ⊢
  simp only at hr ⊢
  split at hr
  · cases hr
  · next hext =>
    rw [extend_of_le h _ _ _ _ _ hext]
    exact hr

theorem directLoop_of_le (h : a.Le a') :
    ∀ (fuel offset pos size : Nat) (buf : Bytes) (s : Store ι α)
    (r : Nat × Nat × Nat × Bytes × Store ι α),
    directLoop a write i fuel offset pos size buf s = .ok r →
      directLoop a' write i fuel offset pos size buf s = .ok r := by
  intro fuel
  induction fuel with
  | zero => exact fun _ _ _ _ _ _ hr => hr
  | succ fuel ih =>
    intro offset pos size buf s r hr
    unfold directLoop at hr ⊢
    split at hr
    · next hround =>
      rw [if_pos hround]
      split at hr
      · cases hr
      · next hrw =>
        rw [directDataBlockRw_of_le h hrw]
        exact ih _ _ _ _ _ _ hr
    · next hround => rwa [if_neg hround]

omit [DecidableEq ι] in
theorem indirectLoop_of_le (h : a.Le a') : ∀ (fuel cur offset pos size : Nat) (buf : Bytes)
    (s : Store ι α) (r : Nat × Nat × Bytes × Store ι α),
    indirectLoop a write fuel cur offset pos size buf s = .ok r →
      indirectLoop a' write fuel cur offset pos size buf s = .ok r := by
  intro fuel
  induction fuel with
  | zero => exact fun _ _ _ _ _ _ _ hr => hr
  | succ fuel ih =>
    intro cur offset pos size buf s r hr
    unfold indirectLoop at hr ⊢
    split at hr
    · next hround =>
      rw [if_pos hround]
      split at hr
      · cases hr
      · next hget =>
        rw [getBlockIndex_of_le h hget]
        simp only at hr ⊢
        split at hr
        · cases hr
        · next hrw =>
          rw [dataBlockRw_of_le h hrw]
          exact ih _ _ _ _ _ _ _ hr
    · next hround => rwa [if_neg hround]

theorem indirectRw_of_le {r : Nat} {res : Nat × Bytes × Store ι α} (h : a.Le a')
    (hr : indirectRw a write i r pos size buf s = .ok res) :
    indirectRw a' write i r pos size buf s = .ok res := by
  unfold indirectRw at hr ⊢
  split at hr
  · cases hr
  · next hloop =>
    rw [indirectLoop_of_le h _ _ _ _ _ _ _ _ hloop]
    exact hr

theorem firstAddrBlock_of_le {t : Store ι α} (h : a.Le a') (hr : firstAddrBlock a i s = .ok t) :
    firstAddrBlock a' i s = .ok t := by
  unfold firstAddrBlock at hr ⊢
  split at hr
  · cases hr
  · next ha =>
    rw [h _ _ ha]
    exact hr

theorem dataRw_of_le {r : Nat × Bytes × Store ι α} (h : a.Le a')
    (hr : dataRw a write i offset size buf s = .ok r) :
    dataRw a' write i offset size buf s = .ok r := by
  unfold dataRw at hr ⊢
  split at hr
  · cases hr
  next hloop =>
  rw [directLoop_of_le h _ _ _ _ _ _ _ hloop]
  simp only at hr ⊢
  split at hr
  · next hdone => rwa [if_pos hdone]
  next hmore =>
  rw [if_neg hmore]
  split at hr
  · next hnone =>
    rw [if_pos hnone]
    split at hr
    · next hw =>
      rw [if_pos hw]
      split at hr
      · cases hr
      · next hfirst =>
        rw [firstAddrBlock_of_le h hfirst]
        exact indirectRw_of_le h hr
    · next hw => rwa [if_neg hw]
  · next hsome =>
    rw [if_neg hsome]
    exact indirectRw_of_le h hr

theorem write_of_le {r : Nat × Store ι α} (h : a.Le a')
    (hr : Store.write a i offset size buf s = .ok r) :
    Store.write a' i offset size buf s = .ok r := by
  unfold Store.write at hr ⊢
  split at hr
  · cases hr
  · next hrw =>
    rw [dataRw_of_le h hrw]
    exact hr

end Store

namespace Fs

variable {s t : Fs} {j : Nat}

/-- Under the lock no block is given. -/
theorem flush_of_held (h : flushWith heldAlloc j s = .ok t) : flush j s = .ok t := by
  unfold flush
  unfold flushWith at h ⊢
  split at h
  · next hdirty =>
    rw [if_pos hdirty]
    split at h
    · next hzero => rwa [if_pos hzero]
    · next hj =>
      rw [if_neg hj]
      obtain ⟨u, hw, h⟩ := bind_ok h
      obtain ⟨r, hw, hu⟩ := bind_ok hw
      have hle : heldAlloc.Le allocBlock := fun _ _ ha => nomatch ha
      rw [writeDinodeWith, Store.write_of_le hle hw]
      cases hu
      exact h
  · next hclean => rwa [if_neg hclean]

theorem recycle_ok {n : Nat} (h : recycle j n s = .ok t) : ∃ u, flush j s = .ok u ∧
    t = (u.setIno j { (u.ino j).withPos Inode.new with valid := false }).setIno n
      (((u.setIno j { (u.ino j).withPos Inode.new with valid := false }).ino n).withPos
        (u.ino j)) := by
  unfold recycle at h
  split at h
  · cases h
  · next u hu =>
    cases h
    exact ⟨u, flush_of_held hu, rfl⟩

end Fs

end CoroCore.Nfs
