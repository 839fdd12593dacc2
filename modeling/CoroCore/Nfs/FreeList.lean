import CoroCore.Lib.Chain
import CoroCore.Nfs.Frame

/-!
# The free list of the inode table

The list starts in the `size` field of `dinode` 0, runs through the `dinode`s of the freed numbers,
and ends at the number from which on none was ever used (`FreeList`). `alloc_inode` takes its head
(`FreeList.alloc`) and `free_inode` puts a number there (`FreeList.free`).
-/

namespace CoroCore.Nfs

open Lib

namespace Fs

/-- `unlink` marks the object of a freed inode invalid and clean. -/
def retire (i : Nat) (s : Fs) : Fs := s.setIno i { s.ino i with valid := false, dirty := false }

/-- The free list holds the numbers `freed`, each once and none in use, and ends at `top`, the first
number that was never used. -/
structure FreeList (live freed : List Nat) (top : Nat) (s : Fs) : Prop where
  tag : (s.dinode 0).type = itypeNextFreeInode
  list : Chain (fun m => (s.dinode m).size) top (s.dinode 0).size freed
  tags : ∀ m ∈ freed, (s.dinode m).type = itypeNextFreeInode
  fresh : ∀ m, top ≤ m → (s.dinode m).type ≠ itypeNextFreeInode
  below : ∀ m, m ∈ live ∨ m ∈ freed → 1 ≤ m ∧ m < top
  disjoint : ∀ m ∈ freed, m ∉ live
  acyclic : freed.Nodup
  bound : 1 ≤ top ∧ top ≤ 2 ^ 26

variable {s t : Fs} {live live' freed : List Nat} {top n i : Nat}

/-- The freed numbers and those never used are not in use. -/
theorem FreeList.not_live (h : FreeList live freed top s) {m : Nat} (hm : m ∈ freed ∨ top ≤ m) :
    m ≠ 0 ∧ m ∉ live := by
  rcases hm with hm | hm
  · exact ⟨Nat.ne_of_gt (h.below m (.inr hm)).1, h.disjoint m hm⟩
  · exact ⟨Nat.ne_of_gt (Nat.le_trans h.bound.1 hm),
      fun hl => Nat.not_le.mpr (h.below m (.inl hl)).2 hm⟩

/-- The head of a list that is not empty was freed. -/
theorem FreeList.head_mem (h : FreeList live freed top s) : (s.dinode 0).size ∈ freed ∨
    freed = [] := by
  have hlist := h.list
  cases freed with
  | nil => exact .inr rfl
  | cons f l =>
    rw [(chain_cons.mp hlist).1]
    exact .inl List.mem_cons_self

/-- The head of the list is not in use. -/
theorem FreeList.head (h : FreeList live freed top s) :
    (s.dinode 0).size ≠ 0 ∧ (s.dinode 0).size ≤ top ∧ (s.dinode 0).size ∉ live := by
  have hlist := h.list
  cases freed with
  | nil =>
    rw [chain_nil.mp hlist]
    exact ⟨Nat.ne_of_gt h.bound.1, Nat.le_refl _,
      fun hl => Nat.lt_irrefl _ (h.below top (.inl hl)).2⟩
  | cons f l =>
    rw [(chain_cons.mp hlist).1]
    have hbelow := h.below f (.inr List.mem_cons_self)
    exact ⟨Nat.ne_of_gt hbelow.1, Nat.le_of_lt hbelow.2, h.disjoint f List.mem_cons_self⟩

/-- A step that changes only `dinode`s in use. -/
theorem FreeList.keep (h : FreeList live freed top s) (hzero : 0 ∉ live)
    (hd : ∀ m, m ∉ live → t.dinode m = s.dinode m) : FreeList live freed top t := by
  have hfirst := hd 0 hzero
  refine ⟨?_, ?_, fun m hm => ?_, fun m hm => ?_, h.below, h.disjoint, h.acyclic, h.bound⟩
  · rw [hfirst]
    exact h.tag
  · rw [hfirst]
    exact h.list.congr fun m hm => by rw [hd m (h.not_live (.inl hm)).2]
  · rw [hd m (h.not_live (.inl hm)).2]
    exact h.tags m hm
  · rw [hd m (h.not_live (.inr hm)).2]
    exact h.fresh m hm

/-! ## `alloc_inode` -/

/-- The parts of the invariant that do not depend on where the number comes from. -/
theorem FreeList.taken {top' : Nat} {freed' : List Nat} (h : FreeList live freed top s)
    (ha : Allocated live n s t)
    (hlist : Chain (fun m => (t.dinode m).size) top' (t.dinode 0).size freed')
    (hsub : ∀ m, m ∈ freed' → m ∈ freed ∧ m ≠ n) (hacyclic : freed'.Nodup)
    (htop : top ≤ top' ∧ top' ≤ 2 ^ 26) (hn : 1 ≤ n ∧ n < top') :
    FreeList (n :: live) freed' top' t where
  tag := ha.type
  list := hlist
  tags m hm := by
    obtain ⟨hm, -⟩ := hsub m hm
    rw [ha.free m (h.not_live (.inl hm)).1 (h.not_live (.inl hm)).2]
    exact h.tags m hm
  fresh m hm := by
    have hge : top ≤ m := Nat.le_trans htop.1 hm
    rw [ha.free m (h.not_live (.inr hge)).1 (h.not_live (.inr hge)).2]
    exact h.fresh m hge
  below m hm := by
    rcases hm with hm | hm
    · rcases List.mem_cons.mp hm with rfl | hm
      · exact hn
      · have hbelow := h.below m (.inl hm)
        exact ⟨hbelow.1, Nat.lt_of_lt_of_le hbelow.2 htop.1⟩
    · have hbelow := h.below m (.inr (hsub m hm).1)
      exact ⟨hbelow.1, Nat.lt_of_lt_of_le hbelow.2 htop.1⟩
  disjoint m hm := by
    obtain ⟨hm, hne⟩ := hsub m hm
    exact fun hmem => (List.mem_cons.mp hmem).elim hne (h.disjoint m hm)
  acyclic := hacyclic
  bound := ⟨Nat.le_trans h.bound.1 htop.1, htop.2⟩

/-- `alloc_inode` takes the head of the list, or the first number that was never used. -/
theorem FreeList.alloc (h : FreeList live freed top s) (ha : Allocated live n s t)
    (hn : n = (s.dinode 0).size) (hbound : n * dinodeSize + dinodeSize < 2 ^ 32) :
    ∃ top', FreeList (n :: live) (freed.erase n) top' t ∧ ∀ m, m < top' ↔ m = n ∨ m < top := by
  have hlist := h.list
  rw [← hn] at hlist
  cases freed with
  | nil =>
    have hhead : n = top := chain_nil.mp hlist
    have hlt : top + 1 ≤ 2 ^ 26 := by
      simp only [dinodeSize] at hbound
      omega
    have hnext : (t.dinode 0).size = top + 1 := by
      rw [ha.head, if_neg (h.fresh n (Nat.le_of_eq hhead.symm)), hhead, Nat.mod_eq_of_lt (by omega)]
    refine ⟨top + 1, h.taken ha (chain_nil.mpr hnext) (fun m hm => absurd hm List.not_mem_nil)
      List.nodup_nil ⟨Nat.le_succ _, hlt⟩ ?_, fun m => ?_⟩
    · rw [hhead]
      exact ⟨h.bound.1, Nat.lt_succ_self _⟩
    · rw [hhead]
      omega
  | cons f l =>
    obtain ⟨rfl, -, hrest⟩ := chain_cons.mp hlist
    obtain ⟨hfl, hnodup⟩ := List.nodup_cons.mp h.acyclic
    have hbelow := h.below n (.inr List.mem_cons_self)
    have hnext : (t.dinode 0).size = (s.dinode n).size := by
      rw [ha.head, if_pos (h.tags n List.mem_cons_self)]
    rw [List.erase_cons_head]
    refine ⟨top, h.taken ha
      ?_ (fun m hm => ⟨List.mem_cons_of_mem n hm, fun he => hfl (he ▸ hm)⟩) hnodup
      ⟨Nat.le_refl _, h.bound.2⟩ hbelow, fun m => ⟨fun hm => .inr hm, ?_⟩⟩
    · rw [hnext]
      refine hrest.congr fun m hm => ?_
      obtain ⟨hne, hnl⟩ := h.not_live (.inl (List.mem_cons_of_mem n hm))
      rw [ha.free m hne hnl]
    · rintro (rfl | hm)
      · exact hbelow.2
      · exact hm

/-! ## `free_inode` -/

/-- What `free_inode` and the marks of `unlink` do. -/
structure FreedInode (i : Nat) (s t : Fs) : Prop where
  core : Core t
  ino : ∀ j, j ≠ 0 → (s.ino j).Alike (t.ino j)
  same : ∀ j, j ≠ 0 → j ≠ i → t.ino j = s.ino j
  byte : ∀ j, j ≠ 0 → ∀ p, t.byte j p = s.byte j p
  refs : ∀ q b, s.refs q = some b → t.refs q = some b
  pos : (s.ino i).SamePos (t.ino i)
  retired : (t.ino i).valid = false
  head : (t.dinode 0).size = i ∧ (t.dinode 0).type = itypeNextFreeInode
  record : (t.dinode i).size = (s.dinode 0).size ∧ (t.dinode i).type = itypeNextFreeInode
  others : ∀ m, m ≠ 0 → m ≠ i → t.dinode m = s.dinode m
  ninodes : t.dev.al.ninodes = (s.dev.al.ninodes + 2 ^ 32 - 1) % 2 ^ 32

theorem Core.setNinodes {k : Nat} (h : Core s) : Core (Fs.setNinodes k s) := by
  have hok := h.owned.ok
  have howned : (Fs.setNinodes k s).Owned bitmapModel :=
    ⟨⟨hok.start_gt, hok.start_le, hok.total_lt, hok.fits, hok.next_ge, hok.low, hok.count⟩,
      h.owned.inj, h.owned.used⟩
  exact ⟨howned, h.pos, h.range, h.table⟩

theorem byte_setNinodes {k j p : Nat} : (setNinodes k s).byte j p = s.byte j p := rfl

theorem refs_setNinodes {k : Nat} : (setNinodes k s).refs = s.refs := rfl

theorem freeInode_spec {i : Nat} {junk : Dinode} (h : Core s)
    (hi : i ≠ 0) (hbound : i * dinodeSize + dinodeSize < 2 ^ 32)
    (hf : freeInode i junk s = .ok t) : FreedInode i s (retire i t) := by
  obtain ⟨⟨temp, s₁⟩, h₁, hf⟩ := bind_ok hf
  obtain ⟨rfl, htab₁, hb₁⟩ := readDinode_spec h (by decide) h₁
  have hn₁ := readDinode_ninodes 0 s
  rw [h₁] at hn₁
  simp only at hf
  split at hf
  · cases hf
  next htype =>
  have htype : (s.dinode 0).type = itypeNextFreeInode := not_not.mp htype
  obtain ⟨s₂, h₂, hf⟩ := bind_ok hf
  obtain ⟨s₃, h₃, hf⟩ := bind_ok hf
  cases hf
  have hn₂ := writeDinode_ninodes 0 { s.dinode 0 with size := i } s₁
  rw [h₂] at hn₂
  have hn₃ := writeDinode_ninodes i { junk with size := (s.dinode 0).size, type :=
    itypeNextFreeInode } s₂
  rw [h₃] at hn₃
  have hn : s₃.dev.al.ninodes = s.dev.al.ninodes := hn₃.trans (hn₂.trans hn₁)
  obtain ⟨htab₂, -, -⟩ := writeDinode_spec htab₁.core (by decide) h₂
  obtain ⟨hhead, hd₂⟩ := writeDinode_dinode htab₁.core (by decide) h₂
  obtain ⟨htab₃, -, -⟩ := writeDinode_spec htab₂.core hbound h₃
  obtain ⟨hrecord, hd₃⟩ := writeDinode_dinode htab₂.core hbound h₃
  have htab := (htab₁.trans htab₂).trans htab₃
  have hilt : i < 2 ^ 32 := by
    simp only [dinodeSize] at hbound
    omega
  -- the counter and the marks of the object touch neither table nor files
  let u : Fs := setNinodes (s₃.dev.al.ninodes + 2 ^ 32 - 1) s₃
  have hucore : Core u := htab.core.setNinodes
  have halike : (u.ino i).Alike { u.ino i with valid := false, dirty := false } :=
    ⟨rfl, rfl, rfl, rfl, rfl, fun _ _ => rfl⟩
  obtain ⟨hcore, hbyte, hrefs⟩ := hucore.setIno hi halike
  have hd : ∀ m, (retire i u).dinode m = s₃.dinode m := fun m => dinode_congr fun k _ =>
    (hbyte 0 _).trans byte_setNinodes
  have hsame : ∀ j, j ≠ 0 → j ≠ i → (retire i u).ino j = s.ino j := fun j hj hji =>
    (Store.setIno_of_ne hji).trans (htab.ino j hj)
  refine ⟨hcore, fun j hj => ?_, hsame, fun j hj p => ?_, fun q b hb => ?_, ?_, ?_, ?_, ?_,
    fun m h0 hm => ?_, ?_⟩
  · rcases eq_or_ne j i with rfl | hji
    · rw [← htab.ino j hj]
      show (u.ino j).Alike ((u.setIno j _).ino j)
      rw [Store.setIno_self]
      exact halike
    · rw [hsame j hj hji]
      exact Inode.Alike.refl _
  · exact (hbyte j p).trans (byte_setNinodes.trans (htab.byte j hj p))
  · refine (congrFun hrefs q).trans ?_
    rw [refs_setNinodes]
    exact htab.refs q b hb
  · show (s.ino i).SamePos ((u.setIno i _).ino i)
    rw [Store.setIno_self, ← htab.ino i hi]
    exact ⟨rfl, rfl, rfl⟩
  · show ((u.setIno i _).ino i).valid = false
    rw [Store.setIno_self]
  · rw [hd, hd₃ 0 hi.symm, hhead]
    refine ⟨Dinode.decode_size hilt, (Dinode.decode_type ?_).trans htype⟩
    exact Dinode.decode_type_lt _
  · rw [hd, hrecord]
    refine ⟨Dinode.decode_size ?_, Dinode.decode_type (show itypeNextFreeInode < 2 ^ 8 by decide)⟩
    exact Dinode.decode_size_lt _
  · rw [hd, hd₃ m hm, hd₂ m h0]
    exact dinode_congr fun k _ => hb₁ _
  · show (s₃.dev.al.ninodes + 2 ^ 32 - 1) % 2 ^ 32 = _
    rw [hn]

theorem FreeList.free (h : FreeList live freed top s) (hf : FreedInode i s t) (hi : i ∈ live)
    (hlive : ∀ j, j ∈ live' ↔ j ≠ i ∧ j ∈ live) : FreeList live' (i :: freed) top t := by
  have hbelow := h.below i (.inl hi)
  have hne : ∀ m ∈ freed, m ≠ i := fun m hm he => h.disjoint m hm (he ▸ hi)
  have hd : ∀ m ∈ freed, t.dinode m = s.dinode m := fun m hm =>
    hf.others m (h.not_live (.inl hm)).1 (hne m hm)
  refine ⟨hf.head.2, ?_, fun m hm => ?_, fun m hm => ?_, fun m hm => ?_, fun m hm => ?_,
    List.nodup_cons.mpr ⟨fun hm => hne i hm rfl, h.acyclic⟩, h.bound⟩
  · rw [hf.head.1]
    refine chain_cons.mpr ⟨rfl, Nat.ne_of_lt hbelow.2, ?_⟩
    rw [hf.record.1]
    exact h.list.congr fun m hm => by rw [hd m hm]
  · rcases List.mem_cons.mp hm with rfl | hm
    · exact hf.record.2
    · rw [hd m hm]
      exact h.tags m hm
  · rw [hf.others m (h.not_live (.inr hm)).1 (Nat.ne_of_gt (Nat.lt_of_lt_of_le hbelow.2 hm))]
    exact h.fresh m hm
  · rcases hm with hm | hm
    · exact h.below m (.inl ((hlive m).mp hm).2)
    · rcases List.mem_cons.mp hm with rfl | hm
      · exact hbelow
      · exact h.below m (.inr hm)
  · rw [hlive, not_and]
    intro hmi
    exact h.disjoint m ((List.mem_cons.mp hm).resolve_left hmi)

/-- Inode `i`, which refers to no block, is no longer in use. -/
theorem TableInv.remove (h : TableInv live s) (hcore : Core t)
    (hsame : ∀ j, j ≠ 0 → j ≠ i → t.ino j = s.ino j)
    (hd : ∀ m, m ≠ 0 → m ≠ i → t.dinode m = s.dinode m) (hretired : (t.ino i).valid = false)
    (hblank : (t.ino i).Blank) (hlive : ∀ j, j ∈ live' ↔ j ≠ i ∧ j ∈ live) : TableInv live' t := by
  refine ⟨hcore, fun hz => h.zero ((hlive 0).mp hz).2, fun j hj => h.bound j ((hlive j).mp hj).2,
    fun j hj => ?_, fun j hj0 hj => ?_⟩
  · obtain ⟨hji, hj⟩ := (hlive j).mp hj
    have hj0 : j ≠ 0 := fun he => h.zero (he ▸ hj)
    rw [hsame j hj0 hji, hd j hj0 hji]
    exact h.stored j hj
  · rcases eq_or_ne j i with rfl | hji
    · exact ⟨hretired, hblank⟩
    · rw [hsame j hj0 hji]
      exact h.absent j hj0 fun hl => hj ((hlive j).mpr ⟨hji, hl⟩)

theorem TableInv.free (h : TableInv live s) (hf : FreedInode i s t) (hi : i ≠ 0)
    (hblank : (s.ino i).Blank) (hlive : ∀ j, j ∈ live' ↔ j ≠ i ∧ j ∈ live) : TableInv live' t :=
  h.remove hf.core hf.same hf.others hf.retired ((hf.ino i hi).blank hblank) hlive

end Fs

end CoroCore.Nfs
