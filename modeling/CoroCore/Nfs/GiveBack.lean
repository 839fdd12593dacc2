import CoroCore.Nfs.Accounting
import CoroCore.Nfs.Layout
import Mathlib.Data.Set.Card

/-!
# What `truncate` and `unlink` give back

`truncate(0)` ends early if the size is 0. A write that fails leaves the size as it was and keeps
the blocks it has taken, so a file of size 0 may hold blocks, and these are not given back
(`failed_write_not_given_back`). In all other states every block of the inode is given back
(`truncate_gives_back_iff`).
-/

namespace CoroCore.Nfs

open Lib

namespace Store

variable {ι : Type} [DecidableEq ι] {s t : Store ι Super} {i : ι}

/-- The blocks that inode `i` refers to. -/
def blocksOf (s : Store ι Super) (i : ι) : Set Nat := {b | ∃ p, s.refs (i, p) = some b}

/-- From `s` to `t` the blocks of inode `i` were given back, each once, no generic block and no
other inode was touched, and the inode is empty. The loop over the chain of address blocks needs
no more rounds than there are blocks. -/
structure GivesBack (i : ι) (s t : Store ι Super) : Prop where
  ends : ∀ fuel, s.dev.al.totalBlocks ≤ fuel →
    freeChain fuel (s.ino i).nextAddrBlock (freeDirect (s.ino i).addrs numDirectData s.dev) =
      freeChain s.dev.al.totalBlocks (s.ino i).nextAddrBlock
        (freeDirect (s.ino i).addrs numDirectData s.dev)
  used : ∀ b, GenericUsed t.dev b ↔ GenericUsed s.dev b ∧ b ∉ s.blocksOf i
  count : t.dev.al.usedGenericBlocks + (s.blocksOf i).ncard = s.dev.al.usedGenericBlocks
  disk : ∀ b, s.dev.al.genericBlockStart ≤ b → t.dev.disk b = s.dev.disk b
  other : ∀ j, j ≠ i → t.ino j = s.ino j
  size : (t.ino i).size = 0
  blank : (t.ino i).Blank

omit [DecidableEq ι] in
theorem Sound.blocksOf_used (hs : s.Sound) {b : Nat} (hb : b ∈ s.blocksOf i) :
    GenericUsed s.dev b := by
  obtain ⟨p, hp⟩ := hb
  exact hs.used _ _ hp

omit [DecidableEq ι] in
/-- The count follows the bits. -/
theorem count_of_used (hs : s.Sound) (hok : AllocOk s.dev) {d : Dev Super} (hd : AllocOk d)
    (hused : ∀ b, GenericUsed d b ↔ GenericUsed s.dev b ∧ b ∉ s.blocksOf i) :
    d.al.usedGenericBlocks + (s.blocksOf i).ncard = s.dev.al.usedGenericBlocks := by
  have hsub : s.blocksOf i ⊆ ↑(usedBlocks s.dev) := fun b hb =>
    Finset.mem_coe.mpr (mem_usedBlocks.mpr (hs.blocksOf_used hb))
  have hdiff : (↑(usedBlocks d) : Set Nat) = ↑(usedBlocks s.dev) \ s.blocksOf i := by
    ext b
    rw [Finset.mem_coe, mem_usedBlocks, hused, Set.mem_sdiff, Finset.mem_coe, mem_usedBlocks]
  rw [hd.count, hok.count, ← Set.ncard_coe_finset, ← Set.ncard_coe_finset, hdiff]
  exact Set.ncard_sdiff_add_ncard_of_subset hsub (Finset.finite_toSet _)

theorem Freed.givesBack {d : Dev Super} {x : Inode} (hok : AllocOk s.dev) (hs : s.Sound)
    (hd : Freed s i (fun _ => True) d) (hsize : x.size = 0) (hblank : x.Blank) :
    GivesBack i s ({ s with dev := d }.setIno i x) := by
  have hused : ∀ b, GenericUsed d b ↔ GenericUsed s.dev b ∧ b ∉ s.blocksOf i := by
    intro b
    rw [hd.used]
    exact and_congr_right fun _ => ⟨fun h ⟨p, hp⟩ => h p trivial hp, fun h p _ hp => h ⟨p, hp⟩⟩
  refine ⟨fun fuel hfuel => freeChain_ends hok hs hfuel, hused, count_of_used hs hok hd.ok hused,
    hd.disk, fun j hj => setIno_of_ne hj, ?_, ?_⟩
  · rwa [setIno_self]
  · rwa [setIno_self]

omit [DecidableEq ι] in
theorem blocksOf_of_blank (h : (s.ino i).Blank) : s.blocksOf i = ∅ := by
  refine Set.eq_empty_iff_forall_notMem.mpr fun b ⟨p, hp⟩ => ?_
  rw [refs_eq, slotRef_of_blank h] at hp
  cases hp

/-- `truncate(0)` gives back all blocks of an inode exactly if it has a size or no blocks. -/
theorem truncate_givesBack_iff (hok : AllocOk s.dev) (hs : s.Sound) :
    GivesBack i s (s.truncate i) ↔ (s.ino i).size ≠ 0 ∨ (s.ino i).Blank := by
  rcases eq_or_ne (s.ino i).size 0 with hsize | hsize
  · rw [show s.truncate i = s from if_pos hsize, or_iff_right (not_not.mpr hsize)]
    refine ⟨fun h => h.blank, fun h => ?_⟩
    have hnone := blocksOf_of_blank h
    refine ⟨fun fuel hfuel => freeChain_ends hok hs hfuel, fun b => ?_, ?_, fun _ _ => rfl,
      fun _ _ => rfl, hsize, h⟩
    · rw [hnone]
      exact (and_iff_left (Set.notMem_empty b)).symm
    · rw [hnone, Set.ncard_empty, Nat.add_zero]
  · rw [show s.truncate i = _ from if_neg hsize]
    exact ⟨fun _ => .inl hsize, fun _ =>
      (freed_all hok hs).givesBack hok hs rfl ⟨fun _ _ => rfl, rfl⟩⟩

theorem refs_setLinks {n : Nat} (q : ι × Slot) :
    (s.setIno i { s.ino i with nlinks := n }).refs q = s.refs q := by
  have hrefs : (s.setIno i { s.ino i with nlinks := n }).refs = s.refs :=
    refs_setIno (fun _ _ => rfl) rfl
  rw [hrefs]

/-- The number of links plays no part. -/
theorem givesBack_setLinks {n : Nat} :
    GivesBack i (s.setIno i { s.ino i with nlinks := n }) t ↔ GivesBack i s t := by
  have hblocks : (s.setIno i { s.ino i with nlinks := n }).blocksOf i = s.blocksOf i := by
    simp only [blocksOf, refs_setLinks]
  have hother : ∀ j, j ≠ i → (s.setIno i { s.ino i with nlinks := n }).ino j = s.ino j :=
    fun j hj => setIno_of_ne hj
  constructor
  · intro h
    have hends := h.ends
    rw [setIno_self] at hends
    exact ⟨hends, hblocks ▸ h.used, hblocks ▸ h.count, h.disk,
      fun j hj => (h.other j hj).trans (hother j hj), h.size, h.blank⟩
  · intro h
    refine ⟨?_, hblocks.symm ▸ h.used, hblocks.symm ▸ h.count, h.disk,
      fun j hj => (h.other j hj).trans (hother j hj).symm, h.size, h.blank⟩
    rw [setIno_self]
    exact h.ends

end Store

namespace Fs

open Store

variable {s t : Fs} {i : Nat}

/-- The state in which `unlink` of the last link goes on after its `truncate(0)`. -/
def lastUnlink (i : Nat) (s : Fs) : Fs :=
  Store.truncate i (s.setIno i { s.ino i with nlinks := 0 })

/-- The rest of `unlink` of the last link. -/
def removeInode (i : Nat) (junk : Dinode) (s : Fs) : Res Fs := do
  let s ← flush i s
  let s ← freeInode i junk s
  return s.setIno i { s.ino i with valid := false, dirty := false }

theorem load_valid (h : load i s = .ok t) : (t.ino i).valid = true := by
  unfold load at h
  split at h
  · next hvalid =>
    cases h
    exact hvalid
  split at h
  · next hzero =>
    cases h
    subst hzero
    unfold loadTable
    split
    · next hvalid => exact hvalid
    · rw [setIno_self]
      rfl
  · obtain ⟨r, -, h⟩ := bind_ok h
    cases h
    rw [setIno_self]
    rfl

theorem truncate_of_load (h : load i s = .ok t) : truncate i s = .ok (Store.truncate i t) := by
  rw [truncate, h]
  rfl

theorem dropLink_last {junk : Dinode} (h : load i s = .ok t) (hlast : (t.ino i).nlinks = 1) :
    dropLink i junk s = removeInode i junk (lastUnlink i t) := by
  have hlinks : ((t.ino i).nlinks + 2 ^ 16 - 1) % 2 ^ 16 = 0 := by
    rw [hlast]
    decide
  have hvalid : ((t.setIno i { t.ino i with nlinks := 0 }).ino i).valid = true := by
    rw [setIno_self]
    exact load_valid h
  have htrunc : truncate i (t.setIno i { t.ino i with nlinks := 0 }) = .ok (lastUnlink i t) :=
    truncate_of_load (if_pos hvalid)
  rw [dropLink, h]
  show (if ((t.setIno i { t.ino i with nlinks := _ }).ino i).nlinks = 0 then _ else _) = _
  rw [hlinks, setIno_self, if_pos rfl]
  show (truncate i (t.setIno i { t.ino i with nlinks := 0 }) >>= _) = _
  rw [htrunc]
  rfl

/-- A position behind more address blocks than the disk has blocks. -/
abbrev farOffset : Nat := directDataSize + 1100 * addrBlockDataSize

/-- A new file on a disk of 1024 blocks. -/
theorem new_file : ∃ s₀ t, makeFs 1024 (fun _ _ => 0) ⟨0, 0, 0, 0, 0, fun _ => 0⟩ = .ok s₀ ∧
    create 1 [102] none (fun _ => 0) (mount s₀) = .ok (2, t) ∧ Accounts [2, 1] t ∧
    (t.ino 2).valid = true ∧ (t.ino 2).size = 0 ∧ (t.ino 2).cacheRawIndirectOffset = none32 ∧
    t.dev.al.totalBlocks = 1024 ∧ (enter allocBlock true 2 farOffset 1 (fun _ => 7) t).isSome := by
  have hrun : ((outcome (makeFs 1024 (fun _ _ => 0) ⟨0, 0, 0, 0, 0, fun _ => 0⟩) >>= fun s =>
      create 1 [102] none (fun _ => 0) (mount s)).toOption.map fun r =>
        (r.1, (r.2.ino 2).valid, (r.2.ino 2).size, (r.2.ino 2).cacheRawIndirectOffset,
          r.2.dev.al.totalBlocks, (enter allocBlock true 2 farOffset 1 (fun _ => 7) r.2).isSome)) =
      some (2, true, 0, none32, 1024, true) := by
    decide +kernel
  obtain ⟨⟨n, t⟩, hrun, hvals⟩ := Option.map_eq_some_iff.mp hrun
  obtain ⟨s₀, hmake, hcreate⟩ := outcome_bind_ok (toOption_ok hrun)
  simp only [Prod.mk.injEq] at hvals
  obtain ⟨rfl, hvalid, hsize, hpos, htotal, henter⟩ := hvals
  have haccounts := (makeFs_spec (by decide) hmake).accounts.make (by decide) List.mem_cons_self
    (by decide) (by decide) hcreate
  exact ⟨s₀, t, hmake, hcreate, haccounts, hvalid, hsize, hpos, htotal, henter⟩

/-- `truncate(0)`, and likewise the removal of the last link, gives back all blocks of the inode
exactly if the inode has a size or no blocks. `t` is the state with the inode loaded, in which the
bitmap counts right and every block is referenced from one place and in use. -/
theorem truncate_gives_back_iff (hload : load i s = .ok t) (hok : AllocOk t.dev) (hs : t.Sound) :
    truncate i s = .ok (Store.truncate i t) ∧
    (GivesBack i t (Store.truncate i t) ↔ (t.ino i).size ≠ 0 ∨ (t.ino i).Blank) ∧
    ((t.ino i).nlinks = 1 →
      (∀ junk, dropLink i junk s = removeInode i junk (lastUnlink i t)) ∧
      (GivesBack i t (lastUnlink i t) ↔ (t.ino i).size ≠ 0 ∨ (t.ino i).Blank)) := by
  refine ⟨truncate_of_load hload, truncate_givesBack_iff hok hs,
    fun hlast => ⟨fun junk => dropLink_last hload hlast, ?_⟩⟩
  have hsound : (t.setIno i { t.ino i with nlinks := 0 }).Sound := by
    refine ⟨fun p q b hp hq => ?_, fun p b hp => ?_⟩
    · rw [refs_setLinks] at hp hq
      exact hs.inj p q b hp hq
    · rw [refs_setLinks] at hp
      exact hs.used p b hp
  have hiff := truncate_givesBack_iff (s := t.setIno i { t.ino i with nlinks := 0 })
    (i := i) hok hsound
  rwa [setIno_self, givesBack_setLinks] at hiff

theorem truncate_gives_back_new :
    ∃ s₀ t, makeFs 1024 (fun _ _ => 0) ⟨0, 0, 0, 0, 0, fun _ => 0⟩ = .ok s₀ ∧
    create 1 [102] none (fun _ => 0) (mount s₀) = .ok (2, t) ∧
    load 2 t = .ok t ∧ AllocOk t.dev ∧ t.Sound ∧
    truncate 2 t = .ok (Store.truncate 2 t) ∧
    (GivesBack 2 t (Store.truncate 2 t) ↔ (t.ino 2).size ≠ 0 ∨ (t.ino 2).Blank) ∧
    ((t.ino 2).nlinks = 1 →
      (∀ junk, dropLink 2 junk t = removeInode 2 junk (lastUnlink 2 t)) ∧
      (GivesBack 2 t (lastUnlink 2 t) ↔ (t.ino 2).size ≠ 0 ∨ (t.ino 2).Blank)) := by
  obtain ⟨s₀, t, hmake, hcreate, haccounts, hvalid, -⟩ := new_file
  have hown := haccounts.table.core.owned
  have hsound : t.Sound := ⟨hown.inj, fun p b hp => (hown.used b).mpr ⟨p, hp⟩⟩
  have hload : load 2 t = .ok t := if_pos hvalid
  exact ⟨s₀, t, hmake, hcreate, hload, hown.ok, hsound,
    truncate_gives_back_iff hload hown.ok hsound⟩

/-! ## A write that fails -/

/-- One byte is written to a new file, so far behind that the disk has not the address blocks for
it. The write fails; the file of size 0 keeps the blocks, and `truncate(0)` leaves them. -/
theorem failed_write_not_given_back :
    ∃ s₀ t u, makeFs 1024 (fun _ _ => 0) ⟨0, 0, 0, 0, 0, fun _ => 0⟩ = .ok s₀ ∧
      create 1 [102] none (fun _ => 0) (mount s₀) = .ok (2, t) ∧
      write 2 farOffset 1 (fun _ => 7) t = .error u ∧ load 2 u = .ok u ∧ AllocOk u.dev ∧ u.Sound ∧
      truncate 2 u = .ok (Store.truncate 2 u) ∧ ¬GivesBack 2 u (Store.truncate 2 u) := by
  obtain ⟨s₀, t, hmake, hcreate, haccounts, hvalid, hsize, hcache, htotal, henter⟩ := new_file
  have hown := haccounts.table.core.owned
  have hown : t.Owned (layoutModel t.dev.al) := ⟨⟨hown.ok, .refl _⟩, hown.inj, hown.used⟩
  rcases dataRw_cases true 2 farOffset 1 (fun _ => 7) hown with
    ⟨hnone, -⟩ | ⟨n, buf, v, hsome, hn, -, heff, hlink⟩
  · have hnone : enter allocBlock true 2 farOffset 1 (fun _ => 7) t = none := hnone
    rw [hnone] at henter
    cases henter
  obtain rfl : n = 0 := Nat.lt_one_iff.mp hn
  have hpos : v.PosAt 2 (farOffset - directDataSize) := by
    refine heff.upd.pos _ fun hhit => ?_
    rw [hcache] at hhit
    exact absurd hhit (by decide)
  have hdone : DoneSpec (layoutModel t.dev.al) true 2 farOffset 0 1 buf v
      (indirectRw allocBlock true 2 (farOffset - directDataSize) 0 1 buf v) :=
    (indirectRw_spec heff.upd.owned hlink hpos (by decide)).1
  have hrw : dataRw allocBlock true 2 farOffset 1 (fun _ => 7) t =
      indirectRw allocBlock true 2 (farOffset - directDataSize) 0 1 buf v := dataRw_of_enter hsome
  cases hres : indirectRw allocBlock true 2 (farOffset - directDataSize) 0 1 buf v with
  | ok r =>
    -- the byte cannot have been written
    obtain ⟨m, buf', w⟩ := r
    rw [hres] at hdone
    have hupd : Upd _ 2 farOffset 1 (fun k => buf (0 + k)) v w := hdone.2.upd
    have hsound : w.Sound := ⟨hupd.owned.inj, fun p b hp => (hupd.owned.used b).mpr ⟨p, hp⟩⟩
    have hbyte := hupd.here farOffset (Nat.le_refl _) (Nat.lt_succ_self _)
    have hbuf : buf = fun _ => 7 := heff.buffer
    have htotal' : w.dev.al.totalBlocks = 1024 := hupd.owned.ok.2.1.trans htotal
    rw [byte_far hsound (by rw [htotal']; decide), hbuf] at hbyte
    exact absurd hbyte (by decide)
  | error u =>
    rw [hres] at hdone hrw
    obtain ⟨m, hupd⟩ := hdone
    have hsound : u.Sound := ⟨hupd.owned.inj, fun p b hp => (hupd.owned.used b).mpr ⟨p, hp⟩⟩
    have hok : AllocOk u.dev := hupd.owned.ok.1
    have hlike := heff.upd.like.trans hupd.like
    have hload : load 2 t = .ok t := if_pos hvalid
    have hload' : load 2 u = .ok u := if_pos (hlike.2.2.2.2.trans hvalid)
    have hwrite : write 2 farOffset 1 (fun _ => 7) t = .error u := by
      rw [write, hload]
      show Store.write allocBlock 2 farOffset 1 (fun _ => 7) t = _
      rw [Store.write, hrw]
    refine ⟨s₀, t, u, hmake, hcreate, hwrite, hload', hok, hsound, truncate_of_load hload',
      fun hback => ?_⟩
    rcases (truncate_givesBack_iff hok hsound).mp hback with hne | hblank
    · exact hne (hlike.1.trans hsize)
    · -- the first address block is still there
      have hfirst := hupd.refs _ _ hlink
      rw [refs_eq, slotRef_of_blank hblank] at hfirst
      cases hfirst

end Fs

end CoroCore.Nfs
