import CoroCore.Nfs.Accounting
import CoroCore.Nfs.VolumeRun

/-!
# The states that are reached

What is on the disk and in the valid objects (`current`) in every state that calls reach.

* `volume_stands`: it is the volume, each name in one entry, with the right sizes, bytes and links;
* `numbers_kept`: the free list holds the numbers below `top` that are not in use, each once;
* `blocks_kept`: the bitmap and the superblock account for the blocks, after `unlink` and `truncate`
  too.
-/

namespace CoroCore.Nfs

open Lib

namespace Fs

/-- The inodes as `load` would give them. -/
def current (s : Fs) : Fs := { s with ino := inodeOf s }

/-- The file system is the volume `v`. -/
structure Stands (v : Volume) (s : Fs) : Prop where
  dirs : ∀ d ∈ v.dirs, (s.current.ino d).type = itypeDir
  files : ∀ i ∈ v.files, (s.current.ino i).type = itypeFile
  size : ∀ i ∈ v.files, (s.current.ino i).size = v.size i
  byte : ∀ i ∈ v.files, ∀ p, s.current.byte i p = v.byte i p
  names : Holds (s.current.slots v.dirs) v.names
  nlinks : ∀ i, v.InUse i → i ≠ 1 →
    (s.current.ino i).nlinks = (carriers (s.current.slots v.dirs) i).ncard
  named : ∀ i, v.InUse i → i ≠ 1 → ∃ p, v.names p = some i

variable {s : Fs} {v : Volume} {live freed : List Nat} {top i : Nat} {x : Mount}

theorem TableInv.refs_current (h : TableInv live s) (hi : i ∈ 0 :: live) (p : Slot) :
    s.current.refs (i, p) = s.refs (i, p) :=
  Store.slotRef_alike (h.alike_inodeOf hi) p

theorem TableInv.byte_current (h : TableInv live s) (hi : i ∈ 0 :: live) (p : Nat) :
    s.current.byte i p = s.byte i p := by
  rw [Store.byte_eq, Store.byte_eq, h.refs_current hi]
  rfl

theorem TableInv.sameFile_current (h : TableInv live s) (hi : i ∈ live) :
    SameFile i s s.current := by
  have hmem := List.mem_cons_of_mem 0 hi
  have halike : (s.ino i).Alike (s.current.ino i) := h.alike_inodeOf hmem
  exact ⟨⟨halike.size, halike.type, h.byte_current hmem,
    fun p b hb => (h.refs_current hmem p).trans hb, halike.blank⟩, halike.nlinks⟩

theorem Represents.stands (h : Represents live freed top v s) : Stands v s := by
  have hsame : ∀ i ∈ live, SameFile i s s.current := fun i hi => h.mounted.table.sameFile_current hi
  have hslots : s.current.slots v.dirs = s.slots v.dirs :=
    slots_congr fun d hd => (hsame d (h.dir_mem hd)).toSameData
  have hfile : ∀ i ∈ v.files, SameFile i s s.current := fun i hi => hsame i (h.file_mem hi)
  refine ⟨fun d hd => ((hsame d (h.dir_mem hd)).type).trans (h.dirOk d hd).type,
    fun i hi => (hfile i hi).type.trans (h.type i hi),
    fun i hi => (hfile i hi).size.trans (h.size i hi),
    fun i hi p => ((hfile i hi).byte p).trans (h.byte i hi p), ?_, fun i hi hroot => ?_,
    fun i hi => h.named i ((h.inUse i).mpr hi)⟩
  · rw [hslots]
    exact h.names
  · have hlive := (h.inUse i).mpr hi
    rw [(hsame i hlive).nlinks, h.nlinks i hlive hroot, hslots,
      h.names.ncard_carriers, Volume.links]

theorem Represents.dinode_current (h : Represents live freed top v s) (m : Nat) :
    s.current.dinode m = s.dinode m :=
  dinode_congr fun _ _ => h.mounted.table.byte_current List.mem_cons_self _

section Reached

variable {nblocks : Nat} {disk : Nat → Bytes} {junk : Dinode} {s₀ : Fs} {events : List Event}

/-- In every state that is reached, what is on the disk and in the valid objects is the volume. -/
theorem volume_stands (hfit : Fits nblocks) (hmake : makeFs nblocks disk junk = .ok s₀)
    (hrun : Run (Guarded Mount.Step Mount.Asked) ⟨mount s₀, Volume.new⟩ events x) :
    Stands x.vol x.fs := by
  obtain ⟨live, freed, top, h⟩ := (volume_refined hfit hmake hrun).2
  exact h.stands

theorem volume_stands_sample : ∃ s₀, ∃ x : Mount,
    makeFs 1024 (fun _ _ => 0) ⟨0, 0, 0, 0, 0, fun _ => 0⟩ = .ok s₀ ∧
    Stands x.vol x.fs := by
  obtain ⟨s₀, x, hmake, hrun, -⟩ := sample_run
  exact ⟨s₀, x, hmake, volume_stands (by decide) hmake hrun⟩

/-- The free list runs through the numbers that are not in use. -/
structure NumbersKept (v : Volume) (s : Fs) (freed : List Nat) (top : Nat) : Prop where
  list : Chain (fun m => (s.current.dinode m).size) top (s.current.dinode 0).size freed
  tags : ∀ m ∈ freed, (s.current.dinode m).type = itypeNextFreeInode
  once : freed.Nodup
  free : ∀ m, 1 ≤ m → m < top → (m ∈ freed ↔ ¬v.InUse m)
  below : ∀ i, v.InUse i → 1 ≤ i ∧ i < top
  few : top ≤ 2 ^ 25 + 3

theorem numbers_kept (hfit : Fits nblocks) (hmake : makeFs nblocks disk junk = .ok s₀)
    (hrun : Run (Guarded Mount.Step Mount.Asked) ⟨mount s₀, Volume.new⟩ events x) :
    ∃ freed top, NumbersKept x.vol x.fs freed top := by
  obtain ⟨live, freed, top, h⟩ := (volume_refined hfit hmake hrun).2
  have hlist := h.mounted.list
  refine ⟨freed, top, ?_, fun m hm => ?_, hlist.acyclic, fun m h1 h2 => ?_,
    fun i hi => hlist.below i (.inl ((h.inUse i).mpr hi)), h.few⟩
  · simp only [h.dinode_current]
    exact hlist.list
  · rw [h.dinode_current]
    exact hlist.tags m hm
  · rw [← h.inUse]
    exact ⟨hlist.disjoint m, (h.mounted.full m h1 h2).resolve_left⟩

theorem numbers_kept_sample : ∃ s₀, ∃ x : Mount,
    makeFs 1024 (fun _ _ => 0) ⟨0, 0, 0, 0, 0, fun _ => 0⟩ = .ok s₀ ∧
    ∃ freed top, NumbersKept x.vol x.fs freed top := by
  obtain ⟨s₀, x, hmake, hrun, -⟩ := sample_run
  exact ⟨s₀, x, hmake, numbers_kept (by decide) hmake hrun⟩

/-- The blocks that the inode table and the inodes in use refer to are the blocks in use. -/
theorem blocks_kept (hfit : Fits nblocks) (hmake : makeFs nblocks disk junk = .ok s₀)
    (hrun : Run (Guarded Mount.Step Mount.Asked) ⟨mount s₀, Volume.new⟩ events x) :
    ∃ live, (∀ i, i ∈ live ↔ x.vol.InUse i) ∧ Accounted (0 :: live) x.fs := by
  obtain ⟨live, freed, top, h⟩ := (volume_refined hfit hmake hrun).2
  exact ⟨live, h.inUse, h.mounted.table.accounted⟩

theorem blocks_kept_sample : ∃ s₀, ∃ x : Mount,
    makeFs 1024 (fun _ _ => 0) ⟨0, 0, 0, 0, 0, fun _ => 0⟩ = .ok s₀ ∧
    ∃ live, (∀ i, i ∈ live ↔ x.vol.InUse i) ∧ Accounted (0 :: live) x.fs := by
  obtain ⟨s₀, x, hmake, hrun, -⟩ := sample_run
  exact ⟨s₀, x, hmake, blocks_kept (by decide) hmake hrun⟩

end Reached

end Fs

end CoroCore.Nfs
