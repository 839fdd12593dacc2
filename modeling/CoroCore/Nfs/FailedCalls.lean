import CoroCore.Nfs.Dirent
import CoroCore.Nfs.Exhausted
import CoroCore.Nfs.GiveBack

/-!
# `create`, `mkdir` and `link` that fail

A call that fails ends where it is: nothing that it has done is taken back. `failed_call_iff` says
which failures leave the names and the inodes as they were: those before the first change, which is
the link count for `link`, and the head of the free list for `create` and `mkdir`.
-/

namespace CoroCore.Nfs

open Lib

namespace Fs

open Store

/-! ## The calls, with the dentry -/

/-- The file system, and the inode of the dentry that the call is given. -/
structure Naming where
  fs : Fs
  bound : Option Nat

/-- The rest of `__link`, with the inode loaded. -/
def linkLoaded (dir n : Nat) (name : CStr) (junk : Bytes) (s : Fs) : Res Fs := do
  let s := s.setIno n { s.ino n with nlinks := ((s.ino n).nlinks + 1) % 2 ^ 16, dirty := true }
  let (offset, s) ← findFree dir ((s.ino dir).size / direntSize + 1) 0 s
  let (_, s) ← write dir offset direntSize (makeDirent n name junk) s
  return s

/-- `__link`: the dentry gets the inode as soon as it is loaded. -/
def linkDentry (dir n : Nat) (name : CStr) (junk : Bytes) (x : Naming) : Except Naming Naming :=
  match load n x.fs with
  | .error t => .error ⟨t, x.bound⟩
  | .ok s =>
    match linkLoaded dir n name junk s with
    | .error t => .error ⟨t, some n⟩
    | .ok t => .ok ⟨t, some n⟩

/-- `create` and `mkdir` up to `__link`. -/
def newInode (type dir : Nat) (victim : Option Nat) (s : Fs) : Outcome (Nat × Fs) := do
  let s ← outcome (load dir s)
  let (n, s) ← allocInode victim s
  let s ← outcome (load n s)
  return (n, s.setIno n { s.ino n with type := type, dirty := true })

inductive NameCall
  | create (victim : Option Nat)
  | mkdir (victim : Option Nat)
  | link (old : Nat)

/-- The number that the dentry is to get, and the state at the call of `__link`. -/
def NameCall.inode (dir : Nat) (s : Fs) : NameCall → Outcome (Nat × Fs)
  | .create victim => newInode itypeFile dir victim s
  | .mkdir victim => newInode itypeDir dir victim s
  | .link old => do
    let s ← outcome (load dir s)
    return (old, s)

/-- `__link` of the inode, for a dentry with the inode `b` so far. -/
def linkNew (dir : Nat) (name : CStr) (junk : Bytes) (b : Option Nat) :
    Outcome (Nat × Fs) → Except (Stop Naming) Naming
  | .error (.failed t) => .error (.failed ⟨t, b⟩)
  | .error .panicked => .error .panicked
  | .ok (n, s) => outcome (linkDentry dir n name junk ⟨s, b⟩)

/-- The call on directory `dir`. -/
def NameCall.run (c : NameCall) (dir : Nat) (name : CStr) (junk : Bytes) (x : Naming) :
    Except (Stop Naming) Naming :=
  if maxNameLength < name.length then .error (.failed x)
  else linkNew dir name junk x.bound (c.inode dir x.fs)

/-- The file system after a call. -/
def Naming.forget : Except (Stop Naming) Naming → Outcome Fs
  | .error (.failed x) => .error (.failed x.fs)
  | .error .panicked => .error .panicked
  | .ok x => .ok x.fs

variable {s t u : Fs} {live : List Nat} {dir n : Nat} {name : CStr} {junk : Bytes} {x y : Naming}

theorem linkDentry_fs : Naming.forget (outcome (linkDentry dir n name junk x)) =
    outcome (linkEntry dir n name junk x.fs) := by
  show _ = outcome (load n x.fs >>= linkLoaded dir n name junk)
  rw [linkDentry]
  cases load n x.fs with
  | error t => rfl
  | ok s =>
    show Naming.forget (outcome _) = outcome (linkLoaded dir n name junk s)
    simp only
    cases linkLoaded dir n name junk s <;> rfl

theorem make_eq {type : Nat} {victim : Option Nat} : make type dir name victim junk s =
    if maxNameLength < name.length then .error (.failed s)
    else newInode type dir victim s >>= fun r =>
      outcome (linkEntry dir r.1 name junk r.2) >>= fun t => .ok (r.1, t) := by
  simp only [make, newInode, bind_assoc, pure_bind]
  rfl

/-- The dentry apart, these are `create`, `mkdir` and `link`. -/
theorem NameCall.run_fs (c : NameCall) : Naming.forget (c.run dir name junk x) =
    match c with
    | .create victim => (Fs.create dir name victim junk x.fs).map Prod.snd
    | .mkdir victim => (Fs.mkdir dir name victim junk x.fs).map Prod.snd
    | .link old => outcome (Fs.link dir old name junk x.fs) := by
  have hmake : ∀ type victim,
    Naming.forget (if maxNameLength < name.length then .error (.failed x) else
      linkNew dir name junk x.bound (newInode type dir victim x.fs)) =
      (make type dir name victim junk x.fs).map Prod.snd := by
    intro type victim
    rw [make_eq]
    split
    · rfl
    cases newInode type dir victim x.fs with
    | error t => cases t <;> rfl
    | ok r =>
      refine linkDentry_fs.trans ?_
      show outcome (linkEntry dir r.1 name junk r.2) =
        Except.map Prod.snd (outcome (linkEntry dir r.1 name junk r.2) >>= _)
      cases linkEntry dir r.1 name junk r.2 <;> rfl
  cases c with
  | create victim => exact hmake itypeFile victim
  | mkdir victim => exact hmake itypeDir victim
  | link old =>
    rw [run, inode]
    show _ = outcome (if maxNameLength < name.length then _ else _)
    split
    · rfl
    · cases load dir x.fs with
      | error t => rfl
      | ok s => exact linkDentry_fs

/-! ## What a failed call should leave alone -/

/-- A live entry of the directory. -/
def LiveEntry (s : Fs) (dir offset : Nat) : Prop :=
  direntSize ∣ offset ∧ offset < (s.ino dir).size ∧
    direntNumber (fun k => s.byte dir (offset + k)) ≠ 0

/-- The entries of the directory, the link counts of the inodes in use, the number of inodes and
the free list are the same. -/
structure SameNames (live : List Nat) (dir : Nat) (s t : Fs) : Prop where
  entries : ∀ offset, LiveEntry t dir offset ↔ LiveEntry s dir offset
  bytes : ∀ offset, LiveEntry s dir offset → ∀ k < direntSize,
    t.byte dir (offset + k) = s.byte dir (offset + k)
  nlinks : ∀ j ∈ live, (t.ino j).nlinks = (s.ino j).nlinks
  ninodes : t.dev.al.ninodes = s.dev.al.ninodes
  free : ∀ m, m ∉ live → t.dinode m = s.dinode m

/-- Nothing has changed, and the dentry has the inode that it had. -/
def Unaffected (live : List Nat) (dir : Nat) (x y : Naming) : Prop :=
  SameNames live dir x.fs y.fs ∧ y.bound = x.bound

theorem SameNames.trans (h : SameNames live dir s t) (h' : SameNames live dir t u) :
    SameNames live dir s u where
  entries o := (h'.entries o).trans (h.entries o)
  bytes o ho k hk := (h'.bytes o ((h.entries o).mpr ho) k hk).trans (h.bytes o ho k hk)
  nlinks j hj := (h'.nlinks j hj).trans (h.nlinks j hj)
  ninodes := h'.ninodes.trans h.ninodes
  free m hm := (h'.free m hm).trans (h.free m hm)

/-- Objects are loaded. -/
theorem Keeps.sameNames (h : Keeps s t) (hz : 0 ∉ live) (hdir : dir ∈ live)
    (hn : t.dev.al.ninodes = s.dev.al.ninodes) (hd : ∀ m, t.dinode m = s.dinode m) :
    SameNames live dir s t := by
  have hne : dir ≠ 0 := fun he => hz (he ▸ hdir)
  have hbyte := h.byte dir hne
  refine ⟨fun o => ?_, fun o _ k _ => hbyte _, fun j hj => ?_, hn, fun m _ => hd m⟩
  · simp only [LiveEntry, hbyte, (h.alike dir hne).size]
  · exact (h.alike j fun he => hz (he ▸ hj)).nlinks

theorem Still.sameNames (h : Still s t) (hz : 0 ∉ live) (hdir : dir ∈ live)
    (hn : t.dev.al.ninodes = s.dev.al.ninodes) : SameNames live dir s t :=
  h.toTab.keeps.sameNames hz hdir hn h.dinode

theorem load_sameNames {i : Nat} (h : TableInv live s) (hi : i ∈ live) (hdir : dir ∈ live)
    (hl : load i s = .ok t) : SameNames live dir s t := by
  obtain ⟨-, hkeep, -, hbyte, -⟩ := load_spec h hi hl
  have hn := load_ninodes i s
  rw [hl] at hn
  exact hkeep.sameNames h.zero hdir hn fun m => dinode_congr fun k _ => hbyte _

theorem load_error_sameNames {i : Nat} (h : TableInv live s) (hi : i ∈ live) (hdir : dir ∈ live)
    (hl : load i s = .error t) : SameNames live dir s t := by
  have hn := load_ninodes i s
  rw [hl] at hn
  exact (load_error h hi hl).sameNames h.zero hdir hn

/-! ## `__link` changes the link count -/

theorem findFree_frame {P : Fs → Prop} (h : Frame allocBlock dir P)
    (hv : ∀ s, P s → (s.ino dir).valid = true) : ∀ (fuel offset : Nat) (s : Fs), P s →
    P (endState Prod.snd (findFree dir fuel offset s)) := by
  intro fuel
  induction fuel with
  | zero => exact fun _ _ hs => hs
  | succ fuel ih =>
    intro offset s hs
    unfold findFree
    split
    · exact hs
    · have hload : load dir s = .ok s := if_pos (hv s hs)
      have hread : P (endState (fun r : Nat × Bytes × Fs => r.2.2)
          (read dir offset direntSize s)) := by
        rw [read, hload]
        exact h.dataRw false _ _ _ hs
      refine endState_bind (Q := P) hread fun r hr => ?_
      simp only
      split
      · exact hr
      split
      · exact hr
      · exact ih _ _ hr

theorem linkLoaded_frame {P : Fs → Prop} (h : Frame allocBlock dir P)
    (hv : ∀ s, P s → (s.ino dir).valid = true)
    (hs : P (s.setIno n
      { s.ino n with nlinks := ((s.ino n).nlinks + 1) % 2 ^ 16, dirty := true })) :
    P (endState id (linkLoaded dir n name junk s)) := by
  unfold linkLoaded
  refine endState_bind (Q := P) (findFree_frame h hv _ _ _ hs) fun r hr => ?_
  have hload : load dir r.2 = .ok r.2 := if_pos (hv r.2 hr)
  have hwrite : P (endState Prod.snd (write dir r.1 direntSize (makeDirent n name junk) r.2)) := by
    rw [write, hload]
    exact h.write _ _ _ hr
  exact endState_bind (Q := P) hwrite fun r hr => hr

theorem nlinks_frame (dir n c : Nat) : Frame allocBlock dir fun s : Fs =>
    (s.ino dir).valid = true ∧ (s.ino n).nlinks = c where
  took _ _ _ hs _ := hs
  failed _ _ hs _ := hs
  store _ _ _ hs := hs
  ino s x hs hx := by
    constructor
    · rw [setIno_self, hx.2.2.2]
      exact hs.1
    · rcases eq_or_ne n dir with rfl | hne
      · rw [setIno_self, hx.1]
        exact hs.2
      · rw [setIno_of_ne hne]
        exact hs.2

/-- `__link` has counted the link, however it ends. -/
theorem linkLoaded_nlinks (n : Nat) (name : CStr) (junk : Bytes) (hv : (s.ino dir).valid = true) :
    ((endState id (linkLoaded dir n name junk s)).ino n).nlinks =
      ((s.ino n).nlinks + 1) % 2 ^ 16 := by
  refine (linkLoaded_frame (nlinks_frame dir n _) (fun s hs => hs.1) ⟨?_, ?_⟩).2
  · rcases eq_or_ne dir n with rfl | hne
    · rw [setIno_self]
      exact hv
    · rw [setIno_of_ne hne]
      exact hv
  · rw [setIno_self]

/-! ## The number of inodes -/

theorem read_ninodes (i offset size : Nat) (s : Fs) :
    (endState (fun r : Nat × Bytes × Fs => r.2.2) (read i offset size s)).dev.al.ninodes =
      s.dev.al.ninodes :=
  endState_bind (Q := fun t : Fs => t.dev.al.ninodes = s.dev.al.ninodes) (load_ninodes i s)
    fun _ ht => (ninodes_frame i s.dev.al.ninodes).dataRw false _ _ _ ht

theorem write_ninodes (i offset size : Nat) (src : Bytes) (s : Fs) :
    (endState Prod.snd (write i offset size src s)).dev.al.ninodes = s.dev.al.ninodes :=
  endState_bind (Q := fun t : Fs => t.dev.al.ninodes = s.dev.al.ninodes) (load_ninodes i s)
    fun _ ht => (ninodes_frame i s.dev.al.ninodes).write _ _ _ ht

theorem findFree_ninodes : ∀ (fuel offset : Nat) (s : Fs),
    (endState Prod.snd (findFree dir fuel offset s)).dev.al.ninodes = s.dev.al.ninodes := by
  intro fuel
  induction fuel with
  | zero => exact fun _ _ => rfl
  | succ fuel ih =>
    intro offset s
    unfold findFree
    split
    · rfl
    · refine endState_bind (Q := fun t : Fs => t.dev.al.ninodes = s.dev.al.ninodes)
        (read_ninodes dir offset direntSize s) fun r hr => ?_
      simp only
      split
      · exact hr
      split
      · exact hr
      · exact (ih _ _).trans hr

theorem linkLoaded_ninodes (dir n : Nat) (name : CStr) (junk : Bytes) (s : Fs) :
    (endState id (linkLoaded dir n name junk s)).dev.al.ninodes = s.dev.al.ninodes := by
  unfold linkLoaded
  refine endState_bind (Q := fun t : Fs => t.dev.al.ninodes = s.dev.al.ninodes)
    (findFree_ninodes _ _ _) fun r hr => ?_
  exact endState_bind (Q := fun t : Fs => t.dev.al.ninodes = s.dev.al.ninodes)
    ((write_ninodes _ _ _ _ _).trans hr) fun _ hr => hr

/-- A call that has come to `__link` and fails. -/
theorem linkDentry_error (h : linkDentry dir n name junk x = .error y) :
    (load n x.fs = .error y.fs ∧ y.bound = x.bound) ∨
      ∃ s, load n x.fs = .ok s ∧ linkLoaded dir n name junk s = .error y.fs := by
  rw [linkDentry] at h
  cases hl : load n x.fs with
  | error t =>
    rw [hl] at h
    cases h
    exact .inl ⟨rfl, rfl⟩
  | ok s =>
    rw [hl] at h
    simp only at h
    split at h
    · next t hlink =>
      cases h
      exact .inr ⟨s, rfl, hlink⟩
    · cases h

theorem linkDentry_ninodes (h : linkDentry dir n name junk x = .error y) :
    y.fs.dev.al.ninodes = x.fs.dev.al.ninodes := by
  have hload := load_ninodes n x.fs
  rcases linkDentry_error h with ⟨hl, -⟩ | ⟨s, hl, hlink⟩
  · rwa [hl] at hload
  · have hn := linkLoaded_ninodes dir n name junk s
    rw [hl] at hload
    rw [hlink] at hn
    exact hn.trans hload

/-! ## Which failures change nothing -/

/-- The part of a call before its first change. -/
def NameCall.first (dir : Nat) (s : Fs) : NameCall → Res Fs
  | .create _ => load dir s >>= fun s => takeNumber s >>= fun r => .ok r.2
  | .mkdir _ => load dir s >>= fun s => takeNumber s >>= fun r => .ok r.2
  | .link old => load dir s >>= fun s => load old s

/-- The name is refused, or the call fails before its first change. -/
def NameCall.Early (c : NameCall) (dir : Nat) (name : CStr) (s : Fs) : Prop :=
  maxNameLength < name.length ∨ ∃ t, c.first dir s = .error t

/-- A call on inodes in use. The next number has its `dinode` below 2^32. -/
def NameCall.Proper (live : List Nat) (s : Fs) : NameCall → Prop
  | .create _ => (s.dinode 0).size * dinodeSize + dinodeSize < 2 ^ 32
  | .mkdir _ => (s.dinode 0).size * dinodeSize + dinodeSize < 2 ^ 32
  | .link old => old ∈ live

/-- `link` that fails. -/
theorem link_error_iff {old : Nat} (h : TableInv live x.fs) (hdir : dir ∈ live) (hold : old ∈ live)
    (hres : linkNew dir name junk x.bound (NameCall.inode dir x.fs (.link old)) =
      .error (.failed y)) :
    Unaffected live dir x y ↔ ∃ t, NameCall.first dir x.fs (.link old) = .error t := by
  rw [NameCall.inode] at hres
  rw [NameCall.first]
  cases hl : load dir x.fs with
  | error t =>
    rw [hl] at hres
    cases hres
    exact ⟨fun _ => ⟨t, rfl⟩, fun _ => ⟨load_error_sameNames h hdir hdir hl, rfl⟩⟩
  | ok s =>
    rw [hl] at hres
    have hsame := load_sameNames h hdir hdir hl
    obtain ⟨hs, hkeep, hv, -, -⟩ := load_spec h hdir hl
    rcases linkDentry_error (outcome_failed hres) with ⟨hl', hb⟩ | ⟨t, hl', hlink⟩
    · exact ⟨fun _ => ⟨_, hl'⟩,
        fun _ => ⟨hsame.trans (load_error_sameNames hs hold hdir hl'), hb⟩⟩
    · refine ⟨fun hun => ?_, fun ⟨u, hu⟩ => ?_⟩
      · -- the link was counted
        obtain ⟨-, hkeep', hv', -, hother⟩ := load_spec hs hold hl'
        have hvalid : (t.ino dir).valid = true := by
          rcases eq_or_ne dir old with rfl | hne
          · exact hv'
          · rw [hother dir (fun he => h.zero (he ▸ hdir)) hne]
            exact hv
        have hne : old ≠ 0 := fun he => h.zero (he ▸ hold)
        have hcount := linkLoaded_nlinks old name junk hvalid
        rw [hlink] at hcount
        have hold' : (t.ino old).nlinks = (x.fs.ino old).nlinks :=
          (hkeep'.alike old hne).nlinks.trans (hkeep.alike old hne).nlinks
        have hsame := hun.1.nlinks old hold
        rw [hold'] at hcount
        have hlt := (h.core.range old).nlinks
        change (y.fs.ino old).nlinks = _ at hcount
        omega
      · have hu : load old s = .error u := hu
        rw [hl'] at hu
        cases hu

/-- The number of inodes after a failure behind `alloc_inode`. -/
theorem newInode_ninodes {type : Nat} {b : Option Nat}
    (hres : linkNew dir name junk b (outcome (load n s) >>= fun t =>
      .ok (n, t.setIno n { t.ino n with type := type, dirty := true })) = .error (.failed y)) :
    y.fs.dev.al.ninodes = s.dev.al.ninodes := by
  have hn := load_ninodes n s
  cases hl : load n s with
  | error t =>
    rw [hl] at hres hn
    cases hres
    exact hn
  | ok t =>
    rw [hl] at hres hn
    exact (linkDentry_ninodes (outcome_failed hres)).trans hn

/-- `create` and `mkdir` that fail. -/
theorem newInode_error_iff {type : Nat} {victim : Option Nat} (h : TableInv live x.fs)
    (hdir : dir ∈ live) (hbound : (x.fs.dinode 0).size * dinodeSize + dinodeSize < 2 ^ 32)
    (hres : linkNew dir name junk x.bound (newInode type dir victim x.fs) = .error (.failed y)) :
    Unaffected live dir x y ↔
      ∃ t, (load dir x.fs >>= fun s => takeNumber s >>= fun r => .ok r.2) = Except.error t := by
  rw [newInode] at hres
  cases hl : load dir x.fs with
  | error t =>
    rw [hl] at hres
    cases hres
    exact ⟨fun _ => ⟨t, rfl⟩, fun _ => ⟨load_error_sameNames h hdir hdir hl, rfl⟩⟩
  | ok s =>
    rw [hl] at hres
    have hsame := load_sameNames h hdir hdir hl
    obtain ⟨hs, -, -, hbyte, -⟩ := load_spec h hdir hl
    have hd : s.dinode 0 = x.fs.dinode 0 := dinode_congr fun k _ => hbyte _
    rw [← hd] at hbound
    change linkNew dir name junk x.bound (allocInode victim s >>= _) = _ at hres
    show _ ↔ ∃ t, (takeNumber s >>= fun r => Except.ok r.2) = Except.error t
    cases ha : allocInode victim s with
    | error e =>
      rw [ha] at hres
      cases e with
      | failed t =>
        cases hres
        have ht := allocInode_failed_iff.mp ha
        obtain ⟨hstill, hn⟩ := takeNumber_error hs hbound ht
        rw [ht]
        exact ⟨fun _ => ⟨t, rfl⟩, fun _ => ⟨hsame.trans (hstill.sameNames h.zero hdir hn), rfl⟩⟩
      | panicked => cases hres
    | ok r =>
      obtain ⟨n, t⟩ := r
      rw [ha] at hres
      refine ⟨fun hun => ?_, fun ⟨u, hu⟩ => ?_⟩
      · -- the inode is counted
        have hcount := (newInode_ninodes hres).trans (allocInode_ninodes ha)
        rw [hsame.ninodes] at hcount
        have hsame' := hun.1.ninodes
        omega
      · cases ht : takeNumber s with
        | error w => exact nomatch ha.symm.trans (allocInode_failed_iff.mpr ht)
        | ok w =>
          rw [ht] at hu
          cases hu

/-- If `create`, `mkdir` or `link` fails, the entries of the directory, the link counts, the number
of inodes, the free list and the dentry are as before if and only if it failed before its first
change. -/
theorem failed_call_iff {c : NameCall} (h : TableInv live x.fs) (hdir : dir ∈ live)
    (hc : c.Proper live x.fs) (hres : c.run dir name junk x = .error (.failed y)) :
    Unaffected live dir x y ↔ c.Early dir name x.fs := by
  rw [NameCall.run] at hres
  split at hres
  · next hlong =>
    cases hres
    refine ⟨fun _ => .inl hlong, fun _ => ⟨⟨fun _ => Iff.rfl, fun _ _ _ _ => rfl, fun _ _ => rfl,
      rfl, fun _ _ => rfl⟩, rfl⟩⟩
  · next hshort =>
    rw [NameCall.Early, or_iff_right hshort]
    cases c with
    | create victim => exact newInode_error_iff h hdir hc hres
    | mkdir victim => exact newInode_error_iff h hdir hc hres
    | link old => exact link_error_iff h hdir hc hres

/-- A new file system with an address block in the inode table, in which the next number is so
large that its `dinode` can have no place. The root directory is loaded. -/
def farHead : Res Fs := do
  let s ← makeFs 1024 (fun _ _ => 0) ⟨0, 0, 0, 0, 0, fun _ => 0⟩
  let s ← load 1 (mount s)
  let s ← writeDinode 208 (s.dinode 208) s
  writeDinode 0 { s.dinode 0 with size := 4178337 } s

theorem farHead_ok : ∃ s, farHead = .ok s ∧ TableInv [1] s ∧ load 1 s = .ok s ∧ loadTable s = s ∧
    (s.ino 0).nextAddrBlock ≠ none32 ∧ s.dev.al.totalBlocks = 1024 ∧
    (s.dinode 0).type = itypeNextFreeInode ∧ (s.dinode 0).size = 4178337 := by
  have hrun : (farHead.toOption.map fun s =>
    decide ((s.ino 1).valid = true ∧ (s.ino 0).valid = true ∧
      (s.ino 0).nextAddrBlock ≠ none32 ∧ s.dev.al.totalBlocks = 1024 ∧
      (s.dinode 0).type = itypeNextFreeInode ∧ (s.dinode 0).size = 4178337)) = some true := by
    decide +kernel
  obtain ⟨s, hs, hvals⟩ := Option.map_eq_some_iff.mp hrun
  have hs := toOption_ok hs
  obtain ⟨hroot, hvalid, hnext, htotal, htype, hsize⟩ := of_decide_eq_true hvals
  refine ⟨s, hs, ?_, if_pos hroot, loadTable_of_valid hvalid, hnext, htotal, htype, hsize⟩
  obtain ⟨s₀, hmake, hs⟩ := bind_ok hs
  obtain ⟨t, hload, hs⟩ := bind_ok hs
  obtain ⟨u, h208, h0⟩ := bind_ok hs
  obtain ⟨ht, -⟩ := load_spec (makeFs_spec (by decide) hmake).table List.mem_cons_self hload
  obtain ⟨htab, -⟩ := writeDinode_spec ht.core (by decide) h208
  have hu := ht.tab htab fun i hi => (writeDinode_dinode ht.core (by decide) h208).2 i fun he => by
    rw [he] at hi
    exact absurd hi (by decide)
  obtain ⟨htab, -⟩ := writeDinode_spec hu.core (by decide) h0
  exact hu.tab htab fun i hi => (writeDinode_dinode hu.core (by decide) h0).2 i fun he =>
    hu.zero (he ▸ hi)

/-- A name that is too long, and a number whose `dinode` cannot be read. -/
theorem failed_call_iff_reads :
    (∃ s₀ y, makeFs 1024 (fun _ _ => 0) ⟨0, 0, 0, 0, 0, fun _ => 0⟩ = .ok s₀ ∧
      (NameCall.create none).run 1 (List.replicate 29 97) (fun _ => 0) ⟨mount s₀, none⟩ =
        .error (.failed y) ∧ Unaffected [1] 1 ⟨mount s₀, none⟩ y) ∧
    ∃ s y, farHead = .ok s ∧
      (NameCall.create none).run 1 [97] (fun _ => 0) ⟨s, none⟩ = .error (.failed y) ∧
      Unaffected [1] 1 ⟨s, none⟩ y := by
  constructor
  · have hmake : ((makeFs 1024 (fun _ _ => 0) ⟨0, 0, 0, 0, 0, fun _ => 0⟩).toOption.map
        fun _ => 0) = some 0 := by
      decide +kernel
    obtain ⟨s₀, hmake, -⟩ := Option.map_eq_some_iff.mp hmake
    have hmake := toOption_ok hmake
    have hnew := makeFs_spec (by decide) hmake
    have hbound : ((mount s₀).dinode 0).size * dinodeSize + dinodeSize < 2 ^ 32 := by
      rw [hnew.head]
      decide
    have hres : (NameCall.create none).run 1 (List.replicate 29 97) (fun _ => 0) ⟨mount s₀, none⟩ =
        .error (.failed ⟨mount s₀, none⟩) := if_pos (by decide)
    have hiff : Unaffected [1] 1 ⟨mount s₀, none⟩ ⟨mount s₀, none⟩ ↔
        (NameCall.create none).Early 1 _ _ :=
      failed_call_iff hnew.table List.mem_cons_self hbound hres
    exact ⟨s₀, _, hmake, hres, hiff.mpr (.inl (by decide))⟩
  · obtain ⟨s, hs, htable, hload, htab, hnext, htotal, htype, hsize⟩ := farHead_ok
    have hbound : (s.dinode 0).size * dinodeSize + dinodeSize < 2 ^ 32 := by
      rw [hsize]
      decide
    obtain ⟨temp, h₁⟩ := readDinode_ok (s := s) 0 fun hge => absurd hge (by decide)
    obtain ⟨rfl, -, -⟩ := readDinode_spec htable.core (by decide) h₁
    obtain ⟨t, h₂⟩ := readDinode_far htable.core hbound (by
      rw [htotal, hsize]
      decide) (by rw [htab]; exact hnext)
    have htake : takeNumber s = .error t := by
      rw [takeNumber, h₁, htab]
      show (if (s.dinode 0).type ≠ itypeNextFreeInode then _ else _) = _
      rw [if_neg (not_not.mpr htype), h₂]
      rfl
    have hres : (NameCall.create none).run 1 [97] (fun _ => 0) ⟨s, none⟩ =
        .error (.failed ⟨t, none⟩) := by
      rw [NameCall.run, if_neg (by decide), NameCall.inode, newInode, hload]
      show linkNew 1 [97] _ none (allocInode none s >>= _) = _
      rw [allocInode_failed_iff.mpr htake]
      rfl
    have hiff : Unaffected [1] 1 ⟨s, none⟩ ⟨t, none⟩ ↔ (NameCall.create none).Early 1 _ _ :=
      failed_call_iff htable List.mem_cons_self hbound hres
    refine ⟨s, _, hs, hres, hiff.mpr (.inr ⟨t, ?_⟩)⟩
    show (load 1 s >>= _) = _
    rw [hload]
    show (takeNumber s >>= _) = _
    rw [htake]
    rfl

/-! ## `link` on a full disk -/

/-- An empty directory needs a block for its first entry. -/
theorem linkLoaded_exhausted (n : Nat) (name : CStr) (junk : Bytes) (hv : (s.ino dir).valid = true)
    (hsize : (s.ino dir).size = 0) (haddr : (s.ino dir).addrs 0 = none32) (hne : dir ≠ n)
    (hx : Exhausted s.dev) :
    ∃ t, linkLoaded dir n name junk s = .error t := by
  obtain ⟨e, he⟩ := hx.fails
  let u : Fs := s.setIno n { s.ino n with nlinks := ((s.ino n).nlinks + 1) % 2 ^ 16, dirty := true }
  have hino : u.ino dir = s.ino dir := setIno_of_ne hne
  have hfind : findFree dir ((u.ino dir).size / direntSize + 1) 0 u = .ok (0, u) := by
    rw [hino, hsize, findFree, if_pos (by rw [hino, hsize])]
  have hload : load dir u = .ok u := if_pos (by rw [hino]; exact hv)
  have hwrite : write dir 0 direntSize (makeDirent n name junk) u = .error { u with dev := e } := by
    rw [write, hload]
    show Store.write allocBlock dir 0 direntSize _ u = _
    rw [Store.write, dataRw_direct (by decide) (by decide) (by decide), directDataBlockRw,
      if_pos (by rw [hino]; exact haddr), if_pos rfl, show u.dev = s.dev from rfl, he]
    rfl
  refine ⟨{ u with dev := e }, ?_⟩
  show (findFree dir ((u.ino dir).size / direntSize + 1) 0 u >>= _) = _
  rw [hfind]
  show (write dir 0 direntSize (makeDirent n name junk) u >>= _) = _
  rw [hwrite]
  rfl

/-- A file and an empty directory are made. A write to the file fails since it needs more blocks
than there are; then a link to the file in the directory fails, and the file has two links and one
entry. -/
theorem failed_link_counted : ∃ s₀ t u v y,
    makeFs 1024 (fun _ _ => 0) ⟨0, 0, 0, 0, 0, fun _ => 0⟩ = .ok s₀ ∧
    create 1 [102] none (fun _ => 0) (mount s₀) = .ok (2, t) ∧
    mkdir 1 [100] none (fun _ => 0) t = .ok (3, u) ∧
    write 2 farOffset 1 (fun _ => 7) u = .error v ∧ (v.ino 2).nlinks = 1 ∧
    (NameCall.link 2).run 3 [120] (fun _ => 0) ⟨v, none⟩ = .error (.failed y) ∧
    (y.fs.ino 2).nlinks = 2 ∧
    ¬Unaffected [3, 2, 1] 3 ⟨v, none⟩ y := by
  have hrun : ((outcome (makeFs 1024 (fun _ _ => 0) ⟨0, 0, 0, 0, 0, fun _ => 0⟩) >>= fun s =>
      create 1 [102] none (fun _ => 0) (mount s) >>= fun r =>
        mkdir 1 [100] none (fun _ => 0) r.2 >>= fun q => .ok (r.1, q)).toOption.map fun r =>
        decide (r.1 = 2 ∧ r.2.1 = 3 ∧ (r.2.2.ino 2).valid = true ∧ (r.2.2.ino 2).nlinks = 1 ∧
          (r.2.2.ino 2).cacheRawIndirectOffset = none32 ∧ r.2.2.dev.al.totalBlocks = 1024 ∧
          (r.2.2.ino 3).valid = true ∧ (r.2.2.ino 3).size = 0 ∧ (r.2.2.ino 3).addrs 0 = none32)) =
      some true := by
    decide +kernel
  obtain ⟨⟨n, m, u⟩, hrun, hvals⟩ := Option.map_eq_some_iff.mp hrun
  obtain ⟨s₀, hmake, hrun⟩ := outcome_bind_ok (toOption_ok hrun)
  obtain ⟨⟨n, t⟩, hcreate, hrun⟩ := bind_ok hrun
  obtain ⟨⟨m, u⟩, hmkdir, hrun⟩ := bind_ok hrun
  cases hrun
  obtain ⟨rfl, rfl, hvalid, hlinks, hcache, htotal, hvdir, hsize, haddr⟩ := of_decide_eq_true hvals
  have haccounts := ((makeFs_spec (by decide) hmake).accounts.make (by decide) List.mem_cons_self
    (by decide) (by decide) hcreate).make (by decide) (by decide) (by decide) (by decide) hmkdir
  have hpos : u.PosAt 2 (farOffset - directDataSize) := by
    intro hhit
    rw [hcache] at hhit
    exact absurd hhit (by decide)
  obtain ⟨v, hrw, hkept, hx⟩ := dataRw_far_fails (fun _ => 7) haccounts.table.core.owned hpos
    (by decide) (by rw [htotal]; decide) (by decide)
  have hload : load 2 u = .ok u := if_pos hvalid
  have hwrite : write 2 farOffset 1 (fun _ => 7) u = .error v := by
    rw [write, hload]
    show Store.write allocBlock 2 farOffset 1 (fun _ => 7) u = _
    rw [Store.write, hrw]
  have hother : v.ino 3 = u.ino 3 := hkept.other 3 (by decide)
  obtain ⟨-, hlike, -, -, hlikev⟩ := hkept.like
  have hlinks' : (v.ino 2).nlinks = 1 := hlike.trans hlinks
  have hload₂ : load 2 v = .ok v := if_pos (hlikev.trans hvalid)
  have hload₃ : load 3 v = .ok v := if_pos (by rw [hother]; exact hvdir)
  obtain ⟨w, hlink⟩ := linkLoaded_exhausted 2 [120] (fun _ => 0)
    (by rw [hother]; exact hvdir) (by rw [hother]; exact hsize) (by rw [hother]; exact haddr)
    (by decide) hx
  have hcount := linkLoaded_nlinks 2 [120] (fun _ => 0) (show (v.ino 3).valid = true by
    rw [hother]
    exact hvdir)
  rw [hlink, hlinks'] at hcount
  have hres : (NameCall.link 2).run 3 [120] (fun _ => 0) ⟨v, none⟩ =
      .error (.failed ⟨w, some 2⟩) := by
    rw [NameCall.run, if_neg (by decide), NameCall.inode, hload₃]
    show outcome (linkDentry 3 2 [120] (fun _ => 0) ⟨v, none⟩) = _
    rw [linkDentry, hload₂]
    simp only [hlink]
    rfl
  refine ⟨s₀, t, u, v, _, hmake, hcreate, hmkdir, hwrite, hlinks', hres, hcount, fun hun => ?_⟩
  have hsame : (w.ino 2).nlinks = (v.ino 2).nlinks := hun.1.nlinks 2 (by decide)
  rw [hlinks', show (w.ino 2).nlinks = _ from hcount] at hsame
  exact absurd hsame (by decide)

end Fs

end CoroCore.Nfs
