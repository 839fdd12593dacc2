import CoroCore.Lib.SlotMap
import CoroCore.Nfs.Naming
import Mathlib.Order.Interval.Finset.Nat

/-!
# What the file system is for

A volume has directories, which give names to directories and files, and files, which hold bytes
(`Volume`). No block, inode object or position is part of it.

`Represents`: the mounted file system `s` represents the volume `v`. Each name is in one entry of
its directory, each inode in use other than the root has as many links as names, and at least one,
and the numbers in use are those of the directories and files. Each call keeps this:

* `Represents.quiet`: calls that change no file;
* `Represents.link`, `Represents.make`, `Represents.unlink`: the calls that go by a name;
* `Represents.write`, `Represents.truncate`: the calls that change a file.
-/

namespace CoroCore.Nfs

open Lib Function

structure Volume where
  dirs : List Nat
  files : List Nat
  names : Nat × CStr → Option Nat
  size : Nat → Nat
  byte : Nat → Nat → UInt8

namespace Volume

/-- A new volume: an empty root directory. -/
def new : Volume := ⟨[1], [], fun _ => none, fun _ => 0, fun _ _ => 0⟩

def InUse (v : Volume) (i : Nat) : Prop := i ∈ v.dirs ∨ i ∈ v.files

/-- How many names an inode has. -/
noncomputable def links (v : Volume) (i : Nat) : Nat := (keys v.names i).ncard

def enter (v : Volume) (dir : Nat) (name : CStr) (n : Nat) : Volume :=
  { v with names := update v.names (dir, name) (some n) }

/-- A new file is empty. -/
def addFile (v : Volume) (n : Nat) : Volume :=
  { v with files := n :: v.files, size := update v.size n 0, byte := update v.byte n fun _ => 0 }

def addDir (v : Volume) (n : Nat) : Volume := { v with dirs := n :: v.dirs }

/-- `n` bytes of `src` are written at offset `P`. -/
def write (v : Volume) (i P n : Nat) (src : Bytes) : Volume :=
  { v with
    size := update v.size i (max (v.size i) (P + n))
    byte := update v.byte i fun p => if P ≤ p ∧ p < P + n then src (p - P) else v.byte i p }

def truncate (v : Volume) (i : Nat) : Volume :=
  { v with size := update v.size i 0, byte := update v.byte i fun _ => 0 }

open Classical in
/-- The name goes, and inode `i` with its last name. -/
noncomputable def unlink (v : Volume) (dir : Nat) (name : CStr) (i : Nat) : Volume :=
  let names := update v.names (dir, name) none
  if ∃ p, names p = some i then { v with names := names }
  else { v with names := names, dirs := v.dirs.filter (· ≠ i), files := v.files.filter (· ≠ i) }

variable {v : Volume} {i P n p : Nat} {src : Bytes}

theorem enter_names {dir : Nat} {name : CStr} :
    (v.enter dir name n).names = update v.names (dir, name) (some n) := rfl

theorem write_size : (v.write i P n src).size i = max (v.size i) (P + n) := update_self ..

theorem write_byte : (v.write i P n src).byte i p =
    if P ≤ p ∧ p < P + n then src (p - P) else v.byte i p :=
  congrFun (update_self (f := v.byte) ..) p

theorem truncate_size : (v.truncate i).size i = 0 := update_self ..

theorem truncate_byte : (v.truncate i).byte i p = 0 := congrFun (update_self (f := v.byte) ..) p

end Volume

namespace Fs

variable {s t : Fs} {v : Volume} {live freed dirs : List Nat} {top dir i k n : Nat} {name : CStr}

/-! ## The entries of all directories -/

/-- The entries in use of the directories `dirs`: at `(dir, k)`, entry `k` of `dir`. -/
def slots (s : Fs) (dirs : List Nat) (p : Nat × Nat) : Option ((Nat × CStr) × Nat) :=
  if p.1 ∈ dirs ∧ p.2 < s.entries p.1
    then (s.dirent p.1 p.2).map fun e => ((p.1, e.1), e.2) else none

theorem slots_eq_some {p : Nat × Nat} {q : Nat × CStr} : s.slots dirs p = some (q, i) ↔
    q.1 = p.1 ∧ p.1 ∈ dirs ∧ p.2 < s.entries p.1 ∧ s.dirent p.1 p.2 = some (q.2, i) := by
  unfold slots
  split
  · next hp =>
    rw [Option.map_eq_some_iff]
    constructor
    · rintro ⟨e, he, heq⟩
      obtain ⟨rfl, rfl⟩ := Prod.mk.inj heq
      exact ⟨rfl, hp.1, hp.2, he⟩
    · rintro ⟨hq, -, -, he⟩
      exact ⟨_, he, by rw [← hq]⟩
  · next hp =>
    exact ⟨fun he => absurd he.symm (Option.some_ne_none _),
      fun hq => absurd ⟨hq.2.1, hq.2.2.1⟩ hp⟩

theorem slots_congr (hd : ∀ d, d ∈ dirs → SameData d s t) : t.slots dirs = s.slots dirs := by
  funext p
  unfold slots
  by_cases hp : p.1 ∈ dirs
  · rw [(hd p.1 hp).entries, (hd p.1 hp).dirent]
  · rw [if_neg fun h => hp h.1, if_neg fun h => hp h.1]

/-- A directory without entries in use may be counted or not. -/
theorem slots_cons (hn : s.entries n = 0) : s.slots (n :: dirs) = s.slots dirs := by
  funext p
  unfold slots
  refine if_congr ?_ rfl rfl
  rw [List.mem_cons]
  refine ⟨fun hp => ⟨hp.1.resolve_left fun he => ?_, hp.2⟩, fun hp => ⟨.inr hp.1, hp.2⟩⟩
  rw [he, hn] at hp
  exact Nat.not_lt_zero _ hp.2

theorem slots_filter (hi : ∀ k < s.entries i, s.dirent i k = none) :
    s.slots (dirs.filter (· ≠ i)) = s.slots dirs := by
  funext p
  unfold slots
  rcases eq_or_ne p.1 i with he | hne
  · have hnot : p.1 ∉ dirs.filter (· ≠ i) :=
      fun hm => of_decide_eq_true (List.mem_filter.mp hm).2 he
    rw [if_neg fun hp => hnot hp.1]
    split
    · next hp => rw [he] at hp ⊢; rw [hi p.2 hp.2]; rfl
    · rfl
  · refine if_congr (and_congr_left fun _ => ?_) rfl rfl
    rw [List.mem_filter, decide_eq_true_iff, and_iff_left hne]

theorem FilledEntry.slots {e : Option (CStr × Nat)} (h : FilledEntry dir k e s t)
    (hdir : dir ∈ dirs) (hk : k ≤ s.entries dir) (hother : ∀ d ∈ dirs, d ≠ dir → SameData d s t) :
    t.slots dirs = update (s.slots dirs) (dir, k) (e.map fun e => ((dir, e.1), e.2)) := by
  funext p
  rcases eq_or_ne p (dir, k) with rfl | hp
  · have hin : k < t.entries dir := by
      rw [h.entries]
      exact Nat.lt_of_lt_of_le (Nat.lt_succ_self k) (Nat.le_max_right _ _)
    rw [update_self, Fs.slots, h.here, if_pos ⟨hdir, hin⟩]
  rw [update_of_ne hp]
  unfold Fs.slots
  by_cases hd : p.1 ∈ dirs
  · rcases eq_or_ne p.1 dir with he | hne
    · have hpk : p.2 ≠ k := fun hpk => hp (Prod.ext he hpk)
      rw [he, h.there p.2 hpk, h.entries]
      refine if_congr (and_congr_right fun _ => ?_) rfl rfl
      omega
    · rw [(hother p.1 hd hne).entries, (hother p.1 hd hne).dirent]
  · rw [if_neg fun h => hd h.1, if_neg fun h => hd h.1]

/-- The places of the entries. -/
def places (s : Fs) (dirs : List Nat) : Finset (Nat × Nat) :=
  dirs.toFinset.biUnion fun d => (Finset.range (s.entries d)).image (Prod.mk d)

theorem mem_places {p : Nat × Nat} : p ∈ s.places dirs ↔ p.1 ∈ dirs ∧ p.2 < s.entries p.1 := by
  simp only [places, Finset.mem_biUnion, List.mem_toFinset, Finset.mem_image, Finset.mem_range]
  constructor
  · rintro ⟨d, hd, k, hk, rfl⟩
    exact ⟨hd, hk⟩
  · exact fun hp => ⟨p.1, hp.1, p.2, hp.2, rfl⟩

theorem slots_finite : {p | s.slots dirs p ≠ none}.Finite := by
  refine (s.places dirs).finite_toSet.subset fun p hp => ?_
  rw [Finset.mem_coe, mem_places]
  exact not_not.mp fun hnot => hp (if_neg hnot)

/-! ## The invariant -/

structure Represents (live freed : List Nat) (top : Nat) (v : Volume) (s : Fs) : Prop where
  mounted : Mounted live freed top s
  inUse : ∀ i, i ∈ live ↔ v.InUse i
  disjoint : ∀ d ∈ v.dirs, d ∉ v.files
  root : 1 ∈ v.dirs
  dirOk : ∀ d ∈ v.dirs, DirOk d s
  type : ∀ i ∈ v.files, (s.ino i).type = itypeFile
  size : ∀ i ∈ v.files, (s.ino i).size = v.size i
  byte : ∀ i ∈ v.files, ∀ p, s.byte i p = v.byte i p
  blank : ∀ i ∈ live, (s.ino i).size = 0 → (s.ino i).Blank
  names : Holds (s.slots v.dirs) v.names
  target : ∀ p i, v.names p = some i → i ∈ live ∧ i ≠ 1 ∧ i ≠ p.1
  named : ∀ i ∈ live, i ≠ 1 → ∃ p, v.names p = some i
  nlinks : ∀ i ∈ live, i ≠ 1 → (s.ino i).nlinks = v.links i
  few : top ≤ 2 ^ 25 + 3

theorem Represents.keys_finite (h : Represents live freed top v s) (i : Nat) :
    (keys v.names i).Finite :=
  h.names.keys_finite slots_finite

theorem Represents.dir_mem (h : Represents live freed top v s) (hd : dir ∈ v.dirs) : dir ∈ live :=
  (h.inUse dir).mpr (.inl hd)

theorem Represents.file_mem (h : Represents live freed top v s) (hi : i ∈ v.files) : i ∈ live :=
  (h.inUse i).mpr (.inr hi)

/-- Where the free list is empty, each number but the first two is the number of a named inode. -/
theorem Represents.top_le (h : Represents live freed top v s) (hfreed : freed = []) :
    top ≤ 2 ^ 25 + 2 := by
  let number : Nat × Nat → Nat := fun p => ((s.slots v.dirs p).map Prod.snd).getD 0
  have hsub : Finset.Ico 2 top ⊆ (s.places v.dirs).image number := by
    intro m hm
    obtain ⟨hge, hlt⟩ := Finset.mem_Ico.mp hm
    have hlive : m ∈ live := by
      refine (h.mounted.full m (Nat.le_of_succ_le hge) hlt).resolve_right fun hf => ?_
      rw [hfreed] at hf
      exact List.not_mem_nil hf
    obtain ⟨q, hq⟩ := h.named m hlive (Nat.ne_of_gt hge)
    obtain ⟨p, hp⟩ := h.names.complete q m hq
    obtain ⟨-, hd, hk, -⟩ := slots_eq_some.mp hp
    refine Finset.mem_image.mpr ⟨p, mem_places.mpr ⟨hd, hk⟩, ?_⟩
    show ((s.slots v.dirs p).map Prod.snd).getD 0 = m
    rw [hp]
    rfl
  have hplaces : (s.places v.dirs).card ≤ 2 ^ 25 := by
    refine card_entries_le h.mounted.table.core.owned _ fun p hp => ?_
    obtain ⟨hd, hk⟩ := mem_places.mp hp
    exact (h.dirOk p.1 hd).paged p.2 hk
  have hcard := (Finset.card_le_card hsub).trans (Finset.card_image_le.trans hplaces)
  rw [Nat.card_Ico] at hcard
  exact Nat.sub_le_iff_le_add.mp hcard

/-- No file changes: `read`, `lookup`, `get_inode`, `flush`. -/
theorem Represents.quiet (h : Represents live freed top v s) (ht : Mounted live freed top t)
    (hs : ∀ j, j ≠ 0 → SameFile j s t) : Represents live freed top v t := by
  have hne : ∀ j ∈ live, j ≠ 0 := fun j hj => h.mounted.ne_zero hj
  have hdir : ∀ d ∈ v.dirs, SameFile d s t := fun d hd => hs d (hne d (h.dir_mem hd))
  have hfile : ∀ i ∈ v.files, SameFile i s t := fun i hi => hs i (hne i (h.file_mem hi))
  refine ⟨ht, h.inUse, h.disjoint, h.root, fun d hd => (hdir d hd).dirOk (h.dirOk d hd),
    fun i hi => (hfile i hi).type.trans (h.type i hi),
    fun i hi => (hfile i hi).size.trans (h.size i hi),
    fun i hi p => ((hfile i hi).byte p).trans (h.byte i hi p), fun i hi hzero => ?_, ?_,
    h.target, h.named, fun i hi hroot => (hs i (hne i hi)).nlinks.trans (h.nlinks i hi hroot),
    h.few⟩
  · exact (hs i (hne i hi)).blank (h.blank i hi ((hs i (hne i hi)).size.symm.trans hzero))
  · rw [slots_congr fun d hd => (hdir d hd).toSameData]
    exact h.names

/-! ## Files -/

/-- A file without blocks holds zeros. -/
theorem byte_of_blank (h : (s.ino i).Blank) (p : Nat) : s.byte i p = 0 := by
  rw [Store.byte_eq, Store.refs_eq, Store.slotRef_of_blank h]

/-- Inode `i` is a file, and the others hold the same files. -/
theorem Represents.file {w : Volume} (h : Represents live freed top v s) (hi : i ∈ v.files)
    (ht : Mounted live freed top t) (htype : (t.ino i).type = itypeFile)
    (hnlinks : (t.ino i).nlinks = (s.ino i).nlinks) (hblank : (t.ino i).size = 0 → (t.ino i).Blank)
    (hs : ∀ j, j ≠ 0 → j ≠ i → SameFile j s t) (hdirs : w.dirs = v.dirs)
    (hfiles : w.files = v.files) (hnames : w.names = v.names) (hsize : (t.ino i).size = w.size i)
    (hbyte : ∀ p, t.byte i p = w.byte i p)
    (hother : ∀ j, j ≠ i → w.size j = v.size j ∧ w.byte j = v.byte j) :
    Represents live freed top w t := by
  have hdir : ∀ d ∈ v.dirs, SameFile d s t := fun d hd =>
    hs d (h.mounted.ne_zero (h.dir_mem hd)) fun he => h.disjoint d hd (he ▸ hi)
  have hfile : ∀ j ∈ v.files, j = i ∨ SameFile j s t ∧ w.size j = v.size j ∧
      w.byte j = v.byte j := by
    intro j hj
    rcases eq_or_ne j i with he | hne
    · exact .inl he
    · exact .inr ⟨hs j (h.mounted.ne_zero (h.file_mem hj)) hne, hother j hne⟩
  refine ⟨ht, fun j => ?_, ?_, ?_, ?_, fun j hj => ?_, fun j hj => ?_, fun j hj p => ?_,
    fun j hj hzero => ?_, ?_, ?_, ?_, fun j hj hroot => ?_, h.few⟩
  · rw [h.inUse, Volume.InUse, Volume.InUse, hdirs, hfiles]
  · rw [hdirs, hfiles]
    exact h.disjoint
  · rw [hdirs]
    exact h.root
  · rw [hdirs]
    exact fun d hd => (hdir d hd).dirOk (h.dirOk d hd)
  · rw [hfiles] at hj
    rcases hfile j hj with rfl | ⟨hsame, -⟩
    · exact htype
    · exact hsame.type.trans (h.type j hj)
  · rw [hfiles] at hj
    rcases hfile j hj with rfl | ⟨hsame, hw, -⟩
    · exact hsize
    · rw [hw, hsame.size, h.size j hj]
  · rw [hfiles] at hj
    rcases hfile j hj with rfl | ⟨hsame, -, hw⟩
    · exact hbyte p
    · rw [hw, hsame.byte, h.byte j hj]
  · rcases eq_or_ne j i with rfl | hne
    · exact hblank hzero
    · have hsame := hs j (h.mounted.ne_zero hj) hne
      exact hsame.blank (h.blank j hj (hsame.size.symm.trans hzero))
  · rw [hdirs, hnames, slots_congr fun d hd => (hdir d hd).toSameData]
    exact h.names
  · rw [hnames]
    exact h.target
  · rw [hnames]
    exact h.named
  · rw [Volume.links, hnames]
    refine Eq.trans ?_ (h.nlinks j hj hroot)
    rcases eq_or_ne j i with rfl | hne
    · exact hnlinks
    · exact (hs j (h.mounted.ne_zero hj) hne).nlinks

theorem Represents.write {offset size : Nat} {src : Bytes} (h : Represents live freed top v s)
    (hi : i ∈ v.files) (hsize : 0 < size) (hpos : s.PosAt i (offset - directDataSize))
    (hend : offset + size < 2 ^ 32) (hres : Fs.write i offset size src s = .ok (n, t)) :
    Represents live freed top (v.write i offset size src) t := by
  obtain ⟨ht, hw⟩ := h.mounted.write (h.file_mem hi) hsize hpos hend hres
  refine h.file hi ht (hw.type.trans (h.type i hi)) hw.nlinks
    (fun hzero => ?_) hw.other rfl rfl rfl ?_
    (fun p => ?_) fun j hj => ⟨update_of_ne hj _ _, update_of_ne hj _ _⟩
  · rw [hw.size] at hzero
    omega
  · rw [hw.size, h.size i hi, Volume.write_size]
  · rw [Volume.write_byte]
    split
    · next hp =>
      rw [← hw.here (p - offset) (by omega), Nat.add_sub_of_le hp.1]
    · next hp => rw [hw.there p (by omega), h.byte i hi]

theorem Represents.truncate (h : Represents live freed top v s) (hi : i ∈ v.files)
    (hres : Fs.truncate i s = .ok t) : Represents live freed top (v.truncate i) t := by
  obtain ⟨ht, hempty, helse⟩ := h.mounted.truncate (h.file_mem hi) (h.blank i (h.file_mem hi)) hres
  refine h.file hi ht (hempty.type.trans (h.type i hi)) hempty.nlinks (fun _ => hempty.blank)
    (fun j hj hji => (helse j hj hji).1) rfl rfl rfl ?_ (fun p => ?_)
    fun j hj => ⟨update_of_ne hj _ _, update_of_ne hj _ _⟩
  · rw [hempty.size, Volume.truncate_size]
  · rw [byte_of_blank hempty.blank, Volume.truncate_byte]

/-! ## Names -/

/-- Entries stay where they are: a name that `v'` has too is in the entry that it was in. -/
def Stays (v : Volume) (s : Fs) (v' : Volume) (t : Fs) : Prop :=
  ∀ p q i, s.slots v.dirs p = some (q, i) → v'.names q = some i → t.slots v'.dirs p = some (q, i)

/-- A free entry of the directory is filled with a new name. -/
theorem Represents.filled (h : Represents live freed top v s) (hdir : dir ∈ v.dirs)
    (hfresh : v.names (dir, name) = none)
    (hslot : ∃ k, (k = s.entries dir ∨ k < s.entries dir ∧ s.dirent dir k = none) ∧
      FilledEntry dir k (some (name, n)) s t)
    (hother : ∀ d ∈ v.dirs, d ≠ dir → SameData d s t) :
    DirOk dir t ∧ Holds (t.slots v.dirs) (update v.names (dir, name) (some n)) ∧
      ∀ p q i, s.slots v.dirs p = some (q, i) → t.slots v.dirs p = some (q, i) := by
  obtain ⟨k, hk, hfilled⟩ := hslot
  have hle : k ≤ s.entries dir := hk.elim Nat.le_of_eq fun hk => Nat.le_of_lt hk.1
  have hfree : s.slots v.dirs (dir, k) = none := by
    unfold slots
    rcases hk with rfl | ⟨-, hnone⟩
    · exact if_neg fun hp => Nat.lt_irrefl _ hp.2
    · split
      · exact congrArg (Option.map _) hnone
      · rfl
  have hslots := hfilled.slots hdir hle hother
  refine ⟨hfilled.dirOk, ?_, fun p q i hp => ?_⟩
  · rw [hslots]
    exact h.names.insert hfree hfresh
  · rw [hslots, update_of_ne]
    · exact hp
    · rintro rfl
      rw [hfree] at hp
      cases hp

/-- The targets of the names, once `n` has a new one. -/
theorem Represents.target_enter (h : Represents live freed top v s) {live' : List Nat}
    (hsub : ∀ i, i ∈ live → i ∈ live') (hn : n ∈ live') (hroot : n ≠ 1) (hne : n ≠ dir)
    (p : Nat × CStr) (hp : (v.enter dir name n).names p = some i) : i ∈ live' ∧
    i ≠ 1 ∧ i ≠ p.1 := by
  rw [Volume.enter_names] at hp
  rcases eq_or_ne p (dir, name) with rfl | hpn
  · rw [update_self] at hp
    obtain rfl := Option.some.inj hp
    exact ⟨hn, hroot, hne⟩
  · rw [update_of_ne hpn] at hp
    obtain ⟨hi, hrest⟩ := h.target p i hp
    exact ⟨hsub i hi, hrest⟩

/-- A name that is there stays there. -/
theorem names_enter (hfresh : v.names (dir, name) = none) {p : Nat × CStr}
    (hp : v.names p = some i) :
    (v.enter dir name n).names p = some i := by
  rw [Volume.enter_names, update_of_ne]
  · exact hp
  · rintro rfl
    rw [hfresh] at hp
    cases hp

theorem Represents.link {junk : Bytes} (h : Represents live freed top v s) (hdir : dir ∈ v.dirs)
    (hn : v.InUse n) (hne : n ≠ dir) (hroot : n ≠ 1) (hname : GoodName name)
    (hfresh : v.names (dir, name) = none) (hmax : v.links n + 1 < 2 ^ 16)
    (hres : Fs.link dir n name junk s = .ok t) :
    Represents live freed top (v.enter dir name n) t ∧ Stays v s (v.enter dir name n) t := by
  have hlive : n ∈ live := (h.inUse n).mpr hn
  have hzero : ∀ j ∈ live, j ≠ 0 := fun j hj => h.mounted.ne_zero hj
  obtain ⟨ht, hlinked⟩ := h.mounted.link (h.dir_mem hdir) hlive hne (h.dirOk dir hdir) hname hres
  have hsame : ∀ j ∈ live, j ≠ dir → SameData j s t := by
    intro j hj hjd
    rcases eq_or_ne j n with rfl | hjn
    · exact hlinked.data
    · exact (hlinked.other j (hzero j hj) hjd hjn).toSameData
  have hfile : ∀ i ∈ v.files, SameData i s t := fun i hi =>
    hsame i (h.file_mem hi) fun he => h.disjoint dir hdir (he ▸ hi)
  obtain ⟨hok, hnames, hstay⟩ :=
    h.filled hdir hfresh hlinked.slot fun d hd => hsame d (h.dir_mem hd)
  refine ⟨⟨ht, h.inUse, h.disjoint, h.root, fun d hd => ?_,
    fun i hi => (hfile i hi).type.trans (h.type i hi),
    fun i hi => (hfile i hi).size.trans (h.size i hi),
    fun i hi p => ((hfile i hi).byte p).trans (h.byte i hi p), fun j hj hsize => ?_, hnames,
    fun p i => h.target_enter (fun _ hi => hi) hlive hroot hne p, fun j hj hjr => ?_,
    fun j hj hjr => ?_, h.few⟩, fun p q i hp _ => hstay p q i hp⟩
  · rcases eq_or_ne d dir with rfl | hd'
    · exact hok
    · exact (hsame d (h.dir_mem hd) hd').dirOk (h.dirOk d hd)
  · rcases eq_or_ne j dir with rfl | hjd
    · obtain ⟨k, -, hfilled⟩ := hlinked.slot
      exact absurd hsize hfilled.size_ne_zero
    · have hd := hsame j hj hjd
      exact hd.blank (h.blank j hj (hd.size.symm.trans hsize))
  · obtain ⟨p, hp⟩ := h.named j hj hjr
    exact ⟨p, names_enter hfresh hp⟩
  · have hcount : (s.ino j).nlinks = v.links j := h.nlinks j hj hjr
    rcases eq_or_ne j n with rfl | hjn
    · rw [hlinked.nlinks, hcount, Volume.links, Volume.links, Volume.enter_names,
        ncard_keys_insert (h.keys_finite j) hfresh]
      exact Nat.mod_eq_of_lt hmax
    · rw [Volume.links, Volume.enter_names, keys_insert_of_ne hfresh hjn]
      refine Eq.trans ?_ hcount
      rcases eq_or_ne j dir with rfl | hjd
      · obtain ⟨k, -, hfilled⟩ := hlinked.slot
        exact hfilled.nlinks
      · exact (hlinked.other j (hzero j hj) hjd hjn).nlinks

/-- What `create` and `mkdir` make of a volume, apart from the name. -/
structure Grown (type n : Nat) (v w : Volume) : Prop where
  names : w.names = v.names
  inUse : ∀ i, w.InUse i ↔ i = n ∨ v.InUse i
  dirs : type = itypeFile ∧ w.dirs = v.dirs ∨ type = itypeDir ∧ w.dirs = n :: v.dirs
  files : ∀ i ∈ w.files, i = n ∧ type = itypeFile ∧ w.size n = 0 ∧ (∀ p, w.byte n p = 0) ∨
    i ≠ n ∧ i ∈ v.files ∧ w.size i = v.size i ∧ w.byte i = v.byte i

theorem grown_file (hn : n ∉ v.files) : Grown itypeFile n v (v.addFile n) where
  names := rfl
  inUse i := by
    rw [Volume.InUse, Volume.InUse, Volume.addFile, List.mem_cons, or_left_comm]
  dirs := .inl ⟨rfl, rfl⟩
  files i hi := by
    rcases List.mem_cons.mp hi with rfl | hi
    · exact .inl ⟨rfl, rfl, update_self .., congrFun (update_self (f := v.byte) ..)⟩
    · have hne : i ≠ n := fun he => hn (he ▸ hi)
      exact .inr ⟨hne, hi, update_of_ne hne _ _, update_of_ne hne _ _⟩

theorem grown_dir (hn : n ∉ v.files) : Grown itypeDir n v (v.addDir n) where
  names := rfl
  inUse i := by
    rw [Volume.InUse, Volume.InUse, Volume.addDir, List.mem_cons, or_assoc]
  dirs := .inr ⟨rfl, rfl⟩
  files i hi := .inr ⟨fun he => hn (he ▸ hi), hi, rfl, rfl⟩

theorem Represents.make {type : Nat} {victim : Option Nat} {junk : Bytes} {w : Volume}
    (h : Represents live freed top v s) (htype : type < 2 ^ 8) (hdir : dir ∈ v.dirs)
    (hname : GoodName name) (hfresh : v.names (dir, name) = none) (hvic : victim ≠ some 0)
    (hgrown : n ∉ live → Grown type n v w)
    (hres : Fs.make type dir name victim junk s = .ok (n, t)) :
    n ∉ live ∧ (∃ top', Represents (n :: live) (freed.erase n) top' (w.enter dir name n) t) ∧
      Stays v s (w.enter dir name n) t := by
  have hzero : ∀ j ∈ live, j ≠ 0 := fun j hj => h.mounted.ne_zero hj
  have hfew := h.few
  obtain ⟨top', ht, htop, hn0, hfree, hmem, hmade⟩ :=
    h.mounted.make htype (h.dir_mem hdir) (h.dirOk dir hdir)
    hname hvic (by
      simp only [dinodeSize]
      omega) hres
  have hg := hgrown hfree
  have hndir : n ≠ dir := fun he => hfree (he ▸ h.dir_mem hdir)
  have hnroot : n ≠ 1 := fun he => hfree (he ▸ h.dir_mem h.root)
  have hnot : ∀ j ∈ live, j ≠ n := fun j hj he => hfree (he ▸ hj)
  have hother : ∀ j ∈ live, j ≠ dir → SameFile j s t := fun j hj hjd =>
    hmade.other j (hzero j hj) hjd (hnot j hj)
  obtain ⟨hok, hnames, hstay⟩ := h.filled hdir hfresh hmade.slot
    fun d hd hne => (hother d (h.dir_mem hd) hne).toSameData
  have hempty : t.entries n = 0 := by rw [Fs.entries, hmade.size, Nat.zero_div]
  have hslots : t.slots w.dirs = t.slots v.dirs := by
    rcases hg.dirs with ⟨-, hd⟩ | ⟨-, hd⟩
    · rw [hd]
    · rw [hd, slots_cons hempty]
  have hdirs : ∀ d ∈ w.dirs, d = n ∧ type = itypeDir ∨ d ∈ v.dirs := by
    intro d hd
    rcases hg.dirs with ⟨-, he⟩ | ⟨htype, he⟩
    · exact .inr (he ▸ hd)
    · rw [he] at hd
      exact (List.mem_cons.mp hd).imp_left fun hdn => ⟨hdn, htype⟩
  have hsub : ∀ d ∈ v.dirs, d ∈ w.dirs := by
    intro d hd
    rcases hg.dirs with ⟨-, he⟩ | ⟨-, he⟩
    · exact he ▸ hd
    · exact he ▸ List.mem_cons_of_mem n hd
  have hfile : ∀ i ∈ v.files, SameFile i s t := fun i hi =>
    hother i (h.file_mem hi) fun he => h.disjoint dir hdir (he ▸ hi)
  have hdirTypes : itypeDir ≠ itypeFile := by decide
  refine ⟨hfree, ⟨top', ht, fun i => ?_, fun d hd hf => ?_, hsub 1 h.root, fun d hd => ?_,
    fun i hi => ?_, fun i hi => ?_, fun i hi p => ?_, fun j hj hsize => ?_, ?_, fun p i hp => ?_,
    fun j hj hjr => ?_, fun j hj hjr => ?_, ?_⟩, fun p q i hp _ => ?_⟩
  · rw [List.mem_cons, h.inUse]
    exact (hg.inUse i).symm
  · rcases hg.files d hf with ⟨rfl, hfile, -⟩ | ⟨hne, hf, -⟩
    · rcases hdirs d hd with ⟨-, hdir⟩ | hd
      · exact hdirTypes (hdir.symm.trans hfile)
      · exact hfree (h.dir_mem hd)
    · rcases hdirs d hd with ⟨he, -⟩ | hd
      · exact hne he
      · exact h.disjoint d hd hf
  · rcases hdirs d hd with ⟨rfl, he⟩ | hd
    · refine ⟨hmade.type.trans he, ?_, fun k hk => ?_⟩
      · rw [hmade.size, hempty, Nat.zero_mul]
      · rw [hempty] at hk
        exact absurd hk (Nat.not_lt_zero k)
    · rcases eq_or_ne d dir with rfl | hne
      · exact hok
      · exact (hother d (h.dir_mem hd) hne).dirOk (h.dirOk d hd)
  · rcases hg.files i hi with ⟨rfl, he, -⟩ | ⟨-, hi, -⟩
    · exact hmade.type.trans he
    · exact (hfile i hi).type.trans (h.type i hi)
  · rcases hg.files i hi with ⟨rfl, -, he, -⟩ | ⟨-, hi, he, -⟩
    · exact hmade.size.trans he.symm
    · exact ((hfile i hi).size.trans (h.size i hi)).trans he.symm
  · rcases hg.files i hi with ⟨rfl, -, -, he⟩ | ⟨-, hi, -, he⟩
    · exact (byte_of_blank hmade.blank p).trans (he p).symm
    · exact (((hfile i hi).byte p).trans (h.byte i hi p)).trans (congrFun he p).symm
  · rcases List.mem_cons.mp hj with rfl | hj
    · exact hmade.blank
    · rcases eq_or_ne j dir with rfl | hjd
      · obtain ⟨k, -, hfilled⟩ := hmade.slot
        exact absurd hsize hfilled.size_ne_zero
      · exact (hother j hj hjd).blank (h.blank j hj ((hother j hj hjd).size.symm.trans hsize))
  · rw [Volume.enter_names, hg.names]
    show Holds (t.slots w.dirs) _
    rw [hslots]
    exact hnames
  · rw [Volume.enter_names, hg.names, ← Volume.enter_names] at hp
    exact h.target_enter (fun _ hi => List.mem_cons_of_mem n hi) List.mem_cons_self
      hnroot hndir p hp
  · rw [Volume.enter_names, hg.names, ← Volume.enter_names]
    rcases List.mem_cons.mp hj with rfl | hj
    · exact ⟨(dir, name), update_self ..⟩
    · obtain ⟨p, hp⟩ := h.named j hj hjr
      exact ⟨p, names_enter hfresh hp⟩
  · rw [Volume.links, Volume.enter_names, hg.names]
    rcases List.mem_cons.mp hj with rfl | hj
    · -- no name was left of an inode that was not in use
      have hnone : keys v.names j = ∅ :=
        Set.eq_empty_of_forall_notMem fun p hp => hfree (h.target p j hp).1
      rw [ncard_keys_insert (h.keys_finite j) hfresh, hnone, Set.ncard_empty, hmade.nlinks]
    · rw [keys_insert_of_ne hfresh (hnot j hj)]
      refine Eq.trans ?_ (h.nlinks j hj hjr)
      rcases eq_or_ne j dir with rfl | hjd
      · obtain ⟨k, -, hfilled⟩ := hmade.slot
        exact hfilled.nlinks
      · exact (hother j hj hjd).nlinks
  · refine Nat.le_of_not_lt fun hlt => ?_
    have hat := (htop (2 ^ 25 + 3)).mp hlt
    rcases hmem with hmem | hnil
    · have hbelow := (h.mounted.list.below n (.inr hmem)).2
      omega
    · have hle := h.top_le hnil
      have hat' := (htop (2 ^ 25 + 2)).mp (Nat.lt_of_succ_lt hlt)
      omega
  · show t.slots w.dirs p = _
    rw [hslots]
    exact hstay p q i hp

/-- Entry `k` of `dir`, with a name of `i`, is cleared; `w` is the volume without that name. -/
theorem Represents.cleared {live' freed' : List Nat} {w : Volume}
    (h : Represents live freed top v s) (hi : v.names (dir, name) = some i) (hk : k < s.entries dir)
    (hat : s.slots v.dirs (dir, k) = some ((dir, name), i)) (hun : Unlinked dir i k s t)
    (ht : Mounted live' freed' top t) (hw : w = { v with
      names := update v.names (dir, name) none, dirs := w.dirs, files := w.files })
    (hdirs : ∀ d ∈ w.dirs, d ∈ v.dirs) (hfiles : ∀ j ∈ w.files, j ∈ v.files)
    (hslots : s.slots w.dirs = s.slots v.dirs) (hlive : ∀ j, j ∈ live' ↔ w.InUse j)
    (hleft : ∀ d ∈ v.dirs, d ≠ i → d ∈ w.dirs) (hstay : ∀ j ∈ live, j ≠ i → j ∈ live')
    (hself : i ∈ live' → SameData i s t ∧ (t.ino i).nlinks = (s.ino i).nlinks - 1 ∧ 1 < v.links i)
    (hgone : i ∉ live' → v.links i = 1) :
    Represents live' freed' top w t ∧ Stays v s w t := by
  have hnames : w.names = update v.names (dir, name) none := congrArg Volume.names hw
  have hsub : ∀ j ∈ live', j ∈ live := fun j hj =>
    (h.inUse j).mpr (((hlive j).mp hj).imp (hdirs j) (hfiles j))
  obtain ⟨hilive, hiroot, hine⟩ := h.target _ i hi
  have hdir : dir ∈ v.dirs := (slots_eq_some.mp hat).2.1
  have hsame : ∀ j ∈ live', j ≠ dir → SameData j s t := by
    intro j hj hjd
    rcases eq_or_ne j i with rfl | hji
    · exact (hself hj).1
    · exact (hun.other j (h.mounted.ne_zero (hsub j hj)) hjd hji).toSameData
  have hfile : ∀ j ∈ w.files, SameData j s t := fun j hj =>
    hsame j ((hlive j).mpr (.inr hj)) fun he => h.disjoint dir hdir (he ▸ hfiles j hj)
  -- how many names are left of each inode
  have hcount : (keys w.names i).ncard + 1 = v.links i := by
    rw [hnames, ncard_keys_erase (h.keys_finite i) hi, Volume.links]
  have hother : ∀ j, j ≠ i → keys w.names j = keys v.names j := by
    intro j hji
    rw [hnames, keys_erase_of_ne hi hji]
  have hfinite : (keys w.names i).Finite := by
    rw [hnames, keys_erase]
    exact (h.keys_finite i).sdiff
  have hnew : t.slots w.dirs = update (s.slots v.dirs) (dir, k) none := by
    rw [hun.slot.slots (hleft dir hdir hine.symm) (Nat.le_of_lt hk) fun d hd =>
      hsame d ((hlive d).mpr (.inl hd)), hslots]
    rfl
  have hin : ∀ p j, w.names p = some j → v.names p = some j := by
    intro p j hp
    rw [hnames] at hp
    rcases eq_or_ne p (dir, name) with rfl | hne
    · rw [update_self] at hp
      cases hp
    · rwa [update_of_ne hne] at hp
  refine ⟨⟨ht, hlive, fun d hd hf => h.disjoint d (hdirs d hd) (hfiles d hf),
    hleft 1 h.root hiroot.symm, fun d hd => ?_,
    fun j hj => (hfile j hj).type.trans (h.type j (hfiles j hj)), fun j hj => ?_, fun j hj p => ?_,
    fun j hj hzero => ?_, ?_, fun p j hp => ⟨?_, (h.target p j (hin p j hp)).2⟩, fun j hj hjr => ?_,
    fun j hj hjr => ?_, h.few⟩, fun p q j hp hq => ?_⟩
  · rcases eq_or_ne d dir with rfl | hne
    · exact hun.slot.dirOk
    · exact (hsame d ((hlive d).mpr (.inl hd)) hne).dirOk (h.dirOk d (hdirs d hd))
  · rw [(hfile j hj).size, h.size j (hfiles j hj), hw]
  · rw [(hfile j hj).byte, h.byte j (hfiles j hj), hw]
  · rcases eq_or_ne j dir with rfl | hjd
    · exact absurd hzero hun.slot.size_ne_zero
    · exact (hsame j hj hjd).blank (h.blank j (hsub j hj) ((hsame j hj hjd).size.symm.trans hzero))
  · rw [hnew, hnames]
    exact h.names.erase hat
  · rcases eq_or_ne j i with rfl | hji
    · refine not_not.mp fun hnot => ?_
      have hpos := (Set.ncard_pos hfinite).mpr ⟨p, hp⟩
      have hlast := hgone hnot
      omega
    · exact hstay j (h.target p j (hin p j hp)).1 hji
  · rcases eq_or_ne j i with rfl | hji
    · have hmany := (hself hj).2.2
      exact (Set.ncard_pos hfinite).mp (by omega)
    · obtain ⟨p, hp⟩ := h.named j (hsub j hj) hjr
      exact ⟨p, by rw [← mem_keys, hother j hji]; exact hp⟩
  · rcases eq_or_ne j i with rfl | hji
    · rw [(hself hj).2.1, h.nlinks j hilive hjr, ← hcount, Nat.add_sub_cancel, Volume.links]
    · rw [Volume.links, hother j hji]
      refine Eq.trans ?_ (h.nlinks j (hsub j hj) hjr)
      rcases eq_or_ne j dir with rfl | hjd
      · exact hun.slot.nlinks
      · exact (hun.other j (h.mounted.ne_zero (hsub j hj)) hjd hji).nlinks
  · rw [hnew, update_of_ne]
    · exact hp
    · rintro rfl
      rw [hat] at hp
      obtain ⟨rfl, -⟩ := Prod.mk.inj (Option.some.inj hp)
      rw [hnames, update_self] at hq
      cases hq

theorem Represents.unlink {junk : Dinode} (h : Represents live freed top v s) (hdir : dir ∈ v.dirs)
    (hname : GoodName name) (hi : v.names (dir, name) = some i)
    (hempty : i ∈ v.dirs → ∀ name', v.names (i, name') = none)
    (hres : Fs.unlink dir name i junk s = .ok t) :
    (∃ live' freed', Represents live' freed' top (v.unlink dir name i) t) ∧
      Stays v s (v.unlink dir name i) t := by
  obtain ⟨hlive, hroot, hne⟩ := h.target _ i hi
  have hfin := h.keys_finite i
  have hlinks : (s.ino i).nlinks = v.links i := h.nlinks i hlive hroot
  have hpos : v.links i ≠ 0 := Nat.ne_of_gt ((Set.ncard_pos hfin).mpr ⟨_, hi⟩)
  obtain ⟨k, hk, ⟨m, hentry⟩, hun, hcases⟩ :=
    h.mounted.unlink (h.dir_mem hdir) hlive hne (h.dirOk dir hdir)
    hname (h.blank i hlive) (by rwa [hlinks]) hres
  -- the entry that is found is the one of the name
  have hat : s.slots v.dirs (dir, k) = some ((dir, name), m) :=
    slots_eq_some.mpr ⟨rfl, hdir, hk, hentry⟩
  obtain rfl : m = i := Option.some.inj ((h.names.sound _ _ _ hat).symm.trans hi)
  have hleft : (∃ p, update v.names (dir, name) none p = some m) ↔ 1 < v.links m := by
    have hcount := ncard_keys_erase hfin hi
    have hnonempty : (keys (update v.names (dir, name) none) m).Nonempty ↔
        0 < (keys (update v.names (dir, name) none) m).ncard := by
      refine (Set.ncard_pos ?_).symm
      rw [keys_erase]
      exact hfin.sdiff
    rw [Volume.links, ← hcount]
    exact hnonempty.trans Nat.lt_add_left_iff_pos.symm
  rw [hlinks] at hcases
  rcases hcases with ⟨hmany, ht, hdata, hcount⟩ | ⟨hlast, ht⟩
  · have hw : v.unlink dir name m = { v with names := update v.names (dir, name) none } :=
      if_pos (hleft.mpr hmany)
    rw [hw]
    obtain ⟨hrep, hstays⟩ :=
      h.cleared (w := { v with names := update v.names (dir, name) none }) hi hk hat
      hun ht rfl (fun _ hd => hd) (fun _ hj => hj) rfl h.inUse (fun _ hd _ => hd) (fun _ hj _ => hj)
      (fun _ => ⟨hdata, by rw [hcount, hlinks], hmany⟩) fun hnot => absurd hlive hnot
    exact ⟨⟨_, _, hrep⟩, hstays⟩
  · have hw : v.unlink dir name m = { v with
        names := update v.names (dir, name) none
        dirs := v.dirs.filter (· ≠ m)
        files := v.files.filter (· ≠ m) } :=
      if_neg fun hex => absurd (hleft.mp hex) (Nat.not_lt.mpr (Nat.le_of_eq hlast))
    have hmem : ∀ (l : List Nat) j, j ∈ l.filter (· ≠ m) ↔ j ∈ l ∧ j ≠ m := fun l j => by
      rw [List.mem_filter, decide_eq_true_iff]
    have hslots : s.slots (v.dirs.filter (· ≠ m)) = s.slots v.dirs := by
      by_cases hd : m ∈ v.dirs
      · refine slots_filter fun k' hk' => ?_
        cases he : s.dirent m k' with
        | none => rfl
        | some e =>
          have hname' := h.names.sound (m, k') (m, e.1) e.2 (slots_eq_some.mpr ⟨rfl, hd, hk', he⟩)
          rw [hempty hd] at hname'
          cases hname'
      · have hself : v.dirs.filter (· ≠ m) = v.dirs :=
          List.filter_eq_self.mpr fun j hj => decide_eq_true fun he => hd (he ▸ hj)
        rw [hself]
    have hlive' : ∀ j, j ∈ live.filter (· ≠ m) ↔
        j ∈ v.dirs.filter (· ≠ m) ∨ j ∈ v.files.filter (· ≠ m) := by
      intro j
      rw [hmem, h.inUse, Volume.InUse, hmem, hmem, or_and_right]
    rw [hw]
    obtain ⟨hrep, hstays⟩ := h.cleared (w := { v with
        names := update v.names (dir, name) none
        dirs := v.dirs.filter (· ≠ m)
        files := v.files.filter (· ≠ m) }) hi hk hat
      hun ht rfl (fun d hd => ((hmem _ d).mp hd).1) (fun j hj => ((hmem _ j).mp hj).1) hslots hlive'
      (fun d hd hdm => (hmem _ d).mpr ⟨hd, hdm⟩) (fun j hj hjm => (hmem _ j).mpr ⟨hj, hjm⟩)
      (fun hm => absurd rfl ((hmem _ m).mp hm).2) fun _ => hlast
    exact ⟨⟨_, _, hrep⟩, hstays⟩

end Fs

end CoroCore.Nfs
