import CoroCore.Nfs.MakeFs
import CoroCore.Nfs.Volume

/-!
# Runs of the mounted file system

Completed calls to the file system, in any order, with any steps of the inode cache between them
(`Does`), and what they mean for a volume (`Volume.Step`). `volume_refined`: from `make_fs` on,
every answer is the one that the volume gives, and the volume is represented.
-/

namespace CoroCore.Nfs

open Lib Function

/-- A completed call, with its answer. -/
inductive Event
  | create (dir : Nat) (name : CStr) (n : Nat)
  | mkdir (dir : Nat) (name : CStr) (n : Nat)
  | link (dir : Nat) (name : CStr) (n : Nat)
  | unlink (dir : Nat) (name : CStr) (n : Nat)
  | lookup (dir : Nat) (name : CStr) (answer : Option Nat)
  | readDir (dir k : Nat) (answer : Option ((CStr × Nat) × Nat))
  | read (i offset size : Nat) (answer : Bytes)
  | write (i offset size : Nat) (src : Bytes)
  | truncate (i : Nat)
  | get (i : Nat)
  | flush (i : Nat)

/-- What an event makes of a volume. -/
noncomputable def Volume.after (v : Volume) : Event → Volume
  | .create dir name n => (v.addFile n).enter dir name n
  | .mkdir dir name n => (v.addDir n).enter dir name n
  | .link dir name n => v.enter dir name n
  | .unlink dir name n => v.unlink dir name n
  | .write i offset size src => v.write i offset size src
  | .truncate i => v.truncate i
  | _ => v

/-- The answers that a volume gives: a new number is not in use, `lookup` finds what has the name,
`read_dir` yields a name with its inode, and `read` the bytes of the file. -/
def Volume.Answers (v : Volume) : Event → Prop
  | .create _ _ n => ¬v.InUse n
  | .mkdir _ _ n => ¬v.InUse n
  | .lookup dir name answer => answer = v.names (dir, name)
  | .readDir dir _ (some (e, _)) => v.names (dir, e.1) = some e.2
  | .read i offset size answer => ∀ k < size, answer k = v.byte i (offset + k)
  | _ => True

def Volume.Step (v : Volume) (e : Event) (w : Volume) : Prop := v.Answers e ∧ w = v.after e

namespace Fs

/-- A call completes with this answer. Any object but that of the inode table may be recycled, and
local variables may hold anything. -/
inductive Does : Fs → Event → Fs → Prop
  | create {s t : Fs} {dir n : Nat} {name : CStr} {victim : Option Nat} {junk : Bytes}
      (hvic : victim ≠ some 0) (h : Fs.create dir name victim junk s = .ok (n, t)) :
      Does s (.create dir name n) t
  | mkdir {s t : Fs} {dir n : Nat} {name : CStr} {victim : Option Nat} {junk : Bytes}
      (hvic : victim ≠ some 0) (h : Fs.mkdir dir name victim junk s = .ok (n, t)) :
      Does s (.mkdir dir name n) t
  | link {s t : Fs} {dir n : Nat} {name : CStr} {junk : Bytes}
      (h : Fs.link dir n name junk s = .ok t) :
      Does s (.link dir name n) t
  | unlink {s t : Fs} {dir n : Nat} {name : CStr} {junk : Dinode}
      (h : Fs.unlink dir name n junk s = .ok t) : Does s (.unlink dir name n) t
  | lookup {s t : Fs} {dir : Nat} {name : CStr} {victim answer : Option Nat}
      (hvic : victim ≠ some 0)
      (h : Fs.lookup dir name victim s = .ok (answer, t)) : Does s (.lookup dir name answer) t
  | readDir {s t u : Fs} {dir : Nat} {victim : Option Nat} {answer : Option ((CStr × Nat) × Nat)}
      (hvic : victim ≠ some 0) (hl : load dir s = .ok u)
      (h : Fs.readDir dir victim ((u.ino dir).size / direntSize + 1) 0 u = .ok (answer, t)) :
      Does s (.readDir dir 0 answer) t
  | readNext {s t : Fs} {dir k : Nat} {victim : Option Nat} {answer : Option ((CStr × Nat) × Nat)}
      (hvic : victim ≠ some 0)
      (h : Fs.readDir dir victim ((s.ino dir).size / direntSize + 1) (k * direntSize) s =
      .ok (answer, t)) :
      Does s (.readDir dir k answer) t
  | read {s t : Fs} {i offset size n : Nat} {buf : Bytes}
      (h : Fs.read i offset size s = .ok (n, buf, t)) :
      Does s (.read i offset size buf) t
  | write {s t : Fs} {i offset size n : Nat} {src : Bytes}
      (h : Fs.write i offset size src s = .ok (n, t)) :
      Does s (.write i offset size src) t
  | truncate {s t : Fs} {i : Nat} (h : Fs.truncate i s = .ok t) : Does s (.truncate i) t
  | get {s t : Fs} {i : Nat} {victim : Option Nat} (hvic : victim ≠ some 0)
      (h : getInode i victim s = .ok t) : Does s (.get i) t
  | flush {s t : Fs} {i : Nat} (h : Fs.flush i s = .ok t) : Does s (.flush i) t

/-- A file system that is used, with the volume that it stands for. -/
structure Mount where
  fs : Fs
  vol : Volume

/-- What the callers see to. Names are not in use twice, only an empty directory loses its last
name, and no access starts from a position that an object has taken over from another file. -/
def Mount.Asked (x : Mount) : Event → Prop
  | .create dir name _ => dir ∈ x.vol.dirs ∧ GoodName name ∧ x.vol.names (dir, name) = none
  | .mkdir dir name _ => dir ∈ x.vol.dirs ∧ GoodName name ∧ x.vol.names (dir, name) = none
  | .link dir name n => dir ∈ x.vol.dirs ∧ GoodName name ∧ x.vol.names (dir, name) = none ∧
      x.vol.InUse n ∧ n ≠ dir ∧ n ≠ 1 ∧ x.vol.links n + 1 < 2 ^ 16
  | .unlink dir name n => dir ∈ x.vol.dirs ∧ GoodName name ∧ x.vol.names (dir, name) = some n ∧
      (n ∈ x.vol.dirs → ∀ name', x.vol.names (n, name') = none)
  | .lookup dir name _ => dir ∈ x.vol.dirs ∧ GoodName name
  | .readDir dir k _ => dir ∈ x.vol.dirs ∧ Near x.fs dir (k * direntSize)
  | .read i offset size _ => i ∈ x.vol.files ∧ 0 < size ∧ offset + size < 2 ^ 32 ∧
      x.fs.PosAt i (offset - directDataSize)
  | .write i offset size _ => i ∈ x.vol.files ∧ 0 < size ∧ offset + size < 2 ^ 32 ∧
      x.fs.PosAt i (offset - directDataSize)
  | .truncate i => i ∈ x.vol.files
  | .get i => i ≠ 0
  | .flush i => i ≠ 0

/-- The call completes, and the volume goes with it. -/
def Mount.Step (x : Mount) (e : Event) (y : Mount) : Prop :=
  Does x.fs e y.fs ∧ y.vol = x.vol.after e

variable {s t : Fs} {v : Volume} {live freed : List Nat} {top : Nat} {x y : Mount} {e : Event}

/-- The volume is represented. -/
def Mount.Ok (x : Mount) : Prop := ∃ live freed top, Represents live freed top x.vol x.fs

/-! ## The answers -/

theorem Represents.entry {dir k : Nat} {q : CStr × Nat} (h : Represents live freed top v s)
    (hdir : dir ∈ v.dirs) (hk : k < s.entries dir) (hq : s.dirent dir k = some q) :
    v.names (dir, q.1) = some q.2 :=
  h.names.sound (dir, k) (dir, q.1) q.2 (slots_eq_some.mpr ⟨rfl, hdir, hk, hq⟩)

theorem Represents.answers {dir : Nat} {name : CStr} {answer : Option Nat}
    (h : Represents live freed top v s) (hdir : dir ∈ v.dirs) (ha : Fs.Answers s dir name answer) :
    answer = v.names (dir, name) := by
  cases answer with
  | none =>
    refine (h.names.eq_none_iff.mpr fun p i hp => ?_).symm
    obtain ⟨hp1, -, hk, he⟩ := slots_eq_some.mp hp
    have hp1 : p.1 = dir := hp1.symm
    rw [hp1] at hk he
    exact ha p.2 hk i he
  | some i =>
    obtain ⟨k, hk, he⟩ := ha
    exact (h.entry hdir hk he).symm

theorem Represents.named_live {dir : Nat} (h : Represents live freed top v s)
    (hdir : dir ∈ v.dirs) :
    Fs.Names dir live s := fun _ hk _ i he => (h.target _ i (h.entry hdir hk he)).1

theorem Represents.yielded {dir k : Nat} {answer : Option ((CStr × Nat) × Nat)}
    (h : Represents live freed top v s) (hdir : dir ∈ v.dirs) (hy : Yields s dir k answer) :
    v.Answers (.readDir dir k answer) := by
  cases answer with
  | none => trivial
  | some r =>
    obtain ⟨m, -, hm, he, -⟩ := hy
    exact h.entry hdir hm he

/-- `read_dir`, from the start or from where it has yielded. -/
theorem Represents.readDir {dir k : Nat} {answer : Option ((CStr × Nat) × Nat)}
    (h : Represents live freed top v s) (hdir : dir ∈ v.dirs) (hnear : Near s dir (k * direntSize))
    (hd : Does s (.readDir dir k answer) t) :
    Mounted live freed top t ∧ (∀ j, j ≠ 0 → SameFile j s t) ∧ Yields s dir k answer := by
  have hlive := h.dir_mem hdir
  cases hd with
  | readDir hvic hl hd =>
    obtain ⟨hu, hkeep, -⟩ := h.mounted.load hlive hl
    have hdata := (hkeep.sameFile (h.mounted.ne_zero hlive)).toSameData
    obtain ⟨ht, hsame, hy⟩ := Mounted.readDir hlive hvic _ 0 _ hu (hdata.dirOk (h.dirOk dir hdir))
      (by rw [Nat.zero_add]; exact Nat.lt_succ_self _)
      (.inl (by rw [Nat.zero_mul]; exact Nat.zero_le _))
      (by rw [Nat.zero_mul]; exact hd)
    exact ⟨ht, fun j hj => (hkeep.sameFile hj).trans (hsame j hj), hy.same hdata⟩
  | readNext hvic hd =>
    exact Mounted.readDir hlive hvic _ _ _ h.mounted (h.dirOk dir hdir)
      (Nat.lt_add_left _ (Nat.lt_succ_self _)) hnear hd

/-! ## Steps -/

/-- What one step gives: the answer is right, the volume stays represented, and entries stay where
they are. -/
structure Mount.Good (x : Mount) (e : Event) (y : Mount) : Prop where
  answers : x.vol.Answers e
  ok : y.Ok
  stays : Stays x.vol x.fs y.vol y.fs

/-- A call that changes no file. -/
theorem Represents.good (h : Represents live freed top v s) (ht : Mounted live freed top t)
    (hs : ∀ j, j ≠ 0 → SameFile j s t) (hv : v.after e = v) (ha : v.Answers e) :
    Mount.Good ⟨s, v⟩ e ⟨t, v.after e⟩ := by
  rw [hv]
  refine ⟨ha, ⟨live, freed, top, h.quiet ht hs⟩, fun p q i hp _ => ?_⟩
  rwa [slots_congr fun d hd => (hs d (h.mounted.ne_zero (h.dir_mem hd))).toSameData]

/-- A call that changes a file that is no directory. -/
theorem Represents.good_file {w : Volume} {i : Nat} (h : Represents live freed top v s)
    (hi : i ∈ v.files) (ht : Represents live freed top w t) (hdirs : w.dirs = v.dirs)
    (hs : ∀ j, j ≠ 0 → j ≠ i → SameFile j s t) (ha : v.Answers e) (hw : v.after e = w) :
    Mount.Good ⟨s, v⟩ e ⟨t, v.after e⟩ := by
  rw [hw]
  refine ⟨ha, ⟨live, freed, top, ht⟩, fun p q j hp _ => ?_⟩
  rwa [hdirs, slots_congr fun d hd => (hs d (h.mounted.ne_zero (h.dir_mem hd))
    fun he => h.disjoint d hd (he ▸ hi)).toSameData]

theorem Mount.Ok.step (h : x.Ok) (ha : x.Asked e) (hs : x.Step e y) : x.Good e y := by
  obtain ⟨s, v⟩ := x
  obtain ⟨t, w⟩ := y
  obtain ⟨hd, hw⟩ := hs
  obtain rfl : w = v.after e := hw
  obtain ⟨live, freed, top, h⟩ := h
  have hzero : ∀ i ∈ live, i ≠ 0 := fun i hi => h.mounted.ne_zero hi
  cases hd with
  | create hvic hd =>
    obtain ⟨hdir, hname, hfresh⟩ := ha
    obtain ⟨hfree, ⟨top', ht⟩, hstay⟩ := h.make (by decide) hdir hname hfresh hvic
      (fun hn => grown_file fun hf => hn (h.file_mem hf)) hd
    exact ⟨fun hn => hfree ((h.inUse _).mpr hn), ⟨_, _, top', ht⟩, hstay⟩
  | mkdir hvic hd =>
    obtain ⟨hdir, hname, hfresh⟩ := ha
    obtain ⟨hfree, ⟨top', ht⟩, hstay⟩ := h.make (by decide) hdir hname hfresh hvic
      (fun hn => grown_dir fun hf => hn (h.file_mem hf)) hd
    exact ⟨fun hn => hfree ((h.inUse _).mpr hn), ⟨_, _, top', ht⟩, hstay⟩
  | link hd =>
    obtain ⟨hdir, hname, hfresh, hn, hne, hroot, hmax⟩ := ha
    obtain ⟨ht, hstay⟩ := h.link hdir hn hne hroot hname hfresh hmax hd
    exact ⟨trivial, ⟨_, _, _, ht⟩, hstay⟩
  | unlink hd =>
    obtain ⟨hdir, hname, hn, hempty⟩ := ha
    obtain ⟨⟨live', freed', ht⟩, hstay⟩ := h.unlink hdir hname hn hempty hd
    exact ⟨trivial, ⟨live', freed', _, ht⟩, hstay⟩
  | lookup hvic hd =>
    obtain ⟨hdir, hname⟩ := ha
    obtain ⟨ht, hsame, hans⟩ :=
      h.mounted.lookup (h.dir_mem hdir) (h.dirOk _ hdir) hname (h.named_live hdir) hvic hd
    exact h.good ht hsame rfl (h.answers hdir hans)
  | readDir hvic hl hd =>
    obtain ⟨hdir, hnear⟩ := ha
    obtain ⟨ht, hsame, hy⟩ := h.readDir hdir hnear (.readDir hvic hl hd)
    exact h.good ht hsame rfl (h.yielded hdir hy)
  | readNext hvic hd =>
    obtain ⟨hdir, hnear⟩ := ha
    obtain ⟨ht, hsame, hy⟩ := h.readDir hdir hnear (.readNext hvic hd)
    exact h.good ht hsame rfl (h.yielded hdir hy)
  | read hd =>
    obtain ⟨hi, hsize, hend, hpos⟩ := ha
    obtain ⟨-, hbuf, ht, -, hsame, -⟩ := h.mounted.read (h.file_mem hi) hsize hpos hend hd
    refine h.good ht hsame rfl fun k hk => ?_
    rw [hbuf, memcpy_in (Nat.zero_le k) (by rwa [Nat.zero_add]), Nat.sub_zero, h.byte _ hi]
  | write hd =>
    obtain ⟨hi, hsize, hend, hpos⟩ := ha
    obtain ⟨-, hw⟩ := h.mounted.write (h.file_mem hi) hsize hpos hend hd
    exact h.good_file hi (h.write hi hsize hpos hend hd) rfl hw.other trivial rfl
  | truncate hd =>
    obtain ⟨-, -, helse⟩ := h.mounted.truncate (h.file_mem ha) (h.blank _ (h.file_mem ha)) hd
    exact h.good_file ha (h.truncate ha hd) rfl (fun j hj hji => (helse j hj hji).1) trivial rfl
  | get hvic hd =>
    obtain ⟨ht, hshift⟩ := h.mounted.getInode ha hvic hd
    exact h.good ht (fun j hj => hshift.sameFile hj) rfl trivial
  | flush hd =>
    obtain ⟨ht, hkeep⟩ := h.mounted.flush ha hd
    exact h.good ht (fun j hj => hkeep.sameFile hj) rfl trivial

/-! ## Runs -/

theorem New.represents (h : New s) : Represents [1] [] 2 Volume.new s := by
  have hone : ∀ i, i ∈ [1] → i = 1 := fun i hi => List.mem_singleton.mp hi
  have hentries : s.entries 1 = 0 := by rw [Fs.entries, h.size 1 (by decide), Nat.zero_div]
  have hslots : ∀ p, s.slots [1] p = none := by
    intro p
    refine if_neg fun hp => ?_
    rw [hone p.1 hp.1, hentries] at hp
    exact Nat.not_lt_zero _ hp.2
  refine ⟨⟨h.table, ⟨h.type, chain_nil.mpr h.head, fun m hm => absurd hm List.not_mem_nil,
    fun m hm => ?_, fun m hm => ?_, fun m hm => absurd hm List.not_mem_nil, List.nodup_nil,
    by decide⟩, fun m h1 h2 => ?_, fun j _ => ?_⟩, fun i => ?_, fun d _ => List.not_mem_nil,
    List.mem_singleton_self 1, fun d hd => ?_, fun i hi => absurd hi List.not_mem_nil,
    fun i hi => absurd hi List.not_mem_nil, fun i hi => absurd hi List.not_mem_nil,
    fun i hi _ => h.blank i (by rw [hone i hi]; decide),
    ⟨fun p k i hp => ?_, fun k i hk => ?_, fun p q k i j hp => ?_⟩, fun p i hp => ?_,
    fun i hi hroot => ?_, fun i hi hroot => ?_, by decide⟩
  · rw [h.fresh m hm]
    decide
  · rcases hm with hm | hm
    · rw [hone m hm]
      decide
    · exact absurd hm List.not_mem_nil
  · exact .inl (List.mem_singleton.mpr (by omega))
  · rw [(h.pos j).1]
    decide
  · exact (or_iff_left List.not_mem_nil).symm
  · rw [hone d hd]
    refine ⟨h.root, ?_, fun k hk => ?_⟩
    · rw [h.size 1 (by decide), hentries]
      rfl
    · rw [hentries] at hk
      exact absurd hk (Nat.not_lt_zero k)
  · rw [show s.slots Volume.new.dirs p = none from hslots p] at hp
    cases hp
  · cases hk
  · rw [show s.slots Volume.new.dirs p = none from hslots p] at hp
    cases hp
  · cases hp
  · exact absurd (hone i hi) hroot
  · exact absurd (hone i hi) hroot

/-- From `make_fs` on, every answer is the one that the volume gives, and the file system represents
the volume. -/
theorem volume_refined {nblocks : Nat} {disk : Nat → Bytes} {junk : Dinode} {s₀ : Fs}
    {events : List Event} (hfit : Fits nblocks) (hmake : makeFs nblocks disk junk = .ok s₀)
    (hrun : Run (Guarded Mount.Step Mount.Asked) ⟨mount s₀, Volume.new⟩ events x) :
    Run Volume.Step Volume.new events x.vol ∧ x.Ok := by
  have hstart : Mount.Ok ⟨mount s₀, Volume.new⟩ := ⟨_, _, _, (makeFs_spec hfit hmake).represents⟩
  induction hrun with
  | nil => exact ⟨.nil _, hstart⟩
  | snoc _ hs ih =>
    have hgood := ih.2.step hs.1 hs.2
    exact ⟨ih.1.snoc ⟨hgood.answers, hs.2.2⟩, hgood.ok⟩

/-- An access among the direct blocks starts from the direct blocks. -/
theorem Mount.Ok.posAt {i offset : Nat} (h : x.Ok) (hi : i ≠ 0)
    (hoffset : offset ≤ directDataSize) :
    x.fs.PosAt i (offset - directDataSize) := by
  obtain ⟨live, freed, top, h⟩ := h
  exact h.mounted.posAt hi (.inl hoffset)

/-- A run goes on. -/
theorem Mount.call {events : List Event} {x₀ : Mount}
    (h : Run (Guarded Mount.Step Mount.Asked) x₀ events x) (hask : x.Asked e)
    (hd : Does x.fs e t) :
    Run (Guarded Mount.Step Mount.Asked) x₀ (events ++ [e]) ⟨t, x.vol.after e⟩ :=
  h.snoc ⟨hask, hd, rfl⟩

theorem Mount.Ok.root (h : x.Ok) : 1 ∈ x.vol.dirs := by
  obtain ⟨live, freed, top, h⟩ := h
  exact h.root

/-- A file in a directory is written, found and removed. -/
theorem sample_run : ∃ s₀ x, makeFs 1024 (fun _ _ => 0) ⟨0, 0, 0, 0, 0, fun _ => 0⟩ = .ok s₀ ∧
    Run (Guarded Mount.Step Mount.Asked) ⟨mount s₀, Volume.new⟩
      [.mkdir 1 [100] 2, .create 2 [97] 3, .write 3 0 2 (fun _ => 5), .lookup 2 [97] (some 3),
        .unlink 2 [97] 3] x ∧ 1 ∈ x.vol.dirs := by
  have hcalls : ((outcome (makeFs 1024 (fun _ _ => 0) ⟨0, 0, 0, 0, 0, fun _ => 0⟩) >>= fun s =>
      Fs.mkdir 1 [100] none (fun _ => 0) (mount s) >>= fun r =>
      Fs.create 2 [97] none (fun _ => 0) r.2 >>= fun r' =>
      outcome (Fs.write 3 0 2 (fun _ => 5) r'.2) >>= fun w =>
      Fs.lookup 2 [97] none w.2 >>= fun l =>
      outcome (Fs.unlink 2 [97] 3 ⟨0, 0, 0, 0, 0, fun _ => 0⟩ l.2) >>= fun _ =>
      .ok (r.1, r'.1, l.1)).toOption) = some (2, 3, some 3) := by
    decide +kernel
  obtain ⟨s₀, hmake, hcalls⟩ := outcome_bind_ok (toOption_ok hcalls)
  obtain ⟨⟨n, s₁⟩, hmkdir, hcalls⟩ := bind_ok hcalls
  obtain ⟨⟨m, s₂⟩, hcreate, hcalls⟩ := bind_ok hcalls
  obtain ⟨⟨size, s₃⟩, hwrite, hcalls⟩ := outcome_bind_ok hcalls
  obtain ⟨⟨r, s₄⟩, hlookup, hcalls⟩ := bind_ok hcalls
  obtain ⟨s₅, hunlink, hcalls⟩ := outcome_bind_ok hcalls
  cases hcalls
  have hname : GoodName [97] ∧ GoodName [100] := ⟨⟨by decide, by decide⟩, by decide, by decide⟩
  have hvic : (none : Option Nat) ≠ some 0 := by decide
  have hfresh : ((Volume.new.addDir 2).enter 1 [100] 2).names (2, [97]) = none := by decide
  have hthere : ((((Volume.new.addDir 2).enter 1 [100] 2).addFile 3).enter 2 [97] 3).names
      (2, [97]) = some 3 := by
    decide
  have hfile : 3 ∉ [2, 1] := by decide
  have h₁ := Mount.call (.nil ⟨mount s₀, Volume.new⟩) (e := .mkdir 1 [100] 2)
    ⟨List.mem_cons_self, hname.2, rfl⟩ (.mkdir hvic hmkdir)
  have h₂ := Mount.call h₁ (e := .create 2 [97] 3) ⟨List.mem_cons_self, hname.1, hfresh⟩
    (.create hvic hcreate)
  have hpos := (volume_refined (by decide) hmake h₂).2.posAt (i := 3) (by decide)
    (Nat.zero_le directDataSize)
  have h₃ := Mount.call h₂ (e := .write 3 0 2 fun _ => 5)
    ⟨List.mem_cons_self, by decide, by decide, hpos⟩
    (.write hwrite)
  have h₄ := Mount.call h₃ (e := .lookup 2 [97] (some 3)) ⟨List.mem_cons_self, hname.1⟩
    (.lookup hvic hlookup)
  have h₅ := Mount.call h₄ (e := .unlink 2 [97] 3)
    ⟨List.mem_cons_self, hname.1, hthere, fun h => absurd h hfile⟩
    (.unlink hunlink)
  exact ⟨s₀, _, hmake, h₅, (volume_refined (by decide) hmake h₅).2.root⟩

theorem volume_refined_sample :
    ∃ s₀ x, makeFs 1024 (fun _ _ => 0) ⟨0, 0, 0, 0, 0, fun _ => 0⟩ = .ok s₀ ∧
    Run (Guarded Mount.Step Mount.Asked) ⟨mount s₀, Volume.new⟩
      [.mkdir 1 [100] 2, .create 2 [97] 3, .write 3 0 2 (fun _ => 5), .lookup 2 [97] (some 3),
        .unlink 2 [97] 3] x ∧
    Run Volume.Step Volume.new
      [.mkdir 1 [100] 2, .create 2 [97] 3, .write 3 0 2 (fun _ => 5), .lookup 2 [97] (some 3),
        .unlink 2 [97] 3] x.vol ∧ x.Ok := by
  obtain ⟨s₀, x, hmake, hrun, -⟩ := sample_run
  exact ⟨s₀, x, hmake, hrun, volume_refined (by decide) hmake hrun⟩

end Fs

end CoroCore.Nfs
