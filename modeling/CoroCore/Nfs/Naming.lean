import CoroCore.Nfs.Directory

/-!
# The calls that go by a name

What a completed call does to the entries and the inodes of a mounted file system.

* `Mounted.link`, `Mounted.make`: a free entry of the directory gets the name, and for `create` and
  `mkdir` a new inode;
* `Mounted.lookup`: the number in the entry with the name, and no file changes;
* `Mounted.readDir`: the next entry in use;
* `Mounted.unlink`: the entry is cleared, and the inode goes with its last link.
-/

namespace CoroCore.Nfs

open Lib

theorem GoodName.not_long {name : CStr} (hname : GoodName name) : ¬maxNameLength < name.length :=
  Nat.not_lt.mpr (Nat.le_of_lt hname.short)

namespace Fs

variable {s t u : Fs} {live freed : List Nat} {top dir i k n : Nat} {name : CStr}

/-! ## `link` -/

/-- Objects that are loaded or recycled, before an entry is filled. -/
theorem Linked.after (h : Linked dir n name t u) (hs : ∀ j, j ≠ 0 → SameFile j s t) (hdir : dir ≠ 0)
    (hn : n ≠ 0) : Linked dir n name s u := by
  obtain ⟨k, hk, hfilled⟩ := h.slot
  have hd := hs dir hdir
  rw [hd.entries, hd.dirent] at hk
  refine ⟨⟨k, hk, hfilled.after hd⟩, (hs n hn).toSameData.trans h.data, ?_,
    fun j hj hjd hjn => (hs j hj).trans (h.other j hj hjd hjn)⟩
  rw [h.nlinks, (hs n hn).nlinks]

theorem Mounted.link {junk : Bytes} (h : Mounted live freed top s) (hdir : dir ∈ live)
    (hn : n ∈ live) (hne : n ≠ dir) (hok : DirOk dir s) (hname : GoodName name)
    (hres : Fs.link dir n name junk s = .ok t) :
    Mounted live freed top t ∧ Linked dir n name s t := by
  rw [Fs.link, if_neg hname.not_long] at hres
  obtain ⟨u, hl, hres⟩ := bind_ok hres
  obtain ⟨hu, hkeep, -⟩ := h.load hdir hl
  have hsame : ∀ j, j ≠ 0 → SameFile j s u := fun j hj => hkeep.sameFile hj
  obtain ⟨ht, hlinked⟩ :=
    hu.linkEntry hdir hn hne ((hsame dir (h.ne_zero hdir)).toSameData.dirOk hok) hname hres
  exact ⟨ht, hlinked.after hsame (h.ne_zero hdir) (h.ne_zero hn)⟩

/-! ## `create` and `mkdir` -/

/-- What `create` and `mkdir` do: a free entry of the directory gets the name and a new inode. -/
structure Made (type dir n : Nat) (name : CStr) (s t : Fs) : Prop where
  slot : ∃ k, (k = s.entries dir ∨ k < s.entries dir ∧ s.dirent dir k = none) ∧
    FilledEntry dir k (some (name, n)) s t
  type : (t.ino n).type = type
  size : (t.ino n).size = 0
  blank : (t.ino n).Blank
  nlinks : (t.ino n).nlinks = 1
  other : ∀ j, j ≠ 0 → j ≠ dir → j ≠ n → SameFile j s t

theorem Allocated.sameFile {j : Nat} (h : Allocated live n s t) (hj : j ≠ 0) (hjn : j ≠ n) :
    SameFile j s t where
  size := (h.alike j hj hjn).size
  type := (h.alike j hj hjn).type
  byte := h.byte j hj
  refs p b := h.refs (j, p) b
  blank := (h.alike j hj hjn).blank
  nlinks := (h.alike j hj hjn).nlinks

theorem Mounted.make {type : Nat} {victim : Option Nat} {junk : Bytes}
    (h : Mounted live freed top s) (htype : type < 2 ^ 8) (hdir : dir ∈ live) (hok : DirOk dir s)
    (hname : GoodName name) (hvic : victim ≠ some 0)
    (hbound : top * dinodeSize + dinodeSize < 2 ^ 32)
    (hres : Fs.make type dir name victim junk s = .ok (n, t)) :
    ∃ top', Mounted (n :: live) (freed.erase n) top' t ∧ (∀ m, m < top' ↔ m = n ∨ m < top) ∧
      n ≠ 0 ∧ n ∉ live ∧ (n ∈ freed ∨ freed = []) ∧ Made type dir n name s t := by
  rw [Fs.make, if_neg hname.not_long] at hres
  obtain ⟨u, hl, hres⟩ := outcome_bind_ok hres
  obtain ⟨⟨m, v⟩, halloc, hres⟩ := bind_ok hres
  obtain ⟨w, hl', hres⟩ := outcome_bind_ok hres
  obtain ⟨x, hlink, hres⟩ := outcome_bind_ok hres
  cases hres
  obtain ⟨hu, hkeep, -⟩ := h.load hdir hl
  have hhead := hu.list.head.2.1
  obtain ⟨top', hv, htop, hn, hfree, hmem, hall⟩ := hu.alloc hvic (by
    simp only [dinodeSize] at *
    omega) halloc
  obtain ⟨hw, hkeep', hvalid⟩ := hv.load List.mem_cons_self hl'
  -- the type is set in the new object
  obtain ⟨r1, r2, r3, -⟩ := hw.table.core.range n
  obtain ⟨hy, hbyte, hrefs⟩ := hw.setMeta (x := { w.ino n with type := type, dirty := true })
    List.mem_cons_self rfl rfl ⟨r1, r2, r3, htype⟩ hvalid rfl rfl
  obtain ⟨x, hnew⟩ := hall.ino
  have hfresh : x.initData.Alike (w.ino n) := hnew ▸ hkeep'.alike n hn
  generalize hz : w.setIno n { w.ino n with type := type, dirty := true } = y at *
  have hself : y.ino n = { w.ino n with type := type, dirty := true } := by
    rw [← hz, Store.setIno_self]
  have hsame : ∀ j, j ≠ 0 → j ≠ n → SameFile j s y := by
    intro j hj hjn
    refine ((hkeep.sameFile hj).trans (hall.sameFile hj hjn)).trans ((hkeep'.sameFile hj).trans ?_)
    have hino : y.ino j = w.ino j := by rw [← hz, Store.setIno_of_ne hjn]
    refine ⟨⟨by rw [hino], by rw [hino], hbyte j, fun p b hb => by rw [hrefs, hb], fun hb => ?_⟩,
      by rw [hino]⟩
    rwa [hino]
  have hdn : dir ≠ n := fun he => hfree (he ▸ hdir)
  have hdirSame := hsame dir (h.ne_zero hdir) hdn
  obtain ⟨ht, hlinked⟩ := hy.linkEntry (List.mem_cons_of_mem n hdir) List.mem_cons_self hdn.symm
    (hdirSame.dirOk hok) hname hlink
  obtain ⟨k, hk, hfilled⟩ := hlinked.slot
  rw [hdirSame.entries, hdirSame.dirent] at hk
  refine ⟨top', ht, htop, hn, hfree, hmem, ⟨k, hk, hfilled.after hdirSame⟩, ?_, ?_,
    hlinked.data.blank ?_, ?_,
    fun j hj hjd hjn => (hsame j hj hjn).trans (hlinked.other j hj hjd hjn)⟩
  · rw [hlinked.data.type, hself]
  · rw [hlinked.data.size, hself]
    exact hfresh.size
  · rw [hself]
    have hb := hfresh.blank ⟨fun _ _ => rfl, rfl⟩
    exact ⟨hb.1, hb.2⟩
  · have hnl : (w.ino n).nlinks = 0 := hfresh.nlinks
    rw [hlinked.nlinks, hself, hnl]
    rfl

/-! ## `lookup` -/

theorem Mounted.search {r : Option (Nat × Bytes)} (h : Mounted live freed top s) (hdir : dir ∈ live)
    (hok : DirOk dir s) (hname : GoodName name)
    (hres : Fs.findEntry dir name ((s.ino dir).size / direntSize + 1) 0 s = .ok (r, t)) :
    Found s dir name 0 r ∧ Mounted live freed top t ∧ (∀ j, j ≠ 0 → SameFile j s t) ∧
      ∀ o buf, r = some (o, buf) → Near t dir o := by
  refine Mounted.findEntry hdir hname _ 0 s h hok
    (Nat.zero_le _) ?_ ?_ (by rw [Nat.zero_mul]; exact hres)
  · rw [Nat.zero_add]
    exact Nat.lt_succ_self _
  · rw [Nat.zero_mul]
    exact .inl (Nat.zero_le _)

/-- The answer of `lookup`. -/
def Answers (s : Fs) (dir : Nat) (name : CStr) : Option Nat → Prop
  | none => ∀ k < s.entries dir, ∀ i, s.dirent dir k ≠ some (name, i)
  | some i => ∃ k < s.entries dir, s.dirent dir k = some (name, i)

/-- The inodes that the entries of directory `dir` name are in use. -/
def Names (dir : Nat) (live : List Nat) (s : Fs) : Prop :=
  ∀ k < s.entries dir, ∀ name i, s.dirent dir k = some (name, i) → i ∈ live

theorem Mounted.lookup {victim r : Option Nat} (h : Mounted live freed top s) (hdir : dir ∈ live)
    (hok : DirOk dir s) (hname : GoodName name) (hnames : Names dir live s) (hvic : victim ≠ some 0)
    (hres : Fs.lookup dir name victim s = .ok (r, t)) :
    Mounted live freed top t ∧ (∀ j, j ≠ 0 → SameFile j s t) ∧ Answers s dir name r := by
  rw [Fs.lookup, if_neg hname.not_long] at hres
  obtain ⟨u, hl, hres⟩ := outcome_bind_ok hres
  obtain ⟨hu, hkeep, -⟩ := h.load hdir hl
  have hdata := (hkeep.sameFile (h.ne_zero hdir)).toSameData
  obtain ⟨⟨found, v⟩, hfind, hres⟩ := outcome_bind_ok hres
  obtain ⟨hfound, hv, hsame, -⟩ := hu.search hdir (hdata.dirOk hok) hname hfind
  have hfound := hfound.same hdata
  have hsame : ∀ j, j ≠ 0 → SameFile j s v := fun j hj => (hkeep.sameFile hj).trans (hsame j hj)
  cases found with
  | none =>
    cases hres
    exact ⟨hv, hsame, fun k hk => hfound k (Nat.zero_le k) hk⟩
  | some e =>
    obtain ⟨o, buf⟩ := e
    obtain ⟨k, hk, -, -, hentry⟩ := hfound
    have hlive := hnames k hk name _ hentry
    obtain ⟨w, hget, hres⟩ := bind_ok hres
    obtain ⟨x, hl', hres⟩ := outcome_bind_ok hres
    cases hres
    obtain ⟨hw, hshift⟩ := hv.getInode (h.ne_zero hlive) hvic hget
    obtain ⟨hx, hkeep', -⟩ := hw.load hlive hl'
    exact ⟨hx, fun j hj => ((hsame j hj).trans (hshift.sameFile hj)).trans (hkeep'.sameFile hj),
      k, hk, hentry⟩

/-! ## `read_dir` -/

/-- `read_dir` up to its next `co_yield`: the name and the number in the next entry in use, and the
offset behind it. The offset is a 32-bit variable. -/
def readDir (dir : Nat) (victim : Option Nat) : Nat → Nat → Fs →
    Outcome (Option ((CStr × Nat) × Nat) × Fs)
  | 0, _, s => .ok (none, s)
  | fuel + 1, offset, s =>
    if (s.ino dir).size ≤ offset then .ok (none, s)
    else do
      let (n, buf, s) ← outcome (read dir offset direntSize s)
      if n ≠ direntSize then .ok (none, s)
      else if direntNumber buf = 0 then readDir dir victim fuel ((offset + direntSize) % 2 ^ 32) s
      else do
        let s ← getInode (direntNumber buf) victim s
        return (some ((cstrAt buf 4 maxNameLength, direntNumber buf),
          (offset + direntSize) % 2 ^ 32), s)

/-- What `read_dir` yields from entry `k` on. -/
def Yields (s : Fs) (dir k : Nat) : Option ((CStr × Nat) × Nat) → Prop
  | none => ∀ m, k ≤ m → m < s.entries dir → s.dirent dir m = none
  | some (e, o) => ∃ m, k ≤ m ∧ m < s.entries dir ∧ s.dirent dir m = some e ∧
      o = (m + 1) * direntSize ∧
      ∀ j, k ≤ j → j < m → s.dirent dir j = none

/-- An entry that is not in use is passed over. -/
theorem Yields.pass {r : Option ((CStr × Nat) × Nat)} (h : Yields s dir (k + 1) r)
    (hk : s.dirent dir k = none) : Yields s dir k r := by
  have hfrom : ∀ m, k ≤ m → m = k ∨ k + 1 ≤ m := fun m hm =>
    (Nat.lt_or_eq_of_le hm).symm.imp_left Eq.symm
  cases r with
  | none =>
    intro m hm hlt
    rcases hfrom m hm with rfl | hm
    · exact hk
    · exact h m hm hlt
  | some r =>
    obtain ⟨m, hm, hlt, he, ho, hbetween⟩ := h
    refine ⟨m, Nat.le_of_succ_le hm, hlt, he, ho, fun j hj hjm => ?_⟩
    rcases hfrom j hj with rfl | hj
    · exact hk
    · exact hbetween j hj hjm

theorem Yields.same {r : Option ((CStr × Nat) × Nat)} (h : Yields t dir k r)
    (hs : SameData dir s t) :
    Yields s dir k r := by
  unfold Yields at h ⊢
  simp only [hs.entries, hs.dirent] at h
  exact h

theorem Mounted.readDir {victim : Option Nat} (hdir : dir ∈ live) (hvic : victim ≠ some 0) :
    ∀ (fuel k : Nat) (s : Fs) {r : Option ((CStr × Nat) × Nat)},
    Mounted live freed top s → DirOk dir s →
    s.entries dir < k + fuel → Near s dir (k * direntSize) →
    Fs.readDir dir victim fuel (k * direntSize) s = .ok (r, t) →
    Mounted live freed top t ∧ (∀ j, j ≠ 0 → SameFile j s t) ∧ Yields s dir k r := by
  intro fuel
  induction fuel with
  | zero =>
    intro k s r h _ hlt _ hres
    cases hres
    exact ⟨h, fun j _ => SameFile.refl j _, fun m hm hm' => by omega⟩
  | succ fuel ih =>
    intro k s r h hok hlt hnear hres
    unfold Fs.readDir at hres
    split at hres
    · next hend =>
      cases hres
      refine ⟨h, fun j _ => SameFile.refl j _, fun m hm hm' => ?_⟩
      exact absurd (hok.size_le_iff.mp hend) (Nat.not_le.mpr (Nat.lt_of_le_of_lt hm hm'))
    next hin =>
    have hk : k < s.entries dir := Nat.lt_of_not_le fun hge => hin (hok.size_le_iff.mpr hge)
    obtain ⟨⟨n, buf, u⟩, hread, hres⟩ := outcome_bind_ok hres
    obtain ⟨hn, hbuf, hu, -, hsame, hnext⟩ := h.readEntry hdir hok hk hnear hread
    have hdata := (hsame dir (h.ne_zero hdir)).toSameData
    simp only at hres
    rw [if_neg (not_not.mpr hn)] at hres
    have hnowrap : (k * direntSize + direntSize) % 2 ^ 32 = (k + 1) * direntSize := by
      rw [Nat.mod_eq_of_lt (hok.offset_lt h.table.core.owned (Nat.le_of_lt hk)), Nat.succ_mul]
    split at hres
    · next hfree =>
      rw [hnowrap] at hres
      obtain ⟨ht, hsame', hyield⟩ :=
        ih (k + 1) u hu (hdata.dirOk hok) (by rw [hdata.entries]; omega) hnext hres
      exact ⟨ht, fun j hj => (hsame j hj).trans (hsame' j hj),
        (hyield.same hdata).pass (hbuf.symm.trans (direntOf_eq_none.mpr hfree))⟩
    · next hused =>
      obtain ⟨w, hget, hres⟩ := bind_ok hres
      cases hres
      obtain ⟨hw, hshift⟩ := hu.getInode hused hvic hget
      refine ⟨hw, fun j hj => (hsame j hj).trans (hshift.sameFile hj), k, Nat.le_refl k,
        hk, ?_, hnowrap, fun j hj hjk => absurd hj (Nat.not_le.mpr hjk)⟩
      rw [← hbuf, direntOf, if_neg hused]

/-! ## `unlink` -/

/-- What `unlink` does: entry `k` of the directory is cleared, and inode `i` has a link less. -/
structure Unlinked (dir i k : Nat) (s t : Fs) : Prop where
  slot : FilledEntry dir k none s t
  other : ∀ j, j ≠ 0 → j ≠ dir → j ≠ i → SameFile j s t

theorem Mounted.unlink {junk : Dinode} (h : Mounted live freed top s) (hdir : dir ∈ live)
    (hi : i ∈ live) (hne : i ≠ dir) (hok : DirOk dir s) (hname : GoodName name)
    (hblank : (s.ino i).size = 0 → (s.ino i).Blank) (hlinks : (s.ino i).nlinks ≠ 0)
    (hres : Fs.unlink dir name i junk s = .ok t) :
    ∃ k < s.entries dir, (∃ n, s.dirent dir k = some (name, n)) ∧ Unlinked dir i k s t ∧
      (1 < (s.ino i).nlinks ∧ Mounted live freed top t ∧ SameData i s t ∧
          (t.ino i).nlinks = (s.ino i).nlinks - 1 ∨
        (s.ino i).nlinks = 1 ∧ Mounted (live.filter (· ≠ i)) (i :: freed) top t) := by
  have hdir0 := h.ne_zero hdir
  have hi0 := h.ne_zero hi
  rw [Fs.unlink, if_neg hname.not_long] at hres
  obtain ⟨u, hl, hres⟩ := bind_ok hres
  obtain ⟨hu, hkeep, -⟩ := h.load hdir hl
  have hdata := (hkeep.sameFile hdir0).toSameData
  obtain ⟨⟨found, v⟩, hfind, hres⟩ := bind_ok hres
  obtain ⟨hfound, hv, hsame, hnear⟩ := hu.search hdir (hdata.dirOk hok) hname hfind
  have hfound := hfound.same hdata
  have hsame : ∀ j, j ≠ 0 → SameFile j s v := fun j hj => (hkeep.sameFile hj).trans (hsame j hj)
  cases found with
  | none => cases hres
  | some e =>
    obtain ⟨o, buf⟩ := e
    obtain ⟨k, hk, rfl, -, hentry⟩ := hfound
    have hnear := hnear _ buf rfl
    have hlinksv := (hsame i hi0).nlinks
    obtain ⟨w, hdrop, hres⟩ := bind_ok hres
    obtain ⟨⟨m, x⟩, hw, hres⟩ := bind_ok hres
    cases hres
    -- the write of the cleared entry, from the state that `dropLink` leaves
    have hclear : ∀ live' freed', Mounted live' freed' top w → dir ∈ live' → Elsewhere i v w →
        Mounted live' freed' top t ∧ Unlinked dir i k s t ∧ SameFile i w t := by
      intro live' freed' hmount hdir' helse
      obtain ⟨hdw, hpos⟩ := helse dir hdir0 hne.symm
      have hd := (hsame dir hdir0).trans hdw
      obtain ⟨ht, hfilled, hother⟩ := hmount.clearEntry hdir' (hd.dirOk hok) (by rwa [hd.entries])
        (hnear.imp_right fun hall r => hpos r (hall r)) hw
      exact ⟨ht, ⟨hfilled.after hd, fun j hj hjd hji =>
        ((hsame j hj).trans (helse j hj hji).1).trans (hother j hj hjd)⟩, hother i hi0 hne⟩
    refine ⟨k, hk, ⟨_, hentry⟩, ?_⟩
    rcases Nat.lt_or_ge 1 (s.ino i).nlinks with hmany | hlast
    · obtain ⟨hmount, helse, hdi, hcount⟩ := hv.dropLink hi (by rwa [hlinksv]) hdrop
      obtain ⟨ht, hun, hsi⟩ := hclear live freed hmount hdir helse
      refine ⟨hun, .inl ⟨hmany, ht, ((hsame i hi0).toSameData.trans hdi).trans hsi.toSameData, ?_⟩⟩
      rw [hsi.nlinks, hcount, hlinksv]
    · have hone : (s.ino i).nlinks = 1 := Nat.le_antisymm hlast (Nat.pos_of_ne_zero hlinks)
      have hlive : ∀ j, j ∈ live.filter (· ≠ i) ↔ j ≠ i ∧ j ∈ live := by
        intro j
        rw [List.mem_filter, decide_eq_true_iff, and_comm]
      obtain ⟨hmount, hrem⟩ := hv.dropLast hi (by rw [hlinksv, hone])
        (fun hzero => (hsame i hi0).blank (hblank ((hsame i hi0).size.symm.trans hzero))) hlive
        hdrop
      obtain ⟨ht, hun, -⟩ := hclear _ _ hmount ((hlive dir).mpr ⟨hne.symm, hdir⟩) hrem.other
      exact ⟨hun, .inr ⟨hone, ht⟩⟩

end Fs

end CoroCore.Nfs
