import CoroCore.Nfs.Dirent
import CoroCore.Nfs.Mounted

/-!
# Directories

A directory is a file of entries. `DirOk`: it ends with a whole entry, and has a block for each of
its entries, so the entries of all directories together are no more than the disk has room for
(`card_entries_le`).

* `Mounted.findFree`, `Mounted.findEntry`: the two searches through a directory;
* `Mounted.linkEntry`: `__link` fills one free entry;
* `Mounted.clearEntry`: the write with which `unlink` ends;
-/

namespace CoroCore.Nfs

open Lib

namespace Fs

/-- Entry `k` of a directory, if it is in use. -/
def dirent (s : Fs) (dir k : Nat) : Option (CStr × Nat) :=
  direntOf fun j => s.byte dir (k * direntSize + j)

/-- The number of entries of a directory, in use or not. -/
def entries (s : Fs) (dir : Nat) : Nat := (s.ino dir).size / direntSize

structure DirOk (dir : Nat) (s : Fs) : Prop where
  type : (s.ino dir).type = itypeDir
  whole : (s.ino dir).size = s.entries dir * direntSize
  paged : ∀ k < s.entries dir, (s.refs (dir, slotAt (k * direntSize / blockSize))).isSome

variable {s t u : Fs} {live freed : List Nat} {top dir i k n : Nat} {name : CStr}

theorem SameData.entries (h : SameData dir s t) : t.entries dir = s.entries dir := by
  rw [Fs.entries, h.size, Fs.entries]

theorem SameData.dirent (h : SameData dir s t) (k : Nat) : t.dirent dir k = s.dirent dir k := by
  unfold Fs.dirent
  simp only [h.byte]

theorem SameData.dirOk (h : SameData dir s t) (hs : DirOk dir s) : DirOk dir t := by
  refine ⟨h.type.trans hs.type, by rw [h.size, hs.whole, h.entries], fun k hk => ?_⟩
  rw [h.entries] at hk
  obtain ⟨b, hb⟩ := Option.isSome_iff_exists.mp (hs.paged k hk)
  rw [h.refs _ b hb]
  rfl

/-! ## How many entries there are -/

/-- Entries that have a block below `total` are no more than 32 for each block. -/
theorem card_entries (total : Nat) (h : s.Owned bitmapModel) (P : Finset (Nat × Nat))
    (hP : ∀ p ∈ P, ∃ b < total, s.refs (p.1, slotAt (p.2 * direntSize / blockSize)) = some b) :
    P.card ≤ total * 32 := by
  let place : Nat × Nat → Nat × Nat := fun p =>
    ((s.refs (p.1, slotAt (p.2 * direntSize / blockSize))).getD 0, p.2 % 32)
  have hmaps : ∀ p ∈ P, place p ∈ Finset.range total ×ˢ Finset.range 32 := by
    intro p hp
    obtain ⟨b, hlt, hb⟩ := hP p hp
    refine Finset.mem_product.mpr
      ⟨Finset.mem_range.mpr ?_, Finset.mem_range.mpr (Nat.mod_lt _ (by decide))⟩
    show (s.refs _).getD 0 < total
    rwa [hb]
  have hinj : Set.InjOn place P := by
    intro p hp q hq heq
    obtain ⟨b, -, hb⟩ := hP p hp
    obtain ⟨c, -, hc⟩ := hP q hq
    obtain ⟨hblock, hmod⟩ := Prod.mk.inj heq
    rw [hb, hc] at hblock
    obtain rfl : b = c := hblock
    obtain ⟨hdir, hslot⟩ := Prod.mk.inj (h.inj _ _ b hb hc)
    have hpage := slotAt_injective hslot
    refine Prod.ext hdir ?_
    simp only [direntSize, blockSize] at hpage
    omega
  have hcard := Finset.card_le_card_of_injOn place hmaps hinj
  rwa [Finset.card_product, Finset.card_range, Finset.card_range] at hcard

theorem card_entries_le (h : s.Owned bitmapModel) (P : Finset (Nat × Nat))
    (hP : ∀ p ∈ P, (s.refs (p.1, slotAt (p.2 * direntSize / blockSize))).isSome) :
    P.card ≤ 2 ^ 25 := by
  refine card_entries (2 ^ 20) h P fun p hp => ?_
  obtain ⟨b, hb⟩ := Option.isSome_iff_exists.mp (hP p hp)
  exact ⟨b, h.block_lt hb, hb⟩

theorem DirOk.entries_le (h : DirOk dir s) (hown : s.Owned bitmapModel) :
    s.entries dir ≤ 2 ^ 25 := by
  have hcard := card_entries_le hown ((Finset.range (s.entries dir)).image (Prod.mk dir)) ?_
  · rwa [Finset.card_image_of_injective _ (Prod.mk_right_injective dir), Finset.card_range] at hcard
  · intro p hp
    obtain ⟨k, hk, rfl⟩ := Finset.mem_image.mp hp
    exact h.paged k (Finset.mem_range.mp hk)

/-- The end of an entry is a 32-bit number. -/
theorem DirOk.offset_lt (h : DirOk dir s) (hown : s.Owned bitmapModel) (hk : k ≤ s.entries dir) :
    k * direntSize + direntSize < 2 ^ 32 := by
  have hle := h.entries_le hown
  simp only [direntSize]
  omega

/-! ## Reading an entry -/

theorem Near.le {o o' : Nat} (h : Near s i o) (hle : o' ≤ o) : Near s i o' :=
  h.imp_left (Nat.le_trans hle)

/-- The entry at `k * direntSize` is read. -/
theorem Mounted.readEntry {buf : Bytes} (h : Mounted live freed top s) (hdir : dir ∈ live)
    (hok : DirOk dir s) (hk : k < s.entries dir) (hnear : Near s dir (k * direntSize))
    (hr : Fs.read dir (k * direntSize) direntSize s = .ok (n, buf, t)) :
    n = direntSize ∧ direntOf buf = s.dirent dir k ∧ Mounted live freed top t ∧
      (t.ino dir).valid = true ∧ (∀ j, j ≠ 0 → SameFile j s t) ∧ Near t dir
      ((k + 1) * direntSize) := by
  obtain ⟨hn, hbuf, ht, hv, hsame, hnext⟩ :=
    h.read hdir (by decide) (h.posAt (h.ne_zero hdir) hnear)
    (hok.offset_lt h.table.core.owned (Nat.le_of_lt hk)) hr
  refine ⟨hn, ?_, ht, hv, hsame, ?_⟩
  · rw [hbuf, Fs.dirent]
    refine direntOf_congr fun j hj => ?_
    rw [memcpy_in (Nat.zero_le j) (by rwa [Nat.zero_add]), Nat.sub_zero]
  · rw [Nat.succ_mul]
    refine hnext fun hlt => ?_
    have hge : directDataSize ≤ k * direntSize := by
      simp only [directDataSize, direntSize] at *
      omega
    have hlink := Store.link_of_slot hge (hok.paged k hk)
    rw [Store.refs_eq, slotRef] at hlink ⊢
    exact chain_isSome_le (Nat.zero_le _) hlink

/-! ## The searches -/

theorem direntOf_eq_none {b : Bytes} : direntOf b = none ↔ direntNumber b = 0 := by
  unfold direntOf
  split
  · next hz => exact iff_of_true rfl hz
  · next hz => exact iff_of_false (Option.some_ne_none _) hz

theorem DirOk.size_le_iff (h : DirOk dir s) : (s.ino dir).size ≤ k * direntSize ↔
    s.entries dir ≤ k := by
  rw [h.whole]
  exact Nat.mul_le_mul_right_iff (by decide)

/-- The loop of `__link` stops at a free entry or at the end. -/
theorem Mounted.findFree (hdir : dir ∈ live) : ∀ (fuel k : Nat) (s : Fs) {o : Nat},
    Mounted live freed top s → DirOk dir s → k ≤ s.entries dir → s.entries dir < k + fuel →
    Near s dir (k * direntSize) → Fs.findFree dir fuel (k * direntSize) s = .ok (o, t) →
    ∃ m, o = m * direntSize ∧ (m = s.entries dir ∨ m < s.entries dir ∧ s.dirent dir m = none) ∧
      Mounted live freed top t ∧ (∀ j, j ≠ 0 → SameFile j s t) ∧ Near t dir (m * direntSize) := by
  intro fuel
  induction fuel with
  | zero => exact fun k s _ _ _ hle hlt => absurd hle (Nat.not_le.mpr hlt)
  | succ fuel ih =>
    intro k s o h hok hle hlt hnear hres
    unfold Fs.findFree at hres
    split at hres
    · next hend =>
      cases hres
      exact ⟨k, rfl, .inl (Nat.le_antisymm hle (hok.size_le_iff.mp hend)), h,
        fun j _ => SameFile.refl j _, hnear⟩
    next hin =>
    have hk : k < s.entries dir := Nat.lt_of_not_le fun hge => hin (hok.size_le_iff.mpr hge)
    obtain ⟨⟨n, buf, u⟩, hread, hres⟩ := bind_ok hres
    obtain ⟨hn, hbuf, hu, -, hsame, hnext⟩ := h.readEntry hdir hok hk hnear hread
    simp only at hres
    rw [if_neg (not_not.mpr hn)] at hres
    split at hres
    · next hzero =>
      cases hres
      exact ⟨k, rfl, .inr ⟨hk, hbuf.symm.trans (direntOf_eq_none.mpr hzero)⟩, hu, hsame,
        hnext.le (Nat.mul_le_mul_right _ (Nat.le_succ k))⟩
    · have hdata := (hsame dir (h.ne_zero hdir)).toSameData
      rw [← Nat.succ_mul] at hres
      obtain ⟨m, ho, hm, ht, hsame', hnear'⟩ := ih (k + 1) u hu (hdata.dirOk hok)
        (by rwa [hdata.entries]) (by rw [hdata.entries]; omega) hnext hres
      rw [hdata.entries, hdata.dirent] at hm
      exact ⟨m, ho, hm, ht, fun j hj => (hsame j hj).trans (hsame' j hj), hnear'⟩

/-- What the search of `lookup` and `unlink` has found: the entry with the name, or that there is
none from index `k` on. -/
def Found (s : Fs) (dir : Nat) (name : CStr) (k : Nat) : Option (Nat × Bytes) → Prop
  | none => ∀ m, k ≤ m → m < s.entries dir → ∀ i, s.dirent dir m ≠ some (name, i)
  | some (o, buf) => ∃ m, m < s.entries dir ∧ o = m * direntSize ∧ direntOf buf = s.dirent dir m ∧
      s.dirent dir m = some (name, direntNumber buf)

theorem Found.same {r : Option (Nat × Bytes)} (h : Found t dir name k r) (hs : SameData dir s t) :
    Found s dir name k r := by
  cases r with
  | none =>
    intro m hk hm i
    rw [← hs.dirent]
    exact h m hk (by rwa [hs.entries]) i
  | some r =>
    obtain ⟨m, hm, ho, hbuf, hfound⟩ := h
    rw [hs.entries] at hm
    rw [hs.dirent] at hbuf hfound
    exact ⟨m, hm, ho, hbuf, hfound⟩

theorem Mounted.findEntry (hdir : dir ∈ live) (hname : GoodName name) : ∀ (fuel k : Nat) (s : Fs)
    {r : Option (Nat × Bytes)}, Mounted live freed top s → DirOk dir s → k ≤ s.entries dir →
    s.entries dir < k + fuel → Near s dir (k * direntSize) →
    Fs.findEntry dir name fuel (k * direntSize) s = .ok (r, t) →
    Found s dir name k r ∧ Mounted live freed top t ∧ (∀ j, j ≠ 0 → SameFile j s t) ∧
      ∀ o buf, r = some (o, buf) → Near t dir o := by
  intro fuel
  induction fuel with
  | zero => exact fun k s _ _ _ hle hlt => absurd hle (Nat.not_le.mpr hlt)
  | succ fuel ih =>
    intro k s r h hok hle hlt hnear hres
    unfold Fs.findEntry at hres
    split at hres
    · next hend =>
      cases hres
      refine ⟨fun m hm hlt => ?_, h, fun j _ => SameFile.refl j _, fun _ _ he => by cases he⟩
      exact absurd (hok.size_le_iff.mp hend) (Nat.not_le.mpr (Nat.lt_of_le_of_lt hm hlt))
    next hin =>
    have hk : k < s.entries dir := Nat.lt_of_not_le fun hge => hin (hok.size_le_iff.mpr hge)
    obtain ⟨⟨n, buf, u⟩, hread, hres⟩ := bind_ok hres
    obtain ⟨hn, hbuf, hu, -, hsame, hnext⟩ := h.readEntry hdir hok hk hnear hread
    have hdata := (hsame dir (h.ne_zero hdir)).toSameData
    simp only at hres
    rw [if_neg (not_not.mpr hn)] at hres
    split at hres
    · next hmatch =>
      cases hres
      have hfound := (strcmp_dirent hname).mp hmatch
      refine ⟨⟨k, hk, rfl, hbuf, hbuf.symm.trans hfound⟩, hu, hsame, fun o buf' he => ?_⟩
      cases he
      exact hnext.le (Nat.mul_le_mul_right _ (Nat.le_succ k))
    · next hmiss =>
      rw [Nat.mod_eq_of_lt (hok.offset_lt h.table.core.owned hle), ← Nat.succ_mul] at hres
      obtain ⟨hfound, ht, hsame', hnear'⟩ := ih (k + 1) u hu (hdata.dirOk hok)
        (by rwa [hdata.entries]) (by rw [hdata.entries]; omega) hnext hres
      have hfound := hfound.same hdata
      refine ⟨?_, ht, fun j hj => (hsame j hj).trans (hsame' j hj), hnear'⟩
      cases r with
      | none =>
        intro m hm hlt i hdirent
        rcases Nat.lt_or_eq_of_le hm with hm | rfl
        · exact hfound m hm hlt i hdirent
        · -- this is the entry that the comparison has turned down
          rw [← hbuf] at hdirent
          refine hmiss ((strcmp_dirent hname).mpr ?_)
          rw [hdirent]
          unfold direntOf at hdirent
          split at hdirent
          · cases hdirent
          · rw [← (Prod.mk.inj (Option.some.inj hdirent)).2]
      | some r => exact hfound

/-! ## Writing an entry -/

/-- Entry `k` of a directory became `e`. -/
structure FilledEntry (dir k : Nat) (e : Option (CStr × Nat)) (s t : Fs) : Prop where
  dirOk : DirOk dir t
  entries : t.entries dir = max (s.entries dir) (k + 1)
  here : t.dirent dir k = e
  there : ∀ m, m ≠ k → t.dirent dir m = s.dirent dir m
  nlinks : (t.ino dir).nlinks = (s.ino dir).nlinks

/-- The directory was the same file before. -/
theorem FilledEntry.after {e : Option (CStr × Nat)} (h : FilledEntry dir k e t u)
    (hs : SameFile dir s t) :
    FilledEntry dir k e s u where
  dirOk := h.dirOk
  entries := by rw [h.entries, hs.entries]
  here := h.here
  there m hm := by rw [h.there m hm, hs.dirent]
  nlinks := h.nlinks.trans hs.nlinks

/-- The directory that got an entry is not empty. -/
theorem FilledEntry.size_ne_zero {e : Option (CStr × Nat)} (h : FilledEntry dir k e s t) :
    (t.ino dir).size ≠ 0 := by
  intro hsize
  have hentries := h.entries
  rw [Fs.entries, hsize, Nat.zero_div] at hentries
  exact absurd (Nat.le_max_right (s.entries dir) (k + 1)) (hentries ▸ Nat.not_succ_le_zero k)

theorem Mounted.writeEntry {src : Bytes} (h : Mounted live freed top s) (hdir : dir ∈ live)
    (hok : DirOk dir s) (hk : k ≤ s.entries dir) (hnear : Near s dir (k * direntSize))
    (hnew : k = s.entries dir → ∃ j < direntSize, src j ≠ 0)
    (hw : Fs.write dir (k * direntSize) direntSize src s = .ok (n, t)) :
    Mounted live freed top t ∧ FilledEntry dir k (direntOf src) s t ∧
      ∀ j, j ≠ 0 → j ≠ dir → SameFile j s t := by
  obtain ⟨ht, hwrote⟩ := h.write hdir (by decide) (h.posAt (h.ne_zero hdir) hnear)
    (hok.offset_lt h.table.core.owned hk) hw
  have hsize : (t.ino dir).size = max (s.entries dir) (k + 1) * direntSize := by
    rw [hwrote.size, hok.whole, ← Nat.succ_mul, Nat.mul_max_mul_right]
  have hentries : t.entries dir = max (s.entries dir) (k + 1) := by
    rw [Fs.entries, hsize, Nat.mul_div_cancel _ (by decide)]
  refine ⟨ht, ⟨⟨hwrote.type.trans hok.type, by rw [hsize, hentries], fun m hm => ?_⟩, hentries, ?_,
    fun m hm => ?_, hwrote.nlinks⟩, hwrote.other⟩
  · rw [hentries] at hm
    rcases Nat.lt_or_ge m (s.entries dir) with hlt | hge
    · obtain ⟨b, hb⟩ := Option.isSome_iff_exists.mp (hok.paged m hlt)
      rw [hwrote.refs _ b hb]
      rfl
    · -- the entry is a new one, and it is not all zeros
      obtain rfl : m = k := by omega
      obtain ⟨j, hj, hsrc⟩ := hnew (Nat.le_antisymm hk hge)
      have hslot := slot_of_byte (s := t) (i := dir) (p := m * direntSize + j)
        (by rwa [hwrote.here j hj])
      rwa [show (m * direntSize + j) / blockSize = m * direntSize / blockSize by
        simp only [direntSize, blockSize] at *
        omega] at hslot
  · exact direntOf_congr fun j hj => hwrote.here j hj
  · refine direntOf_congr fun j hj => hwrote.there _ ?_
    simp only [direntSize] at *
    omega

/-- What `__link` does: a free entry of the directory gets the name and the number. -/
structure Linked (dir n : Nat) (name : CStr) (s t : Fs) : Prop where
  slot : ∃ k, (k = s.entries dir ∨ k < s.entries dir ∧ s.dirent dir k = none) ∧
    FilledEntry dir k (some (name, n)) s t
  data : SameData n s t
  nlinks : (t.ino n).nlinks = ((s.ino n).nlinks + 1) % 2 ^ 16
  other : ∀ j, j ≠ 0 → j ≠ dir → j ≠ n → SameFile j s t

theorem Mounted.linkEntry {junk : Bytes} (h : Mounted live freed top s) (hdir : dir ∈ live)
    (hn : n ∈ live) (hne : n ≠ dir) (hok : DirOk dir s) (hname : GoodName name)
    (hres : Fs.linkEntry dir n name junk s = .ok t) :
    Mounted live freed top t ∧ Linked dir n name s t := by
  have hn0 := h.ne_zero hn
  have hdir0 := h.ne_zero hdir
  obtain ⟨u, hl, hres⟩ := bind_ok hres
  obtain ⟨hu, hkeep, hv⟩ := h.load hn hl
  obtain ⟨r1, -, r3, r4⟩ := hu.table.core.range n
  obtain ⟨⟨o, w⟩, hfind, hres⟩ := bind_ok hres
  obtain ⟨⟨m, x⟩, hw, hres⟩ := bind_ok hres
  obtain rfl : x = t := Except.ok.inj hres
  -- the link is counted first
  obtain ⟨hmeta, hbyte, hrefs⟩ := hu.setMeta
    (x := { u.ino n with nlinks := ((u.ino n).nlinks + 1) % 2 ^ 16, dirty := true }) hn rfl rfl
    ⟨r1, Nat.mod_lt _ (by decide), r3, r4⟩ hv rfl rfl
  generalize hy : u.setIno n { u.ino n with nlinks := ((u.ino n).nlinks + 1) % 2 ^ 16, dirty :=
    true } = y at *
  have hself : y.ino n =
      { u.ino n with nlinks := ((u.ino n).nlinks + 1) % 2 ^ 16, dirty := true } := by
    rw [← hy, Store.setIno_self]
  have hcount : ∀ j, j ≠ 0 → j ≠ n → SameFile j s y := by
    intro j hj hjn
    refine (hkeep.sameFile hj).trans ?_
    have hino : y.ino j = u.ino j := by rw [← hy, Store.setIno_of_ne hjn]
    refine ⟨⟨by rw [hino], by rw [hino], hbyte j, fun p b hb => by rw [hrefs, hb], fun hb => ?_⟩,
      by rw [hino]⟩
    rwa [hino]
  have hdata : SameData n s y := by
    refine (hkeep.sameFile hn0).toSameData.trans ⟨by rw [hself], by rw [hself], hbyte n,
      fun p b hb => by rw [hrefs, hb], fun hb => ?_⟩
    rw [hself]
    exact ⟨hb.1, hb.2⟩
  have hdirSame := hcount dir hdir0 hne.symm
  have hoky := hdirSame.dirOk hok
  -- then the entry is written
  obtain ⟨k, rfl, hk, hw', hfound, hnear⟩ :=
    Mounted.findFree hdir ((y.ino dir).size / direntSize + 1) 0 y
    hmeta hoky (Nat.zero_le _) (by rw [Nat.zero_add]; exact Nat.lt_succ_self _)
    (by rw [Nat.zero_mul]; exact .inl (Nat.zero_le _)) (by rw [Nat.zero_mul]; exact hfind)
  have hfree : k = s.entries dir ∨ k < s.entries dir ∧ s.dirent dir k = none := by
    rwa [hdirSame.entries, hdirSame.dirent] at hk
  have hscan := hfound dir hdir0
  have hnum : direntOf (makeDirent n name junk) = some (name, n) := by
    refine direntOf_make hn0 ?_ hname
    have hbound := h.table.bound n hn
    simp only [dinodeSize] at hbound
    omega
  obtain ⟨ht, hfilled, hother⟩ := hw'.writeEntry hdir (hscan.dirOk hoky)
    (by rw [hscan.entries]; rcases hk with rfl | ⟨hlt, -⟩; exacts [Nat.le_refl _, Nat.le_of_lt hlt])
    hnear
    (fun _ => by
      by_contra hzero
      rw [direntOf_zero fun j hj => not_not.mp fun hne =>
        hzero ⟨j, Nat.lt_of_lt_of_le hj (by decide), hne⟩] at hnum
      cases hnum) hw
  rw [hnum] at hfilled
  refine ⟨ht, ⟨k, hfree, hfilled.after (hdirSame.trans hscan)⟩, ?_, ?_, fun j hj hjd hjn => ?_⟩
  · exact (hdata.trans (hfound n hn0).toSameData).trans (hother n hn0 hne).toSameData
  · rw [(hother n hn0 hne).nlinks, (hfound n hn0).nlinks, hself, (hkeep.alike n hn0).nlinks]
  · exact ((hcount j hj hjn).trans (hfound j hj)).trans (hother j hj hjd)

/-- The write with which `unlink` ends. -/
theorem Mounted.clearEntry {buf : Bytes} (h : Mounted live freed top s) (hdir : dir ∈ live)
    (hok : DirOk dir s) (hk : k < s.entries dir) (hnear : Near s dir (k * direntSize))
    (hw : Fs.write dir (k * direntSize) direntSize (setLe buf 0 4 0) s = .ok (n, t)) :
    Mounted live freed top t ∧ FilledEntry dir k none s t ∧ ∀ j, j ≠ 0 → j ≠ dir →
    SameFile j s t := by
  have hwrote := h.writeEntry hdir hok (Nat.le_of_lt hk) hnear
    (fun he => absurd (he ▸ hk) (Nat.lt_irrefl _)) hw
  rwa [direntOf_clear] at hwrote

end Fs

end CoroCore.Nfs
