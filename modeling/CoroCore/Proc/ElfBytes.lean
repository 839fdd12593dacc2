import CoroCore.Lib.Written
import CoroCore.Proc.Reclaim

/-!
# The bytes that the loader stores: `proc/elf.cc`, `mm/vmem.cc`

The loader of `Elf` again, with the bytes of the frames: `d` is memory by physical address, of which
the pages that are neither tables nor free matter. The image is memory of the kernel and does not
change. A page from the allocator has the bytes that it had.

* `loadElfBytes_fst`: without the bytes, it is the loader of `Elf`;
* `fillSegmentBytes_ok`: what is in the pages of a segment in the end.
-/

namespace CoroCore.User

open Lib Vmem

variable {α β γ : Type}

def Res.map (f : α → β) (r : Res α) : Res β := r.bind fun a p => .ok (f a) p

namespace UserMem

/-- `copyout` of bytes of the image. -/
def copyoutBytes (img : Bytes) : Nat → Nat → Nat → Nat → Bytes → UserMem → Res (Int × Bytes)
  | 0, _, _, len, d, p => .ok (if len = 0 then 0 else -1, d) p
  | fuel + 1, dstva, src, len, d, p =>
    let va0 := pgRoundDown dstva
    let pa0 := walkaddr p.pagetable va0 p.vm
    if len = 0 then .ok (0, d) p
    else if pa0 = 0 then .ok (-1, d) p
    else
      let n := min (pgSize - (dstva - va0)) len
      copyoutBytes img fuel (va0 + pgSize) ((src + n) % 2 ^ 64) (len - n)
        (memcpy d (pa0 + (dstva - va0)) (view img src) n) { p with reads := p.reads ++ [(src, n)] }

/-- `memset_user`. -/
def memsetBytes (val : UInt8) : Nat → Nat → Nat → Bytes → UserMem → Res (Int × Bytes)
  | 0, _, len, d, p => .ok (if len = 0 then 0 else -1, d) p
  | fuel + 1, dstva, len, d, p =>
    let va0 := pgRoundDown dstva
    let pa0 := walkaddr p.pagetable va0 p.vm
    if len = 0 then .ok (0, d) p
    else if pa0 = 0 then .ok (-1, d) p
    else
      let n := min (pgSize - (dstva - va0)) len
      memsetBytes val fuel (va0 + pgSize) (len - n) (memset d (pa0 + (dstva - va0)) val n) p

end UserMem

open UserMem

def zeroSegmentBytes (ph : ProgramHeader) (d : Bytes) (p : UserMem) : Res (Int × Bytes) :=
  (if ph.first < ph.pVaddr then
    memsetBytes 0 (pagesAbove ph.first) ph.first (ph.pVaddr - ph.first) d p
  else .ok (0, d) p).bind fun r p =>
    if r.1 < 0 then .ok (-1, r.2) p
    else if ph.fileEnd < ph.last then
      memsetBytes 0 (pagesAbove ph.fileEnd) ph.fileEnd (ph.last - ph.fileEnd) r.2 p
    else .ok (0, r.2) p

def fillSegmentBytes (img : Bytes) (start : Nat) (ph : ProgramHeader) (d : Bytes) (p : UserMem) :
    Res (Int × Bytes) :=
  (copyoutBytes img (pagesAbove ph.pVaddr) ph.pVaddr ((start + ph.pOffset) % 2 ^ 64) ph.pFilesz d
    p).bind fun r p => if r.1 < 0 then .ok (-1, r.2) p else zeroSegmentBytes ph r.2 p

/-- The body of the loop for a `PT_LOAD` segment. -/
def loadSegmentBytes (img : Bytes) (start size : Nat) (ph : ProgramHeader) (d : Bytes)
    (p : UserMem) :
    Res (Int × Bytes) :=
  if size < ph.fileSum then .ok (-1, d) p
  else if userStackTop ≤ ph.last then .ok (-1, d) p
  else if ph.first < userTextStart then .ok (-1, d) p
  else
    (mmap ph.first ph.memSize mapUser ph.pteFlags
      { p with minVa := min p.minVa ph.first, maxVa := max p.maxVa ph.last }).bind fun r p =>
      if r < 0 then .ok (-1, d) p else fillSegmentBytes img start ph d p

def loadSegmentsBytes (img : Bytes) (start size phoff : Nat) :
    Nat → Nat → Bytes → UserMem → Res (Int × Bytes)
  | 0, _, d, p => .ok (0, d) p
  | n + 1, i, d, p =>
    let a := programHeaderAddr start phoff i
    let ph := programHeader img start phoff i
    if ph.pType = 1 then
      (loadSegmentBytes img start size ph d ((p.read a 4).read ((a + 4) % 2 ^ 64) 44)).bind
        fun r p =>
          if r.1 < 0 then .ok (-1, r.2) p
          else loadSegmentsBytes img start size phoff n (i + 1) r.2 p
    else loadSegmentsBytes img start size phoff n (i + 1) d (p.read a 4)

/-- `__load_elf`. -/
def loadElfBytes (img : Bytes) (start size : Nat) (d : Bytes) (p : UserMem) : Res (Int × Bytes) :=
  if size < headerSize then .ok (-1, d) p
  else
    let p := p.read start headerSize
    let h := view img start
    if ¬ HeaderOk img start size then .ok (-1, d) p
    else if size < headersSum h then .ok (-1, d) p
    else
      (loadSegmentsBytes img start size (ePhoff h) (ePhnum h) 0 d p).bind fun r p =>
        if r.1 < 0 then .ok (-1, r.2) p else .ok (0, r.2) { p with epc := eEntry h }

variable {img d : Bytes} {start size phoff : Nat} {ph : ProgramHeader} {p : UserMem}

/-! ## Without the bytes -/

theorem Res.map_bind {r : Res α} {f : α → UserMem → Res β} {g : β → γ} :
    (r.bind f).map g = r.bind fun a p => (f a p).map g := by
  cases r with
  | ok a p => rfl
  | panic e p => rfl

theorem Res.bind_map {r : Res α} {g : α → β} {f : β → UserMem → Res γ} :
    (r.map g).bind f = r.bind fun a p => f (g a) p := by
  cases r with
  | ok a p => rfl
  | panic e p => rfl

theorem copyoutBytes_fst (img : Bytes) : ∀ (fuel dstva src len : Nat) (d : Bytes) (p : UserMem),
    (copyoutBytes img fuel dstva src len d p).map Prod.fst = UserMem.copyout fuel dstva src len p
  | 0, _, _, _, _, _ => rfl
  | fuel + 1, dstva, src, len, d, p => by
    rw [copyoutBytes, UserMem.copyout]
    dsimp only
    split
    · rfl
    · split
      · rfl
      · exact copyoutBytes_fst img fuel _ _ _ _ _

theorem memsetBytes_fst {val : UInt8} : ∀ (fuel dstva len : Nat) (d : Bytes) (p : UserMem),
    (memsetBytes val fuel dstva len d p).map Prod.fst = memsetUser fuel dstva len p
  | 0, _, _, _, _ => rfl
  | fuel + 1, dstva, len, d, p => by
    rw [memsetBytes, memsetUser]
    dsimp only
    split
    · rfl
    · split
      · rfl
      · exact memsetBytes_fst fuel _ _ _ _

theorem zeroSegmentBytes_fst : (zeroSegmentBytes ph d p).map Prod.fst = zeroSegment ph p := by
  have hfirst : (if ph.first < ph.pVaddr then
      memsetBytes 0 (pagesAbove ph.first) ph.first (ph.pVaddr - ph.first) d p
      else .ok (0, d) p).map Prod.fst = if ph.first < ph.pVaddr then
      memsetUser (pagesAbove ph.first) ph.first (ph.pVaddr - ph.first) p else .ok 0 p := by
    split
    · exact memsetBytes_fst _ _ _ _ _
    · rfl
  rw [zeroSegmentBytes, zeroSegment, ← hfirst, Res.map_bind, Res.bind_map]
  congr
  funext r q
  split
  · rfl
  · split
    · exact memsetBytes_fst _ _ _ _ _
    · rfl

theorem fillSegmentBytes_fst (img d : Bytes) :
    (fillSegmentBytes img start ph d p).map Prod.fst = fillSegment start ph p := by
  rw [fillSegmentBytes, fillSegment, ← copyoutBytes_fst img _ _ _ _ d, Res.map_bind,
    Res.bind_map]
  congr
  funext r q
  split
  · rfl
  · exact zeroSegmentBytes_fst

theorem loadSegmentBytes_fst (img d : Bytes) :
    (loadSegmentBytes img start size ph d p).map Prod.fst = loadSegment start size ph p := by
  rw [loadSegmentBytes, loadSegment]
  split
  · rfl
  split
  · rfl
  split
  · rfl
  rw [Res.map_bind]
  congr
  funext r q
  split
  · rfl
  · exact fillSegmentBytes_fst img d

theorem loadSegmentsBytes_fst (img : Bytes) : ∀ (n i : Nat) (d : Bytes) (p : UserMem),
    (loadSegmentsBytes img start size phoff n i d p).map Prod.fst =
      loadSegments img start size phoff n i p
  | 0, _, _, _ => rfl
  | n + 1, i, d, p => by
    rw [loadSegmentsBytes, loadSegments]
    split
    · rw [← loadSegmentBytes_fst img d, Res.map_bind, Res.bind_map]
      congr
      funext r q
      split
      · rfl
      · exact loadSegmentsBytes_fst img n (i + 1) _ _
    · exact loadSegmentsBytes_fst img n (i + 1) _ _

/-- The bytes do not decide what the loader does. -/
theorem loadElfBytes_fst : (loadElfBytes img start size d p).map Prod.fst =
    loadElf img start size p := by
  rw [loadElfBytes, loadElf]
  split
  · rfl
  dsimp only
  split
  · rfl
  split
  · rfl
  rw [← loadSegmentsBytes_fst img _ _ d, Res.map_bind, Res.bind_map]
  congr
  funext r q
  split
  · rfl
  · rfl

/-! ## What is stored -/

/-- The translation of an address. -/
def physAddr (root : Nat) (s : Vm) (a : Nat) : Nat := walkaddr root (pgRoundDown a) s + a % pgSize

/-- The address is in a page of the user. -/
def UserAddr (root : Nat) (s : Vm) (a : Nat) : Prop := walkaddr root (pgRoundDown a) s ≠ 0

/-- Different addresses of the user have different translations. -/
def Translates (root : Nat) (s : Vm) : Prop :=
  ∀ a b, UserAddr root s a → UserAddr root s b → physAddr root s a = physAddr root s b → a = b

variable {root fuel dstva src len : Nat} {s : Vm} {d' c : Bytes} {q : UserMem} {r : Int}

theorem pgRoundDown_add {a k : Nat} (hk : k < pgSize - (a - pgRoundDown a)) :
    pgRoundDown (a + k) = pgRoundDown a ∧ (a + k) % pgSize = a % pgSize + k := by
  simp only [pgRoundDown, pgSize] at *
  omega

/-- The bytes up to the end of a page. -/
theorem written_chunk {n : Nat} {src' : Bytes} (hn : n ≤ pgSize - (dstva - pgRoundDown dstva))
    (hpage : UserAddr root s dstva) (hc : ∀ k < n, src' k = c (dstva + k)) :
    (∀ a ∈ Set.Ico dstva (dstva + n), UserAddr root s a) ∧
      Written (physAddr root s) (Set.Ico dstva (dstva + n)) c d
        (memcpy d (walkaddr root (pgRoundDown dstva) s + (dstva - pgRoundDown dstva)) src' n) := by
  have hoff : dstva - pgRoundDown dstva = dstva % pgSize := by
    simp only [pgRoundDown, pgSize]
    omega
  refine ⟨fun a ha => ?_, ?_⟩
  · obtain ⟨k, rfl⟩ := Nat.exists_eq_add_of_le ha.1
    have hk : k < n := Nat.lt_of_add_lt_add_left ha.2
    rw [UserAddr, (pgRoundDown_add (hk.trans_le hn)).1]
    exact hpage
  · rw [hoff]
    refine written_memcpy (fun k hk => ?_) hc
    obtain ⟨hdown, hmod⟩ := pgRoundDown_add (hk.trans_le hn)
    rw [physAddr, physAddr, hdown, hmod, Nat.add_assoc]

/-- The bytes of a page and those of the pages behind it. -/
theorem written_pages (ht : Translates root s) {n : Nat} {d'' : Bytes}
    (hn : n = min (pgSize - (dstva - pgRoundDown dstva)) len)
    (h : (∀ a ∈ Set.Ico dstva (dstva + n), UserAddr root s a) ∧
      Written (physAddr root s) (Set.Ico dstva (dstva + n)) c d d')
    (h' : (∀ a ∈ Set.Ico (pgRoundDown dstva + pgSize) (pgRoundDown dstva + pgSize + (len - n)),
        UserAddr root s a) ∧
      Written (physAddr root s)
        (Set.Ico (pgRoundDown dstva + pgSize) (pgRoundDown dstva + pgSize + (len - n))) c d' d'') :
    (∀ a ∈ Set.Ico dstva (dstva + len), UserAddr root s a) ∧
      Written (physAddr root s) (Set.Ico dstva (dstva + len)) c d d'' := by
  have hsplit : Set.Ico dstva (dstva + len) = Set.Ico dstva (dstva + n) ∪
      Set.Ico (pgRoundDown dstva + pgSize) (pgRoundDown dstva + pgSize + (len - n)) := by
    ext a
    simp only [Set.mem_Ico, Set.mem_union, pgRoundDown, pgSize] at *
    omega
  have huser : ∀ a ∈ Set.Ico dstva (dstva + len), UserAddr root s a := by
    rw [hsplit]
    rintro a (ha | ha)
    · exact h.1 a ha
    · exact h'.1 a ha
  refine ⟨huser, ?_⟩
  rw [hsplit]
  exact h.2.trans h'.2 fun a ha b hb => ht a b (h.1 a ha) (h'.1 b hb)

theorem written_nothing : (∀ a ∈ Set.Ico dstva (dstva + 0), UserAddr root s a) ∧
    Written (physAddr root s) (Set.Ico dstva (dstva + 0)) c d d := by
  rw [Nat.add_zero, Set.Ico_self]
  exact ⟨fun _ => False.elim, Written.empty⟩

theorem next_chunk {k : Nat} (hk : k < len - min (pgSize - (dstva - pgRoundDown dstva)) len) :
    pgRoundDown dstva + pgSize + k =
      dstva + (min (pgSize - (dstva - pgRoundDown dstva)) len + k) := by
  simp only [pgRoundDown, pgSize] at *
  omega

/-- `copyout` that succeeds has stored the bytes. -/
theorem copyoutBytes_ok : ∀ (fuel dstva src len : Nat) (d : Bytes) (p : UserMem),
    Translates p.pagetable p.vm → (∀ k < len, img ((src + k) % 2 ^ 64) = c (dstva + k)) →
    copyoutBytes img fuel dstva src len d p = .ok (r, d') q → ¬ r < 0 →
    q = { p with reads := q.reads } ∧
      (∀ a ∈ Set.Ico dstva (dstva + len), UserAddr p.pagetable p.vm a) ∧
      Written (physAddr p.pagetable p.vm) (Set.Ico dstva (dstva + len)) c d d'
  | 0, dstva, src, len, d, p, _, _, hcall, hr => by
    obtain ⟨hres, rfl⟩ := Res.ok.inj hcall
    obtain ⟨rfl, rfl⟩ := Prod.mk.inj hres
    have hlen : len = 0 := by
      by_contra hlen
      exact hr (by rw [if_neg hlen]; decide)
    rw [hlen]
    exact ⟨rfl, written_nothing⟩
  | fuel + 1, dstva, src, len, d, p, ht, hc, hcall, hr => by
    rw [copyoutBytes] at hcall
    dsimp only at hcall
    split at hcall
    · rename_i hlen
      obtain ⟨hres, rfl⟩ := Res.ok.inj hcall
      obtain ⟨rfl, rfl⟩ := Prod.mk.inj hres
      rw [hlen]
      exact ⟨rfl, written_nothing⟩
    · split at hcall
      · obtain ⟨hres, -⟩ := Res.ok.inj hcall
        obtain ⟨rfl, -⟩ := Prod.mk.inj hres
        exact absurd (by decide) hr
      · rename_i hpage
        have hle := Nat.min_le_right (pgSize - (dstva - pgRoundDown dstva)) len
        have hc' : ∀ k < len - min (pgSize - (dstva - pgRoundDown dstva)) len,
            img (((src + min (pgSize - (dstva - pgRoundDown dstva)) len) % 2 ^ 64 + k) % 2 ^ 64) =
              c (pgRoundDown dstva + pgSize + k) := fun k hk => by
          rw [Nat.mod_add_mod, Nat.add_assoc, next_chunk hk]
          exact hc _ (by omega)
        obtain ⟨hq, hrest⟩ := copyoutBytes_ok fuel _ _ _ _ { p with
          reads := p.reads ++ [(src, min (pgSize - (dstva - pgRoundDown dstva)) len)]
            } ht hc' hcall hr
        exact ⟨hq, written_pages ht rfl (written_chunk (Nat.min_le_left _ _) hpage fun k hk =>
          hc k (hk.trans_le hle)) hrest⟩

/-- `memset_user` that succeeds has stored `val`. -/
theorem memsetBytes_ok {val : UInt8} : ∀ (fuel dstva len : Nat) (d : Bytes),
    Translates p.pagetable p.vm → (∀ k < len, val = c (dstva + k)) →
    memsetBytes val fuel dstva len d p = .ok (r, d') q → ¬ r < 0 →
    q = p ∧ (∀ a ∈ Set.Ico dstva (dstva + len), UserAddr p.pagetable p.vm a) ∧
      Written (physAddr p.pagetable p.vm) (Set.Ico dstva (dstva + len)) c d d'
  | 0, dstva, len, d, _, _, hcall, hr => by
    obtain ⟨hres, rfl⟩ := Res.ok.inj hcall
    obtain ⟨rfl, rfl⟩ := Prod.mk.inj hres
    have hlen : len = 0 := by
      by_contra hlen
      exact hr (by rw [if_neg hlen]; decide)
    rw [hlen]
    exact ⟨rfl, written_nothing⟩
  | fuel + 1, dstva, len, d, ht, hc, hcall, hr => by
    rw [memsetBytes] at hcall
    dsimp only at hcall
    split at hcall
    · rename_i hlen
      obtain ⟨hres, rfl⟩ := Res.ok.inj hcall
      obtain ⟨rfl, rfl⟩ := Prod.mk.inj hres
      rw [hlen]
      exact ⟨rfl, written_nothing⟩
    · split at hcall
      · obtain ⟨hres, -⟩ := Res.ok.inj hcall
        obtain ⟨rfl, -⟩ := Prod.mk.inj hres
        exact absurd (by decide) hr
      · rename_i hpage
        have hle := Nat.min_le_right (pgSize - (dstva - pgRoundDown dstva)) len
        have hc' : ∀ k < len - min (pgSize - (dstva - pgRoundDown dstva)) len,
            val = c (pgRoundDown dstva + pgSize + k) := fun k hk => by
          rw [next_chunk hk]
          exact hc _ (by omega)
        obtain ⟨hq, hrest⟩ := memsetBytes_ok fuel _ _ _ ht hc' hcall hr
        exact ⟨hq, written_pages ht rfl (written_chunk (Nat.min_le_left _ _) hpage fun k hk =>
          hc k (hk.trans_le hle)) hrest⟩

/-! ## A segment -/

theorem Res.bind_ok {r : Res α} {f : α → UserMem → Res β} {b : β} (h : r.bind f = .ok b q) :
    ∃ a p, r = .ok a p ∧ f a p = .ok b q := by
  cases r with
  | ok a p => exact ⟨a, p, rfl, h⟩
  | panic e p => cases h

namespace ProgramHeader

/-- The byte of the segment at an address: that of the file, or 0. -/
def byte (ph : ProgramHeader) (img : Bytes) (start a : Nat) : UInt8 :=
  if ph.pVaddr ≤ a ∧ a < ph.pVaddr + ph.pFilesz then
    img ((start + ph.pOffset + (a - ph.pVaddr)) % 2 ^ 64)
  else 0

/-- The bytes from the file are not more than those in memory, no sum wraps, and there is a page. -/
structure Proper (ph : ProgramHeader) : Prop where
  filesz : ph.pFilesz ≤ ph.pMemsz
  memory : ph.pVaddr + ph.pMemsz < 2 ^ 64
  file : ph.pOffset + ph.pFilesz < 2 ^ 64
  pages : ph.first < ph.last

theorem Proper.fileEnd (h : ph.Proper) :
    ph.fileEnd = ph.pVaddr + ph.pFilesz ∧ ph.fileEnd ≤ ph.last := by
  obtain ⟨hfile, hmem, -, hpages⟩ := h
  simp only [ProgramHeader.fileEnd, last, pgRoundUp, pgRoundDown, pgSize] at *
  omega

theorem byte_file {k : Nat} (hk : k < ph.pFilesz) :
    ph.byte img start (ph.pVaddr + k) = img ((start + ph.pOffset + k) % 2 ^ 64) := by
  rw [byte, if_pos ⟨Nat.le_add_right _ _, Nat.add_lt_add_left hk _⟩, Nat.add_sub_cancel_left]

theorem byte_zero {a : Nat} (ha : a < ph.pVaddr ∨ ph.pVaddr + ph.pFilesz ≤ a) :
    ph.byte img start a = 0 := by
  refine if_neg fun hin => ?_
  rcases ha with ha | ha
  · exact absurd hin.1 ha.not_ge
  · exact absurd hin.2 ha.not_gt

end ProgramHeader

/-- What is around the bytes of the file is set to 0. -/
theorem zeroSegmentBytes_ok (img : Bytes) (start : Nat) (ht : Translates p.pagetable p.vm)
    (hph : ph.Proper) (h : zeroSegmentBytes ph d p = .ok (r, d') q) (hr : ¬ r < 0) : q = p ∧
      (∀ a ∈ Set.Ico ph.first ph.pVaddr ∪ Set.Ico ph.fileEnd ph.last,
        UserAddr p.pagetable p.vm a) ∧
      Written (physAddr p.pagetable p.vm) (Set.Ico ph.first ph.pVaddr ∪ Set.Ico ph.fileEnd ph.last)
        (ph.byte img start) d d' := by
  obtain ⟨hend, hlast⟩ := hph.fileEnd
  obtain ⟨⟨r1, d1⟩, p1, h1, hcall⟩ := Res.bind_ok h
  dsimp only at hcall
  have hneg : ¬ r1 < 0 := fun hneg => by
    rw [if_pos hneg] at hcall
    obtain ⟨rfl, -⟩ := Prod.mk.inj (Res.ok.inj hcall).1
    exact hr (by decide)
  rw [if_neg hneg] at hcall
  obtain ⟨rfl, hu1, hw1⟩ : p1 = p ∧
    (∀ a ∈ Set.Ico ph.first ph.pVaddr, UserAddr p.pagetable p.vm a) ∧
      Written (physAddr p.pagetable p.vm) (Set.Ico ph.first ph.pVaddr)
        (ph.byte img start) d d1 := by
    split at h1
    · rename_i hlt
      have hsum : ph.first + (ph.pVaddr - ph.first) = ph.pVaddr := Nat.add_sub_cancel' hlt.le
      have hc : ∀ k < ph.pVaddr - ph.first, 0 = ph.byte img start (ph.first + k) := fun k hk =>
        (ph.byte_zero (.inl (by omega))).symm
      have hok := memsetBytes_ok _ _ _ _ ht hc h1 hneg
      rwa [hsum] at hok
    · rename_i hle
      obtain ⟨hres, rfl⟩ := Res.ok.inj h1
      obtain ⟨-, rfl⟩ := Prod.mk.inj hres
      rw [Set.Ico_eq_empty hle]
      exact ⟨rfl, fun _ => False.elim, Written.empty⟩
  obtain ⟨rfl, hu2, hw2⟩ : q = p1 ∧
    (∀ a ∈ Set.Ico ph.fileEnd ph.last, UserAddr p1.pagetable p1.vm a) ∧
      Written (physAddr p1.pagetable p1.vm) (Set.Ico ph.fileEnd ph.last)
        (ph.byte img start) d1 d' := by
    split at hcall
    · rename_i hlt
      have hsum : ph.fileEnd + (ph.last - ph.fileEnd) = ph.last := Nat.add_sub_cancel' hlt.le
      have hc : ∀ k < ph.last - ph.fileEnd, 0 = ph.byte img start (ph.fileEnd + k) := fun k hk =>
        (ph.byte_zero (.inr (by omega))).symm
      have hok := memsetBytes_ok _ _ _ _ ht hc hcall hr
      rwa [hsum] at hok
    · rename_i hle
      obtain ⟨hres, rfl⟩ := Res.ok.inj hcall
      obtain ⟨-, rfl⟩ := Prod.mk.inj hres
      rw [Set.Ico_eq_empty hle]
      exact ⟨rfl, fun _ => False.elim, Written.empty⟩
  refine ⟨rfl, ?_, hw1.trans hw2 fun a ha b hb => ht a b (hu1 a ha) (hu2 b hb)⟩
  rintro a (ha | ha)
  · exact hu1 a ha
  · exact hu2 a ha

/-- The pages of a segment are filled, and no other memory is. -/
theorem fillSegmentBytes_ok (ht : Translates p.pagetable p.vm) (hph : ph.Proper)
    (hcall : fillSegmentBytes img start ph d p = .ok (r, d') q) (hr : ¬ r < 0) :
    q = { p with reads := q.reads } ∧
      (∀ a ∈ Set.Ico ph.first ph.last, UserAddr p.pagetable p.vm a) ∧
      Written (physAddr p.pagetable p.vm) (Set.Ico ph.first ph.last) (ph.byte img start) d d' := by
  obtain ⟨hend, hlast⟩ := hph.fileEnd
  obtain ⟨⟨r1, d1⟩, p1, h1, hcall⟩ := Res.bind_ok hcall
  dsimp only at hcall
  have hneg : ¬ r1 < 0 := fun hneg => by
    rw [if_pos hneg] at hcall
    obtain ⟨rfl, -⟩ := Prod.mk.inj (Res.ok.inj hcall).1
    exact hr (by decide)
  rw [if_neg hneg] at hcall
  obtain ⟨hp1, hu1, hw1⟩ := copyoutBytes_ok (c := ph.byte img start) _ _ _ _ _ _ ht
    (fun k hk => by rw [Nat.mod_add_mod, ph.byte_file hk]) h1 hneg
  have hvm : p1.vm = p.vm := by rw [hp1]
  have hroot : p1.pagetable = p.pagetable := by rw [hp1]
  obtain ⟨rfl, hu2, hw2⟩ := zeroSegmentBytes_ok img start
    (by rwa [hvm, hroot]) hph hcall hr
  rw [hvm, hroot] at hu2 hw2
  have hsplit : Set.Ico ph.first ph.last = Set.Ico ph.pVaddr (ph.pVaddr + ph.pFilesz) ∪
      (Set.Ico ph.first ph.pVaddr ∪ Set.Ico ph.fileEnd ph.last) := by
    have hfirst := ph.first_le
    ext a
    simp only [Set.mem_Ico, Set.mem_union]
    omega
  refine ⟨hp1, ?_, ?_⟩
  · rw [hsplit]
    rintro a (ha | ha)
    · exact hu1 a ha
    · exact hu2 a ha
  · rw [hsplit]
    exact hw1.trans hw2 fun a ha b hb => ht a b (hu1 a ha) (hu2 b hb)

end CoroCore.User
