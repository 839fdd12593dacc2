import CoroCore.Lib.Bytes
import CoroCore.Proc.UserMemory

/-!
# The ELF loader: `proc/elf.cc`

`__load_elf` reads an image of `size` bytes at `start`. All its sums are taken in 64 bits and
compared with `size` afterwards, so that a sum that wraps can pass a bounds check.

* `loadElf`: the loader;
* `loadElf_adds`: the pages that it maps.
-/

namespace CoroCore.User

open Lib Vmem UserMem

abbrev headerSize : Nat := 64
abbrev programHeaderSize : Nat := 56
abbrev sectionHeaderSize : Nat := 64

/-- Memory from an address on. Addresses have 64 bits. -/
def view (img : Bytes) (a : Nat) : Bytes := fun k => img ((a + k) % 2 ^ 64)

/-- The fields of `elf64_header` that are compared with a constant. -/
def compatible (h : Bytes) : Bool :=
  getLe h 0 4 = 0x464c457f && getLe h 4 1 = 2 && getLe h 5 1 = 1 && getLe h 6 1 = 1 &&
    getLe h 7 1 = 0 && getLe h 8 1 = 0 && getLe h 16 2 = 2 && getLe h 18 2 = 0xf3 &&
    getLe h 20 4 = 1 && getLe h 54 2 = programHeaderSize && getLe h 58 2 = sectionHeaderSize

def eEntry (h : Bytes) : Nat := getLe h 24 8
def ePhoff (h : Bytes) : Nat := getLe h 32 8
def ePhnum (h : Bytes) : Nat := getLe h 56 2

/-- `elf64_program_header`, without `p_paddr` and `p_align`. -/
structure ProgramHeader where
  pType : Nat
  pFlags : Nat
  pOffset : Nat
  pVaddr : Nat
  pFilesz : Nat
  pMemsz : Nat

namespace ProgramHeader

def decode (h : Bytes) : ProgramHeader :=
  ⟨getLe h 0 4, getLe h 4 4, getLe h 8 8, getLe h 16 8, getLe h 32 8, getLe h 40 8⟩

/-- `start_addr_aligned`. -/
def first (ph : ProgramHeader) : Nat := pgRoundDown ph.pVaddr

/-- `end_addr_aligned`. -/
def last (ph : ProgramHeader) : Nat := pgRoundUp ((ph.pVaddr + ph.pMemsz) % 2 ^ 64)

/-- `end_addr_file`. -/
def fileEnd (ph : ProgramHeader) : Nat := (ph.pVaddr + ph.pFilesz) % 2 ^ 64

/-- `mem_size`. -/
def memSize (ph : ProgramHeader) : Nat := (ph.last + 2 ^ 64 - ph.first) % 2 ^ 64

/-- `pte_flags`. -/
def pteFlags (ph : ProgramHeader) : Nat :=
  (if ph.pFlags.testBit 2 then pteR else 0) ||| (if ph.pFlags.testBit 1 then pteW else 0) |||
    (if ph.pFlags.testBit 0 then pteX else 0) ||| pteU

/-- The sum of the bounds check on the bytes of a segment. -/
def fileSum (ph : ProgramHeader) : Nat := (ph.pOffset + ph.pFilesz) % 2 ^ 64

/-- The segment passes the checks. -/
def Accepted (size : Nat) (ph : ProgramHeader) : Prop :=
  ph.fileSum ≤ size ∧ ph.last < userStackTop ∧ userTextStart ≤ ph.first

end ProgramHeader

/-- A read of `len` bytes at `a`. -/
def UserMem.read (p : UserMem) (a len : Nat) : UserMem := { p with reads := p.reads ++ [(a, len)] }

/-- The rest of a segment is filled with zeros, before and after the bytes from the file. -/
def zeroSegment (ph : ProgramHeader) (p : UserMem) : Res Int :=
  (if ph.first < ph.pVaddr then
    memsetUser (pagesAbove ph.first) ph.first (ph.pVaddr - ph.first) p
  else .ok 0 p).bind fun r p =>
    if r < 0 then .ok (-1) p
    else if ph.fileEnd < ph.last then
      memsetUser (pagesAbove ph.fileEnd) ph.fileEnd (ph.last - ph.fileEnd) p
    else .ok 0 p

/-- The segment is copied from the image. -/
def fillSegment (start : Nat) (ph : ProgramHeader) (p : UserMem) : Res Int :=
  (copyout (pagesAbove ph.pVaddr) ph.pVaddr ((start + ph.pOffset) % 2 ^ 64) ph.pFilesz p).bind
    fun r p => if r < 0 then .ok (-1) p else zeroSegment ph p

/-- The body of the loop of `__load_elf` for a `PT_LOAD` segment. -/
def loadSegment (start size : Nat) (ph : ProgramHeader) (p : UserMem) : Res Int :=
  if size < ph.fileSum then .ok (-1) p
  else if userStackTop ≤ ph.last then .ok (-1) p
  else if ph.first < userTextStart then .ok (-1) p
  else
    (mmap ph.first ph.memSize mapUser ph.pteFlags
      { p with minVa := min p.minVa ph.first, maxVa := max p.maxVa ph.last }).bind fun r p =>
      if r < 0 then .ok (-1) p else fillSegment start ph p

/-- `&ph[i]`. -/
def programHeaderAddr (start phoff i : Nat) : Nat :=
  (start + phoff + i * programHeaderSize) % 2 ^ 64

/-- Program header `i`. -/
def programHeader (img : Bytes) (start phoff i : Nat) : ProgramHeader :=
  ProgramHeader.decode (view img (programHeaderAddr start phoff i))

/-- The loop of `__load_elf`, with `n` program headers to go from header `i` on. -/
def loadSegments (img : Bytes) (start size phoff : Nat) : Nat → Nat → UserMem → Res Int
  | 0, _, p => .ok 0 p
  | n + 1, i, p =>
    let a := programHeaderAddr start phoff i
    let ph := programHeader img start phoff i
    if ph.pType = 1 then
      (loadSegment start size ph ((p.read a 4).read ((a + 4) % 2 ^ 64) 44)).bind fun r p =>
        if r < 0 then .ok (-1) p else loadSegments img start size phoff n (i + 1) p
    else loadSegments img start size phoff n (i + 1) (p.read a 4)

/-- The sum of the bounds check on the program headers. -/
def headersSum (h : Bytes) : Nat := (ePhoff h + ePhnum h * programHeaderSize) % 2 ^ 64

/-- The image passes the checks on its header. -/
def HeaderOk (img : Bytes) (start size : Nat) : Prop :=
  headerSize ≤ size ∧ compatible (view img start) = true ∧
    ePhoff (view img start) ≠ 0 ∧ ePhnum (view img start) ≠ 0

instance (img : Bytes) (start size : Nat) : Decidable (HeaderOk img start size) :=
  inferInstanceAs (Decidable (_ ∧ _ ∧ _ ∧ _))

/-- `__load_elf`. Every check that fails returns -1. -/
def loadElf (img : Bytes) (start size : Nat) (p : UserMem) : Res Int :=
  if size < headerSize then .ok (-1) p
  else
    let p := p.read start headerSize
    let h := view img start
    if ¬ HeaderOk img start size then .ok (-1) p
    else if size < headersSum h then .ok (-1) p
    else
      (loadSegments img start size (ePhoff h) (ePhnum h) 0 p).bind fun r p =>
        if r < 0 then .ok (-1) p else .ok 0 { p with epc := eEntry h }

/-! ## What is mapped -/

/-- What is written down, the page table apart, goes from `p` to `q` by additions. -/
structure Extends (p q : UserMem) : Prop where
  infos : ∀ info ∈ p.infos, info ∈ q.infos
  oom : p.oom = true → q.oom = true

/-- Maps of pages in `N` are added, and no record is removed. -/
structure Adds (N : Nat → Prop) (p q : UserMem) : Prop extends Extends p q where
  maps : ∀ n ∈ q.maps, n ∈ p.maps ∨ N n

variable {N : Nat → Prop} {p q u : UserMem} {α β : Type} {img : Bytes} {start size phoff : Nat}
  {ph : ProgramHeader}

theorem Extends.refl (p : UserMem) : Extends p p := ⟨fun _ => id, id⟩

theorem Extends.trans (h : Extends p q) (h' : Extends q u) : Extends p u :=
  ⟨fun info hi => h'.infos info (h.infos info hi), fun ho => h'.oom (h.oom ho)⟩

theorem Adds.of_eq (hm : q.maps = p.maps) (h : Extends p q) : Adds N p q :=
  ⟨h, fun _ h => .inl (hm ▸ h)⟩

theorem Adds.same (hm : q.maps = p.maps) (hi : q.infos = p.infos) (ho : q.oom = p.oom) :
    Adds N p q :=
  .of_eq hm ⟨fun _ h => hi ▸ h, fun h => ho ▸ h⟩

theorem Adds.refl (p : UserMem) : Adds N p p := .same rfl rfl rfl

theorem Adds.trans (h : Adds N p q) (h' : Adds N q u) : Adds N p u := by
  refine ⟨h.toExtends.trans h'.toExtends, fun n hn => ?_⟩
  rcases h'.maps n hn with hn | hn
  · exact h.maps n hn
  · exact .inr hn

theorem Adds.bind {r : Res α} {f : α → UserMem → Res β} (h : Adds N p r.mem)
    (hf : ∀ a q, Adds N q (f a q).mem) : Adds N p (r.bind f).mem := by
  cases r with
  | ok a q => exact h.trans (hf a q)
  | panic e q => exact h

theorem Adds.run {c : Except Panic (α × Vm)} : Adds N p (p.run c).mem := by
  rcases c with e | ⟨a, s⟩
  · exact .refl _
  · exact .same rfl rfl rfl

theorem Adds.starve : Adds N p { p with oom := true } := .of_eq rfl ⟨fun _ => id, fun _ => rfl⟩

theorem newNode_eq_some (h : p.newNode = some q) :
    q.infos = p.infos ∧ q.oom = p.oom ∧ q.reads = p.reads ∧ q.maps = p.maps := by
  unfold UserMem.newNode at h
  split at h
  · cases h
    exact ⟨rfl, rfl, rfl, rfl⟩
  · cases h
  · cases h
    exact ⟨rfl, rfl, rfl, rfl⟩

theorem Adds.pushBack (info : MmapInfo) : Adds N p (p.pushBack info) := by
  unfold UserMem.pushBack
  split
  · exact .starve
  · rename_i u hu
    obtain ⟨hi, ho, -, hm⟩ := newNode_eq_some hu
    refine .of_eq hm ⟨fun i h => ?_, fun h => ho.trans h⟩
    exact List.mem_append_left _ (hi ▸ h)

theorem Adds.setEpc (e : Nat) : Adds N p { p with epc := e } := .same rfl rfl rfl

theorem Adds.read (a len : Nat) : Adds N p (p.read a len) := .same rfl rfl rfl

/-- The loop of `__mmap` maps the pages from `va` on. -/
theorem mmapLoop_adds (pteFlags : Nat) : ∀ (fuel va : Nat) (p : UserMem),
    (∀ j < fuel, N (va / pgSize + j)) → Adds N p (mmapLoop pteFlags fuel va p).mem
  | 0, _, _, _ => .refl _
  | fuel + 1, va, p, hN => by
    rw [mmapLoop]
    split
    · exact .starve
    · rename_i pa s _
      have hsame : Adds N p { p with vm := s } := .same rfl rfl rfl
      refine hsame.trans (Adds.bind Adds.run fun r q => ?_)
      split
      · exact .starve
      · have hfirst : Adds N q { q with maps := q.maps ++ [va / pgSize] } := by
          refine ⟨⟨fun _ => id, id⟩, fun n hn => ?_⟩
          rcases List.mem_append.mp hn with hn | hn
          · exact .inl hn
          · exact .inr (List.mem_singleton.mp hn ▸ hN 0 (Nat.succ_pos fuel))
        refine hfirst.trans (mmapLoop_adds pteFlags fuel (va + pgSize) _ fun j hj => ?_)
        have hpage : (va + pgSize) / pgSize + j = va / pgSize + (j + 1) := by
          rw [Nat.add_div_right _ (by decide), Nat.succ_add_eq_add_succ]
        exact hpage ▸ hN (j + 1) (Nat.succ_lt_succ hj)

theorem mmapEnd_adds (va len flags pteFlags : Nat) (r : Option Nat) :
    Adds N p (mmapEnd va len flags pteFlags r p).mem := by
  cases r with
  | none => exact .pushBack _
  | some cur =>
    rw [mmapEnd]
    split
    · exact .refl _
    · exact Adds.bind Adds.run fun _ _ => .refl _

theorem mmap_adds {va len flags pteFlags : Nat}
    (hN : ∀ j < ((va + len) % 2 ^ 64 - va + (pgSize - 1)) / pgSize, N (va / pgSize + j)) :
    Adds N p (mmap va len flags pteFlags p).mem :=
  Adds.bind (mmapLoop_adds pteFlags _ va p hN) fun r _ => mmapEnd_adds _ _ _ _ r

theorem copyout_adds : ∀ (fuel dstva src len : Nat) (p : UserMem),
    Adds N p (UserMem.copyout fuel dstva src len p).mem
  | 0, _, _, _, _ => .refl _
  | fuel + 1, dstva, src, len, p => by
    rw [UserMem.copyout]
    split
    · exact .refl _
    · split
      · exact .refl _
      · have hread : Adds N p (p.read src (min (pgSize - (dstva - pgRoundDown dstva)) len)) :=
          .read _ _
        exact hread.trans (copyout_adds fuel _ _ _ _)

theorem memsetUser_mem : ∀ (fuel dstva len : Nat) (p : UserMem),
    (memsetUser fuel dstva len p).mem = p
  | 0, _, _, _ => rfl
  | fuel + 1, dstva, len, p => by
    rw [memsetUser]
    split
    · rfl
    · split
      · rfl
      · exact memsetUser_mem fuel _ _ p

theorem Adds.memsetUser (fuel dstva len : Nat) : Adds N p (memsetUser fuel dstva len p).mem := by
  rw [memsetUser_mem]
  exact .refl _

theorem zeroSegment_adds : Adds N p (zeroSegment ph p).mem := by
  refine Adds.bind ?_ fun r q => ?_
  · split
    · exact .memsetUser _ _ _
    · exact .refl _
  · split
    · exact .refl _
    · split
      · exact .memsetUser _ _ _
      · exact .refl _

theorem fillSegment_adds : Adds N p (fillSegment start ph p).mem := by
  refine Adds.bind (copyout_adds _ _ _ _ _) fun r q => ?_
  split
  · exact .refl _
  · exact zeroSegment_adds

/-- A page that user code may have, below the stack. -/
def UserPage (n : Nat) : Prop := userTextStart ≤ n * pgSize ∧ (n + 1) * pgSize ≤ userStackTop

theorem ProgramHeader.first_lt (h : ph.pVaddr < 2 ^ 64) : ph.first < 2 ^ 64 :=
  (Nat.div_mul_le_self ph.pVaddr pgSize).trans_lt h

theorem ProgramHeader.last_lt (ph : ProgramHeader) : ph.last < 2 ^ 64 :=
  (Nat.div_mul_le_self _ pgSize).trans_lt (Nat.mod_lt _ (by decide))

/-- The end of the range that `__mmap` computes is `end_addr_aligned`. -/
theorem ProgramHeader.first_add_memSize (h : ph.pVaddr < 2 ^ 64) :
    (ph.first + ph.memSize) % 2 ^ 64 = ph.last := by
  have h1 := ph.last_lt
  have h2 := ph.first_lt h
  rw [memSize, Nat.add_mod_mod]
  omega

/-- The pages of an accepted segment. -/
theorem ProgramHeader.userPage (h : ph.pVaddr < 2 ^ 64) (hlast : ph.last < userStackTop)
    (hfirst : userTextStart ≤ ph.first) :
    ∀ j < ((ph.first + ph.memSize) % 2 ^ 64 - ph.first + (pgSize - 1)) / pgSize,
      UserPage (ph.first / pgSize + j) := by
  intro j hj
  rw [first_add_memSize h] at hj
  have h1 : ph.first % pgSize = 0 := Nat.mul_mod_left _ _
  have h2 : ph.last % pgSize = 0 := Nat.mul_mod_left _ _
  simp only [UserPage, userStackTop, userTop, userTextStart, pgSize] at *
  omega

theorem programHeader_vaddr_lt (i : Nat) : (programHeader img start phoff i).pVaddr < 2 ^ 64 :=
  getLe_lt 8 16

/-- The box of the segments around the pages of a segment. -/
def UserMem.widen (p : UserMem) (ph : ProgramHeader) : UserMem :=
  { p with minVa := min p.minVa ph.first, maxVa := max p.maxVa ph.last }

/-- The pages of a segment that passes its checks are mapped. -/
theorem loadSegment_adds (hv : ph.pVaddr < 2 ^ 64) :
    Adds UserPage p (loadSegment start size ph p).mem := by
  unfold loadSegment
  split
  · exact .refl _
  split
  · exact .refl _
  rename_i hlast
  split
  · exact .refl _
  rename_i hfirst
  have hbox : Adds UserPage p (p.widen ph) := .same rfl rfl rfl
  refine hbox.trans (Adds.bind (mmap_adds (ph.userPage hv (Nat.lt_of_not_le hlast)
    (Nat.le_of_not_lt hfirst))) fun r q => ?_)
  split
  · exact .refl _
  · exact fillSegment_adds

/-- The loader goes on after a segment only if it was accepted. -/
theorem loadSegment_accepted {r : Int} (h : loadSegment start size ph p = .ok r q) (hr : ¬ r < 0) :
    ph.Accepted size := by
  unfold loadSegment at h
  split at h
  · cases h
    exact absurd (by decide) hr
  split at h
  · cases h
    exact absurd (by decide) hr
  split at h
  · cases h
    exact absurd (by decide) hr
  exact ⟨Nat.le_of_not_lt ‹_›, Nat.lt_of_not_le ‹_›, Nat.le_of_not_lt ‹_›⟩

theorem loadSegments_adds : ∀ (n i : Nat) (p : UserMem),
    Adds UserPage p (loadSegments img start size phoff n i p).mem
  | 0, _, _ => .refl _
  | n + 1, i, p => by
    rw [loadSegments]
    split
    · refine ((Adds.read _ _).trans (Adds.read _ _)).trans
        (Adds.bind (loadSegment_adds (programHeader_vaddr_lt i)) fun r q => ?_)
      split
      · exact .refl _
      · exact loadSegments_adds n (i + 1) q
    · exact (Adds.read _ _).trans (loadSegments_adds n (i + 1) _)

/-- The pages that the loader maps are those of the user. -/
theorem loadElf_adds : Adds UserPage p (loadElf img start size p).mem := by
  unfold loadElf
  split
  · exact .refl _
  refine (Adds.read start headerSize).trans ?_
  split
  · exact .refl _
  dsimp only
  split
  · exact .refl _
  refine Adds.bind (loadSegments_adds _ _ _) fun r q => ?_
  split
  · exact .refl _
  · exact .setEpc _

/-- Memory that holds `bs` at 4096. -/
def imageOf (bs : List UInt8) : Bytes := fun a => if a < 4096 then 0 else bs.getD (a - 4096) 0

/-- The header of an image with `phnum` program headers. -/
def headerOf (phnum : UInt8) (phoff : List UInt8) : List UInt8 :=
  [0x7f, 0x45, 0x4c, 0x46, 2, 1, 1, 0, 0, 0, 0, 0, 0, 0, 0, 0, 2, 0, 0xf3, 0, 1, 0, 0, 0,
    0, 0, 1, 0, 0, 0, 0, 0] ++ phoff ++
  [0, 0, 0, 0, 0, 0, 0, 0, 0, 0, 0, 0, 64, 0, 56, 0, phnum, 0, 64, 0, 0, 0, 0, 0]

/-- The header of an image with one program header. -/
def sampleHeader (phoff : List UInt8) : List UInt8 := headerOf 1 phoff

/-- An image of 128 bytes at 4096: 8 bytes of text for address 65536. -/
def sampleImage : Bytes :=
  imageOf (sampleHeader [64, 0, 0, 0, 0, 0, 0, 0] ++
    [1, 0, 0, 0, 5, 0, 0, 0, 120, 0, 0, 0, 0, 0, 0, 0, 0, 0, 1, 0, 0, 0, 0, 0,
      0, 0, 0, 0, 0, 0, 0, 0, 8, 0, 0, 0, 0, 0, 0, 0, 8, 0, 0, 0, 0, 0, 0, 0])

end CoroCore.User
