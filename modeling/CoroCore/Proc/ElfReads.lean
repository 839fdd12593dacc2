import CoroCore.Proc.OutOfPages

/-!
# What the loader reads: `proc/elf.cc`

A process maps some pages and loads an image. `copyout` is called for a segment if it passes its
checks, its pages are new, and there are free pages for them and their tables. The loader goes on if
the bytes that are stored in the segment are in pages of the user.

* `AtHeader.loadSegment`: so for a segment, in any process that comes to it;
* `loadSegments_reads`, `loadElf_reads`: the bytes that are read, by induction over the program
  headers;
* `elf_reads_image`: they are bytes of the image if and only if the sums that wrapped do no harm;
  the pages that are mapped are always those of the user.
-/

namespace CoroCore.User

open Lib Vmem

/-- A process whose page table stands for `m`. The trampoline is not a page of the user. -/
structure InOrder (F : Set Nat) (p : UserMem) (m : PageMap) : Prop extends Alive F [] p m where
  trampoline : ∃ f, m trampolinePage = some f ∧ f.2 &&& pteU = 0

/-- The page is mapped for the user. -/
def Users (m : PageMap) (n : Nat) : Prop := ∃ f, m n = some f ∧ f.2 &&& pteU ≠ 0

/-- The number of pages of a segment. -/
def ProgramHeader.pages (ph : ProgramHeader) : Nat := (ph.last - ph.first) / pgSize

/-- The tables on their way. -/
def ProgramHeader.tables (ph : ProgramHeader) : Finset (List Nat) :=
  tablePaths (ph.first / pgSize) ph.pages

section Image

variable (m : PageMap) (p : UserMem) (img : Bytes) (start size phoff : Nat)

/-- The pages that are mapped when those of the segments before program header `i` are. -/
def PagesAt (i n : Nat) : Prop := m n ≠ none ∨ ∃ ph ∈ segments img start phoff i, ph.Has n

/-- Those of them that the user may use. -/
def UsersAt (i n : Nat) : Prop := Users m n ∨ ∃ ph ∈ segments img start phoff i, ph.Has n

/-- No page of segment `i` is mapped before. -/
def NewAt (i : Nat) : Prop :=
  ∀ n, (programHeader img start phoff i).Has n → ¬ PagesAt m img start phoff i n

/-- The tables on the way of the segments before program header `i`. -/
def tablesAt : Nat → Finset (List Nat)
  | 0 => ∅
  | i + 1 =>
    if (programHeader img start phoff i).pType = 1 then
      tablesAt i ∪ (programHeader img start phoff i).tables
    else tablesAt i

/-- The pages that segment `i` takes: its own, and those of the tables that are not there yet. -/
def costAt (i : Nat) : Nat :=
  (programHeader img start phoff i).pages +
    (absent p.pagetable p.vm
      ((programHeader img start phoff i).tables \ tablesAt img start phoff i)).card

/-- What is left when the segments before program header `i` are mapped and recorded. -/
def stockAt : Nat → Stock
  | 0 => p.stock
  | i + 1 =>
    if (programHeader img start phoff i).pType = 1 then
      Stock.record ⟨(stockAt i).pages - costAt p img start phoff i, (stockAt i).nodes⟩
    else stockAt i

/-- Segment `i` is mapped, and `copyout` is called for it. -/
structure Copied (i : Nat) : Prop where
  accepted : (programHeader img start phoff i).Accepted size
  new : NewAt m img start phoff i
  paid : costAt p img start phoff i ≤ (stockAt p img start phoff i).pages

/-- There are pages of the user for the bytes from the file and for the zeros around them. -/
structure Filled (U : Nat → Prop) (ph : ProgramHeader) : Prop where
  file : Covers U ph.pVaddr ph.pFilesz
  before : ph.first < ph.pVaddr → Covers U ph.first (ph.pVaddr - ph.first)
  behind : ph.fileEnd < ph.last → Covers U ph.fileEnd (ph.last - ph.fileEnd)

/-- Segment `i` loads. -/
structure Loads (i : Nat) : Prop extends Copied m p img start size phoff i where
  filled : Filled (UsersAt m img start phoff (i + 1)) (programHeader img start phoff i)

/-- All segments before program header `j` load. -/
def Comes (j : Nat) : Prop :=
  ∀ k < j, (programHeader img start phoff k).pType = 1 → Loads m p img start size phoff k

/-- The process when the loader comes to program header `i`. -/
structure AtHeader (F : Set Nat) (i : Nat) (q : UserMem) : Prop where
  map : ∃ m', InOrder F q m' ∧ (∀ n, m' n ≠ none ↔ PagesAt m img start phoff i n) ∧
    ∀ n, Users m' n ↔ UsersAt m img start phoff i n
  stock : q.stock = stockAt p img start phoff i
  pagetable : q.pagetable = p.pagetable
  tabled : Tabled p.pagetable (tablesAt img start phoff i) p.vm q.vm

/-- The bytes that `copyout` reads for segment `i`. -/
def segmentBytes (i : Nat) : Set Nat :=
  {x | Copied m p img start size phoff i ∧ x ∈ fetched (UsersAt m img start phoff (i + 1))
    (programHeader img start phoff i).pVaddr
    ((start + (programHeader img start phoff i).pOffset) % 2 ^ 64)
    (programHeader img start phoff i).pFilesz}

/-- The bytes that are read when the loader comes to program header `i`. -/
def bytesAt (i : Nat) : Set Nat :=
  bytesOf [(programHeaderAddr start phoff i, 4)] ∪
    {x | (programHeader img start phoff i).pType = 1 ∧
      (x ∈ bytesOf [((programHeaderAddr start phoff i + 4) % 2 ^ 64, 44)] ∨
        x ∈ segmentBytes m p img start size phoff i)}

/-- The bytes that are read for the `n` program headers from `i` on. -/
def bytesFrom (i n : Nat) : Set Nat :=
  {x | ∃ j, i ≤ j ∧ j < i + n ∧ Comes m p img start size phoff j ∧
    x ∈ bytesAt m p img start size phoff j}

end Image

/-- The bytes that the loader reads: the header, if there is room for one, and if it passes its
checks, those for the program headers. -/
def loaderBytes (m : PageMap) (p : UserMem) (img : Bytes) (start size : Nat) : Set Nat :=
  {x | headerSize ≤ size ∧ (x ∈ bytesOf [(start, headerSize)] ∨
    (HeaderOk img start size ∧ headersSum (view img start) ≤ size) ∧
      x ∈ bytesFrom m p img start size (ePhoff (view img start)) 0 (ePhnum (view img start)))}

/-- From `p` to `q` the bytes of `B` are read. -/
def Reads (p q : UserMem) (B : Set Nat) : Prop :=
  ∃ rs, q.reads = p.reads ++ rs ∧ bytesOf rs = B

variable {F : Set Nat} {m m' : PageMap} {p q u : UserMem} {img : Bytes}
  {start size phoff i n : Nat} {ph : ProgramHeader} {B B' : Set Nat} {α β : Type}

/-! ## Reads -/

theorem Reads.none (h : q.reads = p.reads) : Reads p q ∅ :=
  ⟨[], h.trans (List.append_nil _).symm, bytesOf_nil⟩

theorem Reads.read (a len : Nat) : Reads p (p.read a len) (bytesOf [(a, len)]) := ⟨_, rfl, rfl⟩

theorem Reads.trans (h : Reads p q B) (h' : Reads q u B') : Reads p u (B ∪ B') := by
  obtain ⟨rs, hq, rfl⟩ := h
  obtain ⟨rs', hu, rfl⟩ := h'
  exact ⟨rs ++ rs', by rw [hu, hq, List.append_assoc], bytesOf_append rs rs'⟩

theorem reads_bind {r : Res α} {f : α → UserMem → Res β} (h : r.mem.reads = p.reads)
    (hf : ∀ a q, (f a q).mem.reads = q.reads) : (r.bind f).mem.reads = p.reads := by
  cases r with
  | ok a q => exact (hf a q).trans h
  | panic e q => exact h

theorem run_reads {c : Except Panic (α × Vm)} : (p.run c).mem.reads = p.reads := by
  rcases c with e | ⟨a, s⟩
  · rfl
  · rfl

theorem mmapLoop_reads (pteFlags : Nat) : ∀ (fuel va : Nat) (p : UserMem),
    (UserMem.mmapLoop pteFlags fuel va p).mem.reads = p.reads
  | 0, _, _ => rfl
  | fuel + 1, va, p => by
    rw [UserMem.mmapLoop]
    split
    · rfl
    · refine reads_bind run_reads fun r q => ?_
      split
      · rfl
      · exact mmapLoop_reads pteFlags fuel (va + pgSize) _

/-- `__mmap` reads nothing of the image. -/
theorem mmap_reads (va len flags pteFlags : Nat) :
    (UserMem.mmap va len flags pteFlags p).mem.reads = p.reads := by
  refine reads_bind (mmapLoop_reads pteFlags _ va p) fun r q => ?_
  cases r with
  | none =>
    change (q.pushBack _).reads = q.reads
    unfold UserMem.pushBack
    split
    · rfl
    · rename_i t ht
      exact (newNode_eq_some ht).2.2.1
  | some cur =>
    rw [UserMem.mmapEnd]
    split
    · rfl
    · exact reads_bind run_reads fun _ _ => rfl

/-! ## Pages of the user -/

theorem InOrder.congr (h : InOrder F p m) (hpt : q.pagetable = p.pagetable) (hvm : q.vm = p.vm)
    (hheap : q.heap = p.heap) (hinfos : q.infos = p.infos) : InOrder F q m := by
  refine ⟨⟨?_, ?_, h.range, hvm ▸ h.free, ?_⟩, h.trampoline⟩
  · rw [hpt, hvm, hheap]
    exact h.owns
  · rw [hinfos]
    exact h.records
  · rw [hheap]
    exact h.held

theorem AtHeader.congr (h : AtHeader m p img start phoff F i q) (hpt : u.pagetable = q.pagetable)
    (hvm : u.vm = q.vm) (hheap : u.heap = q.heap) (hinfos : u.infos = q.infos)
    (hroom : u.room = q.room) : AtHeader m p img start phoff F i u := by
  obtain ⟨⟨m', hready, hpages⟩, hstock, hpagetable, htabled⟩ := h
  refine ⟨⟨m', hready.congr hpt hvm hheap hinfos, hpages⟩, ?_, hpt.trans hpagetable, hvm ▸ htabled⟩
  rw [← hstock, UserMem.stock, UserMem.stock, hvm, hroom]

theorem AtHeader.read (h : AtHeader m p img start phoff F i q) (a len : Nat) :
    AtHeader m p img start phoff F i (q.read a len) := h.congr rfl rfl rfl rfl rfl

theorem Users.lt (h : InOrder F p m) (hn : Users m n) : n < Vmem.maxVa / pgSize := by
  obtain ⟨f, hf, -⟩ := hn
  exact h.range n (hf ▸ Option.some_ne_none f)

theorem InOrder.walkaddr (h : InOrder F p m) (a : Nat) :
    walkaddr p.pagetable (pgRoundDown a) p.vm ≠ 0 ↔ Users m (a / pgSize) := by
  have hdiv : pgRoundDown a / pgSize = a / pgSize := Nat.mul_div_cancel _ (by decide)
  by_cases hva : pgRoundDown a < Vmem.maxVa
  · rw [walkaddr_ne_zero h.owns.refines hva, hdiv]
    constructor
    · rintro ⟨f, hf, hu, -⟩
      exact ⟨f, hf, hu⟩
    · rintro ⟨f, hf, hu⟩
      obtain ⟨g, hg, hkernel⟩ := h.trampoline
      have hne : a / pgSize ≠ trampolinePage := by
        intro heq
        rw [heq, hg] at hf
        cases hf
        exact hu hkernel
      have hF : frame f ∈ F := h.owns.owned.mem (.frame (a / pgSize)) ⟨hne, f, hf, rfl⟩
      exact ⟨f, hf, hu, (h.owns.managed _ hF).1⟩
  · rw [Vmem.walkaddr, if_pos (Nat.le_of_not_lt hva)]
    refine iff_of_false (not_not_intro rfl) fun hu => ?_
    have hlt := hu.lt h
    simp only [pgRoundDown, pgSize, Vmem.maxVa] at *
    omega

/-- The two `memset_user` of a segment. -/
theorem InOrder.zeroSegment (h : InOrder F p m) (ph : ProgramHeader) :
    ∃ r, zeroSegment ph p = .ok r p ∧
      (¬ r < 0 ↔ (ph.first < ph.pVaddr → Covers (Users m) ph.first (ph.pVaddr - ph.first)) ∧
        (ph.fileEnd < ph.last → Covers (Users m) ph.fileEnd (ph.last - ph.fileEnd))) := by
  have hU : ∀ n, Users m n → n < Vmem.maxVa / pgSize := fun n => Users.lt h
  -- a call of `memset_user` that is made only under a condition
  have hcall : ∀ (c : Prop) [Decidable c] (a len : Nat), ∃ r,
      (if c then UserMem.memsetUser (UserMem.pagesAbove a) a len p else .ok 0 p) = .ok r p ∧
        (¬ r < 0 ↔ (c → Covers (Users m) a len)) := by
    intro c _ a len
    by_cases hc : c
    · obtain ⟨r, hr, hiff⟩ := memsetUser_spec hU h.walkaddr (UserMem.pagesAbove a) a len
        (le_add_pagesAbove _)
      exact ⟨r, by rw [if_pos hc, hr], hiff.trans (imp_iff_right hc).symm⟩
    · exact ⟨0, if_neg hc, iff_of_true (by decide) fun h => absurd h hc⟩
  obtain ⟨r1, hcall1, hr1⟩ := hcall (ph.first < ph.pVaddr) ph.first (ph.pVaddr - ph.first)
  obtain ⟨r2, hcall2, hr2⟩ := hcall (ph.fileEnd < ph.last) ph.fileEnd (ph.last - ph.fileEnd)
  rw [User.zeroSegment, hcall1, Res.bind]
  by_cases hneg : r1 < 0
  · rw [if_pos hneg]
    exact ⟨-1, rfl, iff_of_false (by decide) fun hc => hr1.mpr hc.1 hneg⟩
  · rw [if_neg hneg, hcall2]
    exact ⟨r2, rfl, hr2.trans (and_iff_right (hr1.mp hneg)).symm⟩

/-- `copyout` and the two `memset_user` of a segment. -/
theorem InOrder.fillSegment (h : InOrder F p m) (start : Nat) (ph : ProgramHeader) :
    ∃ r rs, fillSegment start ph p = .ok r { p with reads := p.reads ++ rs } ∧
      (¬ r < 0 ↔ Filled (Users m) ph) ∧ bytesOf rs =
        fetched (Users m) ph.pVaddr ((start + ph.pOffset) % 2 ^ 64) ph.pFilesz := by
  obtain ⟨r, rs, hcall, hr, hrs⟩ := copyout_spec (fun n => Users.lt h)
    (UserMem.pagesAbove ph.pVaddr) ph.pVaddr ((start + ph.pOffset) % 2 ^ 64) ph.pFilesz p h.walkaddr
    (le_add_pagesAbove _)
  rw [User.fillSegment, hcall, Res.bind]
  split
  · rename_i hneg
    exact ⟨-1, rs, rfl, iff_of_false (by decide) fun hf => hr.mpr hf.file hneg, hrs⟩
  rename_i hok
  have hread : InOrder F { p with reads := p.reads ++ rs } m := h.congr rfl rfl rfl rfl
  obtain ⟨r', hcall', hr'⟩ := hread.zeroSegment ph
  refine ⟨r', rs, hcall', hr'.trans ⟨fun hc => ⟨hr.mp hok, hc.1, hc.2⟩, fun hf => ?_⟩, hrs⟩
  exact ⟨hf.before, hf.behind⟩

/-! ## A segment -/

/-- The number of pages that `__mmap` counts. -/
theorem ProgramHeader.count_eq (hv : ph.pVaddr < 2 ^ 64) :
    ((ph.first + ph.memSize) % 2 ^ 64 - ph.first + (pgSize - 1)) / pgSize = ph.pages := by
  have h1 := ph.first_mod
  have h2 := ph.last_mod
  rw [ph.first_add_memSize hv, ProgramHeader.pages]
  simp only [pgSize] at *
  omega

/-- The pages that `__mmap` goes through are those of the segment. -/
theorem ProgramHeader.has_iff :
    ph.Has n ↔ ph.first / pgSize ≤ n ∧ n < ph.first / pgSize + ph.pages := by
  have h1 := ph.first_mod
  have h2 := ph.last_mod
  rw [ProgramHeader.Has, ProgramHeader.pages]
  simp only [pgSize] at *
  omega

theorem pagesAt_succ (htype : (programHeader img start phoff i).pType = 1) :
    PagesAt m img start phoff (i + 1) n ↔
      PagesAt m img start phoff i n ∨ (programHeader img start phoff i).Has n := by
  rw [PagesAt, PagesAt, segments_succ, if_pos htype, or_assoc]
  simp only [List.mem_append, List.mem_singleton, or_and_right, exists_or, exists_eq_left]

theorem usersAt_succ (htype : (programHeader img start phoff i).pType = 1) :
    UsersAt m img start phoff (i + 1) n ↔
      UsersAt m img start phoff i n ∨ (programHeader img start phoff i).Has n := by
  rw [UsersAt, UsersAt, segments_succ, if_pos htype, or_assoc]
  simp only [List.mem_append, List.mem_singleton, or_and_right, exists_or, exists_eq_left]

theorem AtHeader.mapCost (h : AtHeader m p img start phoff F i q) :
    mapCost q.pagetable q.vm ((programHeader img start phoff i).first / pgSize)
      (programHeader img start phoff i).pages = costAt p img start phoff i := by
  rw [Vmem.mapCost, h.pagetable, h.tabled.missing]
  rfl

theorem AtHeader.pages (h : AtHeader m p img start phoff F i q) :
    q.vm.free.length = (stockAt p img start phoff i).pages := congrArg Stock.pages h.stock

theorem AtHeader.nodes (h : AtHeader m p img start phoff F i q) :
    q.room = (stockAt p img start phoff i).nodes := congrArg Stock.nodes h.stock

/-- `__mmap` of the segment maps pages that were not mapped before if and only if it is new. -/
theorem new_iff (ha : (programHeader img start phoff i).Accepted size)
    (hpages : ∀ n, m' n ≠ none ↔ PagesAt m img start phoff i n) :
    New m' ((programHeader img start phoff i).first / pgSize)
      (programHeader img start phoff i).pages ↔ NewAt m img start phoff i := by
  constructor
  · intro hnew n hn hp
    obtain ⟨h1, h2⟩ := ProgramHeader.has_iff.mp hn
    exact (hpages n).mpr hp (hnew.none h1 h2).2
  · intro hnew j hj
    have hn := ProgramHeader.has_iff.mpr ⟨Nat.le_add_right _ j, Nat.add_lt_add_left hj _⟩
    refine ⟨(hn.user ha).trans (by decide), ?_⟩
    by_contra hne
    exact hnew _ hn ((hpages _).mp hne)

/-- The pages of the segment are mapped for the user, and the others as they were. -/
theorem mapped_pages {m₁ m₂ : PageMap} (htype : (programHeader img start phoff i).pType = 1)
    (hpages : ∀ n, m₁ n ≠ none ↔ PagesAt m img start phoff i n)
    (husers : ∀ n, Users m₁ n ↔ UsersAt m img start phoff i n)
    (hmaps : Maps m₁ ((programHeader img start phoff i).first / pgSize)
      (programHeader img start phoff i).pages (programHeader img start phoff i).pteFlags m₂) :
    (∀ n, m₂ n ≠ none ↔ PagesAt m img start phoff (i + 1) n) ∧
      ∀ n, Users m₂ n ↔ UsersAt m img start phoff (i + 1) n := by
  have hold : ∀ n, ¬ (programHeader img start phoff i).Has n → m₂ n = m₁ n := fun n hno =>
    hmaps.old n fun hin => hno (ProgramHeader.has_iff.mpr hin)
  have hin : ∀ n, (programHeader img start phoff i).Has n →
      ∃ pa, m₂ n = some (pa, (programHeader img start phoff i).pteFlags) := fun n hn =>
    hmaps.new n (ProgramHeader.has_iff.mp hn).1 (ProgramHeader.has_iff.mp hn).2
  refine ⟨fun n => ?_, fun n => ?_⟩
  · rw [pagesAt_succ htype, ← hpages n]
    by_cases hn : (programHeader img start phoff i).Has n
    · obtain ⟨pa, hpa⟩ := hin n hn
      exact iff_of_true (hpa ▸ Option.some_ne_none _) (.inr hn)
    · rw [hold n hn, or_iff_left hn]
  · rw [usersAt_succ htype, ← husers n]
    by_cases hn : (programHeader img start phoff i).Has n
    · obtain ⟨pa, hpa⟩ := hin n hn
      exact iff_of_true ⟨_, hpa, ProgramHeader.user_pteFlags _⟩ (.inr hn)
    · rw [Users, Users, hold n hn, or_iff_left hn]

/-- How `__mmap` of a segment that passes its checks ends. -/
inductive SegmentMaps (m : PageMap) (p : UserMem) (img : Bytes) (start phoff : Nat) (F : Set Nat)
    (i : Nat) : Res Int → Prop
  | mapped {q : UserMem} : NewAt m img start phoff i →
      costAt p img start phoff i ≤ (stockAt p img start phoff i).pages →
      AtHeader m p img start phoff F (i + 1) q → SegmentMaps m p img start phoff F i (.ok 0 q)
  | panic {e : Panic} {q : UserMem} : ¬ NewAt m img start phoff i →
      SegmentMaps m p img start phoff F i (.panic e q)
  | short {q : UserMem} : (stockAt p img start phoff i).pages < costAt p img start phoff i →
      SegmentMaps m p img start phoff F i (.ok (-1) q)

theorem AtHeader.mmap (h : AtHeader m p img start phoff F i q)
    (htype : (programHeader img start phoff i).pType = 1)
    (ha : (programHeader img start phoff i).Accepted size) :
    SegmentMaps m p img start phoff F i
      (UserMem.mmap (programHeader img start phoff i).first
        (programHeader img start phoff i).memSize
        mapUser (programHeader img start phoff i).pteFlags
        (q.widen (programHeader img start phoff i))) := by
  have hwide : AtHeader m p img start phoff F i (q.widen (programHeader img start phoff i)) :=
    h.congr rfl rfl rfl rfl rfl
  have hcost := hwide.mapCost
  obtain ⟨m₁, hready, hpages, husers⟩ := hwide.map
  have hv : (programHeader img start phoff i).pVaddr < 2 ^ 64 := programHeader_vaddr_lt i
  have htramp : m₁ trampolinePage ≠ none := by
    obtain ⟨f, hf, -⟩ := hready.trampoline
    exact hf ▸ Option.some_ne_none f
  have hfirst : (programHeader img start phoff i).first / pgSize * pgSize =
      (programHeader img start phoff i).first :=
    Nat.div_mul_cancel (Nat.dvd_of_mod_eq_zero (ProgramHeader.first_mod _))
  have hends := mmap_ends (n := (programHeader img start phoff i).first / pgSize)
    (programHeader img start phoff i).memSize mapUser hready.toAlive htramp
    (hfirst.symm ▸ ProgramHeader.first_lt hv) (Nat.mod_lt _ (by decide))
    (programHeader img start phoff i).hasFlag_pteFlags (programHeader img start phoff i).pteFlags_lt
  rw [hfirst, ProgramHeader.count_eq hv] at hends
  generalize UserMem.mmap _ _ mapUser _ _ = r at hends ⊢
  cases hends with
  | panic hnot _ => exact .panic fun hnew => hnot ((new_iff ha hpages).mpr hnew)
  | short j hj hshort _ _ _ => exact .short (hwide.pages ▸ hcost ▸ hshort.lt hj)
  | @mapped t m₂ hn hmaps ht _ _ hpaid =>
    obtain ⟨hpages', husers'⟩ := mapped_pages htype hpages husers hmaps
    have hout : ¬ (programHeader img start phoff i).Has trampolinePage := fun hno => by
      obtain ⟨h1, h2⟩ := ProgramHeader.has_iff.mp hno
      exact htramp (hn.none h1 h2).2
    have hkernel : m₂ trampolinePage = m₁ trampolinePage :=
      hmaps.old _ fun hin => hout (ProgramHeader.has_iff.mpr hin)
    have henough := hpaid.enough
    have hstock := hpaid.stock
    rw [hcost, hwide.pages] at henough hstock
    rw [hwide.nodes] at hstock
    refine .mapped ((new_iff ha hpages).mp hn) henough ⟨⟨m₂, ⟨ht, ?_⟩, hpages', husers'⟩, ?_,
      hpaid.pagetable.trans hwide.pagetable, ?_⟩
    · rw [hkernel]
      exact hready.trampoline
    · rw [stockAt, if_pos htype, hstock]
    · rw [tablesAt, if_pos htype]
      have htabled := hpaid.tabled
      rw [hwide.pagetable] at htabled
      exact hwide.tabled.trans htabled

/-- How the loader gets on with a segment. -/
inductive SegmentEnds (m : PageMap) (p : UserMem) (img : Bytes) (start size phoff : Nat)
    (F : Set Nat) (i : Nat) : Res Int → Prop
  | loaded {a : Int} {q : UserMem} : ¬ a < 0 → Loads m p img start size phoff i →
      AtHeader m p img start phoff F (i + 1) q → SegmentEnds m p img start size phoff F i (.ok a q)
  | stopped {r : Res Int} : (∀ a q, r = .ok a q → a < 0) → ¬ Loads m p img start size phoff i →
      SegmentEnds m p img start size phoff F i r

theorem segmentBytes_empty (h : ¬ Copied m p img start size phoff i) :
    segmentBytes m p img start size phoff i = ∅ :=
  Set.eq_empty_of_forall_notMem fun _ hx => h hx.1

/-- The loader goes on after the segments that load, and reads their bytes from the image. -/
theorem AtHeader.loadSegment (h : AtHeader m p img start phoff F i q)
    (htype : (programHeader img start phoff i).pType = 1) :
    SegmentEnds m p img start size phoff F i
      (loadSegment start size (programHeader img start phoff i) q) ∧
    Reads q (loadSegment start size (programHeader img start phoff i) q).mem
      (segmentBytes m p img start size phoff i) := by
  -- the loader stops, and has not come to `copyout`
  have hstop : ∀ {r : Res Int}, (∀ a t, r = .ok a t → a < 0) → r.mem.reads = q.reads →
      ¬ Copied m p img start size phoff i → SegmentEnds m p img start size phoff F i r ∧
        Reads q r.mem (segmentBytes m p img start size phoff i) := by
    intro r hr hreads hno
    rw [segmentBytes_empty hno]
    exact ⟨.stopped hr fun hl => hno hl.toCopied, .none hreads⟩
  have hminus : ∀ {u : UserMem} (a : Int) (t : UserMem), Res.ok (-1) u = .ok a t → a < 0 := by
    rintro u a t heq
    cases heq
    decide
  unfold User.loadSegment
  split
  · rename_i hno
    exact hstop hminus rfl fun hc => hno.not_ge hc.accepted.1
  rename_i hsum
  split
  · rename_i hno
    exact hstop hminus rfl fun hc => hno.not_gt hc.accepted.2.1
  rename_i hlast
  split
  · rename_i hno
    exact hstop hminus rfl fun hc => hno.not_ge hc.accepted.2.2
  rename_i hfirst
  have ha : (programHeader img start phoff i).Accepted size :=
    ⟨Nat.le_of_not_lt hsum, Nat.lt_of_not_le hlast, Nat.le_of_not_lt hfirst⟩
  have hmaps := h.mmap htype ha
  have hreads : (UserMem.mmap _ _ _ _ (q.widen (programHeader img start phoff i))).mem.reads =
      q.reads := mmap_reads (programHeader img start phoff i).first
    (programHeader img start phoff i).memSize mapUser (programHeader img start phoff i).pteFlags
  change SegmentEnds m p img start size phoff F i ((UserMem.mmap _ _ _ _ (q.widen _)).bind _) ∧
    Reads q ((UserMem.mmap _ _ _ _ (q.widen _)).bind _).mem _
  generalize UserMem.mmap _ _ _ _ (q.widen (programHeader img start phoff i)) = r at hmaps hreads ⊢
  cases hmaps with
  | panic hnot =>
    refine hstop (fun a t heq => ?_) hreads fun hc => hnot hc.new
    cases heq
  | short hless =>
    rw [Res.bind, if_pos (by decide)]
    exact hstop hminus hreads fun hc => hless.not_ge hc.paid
  | @mapped t hnew hpaid hat =>
    obtain ⟨m₁, hready, -, husers⟩ := hat.map
    obtain ⟨a, rs, hcall, hres, hrs⟩ := hready.fillSegment start (programHeader img start phoff i)
    have hU : Users m₁ = UsersAt m img start phoff (i + 1) := funext fun n => propext (husers n)
    rw [hU] at hres hrs
    rw [Res.bind, if_neg (by decide), hcall]
    have hcopied : Copied m p img start size phoff i := ⟨ha, hnew, hpaid⟩
    refine ⟨?_, rs, congrArg (· ++ rs) hreads, hrs.trans ?_⟩
    · by_cases hneg : a < 0
      · refine .stopped (fun b t heq => ?_) fun hl => hres.mpr hl.filled hneg
        cases heq
        exact hneg
      · exact .loaded hneg ⟨hcopied, hres.mp hneg⟩ (hat.congr rfl rfl rfl rfl rfl)
    · exact Set.ext fun x => (and_iff_right hcopied).symm

/-! ## The loop -/

theorem comes_succ (h : Comes m p img start size phoff i)
    (hi : (programHeader img start phoff i).pType = 1 → Loads m p img start size phoff i) :
    Comes m p img start size phoff (i + 1) := by
  intro k hk
  rcases Nat.lt_succ_iff_lt_or_eq.mp hk with hk | rfl
  · exact h k hk
  · exact hi

theorem bytesFrom_zero : bytesFrom m p img start size phoff i 0 = ∅ :=
  Set.eq_empty_of_forall_notMem fun _ ⟨_, h1, h2, _⟩ => absurd h2 h1.not_gt

theorem bytesFrom_succ (h : Comes m p img start size phoff i) :
    bytesFrom m p img start size phoff i (n + 1) =
      bytesAt m p img start size phoff i ∪ bytesFrom m p img start size phoff (i + 1) n := by
  ext x
  constructor
  · rintro ⟨j, h1, h2, hcomes, hx⟩
    rcases eq_or_lt_of_le h1 with rfl | h1
    · exact .inl hx
    · exact .inr ⟨j, h1, by omega, hcomes, hx⟩
  · rintro (hx | ⟨j, h1, h2, hcomes, hx⟩)
    · exact ⟨i, le_rfl, by omega, h, hx⟩
    · exact ⟨j, by omega, by omega, hcomes, hx⟩

/-- After a segment that does not load nothing is read. -/
theorem bytesFrom_stopped (htype : (programHeader img start phoff i).pType = 1)
    (h : ¬ Loads m p img start size phoff i) :
    bytesFrom m p img start size phoff (i + 1) n = ∅ :=
  Set.eq_empty_of_forall_notMem fun _ ⟨_, h1, _, hcomes, _⟩ => h (hcomes i h1 htype)

/-- A program header that is not `PT_LOAD` changes nothing. -/
theorem AtHeader.skip (h : AtHeader m p img start phoff F i q)
    (htype : (programHeader img start phoff i).pType ≠ 1) :
    AtHeader m p img start phoff F (i + 1) q := by
  obtain ⟨⟨m₁, hready, hpages, husers⟩, hstock, hpagetable, htabled⟩ := h
  have hsegs : segments img start phoff (i + 1) = segments img start phoff i := by
    rw [segments_succ, if_neg htype, List.append_nil]
  refine ⟨⟨m₁, hready, fun n => ?_, fun n => ?_⟩, ?_, hpagetable, ?_⟩
  · rw [hpages, PagesAt, PagesAt, hsegs]
  · rw [husers, UsersAt, UsersAt, hsegs]
  · rw [hstock, stockAt, if_neg htype]
  · rw [tablesAt, if_neg htype]
    exact htabled

theorem bytesAt_skip (htype : (programHeader img start phoff i).pType ≠ 1) :
    bytesAt m p img start size phoff i = bytesOf [(programHeaderAddr start phoff i, 4)] := by
  ext x
  exact or_iff_left fun hx => htype hx.1

theorem bytesAt_load (htype : (programHeader img start phoff i).pType = 1) :
    bytesAt m p img start size phoff i =
      bytesOf [(programHeaderAddr start phoff i, 4)] ∪
        bytesOf [((programHeaderAddr start phoff i + 4) % 2 ^ 64, 44)] ∪
        segmentBytes m p img start size phoff i := by
  rw [Set.union_assoc]
  ext x
  exact or_congr_right (and_iff_right htype)

/-- What the loop reads from program header `i` on. -/
theorem loadSegments_reads : ∀ (n i : Nat) (q : UserMem), AtHeader m p img start phoff F i q →
    Comes m p img start size phoff i →
    Reads q (loadSegments img start size phoff n i q).mem
      (bytesFrom m p img start size phoff i n)
  | 0, _, _, _, _ => by
    rw [bytesFrom_zero]
    exact .none rfl
  | n + 1, i, q, hat, hcomes => by
    rw [loadSegments, bytesFrom_succ hcomes]
    split
    · rename_i htype
      obtain ⟨hends, hreads⟩ : SegmentEnds m p img start size phoff F i _ ∧ _ :=
        ((hat.read (programHeaderAddr start phoff i) 4).read
          ((programHeaderAddr start phoff i + 4) % 2 ^ 64) 44).loadSegment htype
      replace hreads := ((Reads.read _ _).trans (Reads.read _ _)).trans hreads
      rw [← bytesAt_load htype] at hreads
      generalize User.loadSegment start size _ _ = r at hends hreads ⊢
      cases hends with
      | @loaded a t hneg hl hat' =>
        rw [Res.bind, if_neg hneg]
        exact hreads.trans (loadSegments_reads n (i + 1) t hat' (comes_succ hcomes fun _ => hl))
      | stopped hstop hnot =>
        rw [bytesFrom_stopped htype hnot, Set.union_empty]
        cases r with
        | ok a t =>
          rw [Res.bind, if_pos (hstop a t rfl)]
          exact hreads
        | panic e t => exact hreads
    · rename_i htype
      rw [bytesAt_skip htype]
      exact (Reads.read _ _).trans (loadSegments_reads n (i + 1) _ ((hat.read _ _).skip htype)
        (comes_succ hcomes fun h => absurd h htype))

theorem atHeader_zero (h : InOrder F p m) : AtHeader m p img start phoff F 0 p := by
  have hsegs : segments img start phoff 0 = [] := rfl
  refine ⟨⟨m, h, fun n => ?_, fun n => ?_⟩, rfl, rfl, .refl⟩
  · rw [PagesAt, hsegs]
    simp
  · rw [UsersAt, hsegs]
    simp

/-- What the loader reads, from any image into any process that is in order. -/
theorem loadElf_reads (h : InOrder F p m) :
    Reads p (loadElf img start size p).mem (loaderBytes m p img start size) := by
  have hread : Reads p (p.read start headerSize) (bytesOf [(start, headerSize)]) := .read _ _
  -- the loader stops after the header
  have hstop : headerSize ≤ size →
      ¬ (HeaderOk img start size ∧ headersSum (view img start) ≤ size) →
      loaderBytes m p img start size = bytesOf [(start, headerSize)] := by
    intro hsize hno
    ext x
    exact (and_iff_right hsize).trans (or_iff_left fun hx => hno hx.1)
  unfold loadElf
  split
  · rename_i hsize
    have hnone : loaderBytes m p img start size = ∅ :=
      Set.eq_empty_of_forall_notMem fun x hx => hsize.not_ge hx.1
    rw [hnone]
    exact .none rfl
  rename_i hsize
  have hsize := Nat.le_of_not_lt hsize
  split
  · rename_i hno
    rw [hstop hsize fun hc => hno hc.1]
    exact hread
  rename_i hok
  have hok := Classical.not_not.mp hok
  dsimp only
  split
  · rename_i hsum
    rw [hstop hsize fun hc => hsum.not_ge hc.2]
    exact hread
  rename_i hsum
  have hat : AtHeader m p img start (ePhoff (view img start)) F 0 (p.read start headerSize) :=
    (atHeader_zero h).read start headerSize
  have hcomes : Comes m p img start size (ePhoff (view img start)) 0 :=
    fun k hk => absurd hk (Nat.not_lt_zero k)
  have hloop := hread.trans (loadSegments_reads (ePhnum (view img start)) 0 _ hat hcomes)
  have hbytes : loaderBytes m p img start size = bytesOf [(start, headerSize)] ∪
      bytesFrom m p img start size (ePhoff (view img start)) 0 (ePhnum (view img start)) := by
    ext x
    exact (and_iff_right hsize).trans
      (or_congr_right (and_iff_right ⟨hok, Nat.le_of_not_lt hsum⟩))
  rw [hbytes]
  obtain ⟨rs, hrs, hset⟩ := hloop
  refine ⟨rs, (reads_bind rfl fun a t => ?_).trans hrs, hset⟩
  split
  · rfl
  · rfl

/-! ## Is it the image? -/

/-- The bytes are in the image. -/
def Inside (start size : Nat) (r : Nat × Nat) : Prop :=
  ∀ k < r.2, start ≤ (r.1 + k) % 2 ^ 64 ∧ (r.1 + k) % 2 ^ 64 < start + size

/-- From `p` to `q` only bytes of the image are read. -/
def ReadsInside (start size : Nat) (p q : UserMem) : Prop :=
  ∀ r ∈ q.reads.drop p.reads.length, Inside start size r

/-- The sums that wrapped do no harm to a process that maps `m`. The sum of the bounds check on the
program headers does not wrap. That of a segment does not wrap if `copyout` is called for it, or the
bytes up to the first page that is not one of the user end in the image. -/
structure ImageOk (m : PageMap) (p : UserMem) (img : Bytes) (start size : Nat) : Prop where
  headers : HeaderOk img start size → headersSum (view img start) ≤ size →
    ePhoff (view img start) + ePhnum (view img start) * programHeaderSize < 2 ^ 64
  segments : HeaderOk img start size → headersSum (view img start) ≤ size →
    ∀ i < ePhnum (view img start), Comes m p img start size (ePhoff (view img start)) i →
      (programHeader img start (ePhoff (view img start)) i).pType = 1 →
      Copied m p img start size (ePhoff (view img start)) i →
      (programHeader img start (ePhoff (view img start)) i).pOffset +
        (programHeader img start (ePhoff (view img start)) i).pFilesz < 2 ^ 64 ∨
      ∀ n, 0 < n → n ≤ (programHeader img start (ePhoff (view img start)) i).pFilesz →
        Covers (UsersAt m img start (ePhoff (view img start)) (i + 1))
          (programHeader img start (ePhoff (view img start)) i).pVaddr n →
        (programHeader img start (ePhoff (view img start)) i).pOffset + n ≤ size

theorem Reads.inside_iff (h : Reads p q B) :
    ReadsInside start size p q ↔ ∀ x ∈ B, start ≤ x ∧ x < start + size := by
  obtain ⟨rs, hrs, rfl⟩ := h
  rw [ReadsInside, hrs, List.drop_left]
  constructor
  · rintro hin x ⟨r, hr, k, hk, rfl⟩
    exact hin r hr k hk
  · intro hin r hr k hk
    exact hin _ ⟨r, hr, k, hk, rfl⟩

/-- The byte at an offset is in the image if and only if the offset is. -/
theorem offset_inside_iff {o : Nat} (himg : start + size ≤ 2 ^ 64) (ho : o < 2 ^ 64) :
    (start ≤ (start + o) % 2 ^ 64 ∧ (start + o) % 2 ^ 64 < start + size) ↔ o < size := by
  omega

theorem mem_bytesOf_phdr {x : Nat} (h : x ∈ bytesOf [(programHeaderAddr start phoff i, 4)] ∨
    x ∈ bytesOf [((programHeaderAddr start phoff i + 4) % 2 ^ 64, 44)]) :
    ∃ k < programHeaderSize, x = (start + (phoff + i * programHeaderSize + k)) % 2 ^ 64 := by
  rcases h with h | h
  · obtain ⟨k, hk, rfl⟩ := mem_bytesOf_singleton.mp h
    refine ⟨k, Nat.lt_of_lt_of_le hk (by decide : 4 ≤ programHeaderSize), ?_⟩
    rw [programHeaderAddr, Nat.mod_add_mod, Nat.add_assoc start, Nat.add_assoc start]
  · obtain ⟨k, hk, rfl⟩ := mem_bytesOf_singleton.mp h
    refine ⟨4 + k, Nat.lt_of_lt_of_le (Nat.add_lt_add_left hk 4)
      (by decide : 48 ≤ programHeaderSize), ?_⟩
    rw [programHeaderAddr, Nat.mod_add_mod, Nat.add_assoc _ 4 k, Nat.mod_add_mod,
      Nat.add_assoc start, Nat.add_assoc start]

theorem mem_segmentBytes {x : Nat} : x ∈ segmentBytes m p img start size phoff i ↔
    Copied m p img start size phoff i ∧ ∃ k < (programHeader img start phoff i).pFilesz,
      Covers (UsersAt m img start phoff (i + 1)) (programHeader img start phoff i).pVaddr (k + 1) ∧
        x = (start + ((programHeader img start phoff i).pOffset + k)) % 2 ^ 64 := by
  refine and_congr_right fun _ => exists_congr fun k => and_congr_right fun _ =>
    and_congr_right fun _ => ?_
  rw [Nat.mod_add_mod, Nat.add_assoc]

theorem programHeader_offset_lt (i : Nat) : (programHeader img start phoff i).pOffset < 2 ^ 64 :=
  getLe_lt 8 8

/-- Where the sums that wrapped do no harm, what the loader reads is in the image. -/
theorem ImageOk.inside (h : ImageOk m p img start size) (himg : start + size ≤ 2 ^ 64) {x : Nat}
    (hx : x ∈ loaderBytes m p img start size) : start ≤ x ∧ x < start + size := by
  have hoffset : ∀ o < size, start ≤ (start + o) % 2 ^ 64 ∧ (start + o) % 2 ^ 64 < start + size :=
    fun o ho => (offset_inside_iff himg (by omega)).mpr ho
  obtain ⟨hsize, hx | ⟨⟨hok, hsum⟩, j, -, hj, hcomes, hx⟩⟩ := hx
  · obtain ⟨k, hk, rfl⟩ := mem_bytesOf_singleton.mp hx
    exact hoffset k (hk.trans_le hsize)
  rw [Nat.zero_add] at hj
  have hheader : x ∈ bytesOf [(programHeaderAddr start (ePhoff (view img start)) j, 4)] ∨
      x ∈ bytesOf [((programHeaderAddr start (ePhoff (view img start)) j + 4) % 2 ^ 64, 44)] →
      start ≤ x ∧ x < start + size := by
    intro hx
    obtain ⟨k, hk, rfl⟩ := mem_bytesOf_phdr hx
    have hlt := h.headers hok hsum
    rw [headersSum, Nat.mod_eq_of_lt hlt] at hsum
    have hnext := Nat.mul_le_mul_right programHeaderSize (Nat.succ_le_of_lt hj)
    rw [Nat.succ_mul] at hnext
    exact hoffset _ (by omega)
  rcases hx with hx | ⟨htype, hx | hx⟩
  · exact hheader (.inl hx)
  · exact hheader (.inr hx)
  · obtain ⟨hcopied, k, hk, hc, rfl⟩ := mem_segmentBytes.mp hx
    refine hoffset _ ?_
    rcases h.segments hok hsum j hj hcomes htype hcopied with hlt | hend
    · have hfile := hcopied.accepted.1
      rw [ProgramHeader.fileSum, Nat.mod_eq_of_lt hlt] at hfile
      omega
    · exact hend (k + 1) k.succ_pos hk hc

/-- An image that is read from its inside only has no sum that wrapped and does harm. -/
theorem imageOk_of_inside (himg : start + size ≤ 2 ^ 64) (hsmall : size ≤ 2 ^ 63)
    (h : ∀ x ∈ loaderBytes m p img start size, start ≤ x ∧ x < start + size) :
    ImageOk m p img start size := by
  have hbytes : HeaderOk img start size → headersSum (view img start) ≤ size →
      ∀ j < ePhnum (view img start), Comes m p img start size (ePhoff (view img start)) j →
      ∀ x ∈ bytesAt m p img start size (ePhoff (view img start)) j,
        start ≤ x ∧ x < start + size := fun hok hsum j hj hcomes x hx =>
    h x ⟨hok.1, .inr ⟨⟨hok, hsum⟩, j, j.zero_le, (Nat.zero_add _).symm ▸ hj, hcomes, hx⟩⟩
  refine ⟨fun hok hsum => ?_, fun hok hsum i hi hcomes htype hcopied => ?_⟩
  · -- the first program header
    have hoff : ePhoff (view img start) < 2 ^ 64 := getLe_lt 8 32
    have hnum : ePhnum (view img start) < 2 ^ 16 := getLe_lt 2 56
    have hfirst : (start + ePhoff (view img start)) % 2 ^ 64 ∈
        bytesOf [(programHeaderAddr start (ePhoff (view img start)) 0, 4)] := by
      refine mem_bytesOf_singleton.mpr ⟨0, (by decide : 0 < 4), ?_⟩
      rw [programHeaderAddr, Nat.zero_mul, Nat.add_zero, Nat.add_zero, Nat.mod_mod]
    have hin := hbytes hok hsum 0 (Nat.pos_of_ne_zero hok.2.2.2)
      (fun k hk => absurd hk (Nat.not_lt_zero k)) _ (.inl hfirst)
    have hlt := (offset_inside_iff himg hoff).mp hin
    simp only [programHeaderSize]
    omega
  · refine or_iff_not_imp_left.mpr fun _ n hn hle hc => ?_
    by_contra hout
    -- the first byte that is not in the image
    have hoff : (programHeader img start (ePhoff (view img start)) i).pOffset < 2 ^ 64 :=
      programHeader_offset_lt i
    have hin := hbytes hok hsum i hi hcomes _ (.inr ⟨htype, .inr (mem_segmentBytes.mpr ⟨hcopied,
      size - (programHeader img start (ePhoff (view img start)) i).pOffset, by omega,
      fun b h1 h2 => hc b h1 (by omega), rfl⟩)⟩)
    have hlt := (offset_inside_iff himg (by omega)).mp hin
    omega

/-- The loader maps user pages only. Where the sums that wrapped do no harm it reads nothing but the
image, and with an image of at most 2^63 bytes only there. -/
theorem elf_reads_image (img : Bytes) (start size : Nat) (p : UserMem)
    (himg : start + size ≤ 2 ^ 64) :
    (∀ n ∈ (loadElf img start size p).mem.maps, n ∈ p.maps ∨ UserPage n) ∧
      ∀ (F : Set Nat) (m : PageMap), InOrder F p m →
        (ImageOk m p img start size → ReadsInside start size p (loadElf img start size p).mem) ∧
        (size ≤ 2 ^ 63 → ReadsInside start size p (loadElf img start size p).mem →
          ImageOk m p img start size) := by
  refine ⟨loadElf_adds.maps, fun F m hp => ?_⟩
  have hreads : ReadsInside start size p (loadElf img start size p).mem ↔ _ :=
    (loadElf_reads hp).inside_iff
  exact ⟨fun hok => hreads.mpr fun x => hok.inside himg,
    fun hsmall hin => imageOk_of_inside himg hsmall (hreads.mp hin)⟩

/-- A new process is in order. -/
theorem construct_inOrder {trampoline : Nat} (hp : Pool p.vm) (hinfos : p.infos = [])
    (hheap : p.heap = []) (htramp : trampoline < 2 ^ 55)
    (hcall : UserMem.construct trampoline p = .ok 0 q) : ∃ m, InOrder {x | x ∈ p.vm.free} q m := by
  have hends : ConstructEnds p _ := construct_ends hp hinfos hheap htramp
  rw [hcall] at hends
  cases hends with
  | mapped _ halive hm hkernel => exact ⟨_, halive, _, hm, hkernel⟩
  | loses _ hloses => exact absurd rfl (hloses 0 q rfl).1

/-- An image of 176 bytes at 4096. The bytes of its first segment need a second page, which is not
mapped, and the offset in its second program header is 2^64 - 1. -/
def shortImage : Bytes :=
  imageOf (headerOf 2 [64, 0, 0, 0, 0, 0, 0, 0] ++
    [1, 0, 0, 0, 5, 0, 0, 0, 0, 0, 0, 0, 0, 0, 0, 0, 0xfc, 0x0f, 1, 0, 0, 0, 0, 0,
      0, 0, 0, 0, 0, 0, 0, 0, 8, 0, 0, 0, 0, 0, 0, 0, 4, 0, 0, 0, 0, 0, 0, 0,
      0, 0, 0, 0, 0, 0, 0, 0] ++
    [1, 0, 0, 0, 5, 0, 0, 0, 255, 255, 255, 255, 255, 255, 255, 255, 0, 0, 2, 0, 0, 0, 0, 0,
      0, 0, 0, 0, 0, 0, 0, 0, 1, 0, 0, 0, 0, 0, 0, 0, 1, 0, 0, 0, 0, 0, 0, 0,
      0, 0, 0, 0, 0, 0, 0, 0])

/-- An image of 8192 bytes at 4096. Its segment has one page, and 2^64 - 8 bytes from offset 8
on. -/
def endlessImage : Bytes :=
  imageOf (sampleHeader [64, 0, 0, 0, 0, 0, 0, 0] ++
    [1, 0, 0, 0, 5, 0, 0, 0, 8, 0, 0, 0, 0, 0, 0, 0, 0, 0, 1, 0, 0, 0, 0, 0,
      0, 0, 0, 0, 0, 0, 0, 0, 0xf8, 255, 255, 255, 255, 255, 255, 255, 4, 0, 0, 0, 0, 0, 0, 0,
      0, 0, 0, 0, 0, 0, 0, 0])

/-- A page that was not one of the user, and is behind the first segment. -/
theorem not_usersAt_one (hp : InOrder F p m)
    (hn : Vmem.walkaddr p.pagetable (pgRoundDown (n * pgSize)) p.vm = 0)
    (hlast : (programHeader img start phoff 0).last = n * pgSize) :
    ¬ UsersAt m img start phoff 1 n := by
  rintro (hu | ⟨ph, hph, hhas⟩)
  · rw [← Nat.mul_div_cancel n (by decide : 0 < pgSize)] at hu
    exact (hp.walkaddr (n * pgSize)).mpr hu hn
  · obtain ⟨k, hk, rfl⟩ := List.mem_map.mp (List.mem_filter.mp hph).1
    obtain rfl : k = 0 := Nat.lt_one_iff.mp (List.mem_range.mp hk)
    exact absurd hhas.2 hlast.le.not_gt

/-- The loader does not come to the second program header, or it stops behind the first page. -/
theorem elf_reads_image_short :
    ((loadElf shortImage 4096 176 (UserMem.construct 8192 newMem).mem).mem.reads =
        [(4096, 64), (4160, 4), (4164, 44), (4096, 4)] ∧
      ReadsInside 4096 176 (UserMem.construct 8192 newMem).mem
        (loadElf shortImage 4096 176 (UserMem.construct 8192 newMem).mem).mem) ∧
    (loadElf endlessImage 4096 8192 (UserMem.construct 8192 newMem).mem).mem.reads =
        [(4096, 64), (4160, 4), (4164, 44), (4104, 4096)] ∧
      ReadsInside 4096 8192 (UserMem.construct 8192 newMem).mem
        (loadElf endlessImage 4096 8192 (UserMem.construct 8192 newMem).mem).mem := by
  have hnew : UserMem.construct 8192 newMem = .ok 0 (UserMem.construct 8192 newMem).mem :=
    eq_ok (by decide +kernel)
  obtain ⟨m, hm⟩ := construct_inOrder newMem_pool rfl rfl (by decide) hnew
  have hpage : Vmem.walkaddr (UserMem.construct 8192 newMem).mem.pagetable
      (pgRoundDown (17 * pgSize)) (UserMem.construct 8192 newMem).mem.vm = 0 := by decide +kernel
  have hshort : ImageOk m (UserMem.construct 8192 newMem).mem shortImage 4096 176 := by
    have hnum : ePhnum (view shortImage 4096) = 2 := by decide +kernel
    have hoff : ePhoff (view shortImage 4096) = 64 := by decide +kernel
    refine ⟨fun _ _ => by decide +kernel, fun _ _ i hi hcomes _ _ => .inl ?_⟩
    rw [hnum] at hi
    rw [hoff] at hcomes ⊢
    obtain rfl | rfl : i = 0 ∨ i = 1 := by omega
    · decide +kernel
    · have hfile := (hcomes 0 Nat.one_pos (by decide +kernel)).filled.file
      have hva : (programHeader shortImage 4096 64 0).pVaddr = 69628 := by decide +kernel
      have hlen : (programHeader shortImage 4096 64 0).pFilesz = 8 := by decide +kernel
      rw [hva, hlen] at hfile
      exact absurd (hfile 69632 (by decide) (by decide))
        (not_usersAt_one hm hpage (by decide +kernel))
  have hendless : ImageOk m (UserMem.construct 8192 newMem).mem endlessImage 4096 8192 := by
    have hnum : ePhnum (view endlessImage 4096) = 1 := by decide +kernel
    have hoff : ePhoff (view endlessImage 4096) = 64 := by decide +kernel
    refine ⟨fun _ _ => by decide +kernel, fun _ _ i hi _ _ _ => .inr fun n _ _ hc => ?_⟩
    rw [hnum] at hi
    obtain rfl : i = 0 := Nat.lt_one_iff.mp hi
    rw [hoff] at hc ⊢
    have hva : (programHeader endlessImage 4096 64 0).pVaddr = 65536 := by decide +kernel
    have hpoff : (programHeader endlessImage 4096 64 0).pOffset = 8 := by decide +kernel
    rw [hpoff]
    rw [hva] at hc
    by_contra hout
    exact not_usersAt_one hm hpage (by decide +kernel) (hc 69632 (by decide) (by omega))
  exact ⟨⟨by decide +kernel, ((elf_reads_image shortImage 4096 176
      (UserMem.construct 8192 newMem).mem (by decide)).2 _ m hm).1 hshort⟩, by decide +kernel,
    ((elf_reads_image endlessImage 4096 8192
      (UserMem.construct 8192 newMem).mem (by decide)).2 _ m hm).1 hendless⟩

/-- An image of 64 bytes at 4096 whose program header is at offset 2^64 - 56. -/
def wrappedImage : Bytes := imageOf (sampleHeader [200, 255, 255, 255, 255, 255, 255, 255])

/-- The sum of the bounds check is 0, and the program header is read from before the image. -/
theorem elf_reads_before_image :
    ∃ r ∈ (loadElf wrappedImage 4096 64 (UserMem.construct 8192 newMem).mem).mem.reads,
      ¬ Inside 4096 64 r := by
  have hreads : (loadElf wrappedImage 4096 64 (UserMem.construct 8192 newMem).mem).mem.reads =
      [(4096, 64), (4040, 4)] := by decide +kernel
  refine ⟨(4040, 4), ?_, fun h => ?_⟩
  · rw [hreads]
    exact List.mem_cons_of_mem _ List.mem_cons_self
  · exact absurd (h 0 (by decide)).1 (by decide)

end CoroCore.User
