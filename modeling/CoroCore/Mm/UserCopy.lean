import CoroCore.Lib.Bytes
import CoroCore.Mm.PageFree

/-!
# Copies between the kernel and user memory: `mm/vmem.cc`

Memory is one array of bytes that holds the page tables, the frames of the user pages and the
buffers of the kernel. `UserMap` says that the user pages have frames of their own, and `Buffer`
that a buffer of the kernel lies outside them.

* `copy_ok`: `copyout` and `copyin` succeed if and only if the whole range consists of user pages,
  and then they copy the bytes of the range and nothing else;
* `copyinstr_ok`: `copyinstr` succeeds if and only if it comes to the end of the string, and it does
  not go on behind it.
-/

namespace CoroCore.Vmem

open Lib

/-- The page tables in memory. -/
def pageTables (m : Bytes) : Vm where
  mem x i := if i < 512 then getLe m (x + 8 * i) 8 else 0
  free := []
  start := 0
  stop := 0

/-- The bytes of the first page of a range, and at least one. -/
theorem chunk_pos (va : Nat) {len : Nat} (h : len ≠ 0) :
    0 < min (pgSize - (va - pgRoundDown va)) len := by
  have hoff : va - pgRoundDown va = va % pgSize := by
    have := Nat.div_add_mod' va pgSize
    rw [pgRoundDown]
    omega
  have hlt : va % pgSize < pgSize := Nat.mod_lt _ (by decide)
  omega

/-- `copyout`: the result and the memory. User addresses have 64 bits. -/
def copyout (root dstva src len : Nat) (m : Bytes) : Int × Bytes :=
  if h : len = 0 then (0, m)
  else
    let va0 := pgRoundDown dstva
    let pa0 := walkaddr root va0 (pageTables m)
    if pa0 = 0 then (-1, m)
    else
      let n := min (pgSize - (dstva - va0)) len
      copyout root ((va0 + pgSize) % 2 ^ 64) (src + n) (len - n)
        (memcpy m (pa0 + (dstva - va0)) (fun k => m (src + k)) n)
termination_by len
decreasing_by
  have := chunk_pos dstva h
  omega

/-- `copyin`. -/
def copyin (root dst srcva len : Nat) (m : Bytes) : Int × Bytes :=
  if h : len = 0 then (0, m)
  else
    let va0 := pgRoundDown srcva
    let pa0 := walkaddr root va0 (pageTables m)
    if pa0 = 0 then (-1, m)
    else
      let n := min (pgSize - (srcva - va0)) len
      copyin root (dst + n) ((va0 + pgSize) % 2 ^ 64) (len - n)
        (memcpy m dst (fun k => m (pa0 + (srcva - va0) + k)) n)
termination_by len
decreasing_by
  have := chunk_pos srcva h
  omega

/-- The inner loop of `copyinstr`: `got_null`, `max` and `dst`, and the memory. -/
def copyChunk : Nat → Nat → Nat → Nat → Bytes → Bool × Nat × Nat × Bytes
  | 0, max, _, dst, m => (false, max, dst, m)
  | n + 1, max, p, dst, m =>
    if m p = 0 then (true, max, dst, Function.update m dst 0)
    else copyChunk n (max - 1) (p + 1) (dst + 1) (Function.update m dst (m p))

theorem copyChunk_max : ∀ (n max p dst : Nat) (m : Bytes), (copyChunk n max p dst m).1 = false →
    (copyChunk n max p dst m).2.1 = max - n
  | 0, _, _, _, _, _ => rfl
  | n + 1, max, p, dst, m, h => by
    rw [copyChunk] at h ⊢
    split at h
    · cases h
    · next hp =>
      rw [if_neg hp, copyChunk_max n _ _ _ _ h]
      omega

/-- `copyinstr`, with the pages that it looks up. -/
def copyinstr (root dst srcva max : Nat) (m : Bytes) : Int × Bytes × List Nat :=
  if h : max = 0 then (-1, m, [])
  else
    let va0 := pgRoundDown srcva
    let pa0 := walkaddr root va0 (pageTables m)
    if pa0 = 0 then (-1, m, [va0])
    else
      let n := min (pgSize - (srcva - va0)) max
      match hc : copyChunk n max (pa0 + (srcva - va0)) dst m with
      | (true, _, _, m) => (0, m, [va0])
      | (false, max', dst', m') =>
        let r := copyinstr root dst' ((va0 + pgSize) % 2 ^ 64) max' m'
        (r.1, r.2.1, va0 :: r.2.2)
termination_by max
decreasing_by
  have hmax := copyChunk_max n max (pa0 + (srcva - va0)) dst m
  rw [hc] at hmax
  have hpos : 0 < n := chunk_pos srcva h
  have hrest : max' = max - n := hmax rfl
  omega

/-! ## User pages -/

variable {root va a b src dst len n k x : Nat} {m m' : Bytes}

/-- The page of the address is valid and the user may use it. -/
def UserPage (root : Nat) (m : Bytes) (a : Nat) : Prop :=
  a < maxVa ∧ valid (entry root (pageTables m) a) ∧
    entry root (pageTables m) a &&& pteU ≠ 0

instance (root : Nat) (m : Bytes) (a : Nat) : Decidable (UserPage root m a) :=
  inferInstanceAs (Decidable (_ ∧ _ ∧ _))

/-- The frame of the page of the address. -/
def userFrame (root : Nat) (m : Bytes) (a : Nat) : Nat := pte2pa (entry root (pageTables m) a)

/-- The translation of a user address. -/
def phys (root : Nat) (m : Bytes) (a : Nat) : Nat := userFrame root m a + a % pgSize

/-- Two ranges of memory without a common byte. -/
def Apart (p n q k : Nat) : Prop := ∀ x, p ≤ x → x < p + n → ¬ (q ≤ x ∧ x < q + k)

/-- No user page has its frame at 0 or on a page table. -/
structure UserMap (root : Nat) (m : Bytes) : Prop where
  frame_ne : ∀ a, UserPage root m a → userFrame root m a ≠ 0
  tables : ∀ a, UserPage root m a → ∀ x ∈ tables root (pageTables m),
    Apart (userFrame root m a) pgSize x pgSize

/-- Different user pages have different frames. -/
def Distinct (root : Nat) (m : Bytes) : Prop :=
  ∀ a b, UserPage root m a → UserPage root m b → userFrame root m a = userFrame root m b →
    a / pgSize = b / pgSize

/-- Memory of the kernel: no frame of a user page, and no page table. -/
structure Buffer (root : Nat) (m : Bytes) (buf len : Nat) : Prop where
  frames : ∀ a, UserPage root m a → Apart buf len (userFrame root m a) pgSize
  tables : ∀ x ∈ tables root (pageTables m), Apart buf len x pgSize

/-- The page tables are the same. -/
def SameTables (root : Nat) (m m' : Bytes) : Prop :=
  ∀ x ∈ tables root (pageTables m), ∀ y, x ≤ y → y < x + pgSize → m' y = m y

theorem px_pgRoundDown (level : Nat) : px level (pgRoundDown va) = px level va := by
  rw [px, px, pgRoundDown, Nat.pow_add, ← Nat.div_div_eq_div_mul, ← Nat.div_div_eq_div_mul,
    show pgSize = 2 ^ 12 from rfl, Nat.mul_div_cancel _ (by decide)]

theorem path_pgRoundDown : ∀ level, path level (pgRoundDown va) = path level va
  | 0 => rfl
  | level + 1 => by rw [path, path, px_pgRoundDown, path_pgRoundDown level]

theorem entry_pgRoundDown {s : Vm} : entry root s (pgRoundDown va) = entry root s va := by
  rw [entry, entry, path_pgRoundDown, px_pgRoundDown]

theorem pgRoundDown_lt : pgRoundDown va < maxVa ↔ va < maxVa := by
  simp only [pgRoundDown, pgSize, maxVa]
  omega

theorem sub_pgRoundDown : va - pgRoundDown va = va % pgSize := by
  have := Nat.div_add_mod' va pgSize
  rw [pgRoundDown]
  omega

theorem walkaddr_eq : walkaddr root va (pageTables m) =
    if UserPage root m va then userFrame root m va else 0 := by
  unfold walkaddr
  split
  · next hle => rw [if_neg fun h => absurd h.1 (Nat.not_lt.mpr hle)]
  · next hlt =>
    have hva : va < maxVa := Nat.lt_of_not_le hlt
    rw [walkLevels_read]
    cases hnode : Radix.node child (pageTables m).mem root (path 2 va) with
    | none =>
      have hentry : entry root (pageTables m) va = 0 := by
        rw [entry, Radix.leaf, hnode]
        rfl
      rw [if_neg fun h => not_valid_zero (hentry ▸ h.2.1)]
      rfl
    | some x =>
      have hentry : entry root (pageTables m) va = (pageTables m).mem x (px 0 va) := by
        rw [entry, Radix.leaf, hnode]
        rfl
      simp only [Option.map_some]
      rw [← hentry]
      by_cases hv : valid (entry root (pageTables m) va)
      · by_cases hu : entry root (pageTables m) va &&& pteU = 0
        · rw [if_neg (not_not_intro hv), if_pos hu, if_neg fun h => h.2.2 hu]
        · rw [if_neg (not_not_intro hv), if_neg hu, if_pos ⟨hva, hv, hu⟩, userFrame]
      · rw [if_pos hv, if_neg fun h => hv h.2.1]

/-- `walkaddr` of the page of an address. -/
theorem walkaddr_page : walkaddr root (pgRoundDown va) (pageTables m) =
    if UserPage root m va then userFrame root m va else 0 := by
  rw [walkaddr_eq]
  refine if_congr ?_ ?_ rfl
  · rw [UserPage, UserPage, entry_pgRoundDown, pgRoundDown_lt]
  · rw [userFrame, userFrame, entry_pgRoundDown]

theorem walkaddr_page_eq_zero (hmap : UserMap root m) :
    walkaddr root (pgRoundDown va) (pageTables m) = 0 ↔ ¬ UserPage root m va := by
  rw [walkaddr_page]
  by_cases hu : UserPage root m va
  · rw [if_pos hu]
    exact ⟨fun h => absurd h (hmap.frame_ne va hu), fun h => absurd hu h⟩
  · rw [if_neg hu]
    exact ⟨fun _ => hu, fun _ => rfl⟩

/-! ### The addresses of one page -/

theorem div_of_chunk (hk : k < pgSize - va % pgSize) : (va + k) / pgSize = va / pgSize := by
  simp only [pgSize] at *
  omega

theorem mod_of_chunk (hk : k < pgSize - va % pgSize) : (va + k) % pgSize = va % pgSize + k := by
  simp only [pgSize] at *
  omega

theorem pgRoundDown_of_chunk (hk : k < pgSize - va % pgSize) :
    pgRoundDown (va + k) = pgRoundDown va := by
  rw [pgRoundDown, pgRoundDown, div_of_chunk hk]

theorem entry_of_chunk {s : Vm} (hk : k < pgSize - va % pgSize) :
    entry root s (va + k) = entry root s va := by
  rw [← entry_pgRoundDown, pgRoundDown_of_chunk hk, entry_pgRoundDown]

theorem userPage_of_chunk (hk : k < pgSize - va % pgSize) :
    UserPage root m (va + k) ↔ UserPage root m va := by
  rw [UserPage, UserPage, entry_of_chunk hk, ← pgRoundDown_lt, pgRoundDown_of_chunk hk,
    pgRoundDown_lt]

theorem phys_of_chunk (hk : k < pgSize - va % pgSize) :
    phys root m (va + k) = userFrame root m va + va % pgSize + k := by
  rw [phys, userFrame, entry_of_chunk hk, mod_of_chunk hk, userFrame, Nat.add_assoc]

/-- The first address of the next page. It has 64 bits. -/
theorem next_page (hva : va < maxVa) :
    (pgRoundDown va + pgSize) % 2 ^ 64 = va + (pgSize - va % pgSize) := by
  have hlt : va % pgSize < pgSize := Nat.mod_lt _ (by decide)
  have hsplit := Nat.div_add_mod' va pgSize
  have hmod : pgRoundDown va + pgSize < 2 ^ 64 := by
    rw [pgRoundDown]
    simp only [maxVa, pgSize] at *
    omega
  rw [Nat.mod_eq_of_lt hmod, pgRoundDown]
  omega

theorem frame_mod (root : Nat) (m : Bytes) (a : Nat) : userFrame root m a % pgSize = 0 := by
  rw [userFrame, pte2pa]
  simp only [pgSize]
  omega

theorem phys_mem : userFrame root m a ≤ phys root m a ∧
    phys root m a < userFrame root m a + pgSize := by
  have hlt : a % pgSize < pgSize := Nat.mod_lt _ (by decide)
  exact ⟨Nat.le_add_right _ _, Nat.add_lt_add_left hlt _⟩

/-- Different user addresses have different translations. -/
theorem phys_inj (hd : Distinct root m) (ha : UserPage root m a) (hb : UserPage root m b)
    (h : phys root m a = phys root m b) : a = b := by
  have hmoda : a % pgSize < pgSize := Nat.mod_lt _ (by decide)
  have hmodb : b % pgSize < pgSize := Nat.mod_lt _ (by decide)
  have hfa := frame_mod root m a
  have hfb := frame_mod root m b
  rw [phys, phys] at h
  have hframe : userFrame root m a = userFrame root m b := by
    simp only [pgSize] at *
    omega
  have hpage := hd a b ha hb hframe
  have h1 := Nat.div_add_mod' a pgSize
  have h2 := Nat.div_add_mod' b pgSize
  rw [hpage] at h1
  omega

/-! ### Memory with the same page tables -/

theorem SameTables.mem (h : SameTables root m m') : ∀ x ∈ tables root (pageTables m),
    (pageTables m').mem x = (pageTables m).mem x := by
  intro x hx
  funext i
  simp only [pageTables]
  split
  · next hi =>
    refine getLe_congr fun k hk => h x hx _ (by omega) ?_
    simp only [pgSize]
    omega
  · rfl

theorem SameTables.tables (h : SameTables root m m') :
    tables root (pageTables m') = tables root (pageTables m) := Radix.pages_congr h.mem

theorem SameTables.refl (root : Nat) (m : Bytes) : SameTables root m m := fun _ _ _ _ _ => rfl

theorem SameTables.trans {m'' : Bytes} (h : SameTables root m m') (h' : SameTables root m' m'') :
    SameTables root m m'' := by
  intro x hx y h1 h2
  have hx' : x ∈ Vmem.tables root (pageTables m') := by rwa [h.tables]
  rw [h' x hx' y h1 h2, h x hx y h1 h2]

theorem SameTables.entry (h : SameTables root m m') :
    entry root (pageTables m') a = entry root (pageTables m) a :=
  Radix.leaf_congr h.mem (path_length 2).le

theorem SameTables.userPage (h : SameTables root m m') :
    UserPage root m' a ↔ UserPage root m a := by
  rw [UserPage, UserPage, h.entry]

theorem SameTables.userFrame (h : SameTables root m m') :
    userFrame root m' a = userFrame root m a := by
  rw [Vmem.userFrame, Vmem.userFrame, h.entry]

theorem SameTables.phys (h : SameTables root m m') : phys root m' a = phys root m a := by
  rw [Vmem.phys, Vmem.phys, h.userFrame]

theorem SameTables.userMap (h : SameTables root m m') (hmap : UserMap root m) :
    UserMap root m' := by
  refine ⟨fun a ha => ?_, fun a ha x hx => ?_⟩
  · rw [h.userFrame]
    exact hmap.frame_ne a (h.userPage.mp ha)
  · rw [h.userFrame]
    rw [h.tables] at hx
    exact hmap.tables a (h.userPage.mp ha) x hx

theorem SameTables.distinct (h : SameTables root m m') (hd : Distinct root m) :
    Distinct root m' := by
  intro a b ha hb hf
  rw [h.userFrame, h.userFrame] at hf
  exact hd a b (h.userPage.mp ha) (h.userPage.mp hb) hf

/-- The rest of a buffer. -/
theorem SameTables.buffer {buf : Nat} (h : SameTables root m m') (hb : Buffer root m buf len)
    (hn : n ≤ len) : Buffer root m' (buf + n) (len - n) := by
  refine ⟨fun a ha x h1 h2 => ?_, fun t ht x h1 h2 => ?_⟩
  · rw [h.userFrame]
    exact hb.frames a (h.userPage.mp ha) x (by omega) (by omega)
  · rw [h.tables] at ht
    exact hb.tables t ht x (by omega) (by omega)

/-! ## `copyout` and `copyin` -/

/-- A store that leaves the page tables alone. -/
theorem sameTables_memcpy {p : Nat} {f : Bytes}
    (h : ∀ x ∈ tables root (pageTables m), Apart p n x pgSize) :
    SameTables root m (memcpy m p f n) := by
  intro x hx y h1 h2
  refine memcpy_out ?_
  by_contra hin
  exact h x hx y (by omega) (by omega) ⟨h1, h2⟩

/-- One round of `copyout`. -/
theorem copyout_step (hlen : len ≠ 0) (hmap : UserMap root m) (hu : UserPage root m va) :
    copyout root va src len m =
      copyout root (va + (pgSize - va % pgSize)) (src + min (pgSize - va % pgSize) len)
        (len - min (pgSize - va % pgSize) len)
        (memcpy m (userFrame root m va + va % pgSize) (fun k => m (src + k))
          (min (pgSize - va % pgSize) len)) := by
  rw [copyout, dif_neg hlen]
  simp only [sub_pgRoundDown]
  rw [if_neg fun h => (walkaddr_page_eq_zero hmap).mp h hu, walkaddr_page, if_pos hu,
    next_page hu.1]

theorem copyin_step (hlen : len ≠ 0) (hmap : UserMap root m) (hu : UserPage root m va) :
    copyin root dst va len m =
      copyin root (dst + min (pgSize - va % pgSize) len) (va + (pgSize - va % pgSize))
        (len - min (pgSize - va % pgSize) len)
        (memcpy m dst (fun k => m (userFrame root m va + va % pgSize + k))
          (min (pgSize - va % pgSize) len)) := by
  rw [copyin, dif_neg hlen]
  simp only [sub_pgRoundDown]
  rw [if_neg fun h => (walkaddr_page_eq_zero hmap).mp h hu, walkaddr_page, if_pos hu,
    next_page hu.1]

/-- The bytes of a range: those in the first page, and those in the next ones. -/
theorem chunk_cases (off : Nat) (hk : k < len) :
    k < off ∧ k < min off len ∨
      ∃ j, k = off + j ∧ min off len = off ∧ j < len - off := by
  rcases Nat.lt_or_ge k off with h | h
  · exact Or.inl ⟨h, by omega⟩
  · exact Or.inr ⟨k - off, by omega, by omega, by omega⟩

/-- What `copyout` does. -/
inductive CopiedOut (root va src len : Nat) (m : Bytes) : Int × Bytes → Prop
  | done {m' : Bytes} : (∀ k < len, UserPage root m (va + k)) → SameTables root m m' →
      (∀ k < len, m' (phys root m (va + k)) = m (src + k)) →
      (∀ x, (∀ k < len, x ≠ phys root m (va + k)) → m' x = m x) →
      CopiedOut root va src len m (0, m')
  | failed {m' : Bytes} {k : Nat} : k < len → ¬ UserPage root m (va + k) →
      CopiedOut root va src len m (-1, m')

/-- What `copyin` does. -/
inductive CopiedIn (root dst va len : Nat) (m : Bytes) : Int × Bytes → Prop
  | done {m' : Bytes} : (∀ k < len, UserPage root m (va + k)) →
      (∀ k < len, m' (dst + k) = m (phys root m (va + k))) →
      (∀ x, x < dst ∨ dst + len ≤ x → m' x = m x) → CopiedIn root dst va len m (0, m')
  | failed {m' : Bytes} {k : Nat} : k < len → ¬ UserPage root m (va + k) →
      CopiedIn root dst va len m (-1, m')

theorem copyout_spec (len : Nat) : ∀ (va src : Nat) (m : Bytes), UserMap root m →
    Distinct root m → Buffer root m src len →
    CopiedOut root va src len m (copyout root va src len m) := by
  induction len using Nat.strong_induction_on with
  | _ len ih =>
  intro va src m hmap hd hbuf
  rcases eq_or_ne len 0 with rfl | hlen
  · rw [copyout, dif_pos rfl]
    exact .done (fun _ hk => absurd hk (Nat.not_lt_zero _)) (fun _ _ _ _ _ => rfl)
      (fun _ hk => absurd hk (Nat.not_lt_zero _)) fun _ _ => rfl
  by_cases hu : UserPage root m va
  swap
  · have hzero := (walkaddr_page_eq_zero hmap).mpr hu
    rw [copyout, dif_neg hlen]
    simp only [hzero, if_true]
    exact .failed (k := 0) (Nat.pos_of_ne_zero hlen) hu
  have hoff : 0 < pgSize - va % pgSize := Nat.sub_pos_of_lt (Nat.mod_lt _ (by decide))
  rw [copyout_step hlen hmap hu]
  generalize hn : min (pgSize - va % pgSize) len = n
  have hnlen : n ≤ len := hn ▸ Nat.min_le_right _ _
  have hnoff : n ≤ pgSize - va % pgSize := hn ▸ Nat.min_le_left _ _
  -- the bytes of this page lie in its frame
  have hsame : SameTables root m
      (memcpy m (userFrame root m va + va % pgSize) (fun k => m (src + k)) n) := by
    refine sameTables_memcpy fun x hx y h1 h2 => ?_
    exact hmap.tables va hu x hx y (by omega) (by omega)
  have hrest := ih (len - n) (by omega) (va + (pgSize - va % pgSize)) (src + n) _
    (hsame.userMap hmap) (hsame.distinct hd) (hsame.buffer hbuf hnlen)
  have hsrc : ∀ k < len, memcpy m (userFrame root m va + va % pgSize) (fun k => m (src + k)) n
      (src + k) = m (src + k) := by
    intro k hk
    refine memcpy_out ?_
    by_contra hin
    exact hbuf.frames va hu (src + k) (by omega) (by omega) (by omega)
  revert hrest
  generalize hr : copyout root _ (src + n) _ _ = r
  intro hrest
  cases hrest with
  | failed hk hnot =>
    rw [hsame.userPage, Nat.add_assoc] at hnot
    exact .failed (by omega) hnot
  | @done m' hpages htables hbytes hother =>
    have hpages' : ∀ k < len, UserPage root m (va + k) := by
      intro k hk
      rcases chunk_cases (pgSize - va % pgSize) hk with ⟨hin, -⟩ | ⟨j, rfl, hmin, hj⟩
      · exact (userPage_of_chunk hin).mpr hu
      · rw [← Nat.add_assoc, ← hsame.userPage]
        exact hpages j (by omega)
    refine .done hpages' (fun x hx y h1 h2 => ?_) (fun k hk => ?_) fun x hx => ?_
    · exact (htables x (by rwa [hsame.tables]) y h1 h2).trans (hsame x hx y h1 h2)
    · rcases chunk_cases (pgSize - va % pgSize) hk with ⟨hin, hkn⟩ | ⟨j, rfl, hmin, hj⟩
      · -- a byte of the first page: the others have other translations
        rw [hother _ fun j hj he => ?_, phys_of_chunk hin,
          memcpy_in (Nat.le_add_right _ _) (by omega), Nat.add_sub_cancel_left]
        rw [hsame.phys] at he
        have hpage : UserPage root m (va + (pgSize - va % pgSize) + j) :=
          hsame.userPage.mp (hpages j hj)
        have := phys_inj hd (hpages' k hk) hpage he
        omega
      · have hj' : j < len - n := by omega
        have hstored := hbytes j hj'
        rw [hsame.phys] at hstored
        rw [← Nat.add_assoc, hstored, Nat.add_assoc, hsrc _ (by omega)]
        congr 2
        omega
    · rw [hother x fun j hj he => ?_, memcpy_out ?_]
      · by_contra hin
        refine hx (x - (userFrame root m va + va % pgSize)) (by omega) ?_
        rw [phys_of_chunk (by omega)]
        omega
      · rw [hsame.phys] at he
        refine hx (pgSize - va % pgSize + j) (by omega) ?_
        rw [he, Nat.add_assoc]

/-- A store to a buffer of the kernel. -/
theorem sameTables_buffer {buf : Nat} {f : Bytes} (hb : Buffer root m buf len) (hn : n ≤ len) :
    SameTables root m (memcpy m buf f n) :=
  sameTables_memcpy fun x hx y h1 h2 => hb.tables x hx y h1 (by omega)

/-- User memory does not change when a buffer of the kernel does. -/
theorem phys_outside {buf : Nat} {f : Bytes} (hb : Buffer root m buf len) (hn : n ≤ len)
    (hu : UserPage root m a) : memcpy m buf f n (phys root m a) = m (phys root m a) := by
  refine memcpy_out ?_
  by_contra hin
  exact hb.frames a hu (phys root m a) (by omega) (by omega) phys_mem

theorem copyin_spec (len : Nat) : ∀ (va dst : Nat) (m : Bytes), UserMap root m →
    Buffer root m dst len → CopiedIn root dst va len m (copyin root dst va len m) := by
  induction len using Nat.strong_induction_on with
  | _ len ih =>
  intro va dst m hmap hbuf
  rcases eq_or_ne len 0 with rfl | hlen
  · rw [copyin, dif_pos rfl]
    exact .done (fun _ hk => absurd hk (Nat.not_lt_zero _))
      (fun _ hk => absurd hk (Nat.not_lt_zero _)) fun _ _ => rfl
  by_cases hu : UserPage root m va
  swap
  · have hzero := (walkaddr_page_eq_zero hmap).mpr hu
    rw [copyin, dif_neg hlen]
    simp only [hzero, if_true]
    exact .failed (k := 0) (Nat.pos_of_ne_zero hlen) hu
  have hoff : 0 < pgSize - va % pgSize := Nat.sub_pos_of_lt (Nat.mod_lt _ (by decide))
  rw [copyin_step hlen hmap hu]
  generalize hn : min (pgSize - va % pgSize) len = n
  have hnlen : n ≤ len := hn ▸ Nat.min_le_right _ _
  have hnoff : n ≤ pgSize - va % pgSize := hn ▸ Nat.min_le_left _ _
  have hsame : SameTables root m
      (memcpy m dst (fun k => m (userFrame root m va + va % pgSize + k)) n) :=
    sameTables_buffer hbuf hnlen
  have hrest := ih (len - n) (by omega) (va + (pgSize - va % pgSize)) (dst + n) _
    (hsame.userMap hmap) (hsame.buffer hbuf hnlen)
  revert hrest
  generalize copyin root (dst + n) _ _ _ = r
  intro hrest
  cases hrest with
  | failed hk hnot =>
    rw [hsame.userPage, Nat.add_assoc] at hnot
    exact .failed (by omega) hnot
  | @done m' hpages hbytes hother =>
    have hpages' : ∀ k < len, UserPage root m (va + k) := by
      intro k hk
      rcases chunk_cases (pgSize - va % pgSize) hk with ⟨hin, -⟩ | ⟨j, rfl, hmin, hj⟩
      · exact (userPage_of_chunk hin).mpr hu
      · rw [← Nat.add_assoc, ← hsame.userPage]
        exact hpages j (by omega)
    refine .done hpages' (fun k hk => ?_) fun x hx => ?_
    · rcases chunk_cases (pgSize - va % pgSize) hk with ⟨hin, hkn⟩ | ⟨j, rfl, hmin, hj⟩
      · rw [hother _ (by omega), phys_of_chunk hin, memcpy_in (Nat.le_add_right _ _) (by omega),
          Nat.add_sub_cancel_left]
      · have hstored := hbytes j (by omega)
        have hpage := hpages' _ hk
        rw [← Nat.add_assoc] at hpage
        rw [hsame.phys, phys_outside hbuf hnlen hpage] at hstored
        rw [← Nat.add_assoc va, ← hstored]
        congr 1
        omega
    · rw [hother x (by omega), memcpy_out (by omega)]

/-- A buffer is still one when user memory has changed. -/
theorem SameTables.buffer_self {buf : Nat} (h : SameTables root m m') (hb : Buffer root m buf len) :
    Buffer root m' buf len := by
  have := h.buffer hb (Nat.zero_le len)
  rwa [Nat.add_zero, Nat.sub_zero] at this

theorem neg_one_ne {P : Prop} (h : (-1 : Int) = 0) : P := absurd h (by decide)

theorem CopiedOut.result {r : Int × Bytes} (h : CopiedOut root va src len m r) :
    r.1 = 0 ↔ ∀ k < len, UserPage root m (va + k) := by
  cases h with
  | done hpages => exact ⟨fun _ => hpages, fun _ => rfl⟩
  | failed hk hnot => exact ⟨neg_one_ne, fun h => absurd (h _ hk) hnot⟩

theorem CopiedOut.stored {r : Int × Bytes} (h : CopiedOut root va src len m r) (hr : r.1 = 0) :
    SameTables root m r.2 ∧ (∀ k < len, r.2 (phys root m (va + k)) = m (src + k)) ∧
      ∀ x, (∀ k < len, x ≠ phys root m (va + k)) → r.2 x = m x := by
  cases h with
  | done _ hsame hbytes hother => exact ⟨hsame, hbytes, hother⟩
  | failed => exact neg_one_ne hr

theorem CopiedIn.result {r : Int × Bytes} (h : CopiedIn root dst va len m r) :
    r.1 = 0 ↔ ∀ k < len, UserPage root m (va + k) := by
  cases h with
  | done hpages => exact ⟨fun _ => hpages, fun _ => rfl⟩
  | failed hk hnot => exact ⟨neg_one_ne, fun h => absurd (h _ hk) hnot⟩

theorem CopiedIn.stored {r : Int × Bytes} (h : CopiedIn root dst va len m r) (hr : r.1 = 0) :
    (∀ k < len, r.2 (dst + k) = m (phys root m (va + k))) ∧
      ∀ x, x < dst ∨ dst + len ≤ x → r.2 x = m x := by
  cases h with
  | done _ hbytes hother => exact ⟨hbytes, hother⟩
  | failed => exact neg_one_ne hr

/-! ### The lowest pages

Page tables in three pages from `root` on, which map the first `n` pages to the frames `f`. -/

structure LowPages (root n : Nat) (f : Nat → Nat) (m : Bytes) : Prop where
  top : ∀ i, (pageTables m).mem root i = if i = 0 then pa2pte (root + pgSize) ||| pteV else 0
  mid : ∀ i, (pageTables m).mem (root + pgSize) i =
    if i = 0 then pa2pte (root + 2 * pgSize) ||| pteV else 0
  bottom : ∀ i, (pageTables m).mem (root + 2 * pgSize) i = if i < n then leafPte (f i) pteU else 0
  aligned : root % pgSize = 0
  bound : root < 2 ^ 63
  count : n ≤ 512
  frames : ∀ i < n, f i % pgSize = 0 ∧ f i < 2 ^ 55

namespace LowPages

variable {f : Nat → Nat}

theorem child_top (h : LowPages root n f m) (i : Nat) :
    child ((pageTables m).mem root i) = if i = 0 then some (root + pgSize) else none := by
  have ha := h.aligned
  have hb := h.bound
  rw [h.top i]
  split
  · exact child_table (by simp only [pgSize] at *; omega) (by simp only [pgSize]; omega)
  · exact child_of_not_valid not_valid_zero

theorem child_mid (h : LowPages root n f m) (i : Nat) :
    child ((pageTables m).mem (root + pgSize) i) = if i = 0 then some
    (root + 2 * pgSize) else none := by
  have ha := h.aligned
  have hb := h.bound
  rw [h.mid i]
  split
  · exact child_table (by simp only [pgSize] at *; omega) (by simp only [pgSize]; omega)
  · exact child_of_not_valid not_valid_zero

theorem tables (h : LowPages root n f m) (hx : x ∈ tables root (pageTables m)) :
    x = root ∨ x = root + pgSize ∨ x = root + 2 * pgSize := by
  obtain ⟨p, hp, hnode⟩ := hx
  match p, hp with
  | [], _ => exact .inl (Option.some.inj hnode).symm
  | [i], _ =>
    obtain ⟨y, hy, hc⟩ := Radix.node_snoc_eq_some (p := []).mp hnode
    obtain rfl := Option.some.inj hy
    rw [h.child_top] at hc
    split at hc
    · exact .inr (.inl (Option.some.inj hc).symm)
    · cases hc
  | [i, j], _ =>
    obtain ⟨y, hy, hc⟩ := Radix.node_snoc_eq_some (p := [i]).mp hnode
    obtain ⟨z, hz, hc'⟩ := Radix.node_snoc_eq_some (p := []).mp hy
    obtain rfl := Option.some.inj hz
    rw [h.child_top] at hc'
    split at hc'
    · obtain rfl := Option.some.inj hc'
      rw [h.child_mid] at hc
      split at hc
      · exact .inr (.inr (Option.some.inj hc).symm)
      · cases hc
    · cases hc'

theorem entry (h : LowPages root n f m) (ha : a < maxVa) : entry root (pageTables m) a =
    if a < n * pgSize then leafPte (f (a / pgSize)) pteU else 0 := by
  have hn := h.count
  have hnode : Radix.node child (pageTables m).mem root (path 2 a) =
      if px 2 a = 0 ∧ px 1 a = 0 then some (root + 2 * pgSize) else none := by
    refine (Radix.node_snoc (p := [px 2 a])).trans ?_
    rw [show Radix.node child (pageTables m).mem root [px 2 a] = _ from
      Radix.node_snoc (p := []), Radix.node_nil, Option.bind_some, h.child_top]
    by_cases h2 : px 2 a = 0
    · rw [if_pos h2, Option.bind_some, h.child_mid, if_congr (and_iff_right h2) rfl rfl]
    · rw [if_neg h2, if_neg fun hp => h2 hp.1]
      rfl
  have hlow : px 2 a = 0 ∧ px 1 a = 0 ↔ a < 512 * pgSize := by
    simp only [px, maxVa, pgSize] at *
    omega
  rw [Vmem.entry, Radix.leaf, hnode, if_congr hlow rfl rfl]
  split
  · next hlt =>
    have hidx : px 0 a = a / pgSize := by
      simp only [px, pgSize] at *
      omega
    rw [Option.map_some, Option.getD_some, h.bottom, hidx]
    refine if_congr ?_ rfl rfl
    simp only [pgSize]
    omega
  · next hge => exact (if_neg fun hlt => hge (hlt.trans_le (Nat.mul_le_mul_right _ hn))).symm

theorem userPage (h : LowPages root n f m) : UserPage root m a ↔ a < n * pgSize := by
  have hn := h.count
  constructor
  · rintro ⟨ha, hv, -⟩
    rw [h.entry ha] at hv
    by_contra hlt
    rw [if_neg hlt] at hv
    exact not_valid_zero hv
  · intro hlt
    have ha : a < maxVa := by
      simp only [maxVa, pgSize] at *
      omega
    refine ⟨ha, ?_, ?_⟩
    · rw [h.entry ha, if_pos hlt]
      exact valid_or _
    · rw [h.entry ha, if_pos hlt, leafPte_and_user]
      decide

theorem userFrame (h : LowPages root n f m) (ha : a < n * pgSize) :
    userFrame root m a = f (a / pgSize) := by
  obtain ⟨haligned, hlt⟩ := h.frames (a / pgSize) (Nat.div_lt_of_lt_mul (by rwa [Nat.mul_comm]))
  rw [Vmem.userFrame, h.entry (h.userPage.mpr ha).1, if_pos ha]
  exact frame_eq haligned hlt (by decide)

/-- All frames lie above the page tables. -/
theorem userMap (h : LowPages root n f m) (hf : ∀ i < n, root + 3 * pgSize ≤ f i) :
    UserMap root m := by
  have hframe : ∀ a, UserPage root m a → root + 3 * pgSize ≤ Vmem.userFrame root m a := by
    intro a ha
    have hlt := h.userPage.mp ha
    rw [h.userFrame hlt]
    exact hf _ (Nat.div_lt_of_lt_mul (by rwa [Nat.mul_comm]))
  refine ⟨fun a ha => ?_, fun a ha x hx y h1 h2 => ?_⟩
  · have := hframe a ha
    simp only [pgSize] at *
    omega
  · have := hframe a ha
    have := h.tables hx
    simp only [pgSize] at *
    omega

/-- So does a buffer above the frames. -/
theorem buffer (h : LowPages root n f m) (hf : ∀ i < n, f i + pgSize ≤ x)
    (hx : root + 3 * pgSize ≤ x) : Buffer root m x len := by
  refine ⟨fun a ha y h1 h2 => ?_, fun t ht y h1 h2 => ?_⟩
  · have hlt := h.userPage.mp ha
    have := hf _ (Nat.div_lt_of_lt_mul (by rwa [Nat.mul_comm] : a < pgSize * n))
    rw [h.userFrame hlt]
    omega
  · have := h.tables ht
    simp only [pgSize] at *
    omega

theorem distinct (h : LowPages root n f m) (hf : ∀ i < n, ∀ j < n, f i = f j → i = j) :
    Distinct root m := by
  intro a b ha hb heq
  have ha := h.userPage.mp ha
  have hb := h.userPage.mp hb
  rw [h.userFrame ha, h.userFrame hb] at heq
  exact hf _ (Nat.div_lt_of_lt_mul (by rwa [Nat.mul_comm])) _
    (Nat.div_lt_of_lt_mul (by rwa [Nat.mul_comm])) heq

end LowPages

/-- Memory with the given words at these addresses, and nothing else. -/
def words : List (Nat × Nat) → Bytes
  | [] => fun _ => 0
  | (x, e) :: ws => setLe (words ws) x 8 e

theorem getLe_words_nil : getLe (words []) x 8 = 0 :=
  (getLe_of_bytes (w := 0) fun k _ => by rw [Nat.zero_div]; rfl).trans (Nat.zero_mod _)

theorem getLe_words_cons {ws : List (Nat × Nat)} {y e : Nat} (he : e < 256 ^ 8) (hx : x % 8 = 0)
    (hy : y % 8 = 0) : getLe (words ((y, e) :: ws)) x 8 = if x =
    y then e else getLe (words ws) x 8 := by
  rw [words]
  split
  · next heq => rw [heq, getLe_setLe he]
  · next hne => exact getLe_setLe_of_disjoint (by omega)

/-- The first page has the frame at 16384. -/
def onePage : Bytes := words [(4096, 2049), (8192, 3073), (12288, 4113)]

theorem onePage_low : LowPages 4096 1 (fun _ => 16384) onePage := by
  have hmem : ∀ x i, x % 8 = 0 → (pageTables onePage).mem x i = if i < 512 then
      if x + 8 * i = 4096 then 2049 else if x + 8 * i = 8192 then 3073
      else if x + 8 * i = 12288 then 4113 else 0 else 0 := by
    intro x i hx
    have hi : (x + 8 * i) % 8 = 0 := by omega
    simp only [pageTables, onePage,
      getLe_words_cons (show 2049 < 256 ^ 8 by decide) hi (show 4096 % 8 = 0 from rfl),
      getLe_words_cons (show 3073 < 256 ^ 8 by decide) hi (show 8192 % 8 = 0 from rfl),
      getLe_words_cons (show 4113 < 256 ^ 8 by decide) hi (show 12288 % 8 = 0 from rfl),
      getLe_words_nil]
  refine ⟨fun i => ?_, fun i => ?_, fun i => ?_, rfl, by decide, by decide, fun _ _ => by decide⟩
  · rw [hmem _ _ rfl, show pa2pte (4096 + pgSize) ||| pteV = 2049 from rfl]
    grind
  · rw [hmem _ _ rfl, show pa2pte (4096 + 2 * pgSize) ||| pteV = 3073 from rfl]
    simp only [pgSize]
    grind
  · rw [hmem _ _ rfl, show leafPte 16384 pteU = 4113 from rfl]
    simp only [pgSize]
    grind

/-- `copyout` and `copyin` transfer exactly the bytes that they are asked for. -/
theorem copy_ok (hmap : UserMap root m) (hd : Distinct root m) (hsrc : Buffer root m src len)
    (hdst : Buffer root m dst len) :
    -- the results
    ((copyout root va src len m).1 = 0 ↔ ∀ k < len, UserPage root m (va + k)) ∧
    ((copyin root dst va len m).1 = 0 ↔ ∀ k < len, UserPage root m (va + k)) ∧
    -- what is stored
    ((copyout root va src len m).1 = 0 →
      (∀ k < len, (copyout root va src len m).2 (phys root m (va + k)) = m (src + k)) ∧
      ∀ x, (∀ k < len, x ≠ phys root m (va + k)) → (copyout root va src len m).2 x = m x) ∧
    ((copyin root dst va len m).1 = 0 →
      (∀ k < len, (copyin root dst va len m).2 (dst + k) = m (phys root m (va + k))) ∧
      ∀ x, x < dst ∨ dst + len ≤ x → (copyin root dst va len m).2 x = m x) ∧
    -- the round trip
    ((copyout root va src len m).1 = 0 →
      (copyin root dst va len (copyout root va src len m).2).1 = 0 ∧
      ∀ k < len,
        (copyin root dst va len (copyout root va src len m).2).2 (dst + k) = m (src + k)) := by
  have hout := copyout_spec len va src m hmap hd hsrc
  have hin := copyin_spec len va dst m hmap hdst
  refine ⟨hout.result, hin.result, fun h => (hout.stored h).2, hin.stored, fun h => ?_⟩
  obtain ⟨hsame, hbytes, -⟩ := hout.stored h
  have hback := copyin_spec len va dst _ (hsame.userMap hmap) (hsame.buffer_self hdst)
  have hpages := hout.result.mp h
  have hres := hback.result.mpr fun k hk => hsame.userPage.mpr (hpages k hk)
  refine ⟨hres, fun k hk => ?_⟩
  rw [(hback.stored hres).1 k hk, hsame.phys, hbytes k hk]

/-- Two bytes go to the first page and come back. -/
theorem copy_ok_onePage : (copyout 4096 5 20480 2 onePage).1 = 0 ∧
    (copyin 4096 24576 5 2 (copyout 4096 5 20480 2 onePage).2).1 = 0 := by
  have hmap : UserMap 4096 onePage := onePage_low.userMap fun _ _ => by decide
  have hd : Distinct 4096 onePage := onePage_low.distinct fun i hi j hj _ => by omega
  have hsrc : Buffer 4096 onePage 20480 2 := onePage_low.buffer (fun _ _ => by decide) (by decide)
  have hdst : Buffer 4096 onePage 24576 2 := onePage_low.buffer (fun _ _ => by decide) (by decide)
  have hres : (copyout 4096 5 20480 2 onePage).1 = 0 :=
    (copy_ok hmap hd hsrc hdst).1.mpr fun k hk =>
    onePage_low.userPage.mpr (by simp only [pgSize]; omega)
  exact ⟨hres, ((copy_ok hmap hd hsrc hdst).2.2.2.2 hres).1⟩

/-! ## `copyinstr` -/

/-- The inner loop copies up to the terminator, or `n` bytes. -/
theorem copyChunk_spec : ∀ (n max p dst : Nat) (m : Bytes), Apart dst n p n →
    (∃ k < n, (∀ j < k, m (p + j) ≠ 0) ∧ m (p + k) = 0 ∧
      copyChunk n max p dst m =
      (true, max - k, dst + k, memcpy m dst (fun j => m (p + j)) (k + 1))) ∨
    (∀ j < n, m (p + j) ≠ 0) ∧
      copyChunk n max p dst m = (false, max - n, dst + n, memcpy m dst (fun j => m (p + j)) n)
  | 0, max, p, dst, m, _ => Or.inr ⟨fun _ hj => absurd hj (Nat.not_lt_zero _), by
      rw [copyChunk, memcpy_zero]
      rfl⟩
  | n + 1, max, p, dst, m, hap => by
    by_cases hp : m p = 0
    · refine Or.inl ⟨0, Nat.succ_pos n, fun _ hj => absurd hj (Nat.not_lt_zero _), hp, ?_⟩
      rw [copyChunk, if_pos hp]
      refine congrArg (fun f => (true, max, dst, f)) (funext fun o => ?_)
      by_cases ho : o = dst
      · subst ho
        rw [Function.update_self, memcpy_in (Nat.le_refl _) (by omega), Nat.sub_self,
          Nat.add_zero, hp]
      · rw [Function.update_of_ne ho, memcpy_out (by omega)]
    · have hsrc : ∀ j ≤ n, Function.update m dst (m p) (p + j) = m (p + j) := by
        intro j hj
        refine Function.update_of_ne (fun he => ?_) _ _
        exact hap dst (Nat.le_refl _) (by omega) ⟨by omega, by omega⟩
      have hstep : ∀ c ≤ n, memcpy (Function.update m dst (m p)) (dst + 1)
          (fun j => Function.update m dst (m p) (p + 1 + j)) c =
            memcpy m dst (fun j => m (p + j)) (c + 1) := by
        intro c hc
        funext o
        by_cases ho : o = dst
        · subst ho
          rw [memcpy_out (by omega), Function.update_self, memcpy_in (Nat.le_refl _) (by omega),
            Nat.sub_self, Nat.add_zero]
        · rcases Nat.lt_or_ge o dst with hlt | hge
          · rw [memcpy_out (by omega), Function.update_of_ne ho, memcpy_out (by omega)]
          · rcases Nat.lt_or_ge o (dst + 1 + c) with hin | hout
            · have hj : p + 1 + (o - (dst + 1)) = p + (o - dst) := by omega
              rw [memcpy_in (by omega) hin, memcpy_in hge (by omega), hj, hsrc _ (by omega)]
            · rw [memcpy_out (by omega), Function.update_of_ne ho, memcpy_out (by omega)]
      rw [copyChunk, if_neg hp]
      have hrest := copyChunk_spec n (max - 1) (p + 1) (dst + 1) (Function.update m dst (m p))
        fun x h1 h2 h3 => hap x (by omega) (by omega) (by omega)
      have hval : ∀ j < n, Function.update m dst (m p) (p + 1 + j) = m (p + (j + 1)) := by
        intro j hj
        rw [Nat.add_assoc, Nat.add_comm 1 j, hsrc _ (by omega)]
      rcases hrest with ⟨k, hk, hne, hz, heq⟩ | ⟨hne, heq⟩
      · refine Or.inl ⟨k + 1, by omega, fun j hj => ?_, ?_, ?_⟩
        · cases j with
          | zero => exact hp
          | succ j =>
            rw [← hval j (by omega)]
            exact hne j (by omega)
        · rw [← hval k hk]
          exact hz
        · rw [heq, hstep _ (by omega)]
          refine congrArg₂ (fun a b => (true, a, b, _)) (by omega) (by omega)
      · refine Or.inr ⟨fun j hj => ?_, ?_⟩
        · cases j with
          | zero => exact hp
          | succ j =>
            rw [← hval j (by omega)]
            exact hne j (by omega)
        · rw [heq, hstep _ (Nat.le_refl _)]
          refine congrArg₂ (fun a b => (false, a, b, _)) (by omega) (by omega)

/-- The first `k` bytes can be read, and are not the terminator. -/
def StringPrefix (root : Nat) (m : Bytes) (va k : Nat) : Prop :=
  ∀ j < k, UserPage root m (va + j) ∧ m (phys root m (va + j)) ≠ 0

/-- There is a string of length `k`. -/
def StringAt (root : Nat) (m : Bytes) (va k : Nat) : Prop :=
  StringPrefix root m va k ∧ UserPage root m (va + k) ∧ m (phys root m (va + k)) = 0

/-- The pages up to the one with the terminator, or with the last of `max` bytes. -/
def NotBeyond (root : Nat) (m : Bytes) (va max : Nat) (pages : List Nat) : Prop :=
  ∀ p ∈ pages, ∃ i < max, p = pgRoundDown (va + i) ∧ StringPrefix root m va i

/-- What `copyinstr` does. -/
inductive CopiedStr (root dst va max : Nat) (m : Bytes) : Int × Bytes × List Nat → Prop
  | done {m' : Bytes} {pages : List Nat} {k : Nat} : k < max → StringAt root m va k →
      (∀ j ≤ k, m' (dst + j) = m (phys root m (va + j))) →
      (∀ x, x < dst ∨ dst + max ≤ x → m' x = m x) → NotBeyond root m va max pages →
      CopiedStr root dst va max m (0, m', pages)
  | failed {m' : Bytes} {pages : List Nat} : (∀ k < max, ¬ StringAt root m va k) →
      (∀ x, x < dst ∨ dst + max ≤ x → m' x = m x) → NotBeyond root m va max pages →
      CopiedStr root dst va max m (-1, m', pages)

variable {max : Nat}

theorem copyinstr_found {r : Nat × Nat × Bytes} (hmax : max ≠ 0) (hmap : UserMap root m)
    (hu : UserPage root m va)
    (hc : copyChunk (min (pgSize - va % pgSize) max) max (userFrame root m va + va % pgSize) dst m =
      (true, r)) : copyinstr root dst va max m = (0, r.2.2, [pgRoundDown va]) := by
  rw [copyinstr, dif_neg hmax]
  simp only
  rw [if_neg fun h => (walkaddr_page_eq_zero hmap).mp h hu]
  split
  · next heq =>
    rw [sub_pgRoundDown, walkaddr_page, if_pos hu, hc] at heq
    cases heq
    rfl
  · next heq =>
    rw [sub_pgRoundDown, walkaddr_page, if_pos hu, hc] at heq
    cases heq

theorem copyinstr_next {r : Nat × Nat × Bytes} (hmax : max ≠ 0) (hmap : UserMap root m)
    (hu : UserPage root m va)
    (hc : copyChunk (min (pgSize - va % pgSize) max) max (userFrame root m va + va % pgSize) dst m =
      (false, r)) : copyinstr root dst va max m =
        ((copyinstr root r.2.1 (va + (pgSize - va % pgSize)) r.1 r.2.2).1,
          (copyinstr root r.2.1 (va + (pgSize - va % pgSize)) r.1 r.2.2).2.1,
          pgRoundDown va :: (copyinstr root r.2.1 (va + (pgSize - va % pgSize)) r.1
            r.2.2).2.2) := by
  rw [copyinstr, dif_neg hmax]
  simp only
  rw [if_neg fun h => (walkaddr_page_eq_zero hmap).mp h hu]
  split
  · next heq =>
    rw [sub_pgRoundDown, walkaddr_page, if_pos hu, hc] at heq
    cases heq
  · next heq =>
    rw [sub_pgRoundDown, walkaddr_page, if_pos hu, hc] at heq
    cases heq
    rw [next_page hu.1]

/-- The byte before the rest of a string. -/
theorem StringPrefix.add {i : Nat} (h : StringPrefix root m va n)
    (h' : StringPrefix root m (va + n) i) : StringPrefix root m va (n + i) := by
  intro j hj
  rcases Nat.lt_or_ge j n with hlt | hge
  · exact h j hlt
  · have := h' (j - n) (by omega)
    rwa [show va + n + (j - n) = va + j by omega] at this

theorem StringPrefix.drop {i : Nat} (h : StringPrefix root m va (n + i)) :
    StringPrefix root m (va + n) i := by
  intro j hj
  rw [Nat.add_assoc]
  exact h (n + j) (by omega)

/-- The string as another memory sees it. -/
theorem SameTables.stringPrefix (h : SameTables root m m')
    (hm : ∀ a, UserPage root m a → m' (Vmem.phys root m a) = m (Vmem.phys root m a)) :
    StringPrefix root m' va k ↔ StringPrefix root m va k := by
  refine forall₂_congr fun j _ => ?_
  rw [h.userPage, h.phys]
  exact and_congr_right fun hu => by rw [hm _ hu]

theorem SameTables.stringAt (h : SameTables root m m')
    (hm : ∀ a, UserPage root m a → m' (Vmem.phys root m a) = m (Vmem.phys root m a)) :
    StringAt root m' va k ↔ StringAt root m va k := by
  rw [StringAt, StringAt, h.stringPrefix hm, h.userPage, h.phys]
  exact and_congr_right fun _ => and_congr_right fun hu => by rw [hm _ hu]

theorem StringAt.userPage (h : StringAt root m va k) : UserPage root m va := by
  cases k with
  | zero => exact h.2.1
  | succ k => exact (h.1 0 (Nat.succ_pos k)).1

theorem copyinstr_spec (max : Nat) : ∀ (va dst : Nat) (m : Bytes), UserMap root m →
    Buffer root m dst max → CopiedStr root dst va max m (copyinstr root dst va max m) := by
  induction max using Nat.strong_induction_on with
  | _ max ih =>
  intro va dst m hmap hbuf
  rcases eq_or_ne max 0 with rfl | hmax
  · rw [copyinstr, dif_pos rfl]
    exact .failed (fun _ hk => absurd hk (Nat.not_lt_zero _)) (fun _ _ => rfl)
      fun _ hp => absurd hp List.not_mem_nil
  have hfirst : NotBeyond root m va max [pgRoundDown va] := fun p hp =>
    ⟨0, Nat.pos_of_ne_zero hmax, List.mem_singleton.mp hp,
      fun _ hj => absurd hj (Nat.not_lt_zero _)⟩
  by_cases hu : UserPage root m va
  swap
  · have hzero := (walkaddr_page_eq_zero hmap).mpr hu
    rw [copyinstr, dif_neg hmax]
    simp only [hzero, if_true]
    exact .failed (fun _ _ hs => hu hs.userPage) (fun _ _ => rfl) hfirst
  have hoff : 0 < pgSize - va % pgSize := Nat.sub_pos_of_lt (Nat.mod_lt _ (by decide))
  have hap : Apart dst (min (pgSize - va % pgSize) max) (userFrame root m va + va % pgSize)
      (min (pgSize - va % pgSize) max) := fun x h1 h2 h3 =>
    hbuf.frames va hu x h1 (by omega) ⟨by omega, by omega⟩
  have hphys : ∀ j, j < pgSize - va % pgSize →
      m (userFrame root m va + va % pgSize + j) = m (phys root m (va + j)) := fun j hj => by
    rw [phys_of_chunk hj]
  rcases copyChunk_spec _ max _ dst m hap with ⟨k, hk, hne, hz, heq⟩ | ⟨hne, heq⟩
  · -- the terminator is in this page
    have hk' : k < pgSize - va % pgSize := by omega
    rw [copyinstr_found hmax hmap hu heq]
    dsimp only
    rw [hphys k hk'] at hz
    refine .done (by omega) ⟨fun j hj => ⟨(userPage_of_chunk (by omega)).mpr hu, ?_⟩,
      (userPage_of_chunk hk').mpr hu, hz⟩ (fun j hj => ?_) (fun x hx => ?_) hfirst
    · rw [← hphys j (by omega)]
      exact hne j hj
    · rw [memcpy_in (Nat.le_add_right _ _) (by omega), Nat.add_sub_cancel_left, hphys j (by omega)]
    · rw [memcpy_out (by omega)]
  · rw [copyinstr_next hmax hmap hu heq]
    generalize hn : min (pgSize - va % pgSize) max = n at *
    have hnmax : n ≤ max := hn ▸ Nat.min_le_right _ _
    have hnoff : n ≤ pgSize - va % pgSize := hn ▸ Nat.min_le_left _ _
    have hsame : SameTables root m
        (memcpy m dst (fun j => m (userFrame root m va + va % pgSize + j)) n) :=
      sameTables_buffer hbuf hnmax
    have hkeep : ∀ a, UserPage root m a → memcpy m dst
        (fun j => m (userFrame root m va + va % pgSize + j)) n (phys root m a) =
          m (phys root m a) :=
      fun a ha => phys_outside hbuf hnmax ha
    have hhead : StringPrefix root m va n := by
      intro j hj
      refine ⟨(userPage_of_chunk (by omega)).mpr hu, ?_⟩
      rw [← hphys j (by omega)]
      exact hne j hj
    have hrest := ih (max - n) (by omega) (va + (pgSize - va % pgSize)) (dst + n) _
      (hsame.userMap hmap) (hsame.buffer hbuf hnmax)
    -- the next page matters only if there are bytes left
    have hnext : ∀ i, i < max - n → va + (pgSize - va % pgSize) = va + n := by
      intro i hi
      omega
    have hpages : ∀ pages, NotBeyond root (memcpy m dst
        (fun j => m (userFrame root m va + va % pgSize + j)) n) (va +
        (pgSize - va % pgSize)) (max - n)
          pages → NotBeyond root m va max (pgRoundDown va :: pages) := by
      intro pages h p hp
      rcases List.mem_cons.mp hp with rfl | hp
      · exact hfirst _ (by simp)
      · obtain ⟨i, hi, rfl, hpre⟩ := h p hp
        rw [hsame.stringPrefix hkeep, hnext i hi] at hpre
        exact ⟨n + i, by omega, by rw [hnext i hi, Nat.add_assoc], hhead.add hpre⟩
    generalize copyinstr root (dst + n) _ _ _ = r at hrest
    cases hrest with
    | @done m' pages k hk hs hbytes hother hseen =>
      dsimp only
      rw [hsame.stringAt hkeep, hnext k hk] at hs
      refine .done (k := n + k) (by omega) ⟨hhead.add hs.1, ?_, ?_⟩ (fun j hj => ?_)
        (fun x hx => ?_) (hpages pages hseen)
      · rw [← Nat.add_assoc]
        exact hs.2.1
      · rw [← Nat.add_assoc]
        exact hs.2.2
      · rcases Nat.lt_or_ge j n with hlt | hge
        · rw [hother _ (by omega), memcpy_in (Nat.le_add_right _ _) (by omega),
            Nat.add_sub_cancel_left, hphys j (by omega)]
        · obtain ⟨i, rfl⟩ := Nat.exists_eq_add_of_le hge
          have hpage : UserPage root m (va + n + i) := by
            rcases Nat.lt_or_ge i k with hik | hik
            · exact (hs.1 i hik).1
            · obtain rfl : i = k := by omega
              exact hs.2.1
          have hstored := hbytes i (by omega)
          rw [hsame.phys, hnext k hk, hkeep _ hpage] at hstored
          rw [← Nat.add_assoc, hstored, Nat.add_assoc]
      · rw [hother x (by omega), memcpy_out (by omega)]
    | @failed m' pages hno hother hseen =>
      dsimp only
      refine .failed (fun k hk hs => ?_) (fun x hx => ?_) (hpages pages hseen)
      · rcases Nat.lt_or_ge k n with hlt | hge
        · exact (hhead k hlt).2 hs.2.2
        · obtain ⟨i, rfl⟩ := Nat.exists_eq_add_of_le hge
          refine hno i (by omega) ?_
          rw [hsame.stringAt hkeep, hnext i (by omega)]
          refine ⟨hs.1.drop, ?_, ?_⟩
          · rw [Nat.add_assoc]
            exact hs.2.1
          · rw [Nat.add_assoc]
            exact hs.2.2
      · rw [hother x (by omega), memcpy_out (by omega)]

theorem StringAt.unique {j : Nat} (h : StringAt root m va k) (h' : StringAt root m va j) :
    k = j := by
  rcases Nat.lt_trichotomy k j with hlt | heq | hgt
  · exact absurd h.2.2 (h'.1 k hlt).2
  · exact heq
  · exact absurd h'.2.2 (h.1 j hgt).2

/-- `copyinstr` copies exactly the string. -/
theorem copyinstr_ok (hmap : UserMap root m) (hdst : Buffer root m dst max) :
    ((copyinstr root dst va max m).1 = 0 ↔ ∃ k < max, StringAt root m va k) ∧
    (∀ k < max, StringAt root m va k →
      (∀ j < k, (copyinstr root dst va max m).2.1 (dst + j) = m (phys root m (va + j))) ∧
      (copyinstr root dst va max m).2.1 (dst + k) = 0) ∧
    (∀ x, x < dst ∨ dst + max ≤ x → (copyinstr root dst va max m).2.1 x = m x) ∧
    NotBeyond root m va max (copyinstr root dst va max m).2.2 := by
  have h := copyinstr_spec max va dst m hmap hdst
  generalize copyinstr root dst va max m = r at h
  cases h with
  | @done m' pages k hk hs hbytes hother hseen =>
    refine ⟨⟨fun _ => ⟨k, hk, hs⟩, fun _ => rfl⟩, fun j _ hj => ?_, hother, hseen⟩
    obtain rfl := hs.unique hj
    refine ⟨fun i hi => hbytes i hi.le, ?_⟩
    exact (hbytes k (Nat.le_refl k)).trans hs.2.2
  | failed hno hother hseen =>
    refine ⟨⟨neg_one_ne, fun ⟨k, hk, hs⟩ => absurd hs (hno k hk)⟩,
      fun k hk hs => absurd hs (hno k hk), hother, hseen⟩

/-- Two pages, of which the second has the lower frame. A string of three bytes starts two bytes
before the end of the first one. -/
def twoPages : Bytes := words [(4096, 2049), (8192, 3073), (12288, 5137), (12296, 4113),
  (24568, 97 * 256 ^ 6 + 98 * 256 ^ 7), (16384, 99)]

def twoFrames (i : Nat) : Nat := if i = 0 then 20480 else 16384

theorem twoPages_low : LowPages 4096 2 twoFrames twoPages := by
  have hmem : ∀ x i, x % 8 = 0 → (pageTables twoPages).mem x i = if i < 512 then
      if x + 8 * i = 4096 then 2049 else if x + 8 * i = 8192 then 3073
      else if x + 8 * i = 12288 then 5137 else if x + 8 * i = 12296 then 4113
      else if x + 8 * i = 24568 then 97 * 256 ^ 6 + 98 * 256 ^ 7
      else if x + 8 * i = 16384 then 99 else 0 else 0 := by
    intro x i hx
    have hi : (x + 8 * i) % 8 = 0 := by omega
    simp only [pageTables, twoPages, getLe_words_nil,
      getLe_words_cons (show 2049 < 256 ^ 8 by decide) hi (show 4096 % 8 = 0 from rfl),
      getLe_words_cons (show 3073 < 256 ^ 8 by decide) hi (show 8192 % 8 = 0 from rfl),
      getLe_words_cons (show 5137 < 256 ^ 8 by decide) hi (show 12288 % 8 = 0 from rfl),
      getLe_words_cons (show 4113 < 256 ^ 8 by decide) hi (show 12296 % 8 = 0 from rfl),
      getLe_words_cons (show 97 * 256 ^ 6 + 98 * 256 ^ 7 < 256 ^ 8 by decide) hi
      (show 24568 % 8 = 0 from rfl),
      getLe_words_cons (show 99 < 256 ^ 8 by decide) hi (show 16384 % 8 = 0 from rfl)]
  refine ⟨fun i => ?_, fun i => ?_, fun i => ?_, rfl, by decide, by decide, by decide⟩
  · rw [hmem _ _ rfl, show pa2pte (4096 + pgSize) ||| pteV = 2049 from rfl]
    grind
  · rw [hmem _ _ rfl, show pa2pte (4096 + 2 * pgSize) ||| pteV = 3073 from rfl]
    simp only [pgSize]
    grind
  · rw [hmem _ _ rfl]
    match i with
    | 0 => rfl
    | 1 => rfl
    | i + 2 =>
      simp only [pgSize]
      grind

/-- The string goes on in the second page. -/
theorem copyinstr_ok_twoPages : (copyinstr 4096 28672 4094 10 twoPages).1 = 0 ∧
    [0, 1, 2, 3].map (fun j => (copyinstr 4096 28672 4094 10 twoPages).2.1 (28672 + j)) =
      [97, 98, 99, 0] := by
  have hmap : UserMap 4096 twoPages := twoPages_low.userMap (by decide)
  have hdst : Buffer 4096 twoPages 28672 10 := twoPages_low.buffer (by decide) (by decide)
  have hpage : ∀ j < 4, UserPage 4096 twoPages (4094 + j) := fun j hj =>
    twoPages_low.userPage.mpr (by simp only [pgSize]; omega)
  have hphys : ∀ j < 4, phys 4096 twoPages (4094 + j) =
      twoFrames ((4094 + j) / pgSize) + (4094 + j) % pgSize := by
    intro j hj
    rw [phys, twoPages_low.userFrame (twoPages_low.userPage.mp (hpage j hj))]
  have h0 : twoPages (phys 4096 twoPages (4094 + 0)) = 97 := by
    rw [hphys 0 (by decide)]
    decide +kernel
  have h1 : twoPages (phys 4096 twoPages (4094 + 1)) = 98 := by
    rw [hphys 1 (by decide)]
    decide +kernel
  have h2 : twoPages (phys 4096 twoPages (4094 + 2)) = 99 := by
    rw [hphys 2 (by decide)]
    decide +kernel
  have h3 : twoPages (phys 4096 twoPages (4094 + 3)) = 0 := by
    rw [hphys 3 (by decide)]
    decide +kernel
  have hstring : StringAt 4096 twoPages 4094 3 := by
    refine ⟨fun j hj => ⟨hpage j (by omega), ?_⟩, hpage 3 (by decide), h3⟩
    match j, hj with
    | 0, _ => rw [h0]; decide
    | 1, _ => rw [h1]; decide
    | 2, _ => rw [h2]; decide
  obtain ⟨hres, hcopied, -⟩ := copyinstr_ok hmap hdst
  obtain ⟨hbytes, hend⟩ := hcopied 3 (by decide) hstring
  refine ⟨hres.mpr ⟨3, by decide, hstring⟩, ?_⟩
  simp only [List.map_cons, List.map_nil]
  rw [hbytes 0 (by decide), hbytes 1 (by decide), hbytes 2 (by decide), hend, h0, h1, h2]

end CoroCore.Vmem
