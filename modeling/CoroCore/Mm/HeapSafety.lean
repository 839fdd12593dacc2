import CoroCore.Mm.Heap

/-!
# The kernel heap hands out disjoint memory that it owns

`HeapSafe` is what clients rely on: live allocations lie in pages of their own heap
allocator, are disjoint from each other and from every page that is free or held by
someone else, and the chain of non-full blocks stays inside the block list.

`HeapInv` describes the two linked structures of each allocator, the slot chain of each
block and the free page list by explicit lists, one predicate for each structure, with a
`congr` lemma that says which words the predicate reads. Every operation but `truncate`
preserves it.

Results:
* `heap_safe_of_run`: in every run in which no `truncate` meets an empty block, every
  state is safe.
* `truncate_unsafe`: `truncate` gives an empty block back to the page pool and leaves it
  on the chain of non-full blocks.
-/

namespace CoroCore

open Lib KernelMem

/-! ## Layout -/

namespace SizeClass

theorem size_pos (c : SizeClass) : 0 < c.size := by cases c <;> decide

theorem size_lt (c : SizeClass) : c.size < 2 ^ 16 := by cases c <;> decide

theorem infoSize_ge (c : SizeClass) : 24 ≤ c.infoSize := by cases c <;> decide

theorem capacity_pos (c : SizeClass) : 0 < c.capacity := by cases c <;> decide

theorem capacity_lt (c : SizeClass) : c.capacity < 2 ^ 16 := by cases c <;> decide

theorem layout_fits (c : SizeClass) : c.infoSize + c.capacity * c.size ≤ pgSize := by
  cases c <;> decide

end SizeClass

namespace KernelMem

theorem slotAddr_lt {c : SizeClass} {b i : Nat} (hi : i < c.capacity) :
    slotAddr c b i + c.size ≤ b + pgSize := by
  have hmul : (i + 1) * c.size ≤ c.capacity * c.size := Nat.mul_le_mul_right _ hi
  have hfit := c.layout_fits
  unfold slotAddr
  rw [Nat.add_mul] at hmul
  omega

theorem slotAddr_ge (c : SizeClass) (b i : Nat) : b + 24 ≤ slotAddr c b i := by
  have h := c.infoSize_ge
  unfold slotAddr
  omega

theorem slotAddr_sep {c : SizeClass} {b i j : Nat} (h : i < j) :
    slotAddr c b i + c.size ≤ slotAddr c b j := by
  have hmul : (i + 1) * c.size ≤ j * c.size := Nat.mul_le_mul_right _ h
  unfold slotAddr
  rw [Nat.add_mul] at hmul
  omega

theorem slotAddr_inj {c : SizeClass} {b i j : Nat} (h : slotAddr c b i = slotAddr c b j) :
    i = j := by
  have hpos := c.size_pos
  rcases Nat.lt_trichotomy i j with hlt | heq | hgt
  · have := slotAddr_sep (c := c) (b := b) hlt
    omega
  · exact heq
  · have := slotAddr_sep (c := c) (b := b) hgt
    omega

/-- Addresses of one page. -/
theorem page_unique {b b' a : Nat} (hb : b % pgSize = 0) (hb' : b' % pgSize = 0)
    (h : b ≤ a ∧ a < b + pgSize) (h' : b' ≤ a ∧ a < b' + pgSize) : b = b' := by
  unfold pgSize at *
  omega

theorem slotAddr_page {c c' : SizeClass} {b b' i i' : Nat} (hb : b % pgSize = 0)
    (hb' : b' % pgSize = 0) (hi : i < c.capacity) (hi' : i' < c'.capacity)
    (h : slotAddr c b i = slotAddr c' b' i') : b = b' := by
  have h1 := slotAddr_lt (b := b) hi
  have h2 := slotAddr_lt (b := b') hi'
  have h3 := slotAddr_ge c b i
  have h4 := slotAddr_ge c' b' i'
  have h5 := c.size_pos
  have h6 := c'.size_pos
  exact page_unique (a := slotAddr c b i) hb hb' ⟨by omega, by omega⟩ ⟨by omega, by omega⟩

@[simp] theorem infoUsed_packInfo (s u n : Nat) : infoUsed (packInfo s u n) = u % 2 ^ 16 := by
  unfold infoUsed packInfo
  omega

@[simp] theorem infoNextFreeIndex_packInfo (s u n : Nat) :
    infoNextFreeIndex (packInfo s u n) = n % 2 ^ 32 := by
  unfold infoNextFreeIndex packInfo
  omega

@[simp] theorem infoBlockSize_packInfo (s u n : Nat) :
    infoBlockSize (packInfo s u n) = s % 2 ^ 16 := by
  unfold infoBlockSize packInfo
  omega

theorem slotAddr_ne_header {c : SizeClass} {b p i o : Nat} (hb : b % pgSize = 0)
    (hp : p % pgSize = 0) (hi : i < c.capacity) (ho : o < 24) : slotAddr c p i ≠ b + o := by
  have h1 := slotAddr_lt (b := p) hi
  have h2 := slotAddr_ge c p i
  have h3 := c.size_pos
  unfold pgSize at *
  omega

theorem header_ne {b p o r : Nat} (hb : b % pgSize = 0) (hp : p % pgSize = 0) (ho : o < 24)
    (hr : r < 24) (h : b ≠ p ∨ o ≠ r) : b + o ≠ p + r := by
  unfold pgSize at *
  omega

@[simp] theorem write_mem_self (k : KernelMem) (a v : Nat) : (k.write a v).mem a = v := by
  simp [write]

theorem write_mem_of_ne {k : KernelMem} {a v x : Nat} (h : x ≠ a) :
    (k.write a v).mem x = k.mem x := by
  simp [write, h]

@[simp] theorem write_heap (k : KernelMem) (a v : Nat) : (k.write a v).heap = k.heap := rfl

@[simp] theorem write_freePageList (k : KernelMem) (a v : Nat) :
    (k.write a v).freePageList = k.freePageList := rfl

@[simp] theorem setHeap_mem (k : KernelMem) (c : SizeClass) (h : HeapAllocator) :
    (k.setHeap c h).mem = k.mem := rfl

@[simp] theorem setHeap_blockUsed (k : KernelMem) (c : SizeClass) (h : HeapAllocator) (b : Nat) :
    (k.setHeap c h).blockUsed b = k.blockUsed b := rfl

theorem write_blockUsed_of_ne {k : KernelMem} {a v b : Nat} (h : b ≠ a) :
    (k.write a v).blockUsed b = k.blockUsed b := by
  rw [blockUsed, write_mem_of_ne h, blockUsed]

@[simp] theorem setHeap_freePageList (k : KernelMem) (c : SizeClass) (h : HeapAllocator) :
    (k.setHeap c h).freePageList = k.freePageList := rfl

@[simp] theorem setHeap_heap_self (k : KernelMem) (c : SizeClass) (h : HeapAllocator) :
    (k.setHeap c h).heap c = h := by
  simp [setHeap]

theorem setHeap_heap_of_ne {k : KernelMem} {c c' : SizeClass} {h : HeapAllocator} (hc : c' ≠ c) :
    (k.setHeap c h).heap c' = k.heap c' := by
  simp [setHeap, hc]

end KernelMem

/-! ## What clients rely on -/

namespace HeapSystem

/-- Safety of the kernel heap in one state. -/
structure HeapSafe (s : HeapSystem) : Prop where
  /-- A live allocation lies in one page, which its own heap allocator holds. -/
  owned : ∀ x ∈ s.live, s.owner (pageOf x.2) = .heap x.1 ∧
    x.2 + x.1.size ≤ pageOf x.2 + pgSize
  /-- Live allocations are pairwise disjoint. -/
  disjoint : s.live.Pairwise fun x y => x.2 + x.1.size ≤ y.2 ∨ y.2 + y.1.size ≤ x.2
  /-- A live allocation is disjoint from every page on the free list or held by another. -/
  separate : ∀ x ∈ s.live, ∀ p, p % pgSize = 0 →
    s.owner p ≠ .heap x.1 ∨ OnChain s.k.mem 0 s.k.freePageList p →
    x.2 + x.1.size ≤ p ∨ p + pgSize ≤ x.2
  /-- The chain of non-full blocks holds non-full blocks of the block list only. -/
  nonFull : ∀ c b, OnChain s.k.nextFreeBlock 0 (s.k.heap c).nextFreeBlock b →
    OnChain s.k.nextBlock 0 (s.k.heap c).headBlock b ∧ s.k.blockUsed b ≠ c.capacity

/-- No block of the list that `truncate` walks is empty. -/
def TruncateOk (s : HeapSystem) : HeapOp → Prop
  | .truncate c => ∀ b, OnChain s.k.nextBlock 0 (s.k.heap c).headBlock b → s.k.blockUsed b ≠ 0
  | _ => True

/-! ## The structures behind it -/

/-- The free page list holds exactly the free pages. -/
def FreeListOk (k : KernelMem) (owner : Nat → Owner) : Prop :=
  ∃ F, Chain k.mem 0 k.freePageList F ∧ F.Nodup ∧ ∀ p, p ∈ F ↔ owner p = .free

/-- The block list of `c` holds exactly the pages of `c`. -/
def BlockListOk (k : KernelMem) (owner : Nat → Owner) (c : SizeClass) : Prop :=
  ∃ B, Chain k.nextBlock 0 (k.heap c).headBlock B ∧ B.Nodup ∧ ∀ p, p ∈ B ↔ owner p = .heap c

/-- The chain of non-full blocks of `c` holds exactly its blocks with a free slot. -/
def NonFullOk (k : KernelMem) (owner : Nat → Owner) (c : SizeClass) : Prop :=
  ∃ N, Chain k.nextFreeBlock 0 (k.heap c).nextFreeBlock N ∧ N.Nodup ∧
    ∀ p, p ∈ N ↔ owner p = .heap c ∧ k.blockUsed p ≠ c.capacity

/-- The slot chain of the block `b` runs through exactly its slots that are not live, and
`used` counts the others. -/
def BlockOk (k : KernelMem) (live : List (SizeClass × Nat)) (c : SizeClass) (b : Nat) : Prop :=
  ∃ I, Chain (k.slotNext c b) noIndex (k.blockNextFreeIndex b) I ∧ I.Nodup ∧
    (∀ i, i ∈ I ↔ i < c.capacity ∧ (c, slotAddr c b i) ∉ live) ∧
    k.blockUsed b + I.length = c.capacity ∧ infoBlockSize (k.mem b) = c.size

structure HeapInv (s : HeapSystem) : Prop where
  aligned : ∀ p, s.owner p ≠ .outside → p % pgSize = 0 ∧ p ≠ 0
  freeList : FreeListOk s.k s.owner
  blockList : ∀ c, BlockListOk s.k s.owner c
  nonFull : ∀ c, NonFullOk s.k s.owner c
  block : ∀ c b, s.owner b = .heap c → BlockOk s.k s.live c b
  liveSlot : ∀ x ∈ s.live, ∃ b i, s.owner b = .heap x.1 ∧ i < x.1.capacity ∧
    x.2 = slotAddr x.1 b i
  liveNodup : s.live.Nodup

theorem FreeListOk.congr {k k' : KernelMem} {o o' : Nat → Owner} (h : FreeListOk k o)
    (hl : k'.freePageList = k.freePageList) (ho : ∀ p, o' p = .free ↔ o p = .free)
    (hm : ∀ p, o p = .free → k'.mem p = k.mem p) : FreeListOk k' o' := by
  obtain ⟨F, hc, hn, hmem⟩ := h
  refine ⟨F, ?_, hn, fun p => (hmem p).trans (ho p).symm⟩
  rw [hl]
  exact hc.congr fun p hp => hm p ((hmem p).mp hp)

theorem BlockListOk.congr {k k' : KernelMem} {o o' : Nat → Owner} {c : SizeClass}
    (h : BlockListOk k o c) (hl : (k'.heap c).headBlock = (k.heap c).headBlock)
    (ho : ∀ p, o' p = .heap c ↔ o p = .heap c)
    (hm : ∀ p, o p = .heap c → k'.mem (p + 8) = k.mem (p + 8)) : BlockListOk k' o' c := by
  obtain ⟨B, hc, hn, hmem⟩ := h
  refine ⟨B, ?_, hn, fun p => (hmem p).trans (ho p).symm⟩
  rw [hl]
  exact hc.congr fun p hp => hm p ((hmem p).mp hp)

theorem NonFullOk.congr {k k' : KernelMem} {o o' : Nat → Owner} {c : SizeClass}
    (h : NonFullOk k o c) (hl : (k'.heap c).nextFreeBlock = (k.heap c).nextFreeBlock)
    (ho : ∀ p, o' p = .heap c ↔ o p = .heap c)
    (hm : ∀ p, o p = .heap c →
      k'.mem (p + 16) = k.mem (p + 16) ∧ k'.blockUsed p = k.blockUsed p) : NonFullOk k' o' c := by
  obtain ⟨N, hc, hn, hmem⟩ := h
  refine ⟨N, ?_, hn, fun p => ?_⟩
  · rw [hl]
    exact hc.congr fun p hp => (hm p ((hmem p).mp hp).1).1
  · rw [hmem p, ho p]
    constructor
    · rintro ⟨hp, hu⟩
      exact ⟨hp, by rwa [(hm p hp).2]⟩
    · rintro ⟨hp, hu⟩
      exact ⟨hp, by rwa [← (hm p hp).2]⟩

theorem BlockOk.congr {k k' : KernelMem} {live live' : List (SizeClass × Nat)} {c : SizeClass}
    {b : Nat} (h : BlockOk k live c b) (hb : k'.mem b = k.mem b)
    (hl : ∀ i, i < c.capacity →
      ((c, slotAddr c b i) ∈ live' ↔ (c, slotAddr c b i) ∈ live))
    (hm : ∀ i, i < c.capacity → (c, slotAddr c b i) ∉ live →
      k'.mem (slotAddr c b i) = k.mem (slotAddr c b i)) : BlockOk k' live' c b := by
  obtain ⟨I, hc, hn, hmem, hlen, hsz⟩ := h
  refine ⟨I, ?_, hn, fun i => ?_, ?_, by rw [hb, hsz]⟩
  · rw [blockNextFreeIndex, hb]
    refine hc.congr fun i hi => ?_
    obtain ⟨hlt, hnl⟩ := (hmem i).mp hi
    simp only [slotNext, hm i hlt hnl]
  · rw [hmem i]
    exact and_congr_right fun hi => not_congr (hl i hi).symm
  · rwa [blockUsed, hb]

/-! ## The operations on one block -/

section Block

variable {k : KernelMem} {live : List (SizeClass × Nat)} {c : SizeClass} {b i : Nat}

theorem blockAlloc_eq (hu : k.blockUsed b ≠ c.capacity) (hi : k.blockNextFreeIndex b = i) :
    k.blockAlloc c b = (slotAddr c b i,
      k.write b (packInfo (infoBlockSize (k.mem b)) (k.blockUsed b + 1) (k.slotNext c b i))) := by
  simp [blockAlloc, blockFull, hu, hi]

theorem BlockOk.used_le (h : BlockOk k live c b) : k.blockUsed b ≤ c.capacity := by
  obtain ⟨I, -, -, -, hlen, -⟩ := h
  omega

/-- A block that is not full gives the first slot of its chain. -/
theorem BlockOk.take (h : BlockOk k live c b) (hu : k.blockUsed b ≠ c.capacity) :
    ∃ i, k.blockNextFreeIndex b = i ∧ i < c.capacity ∧ (c, slotAddr c b i) ∉ live ∧
      k.blockUsed b + 1 < 2 ^ 16 ∧
      BlockOk (k.write b (packInfo (infoBlockSize (k.mem b)) (k.blockUsed b + 1)
        (k.slotNext c b i))) ((c, slotAddr c b i) :: live) c b := by
  obtain ⟨I, hI, hInd, hImem, hlen, hsz⟩ := h
  obtain ⟨i, I', rfl⟩ : ∃ i I', I = i :: I' := by
    cases I with
    | nil => exact absurd (by simpa using hlen) hu
    | cons i I' => exact ⟨i, I', rfl⟩
  obtain ⟨hi, hine, hI'⟩ := hI
  obtain ⟨hicap, hinl⟩ := (hImem i).mp (by simp)
  have hcap := c.capacity_lt
  simp only [List.length_cons] at hlen
  have hul : k.blockUsed b + 1 < 2 ^ 16 := by omega
  refine ⟨i, hi, hicap, hinl, hul, ?_⟩
  generalize hw : packInfo (infoBlockSize (k.mem b)) (k.blockUsed b + 1) (k.slotNext c b i) = w
  have hslot : ∀ j, (k.write b w).mem (slotAddr c b j) = k.mem (slotAddr c b j) := fun j =>
    write_mem_of_ne (by have := slotAddr_ge c b j; omega)
  refine ⟨I', ?_, (List.nodup_cons.mp hInd).2, fun j => ?_, ?_, ?_⟩
  · have hstart : infoNextFreeIndex w = k.slotNext c b i := by
      rw [← hw, infoNextFreeIndex_packInfo, slotNext, Nat.mod_mod]
    rw [blockNextFreeIndex, write_mem_self, hstart]
    exact hI'.congr fun j _ => congrArg (· % 2 ^ 32) (hslot j)
  · have hji := hImem j
    simp only [List.mem_cons] at hji ⊢
    constructor
    · intro hj
      obtain ⟨hjc, hjl⟩ := hji.mp (Or.inr hj)
      refine ⟨hjc, ?_⟩
      rintro (heq | hin)
      · have := slotAddr_inj (Prod.mk.inj heq).2
        subst this
        exact (List.nodup_cons.mp hInd).1 hj
      · exact hjl hin
    · rintro ⟨hjc, hjl⟩
      rcases hji.mpr ⟨hjc, fun hin => hjl (Or.inr hin)⟩ with rfl | hj
      · exact absurd (Or.inl rfl) hjl
      · exact hj
  · rw [blockUsed, write_mem_self, ← hw, infoUsed_packInfo, Nat.mod_eq_of_lt hul]
    omega
  · rw [write_mem_self, ← hw, infoBlockSize_packInfo, hsz]
    exact Nat.mod_eq_of_lt c.size_lt

/-- What `heap_block_t::free` does on a slot: the slot goes to the front of the chain. -/
theorem blockFree_eq (hi : i < c.capacity) (hu : k.blockUsed b ≠ 0) :
    ∃ w, infoUsed w = k.blockUsed b - 1 ∧ infoNextFreeIndex w = i ∧
      infoBlockSize w = infoBlockSize (k.mem b) ∧
      k.blockFree c b (slotAddr c b i) =
        some ((k.writeLow (slotAddr c b i) (k.blockNextFreeIndex b)).write b w) := by
  have hcap := c.capacity_lt
  have hidx : (slotAddr c b i - (b + c.infoSize)) / c.size = i := by
    unfold slotAddr
    rw [Nat.add_sub_cancel_left, Nat.mul_div_cancel _ c.size_pos]
  have hne : b ≠ slotAddr c b i := by
    have := slotAddr_ge c b i
    omega
  have hw : (k.writeLow (slotAddr c b i) (k.blockNextFreeIndex b)).mem b = k.mem b :=
    write_mem_of_ne hne
  have hub : k.blockUsed b < 2 ^ 16 := Nat.mod_lt _ (by decide)
  refine ⟨packInfo (infoBlockSize (k.mem b)) (k.blockUsed b + (2 ^ 16 - 1)) i, ?_, ?_, ?_, ?_⟩
  · rw [infoUsed_packInfo]
    omega
  · rw [infoNextFreeIndex_packInfo]
    omega
  · rw [infoBlockSize_packInfo, infoBlockSize, Nat.mod_mod]
  · simp only [blockFree, hidx, Nat.not_le.mpr hi, if_false, blockUsed, hw]

/-- A live slot is counted, and its way back to the chain. -/
theorem BlockOk.give (h : BlockOk k live c b) (hlive : live.Nodup) (hi : i < c.capacity)
    (hin : (c, slotAddr c b i) ∈ live) :
    k.blockUsed b ≠ 0 ∧ ∀ w, infoUsed w = k.blockUsed b - 1 → infoNextFreeIndex w = i →
      infoBlockSize w = infoBlockSize (k.mem b) →
      BlockOk ((k.writeLow (slotAddr c b i) (k.blockNextFreeIndex b)).write b w)
        (live.erase (c, slotAddr c b i)) c b := by
  obtain ⟨I, hI, hInd, hImem, hlen, hsz⟩ := h
  have hiI : i ∉ I := fun hmem => ((hImem i).mp hmem).2 hin
  -- the slot is not on the chain, so the chain does not hold every slot
  have hIlen : (i :: I).length ≤ c.capacity := by
    have hsub : (i :: I) ⊆ List.range c.capacity := by
      intro j hj
      rcases List.mem_cons.mp hj with rfl | hj
      · exact List.mem_range.mpr hi
      · exact List.mem_range.mpr ((hImem j).mp hj).1
    have hnd : (i :: I).Nodup := List.nodup_cons.mpr ⟨hiI, hInd⟩
    simpa using hnd.length_le_of_subset hsub
  rw [List.length_cons] at hIlen
  have hu : k.blockUsed b ≠ 0 := by omega
  refine ⟨hu, fun w hwu hwi hws => ?_⟩
  have hcap := c.capacity_lt
  have hge := slotAddr_ge c b i
  generalize hk : (k.writeLow (slotAddr c b i) (k.blockNextFreeIndex b)).write b w = k'
  have hb0 : k'.mem b = w := by rw [← hk, write_mem_self]
  have hkeep : ∀ j, j ≠ i → k'.mem (slotAddr c b j) = k.mem (slotAddr c b j) := by
    intro j hji
    have hj := slotAddr_ge c b j
    rw [← hk, write_mem_of_ne (by omega), writeLow, write_mem_of_ne fun he => hji (slotAddr_inj he)]
  have hslot : k'.mem (slotAddr c b i) % 2 ^ 32 = k.blockNextFreeIndex b := by
    have hlt : k.blockNextFreeIndex b < 2 ^ 32 := Nat.mod_lt _ (by decide)
    rw [← hk, write_mem_of_ne (by omega), writeLow, write_mem_self]
    omega
  refine ⟨i :: I, ?_, List.nodup_cons.mpr ⟨hiI, hInd⟩, fun j => ?_, ?_, by rw [hb0, hws, hsz]⟩
  · rw [blockNextFreeIndex, hb0, hwi, chain_cons]
    refine ⟨rfl, by unfold noIndex; omega, ?_⟩
    rw [slotNext, hslot]
    exact hI.congr fun j hj => congrArg (· % 2 ^ 32) (hkeep j fun he => hiI (he ▸ hj))
  · rw [List.mem_cons, hImem j, hlive.mem_erase_iff]
    by_cases hji : j = i
    · subst hji
      simp [hi]
    · have hne : (c, slotAddr c b j) ≠ (c, slotAddr c b i) := fun he =>
        hji (slotAddr_inj (Prod.mk.inj he).2)
      simp [hji, hne]
  · rw [blockUsed, hb0, hwu, List.length_cons]
    omega

/-- The links of consecutive indices form a chain. -/
theorem chain_range {f : Nat → Nat} {n : Nat} (hn : n ≤ noIndex)
    (hf : ∀ i, i < n → f i = if i = n - 1 then noIndex else i + 1) :
    ∀ m j, j + m = n → Chain f noIndex (if m = 0 then noIndex else j) (List.range' j m) := by
  intro m
  induction m with
  | zero => intro j _; simp
  | succ m ih =>
    intro j hj
    have hstep : f j = if m = 0 then noIndex else j + 1 := by
      rw [hf j (by omega)]
      by_cases hm : m = 0
      · rw [if_pos (by omega), if_pos hm]
      · rw [if_neg (by omega), if_neg hm]
    rw [List.range'_succ, if_neg (by omega), chain_cons, hstep]
    exact ⟨rfl, by omega, ih (j + 1) (by omega)⟩

theorem newBlock_mem {o : Nat} (h : o < pgSize) :
    (k.newBlock c b).mem (b + o) = initWord c o (k.mem (b + o)) := by
  have hin : b ≤ b + o ∧ b + o < b + pgSize := by omega
  simp only [newBlock, hin, and_self, if_true, Nat.add_sub_cancel_left]

theorem newBlock_header : (k.newBlock c b).mem b = packInfo c.size 0 0 := by
  have h := newBlock_mem (c := c) (k := k) (b := b) (o := 0) (by decide)
  simpa [initWord] using h

theorem newBlock_slotNext (hi : i < c.capacity) :
    (k.newBlock c b).slotNext c b i = if i = c.capacity - 1 then noIndex else i + 1 := by
  have hlt := slotAddr_lt (b := 0) hi
  have hpos := c.size_pos
  have hinfo := c.infoSize_ge
  have hcap := c.capacity_lt
  have hmul : (i + 1) * c.size ≤ c.capacity * c.size := Nat.mul_le_mul_right _ hi
  rw [Nat.add_mul] at hmul
  have haddr : slotAddr c b i = b + (c.infoSize + i * c.size) := by
    unfold slotAddr
    omega
  unfold slotAddr at hlt
  rw [slotNext, haddr, newBlock_mem (by omega), initWord, if_neg (by omega), if_neg (by omega),
    if_neg (by omega), Nat.add_sub_cancel_left, Nat.mul_mod_left, if_pos rfl,
    Nat.mul_div_cancel _ hpos]
  split
  · decide
  · exact Nat.mod_eq_of_lt (by omega)

/-- In a new block every slot is free. -/
theorem BlockOk.new (hlive : ∀ i < c.capacity, (c, slotAddr c b i) ∉ live) :
    BlockOk (k.newBlock c b) live c b := by
  have hcap := c.capacity_lt
  have hpos := c.capacity_pos
  refine ⟨List.range' 0 c.capacity, ?_, List.nodup_range', fun i => ?_, ?_, ?_⟩
  · have hch := chain_range (f := (k.newBlock c b).slotNext c b) (n := c.capacity)
      (by unfold noIndex; omega) (fun i hi => newBlock_slotNext hi) c.capacity 0 (by omega)
    rw [if_neg (by omega)] at hch
    rw [blockNextFreeIndex, newBlock_header, infoNextFreeIndex_packInfo]
    exact hch
  · simp only [List.mem_range'_1, Nat.zero_le, Nat.zero_add, true_and]
    exact ⟨fun hi => ⟨hi, hlive i hi⟩, fun hi => hi.1⟩
  · rw [blockUsed, newBlock_header, infoUsed_packInfo, List.length_range']
    omega
  · rw [newBlock_header, infoBlockSize_packInfo]
    exact Nat.mod_eq_of_lt c.size_lt

end Block

/-! ## The invariant gives safety -/

theorem pageOf_slot {c : SizeClass} {b i : Nat} (hb : b % pgSize = 0) (hi : i < c.capacity) :
    pageOf (slotAddr c b i) = b := by
  have h1 := slotAddr_lt (b := b) hi
  have h2 := slotAddr_ge c b i
  have h3 := c.size_pos
  unfold pageOf pgSize at *
  omega

theorem heapSafe_of_inv {s : HeapSystem} (h : s.HeapInv) : s.HeapSafe := by
  have howned : ∀ x ∈ s.live, s.owner (pageOf x.2) = .heap x.1 ∧
      x.2 + x.1.size ≤ pageOf x.2 + pgSize ∧ pageOf x.2 ≤ x.2 ∧ pageOf x.2 % pgSize = 0 := by
    intro x hx
    obtain ⟨b, i, hb, hi, heq⟩ := h.liveSlot x hx
    have hal := (h.aligned b (by rw [hb]; simp)).1
    have hge := slotAddr_ge x.1 b i
    rw [heq, pageOf_slot hal hi]
    exact ⟨hb, slotAddr_lt hi, by omega, hal⟩
  refine ⟨fun x hx => ⟨(howned x hx).1, (howned x hx).2.1⟩, ?_, ?_, ?_⟩
  · refine h.liveNodup.imp_of_mem fun {x y} hx hy hne => ?_
    obtain ⟨b, i, hb, hi, hxe⟩ := h.liveSlot x hx
    obtain ⟨b', i', hb', hi', hye⟩ := h.liveSlot y hy
    have hal := (h.aligned b (by rw [hb]; simp)).1
    have hal' := (h.aligned b' (by rw [hb']; simp)).1
    by_cases hbb : b = b'
    · -- one page has one holder, so the two are slots of one block
      subst hbb
      have hcc : x.1 = y.1 := by
        rw [hb] at hb'
        exact Owner.heap.inj hb'
      rw [hxe, hye, ← hcc]
      rcases Nat.lt_trichotomy i i' with hlt | heq | hgt
      · exact Or.inl (slotAddr_sep hlt)
      · exact absurd (Prod.ext hcc (by rw [hxe, hye, heq, hcc])) hne
      · exact Or.inr (slotAddr_sep hgt)
    · have h1 := slotAddr_lt (b := b) hi
      have h2 := slotAddr_ge x.1 b i
      have h3 := slotAddr_lt (b := b') hi'
      have h4 := slotAddr_ge y.1 b' i'
      rw [hxe, hye]
      unfold pgSize at *
      omega
  · intro x hx p hp hnot
    obtain ⟨ho, hle, hge, hal⟩ := howned x hx
    have hne : p ≠ pageOf x.2 := by
      rintro rfl
      rcases hnot with hnot | hfree
      · exact hnot ho
      · obtain ⟨F, hc, -, hmem⟩ := h.freeList
        have hf := (hmem _).mp (hc.onChain_iff.mp hfree)
        rw [ho] at hf
        cases hf
    unfold pgSize at *
    omega
  · intro c b hon
    obtain ⟨N, hc, -, hmem⟩ := h.nonFull c
    obtain ⟨B, hcB, -, hmemB⟩ := h.blockList c
    obtain ⟨hb, hu⟩ := (hmem b).mp (hc.onChain_iff.mp hon)
    exact ⟨hcB.onChain_iff.mpr ((hmemB b).mpr hb), hu⟩

/-! ## Allocation from a block -/

/-- What the end of `alloc` does when the first slot of the chain is `i`. -/
theorem allocFrom_eq {c : SizeClass} {k : KernelMem} {b i : Nat}
    (hb : (k.heap c).nextFreeBlock = b) (hu : k.blockUsed b ≠ c.capacity)
    (hi : k.blockNextFreeIndex b = i) (hlt : k.blockUsed b + 1 < 2 ^ 16) :
    k.allocFrom c = (slotAddr c b i,
      (k.write b (packInfo (infoBlockSize (k.mem b)) (k.blockUsed b + 1)
        (k.slotNext c b i))).setHeap
        c { k.heap c with
            nextFreeBlock := if k.blockUsed b + 1 = c.capacity then k.mem (b + 16) else b
            used := (k.heap c).used + c.size }) := by
  have hblock := blockAlloc_eq (c := c) hu hi
  have hused : (k.write b (packInfo (infoBlockSize (k.mem b)) (k.blockUsed b + 1)
      (k.slotNext c b i))).blockUsed b = k.blockUsed b + 1 := by
    rw [blockUsed, write_mem_self, infoUsed_packInfo, Nat.mod_eq_of_lt hlt]
  unfold allocFrom
  simp only [hb, hblock, blockFull, hused, write_heap, decide_eq_true_eq,
    KernelMem.nextFreeBlock]
  rw [write_mem_of_ne (by omega)]

theorem inv_allocFrom {s : HeapSystem} (h : s.HeapInv) {c : SizeClass}
    (hne : (s.k.heap c).nextFreeBlock ≠ 0) :
    (s.k.allocFrom c).1 ≠ 0 ∧
      HeapInv { s with k := (s.k.allocFrom c).2, live := (c, (s.k.allocFrom c).1) :: s.live } := by
  obtain ⟨N, hN, hNnd, hNmem⟩ := h.nonFull c
  obtain ⟨N', rfl, hN'⟩ := hN.uncons hne
  generalize hbdef : (s.k.heap c).nextFreeBlock = b at hN hNnd hNmem hN' hne
  obtain ⟨hown, hu⟩ := (hNmem b).mp (by simp)
  have hal : b % pgSize = 0 := (h.aligned b (by rw [hown]; simp)).1
  obtain ⟨i, hi, hicap, hinl, hul, hblock⟩ := (h.block c b hown).take hu
  rw [allocFrom_eq hbdef hu hi hul]
  refine ⟨?_, ?_⟩
  · have := slotAddr_ge c b i
    simp only
    omega
  generalize hw : packInfo (infoBlockSize (s.k.mem b)) (s.k.blockUsed b + 1)
    (s.k.slotNext c b i) = w at hblock
  have hwu : (s.k.write b w).blockUsed b = s.k.blockUsed b + 1 := by
    rw [blockUsed, write_mem_self, ← hw, infoUsed_packInfo, Nat.mod_eq_of_lt hul]
  -- only the first word of `b` and the allocator record of `c` change
  have hfree : ∀ p, s.owner p ≠ .outside → p ≠ b → (s.k.write b w).mem p = s.k.mem p :=
    fun p _ hpb => write_mem_of_ne hpb
  have hhdr : ∀ p o, s.owner p ≠ .outside → 0 < o → o < 24 →
      (s.k.write b w).mem (p + o) = s.k.mem (p + o) := fun p o hp h0 ho =>
    write_mem_of_ne (header_ne (r := 0) (h.aligned p hp).1 hal ho (by omega) (Or.inr (by omega)))
  have hslot : ∀ c' p j, s.owner p = .heap c' → j < c'.capacity →
      (s.k.write b w).mem (slotAddr c' p j) = s.k.mem (slotAddr c' p j) := fun c' p j hp hj =>
    write_mem_of_ne (slotAddr_ne_header (o := 0) hal (h.aligned p (by rw [hp]; simp)).1 hj
      (by omega))
  refine ⟨h.aligned, ?_, ?_, ?_, ?_, ?_, ?_⟩
  · refine h.freeList.congr rfl (fun _ => Iff.rfl) fun p hp => ?_
    refine hfree p (by rw [hp]; simp) ?_
    rintro rfl
    rw [hown] at hp
    cases hp
  · intro c'
    refine (h.blockList c').congr ?_ (fun _ => Iff.rfl) fun p hp =>
      hhdr p 8 (by rw [hp]; simp) (by omega) (by omega)
    by_cases hc : c' = c
    · subst hc
      simp
    · rw [setHeap_heap_of_ne hc, write_heap]
  · intro c'
    by_cases hc : c' = c
    · subst hc
      -- the block leaves the chain exactly when its last slot was taken
      by_cases hcapu : s.k.blockUsed b + 1 = c'.capacity
      · refine ⟨N', ?_, (List.nodup_cons.mp hNnd).2, fun p => ?_⟩
        · simp only [setHeap_heap_self, hcapu, if_true]
          refine Chain.congr hN' fun p hp => ?_
          have hp' := (hNmem p).mp (by simp [hp])
          exact hhdr p 16 (by rw [hp'.1]; simp) (by omega) (by omega)
        · by_cases hpb : p = b
          · subst hpb
            simp only [(List.nodup_cons.mp hNnd).1, setHeap_blockUsed, hwu, hcapu, ne_eq,
              not_true_eq_false, and_false]
          · have := hNmem p
            simp only [List.mem_cons, hpb, false_or] at this
            rw [this, setHeap_blockUsed, write_blockUsed_of_ne hpb]
      · refine ⟨b :: N', ?_, hNnd, fun p => ?_⟩
        · simp only [setHeap_heap_self, hcapu, if_false]
          refine Chain.congr hN fun p hp => ?_
          have hp' := (hNmem p).mp hp
          exact hhdr p 16 (by rw [hp'.1]; simp) (by omega) (by omega)
        · rw [hNmem p]
          by_cases hpb : p = b
          · subst hpb
            rw [setHeap_blockUsed, hwu]
            exact ⟨fun hp => ⟨hp.1, hcapu⟩, fun hp => ⟨hp.1, hu⟩⟩
          · rw [setHeap_blockUsed, write_blockUsed_of_ne hpb]
    · refine (h.nonFull c').congr (by rw [setHeap_heap_of_ne hc, write_heap])
        (fun _ => Iff.rfl) fun p hp => ?_
      have hpb : p ≠ b := by
        rintro rfl
        rw [hown] at hp
        exact hc (Owner.heap.inj hp).symm
      exact ⟨hhdr p 16 (by rw [hp]; simp) (by omega) (by omega), write_blockUsed_of_ne hpb⟩
  · intro c' p hp
    by_cases hpb : p = b
    · subst hpb
      have hc : c = c' := Owner.heap.inj (hown.symm.trans hp)
      subst hc
      exact hblock
    · refine (h.block c' p hp).congr (write_mem_of_ne hpb) (fun j hj => ?_)
        fun j hj _ => hslot c' p j hp hj
      have hpal := (h.aligned p (by rw [hp]; simp)).1
      simp only [List.mem_cons, Prod.mk.injEq]
      constructor
      · rintro (⟨rfl, heq⟩ | hin)
        · exact absurd (slotAddr_page hpal hal hj hicap heq) hpb
        · exact hin
      · exact Or.inr
  · intro x hx
    rcases List.mem_cons.mp hx with rfl | hx
    · exact ⟨b, i, hown, hicap, rfl⟩
    · exact h.liveSlot x hx
  · exact List.nodup_cons.mpr ⟨hinl, h.liveNodup⟩

/-! ## A block in a new page -/

theorem addBlock_mem_outside {c : SizeClass} {k : KernelMem} {p a : Nat}
    (h : ¬ (p ≤ a ∧ a < p + pgSize)) : (k.addBlock c p).mem a = k.mem a := by
  have hne : a ≠ p + 8 := by
    unfold pgSize at h
    omega
  simp only [addBlock, setHeap_mem, write_mem_of_ne hne, newBlock, h, if_false]

theorem addBlock_mem_inside {c : SizeClass} {k : KernelMem} {p o : Nat} (h : o < pgSize)
    (h8 : o ≠ 8) : (k.addBlock c p).mem (p + o) = initWord c o (k.mem (p + o)) := by
  have hne : p + o ≠ p + 8 := by omega
  rw [addBlock, setHeap_mem, write_mem_of_ne hne, newBlock_mem h]

theorem inv_addBlock {s : HeapSystem} (h : s.HeapInv) {c : SizeClass}
    (hnil : (s.k.heap c).nextFreeBlock = 0) (hp : s.k.freePageList ≠ 0) :
    HeapInv { k := s.k.allocPage.2.addBlock c s.k.freePageList,
              owner := Function.update s.owner s.k.freePageList (.heap c), live := s.live } := by
  obtain ⟨F, hF, hFnd, hFmem⟩ := h.freeList
  obtain ⟨F', rfl, hF'⟩ := hF.uncons hp
  obtain ⟨N, hN, -, hNmem⟩ := h.nonFull c
  obtain ⟨B, hB, hBnd, hBmem⟩ := h.blockList c
  obtain rfl : N = [] := by
    cases N with
    | nil => rfl
    | cons x N => exact absurd (hN.1.symm.trans hnil) hN.2.1
  have hmem1 : s.k.allocPage.2.mem = s.k.mem := by simp [allocPage, hp]
  have hheap1 : s.k.allocPage.2.heap = s.k.heap := by simp [allocPage, hp]
  have hfpl : (s.k.allocPage.2.addBlock c s.k.freePageList).freePageList =
      s.k.mem s.k.freePageList := by
    simp [allocPage, hp, addBlock, newBlock]
  generalize s.k.allocPage.2 = k1 at *
  generalize s.k.freePageList = p at *
  have hown : s.owner p = .free := (hFmem p).mp (by simp)
  have hal : p % pgSize = 0 := (h.aligned p (by rw [hown]; simp)).1
  -- words of the other pages stay
  have hout : ∀ q o, q ≠ p → s.owner q ≠ .outside → o < pgSize →
      (k1.addBlock c p).mem (q + o) = s.k.mem (q + o) := by
    intro q o hqp hq ho
    rw [addBlock_mem_outside, hmem1]
    intro hin
    exact hqp (page_unique (h.aligned q hq).1 hal ⟨by omega, by omega⟩ hin)
  have hslotOut : ∀ c' q i, q ≠ p → s.owner q ≠ .outside → i < c'.capacity →
      (k1.addBlock c p).mem (slotAddr c' q i) = s.k.mem (slotAddr c' q i) := by
    intro c' q i hqp hq hi
    have h1 := slotAddr_lt (b := q) hi
    have h2 := slotAddr_ge c' q i
    have h3 := c'.size_pos
    have := hout q (slotAddr c' q i - q) hqp hq (by omega)
    rwa [Nat.add_sub_cancel' (by omega)] at this
  have hhead : ((k1.addBlock c p).heap c).headBlock = p := by simp [addBlock]
  have hnext : ((k1.addBlock c p).heap c).nextFreeBlock = p := by simp [addBlock]
  have hother : ∀ c', c' ≠ c → (k1.addBlock c p).heap c' = s.k.heap c' := by
    intro c' hc
    rw [addBlock, setHeap_heap_of_ne hc, ← hheap1]
    rfl
  have hw0 : (k1.addBlock c p).mem p = packInfo c.size 0 0 := by
    have := addBlock_mem_inside (c := c) (k := k1) (p := p) (o := 0) (by decide) (by decide)
    simpa [initWord] using this
  have hw8 : (k1.addBlock c p).mem (p + 8) = (s.k.heap c).headBlock := by
    rw [← hheap1]
    simp [addBlock, newBlock]
  have hw16 : (k1.addBlock c p).mem (p + 16) = 0 := by
    rw [addBlock_mem_inside (by decide) (by decide)]
    simp [initWord]
  have hownNe : ∀ {q : Nat} {c' : SizeClass}, s.owner q = .heap c' → q ≠ p := by
    rintro q c' hq rfl
    rw [hown] at hq
    cases hq
  have howner : ∀ {q : Nat} {o : Owner}, q ≠ p →
      (Function.update s.owner p (.heap c) q = o ↔ s.owner q = o) := by
    intro q o hqp
    rw [Function.update_of_ne hqp]
  refine ⟨?_, ?_, ?_, ?_, ?_, ?_, h.liveNodup⟩
  · intro q hq
    by_cases hqp : q = p
    · subst hqp
      exact h.aligned q (by rw [hown]; simp)
    · exact h.aligned q (by simpa [hqp] using hq)
  · refine ⟨F', ?_, (List.nodup_cons.mp hFnd).2, fun q => ?_⟩
    · rw [hfpl]
      refine hF'.congr fun q hq => ?_
      have hqp : q ≠ p := by
        rintro rfl
        exact (List.nodup_cons.mp hFnd).1 hq
      have hqf := (hFmem q).mp (by simp [hq])
      simpa using hout q 0 hqp (by rw [hqf]; simp) (by decide)
    · by_cases hqp : q = p
      · subst hqp
        simp [(List.nodup_cons.mp hFnd).1]
      · have := hFmem q
        simp only [List.mem_cons, hqp, false_or] at this
        rw [this, howner hqp]
  · intro c'
    by_cases hc : c' = c
    · subst hc
      refine ⟨p :: B, ?_, ?_, fun q => ?_⟩
      · rw [hhead, chain_cons]
        refine ⟨rfl, (h.aligned p (by rw [hown]; simp)).2, ?_⟩
        rw [KernelMem.nextBlock, hw8]
        refine hB.congr fun q hq => ?_
        have hqo := (hBmem q).mp hq
        exact hout q 8 (hownNe hqo) (by rw [hqo]; simp) (by decide)
      · exact List.nodup_cons.mpr ⟨fun hin => hownNe ((hBmem p).mp hin) rfl, hBnd⟩
      · by_cases hqp : q = p
        · subst hqp
          simp
        · simp only [List.mem_cons, hqp, false_or, hBmem q, howner hqp]
    · refine (h.blockList c').congr (by rw [hother c' hc]) (fun q => ?_) fun q hq =>
        hout q 8 (hownNe hq) (by rw [hq]; simp) (by decide)
      by_cases hqp : q = p
      · subst hqp
        simp [hown, Ne.symm hc]
      · exact howner hqp
  · intro c'
    by_cases hc : c' = c
    · subst hc
      refine ⟨[p], ?_, by simp, fun q => ?_⟩
      · rw [hnext, chain_cons, chain_nil]
        exact ⟨rfl, (h.aligned p (by rw [hown]; simp)).2, hw16⟩
      · by_cases hqp : q = p
        · subst hqp
          have hcap := c'.capacity_pos
          simp only [List.mem_singleton, Function.update_self, blockUsed, hw0,
            infoUsed_packInfo, true_and, true_iff]
          omega
        · have hnot := hNmem q
          simp only [List.not_mem_nil, false_iff] at hnot
          simp only [List.mem_singleton, hqp, false_iff, howner hqp]
          rintro ⟨hq, hu⟩
          have hsame := hout q 0 hqp (by rw [hq]; simp) (by decide)
          rw [Nat.add_zero] at hsame
          refine hnot ⟨hq, ?_⟩
          rwa [blockUsed, ← hsame]
    · refine (h.nonFull c').congr (by rw [hother c' hc]) (fun q => ?_) fun q hq => ?_
      · by_cases hqp : q = p
        · subst hqp
          simp [hown, Ne.symm hc]
        · exact howner hqp
      · have hqo : s.owner q ≠ .outside := by rw [hq]; simp
        refine ⟨hout q 16 (hownNe hq) hqo (by decide), ?_⟩
        rw [blockUsed, blockUsed]
        exact congrArg infoUsed (hout q 0 (hownNe hq) hqo (by decide))
  · intro c' q hq
    by_cases hqp : q = p
    · subst hqp
      obtain rfl : c = c' := by simpa using hq
      have hnew : BlockOk (k1.newBlock c q) s.live c q := by
        refine BlockOk.new fun i hi hin => ?_
        obtain ⟨b, j, hb, hj, heq⟩ := h.liveSlot _ hin
        have hbal := (h.aligned b (by rw [hb]; simp)).1
        exact hownNe hb (slotAddr_page hbal hal hj hi heq.symm)
      have hkeep : ∀ a, a ≠ q + 8 → (k1.addBlock c q).mem a = (k1.newBlock c q).mem a :=
        fun a ha => by
        rw [addBlock, setHeap_mem, write_mem_of_ne ha]
      refine hnew.congr (hkeep q (by omega)) (fun _ _ => Iff.rfl) fun i _ _ => hkeep _ ?_
      have hge := slotAddr_ge c q i
      omega
    · have hq' : s.owner q = .heap c' := (howner hqp).mp hq
      have hqo : s.owner q ≠ .outside := by rw [hq']; simp
      exact (h.block c' q hq').congr (hout q 0 hqp hqo (by decide)) (fun _ _ => Iff.rfl)
        fun i hi _ => hslotOut c' q i hqp hqo hi
  · intro x hx
    obtain ⟨b, i, hb, hi, heq⟩ := h.liveSlot x hx
    exact ⟨b, i, (howner (hownNe hb)).mpr hb, hi, heq⟩

/-! ## Freeing a slot -/

/-- What `free` does on a slot: the slot goes to the front of the slot chain, and a block
that was full goes to the front of the chain of non-full blocks. -/
theorem free_eq {c : SizeClass} {k : KernelMem} {b i : Nat} (hb : b % pgSize = 0)
    (hi : i < c.capacity) (hu : k.blockUsed b ≠ 0) :
    ∃ w, infoUsed w = k.blockUsed b - 1 ∧ infoNextFreeIndex w = i ∧
      infoBlockSize w = infoBlockSize (k.mem b) ∧
      k.free c (slotAddr c b i) = some (
        let k' := (k.writeLow (slotAddr c b i) (k.blockNextFreeIndex b)).write b w
        if k.blockUsed b = c.capacity then
          (k'.write (b + 16) (k.heap c).nextFreeBlock).setHeap c
            { k.heap c with nextFreeBlock := b, used := (k.heap c).used - c.size }
        else k'.setHeap c { k.heap c with used := (k.heap c).used - c.size }) := by
  obtain ⟨w, hwu, hwi, hws, heq⟩ := blockFree_eq (c := c) hi hu
  have hpage : slotAddr c b i - slotAddr c b i % pgSize = b := pageOf_slot hb hi
  refine ⟨w, hwu, hwi, hws, ?_⟩
  simp only [KernelMem.free, hpage, heq, Option.map_some, blockFull, decide_eq_true_eq]
  rfl

theorem inv_free {s : HeapSystem} (h : s.HeapInv) {c : SizeClass} {ptr : Nat} {k : KernelMem}
    (hlive : (c, ptr) ∈ s.live) (hf : s.k.free c ptr = some k) :
    HeapInv { s with k := k, live := s.live.erase (c, ptr) } := by
  obtain ⟨b, i, hown, hi, hptr⟩ := h.liveSlot _ hlive
  simp only at hown hi hptr
  subst hptr
  have hal : b % pgSize = 0 := (h.aligned b (by rw [hown]; simp)).1
  obtain ⟨hu, hgive⟩ := (h.block c b hown).give h.liveNodup hi hlive
  have hule := (h.block c b hown).used_le
  obtain ⟨w, hwu, hwi, hws, heq⟩ := free_eq (c := c) (k := s.k) hal hi hu
  rw [heq] at hf
  have hk := (Option.some.inj hf).symm
  simp only at hk
  have hblock := hgive w hwu hwi hws
  obtain ⟨N, hN, hNnd, hNmem⟩ := h.nonFull c
  have hslotge := slotAddr_ge c b i
  -- the words that change: the first word of `b`, the slot, and the chain link of `b`
  have hkeep : ∀ a, a ≠ b → a ≠ slotAddr c b i → a ≠ b + 16 → k.mem a = s.k.mem a := by
    intro a h1 h2 h3
    rw [hk]
    split
    · rw [setHeap_mem, write_mem_of_ne h3, write_mem_of_ne h1, writeLow, write_mem_of_ne h2]
    · rw [setHeap_mem, write_mem_of_ne h1, writeLow, write_mem_of_ne h2]
  have hb0 : k.mem b = w := by
    rw [hk]
    split
    · rw [setHeap_mem, write_mem_of_ne (by omega), write_mem_self]
    · rw [setHeap_mem, write_mem_self]
  have hhead : ∀ c', (k.heap c').headBlock = (s.k.heap c').headBlock := by
    intro c'
    rw [hk]
    by_cases hc : c' = c
    · subst hc
      split <;> simp
    · split <;> simp [setHeap_heap_of_ne hc] <;> rfl
  have hfpl : k.freePageList = s.k.freePageList := by
    rw [hk]
    split <;> rfl
  have hpage : ∀ {q : Nat} {o : Owner}, s.owner q = o → o ≠ .outside → q % pgSize = 0 :=
    fun hq ho => (h.aligned _ (by rw [hq]; exact ho)).1
  have hne16 : ∀ {q : Nat}, q % pgSize = 0 → q ≠ b + 16 := fun hq => by
    unfold pgSize at hq hal
    omega
  have hused : ∀ q, q ≠ b → q % pgSize = 0 → k.blockUsed q = s.k.blockUsed q := by
    intro q hqb hq
    rw [blockUsed, blockUsed, hkeep q hqb
      (fun he => slotAddr_ne_header (o := 0) hq hal hi (by omega) he.symm) (hne16 hq)]
  have husedb : k.blockUsed b = s.k.blockUsed b - 1 := by rw [blockUsed, hb0, hwu]
  refine ⟨h.aligned, ?_, ?_, ?_, ?_, ?_, h.liveNodup.erase _⟩
  · refine h.freeList.congr hfpl (fun _ => Iff.rfl) fun q hq => ?_
    have hqal := hpage hq (by simp)
    refine hkeep q ?_ ?_ (hne16 hqal)
    · rintro rfl
      rw [hown] at hq
      cases hq
    · exact fun he => slotAddr_ne_header (o := 0) hqal hal hi (by omega) he.symm
  · intro c'
    refine (h.blockList c').congr (hhead c') (fun _ => Iff.rfl) fun q hq => ?_
    have hqal := hpage hq (by simp)
    exact hkeep _ (header_ne (r := 0) hqal hal (by omega) (by omega) (Or.inr (by omega)))
      (fun he => slotAddr_ne_header hqal hal hi (by omega) he.symm)
      (header_ne hqal hal (by omega) (by omega) (Or.inr (by omega)))
  · intro c'
    by_cases hc : c' = c
    · subst hc
      have hlink : ∀ q, q ≠ b → s.owner q = .heap c' → k.mem (q + 16) = s.k.mem (q + 16) := by
        intro q hqb hq
        have hqal := hpage hq (by simp)
        exact hkeep _ (header_ne (r := 0) hqal hal (by omega) (by omega) (Or.inr (by omega)))
          (fun he => slotAddr_ne_header hqal hal hi (by omega) he.symm)
          (header_ne hqal hal (by omega) (by omega) (Or.inl hqb))
      by_cases hfull : s.k.blockUsed b = c'.capacity
      · -- a full block was on no chain and becomes the first one
        have hbN : b ∉ N := fun hin => ((hNmem b).mp hin).2 hfull
        refine ⟨b :: N, ?_, List.nodup_cons.mpr ⟨hbN, hNnd⟩, fun q => ?_⟩
        · have hfirst : (k.heap c').nextFreeBlock = b := by
            rw [hk, if_pos hfull]
            simp
          have hlinkb : k.mem (b + 16) = (s.k.heap c').nextFreeBlock := by
            rw [hk, if_pos hfull, setHeap_mem, write_mem_self]
          rw [hfirst, chain_cons]
          refine ⟨rfl, (h.aligned b (by rw [hown]; simp)).2, ?_⟩
          rw [KernelMem.nextFreeBlock, hlinkb]
          refine hN.congr fun q hq => ?_
          exact hlink q (fun he => hbN (he ▸ hq)) ((hNmem q).mp hq).1
        · by_cases hqb : q = b
          · subst hqb
            simp only [List.mem_cons, true_or, true_iff, husedb]
            exact ⟨hown, by omega⟩
          · simp only [List.mem_cons, hqb, false_or, hNmem q]
            constructor
            · rintro ⟨hq, hqu⟩
              exact ⟨hq, by rwa [hused q hqb (hpage hq (by simp))]⟩
            · rintro ⟨hq, hqu⟩
              exact ⟨hq, by rwa [← hused q hqb (hpage hq (by simp))]⟩
      · have hlinkb : k.mem (b + 16) = s.k.mem (b + 16) := by
          rw [hk, if_neg hfull, setHeap_mem, write_mem_of_ne (by omega), writeLow,
            write_mem_of_ne (fun he => slotAddr_ne_header hal hal hi (by omega) he.symm)]
        refine ⟨N, ?_, hNnd, fun q => ?_⟩
        · have hfirst : (k.heap c').nextFreeBlock = (s.k.heap c').nextFreeBlock := by
            rw [hk, if_neg hfull]
            simp
          rw [hfirst]
          refine hN.congr fun q hq => ?_
          by_cases hqb : q = b
          · subst hqb
            exact hlinkb
          · exact hlink q hqb ((hNmem q).mp hq).1
        · by_cases hqb : q = b
          · subst hqb
            rw [hNmem q, husedb]
            exact ⟨fun hq => ⟨hq.1, by omega⟩, fun hq => ⟨hq.1, hfull⟩⟩
          · rw [hNmem q]
            constructor
            · rintro ⟨hq, hqu⟩
              exact ⟨hq, by rwa [hused q hqb (hpage hq (by simp))]⟩
            · rintro ⟨hq, hqu⟩
              exact ⟨hq, by rwa [← hused q hqb (hpage hq (by simp))]⟩
    · have hnext : (k.heap c').nextFreeBlock = (s.k.heap c').nextFreeBlock := by
        rw [hk]
        split <;> rw [setHeap_heap_of_ne hc] <;> rfl
      refine (h.nonFull c').congr hnext (fun _ => Iff.rfl) fun q hq => ?_
      have hqal := hpage hq (by simp)
      have hqb : q ≠ b := by
        rintro rfl
        rw [hown] at hq
        exact hc (Owner.heap.inj hq).symm
      exact ⟨hkeep _ (header_ne (r := 0) hqal hal (by omega) (by omega) (Or.inr (by omega)))
        (fun he => slotAddr_ne_header hqal hal hi (by omega) he.symm)
        (header_ne hqal hal (by omega) (by omega) (Or.inl hqb)), hused q hqb hqal⟩
  · intro c' q hq
    have hqal := hpage hq (by simp)
    by_cases hqb : q = b
    · subst hqb
      obtain rfl : c = c' := Owner.heap.inj (hown.symm.trans hq)
      rw [hk]
      split
      · refine hblock.congr (write_mem_of_ne (by omega)) (fun _ _ => Iff.rfl) fun j _ _ => ?_
        have hge := slotAddr_ge c q j
        exact write_mem_of_ne (by omega)
      · exact hblock
    · refine (h.block c' q hq).congr ?_ (fun j hj => ?_) fun j hj _ => ?_
      · exact hkeep q hqb (fun he => slotAddr_ne_header (o := 0) hqal hal hi (by omega) he.symm)
          (hne16 hqal)
      · rw [h.liveNodup.mem_erase_iff]
        refine and_iff_right fun he => hqb ?_
        obtain ⟨rfl, he'⟩ := Prod.mk.inj he
        exact slotAddr_page hqal hal hj hi he'
      · exact hkeep _ (slotAddr_ne_header (o := 0) hal hqal hj (by omega))
          (fun he => hqb (slotAddr_page hqal hal hj hi he))
          (slotAddr_ne_header hal hqal hj (by omega))
  · intro x hx
    exact h.liveSlot x (List.mem_of_mem_erase hx)

/-! ## Pages of other clients -/

theorem inv_allocPage {s : HeapSystem} (h : s.HeapInv) (hp : s.k.freePageList ≠ 0) :
    HeapInv { s with k := s.k.allocPage.2,
                     owner := Function.update s.owner s.k.freePageList .client } := by
  obtain ⟨F, hF, hFnd, hFmem⟩ := h.freeList
  obtain ⟨F', rfl, hF'⟩ := hF.uncons hp
  have hmem1 : s.k.allocPage.2.mem = s.k.mem := by simp [allocPage, hp]
  have hheap1 : s.k.allocPage.2.heap = s.k.heap := by simp [allocPage, hp]
  have hfpl : s.k.allocPage.2.freePageList = s.k.mem s.k.freePageList := by simp [allocPage, hp]
  generalize s.k.allocPage.2 = k1 at *
  generalize s.k.freePageList = p at *
  have hown : s.owner p = .free := (hFmem p).mp (by simp)
  have howner : ∀ {q : Nat} {c : SizeClass},
      Function.update s.owner p .client q = .heap c ↔ s.owner q = .heap c := by
    intro q c
    by_cases hqp : q = p
    · subst hqp
      simp [hown]
    · rw [Function.update_of_ne hqp]
  refine ⟨?_, ?_, fun c => ?_, fun c => ?_, fun c q hq => ?_, fun x hx => ?_, h.liveNodup⟩
  · intro q hq
    by_cases hqp : q = p
    · subst hqp
      exact h.aligned q (by rw [hown]; simp)
    · exact h.aligned q (by simpa [hqp] using hq)
  · refine ⟨F', ?_, (List.nodup_cons.mp hFnd).2, fun q => ?_⟩
    · rw [hfpl, hmem1]
      exact hF'
    · by_cases hqp : q = p
      · subst hqp
        simp [(List.nodup_cons.mp hFnd).1]
      · have := hFmem q
        simp only [List.mem_cons, hqp, false_or] at this
        simp only [this, Function.update_of_ne hqp]
  · exact (h.blockList c).congr (by rw [hheap1]) (fun _ => howner) fun q _ => by rw [hmem1]
  · exact (h.nonFull c).congr (by rw [hheap1]) (fun _ => howner) fun q _ =>
      ⟨by rw [hmem1], by rw [blockUsed, blockUsed, hmem1]⟩
  · exact (h.block c q (howner.mp hq)).congr (by rw [hmem1]) (fun _ _ => Iff.rfl) fun i _ _ => by
      rw [hmem1]
  · obtain ⟨b, i, hb, hi, heq⟩ := h.liveSlot x hx
    exact ⟨b, i, howner.mpr hb, hi, heq⟩

theorem inv_freePage {s : HeapSystem} (h : s.HeapInv) {p : Nat} (hown : s.owner p = .client) :
    HeapInv { s with k := s.k.freePage p, owner := Function.update s.owner p .free } := by
  obtain ⟨F, hF, hFnd, hFmem⟩ := h.freeList
  obtain ⟨hal, hp0⟩ := h.aligned p (by rw [hown]; simp)
  have hpF : p ∉ F := by
    intro hin
    have := (hFmem p).mp hin
    rw [hown] at this
    cases this
  have hkeep : ∀ a, a ≠ p → (s.k.freePage p).mem a = s.k.mem a := fun a ha => by
    simp [KernelMem.freePage, write_mem_of_ne ha]
  have howner : ∀ {q : Nat} {c : SizeClass},
      Function.update s.owner p .free q = .heap c ↔ s.owner q = .heap c := by
    intro q c
    by_cases hqp : q = p
    · subst hqp
      simp [hown]
    · rw [Function.update_of_ne hqp]
  have hblk : ∀ {q : Nat} {c : SizeClass}, s.owner q = .heap c → q % pgSize = 0 ∧ q ≠ p := by
    intro q c hq
    refine ⟨(h.aligned q (by rw [hq]; simp)).1, ?_⟩
    rintro rfl
    rw [hown] at hq
    cases hq
  refine ⟨?_, ?_, fun c => ?_, fun c => ?_, fun c q hq => ?_, fun x hx => ?_, h.liveNodup⟩
  · intro q hq
    by_cases hqp : q = p
    · subst hqp
      exact ⟨hal, hp0⟩
    · exact h.aligned q (by simpa [hqp] using hq)
  · refine ⟨p :: F, ?_, List.nodup_cons.mpr ⟨hpF, hFnd⟩, fun q => ?_⟩
    · rw [chain_cons]
      refine ⟨rfl, hp0, ?_⟩
      have hlink : (s.k.freePage p).mem p = s.k.freePageList := by simp [KernelMem.freePage]
      rw [hlink]
      exact hF.congr fun q hq => hkeep q fun he => hpF (he ▸ hq)
    · by_cases hqp : q = p
      · subst hqp
        simp
      · simp only [List.mem_cons, hFmem q, Function.update_of_ne hqp, hqp, false_or]
  · refine (h.blockList c).congr rfl (fun _ => howner) fun q hq => hkeep _ ?_
    exact header_ne (r := 0) (hblk hq).1 hal (by omega) (by omega) (Or.inr (by omega))
  · refine (h.nonFull c).congr rfl (fun _ => howner) fun q hq => ⟨hkeep _ ?_, ?_⟩
    · exact header_ne (r := 0) (hblk hq).1 hal (by omega) (by omega) (Or.inr (by omega))
    · rw [blockUsed, blockUsed, hkeep q (hblk hq).2]
  · have hq' := howner.mp hq
    exact (h.block c q hq').congr (hkeep q (hblk hq').2) (fun _ _ => Iff.rfl) fun i hi _ =>
      hkeep _ (slotAddr_ne_header (o := 0) hal (hblk hq').1 hi (by omega))
  · obtain ⟨b, i, hb, hi, heq⟩ := h.liveSlot x hx
    exact ⟨b, i, howner.mpr hb, hi, heq⟩

/-! ## Client stores -/

/-- A word that a client may store to is no header word, no link of a free page and not
in a free slot. -/
theorem clientWord_frame {s : HeapSystem} (h : s.HeapInv) {a : Nat} (ha : s.ClientWord a) :
    (∀ p, s.owner p = .free → p ≠ a) ∧
    (∀ c p, s.owner p = .heap c → ∀ o, o < 24 → p + o ≠ a) ∧
    (∀ c p i, s.owner p = .heap c → i < c.capacity → (c, slotAddr c p i) ∉ s.live →
      slotAddr c p i ≠ a) := by
  -- the page of `a` and its holder
  obtain ⟨q, hq, hqal, hin⟩ : ∃ q, (s.owner q = .client ∨ ∃ c i, s.owner q = .heap c ∧
      i < c.capacity ∧ (c, slotAddr c q i) ∈ s.live ∧ slotAddr c q i ≤ a ∧
      a < slotAddr c q i + c.size) ∧ q % pgSize = 0 ∧ q ≤ a ∧ a < q + pgSize := by
    rcases ha.2 with ⟨⟨c, x⟩, hx, hle, hlt⟩ | hcl
    · obtain ⟨b, i, hb, hi, heq⟩ := h.liveSlot _ hx
      simp only at hb hi heq hle hlt
      subst heq
      have h1 := slotAddr_lt (b := b) hi
      have h2 := slotAddr_ge c b i
      exact ⟨b, Or.inr ⟨c, i, hb, hi, hx, hle, hlt⟩, (h.aligned b (by rw [hb]; simp)).1,
        by omega, by omega⟩
    · refine ⟨pageOf a, Or.inl hcl, (h.aligned _ (by rw [hcl]; simp)).1, ?_, ?_⟩
      · unfold pageOf
        omega
      · unfold pageOf pgSize
        omega
  have hsame : ∀ {p o : Nat}, p % pgSize = 0 → o < pgSize → p + o = a → p = q := by
    intro p o hp ho he
    exact page_unique hp hqal ⟨by omega, by omega⟩ hin
  refine ⟨?_, ?_, ?_⟩
  · rintro p hp rfl
    have := hsame (o := 0) (h.aligned p (by rw [hp]; simp)).1 (by decide) rfl
    subst this
    rcases hq with hq | ⟨c, i, hq, -⟩ <;> rw [hp] at hq <;> cases hq
  · rintro c p hp o ho rfl
    have := hsame (h.aligned p (by rw [hp]; simp)).1 (by unfold pgSize; omega) rfl
    subst this
    rcases hq with hq | ⟨c', i, hq, hi, -, hle, -⟩
    · rw [hp] at hq
      cases hq
    · have := slotAddr_ge c' p i
      omega
  · rintro c p i hp hi hnl rfl
    have hpal := (h.aligned p (by rw [hp]; simp)).1
    have h1 := slotAddr_lt (b := p) hi
    have h2 := slotAddr_ge c p i
    have h3 := c.size_pos
    have := hsame (p := p) (o := slotAddr c p i - p) hpal (by omega) (by omega)
    subst this
    rcases hq with hq | ⟨c', j, hq, hj, hlive, hle, hlt⟩
    · rw [hp] at hq
      cases hq
    · obtain rfl : c = c' := Owner.heap.inj (hp.symm.trans hq)
      rcases Nat.lt_trichotomy i j with hij | rfl | hij
      · have := slotAddr_sep (c := c) (b := p) hij
        omega
      · exact hnl hlive
      · have := slotAddr_sep (c := c) (b := p) hij
        omega

theorem inv_store {s : HeapSystem} (h : s.HeapInv) {a : Nat} (ha : s.ClientWord a) (v : Nat) :
    HeapInv { s with k := s.k.write a v } := by
  obtain ⟨hfree, hhdr, hslot⟩ := clientWord_frame h ha
  refine ⟨h.aligned, ?_, fun c => ?_, fun c => ?_, fun c p hp => ?_, h.liveSlot, h.liveNodup⟩
  · exact h.freeList.congr rfl (fun _ => Iff.rfl) fun p hp => write_mem_of_ne (hfree p hp)
  · exact (h.blockList c).congr rfl (fun _ => Iff.rfl) fun p hp =>
      write_mem_of_ne (hhdr c p hp 8 (by omega))
  · exact (h.nonFull c).congr rfl (fun _ => Iff.rfl) fun p hp =>
      ⟨write_mem_of_ne (hhdr c p hp 16 (by omega)),
        write_blockUsed_of_ne (hhdr c p hp 0 (by omega))⟩
  · exact (h.block c p hp).congr (write_mem_of_ne (hhdr c p hp 0 (by omega)))
      (fun _ _ => Iff.rfl) fun i hi hnl => write_mem_of_ne (hslot c p i hp hi hnl)

/-! ## Truncation without empty blocks -/

theorem truncateLoop_nonempty {c : SizeClass} {k : KernelMem} {B : List Nat} :
    ∀ {fuel prev block : Nat} {r : List Nat × KernelMem}, Chain k.nextBlock 0 block B →
      (∀ b ∈ B, k.blockUsed b ≠ 0) → truncateLoop c fuel k prev block = some r → r = ([], k) := by
  intro fuel
  induction fuel generalizing B with
  | zero =>
    intro prev block r _ _ hr
    unfold truncateLoop at hr
    split at hr
    · exact (Option.some.inj hr).symm
    · cases hr
  | succ fuel ih =>
    intro prev block r hB hne hr
    unfold truncateLoop at hr
    split at hr
    · exact (Option.some.inj hr).symm
    · next hblock =>
      obtain ⟨B', rfl, hB'⟩ := hB.uncons hblock
      have hu : k.blockEmpty block = false := by simp [blockEmpty, hne block (by simp)]
      simp only [hu, Bool.false_eq_true, if_false] at hr
      exact ih hB' (fun b hb => hne b (by simp [hb])) hr

/-! ## Every step, every run -/

theorem inv_alloc {s s' : HeapSystem} (h : s.HeapInv) {c : SizeClass}
    (hs : Step s (.alloc c) s') : s'.HeapInv := by
  by_cases hnil : (s.k.heap c).nextFreeBlock = 0
  · by_cases hp : s.k.freePageList = 0
    · -- out of pages: nothing happens
      have hk : s.k.alloc c = (0, none, s.k) := by
        simp [KernelMem.alloc, hnil, KernelMem.allocPage, hp]
      cases hs with
      | allocNull ha => rw [hk] at ha; cases ha; exact h
      | allocOld ha hne => rw [hk] at ha; cases ha; exact absurd rfl hne
      | allocNew ha => rw [hk] at ha; cases ha
    · have hpage : s.k.allocPage.1 = s.k.freePageList := by simp [KernelMem.allocPage, hp]
      have hadd := inv_addBlock h hnil hp
      have hnext : ((s.k.allocPage.2.addBlock c s.k.freePageList).heap c).nextFreeBlock ≠ 0 := by
        simpa [addBlock] using hp
      have hfrom := (inv_allocFrom hadd (c := c) hnext).2
      have hk : s.k.alloc c = (((s.k.allocPage.2.addBlock c s.k.freePageList).allocFrom c).1,
          some s.k.freePageList,
          ((s.k.allocPage.2.addBlock c s.k.freePageList).allocFrom c).2) := by
        simp [KernelMem.alloc, hnil, hpage, hp]
      cases hs with
      | allocNull ha =>
        rw [hk] at ha
        exact absurd (congrArg (fun r => r.2.1) ha) (by simp)
      | allocOld ha hne => rw [hk] at ha; cases ha
      | allocNew ha => rw [hk] at ha; cases ha; exact hfrom
  · obtain ⟨hne0, hfrom⟩ := inv_allocFrom h (c := c) hnil
    have hk : s.k.alloc c = ((s.k.allocFrom c).1, none, (s.k.allocFrom c).2) := by
      simp [KernelMem.alloc, hnil]
    cases hs with
    | allocNull ha =>
      rw [hk] at ha
      exact absurd (congrArg Prod.fst ha) hne0
    | allocOld ha hne => rw [hk] at ha; cases ha; exact hfrom
    | allocNew ha => rw [hk] at ha; cases ha

theorem inv_step {s s' : HeapSystem} {op : HeapOp} (h : s.HeapInv) (hok : s.TruncateOk op)
    (hs : Step s op s') : s'.HeapInv := by
  cases op with
  | alloc c => exact inv_alloc h hs
  | free c ptr =>
    cases hs with
    | free hlive hf => exact inv_free h hlive hf
  | truncate c =>
    cases hs with
    | truncate ht =>
      obtain ⟨B, hB, -, -⟩ := h.blockList c
      have hr := truncateLoop_nonempty hB (fun b hb => hok b (hB.onChain_iff.mpr hb)) ht
      cases hr
      simpa using h
  | allocPage =>
    cases hs with
    | allocPageNull ha =>
      by_cases hp : s.k.freePageList = 0
      · simp only [KernelMem.allocPage, hp, if_true, Prod.mk.injEq, true_and] at ha
        subst ha
        exact h
      · simp [KernelMem.allocPage, hp] at ha
    | allocPage ha hne =>
      by_cases hp : s.k.freePageList = 0
      · simp only [KernelMem.allocPage, hp, if_true, Prod.mk.injEq] at ha
        exact absurd ha.1.symm hne
      · have := inv_allocPage h hp
        rw [show s.k.freePageList = s.k.allocPage.1 by simp [KernelMem.allocPage, hp], ha] at this
        exact this
  | freePage p =>
    cases hs with
    | freePage hown => exact inv_freePage h hown
  | store a v =>
    cases hs with
    | store ha hv => exact inv_store h ha v

theorem initPages_spec {k : KernelMem} {start : Nat} (hk : k.freePageList = 0)
    (hstart : start ≠ 0) (n : Nat) :
    (k.initPages start n).heap = k.heap ∧
      ∃ F, Chain (k.initPages start n).mem 0 (k.initPages start n).freePageList F ∧ F.Nodup ∧
        ∀ p, p ∈ F ↔ ∃ i, i < n ∧ p = start + i * pgSize := by
  induction n with
  | zero => exact ⟨rfl, [], hk, List.nodup_nil, by simp⟩
  | succ n ih =>
    obtain ⟨hheap, F, hF, hFnd, hFmem⟩ := ih
    have hnew : start + n * pgSize ∉ F := by
      intro hin
      obtain ⟨i, hi, he⟩ := (hFmem _).mp hin
      unfold pgSize at he
      omega
    refine ⟨hheap, (start + n * pgSize) :: F, ?_, List.nodup_cons.mpr ⟨hnew, hFnd⟩, fun p => ?_⟩
    · rw [initPages, chain_cons]
      refine ⟨rfl, by omega, ?_⟩
      have hlink : ((k.initPages start n).freePage (start + n * pgSize)).mem
          (start + n * pgSize) = (k.initPages start n).freePageList := by
        simp [KernelMem.freePage]
      rw [hlink]
      refine hF.congr fun q hq => ?_
      have hqne : q ≠ start + n * pgSize := fun he => hnew (he ▸ hq)
      simp [KernelMem.freePage, write_mem_of_ne hqne]
    · rw [List.mem_cons, hFmem p]
      constructor
      · rintro (rfl | ⟨i, hi, rfl⟩)
        · exact ⟨n, by omega, rfl⟩
        · exact ⟨i, by omega, rfl⟩
      · rintro ⟨i, hi, rfl⟩
        rcases Nat.lt_succ_iff_lt_or_eq.mp hi with hi | rfl
        · exact Or.inr ⟨i, hi, rfl⟩
        · exact Or.inl rfl

theorem inv_boot (mem : Nat → Nat) {start n : Nat} (hstart : start ≠ 0)
    (hal : start % pgSize = 0) : (boot mem start n).HeapInv := by
  obtain ⟨hheap, F, hF, hFnd, hFmem⟩ := initPages_spec
    (k := ⟨mem, 0, 0, fun _ => ⟨0, 0, 0, 0⟩⟩) rfl hstart n
  have howner : ∀ p,
      (boot mem start n).owner p = .free ∨ (boot mem start n).owner p = .outside := by
    intro p
    unfold boot
    simp only
    split <;> simp
  have hnoheap : ∀ p c, (boot mem start n).owner p ≠ .heap c := by
    intro p c
    rcases howner p with h | h <;> rw [h] <;> simp
  refine ⟨?_, ⟨F, hF, hFnd, ?_⟩, fun c => ⟨[], ?_, List.nodup_nil, ?_⟩,
    fun c => ⟨[], ?_, List.nodup_nil, ?_⟩, fun c b hb => absurd hb (hnoheap b c), ?_,
    List.nodup_nil⟩
  · intro p hp
    simp only [boot] at hp
    split at hp
    · next h => exact ⟨h.1, by omega⟩
    · exact absurd rfl hp
  · intro p
    rw [hFmem p]
    simp only [boot]
    split
    · next h =>
      simp only [iff_true]
      refine ⟨(p - start) / pgSize, ?_, ?_⟩
      · unfold pgSize at *
        omega
      · unfold pgSize at *
        omega
    · next h =>
      simp only [reduceCtorEq, iff_false]
      rintro ⟨i, hi, rfl⟩
      refine h ⟨?_, by omega, ?_⟩
      · unfold pgSize at *
        omega
      · unfold pgSize at *
        omega
  · show ((initPages _ start n).heap c).headBlock = 0
    rw [hheap]
  · exact fun p => ⟨fun hp => absurd hp List.not_mem_nil, fun hp => absurd hp (hnoheap p c)⟩
  · show ((initPages _ start n).heap c).nextFreeBlock = 0
    rw [hheap]
  · exact fun p => ⟨fun hp => absurd hp List.not_mem_nil, fun hp => absurd hp.1 (hnoheap p c)⟩
  · intro x hx
    exact absurd hx List.not_mem_nil

/-- In every run in which no `truncate` meets an empty block, the heap is safe in every
state, whatever the operations of the eight allocators and of the other clients are. -/
theorem heap_safe_of_run {mem : Nat → Nat} {start n : Nat} (hstart : start ≠ 0)
    (hal : start % pgSize = 0) {ops : List HeapOp} {s : HeapSystem}
    (hrun : Run (Guarded Step TruncateOk) (boot mem start n) ops s) : s.HeapSafe :=
  heapSafe_of_inv (hrun.invariant (I := HeapInv) (fun _ _ _ hi hs => inv_step hi hs.1 hs.2)
    (inv_boot mem hstart hal))

/-! ## Truncation of an empty block -/

/-- One page, one allocation of 1024 bytes. -/
def oneAlloc : HeapSystem :=
  let s := boot (fun _ => 0) pgSize 1
  ⟨(s.k.alloc .s1024).2.2, Function.update s.owner pgSize (.heap .s1024), [(.s1024, 5120)]⟩

/-- The same after the allocation is freed: the block is empty. -/
def oneFree : HeapSystem :=
  ⟨(oneAlloc.k.free .s1024 5120).getD oneAlloc.k, oneAlloc.owner, []⟩

/-- The same after `truncate`. -/
def oneTruncate : HeapSystem :=
  ⟨((oneFree.k.truncate .s1024 1).getD ([], oneFree.k)).2,
    fun p => if p ∈ [pgSize] then .free else oneFree.owner p, []⟩

theorem oneAlloc_step : Step (boot (fun _ => 0) pgSize 1) (.alloc .s1024) oneAlloc := by
  have h : (boot (fun _ => 0) pgSize 1).k.alloc .s1024 =
      (5120, some pgSize, ((boot (fun _ => 0) pgSize 1).k.alloc .s1024).2.2) :=
    Prod.ext (by decide) (Prod.ext (by decide) rfl)
  exact Step.allocNew h

theorem oneFree_step : Step oneAlloc (.free .s1024 5120) oneFree :=
  Step.free (by decide) rfl

theorem oneTruncate_step : Step oneFree (.truncate .s1024) oneTruncate := by
  have h : oneFree.k.truncate .s1024 1 =
      some ([pgSize], ((oneFree.k.truncate .s1024 1).getD ([], oneFree.k)).2) := by
    rfl
  exact Step.truncate h

/-- `truncate` returns the page of an empty block to the pool and leaves the block on the
chain of non-full blocks: alloc, free and truncate on a pool of one page. -/
theorem truncate_unsafe :
    ¬ ∀ (mem : Nat → Nat) (start n : Nat) (ops : List HeapOp) (s : HeapSystem),
      start ≠ 0 → start % pgSize = 0 → Run Step (boot mem start n) ops s → s.HeapSafe := by
  intro hall
  have hrun : Run Step (boot (fun _ => 0) pgSize 1)
      [.alloc .s1024, .free .s1024 5120, .truncate .s1024] oneTruncate :=
    ((Run.single oneAlloc_step).snoc oneFree_step).snoc oneTruncate_step
  have hsafe := hall _ _ _ _ _ (by decide) (by decide) hrun
  have hon : OnChain oneTruncate.k.nextFreeBlock 0 (oneTruncate.k.heap .s1024).nextFreeBlock
      pgSize := by
    rw [show (oneTruncate.k.heap .s1024).nextFreeBlock = pgSize by decide]
    exact OnChain.here (by decide)
  have hin := (hsafe.nonFull .s1024 pgSize hon).1
  rw [show (oneTruncate.k.heap .s1024).headBlock = 0 by decide] at hin
  exact not_onChain_nil hin

theorem oneAlloc_truncateOk : oneAlloc.TruncateOk (.truncate .s1024) := by
  intro b hb
  have hblocks : Chain oneAlloc.k.nextBlock 0 (oneAlloc.k.heap .s1024).headBlock [pgSize] :=
    ⟨by decide, by decide, chain_nil.mpr (by decide)⟩
  rw [hblocks.onChain_iff, List.mem_singleton] at hb
  subst hb
  decide

/-- A `truncate` while the only block is in use meets the condition. -/
theorem heap_safe_after_truncate :
    ∃ s, Run (Guarded Step TruncateOk) (boot (fun _ => 0) pgSize 1)
      [.alloc .s1024, .truncate .s1024] s ∧ s.HeapSafe := by
  have htr : Step oneAlloc (.truncate .s1024) _ :=
    Step.truncate (show oneAlloc.k.truncate .s1024 1 = some ([], oneAlloc.k) from rfl)
  have halloc : Guarded Step TruncateOk (boot (fun _ => 0) pgSize 1) (.alloc .s1024) oneAlloc :=
    ⟨trivial, oneAlloc_step⟩
  have hrun : Run (Guarded Step TruncateOk) (boot (fun _ => 0) pgSize 1)
      [.alloc .s1024, .truncate .s1024] _ :=
    (Run.single halloc).snoc ⟨oneAlloc_truncateOk, htr⟩
  exact ⟨_, hrun, heap_safe_of_run (by decide) (by decide) hrun⟩

end HeapSystem

end CoroCore
