import CoroCore.Mm.LargeAlloc

/-!
# `operator new` on every size: `mm/allocator.cc`

A request of more than 1024 bytes becomes an `int` on its way to `large_mem_allocator`, and one of 0
bytes has no size class. When there is no memory, the blocks of the heap allocators that are empty
are given back to the pool, and the request is made again.

* `truncateAll_spec`: the truncation, also when blocks are empty;
* `sizeClassOf_smallest`: the class of a request is the smallest one that holds it;
* `allocates_iff`: when a request is answered by null or by as many bytes as it asked for.
-/

namespace CoroCore

open Lib KernelMem HeapSystem

namespace NewSystem

/-! ## The operator -/

/-- `__alloc`, of any `size_t`. -/
def allocSize (s : NewSystem) (size : Nat) : Option (Nat × NewSystem) :=
  if 1024 < size then s.allocInt (toInt size)
  else (sizeClassOf size).map fun c =>
    let r := s.hs.allocate c
    (r.1, { s with hs := r.2 })

/-- `default_alloc`, and `operator new` without `use_ptmalloc`. The block lists have at most `fuel`
blocks. -/
def operatorNew (fuel : Nat) (s : NewSystem) (size : Nat) : Option (Nat × NewSystem) :=
  (s.allocSize size).bind fun r =>
    if r.1 ≠ 0 then some r
    else (r.2.hs.truncateAll fuel).bind fun hs => { r.2 with hs := hs }.allocSize size

/-- `size` bytes from `ptr` on: a slot of the class of the request, or mapped pages of an
allocation. -/
inductive Region (s : NewSystem) (size ptr : Nat) : Prop
  | slot {c : SizeClass} {b i : Nat} : sizeClassOf size = some c → s.hs.owner b = .heap c →
      i < c.capacity → ptr = slotAddr c b i → size ≤ c.size → Region s size ptr
  | pages {l : Large} : l ∈ s.large → ptr = l.start + largeInfoSize →
      ptr + size ≤ l.start + l.count * pgSize →
      (∀ a, ptr ≤ a → a < ptr + size → s.vmap (pageOf a) ≠ 0) → Region s size ptr

/-- The call returns null or as many bytes as it is asked for. -/
def Served (r : Option (Nat × NewSystem)) (size : Nat) : Prop :=
  ∃ ptr s', r = some (ptr, s') ∧ (ptr = 0 ∨ Region s' size ptr)

/-- The call is answered, and the class of a small request is the smallest that fits. -/
def Allocates (fuel : Nat) (s : NewSystem) (size : Nat) : Prop :=
  Served (s.operatorNew fuel size) size ∧
    (1 ≤ size → size ≤ 1024 → ∃ c, sizeClassOf size = some c ∧ size ≤ c.size ∧
      ∀ d : SizeClass, size ≤ d.size → c.size ≤ d.size)

end NewSystem

namespace HeapSystem

variable {s s' t : HeapSystem} {c : SizeClass} {k : KernelMem}

/-! ## Truncation -/

/-- What changes when a block is given back. -/
structure GivenBack (c : SizeClass) (prev block : Nat) (k k' : KernelMem) : Prop where
  mem : ∀ a, a ≠ prev + 8 → a ≠ block → k'.mem a = k.mem a
  link : k'.mem block = k.freePageList
  first : k'.freePageList = block
  heap : ∀ d, d ≠ c → k'.heap d = k.heap d
  next : (k'.heap c).nextFreeBlock = (k.heap c).nextFreeBlock

theorem givenBack (c : SizeClass) (prev block : Nat) (k : KernelMem) :
    GivenBack c prev block k
      (let k := if prev = 0 then k.setHeap c { k.heap c with headBlock := k.nextBlock block }
        else k.write (prev + 8) (k.nextBlock block)
      let k := k.freePage block
      k.setHeap c { k.heap c with allocated := (k.heap c).allocated - pgSize }) := by
  dsimp only
  split
  · refine ⟨fun a _ hne => ?_, ?_, rfl, fun d hd => ?_, ?_⟩
    · simp [KernelMem.freePage, write_mem_of_ne hne]
    · simp [KernelMem.freePage]
    · simp [KernelMem.freePage, setHeap_heap_of_ne hd]
    · simp [KernelMem.freePage]
  · refine ⟨fun a hp hne => ?_, ?_, rfl, fun d hd => ?_, ?_⟩
    · simp [KernelMem.freePage, write_mem_of_ne hne, write_mem_of_ne hp]
    · simp [KernelMem.freePage]
    · simp [KernelMem.freePage, setHeap_heap_of_ne hd]
    · simp [KernelMem.freePage]

/-- The loop of `truncate` gives back the empty blocks. -/
theorem truncateLoop_spec (c : SizeClass) : ∀ (B : List Nat) (fuel prev block : Nat) (k : KernelMem)
    (F : List Nat), Chain k.nextBlock 0 block B → B.length ≤ fuel → B.Nodup →
    (∀ b ∈ B, b % pgSize = 0) → prev % pgSize = 0 → prev ∉ B →
    Chain k.mem 0 k.freePageList F → (∀ p ∈ F, p % pgSize = 0 ∧ p ∉ B) →
    ∃ k', truncateLoop c fuel k prev block = some (B.filter fun b => k.blockEmpty b, k') ∧
      Chain k'.mem 0 k'.freePageList ((B.filter fun b => k.blockEmpty b).reverse ++ F) ∧
      (∀ a, a ≠ prev + 8 → (∀ b ∈ B, a ≠ b ∧ a ≠ b + 8) → k'.mem a = k.mem a) ∧
      (∀ d, d ≠ c → k'.heap d = k.heap d) ∧
      (k'.heap c).nextFreeBlock = (k.heap c).nextFreeBlock
  | [], fuel, prev, block, k, F, hB, _, _, _, _, _, hF, _ => by
    obtain rfl : block = 0 := hB
    refine ⟨k, ?_, hF, fun _ _ _ => rfl, fun _ _ => rfl, rfl⟩
    unfold truncateLoop
    exact if_pos rfl
  | b :: B, 0, _, _, _, _, _, hfuel, _, _, _, _, _, _ => absurd hfuel (Nat.not_succ_le_zero _)
  | b :: B, fuel + 1, prev, block, k, F, hB, hfuel, hnodup, hmod, hprev, hout, hF, hFB => by
    obtain ⟨rfl, hne, hB⟩ := hB
    obtain ⟨hb, hnodup⟩ := List.nodup_cons.mp hnodup
    have hbmod := hmod block List.mem_cons_self
    have hmod' : ∀ b ∈ B, b % pgSize = 0 := fun b hb => hmod b (List.mem_cons_of_mem _ hb)
    have hfuel' : B.length ≤ fuel := Nat.le_of_succ_le_succ hfuel
    rw [truncateLoop, if_neg hne]
    dsimp only
    by_cases hempty : k.blockEmpty block = true
    · have hback := givenBack c prev block k
      rw [if_pos hempty, List.filter_cons_of_pos hempty]
      dsimp only at hback
      generalize hk1 : (KernelMem.freePage _ block).setHeap c _ = k1 at hback ⊢
      have hblocks : ∀ x ∈ B, x ≠ prev + 8 ∧ x ≠ block ∧ x + 8 ≠ prev + 8 ∧ x + 8 ≠ block :=
        fun x hx => by
          have hxb : x ≠ block := fun h => hb (h ▸ hx)
          have hxp : x ≠ prev := fun h => hout (h ▸ List.mem_cons_of_mem _ hx)
          have := hmod' x hx
          simp only [pgSize] at *
          omega
      have hfilter : B.filter (fun b => k1.blockEmpty b) = B.filter fun b => k.blockEmpty b :=
        List.filter_congr fun x hx => by
          rw [blockEmpty, blockEmpty, blockUsed, blockUsed,
            hback.mem x (hblocks x hx).1 (hblocks x hx).2.1]
      have hF1 : Chain k1.mem 0 k1.freePageList (block :: F) := by
        refine ⟨hback.first, hne, ?_⟩
        rw [hback.link]
        refine hF.congr fun p hp => hback.mem p ?_ ?_
        · have := (hFB p hp).1
          simp only [pgSize] at *
          omega
        · rintro rfl
          exact (hFB p hp).2 List.mem_cons_self
      obtain ⟨k', hk', hF', hmem, hheap, hnext⟩ := truncateLoop_spec c B fuel prev
        (k.nextBlock block) k1 (block :: F) (hB.congr fun x hx =>
          hback.mem _ (hblocks x hx).2.2.1 (hblocks x hx).2.2.2) hfuel' hnodup hmod' hprev
        (fun h => hout (List.mem_cons_of_mem _ h)) hF1 fun p hp => by
          rcases List.mem_cons.mp hp with rfl | hp
          · exact ⟨hbmod, hb⟩
          · exact ⟨(hFB p hp).1, fun hin => (hFB p hp).2 (List.mem_cons_of_mem _ hin)⟩
      rw [hfilter] at hk' hF'
      refine ⟨k', by rw [hk']; rfl, ?_, fun a hp ha => ?_, fun d hd => ?_, hnext.trans hback.next⟩
      · rwa [List.reverse_cons, List.append_assoc, List.singleton_append]
      · rw [hmem a hp fun b hb => ha b (List.mem_cons_of_mem _ hb)]
        exact hback.mem a hp (ha block List.mem_cons_self).1
      · rw [hheap d hd, hback.heap d hd]
    · rw [if_neg hempty, List.filter_cons_of_neg hempty]
      obtain ⟨k', hk', hF', hmem, hheap, hnext⟩ := truncateLoop_spec c B fuel block
        (k.nextBlock block) k F hB hfuel' hnodup hmod' hbmod hb hF fun p hp =>
          ⟨(hFB p hp).1, fun hin => (hFB p hp).2 (List.mem_cons_of_mem _ hin)⟩
      refine ⟨k', hk', hF', fun a _ ha => ?_, hheap, hnext⟩
      exact hmem a (ha block List.mem_cons_self).2 fun b hb => ha b (List.mem_cons_of_mem _ hb)

/-- A block of one of the classes that is empty. -/
def EmptyBlock (s : HeapSystem) (C : List SizeClass) (p : Nat) : Prop :=
  (∃ c ∈ C, s.owner p = .heap c) ∧ s.k.blockUsed p = 0

theorem EmptyBlock.heap {C : List SizeClass} {p : Nat} (h : EmptyBlock s C p) :
    ∃ c, s.owner p = .heap c :=
  h.1.imp fun _ hc => hc.2

/-- The empty blocks of the classes in `C` were given back. -/
structure Truncated (s s' : HeapSystem) (C : List SizeClass) : Prop where
  freeList : FreeListOk s'.k s'.owner
  freed : ∀ p, EmptyBlock s C p → s'.owner p = .free
  kept : ∀ p, ¬ EmptyBlock s C p → s'.owner p = s.owner p
  word : ∀ p d, s.owner p = .heap d → d ∉ C → ∀ o < pgSize, s'.k.mem (p + o) = s.k.mem (p + o)
  heap : ∀ d, d ∉ C → s'.k.heap d = s.k.heap d
  next : ∀ d, (s'.k.heap d).nextFreeBlock = (s.k.heap d).nextFreeBlock

/-- What truncation relies on; no block list is longer than `fuel`. -/
structure Truncatable (fuel : Nat) (s : HeapSystem) (C : List SizeClass) : Prop where
  aligned : ∀ p, s.owner p ≠ .outside → p % pgSize = 0 ∧ p ≠ 0
  freeList : FreeListOk s.k s.owner
  blockList : ∀ c ∈ C, BlockListOk s.k s.owner c
  short : ∀ B : List Nat, B.Nodup → (∀ p ∈ B, s.owner p ≠ .outside) → B.length ≤ fuel

theorem truncated_spec {fuel : Nat} {C : List SizeClass} (h : Truncatable fuel s C) (hc : c ∈ C) :
    ∃ s', truncated fuel s c = some s' ∧ Truncated s s' [c] := by
  obtain ⟨B, hB, hBnodup, hBmem⟩ := h.blockList c hc
  obtain ⟨F, hF, hFnodup, hFmem⟩ := h.freeList
  have hBout : ∀ b ∈ B, s.owner b ≠ .outside := fun b hb => by rw [(hBmem b).mp hb]; exact nofun
  have hFB : ∀ p ∈ F, p % pgSize = 0 ∧ p ∉ B := fun p hp => by
    have hfree := (hFmem p).mp hp
    refine ⟨(h.aligned p (by rw [hfree]; exact nofun)).1, fun hin => ?_⟩
    have hheap := (hBmem p).mp hin
    rw [hfree] at hheap
    cases hheap
  have h0 : 0 ∉ B := fun hin => hB.ne_nil hin rfl
  obtain ⟨k', hk', hF', hmem, hheap, hnext⟩ := truncateLoop_spec c B fuel 0 _ s.k F hB
    (h.short B hBnodup hBout) hBnodup (fun b hb => (h.aligned b (hBout b hb)).1) rfl h0 hF hFB
  have hEmpty : ∀ p, p ∈ B.filter (fun b => s.k.blockEmpty b) ↔ EmptyBlock s [c] p := fun p => by
    simp [EmptyBlock, hBmem, blockEmpty]
  refine ⟨_, by rw [truncated, KernelMem.truncate, hk']; rfl,
    ⟨⟨_, hF', ?_, fun p => ?_⟩, fun p hp => if_pos ((hEmpty p).mpr hp),
      fun p hp => if_neg (mt (hEmpty p).mp hp), fun p d hp hd o ho => ?_,
      fun d hd => hheap d (by simpa using hd), fun d => ?_⟩⟩
  · refine List.Nodup.append (List.nodup_reverse.mpr (hBnodup.filter _)) hFnodup ?_
    intro p hp hpF
    exact (hFB p hpF).2 (List.mem_of_mem_filter (List.mem_reverse.mp hp))
  · dsimp only
    rw [List.mem_append, List.mem_reverse, hFmem]
    split
    · rename_i hin
      exact iff_of_true (.inl hin) rfl
    · rename_i hin
      exact or_iff_right hin
  · -- the words of other blocks are in other pages
    have hpB : p ∉ B := fun hin => by
      have heq := (hBmem p).mp hin
      rw [hp] at heq
      exact hd (Owner.heap.inj heq ▸ List.mem_singleton_self c)
    have hpal := h.aligned p (by rw [hp]; exact nofun)
    refine hmem _ (by simp only [pgSize] at *; omega) fun b hb => ?_
    have hbal := (h.aligned b (hBout b hb)).1
    have hne : b ≠ p := fun heq => hpB (heq ▸ hb)
    simp only [pgSize] at *
    omega
  · rcases eq_or_ne d c with rfl | hd
    · exact hnext
    · rw [hheap d hd]

theorem Truncated.refl (hfree : FreeListOk s.k s.owner) : Truncated s s [] := by
  have hno : ∀ p, ¬ EmptyBlock s [] p := by
    rintro p ⟨⟨c, hc, -⟩, -⟩
    cases hc
  exact ⟨hfree, fun p hp => absurd hp (hno p), fun _ _ => rfl, fun _ _ _ _ _ _ => rfl,
    fun _ _ => rfl, fun _ => rfl⟩

/-- Pages that are not given back keep their holder and, outside the truncated classes, their
use. -/
theorem Truncated.owner_heap {C : List SizeClass} {d : SizeClass} {p : Nat} (h : Truncated s s' C)
    (hd : d ∉ C) : s'.owner p = .heap d ↔ s.owner p = .heap d := by
  by_cases hp : EmptyBlock s C p
  · obtain ⟨⟨c, hc, howner⟩, -⟩ := id hp
    rw [h.freed p hp, howner]
    refine iff_of_false nofun fun heq => hd (Owner.heap.inj heq ▸ hc)
  · rw [h.kept p hp]

theorem Truncated.cons {C : List SizeClass} (h : Truncated s s' [c]) (h' : Truncated s' t C)
    (hc : c ∉ C) : Truncated s t (c :: C) := by
  have hout : ∀ {d}, d ∈ C → d ∉ [c] := fun hd heq => hc (List.mem_singleton.mp heq ▸ hd)
  have hused : ∀ {p d}, s.owner p = .heap d → d ∈ C → s'.k.blockUsed p = s.k.blockUsed p :=
    fun hp hd => congrArg infoUsed (h.word _ _ hp (hout hd) 0 (by decide))
  refine ⟨h'.freeList, fun p hp => ?_, fun p hp => ?_, fun p d hp hd o ho => ?_, fun d hd => ?_,
    fun d => (h'.next d).trans (h.next d)⟩
  · obtain ⟨⟨d, hd, hown⟩, h0⟩ := hp
    rcases List.mem_cons.mp hd with rfl | hd
    · have hfree := h.freed p ⟨⟨d, List.mem_singleton_self d, hown⟩, h0⟩
      rw [h'.kept p, hfree]
      rintro ⟨⟨e, -, he⟩, -⟩
      rw [hfree] at he
      cases he
    · exact h'.freed p ⟨⟨d, hd, (h.owner_heap (hout hd)).mpr hown⟩, (hused hown hd).trans h0⟩
  · rw [h'.kept p, h.kept p]
    · rintro ⟨⟨d, hd, hown⟩, h0⟩
      exact hp ⟨⟨d, List.mem_singleton.mp hd ▸ List.mem_cons_self, hown⟩, h0⟩
    · rintro ⟨⟨d, hd, hown⟩, h0⟩
      have hown' := (h.owner_heap (hout hd)).mp hown
      exact hp ⟨⟨d, List.mem_cons_of_mem _ hd, hown'⟩, (hused hown' hd).symm.trans h0⟩
  · obtain ⟨hdc, hdC⟩ := not_or.mp (mt List.mem_cons.mpr hd)
    have hd' : d ∉ [c] := fun heq => hdc (List.mem_singleton.mp heq)
    rw [h'.word p d ((h.owner_heap hd').mpr hp) hdC o ho, h.word p d hp hd' o ho]
  · obtain ⟨hdc, hdC⟩ := not_or.mp (mt List.mem_cons.mpr hd)
    rw [h'.heap d hdC, h.heap d fun heq => hdc (List.mem_singleton.mp heq)]

theorem Truncatable.tail {fuel : Nat} {C : List SizeClass} (h : Truncatable fuel s (c :: C))
    (ht : Truncated s s' [c]) (hc : c ∉ C) : Truncatable fuel s' C := by
  have hout : ∀ p, s'.owner p ≠ .outside → s.owner p ≠ .outside := fun p hp => by
    by_cases hempty : EmptyBlock s [c] p
    · obtain ⟨⟨d, -, hown⟩, -⟩ := hempty
      rw [hown]
      exact nofun
    · rwa [ht.kept p hempty] at hp
  refine ⟨fun p hp => h.aligned p (hout p hp), ht.freeList, fun d hd => ?_,
    fun B hB hin => h.short B hB fun p hp => hout p (hin p hp)⟩
  have hd' : d ∉ [c] := fun heq => hc (List.mem_singleton.mp heq ▸ hd)
  exact (h.blockList d (List.mem_cons_of_mem _ hd)).congr (by rw [ht.heap d hd'])
    (fun p => ht.owner_heap hd') fun p hp => ht.word p d hp hd' 8 (by decide)

theorem truncateAll_go {fuel : Nat} : ∀ {C : List SizeClass} {s : HeapSystem}, C.Nodup →
    Truncatable fuel s C → ∃ s', C.foldlM (truncated fuel) s = some s' ∧ Truncated s s' C
  | [], s, _, h => ⟨s, rfl, Truncated.refl h.freeList⟩
  | c :: C, s, hnodup, h => by
    obtain ⟨hc, hnodup⟩ := List.nodup_cons.mp hnodup
    obtain ⟨s1, h1, ht1⟩ := truncated_spec h List.mem_cons_self
    obtain ⟨s2, h2, ht2⟩ := truncateAll_go hnodup (h.tail ht1 hc)
    exact ⟨s2, by rw [List.foldlM_cons, h1]; exact h2, ht1.cons ht2 hc⟩

def allClasses : List SizeClass := [.s8, .s16, .s32, .s64, .s128, .s256, .s512, .s1024]

/-- All empty blocks are given back. -/
theorem truncateAll_spec {fuel : Nat} (h : Truncatable fuel s allClasses) :
    ∃ s', s.truncateAll fuel = some s' ∧ Truncated s s' allClasses :=
  truncateAll_go (by decide) h

end HeapSystem

/-! ## The size class -/

/-- The slots of the chosen allocator are the smallest that hold the request. -/
theorem sizeClassOf_smallest {size : Nat} (h0 : 1 ≤ size) (h : size ≤ 1024) :
    ∃ c, sizeClassOf size = some c ∧ size ≤ c.size ∧ ∀ d : SizeClass, size ≤ d.size →
    c.size ≤ d.size := by
  have hall : ((List.range 1025).all fun k => k = 0 || (sizeClassOf k).any fun c =>
      k ≤ c.size ∧ allClasses.all fun d => d.size < k || c.size ≤ d.size) = true := by
    decide +kernel
  have hk := List.all_eq_true.mp hall size (List.mem_range.mpr (by omega))
  rw [decide_eq_false (by omega), Bool.false_or, Option.any_eq_true] at hk
  obtain ⟨c, hc, hle⟩ := hk
  obtain ⟨hfit, hmin⟩ := of_decide_eq_true hle
  refine ⟨c, hc, hfit, fun d hd => ?_⟩
  have hd' := List.all_eq_true.mp hmin d (by cases d <;> decide)
  rw [Bool.or_eq_true, decide_eq_true_eq, decide_eq_true_eq] at hd'
  omega

theorem sizeClassOf_zero : sizeClassOf 0 = none := by
  decide +kernel

/-! ## The `int` of a request -/

namespace NewSystem

variable {s s' t : NewSystem} {start n fuel size : Nat}

theorem toInt_eq (m : Nat) :
    toInt m = if (m : Int) % 2 ^ 32 < 2 ^ 31 then (m : Int) % 2 ^ 32
    else (m : Int) % 2 ^ 32 - 2 ^ 32 := by
  exact Int.bmod_def m (2 ^ 32)

theorem toInt_range (m : Nat) : -2 ^ 31 ≤ toInt m ∧ toInt m < 2 ^ 31 := by
  rw [toInt_eq]
  split <;> omega

/-- Above the range of `int`, the size is reduced. -/
theorem toInt_le (m : Nat) (h : 2 ^ 31 ≤ m) : toInt m + 2 ^ 32 ≤ m := by
  rw [toInt_eq]
  split <;> omega

/-- Sizes just below zero wrap around twice, and others come out below zero. -/
theorem intPageCount_floor {x : Int} (hlow : -2 ^ 31 ≤ x) (hhigh : x < 2 ^ 31) :
    intPageCount x = (x + 4111) / 4096 := by
  have hsum : ((toSize x + largeInfoSize + pgSize - 1) % 2 ^ 64 / pgSize : Nat) =
      if -4111 ≤ x then (x + 4111) / 4096 else 2 ^ 52 + (x + 4111) / 4096 := by
    simp only [toSize, largeInfoSize, pgSize]
    split <;> omega
  rw [intPageCount, toInt_eq, hsum]
  by_cases hwrap : -4111 ≤ x
  · rw [if_pos hwrap, if_pos (by omega)]
    omega
  · rw [if_neg hwrap, if_neg (by omega)]
    omega

/-- Nothing is mapped for a count of pages that is not positive. -/
theorem allocInt_nonpos {x : Int} (h : Above s) (hx : intPageCount x ≤ 0) :
    s.allocInt x = none := by
  have hzero : (intPageCount x).toNat = 0 := Int.toNat_of_nonpos hx
  have hnone : s.vmap s.vmemTop = 0 := h _ le_rfl
  rw [allocInt]
  dsimp only
  rw [hzero, mapLoop, Option.bind_some]
  dsimp only
  rw [if_pos (by simpa using hx), if_pos hnone]

/-! ## Small requests -/

end NewSystem

namespace HeapSystem

variable {s : HeapSystem} {c : SizeClass}

theorem allocate_live (h : (s.allocate c).1 ≠ 0) :
    (c, (s.allocate c).1) ∈ (s.allocate c).2.live := by
  rw [allocate] at h ⊢
  split
  · exact List.mem_cons_self
  · rename_i hk
    rw [hk] at h
    dsimp only at h ⊢
    split
    · rename_i h0
      rw [if_pos h0] at h
      exact absurd rfl h
    · exact List.mem_cons_self

/-- A request is answered by null or by a slot. -/
theorem allocate_slot (h : s.HeapInv) (hptr : (s.allocate c).1 ≠ 0) :
    ∃ b i, (s.allocate c).2.owner b = .heap c ∧ i < c.capacity ∧
      (s.allocate c).1 = slotAddr c b i :=
  (inv_alloc h (allocate_step s c)).liveSlot _ (allocate_live hptr)

theorem allocate_null_next (h : s.HeapInv) (h0 : (s.allocate c).1 = 0) :
    (s.k.heap c).nextFreeBlock = 0 := by
  by_contra hnext
  have hne := (inv_allocFrom h hnext).1
  have hk : s.k.alloc c = ((s.k.allocFrom c).1, none, (s.k.allocFrom c).2) := by
    simp [KernelMem.alloc, hnext]
  simp only [allocate, hk, hne, if_false] at h0

/-- Without a block that has a free slot, the slot is the first one of a new block. -/
theorem allocate_fresh (hnext : (s.k.heap c).nextFreeBlock = 0) (hptr : (s.allocate c).1 ≠ 0) :
    ∃ b, (s.allocate c).2.owner b = .heap c ∧ (s.allocate c).1 = slotAddr c b 0 := by
  by_cases hp : s.k.freePageList = 0
  · have hk : s.k.alloc c = (0, none, s.k) := by
      simp [KernelMem.alloc, hnext, KernelMem.allocPage, hp]
    simp [allocate, hk] at hptr
  · have hpage : s.k.allocPage.1 = s.k.freePageList := by simp [KernelMem.allocPage, hp]
    generalize hk1 : s.k.allocPage.2 = k1 at *
    generalize hb : s.k.freePageList = b at *
    have hword : (k1.addBlock c b).mem b = packInfo c.size 0 0 := by
      have hin := addBlock_mem_inside (c := c) (k := k1) (p := b) (o := 0) (by decide) (by decide)
      simpa [initWord] using hin
    have hused : (k1.addBlock c b).blockUsed b = 0 := by
      rw [blockUsed, hword, infoUsed_packInfo, Nat.zero_mod]
    have hfirst : (k1.addBlock c b).blockNextFreeIndex b = 0 := by
      rw [blockNextFreeIndex, hword, infoNextFreeIndex_packInfo, Nat.zero_mod]
    have hslot := allocFrom_eq (c := c) (k := k1.addBlock c b) (b := b) (by simp [addBlock])
      (by rw [hused]; exact c.capacity_pos.ne) hfirst (by rw [hused]; decide)
    have hk : s.k.alloc c = (((k1.addBlock c b).allocFrom c).1, some b,
        ((k1.addBlock c b).allocFrom c).2) := by
      simp [KernelMem.alloc, hnext, hpage, hp, hk1]
    refine ⟨b, ?_, ?_⟩
    · simp [allocate, hk]
    · simp [allocate, hk, hslot]

end HeapSystem

namespace NewSystem

variable {s s' t : NewSystem} {start n fuel size lo hi : Nat} {C : List SizeClass}

/-! ## Large requests -/

/-- A large request that is answered by null leaves the heap as it was. -/
theorem allocInt_null {x : Int} (h : VmInv start n s) (hr : s.allocInt x = some (0, t)) :
    VmInv start n t ∧ ∃ lo hi, Frame lo hi s t := by
  rw [allocInt] at hr
  dsimp only at hr
  obtain ⟨⟨m, u⟩, hl, hr⟩ := Option.bind_eq_some_iff.mp hr
  obtain ⟨hvm, hf, -⟩ := mapLoop_spec h hl
  dsimp only at hvm hf hr
  split at hr
  · split at hr
    · cases hr
    · have h0 := congrArg Prod.fst (Option.some.inj hr)
      simp [largeInfoSize] at h0
  · split at hr
    · obtain ⟨u', hu, heq⟩ := Option.map_eq_some_iff.mp hr
      obtain rfl := congrArg Prod.snd heq
      obtain ⟨hvm', hf'⟩ := kvmunmap_spec hvm hu
      refine ⟨hvm', 0, s.vmemTop + ((intPageCount x).toNat + m) * pgSize, ?_⟩
      rw [Nat.add_mul]
      exact (hf.mono fun v hv => by omega).trans (hf'.mono fun v hv => by omega)
    · obtain rfl := congrArg Prod.snd (Option.some.inj hr)
      exact ⟨hvm, _, _, hf⟩

/-- The number of empty blocks. -/
noncomputable def emptyBlocks (s : NewSystem) : Nat := {p | EmptyBlock s.hs allClasses p}.ncard

theorem Pool.truncatable (h : Pool start n s) (hinv : s.hs.HeapInv) (hfuel : n ≤ fuel) :
    Truncatable fuel s.hs C := by
  refine ⟨h.aligned, h.freeList, fun c _ => hinv.blockList c, fun B hB hin => ?_⟩
  have hle := h.ncard_le (P := B.toFinset) fun p hp => hin p (List.mem_toFinset.mp hp)
  rw [Set.ncard_coe_finset, List.toFinset_card_of_nodup hB] at hle
  exact hle.trans hfuel

theorem Pool.truncated {hs : HeapSystem} (h : Pool start n s) (ht : Truncated s.hs hs C) :
    Pool start n { s with hs := hs } := by
  have hout : ∀ p, hs.owner p ≠ .outside → s.hs.owner p ≠ .outside := fun p hp => by
    by_cases hempty : EmptyBlock s.hs C p
    · obtain ⟨c, hc⟩ := hempty.heap
      rw [hc]
      exact nofun
    · rwa [ht.kept p hempty] at hp
  have hclient : ∀ p, s.hs.owner p = .client → hs.owner p = .client := fun p hp => by
    rw [ht.kept p, hp]
    intro hempty
    obtain ⟨c, hc⟩ := hempty.heap
    rw [hp] at hc
    cases hc
  exact ⟨fun p hp => h.aligned p (hout p hp), ht.freeList, fun p hp => h.range p (hout p hp),
    fun v hv => (h.data v hv).imp (hclient _) id, fun l i hl => (h.table l i hl).imp (hclient _) id⟩

/-- Every empty block is one more free page. -/
theorem freeCount_truncated {hs : HeapSystem} (h : Pool start n s)
    (ht : Truncated s.hs hs allClasses) :
    freeCount { s with hs := hs } = s.freeCount + s.emptyBlocks := by
  have hfin : ∀ P : Set Nat, (∀ p ∈ P, s.hs.owner p ≠ .outside) → P.Finite := fun P hP =>
    (Finset.finite_toSet (Finset.range (start + n * pgSize))).subset fun p hp =>
      Finset.mem_coe.mpr (Finset.mem_range.mpr (h.range p (hP p hp)).2)
  have hfree : ∀ p, s.hs.owner p = .free → ¬ EmptyBlock s.hs allClasses p := fun p hp hempty => by
    obtain ⟨c, hc⟩ := hempty.heap
    rw [hp] at hc
    cases hc
  have hset : {p | hs.owner p = .free} =
      {p | s.hs.owner p = .free} ∪ {p | EmptyBlock s.hs allClasses p} := by
    ext p
    rw [Set.mem_union, Set.mem_ofPred_eq, Set.mem_ofPred_eq, Set.mem_ofPred_eq]
    by_cases hempty : EmptyBlock s.hs allClasses p
    · exact iff_of_true (ht.freed p hempty) (.inr hempty)
    · rw [ht.kept p hempty, or_iff_left hempty]
  have hfin1 : {p | s.hs.owner p = .free}.Finite := hfin _ fun p hp => by
    rw [show s.hs.owner p = .free from hp]
    exact nofun
  have hfin2 : {p | EmptyBlock s.hs allClasses p}.Finite := hfin _ fun p hp => by
    obtain ⟨c, hc⟩ := EmptyBlock.heap hp
    rw [hc]
    exact nofun
  have hdisj : Disjoint {p | s.hs.owner p = .free} {p | EmptyBlock s.hs allClasses p} :=
    Set.disjoint_left.mpr hfree
  rw [freeCount, hset, Set.ncard_union_eq hdisj hfin1 hfin2]
  rfl

/-- Truncation gives back the empty blocks and nothing else. -/
theorem Ready.truncateAll (h : Ready start n s) (hinv : s.hs.HeapInv) (hfuel : n ≤ fuel) :
    ∃ hs, s.hs.truncateAll fuel = some hs ∧ Truncated s.hs hs allClasses ∧
      Ready start n { s with hs := hs } ∧
      freeCount { s with hs := hs } = s.freeCount + s.emptyBlocks := by
  obtain ⟨hs, hrun, ht⟩ := truncateAll_spec (h.truncatable hinv hfuel)
  exact ⟨hs, hrun, ht, ⟨h.truncated ht, h.above, h.whole, h.top⟩, freeCount_truncated h.toPool ht⟩

theorem emptyBlocks_null (hr : Restored s t) (hf : Frame lo hi s t) (hpool : Pool start n t) :
    t.emptyBlocks = s.emptyBlocks := by
  have hown : ∀ p c, t.hs.owner p = .heap c ↔ s.hs.owner p = .heap c := by
    refine fun p c => ⟨fun hp => ?_, hf.block p c⟩
    by_cases hfree : s.hs.owner p = .free
    · rcases hr.free p hfree with hfree' | ⟨hne, l, i, rfl⟩
      · rw [hp] at hfree'
        cases hfree'
      · rw [(hpool.table l i hne).1] at hp
        cases hp
    · rwa [hr.owner p hfree] at hp
  have hempty : ∀ p, EmptyBlock t.hs allClasses p ↔ EmptyBlock s.hs allClasses p := by
    intro p
    simp only [EmptyBlock, hown]
    refine and_congr_right ?_
    rintro ⟨c, -, hp⟩
    have hused : t.hs.k.blockUsed p = s.hs.k.blockUsed p :=
      congrArg infoUsed (hf.blockWord p c hp 0 (by decide))
    rw [hused]
  simp only [emptyBlocks, hempty]

/-- The number of pages for a request. -/
def requestPages (size : Nat) : Nat := (intPageCount (toInt size)).toNat

theorem requestPages_bounds (size : Nat) (hpos : 0 < intPageCount (toInt size)) :
    0 < requestPages size ∧ requestPages size ≤ 2 ^ 19 + 1 ∧
      (requestPages size : Int) * 4096 ≤ toInt size + 4111 := by
  obtain ⟨hlow, hhigh⟩ := toInt_range size
  rw [requestPages]
  rw [intPageCount_floor hlow hhigh] at hpos ⊢
  omega

theorem requestPages_of_lt (h : size < 2 ^ 31) :
    0 < intPageCount (toInt size) ∧ size + largeInfoSize ≤ requestPages size * pgSize := by
  obtain ⟨hlow, hhigh⟩ := toInt_range size
  rw [requestPages, intPageCount_floor hlow hhigh, toInt_of_lt h]
  simp only [largeInfoSize, pgSize]
  omega

theorem Ready.largeEnds (h : Ready start n s) (hn : n ≤ 2 ^ 15)
    (hpos : 0 < intPageCount (toInt size)) :
    LargeEnds start n s (requestPages size) (s.allocInt (toInt size)) := by
  obtain ⟨-, hle, -⟩ := requestPages_bounds size hpos
  have htop := h.top
  refine LargeEnds.of_pool h.toPool (hn.trans_lt (by decide)) h.above hpos ?_
  change s.vmemTop + requestPages size * pgSize ≤ maxVirt
  simp only [pgSize, vmemStart, maxVirt] at *
  omega

theorem size_le (c : SizeClass) : c.size ≤ 1024 := by
  cases c <;> decide

/-- The mapped pages hold the request if its size is an `int`. -/
theorem LargeMapped.region_iff (h : Ready start n s) (hm : LargeMapped s s' (requestPages size))
    (hsize : 1024 < size) (hpos : 0 < intPageCount (toInt size)) :
    Region s' size (s.vmemTop + largeInfoSize) ↔ size < 2 ^ 31 := by
  have hwhole := h.whole
  obtain ⟨hcount, -, hle⟩ := requestPages_bounds size hpos
  constructor
  · intro hregion
    cases hregion with
    | @slot c b i _ _ _ _ hfit => exact absurd (hfit.trans (size_le c)) hsize.not_ge
    | pages _ _ _ hmap =>
      by_contra hlarge
      have hwrap := toInt_le size (Nat.le_of_not_lt hlarge)
      -- the first byte behind the pages
      have hpage : pageOf (s.vmemTop + requestPages size * pgSize) =
          s.vmemTop + requestPages size * pgSize := by
        simp only [pageOf, pgSize] at *
        omega
      refine hmap (s.vmemTop + requestPages size * pgSize) ?_ ?_ ?_
      · simp only [largeInfoSize, pgSize]
        omega
      · simp only [largeInfoSize, pgSize]
        omega
      · rw [hpage, hm.other _ fun i hi => ?_]
        · exact h.above _ (Nat.le_add_right _ _)
        · simp only [pgSize]
          omega
  · intro hlt
    obtain ⟨-, hfit⟩ := requestPages_of_lt hlt
    refine .pages (hm.large ▸ List.mem_cons_self) rfl (by dsimp only; omega) fun a hge hlt' => ?_
    have hi : (a - s.vmemTop) / pgSize < requestPages size := by
      simp only [largeInfoSize, pgSize] at *
      omega
    have hpage : pageOf a = s.vmemTop + (a - s.vmemTop) / pgSize * pgSize := by
      simp only [pageOf, largeInfoSize, pgSize] at *
      omega
    rw [hpage]
    exact hm.mapped _ hi

/-! ## Both tries -/

/-- The pages that `i` pages take when there are tables for `j` pages. -/
def costAfter (s : NewSystem) (j i : Nat) : Nat :=
  i + (s.absent (tablesOf s.vmemTop i \ tablesOf s.vmemTop j)).card

/-- There are pages enough for a large request, and its size is an `int`; or it is a data page that
is missing, and so it is again with the pages of the empty blocks, if those are not enough. -/
def Answered (s : NewSystem) (size : Nat) : Prop :=
  mapCost s s.vmemTop (requestPages size) ≤ s.freeCount ∧ size < 2 ^ 31 ∨
    ∃ j < requestPages size, s.freeCount = mapCost s s.vmemTop j ∧
      (s.costAfter j (requestPages size) ≤ j + s.emptyBlocks ∧ size < 2 ^ 31 ∨
        ∃ i < requestPages size, j + s.emptyBlocks = s.costAfter j i)

theorem served_none : ¬ Served none size := by
  rintro ⟨ptr, s', h, -⟩
  cases h

theorem served_region {ptr : Nat} (hptr : ptr ≠ 0) :
    Served (some (ptr, s')) size ↔ Region s' size ptr := by
  constructor
  · rintro ⟨ptr', s'', heq, h⟩
    cases heq
    exact h.resolve_left hptr
  · exact fun h => ⟨ptr, s', rfl, .inr h⟩

theorem large_ne_zero {top : Nat} : top + largeInfoSize ≠ 0 := by
  simp [largeInfoSize]

/-- One try of a large request. -/
theorem served_large (h : Ready start n s) (hn : n ≤ 2 ^ 15) (hsize : 1024 < size)
    (hpos : 0 < intPageCount (toInt size)) : Served (s.allocInt (toInt size)) size ↔
      mapCost s s.vmemTop (requestPages size) ≤ s.freeCount ∧ size < 2 ^ 31 ∨
        ∃ i < requestPages size, s.freeCount = mapCost s s.vmemTop i := by
  have hends := h.largeEnds hn hpos
  generalize s.allocInt (toInt size) = r at hends
  cases hends with
  | mapped hcost hm =>
    rw [served_region large_ne_zero, hm.region_iff h hsize hpos, and_iff_right hcost, or_iff_left]
    rintro ⟨i, hi, heq⟩
    exact absurd (hcost.trans_eq heq) (mapCost_strictMono.lt_iff_lt.mpr hi).not_ge
  | null hj hcost => exact iff_of_true ⟨0, _, rfl, .inl rfl⟩ (.inr ⟨_, hj, hcost⟩)
  | @panic j hj hlow hhigh =>
    refine iff_of_false served_none ?_
    rintro (⟨hle, -⟩ | ⟨i, -, heq⟩)
    · exact absurd (hle.trans_lt hhigh) (mapCost_strictMono.monotone (Nat.succ_le_of_lt hj)).not_gt
    · rw [heq] at hlow hhigh
      exact absurd (mapCost_strictMono.lt_iff_lt.mp hhigh)
        (Nat.lt_succ_iff.not.mpr (mapCost_strictMono.lt_iff_lt.mp hlow).not_ge)

theorem mapCost_after {j : Nat}
    (habsent : ∀ l i, t.table l i = 0 ↔ s.table l i = 0 ∧ (l, i) ∉ tablesOf s.vmemTop j) (i : Nat) :
    mapCost t s.vmemTop i = s.costAfter j i := by
  have hset : t.absent (tablesOf s.vmemTop i) =
      s.absent (tablesOf s.vmemTop i \ tablesOf s.vmemTop j) := by
    ext x
    simp only [NewSystem.absent, Finset.mem_filter, Finset.mem_sdiff, habsent]
    tauto
  rw [mapCost, hset, costAfter]

theorem operatorNew_large (h : NewInv start n s) (ha : Above s) (hn : n ≤ 2 ^ 15) (hfuel : n ≤ fuel)
    (hsize : 1024 < size) : Served (s.operatorNew fuel size) size ↔ Answered s size := by
  have hready := h.ready ha
  have htry : ∀ u : NewSystem, u.allocSize size = u.allocInt (toInt size) := fun u => by
    rw [allocSize, if_pos hsize]
  rw [operatorNew, htry]
  by_cases hpos : 0 < intPageCount (toInt size)
  · have hends := hready.largeEnds hn hpos
    cases hr : s.allocInt (toInt size) with
    | none =>
      have hserved := (served_large hready hn hsize hpos).not.mp (hr ▸ served_none)
      rw [Option.bind_none]
      refine iff_of_false served_none ?_
      rintro (henough | ⟨j, hj, heq, -⟩)
      · exact hserved (.inl henough)
      · exact hserved (.inr ⟨j, hj, heq⟩)
    | some r =>
      rw [hr] at hends
      rw [Option.bind_some]
      cases hends with
      | mapped hcost hm =>
        rw [if_pos large_ne_zero, served_region large_ne_zero,
          hm.region_iff hready hsize hpos, Answered, and_iff_right hcost, or_iff_left]
        rintro ⟨j, hj, heq, -⟩
        exact absurd (hcost.trans_eq heq) (mapCost_strictMono.lt_iff_lt.mpr hj).not_ge
      | @null j t hj hcost hrestored hpool hcount habsent =>
        obtain ⟨hvm, lo, hi, hf⟩ := allocInt_null h.toVmInv hr
        obtain ⟨hs, hrun, -, hready', hcount'⟩ :=
          (hrestored.ready hready hpool).truncateAll hvm.heap hfuel
        have hcost' : ∀ i, mapCost { t with hs := hs } t.vmemTop i = s.costAfter j i := by
          rw [hrestored.top]
          exact mapCost_after habsent
        rw [if_neg (not_not_intro rfl)]
        dsimp only
        rw [hrun, Option.bind_some, htry, served_large hready' hn hsize hpos, hcount', hcount,
          emptyBlocks_null hrestored hf hpool]
        simp only [hcost']
        have hshort : ¬ (mapCost s s.vmemTop (requestPages size) ≤ s.freeCount ∧ size < 2 ^ 31) :=
          fun henough => (mapCost_strictMono.lt_iff_lt.mpr hj).not_ge (henough.1.trans_eq hcost)
        rw [Answered, or_iff_right hshort]
        refine ⟨fun hserved => ⟨j, hj, hcost, hserved⟩, ?_⟩
        rintro ⟨i, -, heq, hserved⟩
        rwa [mapCost_strictMono.injective (hcost.symm.trans heq)]
  · rw [allocInt_nonpos ha (not_lt.mp hpos), Option.bind_none]
    have hzero : requestPages size = 0 := Int.toNat_of_nonpos (not_lt.mp hpos)
    refine iff_of_false served_none ?_
    rintro (⟨-, hlt⟩ | ⟨j, hj, -⟩)
    · exact hpos (requestPages_of_lt hlt).1
    · rw [hzero] at hj
      exact absurd hj (Nat.not_lt_zero j)

theorem operatorNew_small (h : NewInv start n s) (ha : Above s) (hfuel : n ≤ fuel) (h0 : 1 ≤ size)
    (hsize : size ≤ 1024) : Served (s.operatorNew fuel size) size := by
  obtain ⟨c, hc, hfit⟩ := sizeClassOf_fits h0 hsize
  have htry : ∀ u : NewSystem, u.allocSize size =
      some ((u.hs.allocate c).1, { u with hs := (u.hs.allocate c).2 }) := fun u => by
    rw [allocSize, if_neg hsize.not_gt, hc, Option.map_some]
  rw [operatorNew, htry, Option.bind_some]
  by_cases hptr : (s.hs.allocate c).1 = 0
  · have hnext := allocate_null_next h.heap hptr
    obtain ⟨hs, hrun, ht, -⟩ := (h.ready ha).truncateAll h.heap hfuel
    dsimp only
    rw [if_neg (not_not_intro hptr), allocate_null h.heap hptr, hrun, Option.bind_some, htry]
    refine ⟨_, _, rfl, or_iff_not_imp_left.mpr fun hptr' => ?_⟩
    obtain ⟨b, hown, hslot⟩ := allocate_fresh ((ht.next c).trans hnext) hptr'
    exact .slot hc hown c.capacity_pos hslot hfit
  · rw [if_pos hptr]
    obtain ⟨b, i, hown, hi, hslot⟩ := allocate_slot h.heap hptr
    exact ⟨_, _, rfl, .inr (.slot hc hown hi hslot hfit)⟩

/-- On sizes that an `int` holds, the operator is the one of `NewDelete`. -/
theorem operatorNew_eq (h : NewInv start n s) (ha : Above s) (hn : n ≤ 2 ^ 15) (hfuel : n ≤ fuel)
    (hlt : size < 2 ^ 31) : s.operatorNew fuel size = s.defaultAlloc fuel size := by
  have htry : ∀ u : NewSystem, Ready start n u → u.allocSize size = u.tryAlloc size := by
    intro u hu
    rw [allocSize, tryAlloc, toInt_of_lt hlt, allocInt_eq hu hn hlt]
  rw [operatorNew, defaultAlloc, htry s (h.ready ha)]
  refine Option.bind_congr fun r hr => ?_
  have hinv := (tryAlloc_spec h hr).1
  have hready := hinv.ready (tryAlloc_above (h.ready ha) hn hlt hr)
  obtain ⟨hs, hrun, -, hready', -⟩ := hready.truncateAll hinv.heap hfuel
  rw [hrun, Option.bind_some, Option.bind_some, htry _ hready']

theorem operatorNew_zero : s.operatorNew fuel 0 = none := by
  rw [operatorNew, allocSize, if_neg (by decide), sizeClassOf_zero, Option.map_none,
    Option.bind_none]

/-- A request is answered, by null or by as many bytes as it is for, if and only if it is for at
least one byte and, if it is large, has pages enough or misses a data page. -/
theorem allocates_iff (h : NewInv start n s) (ha : Above s) (hstart : kernBase ≤ start)
    (hend : start + n * pgSize ≤ ioMemStart) (hfuel : n ≤ fuel) :
    Allocates fuel s size ↔ 1 ≤ size ∧ size ≤ 1024 ∨ 1024 < size ∧ Answered s size := by
  rw [Allocates, and_iff_left fun h0 hsize => sizeClassOf_smallest h0 hsize]
  rcases Nat.eq_zero_or_pos size with rfl | h0
  · rw [operatorNew_zero]
    exact iff_of_false served_none (by simp)
  · by_cases hsize : 1024 < size
    · rw [operatorNew_large h ha (pool_small hstart hend) hfuel hsize, and_iff_right hsize,
        or_iff_right fun hsmall => hsmall.2.not_gt hsize]
    · have hle := not_lt.mp hsize
      exact iff_of_true (operatorNew_small h ha hfuel h0 hle) (.inl ⟨h0, hle⟩)

theorem requestPages_wrapped : requestPages (2 ^ 32) = 1 := by
  have hzero : toInt (2 ^ 32) = 0 := by
    rw [toInt_eq]
    rfl
  rw [requestPages, hzero, intPageCount_floor (by decide) (by decide)]
  rfl

/-- Four pages are two for the data and two for the tables of a request of 5000 bytes. -/
theorem allocates_iff_four : Allocates 4 (boot (fun _ => 0) 0x80300000 4) 5000 := by
  refine (allocates_iff (newInv_boot _ (by decide) (by decide)) (fun _ _ => rfl)
    (by decide) (by decide)
    le_rfl).mpr (.inr ⟨by decide, .inl ⟨?_, by decide⟩⟩)
  have hcost : mapCost (boot (fun _ => 0) 0x80300000 4) vmemStart 2 = 4 := by decide +kernel
  have hpages : requestPages 5000 = 2 := by
    rw [requestPages, toInt_of_lt (by decide)]
    exact congrArg Int.toNat intPageCount_5000
  rw [hpages, boot_freeCount _ (by decide)]
  exact hcost.le

/-- A request for nothing panics, and one for 2^32 bytes is answered by a single page. -/
theorem zero_panics : (boot (fun _ => 0) 0x80300000 4).operatorNew 4 0 = none ∧
    ¬ Allocates 4 (boot (fun _ => 0) 0x80300000 4) 0 ∧
    ¬ Allocates 4 (boot (fun _ => 0) 0x80300000 4) (2 ^ 32) := by
  refine ⟨operatorNew_zero, fun h => ?_, fun h => ?_⟩
  · exact served_none (operatorNew_zero (s := boot (fun _ => 0) 0x80300000 4) ▸ h.1)
  · have hinv : NewInv 0x80300000 4 (boot (fun _ => 0) 0x80300000 4) :=
      newInv_boot _ (by decide) (by decide)
    have hanswer := (operatorNew_large hinv (fun _ _ => rfl) (by decide) le_rfl (by decide)).mp h.1
    rw [Answered, requestPages_wrapped, boot_freeCount _ (by decide)] at hanswer
    rcases hanswer with ⟨-, hlt⟩ | ⟨j, hj, hcost, -⟩
    · exact absurd hlt (by decide)
    · obtain rfl : j = 0 := Nat.lt_one_iff.mp hj
      exact absurd hcost (by simp [mapCost, tablesOf, NewSystem.absent])

end NewSystem

end CoroCore
