import CoroCore.Mm.HeapSafety
import CoroCore.Mm.NewDelete
import Mathlib.Data.Fintype.Pigeonhole

/-!
# `operator delete` finds the allocator of a pointer

`Routed` is what the dispatch by address relies on. `vmem_top` only ever grows, and what keeps it
below `MMAP_START` is the pool itself: every 2 MB of virtual addresses that were ever used have a
page of their own for their table, which is never given back (`top_le`).

Results:
* `routed_ok`: in every run in which no truncation after a failed request meets an empty block,
  every live pointer is routed to the allocator it came from.
* `truncated_misrouted`: after such a truncation a pointer of `heap_allocator<1024>` is passed to
  `heap_allocator<16>`.
-/

namespace CoroCore

open Lib KernelMem

/-! ## Pages of other clients under heap calls -/

namespace HeapSystem

/-- The pages held by clients are kept with their contents, and no page joins the pool. -/
structure ClientKept (s s' : HeapSystem) : Prop where
  client : ∀ p, s.owner p = .client → s'.owner p = .client
  word : ∀ p, s.owner p = .client → ∀ o, o < pgSize → s'.k.mem (p + o) = s.k.mem (p + o)
  pool : ∀ p, s'.owner p ≠ .outside → s.owner p ≠ .outside

/-- Words outside a page that is not held by a client. -/
theorem client_word_outside {s : HeapSystem} (h : s.HeapInv) {b p o : Nat} (hb : b % pgSize = 0)
    (hbo : s.owner b ≠ .client) (hp : s.owner p = .client) (ho : o < pgSize) :
    ¬ (b ≤ p + o ∧ p + o < b + pgSize) := by
  intro hin
  have hal := (h.aligned p (by rw [hp]; simp)).1
  have heq : b = p := page_unique hb hal hin ⟨by omega, by omega⟩
  exact hbo (heq ▸ hp)

theorem allocFrom_mem {c : SizeClass} {k : KernelMem} {a : Nat}
    (ha : a ≠ (k.heap c).nextFreeBlock) : (k.allocFrom c).2.mem a = k.mem a := by
  simp only [allocFrom, setHeap_mem, blockAlloc]
  split
  · rfl
  · exact write_mem_of_ne ha

theorem free_mem {c : SizeClass} {k k' : KernelMem} {ptr a : Nat} (hf : k.free c ptr = some k')
    (ha : ¬ (pageOf ptr ≤ a ∧ a < pageOf ptr + pgSize)) : k'.mem a = k.mem a := by
  have hle : pageOf ptr ≤ ptr ∧ ptr < pageOf ptr + pgSize := by
    unfold pageOf pgSize
    omega
  have h1 : a ≠ ptr := by
    rintro rfl
    exact ha hle
  have h2 : a ≠ pageOf ptr := by
    rintro rfl
    exact ha ⟨le_rfl, by unfold pgSize; omega⟩
  have h3 : a ≠ pageOf ptr + 16 := by
    rintro rfl
    exact ha ⟨by omega, by unfold pgSize; omega⟩
  have hblock : ∀ k'', k.blockFree c (pageOf ptr) ptr = some k'' → k''.mem a = k.mem a := by
    intro k'' hk
    simp only [blockFree] at hk
    split at hk
    · cases hk
    · cases hk
      rw [write_mem_of_ne h2, writeLow, write_mem_of_ne h1]
  simp only [KernelMem.free, Option.map_eq_some_iff] at hf
  obtain ⟨k'', hk, rfl⟩ := hf
  split
  · rw [setHeap_mem]
    exact (write_mem_of_ne h3).trans (hblock k'' hk)
  · rw [setHeap_mem]
    exact hblock k'' hk

theorem allocate_step (s : HeapSystem) (c : SizeClass) : Step s (.alloc c) (s.allocate c).2 := by
  unfold allocate
  rcases hr : s.k.alloc c with ⟨ptr, _ | page, k⟩
  · by_cases hptr : ptr = 0
    · subst hptr
      exact Step.allocNull hr
    · simp only [hptr, if_false]
      exact Step.allocOld hr hptr
  · exact Step.allocNew hr

/-- The first page of the free list is free. -/
theorem freePageList_free {s : HeapSystem} (h : s.HeapInv) (hp : s.k.freePageList ≠ 0) :
    s.owner s.k.freePageList = .free := by
  obtain ⟨F, hF, -, hmem⟩ := h.freeList
  obtain ⟨F', rfl, -⟩ := hF.uncons hp
  exact (hmem _).mp (by simp)

theorem nextFreeBlock_heap {s : HeapSystem} (h : s.HeapInv) {c : SizeClass}
    (hne : (s.k.heap c).nextFreeBlock ≠ 0) : s.owner (s.k.heap c).nextFreeBlock = .heap c := by
  obtain ⟨N, hN, -, hmem⟩ := h.nonFull c
  obtain ⟨N', rfl, -⟩ := hN.uncons hne
  exact ((hmem _).mp (by simp)).1

theorem allocate_kept {s : HeapSystem} (h : s.HeapInv) (c : SizeClass) :
    s.ClientKept (s.allocate c).2 := by
  have hrefl : s.ClientKept s := ⟨fun _ hp => hp, fun _ _ _ _ => rfl, fun _ hp => hp⟩
  by_cases hnil : (s.k.heap c).nextFreeBlock = 0
  · by_cases hp : s.k.freePageList = 0
    · have hk : s.k.alloc c = (0, none, s.k) := by
        simp [KernelMem.alloc, hnil, KernelMem.allocPage, hp]
      simpa [allocate, hk] using hrefl
    · have hpage : s.k.allocPage.1 = s.k.freePageList := by simp [KernelMem.allocPage, hp]
      have hk : s.k.alloc c = (((s.k.allocPage.2.addBlock c s.k.freePageList).allocFrom c).1,
          some s.k.freePageList,
          ((s.k.allocPage.2.addBlock c s.k.freePageList).allocFrom c).2) := by
        simp [KernelMem.alloc, hnil, hpage, hp]
      have hfree := freePageList_free h hp
      have hal := (h.aligned _ (by rw [hfree]; simp)).1
      have hne : ∀ p, s.owner p = .client → p ≠ s.k.freePageList := by
        rintro p hc rfl
        rw [hfree] at hc
        cases hc
      simp only [allocate, hk]
      refine ⟨fun p hc => ?_, fun p hc o ho => ?_, fun p hout => ?_⟩
      · simp only [Function.update_of_ne (hne p hc)]
        exact hc
      · have hout := client_word_outside h hal (by rw [hfree]; simp) hc ho
        have hstart : p + o ≠
            ((s.k.allocPage.2.addBlock c s.k.freePageList).heap c).nextFreeBlock := by
          intro he
          simp only [addBlock, setHeap_heap_self] at he
          exact hout ⟨by omega, by unfold pgSize; omega⟩
        rw [allocFrom_mem hstart, addBlock_mem_outside hout]
        simp [KernelMem.allocPage, hp]
      · by_cases he : p = s.k.freePageList
        · subst he
          rw [hfree]
          simp
        · simpa only [Function.update_of_ne he] using hout
  · have hown := nextFreeBlock_heap h hnil
    have hal := (h.aligned _ (by rw [hown]; simp)).1
    have hk : s.k.alloc c = ((s.k.allocFrom c).1, none, (s.k.allocFrom c).2) := by
      simp [KernelMem.alloc, hnil]
    have hkept : ∀ live, s.ClientKept { s with k := (s.k.allocFrom c).2, live := live } := by
      refine fun live => ⟨fun p hc => hc, fun p hc o ho => ?_, fun p hout => hout⟩
      refine allocFrom_mem fun he => ?_
      exact client_word_outside h hal (by rw [hown]; simp) hc ho
        ⟨by omega, by unfold pgSize; omega⟩
    simp only [allocate, hk]
    split
    · exact hkept _
    · exact hkept _

theorem free_kept {s : HeapSystem} (h : s.HeapInv) {c : SizeClass} {ptr : Nat} {k : KernelMem}
    (hlive : (c, ptr) ∈ s.live) (hf : s.k.free c ptr = some k) (live : List (SizeClass × Nat)) :
    s.ClientKept { s with k := k, live := live } := by
  obtain ⟨b, i, hb, hi, heq⟩ := h.liveSlot _ hlive
  have hal := (h.aligned b (by rw [hb]; simp)).1
  simp only at hb hi heq
  refine ⟨fun p hc => hc, fun p hc o ho => free_mem hf ?_, fun p hout => hout⟩
  rw [heq, pageOf_slot hal hi]
  exact client_word_outside h hal (by rw [hb]; simp) hc ho

/-! ## Truncation that finds nothing -/

theorem truncated_id {s s' : HeapSystem} (h : s.HeapInv) {fuel : Nat} {c : SizeClass}
    (hok : s.TruncateOk (.truncate c)) (ht : s.truncated fuel c = some s') : s' = s := by
  simp only [truncated, Option.map_eq_some_iff] at ht
  obtain ⟨r, hr, rfl⟩ := ht
  obtain ⟨B, hB, -, -⟩ := h.blockList c
  obtain rfl := truncateLoop_nonempty hB (fun b hb => hok b (hB.onChain_iff.mpr hb)) hr
  simp

theorem truncateAll_id {s s' : HeapSystem} (h : s.HeapInv) {fuel : Nat}
    (hok : ∀ c, s.TruncateOk (.truncate c)) (ht : s.truncateAll fuel = some s') : s' = s := by
  unfold truncateAll at ht
  generalize [SizeClass.s8, .s16, .s32, .s64, .s128, .s256, .s512, .s1024] = cs at ht
  induction cs with
  | nil => exact (Option.some.inj ht).symm
  | cons c cs ih =>
    simp only [List.foldlM_cons, Option.bind_eq_bind, Option.bind_eq_some_iff] at ht
    obtain ⟨t, hc, ht⟩ := ht
    obtain rfl := truncated_id h (hok c) hc
    exact ih ht

end HeapSystem

/-! ## The kernel page table and its pages -/

namespace NewSystem

open HeapSystem

variable {s s' t : NewSystem} {lo hi start n va pa : Nat}

/-- The mapped pages and the tables are client pages, each with its use recorded. -/
structure VmInv (start n : Nat) (s : NewSystem) : Prop where
  heap : s.hs.HeapInv
  pool : ∀ p, s.hs.owner p ≠ .outside → start ≤ p ∧ p < start + n * pgSize
  data : ∀ v, s.vmap v ≠ 0 → s.hs.owner (s.vmap v) = .client ∧ s.use (s.vmap v) = .data v
  table : ∀ l i, s.table l i ≠ 0 →
    s.hs.owner (s.table l i) = .client ∧ s.use (s.table l i) = .table l i

/-- The heap allocators and their blocks, the tables and the pages mapped outside `[lo, hi)` are
kept. -/
structure Frame (lo hi : Nat) (s s' : NewSystem) : Prop where
  live : s'.hs.live = s.hs.live
  heaps : s'.hs.k.heap = s.hs.k.heap
  block : ∀ p c, s.hs.owner p = .heap c → s'.hs.owner p = .heap c
  blockWord : ∀ p c, s.hs.owner p = .heap c → ∀ o, o < pgSize →
    s'.hs.k.mem (p + o) = s.hs.k.mem (p + o)
  large : s'.large = s.large
  top : s'.vmemTop = s.vmemTop
  table : ∀ l i, s.table l i ≠ 0 → s'.table l i = s.table l i
  vmap : ∀ v, v < lo ∨ hi ≤ v → s'.vmap v = s.vmap v
  word : ∀ v, v < lo ∨ hi ≤ v → s.vmap v ≠ 0 → ∀ o, o < pgSize →
    s'.hs.k.mem (s.vmap v + o) = s.hs.k.mem (s.vmap v + o)

theorem Frame.refl : Frame lo hi s s :=
  ⟨rfl, rfl, fun _ _ h => h, fun _ _ _ _ _ => rfl, rfl, rfl, fun _ _ _ => rfl, fun _ _ => rfl,
    fun _ _ _ _ _ => rfl⟩

theorem Frame.mono (h : Frame lo hi s s') {lo' hi' : Nat}
    (hout : ∀ v, v < lo' ∨ hi' ≤ v → v < lo ∨ hi ≤ v) : Frame lo' hi' s s' :=
  { h with
    vmap := fun v hv => h.vmap v (hout v hv)
    word := fun v hv => h.word v (hout v hv) }

theorem Frame.trans (h : Frame lo hi s s') (h' : Frame lo hi s' t) : Frame lo hi s t := by
  refine ⟨h'.live.trans h.live, h'.heaps.trans h.heaps, fun p c hp => h'.block p c (h.block p c hp),
    fun p c hp o ho => ?_, h'.large.trans h.large, h'.top.trans h.top, fun l i hl => ?_,
    fun v hv => (h'.vmap v hv).trans (h.vmap v hv), fun v hv hm o ho => ?_⟩
  · exact (h'.blockWord p c (h.block p c hp) o ho).trans (h.blockWord p c hp o ho)
  · have he := h.table l i hl
    rw [h'.table l i (he ▸ hl), he]
  · have he := h.vmap v hv
    have hw := h'.word v hv (he ▸ hm) o ho
    rw [he] at hw
    exact hw.trans (h.word v hv hm o ho)

/-- Pages are taken from the pool for tables only. -/
structure Grown (s s' : NewSystem) : Prop where
  frame : Frame 0 0 s s'
  used : ∀ p, s.hs.owner p = .client → s'.hs.owner p = .client ∧ s'.use p = s.use p

theorem Grown.trans (h : Grown s s') (h' : Grown s' t) : Grown s t := by
  refine ⟨h.frame.trans h'.frame, fun p hp => ?_⟩
  obtain ⟨ho, hu⟩ := h.used p hp
  obtain ⟨ho', hu'⟩ := h'.used p ho
  exact ⟨ho', hu'.trans hu⟩

theorem Grown.vmap (h : Grown s s') : s'.vmap = s.vmap :=
  funext fun v => h.frame.vmap v (Or.inr (Nat.zero_le v))

/-! ## Taking and giving back pages -/

theorem takePage_zero {u : PageUse} (h : (s.takePage u).1 = 0) : (s.takePage u).2 = s := by
  by_cases h0 : s.hs.k.allocPage.1 = 0
  · simp [takePage, h0]
  · simp [takePage, h0] at h

theorem takePage_spec (h : VmInv start n s) {u : PageUse} (hp : (s.takePage u).1 ≠ 0) :
    VmInv start n (s.takePage u).2 ∧ Grown s (s.takePage u).2 ∧
      (s.takePage u).2.hs.owner (s.takePage u).1 = .client ∧
      (s.takePage u).2.use (s.takePage u).1 = u ∧ (s.takePage u).2.table = s.table := by
  have hne : s.hs.k.freePageList ≠ 0 := by
    intro h0
    simp [takePage, KernelMem.allocPage, h0] at hp
  have hfree := freePageList_free h.heap hne
  have hinv := inv_allocPage h.heap hne
  have htake : s.takePage u = (s.hs.k.freePageList, { s with
      hs := { s.hs with k := s.hs.k.allocPage.2
                        owner := Function.update s.hs.owner s.hs.k.freePageList .client }
      use := Function.update s.use s.hs.k.freePageList u }) := by
    simp [takePage, KernelMem.allocPage, hne]
  have hmem : s.hs.k.allocPage.2.mem = s.hs.k.mem := by simp [KernelMem.allocPage, hne]
  have hold : ∀ p, s.hs.owner p = .client → p ≠ s.hs.k.freePageList := by
    rintro p hc rfl
    rw [hfree] at hc
    cases hc
  have hold' : ∀ p c, s.hs.owner p = .heap c → p ≠ s.hs.k.freePageList := by
    rintro p c hc rfl
    rw [hfree] at hc
    cases hc
  rw [htake]
  refine ⟨⟨hinv, fun p hout => ?_, fun v hv => ?_, fun l i hl => ?_⟩, ⟨⟨rfl, ?_, fun p c hc => ?_,
    fun p c hc o ho => ?_, rfl, rfl, fun _ _ _ => rfl, fun _ _ => rfl, fun v _ hv o ho => ?_⟩,
    fun p hc => ?_⟩, ?_, ?_, rfl⟩
  · by_cases he : p = s.hs.k.freePageList
    · subst he
      exact h.pool _ (by rw [hfree]; simp)
    · exact h.pool p (by simpa only [Function.update_of_ne he] using hout)
  · have ho := h.data v hv
    simp only [Function.update_of_ne (hold _ ho.1)]
    exact ho
  · have ho := h.table l i hl
    simp only [Function.update_of_ne (hold _ ho.1)]
    exact ho
  · simp [KernelMem.allocPage, hne]
  · simp only [Function.update_of_ne (hold' p c hc)]
    exact hc
  · rw [hmem]
  · rw [hmem]
  · simp only [Function.update_of_ne (hold p hc)]
    exact ⟨hc, trivial⟩
  · simp
  · simp

/-- A page that is given back is the only one that changes. -/
theorem givePage_kept (h : VmInv start n s) {p : Nat} (hown : s.hs.owner p = .client) :
    (s.givePage p).hs.HeapInv ∧
      (∀ q, (s.givePage p).hs.owner q ≠ .outside → start ≤ q ∧ q < start + n * pgSize) ∧
      ∀ q, s.hs.owner q ≠ .outside → q ≠ p → (s.givePage p).hs.owner q = s.hs.owner q ∧
        ∀ o, o < pgSize → (s.givePage p).hs.k.mem (q + o) = s.hs.k.mem (q + o) := by
  have hal := (h.heap.aligned p (by rw [hown]; simp)).1
  refine ⟨inv_freePage h.heap hown, fun q hout => ?_, fun q hq hne => ⟨?_, fun o ho => ?_⟩⟩
  · by_cases he : q = p
    · subst he
      exact h.pool _ (by rw [hown]; simp)
    · refine h.pool q ?_
      simpa only [givePage, Function.update_of_ne he] using hout
  · simp only [givePage, Function.update_of_ne hne]
  · have hoff : q + o ≠ p := by
      intro he
      exact hne (page_unique (a := q + o) (h.heap.aligned q hq).1 hal ⟨by omega, by omega⟩
        ⟨by omega, by unfold pgSize; omega⟩)
    exact write_mem_of_ne hoff

theorem givePage_spec (h : VmInv start n s) (hva : s.vmap va ≠ 0) :
    VmInv start n ((s.givePage (s.vmap va)).setPage va 0) ∧
      Frame va (va + 1) s ((s.givePage (s.vmap va)).setPage va 0) := by
  obtain ⟨hown, huse⟩ := h.data va hva
  obtain ⟨hinv, hpool, hkept⟩ := givePage_kept h hown
  -- a page has one use
  have hpage : ∀ v, v ≠ va → s.vmap v ≠ 0 → s.vmap v ≠ s.vmap va := by
    intro v hv hm he
    have := (h.data v hm).2
    rw [he, huse] at this
    exact hv (PageUse.data.inj this).symm
  have htable : ∀ l i, s.table l i ≠ 0 → s.table l i ≠ s.vmap va := by
    intro l i hl he
    have := (h.table l i hl).2
    rw [he, huse] at this
    cases this
  have hheap : ∀ p c, s.hs.owner p = .heap c → p ≠ s.vmap va := by
    rintro p c hp rfl
    rw [hown] at hp
    cases hp
  have hset : ∀ v, v ≠ va → ((s.givePage (s.vmap va)).setPage va 0).vmap v = s.vmap v := by
    intro v hv
    simp [setPage, givePage, hv]
  refine ⟨⟨hinv, hpool, fun v hv => ?_, fun l i hl => ?_⟩,
    ⟨rfl, rfl, fun p c hc => ?_, fun p c hc => ?_, rfl, rfl, fun _ _ _ => rfl,
      fun v hv => hset v (by omega), fun v hv hm => ?_⟩⟩
  · by_cases he : v = va
    · subst he
      exact absurd (by simp [setPage]) hv
    · rw [hset v he] at hv ⊢
      have hd := h.data v hv
      exact ⟨((hkept _ (by rw [hd.1]; simp) (hpage v he hv)).1).trans hd.1, hd.2⟩
  · have hd := h.table l i hl
    exact ⟨((hkept _ (by rw [hd.1]; simp) (htable l i hl)).1).trans hd.1, hd.2⟩
  · exact ((hkept p (by rw [hc]; simp) (hheap p c hc)).1).trans hc
  · exact (hkept p (by rw [hc]; simp) (hheap p c hc)).2
  · exact (hkept _ (by rw [(h.data v hm).1]; simp) (hpage v (by omega) hm)).2

/-! ## Mapping and unmapping -/

theorem setTable_spec (h : VmInv start n s) {l i p : Nat} (h0 : s.table l i = 0)
    (hown : s.hs.owner p = .client) (huse : s.use p = .table l i) :
    VmInv start n (s.setTable l i p) ∧ Grown s (s.setTable l i p) ∧
      (s.setTable l i p).table l i = p := by
  have hset : ∀ l' i', (s.setTable l i p).table l' i' =
      if l' = l ∧ i' = i then p else s.table l' i' := by
    intro l' i'
    by_cases hl : l' = l
    · subst hl
      by_cases hi : i' = i
      · subst hi
        simp [setTable]
      · simp [setTable, hi]
    · simp [setTable, hl]
  refine ⟨⟨h.heap, h.pool, h.data, fun l' i' hl => ?_⟩, ⟨⟨rfl, rfl, fun _ _ hc => hc,
    fun _ _ _ _ _ => rfl, rfl, rfl, fun l' i' hl => ?_, fun _ _ => rfl, fun _ _ _ _ _ => rfl⟩,
    fun _ hc => ⟨hc, rfl⟩⟩, by simp [hset]⟩
  · rw [hset] at hl ⊢
    split
    · next he =>
      obtain ⟨rfl, rfl⟩ := he
      exact ⟨hown, huse⟩
    · next he => exact h.table l' i' (by rwa [if_neg he] at hl)
  · rw [hset, if_neg]
    rintro ⟨rfl, rfl⟩
    exact hl h0

theorem walkLevels_spec : ∀ {level : Nat} {s : NewSystem}, VmInv start n s →
    walkLevels va level s = some s' → VmInv start n s' ∧ Grown s s' ∧
      ∀ l, 0 < l → l ≤ level → s'.table l (entryOf l va) ≠ 0 := by
  intro level
  induction level with
  | zero =>
    intro s h hw
    obtain rfl := Option.some.inj hw
    exact ⟨h, ⟨Frame.refl, fun _ hc => ⟨hc, rfl⟩⟩, fun l h0 hl => absurd hl (by omega)⟩
  | succ level ih =>
    intro s h hw
    simp only [walkLevels] at hw
    split at hw
    · next hne =>
      obtain ⟨hinv, hg, hl⟩ := ih h hw
      refine ⟨hinv, hg, fun l h0 hle => ?_⟩
      rcases Nat.lt_or_eq_of_le hle with hlt | rfl
      · exact hl l h0 (by omega)
      · rw [hg.frame.table _ _ hne]
        exact hne
    · next hz =>
      split at hw
      · cases hw
      · next hp =>
        obtain ⟨hinv1, hg1, hown, huse, htab⟩ := takePage_spec h hp
        have hz1 : (s.takePage (.table (level + 1) (entryOf (level + 1) va))).2.table (level + 1)
            (entryOf (level + 1) va) = 0 := by
          rw [htab]
          simpa using hz
        obtain ⟨hinv2, hg2, hset⟩ := setTable_spec hinv1 hz1 hown huse
        obtain ⟨hinv3, hg3, hl⟩ := ih hinv2 hw
        refine ⟨hinv3, (hg1.trans hg2).trans hg3, fun l h0 hle => ?_⟩
        rcases Nat.lt_or_eq_of_le hle with hlt | rfl
        · exact hl l h0 (by omega)
        · rw [hg3.frame.table _ _ (by rwa [hset]), hset]
          exact hp

theorem kvmmap_spec (h : VmInv start n s) (hown : s.hs.owner pa = .client)
    (huse : s.use pa = .data va) (hm : s.kvmmap va pa = some s') :
    VmInv start n s' ∧ Frame va (va + 1) s s' ∧ s'.vmap va ≠ 0 ∧
      s'.table 1 (entryOf 1 va) ≠ 0 := by
  simp only [kvmmap] at hm
  split at hm
  · cases hm
  · obtain ⟨t, hw, hm⟩ := Option.bind_eq_some_iff.mp hm
    obtain ⟨hinv, hg, htab⟩ := walkLevels_spec h hw
    split at hm
    · cases hm
    · next hz =>
      obtain rfl := Option.some.inj hm
      obtain ⟨hown', huse'⟩ := hg.used pa hown
      have hpa : pa ≠ 0 := (h.heap.aligned pa (by rw [hown]; simp)).2
      have hset : ∀ v, v ≠ va → (t.setPage va pa).vmap v = t.vmap v := by
        intro v hv
        simp [setPage, hv]
      refine ⟨⟨hinv.heap, hinv.pool, fun v hv => ?_, hinv.table⟩,
        (hg.frame.mono fun v _ => Or.inr (Nat.zero_le v)).trans ⟨rfl, rfl, fun _ _ hc => hc,
          fun _ _ _ _ _ => rfl, rfl, rfl, fun _ _ _ => rfl, fun v hv => hset v (by omega),
          fun _ _ _ _ _ => rfl⟩, ?_, htab 1 (by omega) (by omega)⟩
      · by_cases he : v = va
        · subst he
          simp only [setPage, Function.update_self]
          exact ⟨hown', huse'.trans huse⟩
        · rw [hset v he] at hv ⊢
          exact hinv.data v hv
      · simpa [setPage] using hpa

/-- What the loop of `large_mem_allocator::alloc` maps stays mapped. -/
theorem mapLoop_spec : ∀ {m va : Nat} {s : NewSystem} {r : Nat × NewSystem}, VmInv start n s →
    mapLoop m va s = some r → VmInv start n r.2 ∧ Frame va (va + m * pgSize) s r.2 ∧
      ∀ j, j < r.1 → r.2.vmap (va + j * pgSize) ≠ 0 ∧
        r.2.table 1 (entryOf 1 (va + j * pgSize)) ≠ 0 := by
  intro m
  induction m with
  | zero =>
    intro va s r h hl
    obtain rfl := Option.some.inj hl
    exact ⟨h, Frame.refl, fun j hj => absurd hj (by omega)⟩
  | succ m ih =>
    intro va s r h hl
    simp only [mapLoop] at hl
    split at hl
    · obtain rfl := Option.some.inj hl
      exact ⟨h, Frame.refl, fun j hj => absurd hj (by omega)⟩
    · next hp =>
      obtain ⟨hinv1, hg, hown, huse, -⟩ := takePage_spec h hp
      obtain ⟨t, hm, hl⟩ := Option.bind_eq_some_iff.mp hl
      obtain ⟨hinv2, hf2, hmap, htab⟩ := kvmmap_spec hinv1 hown huse hm
      obtain ⟨r', hl', rfl⟩ := Option.map_eq_some_iff.mp hl
      obtain ⟨hinv3, hf3, hall⟩ := ih hinv2 hl'
      have hpos : 0 < pgSize := by decide
      have hmul : (m + 1) * pgSize = pgSize + m * pgSize := by rw [Nat.add_mul]; omega
      have hf1 : Frame va (va + (m + 1) * pgSize) s t :=
        (hg.frame.mono fun v _ => Or.inr (Nat.zero_le v)).trans
          (hf2.mono fun v hv => by omega)
      refine ⟨hinv3, hf1.trans (hf3.mono fun v hv => by omega), fun j hj => ?_⟩
      cases j with
      | zero =>
        simp only [Nat.zero_mul, Nat.add_zero]
        rw [hf3.vmap va (by omega), hf3.table _ _ htab]
        exact ⟨hmap, htab⟩
      | succ j =>
        have he : va + (j + 1) * pgSize = va + pgSize + j * pgSize := by
          rw [Nat.add_mul]
          omega
        rw [he]
        exact hall j (by simp only at hj; omega)

theorem kvmunmap_spec : ∀ {m va : Nat} {s : NewSystem}, VmInv start n s →
    kvmunmap m va s = some s' → VmInv start n s' ∧ Frame va (va + m * pgSize) s s' := by
  intro m
  induction m with
  | zero =>
    intro va s h hu
    cases hu
  | succ m ih =>
    intro va s h hu
    simp only [kvmunmap] at hu
    split at hu
    · cases hu
    · next hok =>
      simp only [not_or] at hok
      obtain ⟨hinv, hf⟩ := givePage_spec h hok.2.2.2
      have hpos : 0 < pgSize := by decide
      have hmul : (m + 1) * pgSize = pgSize + m * pgSize := by rw [Nat.add_mul]; omega
      have hf1 := hf.mono (fun v (hv : v < va ∨ va + (m + 1) * pgSize ≤ v) => by omega)
      split at hu
      · obtain rfl := Option.some.inj hu
        exact ⟨hinv, hf1⟩
      · obtain ⟨hinv', hf'⟩ := ih hinv hu
        exact ⟨hinv', hf1.trans (hf'.mono fun v hv => by omega)⟩

/-! ## The invariant -/

/-- A live large allocation is mapped below `vmem_top`, and its `large_mem_info` holds its number of
pages. -/
structure LargeOk (s : NewSystem) (l : Large) : Prop where
  aligned : l.start % pgSize = 0
  low : vmemStart ≤ l.start
  pos : 0 < l.count
  high : l.start + l.count * pgSize ≤ s.vmemTop
  mapped : ∀ j, j < l.count → s.vmap (l.start + j * pgSize) ≠ 0
  info : s.readV l.start = l.count

/-- The virtual ranges of two large allocations are disjoint. -/
def Apart (l m : Large) : Prop :=
  l.start + l.count * pgSize ≤ m.start ∨ m.start + m.count * pgSize ≤ l.start

instance : Std.Symm Apart := ⟨fun _ _ h => Or.symm h⟩

structure NewInv (start n : Nat) (s : NewSystem) : Prop extends VmInv start n s where
  top : vmemStart ≤ s.vmemTop ∧ s.vmemTop % pgSize = 0
  /-- Every 2 MB below `vmem_top` have a table. -/
  covered : ∀ i, entryOf 1 vmemStart ≤ i → i * 2 ^ 21 < s.vmemTop → s.table 1 i ≠ 0
  large : ∀ l ∈ s.large, LargeOk s l
  apart : s.large.Pairwise Apart

theorem pageOf_aligned {v : Nat} (h : v % pgSize = 0) : pageOf v = v := by
  unfold pageOf
  omega

theorem readV_aligned {v : Nat} (h : v % pgSize = 0) : s.readV v = s.hs.k.mem (s.vmap v) := by
  rw [readV, phys, pageOf_aligned h, h, Nat.add_zero]

theorem LargeOk.mapped_start {l : Large} (h : LargeOk s l) : s.vmap l.start ≠ 0 := by
  have := h.mapped 0 h.pos
  rwa [Nat.zero_mul, Nat.add_zero] at this

/-- A large allocation depends on its mapping and on the first word of its first page. -/
theorem LargeOk.congr {l : Large} (h : LargeOk s l) (htop : s.vmemTop ≤ s'.vmemTop)
    (hmap : ∀ v, l.start ≤ v → v < l.start + l.count * pgSize → s'.vmap v = s.vmap v)
    (hword : s'.hs.k.mem (s.vmap l.start) = s.hs.k.mem (s.vmap l.start)) : LargeOk s' l := by
  have hpos : 0 < pgSize := by decide
  have hcount : pgSize ≤ l.count * pgSize := Nat.le_mul_of_pos_left pgSize h.pos
  refine ⟨h.aligned, h.low, h.pos, h.high.trans htop, fun j hj => ?_, ?_⟩
  · have hlt : j * pgSize < l.count * pgSize := Nat.mul_lt_mul_of_pos_right hj hpos
    rw [hmap _ (by omega) (by omega)]
    exact h.mapped j hj
  · have hinfo := h.info
    rw [readV_aligned h.aligned] at hinfo ⊢
    rw [hmap _ le_rfl (by omega), hword, hinfo]

/-- A large allocation outside the part of the address space that changes. -/
theorem LargeOk.frame {l : Large} (h : LargeOk s l) (hf : Frame lo hi s s')
    (hout : l.start + l.count * pgSize ≤ lo ∨ hi ≤ l.start) : LargeOk s' l := by
  have hcount : pgSize ≤ l.count * pgSize := Nat.le_mul_of_pos_left pgSize h.pos
  have hpos : 0 < pgSize := by decide
  refine h.congr hf.top.ge (fun v _ _ => hf.vmap v (by omega)) ?_
  have := hf.word l.start (by omega) h.mapped_start 0 hpos
  simpa using this

/-- The tables of the address space below `vmem_top` are different pages of the pool. -/
theorem NewInv.top_le (h : NewInv start n s) : s.vmemTop ≤ vmemStart + n * 2 ^ 21 := by
  by_contra hgt
  have htab : ∀ j, j ≤ n → s.table 1 (entryOf 1 vmemStart + j) ≠ 0 := by
    intro j hj
    refine h.covered _ (by omega) ?_
    have hmul : j * 2 ^ 21 ≤ n * 2 ^ 21 := Nat.mul_le_mul_right _ hj
    have hstart : entryOf 1 vmemStart * 2 ^ 21 = vmemStart := by decide
    rw [Nat.add_mul, hstart]
    omega
  let slot : Nat → Nat := fun j => (s.table 1 (entryOf 1 vmemStart + j) - start) / pgSize
  have hslot : ∀ j ∈ Finset.range (n + 1), slot j ∈ Finset.range n := by
    intro j hj
    have hown := (h.table _ _ (htab j (by simpa [Nat.lt_succ_iff] using hj))).1
    have hin := h.pool _ (by rw [hown]; simp)
    rw [Finset.mem_range, Nat.div_lt_iff_lt_mul (by decide)]
    omega
  obtain ⟨i, hi, j, hj, hne, heq⟩ := Finset.exists_ne_map_eq_of_card_lt_of_maps_to
    (by simp) hslot
  -- two tables in one page would be one table
  have hi' := h.table _ _ (htab i (by simpa [Nat.lt_succ_iff] using hi))
  have hj' := h.table _ _ (htab j (by simpa [Nat.lt_succ_iff] using hj))
  have hpi := h.pool _ (by rw [hi'.1]; simp)
  have hpj := h.pool _ (by rw [hj'.1]; simp)
  have hai := (h.heap.aligned _ (by rw [hi'.1]; simp)).1
  have haj := (h.heap.aligned _ (by rw [hj'.1]; simp)).1
  have hpage : s.table 1 (entryOf 1 vmemStart + i) = s.table 1 (entryOf 1 vmemStart + j) := by
    simp only [slot] at heq
    unfold pgSize at *
    omega
  have huse := hi'.2
  rw [hpage, hj'.2] at huse
  have := (PageUse.table.inj huse).2
  omega

/-! ## What clients rely on -/

/-- Every live pointer is passed to the allocator it came from, a large one with its number of
pages, and the large allocations do not overlap. -/
structure Routed (s : NewSystem) : Prop where
  small : ∀ x ∈ s.hs.live, s.route x.2 = .heap x.1
  large : ∀ l ∈ s.large, s.route (l.start + largeInfoSize) = .large l.count
  apart : s.large.Pairwise Apart

/-- The first attempt succeeds, or the truncation after it meets no empty block. -/
def NewOk (s : NewSystem) : NewOp → Prop
  | .new size _ => (∃ s', s.tryAlloc size = some (0, s')) → ∀ c, s.hs.TruncateOk (.truncate c)
  | _ => True

theorem NewInv.routed (h : NewInv start n s) (hend : start + n * pgSize ≤ ioMemStart)
    (hstart : kernBase ≤ start) : Routed s := by
  refine ⟨fun x hx => ?_, fun l hl => ?_, h.apart⟩
  · obtain ⟨b, i, hb, hi, heq⟩ := h.heap.liveSlot x hx
    have hal := (h.heap.aligned b (by rw [hb]; simp)).1
    have hin := h.pool b (by rw [hb]; simp)
    have hlt := slotAddr_lt (b := b) hi
    have hsz := x.1.size_pos
    obtain ⟨I, -, -, -, -, hsize⟩ := h.heap.block x.1 b hb
    have hlow : x.2 < vmemStart := by
      rw [heq]
      simp only [ioMemStart, vmemStart, pgSize] at *
      omega
    have hlow' : ¬ mmapStart ≤ x.2 := by
      simp only [vmemStart, mmapStart] at *
      omega
    rw [route, if_neg hlow', if_neg (by omega), heq, pageOf_slot hal hi, hsize]
    cases x.1 <;> rfl
  · have hok := h.large l hl
    have htop := h.top_le
    have hcount : pgSize ≤ l.count * pgSize := Nat.le_mul_of_pos_left pgSize hok.pos
    have hhigh := hok.high
    have hlow := hok.low
    have hpg : pgSize = 4096 := rfl
    have hinfo : largeInfoSize = 16 := rfl
    have hnot : ¬ mmapStart ≤ l.start + largeInfoSize := by
      rw [hpg] at hend hcount
      simp only [ioMemStart, kernBase, vmemStart, mmapStart] at *
      omega
    rw [route, if_neg hnot, if_pos (by omega), Nat.add_sub_cancel, hok.info]

/-! ## Every operation -/

/-- Only the pages of heap allocators and of the pool change. -/
theorem NewInv.heapCall (h : NewInv start n s) {hs : HeapSystem} (hinv : hs.HeapInv)
    (hkept : s.hs.ClientKept hs) : NewInv start n { s with hs := hs } := by
  refine ⟨⟨hinv, fun p hp => h.pool p (hkept.pool p hp), fun v hv => ?_, fun l i hl => ?_⟩, h.top,
    h.covered, fun l hl => ?_, h.apart⟩
  · exact ⟨hkept.client _ (h.data v hv).1, (h.data v hv).2⟩
  · exact ⟨hkept.client _ (h.table l i hl).1, (h.table l i hl).2⟩
  · have hok := h.large l hl
    refine hok.congr le_rfl (fun _ _ _ => rfl) ?_
    have := hkept.word _ (h.data _ hok.mapped_start).1 0 (by decide)
    simpa using this

/-- Mapping and unmapping outside the live large allocations. -/
theorem NewInv.frame (h : NewInv start n s) (hvm : VmInv start n s') (hf : Frame lo hi s s')
    {large : List Large} (hsub : large.Sublist s.large)
    (hout : ∀ l ∈ large, l.start + l.count * pgSize ≤ lo ∨ hi ≤ l.start) :
    NewInv start n { s' with large := large } := by
  refine ⟨⟨hvm.heap, hvm.pool, hvm.data, hvm.table⟩, ?_, fun i hi hlt => ?_, fun l hl => ?_,
    h.apart.sublist hsub⟩
  · show vmemStart ≤ s'.vmemTop ∧ s'.vmemTop % pgSize = 0
    rw [hf.top]
    exact h.top
  · have hlt' : i * 2 ^ 21 < s.vmemTop := by rwa [← hf.top]
    have hold := h.covered i hi hlt'
    show s'.table 1 i ≠ 0
    rwa [hf.table 1 i hold]
  · have hok := (h.large l (hsub.mem hl)).frame hf (hout l hl)
    exact hok.congr le_rfl (fun _ _ _ => rfl) rfl

/-- A store by a client that leaves every `page_count` alone. -/
theorem NewInv.writeK (h : NewInv start n s) {a v : Nat} (ha : s.hs.ClientWord a)
    (hne : ∀ l ∈ s.large, a ≠ s.vmap l.start) : NewInv start n (s.writeK a v) := by
  refine ⟨⟨inv_store h.heap ha v, h.pool, h.data, h.table⟩, h.top, h.covered, fun l hl => ?_,
    h.apart⟩
  exact (h.large l hl).congr le_rfl (fun _ _ _ => rfl) (write_mem_of_ne (hne l hl).symm)

theorem truncateOk_frame (h : s.hs.HeapInv) (hf : Frame lo hi s s') {c : SizeClass}
    (hok : s.hs.TruncateOk (.truncate c)) : s'.hs.TruncateOk (.truncate c) := by
  obtain ⟨B, hB, -, hmem⟩ := h.blockList c
  have hB' : Chain s'.hs.k.nextBlock 0 (s'.hs.k.heap c).headBlock B := by
    rw [hf.heaps]
    exact hB.congr fun b hb => hf.blockWord b c ((hmem b).mp hb) 8 (by decide)
  intro b hb
  have hin := hB'.onChain_iff.mp hb
  have hword := hf.blockWord b c ((hmem b).mp hin) 0 (by decide)
  have hused : s'.hs.k.blockUsed b = s.hs.k.blockUsed b := congrArg infoUsed hword
  rw [hused]
  exact hok b (hB.onChain_iff.mpr hin)

/-- A request that a heap allocator cannot serve changes nothing. -/
theorem allocate_null {s : HeapSystem} (h : s.HeapInv) {c : SizeClass}
    (h0 : (s.allocate c).1 = 0) : (s.allocate c).2 = s := by
  by_cases hnil : (s.k.heap c).nextFreeBlock = 0
  · by_cases hp : s.k.freePageList = 0
    · have hk : s.k.alloc c = (0, none, s.k) := by
        simp [KernelMem.alloc, hnil, KernelMem.allocPage, hp]
      simp [allocate, hk]
    · have hpage : s.k.allocPage.1 = s.k.freePageList := by simp [KernelMem.allocPage, hp]
      have hnext : ((s.k.allocPage.2.addBlock c s.k.freePageList).heap c).nextFreeBlock ≠ 0 := by
        simpa [addBlock] using hp
      have hne := (inv_allocFrom (inv_addBlock h hnil hp) (c := c) hnext).1
      have hk : s.k.alloc c = (((s.k.allocPage.2.addBlock c s.k.freePageList).allocFrom c).1,
          some s.k.freePageList,
          ((s.k.allocPage.2.addBlock c s.k.freePageList).allocFrom c).2) := by
        simp [KernelMem.alloc, hnil, hpage, hp]
      simp only [allocate, hk] at h0
      exact absurd h0 hne
  · have hne := (inv_allocFrom h (c := c) hnil).1
    have hk : s.k.alloc c = ((s.k.allocFrom c).1, none, (s.k.allocFrom c).2) := by
      simp [KernelMem.alloc, hnil]
    simp only [allocate, hk, hne, if_false] at h0

/-- The new allocation begins where the used part of the address space ends. -/
theorem NewInv.extend (h : NewInv start n s) {count : Nat} (hpos : 0 < count)
    (hmap : ∀ j, j < count → s.vmap (s.vmemTop + j * pgSize) ≠ 0 ∧
      s.table 1 (entryOf 1 (s.vmemTop + j * pgSize)) ≠ 0)
    (hinfo : s.readV s.vmemTop = count) :
    NewInv start n { s with vmemTop := s.vmemTop + count * pgSize
                            large := ⟨s.vmemTop, count⟩ :: s.large } := by
  obtain ⟨htop, hal⟩ := h.top
  refine ⟨⟨h.heap, h.pool, h.data, h.table⟩, ⟨by simp only; omega, ?_⟩, fun i hi hlt => ?_,
    fun l hl => ?_, ?_⟩
  · simp only
    rw [Nat.add_mul_mod_self_right, hal]
  · by_cases hold : i * 2 ^ 21 < s.vmemTop
    · exact h.covered i hi hold
    · -- the first page of the 2 MB is one of the new pages
      obtain ⟨j, hj, he⟩ : ∃ j, j < count ∧ s.vmemTop + j * pgSize = i * 2 ^ 21 := by
        simp only at hlt
        refine ⟨(i * 2 ^ 21 - s.vmemTop) / pgSize, ?_, ?_⟩
        · rw [Nat.div_lt_iff_lt_mul (by decide)]
          omega
        · unfold pgSize at *
          omega
      have htab := (hmap j hj).2
      rw [he] at htab
      have hentry : entryOf 1 (i * 2 ^ 21) = i := Nat.mul_div_cancel i (by decide)
      rwa [hentry] at htab
  · rcases List.mem_cons.mp hl with rfl | hl
    · exact ⟨hal, htop, hpos, le_rfl, fun j hj => (hmap j hj).1, hinfo⟩
    · exact (h.large l hl).congr (by simp only; omega) (fun _ _ _ => rfl) rfl
  · exact List.pairwise_cons.mpr ⟨fun l hl => Or.inr (h.large l hl).high, h.apart⟩

theorem phys_aligned {v : Nat} (h : v % pgSize = 0) : s.phys v = s.vmap v := by
  rw [phys, pageOf_aligned h, h, Nat.add_zero]

/-- The word behind a mapped virtual address. -/
theorem VmInv.phys_clientWord (h : VmInv start n s) {v : Nat} (hv : s.vmap (pageOf v) ≠ 0)
    (hal : v % 8 = 0) : s.hs.ClientWord (s.phys v) ∧ pageOf (s.phys v) = s.vmap (pageOf v) := by
  obtain ⟨hown, -⟩ := h.data _ hv
  have hpage := (h.heap.aligned _ (by rw [hown]; simp)).1
  have hpg : pageOf (s.phys v) = s.vmap (pageOf v) := by
    unfold phys
    generalize s.vmap (pageOf v) = p at *
    unfold pageOf pgSize at *
    omega
  refine ⟨⟨?_, Or.inr (by rw [hpg]; exact hown)⟩, hpg⟩
  unfold phys
  unfold pgSize at *
  omega

theorem pageCount_pos (size : Nat) : 0 < pageCount size := by
  unfold pageCount largeInfoSize pgSize
  omega

@[simp] theorem writeV_vmap (s : NewSystem) (va v : Nat) : (s.writeV va v).vmap = s.vmap := rfl

@[simp] theorem writeV_table (s : NewSystem) (va v : Nat) : (s.writeV va v).table = s.table := rfl

@[simp] theorem writeV_vmemTop (s : NewSystem) (va v : Nat) :
    (s.writeV va v).vmemTop = s.vmemTop := rfl

theorem writeV_record (s : NewSystem) (top va v : Nat) (large : List Large) :
    { s with vmemTop := top, large := large }.writeV va v =
      { s.writeV va v with vmemTop := top, large := large } := rfl

/-- The first page of a new allocation gets its `large_mem_info`. -/
theorem NewInv.writeInfo (h : NewInv start n s) (hmap : s.vmap s.vmemTop ≠ 0) (count size : Nat) :
    NewInv start n ((s.writeV s.vmemTop count).writeV (s.vmemTop + 8) size) ∧
      ((s.writeV s.vmemTop count).writeV (s.vmemTop + 8) size).readV s.vmemTop = count := by
  obtain ⟨htop, hal⟩ := h.top
  have hpage : pageOf s.vmemTop = s.vmemTop := pageOf_aligned hal
  have hmod : s.vmemTop % 8 = 0 := by
    unfold pgSize at hal
    omega
  have hpage8 : pageOf (s.vmemTop + 8) = s.vmemTop := by
    unfold pageOf pgSize at *
    omega
  have hphys : s.phys s.vmemTop = s.vmap s.vmemTop := phys_aligned hal
  have hphys8 : s.phys (s.vmemTop + 8) = s.vmap s.vmemTop + 8 := by
    rw [phys, hpage8]
    unfold pgSize at *
    omega
  -- the words of the new first page are no `page_count` of another allocation
  have hother : ∀ l ∈ s.large, ∀ o, o < 16 → s.vmap s.vmemTop + o ≠ s.vmap l.start := by
    intro l hl o ho he
    have hok := h.large l hl
    have hd := h.data _ hmap
    have hd' := h.data _ hok.mapped_start
    have ha1 := (h.heap.aligned _ (by rw [hd.1]; simp)).1
    have ha2 := (h.heap.aligned _ (by rw [hd'.1]; simp)).1
    have hsame : s.vmap s.vmemTop = s.vmap l.start := by
      unfold pgSize at ha1 ha2
      omega
    have huse := hd.2
    rw [hsame, hd'.2] at huse
    have heq := PageUse.data.inj huse
    have hhigh := hok.high
    have hpos : 0 < l.count * pgSize := Nat.mul_pos hok.pos (by decide)
    omega
  have h1 : NewInv start n (s.writeV s.vmemTop count) := by
    refine h.writeK (h.phys_clientWord (by rwa [hpage]) hmod).1 fun l hl => ?_
    rw [hphys]
    exact hother l hl 0 (by omega)
  refine ⟨?_, ?_⟩
  · refine h1.writeK (h.phys_clientWord (v := s.vmemTop + 8) (by rwa [hpage8]) (by omega)).1
      fun l hl => ?_
    have hne := hother l hl 8 (by omega)
    rwa [← hphys8] at hne
  · rw [readV_aligned hal]
    have hne : s.vmap s.vmemTop ≠ s.phys (s.vmemTop + 8) := by omega
    have hkeep : ((s.writeV s.vmemTop count).writeV (s.vmemTop + 8) size).hs.k.mem
        (s.vmap s.vmemTop) = (s.writeV s.vmemTop count).hs.k.mem (s.vmap s.vmemTop) :=
      write_mem_of_ne hne
    have hself : (s.writeV s.vmemTop count).hs.k.mem (s.phys s.vmemTop) = count :=
      write_mem_self _ _ _
    rw [hphys] at hself
    exact hkeep.trans hself

theorem NewInv.newLarge (h : NewInv start n s) {count : Nat} (hpos : 0 < count)
    (hmap : ∀ j, j < count → s.vmap (s.vmemTop + j * pgSize) ≠ 0 ∧
      s.table 1 (entryOf 1 (s.vmemTop + j * pgSize)) ≠ 0) (size : Nat) :
    NewInv start n (({ s with vmemTop := s.vmemTop + count * pgSize
                              large := ⟨s.vmemTop, count⟩ :: s.large }.writeV s.vmemTop
      count).writeV (s.vmemTop + 8) size) := by
  have hmap0 : s.vmap s.vmemTop ≠ 0 := by
    have := (hmap 0 hpos).1
    rwa [Nat.zero_mul, Nat.add_zero] at this
  obtain ⟨hinfo, hread⟩ := h.writeInfo hmap0 count size
  rw [writeV_record, writeV_record]
  exact hinfo.extend hpos hmap hread

theorem largeAlloc_spec (h : NewInv start n s) {size : Nat} {r : Nat × NewSystem}
    (ha : s.largeAlloc size = some r) :
    NewInv start n r.2 ∧ (r.1 = 0 → ∃ lo hi, Frame lo hi s r.2) := by
  simp only [largeAlloc] at ha
  obtain ⟨⟨m, t⟩, hl, ha⟩ := Option.bind_eq_some_iff.mp ha
  obtain ⟨hvm, hf, hmap⟩ := mapLoop_spec h.toVmInv hl
  simp only at hvm hf hmap ha
  have hout : ∀ l ∈ s.large, ∀ hi, l.start + l.count * pgSize ≤ s.vmemTop ∨ hi ≤ l.start :=
    fun l hl _ => Or.inl (h.large l hl).high
  have ht : NewInv start n t := by
    have := h.frame hvm hf (List.Sublist.refl s.large) fun l hl => hout l hl _
    rwa [← hf.large] at this
  split at ha
  · next hm =>
    subst hm
    obtain rfl := Option.some.inj ha
    have hpos := pageCount_pos size
    rw [← hf.top] at hmap ⊢
    exact ⟨ht.newLarge hpos hmap size, fun h0 => by simp [largeInfoSize] at h0⟩
  · split at ha
    · obtain ⟨u, hu, rfl⟩ := Option.map_eq_some_iff.mp ha
      obtain ⟨hvm', hf'⟩ := kvmunmap_spec hvm hu
      refine ⟨?_, fun _ => ⟨0, s.vmemTop + (pageCount size + m) * pgSize, ?_⟩⟩
      · have := ht.frame hvm' hf' (List.Sublist.refl t.large) fun l hl => by
          rw [hf.large] at hl
          exact hout l hl _
        rwa [← hf'.large] at this
      · rw [Nat.add_mul]
        exact (hf.mono fun v hv => by omega).trans (hf'.mono fun v hv => by omega)
    · obtain rfl := Option.some.inj ha
      exact ⟨ht, fun _ => ⟨_, _, hf⟩⟩

theorem tryAlloc_spec (h : NewInv start n s) {size : Nat} {r : Nat × NewSystem}
    (ha : s.tryAlloc size = some r) :
    NewInv start n r.2 ∧ (r.1 = 0 → ∃ lo hi, Frame lo hi s r.2) := by
  simp only [tryAlloc] at ha
  split at ha
  · exact largeAlloc_spec h ha
  · obtain ⟨c, -, rfl⟩ := Option.map_eq_some_iff.mp ha
    refine ⟨h.heapCall (inv_alloc h.heap (allocate_step s.hs c)) (allocate_kept h.heap c),
      fun h0 => ⟨0, 0, ?_⟩⟩
    simp only at h0 ⊢
    rw [allocate_null h.heap h0]
    exact Frame.refl

theorem defaultAlloc_spec (h : NewInv start n s) {fuel size : Nat} {r : Nat × NewSystem}
    (hok : (∃ s', s.tryAlloc size = some (0, s')) → ∀ c, s.hs.TruncateOk (.truncate c))
    (ha : s.defaultAlloc fuel size = some r) : NewInv start n r.2 := by
  simp only [defaultAlloc] at ha
  obtain ⟨⟨ptr, t⟩, hr, ha⟩ := Option.bind_eq_some_iff.mp ha
  obtain ⟨hinv, hnull⟩ := tryAlloc_spec h hr
  split at ha
  · obtain rfl := Option.some.inj ha
    exact hinv
  · next hz =>
    obtain rfl : ptr = 0 := by simpa using hz
    obtain ⟨hs, ht, ha⟩ := Option.bind_eq_some_iff.mp ha
    obtain ⟨lo, hi, hf⟩ := hnull rfl
    have htr : ∀ c, t.hs.TruncateOk (.truncate c) := fun c =>
      truncateOk_frame h.heap hf (hok ⟨t, hr⟩ c)
    obtain rfl := truncateAll_id hinv.heap htr ht
    exact (tryAlloc_spec hinv ha).1

theorem deleteSmall_spec (h : NewInv start n s) (hr : Routed s) {c : SizeClass} {ptr : Nat}
    (hlive : (c, ptr) ∈ s.hs.live) (hd : s.delete ptr = some s') :
    NewInv start n { s' with hs := { s'.hs with live := s'.hs.live.erase (c, ptr) } } := by
  simp only [delete, hr.small _ hlive] at hd
  obtain ⟨k, hf, rfl⟩ := Option.map_eq_some_iff.mp hd
  exact h.heapCall (inv_free h.heap hlive hf) (free_kept h.heap hlive hf _)

theorem deleteLarge_spec (h : NewInv start n s) (hr : Routed s)
    (hend : start + n * pgSize ≤ ioMemStart) {l : Large} (hl : l ∈ s.large)
    (hd : s.delete (l.start + largeInfoSize) = some s') :
    NewInv start n { s' with large := s'.large.erase l } := by
  have hok := h.large l hl
  have hinfo : l.start + largeInfoSize - largeInfoSize = l.start := Nat.add_sub_cancel _ _
  have hcount : l.count * pgSize % 2 ^ 64 / pgSize = l.count := by
    have htop := h.top_le
    have hhigh := hok.high
    have hpg : pgSize = 4096 := rfl
    rw [hpg] at hend hhigh ⊢
    simp only [ioMemStart, vmemStart] at *
    omega
  simp only [delete, hr.large l hl, largeFree, hinfo] at hd
  split at hd
  · cases hd
  · rw [hok.info, hcount] at hd
    obtain ⟨hvm, hf⟩ := kvmunmap_spec h.toVmInv hd
    rw [hf.large]
    refine h.frame hvm hf List.erase_sublist fun m hm => ?_
    -- ranges that begin at different addresses are apart, and `l` occurs once
    have hnodup : s.large.Nodup := h.apart.imp_of_mem fun {x y} hx hy hxy => by
      rintro rfl
      have hpos : 0 < x.count * pgSize := Nat.mul_pos (h.large x hx).pos (by decide)
      rcases hxy with hxy | hxy <;> omega
    have hne : m ≠ l ∧ m ∈ s.large := hnodup.mem_erase_iff.mp hm
    exact h.apart.forall hne.2 hl hne.1

theorem store_spec (h : NewInv start n s) {a v : Nat} (ha : s.ClientWord a) :
    NewInv start n (s.writeK a v) := by
  obtain ⟨hal, hlive | ⟨l, hl, va, hlo, hhi, rfl⟩ | ⟨hown, huse⟩⟩ := ha
  · refine h.writeK ⟨hal, Or.inl hlive⟩ fun l hl he => ?_
    -- the word is in a page of a heap allocator
    obtain ⟨⟨c, x⟩, hx, hle, hlt⟩ := hlive
    obtain ⟨b, i, hb, hi, heq⟩ := h.heap.liveSlot _ hx
    simp only at hb hi heq hle hlt
    have hd := (h.data _ (h.large l hl).mapped_start).1
    have h1 := slotAddr_lt (b := b) hi
    have h2 := slotAddr_ge c b i
    refine client_word_outside h.heap (h.heap.aligned b (by rw [hb]; simp)).1 (by rw [hb]; simp) hd
      (o := 0) (by decide) ⟨by omega, by omega⟩
  · have hok := h.large l hl
    obtain ⟨j, hj, hpage⟩ : ∃ j, j < l.count ∧ pageOf va = l.start + j * pgSize := by
      have hal := hok.aligned
      refine ⟨(va - l.start) / pgSize, ?_, ?_⟩
      · rw [Nat.div_lt_iff_lt_mul (by decide)]
        omega
      · unfold pageOf pgSize largeInfoSize at *
        omega
    have hmapped : s.vmap (pageOf va) ≠ 0 := by
      rw [hpage]
      exact hok.mapped j hj
    have hva : va % 8 = 0 := by
      have hp := (h.heap.aligned _ (by rw [(h.data _ hmapped).1]; simp)).1
      unfold phys at hal
      unfold pgSize at *
      omega
    obtain ⟨hword, hphys⟩ := h.phys_clientWord hmapped hva
    refine h.writeK hword fun m hm he => ?_
    have hokm := h.large m hm
    have hdm := h.data _ hokm.mapped_start
    have hpm := (h.heap.aligned _ (by rw [hdm.1]; simp)).1
    -- the page of the word is the first page of `m`, so `m` is `l` and the word is its first one
    have hsame : s.vmap (pageOf va) = s.vmap m.start := by
      rw [← hphys, he, pageOf_aligned hpm]
    have hstart : pageOf va = m.start := by
      have huse := (h.data _ hmapped).2
      rw [hsame, hdm.2] at huse
      exact (PageUse.data.inj huse).symm
    have hoff : va % pgSize = 0 := by
      unfold phys at he
      omega
    have hva' : va = m.start := by
      rw [← hstart, pageOf_aligned hoff]
    have hlm : l ≠ m := by
      rintro rfl
      unfold largeInfoSize at hlo
      omega
    have hap : Apart l m := h.apart.forall hl hm hlm
    have hposm : 0 < m.count * pgSize := Nat.mul_pos hokm.pos (by decide)
    rcases hap with hap | hap <;> unfold largeInfoSize at * <;> omega
  · refine h.writeK ⟨hal, Or.inr hown⟩ fun l hl he => ?_
    have hd := h.data _ (h.large l hl).mapped_start
    have hp := (h.heap.aligned _ (by rw [hd.1]; simp)).1
    rw [he, pageOf_aligned hp, hd.2] at huse
    cases huse

theorem givePage_other (h : NewInv start n s) {p : Nat} (hown : s.hs.owner p = .client)
    (huse : s.use p = .other) : NewInv start n (s.givePage p) := by
  obtain ⟨hinv, hpool, hkept⟩ := givePage_kept h.toVmInv hown
  have hdata : ∀ v, s.vmap v ≠ 0 → s.vmap v ≠ p := by
    rintro v hv rfl
    rw [(h.data v hv).2] at huse
    cases huse
  have htable : ∀ l i, s.table l i ≠ 0 → s.table l i ≠ p := by
    rintro l i hl rfl
    rw [(h.table l i hl).2] at huse
    cases huse
  refine ⟨⟨hinv, hpool, fun v hv => ?_, fun l i hl => ?_⟩, h.top, h.covered, fun l hl => ?_,
    h.apart⟩
  · have hd := h.data v hv
    exact ⟨((hkept _ (by rw [hd.1]; simp) (hdata v hv)).1).trans hd.1, hd.2⟩
  · have hd := h.table l i hl
    exact ⟨((hkept _ (by rw [hd.1]; simp) (htable l i hl)).1).trans hd.1, hd.2⟩
  · have hok := h.large l hl
    have hd := h.data _ hok.mapped_start
    refine hok.congr le_rfl (fun _ _ _ => rfl) ?_
    have := (hkept _ (by rw [hd.1]; simp) (hdata _ hok.mapped_start)).2 0 (by decide)
    simpa using this

theorem takePage_other (h : NewInv start n s) : NewInv start n (s.takePage .other).2 := by
  by_cases h0 : (s.takePage .other).1 = 0
  · rwa [takePage_zero h0]
  · obtain ⟨hvm, hg, -⟩ := takePage_spec h.toVmInv h0
    have := h.frame hvm hg.frame (List.Sublist.refl s.large) fun l _ => Or.inr (Nat.zero_le _)
    rwa [← hg.frame.large] at this

/-! ## Every step, every run -/

theorem newInv_step (hend : start + n * pgSize ≤ ioMemStart) (hstart : kernBase ≤ start)
    {op : NewOp} (h : NewInv start n s) (hok : s.NewOk op) (hs : Step s op s') :
    NewInv start n s' := by
  have hr := h.routed hend hstart
  cases hs with
  | new _ ha => exact defaultAlloc_spec h hok ha
  | deleteSmall hlive hd => exact deleteSmall_spec h hr hlive hd
  | deleteLarge hl hd => exact deleteLarge_spec h hr hend hl hd
  | takePage => exact takePage_other h
  | givePage hown huse => exact givePage_other h hown huse
  | store ha _ => exact store_spec h ha

theorem newInv_boot (mem : Nat → Nat) (hal : start % pgSize = 0) (hstart : kernBase ≤ start) :
    NewInv start n (boot mem start n) := by
  have h0 : start ≠ 0 := by
    simp only [kernBase] at hstart
    omega
  refine ⟨⟨inv_boot mem h0 hal, fun p hp => ?_, fun v hv => absurd rfl hv,
    fun l i hl => absurd rfl hl⟩, ⟨le_rfl, show vmemStart % pgSize = 0 by rfl⟩,
    fun i hi hlt => ?_,
    fun l hl => absurd hl List.not_mem_nil, List.Pairwise.nil⟩
  · simp only [boot, HeapSystem.boot] at hp
    split at hp
    · next hin => exact hin.2
    · exact absurd rfl hp
  · have hlt' : i * 2 ^ 21 < vmemStart := hlt
    have hi' : vmemStart / 2 ^ 21 ≤ i := hi
    simp only [vmemStart] at hlt' hi'
    omega

/-- In every run of requests, deletions of live pointers, stores of the clients and page requests of
the rest of the kernel, in which no truncation after a failed request meets an empty block, every
live pointer is routed to the allocator it came from. -/
theorem routed_ok (mem : Nat → Nat) (start n : Nat) (hal : start % pgSize = 0)
    (hstart : kernBase ≤ start) (hend : start + n * pgSize ≤ ioMemStart) (ops : List NewOp)
    (s : NewSystem) (hrun : Run (Guarded Step NewOk) (boot mem start n) ops s) : Routed s :=
  have hinv : NewInv start n s :=
    hrun.invariant (I := NewInv start n) (fun _ _ _ h hs => newInv_step hend hstart h hs.1 hs.2)
      (newInv_boot mem hal hstart)
  hinv.routed hend hstart

/-! ## Truncation with empty blocks -/

/-- The pointer and the state after a request, on block lists of at most four blocks. -/
def afterNew (s : NewSystem) (size : Nat) : Nat × NewSystem :=
  (s.defaultAlloc 4 size).getD (0, s)

theorem afterNew_eq {s : NewSystem} {size : Nat} (h : (s.defaultAlloc 4 size).isSome) :
    s.defaultAlloc 4 size = some (afterNew s size) := by
  obtain ⟨r, hr⟩ := Option.isSome_iff_exists.mp h
  rw [afterNew, hr, Option.getD_some]

theorem afterNew_step (s : NewSystem) (size : Nat) (hsize : size ≤ 128 * 1024 * 1024)
    (h : (s.defaultAlloc 4 size).isSome) :
    Step s (.new size (afterNew s size).1) (afterNew s size).2 :=
  Step.new hsize (afterNew_eq h)

/-- A pool of two pages. -/
def twoPages : NewSystem := boot (fun _ => 0) 0x80300000 2

/-- 1024 bytes were allocated and deleted again: the block is empty. -/
def emptyBlock : NewSystem :=
  let s := (afterNew twoPages 1024).2
  let s' := (s.delete (afterNew twoPages 1024).1).getD s
  { s' with hs := { s'.hs with live := s'.hs.live.erase (.s1024, (afterNew twoPages 1024).1) } }

/-- 8 bytes take the other page, so that 16 bytes need a truncation. -/
def truncatedBlock : NewSystem := (afterNew (afterNew emptyBlock 8).2 16).2

theorem emptyBlock_step :
    Step (afterNew twoPages 1024).2 (.delete (afterNew twoPages 1024).1) emptyBlock := by
  have hd : ((afterNew twoPages 1024).2.delete (afterNew twoPages 1024).1).isSome := by
    decide +kernel
  obtain ⟨s', hs'⟩ := Option.isSome_iff_exists.mp hd
  have hstep := Step.deleteSmall (c := .s1024) (by decide +kernel) hs'
  have heq : ((afterNew twoPages 1024).2.delete (afterNew twoPages 1024).1).getD
      (afterNew twoPages 1024).2 = s' := by rw [hs', Option.getD_some]
  rw [← heq] at hstep
  exact hstep

/-- A truncation gives the empty block of `heap_allocator<1024>` back and `heap_allocator<16>`
takes the page, but the next request of 1024 bytes is served from it: the pointer is passed to
`heap_allocator<16>::free`. -/
theorem truncated_misrouted :
    ¬ ∀ (mem : Nat → Nat) (start n : Nat), start % pgSize = 0 → kernBase ≤ start →
      start + n * pgSize ≤ ioMemStart → ∀ (ops : List NewOp) (s : NewSystem),
      Run Step (boot mem start n) ops s → Routed s := by
  intro hall
  have hsize : 1024 ≤ 128 * 1024 * 1024 := by decide
  have hrun : Run Step twoPages _ (afterNew truncatedBlock 1024).2 :=
    ((((Run.single (afterNew_step _ 1024 hsize (by decide +kernel))).snoc emptyBlock_step).snoc
      (afterNew_step _ 8 (by decide) (by decide +kernel))).snoc
      (afterNew_step _ 16 (by decide) (by decide +kernel))).snoc
      (afterNew_step _ 1024 hsize (by decide +kernel))
  have hrouted := hall (fun _ => 0) 0x80300000 2 (by decide) (by decide) (by decide) _ _ hrun
  have hlive : (SizeClass.s1024, (afterNew truncatedBlock 1024).1) ∈
      (afterNew truncatedBlock 1024).2.hs.live := by decide +kernel
  have hroute : (afterNew truncatedBlock 1024).2.route (afterNew truncatedBlock 1024).1 =
      .heap .s16 := by decide +kernel
  have hsmall := hrouted.small _ hlive
  rw [hroute] at hsmall
  cases hsmall

/-- A request that succeeds at once needs no truncation. -/
theorem afterNew_guarded (s : NewSystem) (size : Nat) (hsize : size ≤ 128 * 1024 * 1024)
    (h : (s.defaultAlloc 4 size).isSome) (hfirst : ((s.tryAlloc size).map Prod.fst) ≠ some 0) :
    Guarded Step NewOk s (.new size (afterNew s size).1) (afterNew s size).2 := by
  refine ⟨?_, afterNew_step s size hsize h⟩
  rintro ⟨s', hs'⟩
  rw [hs'] at hfirst
  exact absurd rfl hfirst

/-- 5000 bytes from `large_mem_allocator`, then 24 bytes from the heap. -/
theorem routed_ok_two :
    ∃ s, Run (Guarded Step NewOk) (boot (fun _ => 0) 0x80300000 12)
      [.new 5000 0x100000010, .new 24 0x80307020] s ∧
      s.large = [⟨0x100000000, 2⟩] ∧ s.hs.live = [(.s32, 0x80307020)] ∧ Routed s := by
  let s0 := boot (fun _ => 0) 0x80300000 12
  have h1 : Guarded Step NewOk s0 (.new 5000 0x100000010) (afterNew s0 5000).2 := by
    have hstep := afterNew_guarded s0 5000 (by decide) (by decide +kernel)
      (by decide +kernel)
    rwa [show (afterNew s0 5000).1 = 0x100000010 by decide +kernel] at hstep
  have h2 : Guarded Step NewOk (afterNew s0 5000).2 (.new 24 0x80307020)
      (afterNew (afterNew s0 5000).2 24).2 := by
    have hstep := afterNew_guarded (afterNew s0 5000).2 24 (by decide)
      (by decide +kernel) (by decide +kernel)
    rwa [show (afterNew (afterNew s0 5000).2 24).1 = 0x80307020 by decide +kernel] at hstep
  have hrun := (Run.single h1).snoc h2
  exact ⟨_, hrun, by decide +kernel, by decide +kernel,
    routed_ok _ _ _ (by decide) (by decide) (by decide) _ _ hrun⟩

end NewSystem

end CoroCore
