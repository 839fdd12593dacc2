import CoroCore.Mm.HeapSafety
import Mathlib.Data.Prod.Basic

/-!
# One block and its clients: `heap_block_t`

The free slots of a block are linked through their own first bytes, which belong to the clients as
long as a slot is live. `BlockStep` is a call on one block or a store into a live slot.

* `blockInv_step`: what every step keeps;
* `block_free_list_sound`: the free list after any calls and stores, from the constructor on.
-/

namespace CoroCore

open Lib KernelMem HeapSystem

inductive BlockOp
  | alloc
  | free (ptr : Nat)
  | store (a v : Nat)
  deriving DecidableEq

/-- Memory, and the results of `alloc` that are not freed. -/
structure BlockState where
  k : KernelMem
  live : List Nat

/-- A call on the block `b`, or a store of a client. `free` is called on live results, and a client
stores into what it holds. -/
inductive BlockStep (c : SizeClass) (b : Nat) : BlockState → BlockOp → BlockState → Prop
  | allocNull {s : BlockState} {k : KernelMem} :
      s.k.blockAlloc c b = (0, k) → BlockStep c b s .alloc ⟨k, s.live⟩
  | alloc {s : BlockState} {ptr : Nat} {k : KernelMem} :
      s.k.blockAlloc c b = (ptr, k) → ptr ≠ 0 → BlockStep c b s .alloc ⟨k, ptr :: s.live⟩
  | free {s : BlockState} {ptr : Nat} {k : KernelMem} :
      ptr ∈ s.live → s.k.blockFree c b ptr = some k →
      BlockStep c b s (.free ptr) ⟨k, s.live.erase ptr⟩
  | store {s : BlockState} {ptr a v : Nat} :
      ptr ∈ s.live → ptr ≤ a → a < ptr + c.size →
      BlockStep c b s (.store a v) ⟨s.k.write a v, s.live⟩

/-- The block after `new (b) heap_block_t<size>()`. -/
def newBlockState (c : SizeClass) (k : KernelMem) (b : Nat) : BlockState := ⟨k.newBlock c b, []⟩

/-- The slot chain has the slots that are not live, and the live ones are different slots. -/
structure BlockInv (c : SizeClass) (b : Nat) (s : BlockState) : Prop where
  shape : BlockOk s.k (s.live.map (Prod.mk c)) c b
  slot : ∀ ptr ∈ s.live, ∃ i < c.capacity, ptr = slotAddr c b i
  nodup : s.live.Nodup

section

variable {c : SizeClass} {b ptr a v : Nat} {s s' : BlockState} {op : BlockOp}

theorem mem_tagged {live : List Nat} : (c, ptr) ∈ live.map (Prod.mk c) ↔ ptr ∈ live :=
  List.mem_map_of_injective (Prod.mk_right_injective c)

theorem slotAddr_ne_zero (c : SizeClass) (b i : Nat) : slotAddr c b i ≠ 0 := by
  have h := slotAddr_ge c b i
  omega

theorem blockInv_new (c : SizeClass) (k : KernelMem) (b : Nat) :
    BlockInv c b (newBlockState c k b) where
  shape := BlockOk.new fun _ _ => List.not_mem_nil
  slot := fun _ h => absurd h List.not_mem_nil
  nodup := List.nodup_nil

/-- A block that is not full answers a slot that was not live. -/
theorem BlockInv.alloc (h : BlockInv c b s) (hu : s.k.blockUsed b ≠ c.capacity) :
    ∃ i < c.capacity, slotAddr c b i ∉ s.live ∧ (s.k.blockAlloc c b).1 = slotAddr c b i ∧
      BlockInv c b ⟨(s.k.blockAlloc c b).2, slotAddr c b i :: s.live⟩ := by
  obtain ⟨i, hi, hcap, hfree, -, hshape⟩ := h.shape.take hu
  have hnot : slotAddr c b i ∉ s.live := fun hin => hfree (mem_tagged.mpr hin)
  rw [blockAlloc_eq hu hi]
  refine ⟨i, hcap, hnot, rfl, hshape, fun ptr hptr => ?_, List.nodup_cons.mpr ⟨hnot, h.nodup⟩⟩
  rcases List.mem_cons.mp hptr with rfl | hptr
  · exact ⟨i, hcap, rfl⟩
  · exact h.slot ptr hptr

theorem blockAlloc_full (hu : s.k.blockUsed b = c.capacity) :
    s.k.blockAlloc c b = (0, s.k) := by
  rw [blockAlloc, blockFull, decide_eq_true hu, if_pos rfl]

/-- A live result can be freed. -/
theorem BlockInv.free (h : BlockInv c b s) (hin : ptr ∈ s.live) :
    ∃ k, s.k.blockFree c b ptr = some k ∧ BlockInv c b ⟨k, s.live.erase ptr⟩ := by
  obtain ⟨i, hi, rfl⟩ := h.slot ptr hin
  obtain ⟨hu, hgive⟩ := h.shape.give (h.nodup.map (Prod.mk_right_injective c)) hi
    (mem_tagged.mpr hin)
  obtain ⟨w, hwu, hwi, hws, heq⟩ := blockFree_eq hi hu
  refine ⟨_, heq, (hgive w hwu hwi hws).congr rfl (fun j _ => ?_) (fun _ _ _ => rfl),
    fun ptr hptr => h.slot ptr (List.mem_of_mem_erase hptr), h.nodup.erase _⟩
  have hne : (c, slotAddr c b j) ≠ (c, slotAddr c b i) ↔ slotAddr c b j ≠ slotAddr c b i :=
    (Prod.mk_right_injective c).ne_iff
  rw [(h.nodup.map (Prod.mk_right_injective c)).mem_erase_iff, hne, mem_tagged, mem_tagged,
    h.nodup.mem_erase_iff]

/-- A store into a live slot changes no word that the block reads. -/
theorem BlockInv.store_frame (h : BlockInv c b s) (hin : ptr ∈ s.live) (hlo : ptr ≤ a)
    (hhi : a < ptr + c.size) :
    (s.k.write a v).mem b = s.k.mem b ∧ ∀ i, slotAddr c b i ∉ s.live →
      (s.k.write a v).mem (slotAddr c b i) = s.k.mem (slotAddr c b i) := by
  obtain ⟨j, -, rfl⟩ := h.slot ptr hin
  have hge := slotAddr_ge c b j
  refine ⟨write_mem_of_ne (by omega), fun i hi => write_mem_of_ne ?_⟩
  have hpos := c.size_pos
  rcases Nat.lt_trichotomy i j with hlt | rfl | hgt
  · have := slotAddr_sep (c := c) (b := b) hlt
    omega
  · exact absurd hin hi
  · have := slotAddr_sep (c := c) (b := b) hgt
    omega

theorem BlockInv.store (h : BlockInv c b s) (hin : ptr ∈ s.live) (hlo : ptr ≤ a)
    (hhi : a < ptr + c.size) : BlockInv c b ⟨s.k.write a v, s.live⟩ := by
  obtain ⟨hheader, hslot⟩ := h.store_frame (v := v) hin hlo hhi
  refine ⟨h.shape.congr hheader (fun _ _ => Iff.rfl) fun i _ hi => hslot i fun hin => ?_, h.slot,
    h.nodup⟩
  exact hi (mem_tagged.mpr hin)

theorem blockInv_step (h : BlockInv c b s) (hs : BlockStep c b s op s') : BlockInv c b s' := by
  cases hs with
  | allocNull hk =>
    have hu : s.k.blockUsed b = c.capacity := by
      by_contra hu
      obtain ⟨i, -, -, hi, -⟩ := h.alloc hu
      rw [hk] at hi
      exact slotAddr_ne_zero c b i hi.symm
    rw [blockAlloc_full hu] at hk
    cases hk
    exact h
  | alloc hk hne =>
    have hu : s.k.blockUsed b ≠ c.capacity := fun hu => by
      rw [blockAlloc_full hu] at hk
      exact hne (congrArg Prod.fst hk).symm
    obtain ⟨i, -, -, hi, hinv⟩ := h.alloc hu
    rw [hk] at hi hinv
    subst hi
    exact hinv
  | free hin hk =>
    obtain ⟨k, hk', hinv⟩ := h.free hin
    cases hk.symm.trans hk'
    exact hinv
  | store hin hlo hhi => exact h.store hin hlo hhi

/-- The live slots are the ones that `used` counts. -/
theorem BlockInv.length_live (h : BlockInv c b s) : s.live.length = s.k.blockUsed b := by
  obtain ⟨I, -, hInd, hImem, hlen, -⟩ := h.shape
  have hinj : Function.Injective (slotAddr c b) := fun _ _ he => slotAddr_inj he
  -- the free slots and the live ones together are all slots
  have hperm : (I.map (slotAddr c b) ++ s.live).Perm
      ((List.range c.capacity).map (slotAddr c b)) := by
    refine (List.perm_ext_iff_of_nodup ?_ (List.nodup_range.map hinj)).mpr fun x => ?_
    · refine List.nodup_append'.mpr ⟨hInd.map hinj, h.nodup, fun x hx hlive => ?_⟩
      obtain ⟨i, hi, rfl⟩ := List.mem_map.mp hx
      exact ((hImem i).mp hi).2 (mem_tagged.mpr hlive)
    · rw [List.mem_append, List.mem_map, List.mem_map]
      constructor
      · rintro (⟨i, hi, rfl⟩ | hlive)
        · exact ⟨i, List.mem_range.mpr ((hImem i).mp hi).1, rfl⟩
        · obtain ⟨i, hi, rfl⟩ := h.slot x hlive
          exact ⟨i, List.mem_range.mpr hi, rfl⟩
      · rintro ⟨i, hi, rfl⟩
        by_cases hlive : slotAddr c b i ∈ s.live
        · exact .inr hlive
        · have hfree : (c, slotAddr c b i) ∉ s.live.map (Prod.mk c) := fun hin =>
            hlive (mem_tagged.mp hin)
          exact .inl ⟨i, (hImem i).mpr ⟨List.mem_range.mp hi, hfree⟩, rfl⟩
  have hall := hperm.length_eq
  rw [List.length_append, List.length_map, List.length_map, List.length_range] at hall
  omega

end

/-- In every state of every run of one block: the chain from `next_free_index` on goes through
each slot that is not live once and ends; `alloc` answers null when `capacity` slots are live, and
else a slot that is not; a live result can be freed; and what a client stores into a live slot
leaves the chain as it is. -/
theorem block_free_list_sound {c : SizeClass} {k : KernelMem} {b : Nat} {ops : List BlockOp}
    {s : BlockState} (hrun : Run (BlockStep c b) (newBlockState c k b) ops s) :
    (∃ I, Chain (s.k.slotNext c b) noIndex (s.k.blockNextFreeIndex b) I ∧
      I.length = c.capacity - s.k.blockUsed b ∧ I.Nodup ∧
      (∀ i, i ∈ I ↔ i < c.capacity ∧ slotAddr c b i ∉ s.live) ∧
      ∀ ptr ∈ s.live, ∀ a v, ptr ≤ a → a < ptr + c.size →
        Chain ((s.k.write a v).slotNext c b) noIndex ((s.k.write a v).blockNextFreeIndex b) I ∧
          (s.k.write a v).blockUsed b = s.k.blockUsed b) ∧
      s.k.blockUsed b = s.live.length ∧ s.live.length ≤ c.capacity ∧ s.live.Nodup ∧
      (∀ ptr ∈ s.live, ∃ i < c.capacity, ptr = slotAddr c b i) ∧
      ((s.k.blockAlloc c b).1 = 0 ↔ s.live.length = c.capacity) ∧
      ((s.k.blockAlloc c b).1 ≠ 0 →
        ∃ i < c.capacity, (s.k.blockAlloc c b).1 = slotAddr c b i ∧ slotAddr c b i ∉ s.live) ∧
      ∀ ptr ∈ s.live, ∃ k, s.k.blockFree c b ptr = some k := by
  have hinv : BlockInv c b s := hrun.invariant (I := BlockInv c b)
    (fun _ _ _ hi hs => blockInv_step hi hs) (blockInv_new c k b)
  have hcount := hinv.length_live
  have hfull : s.live.length = c.capacity → s.k.blockAlloc c b = (0, s.k) := fun hu =>
    blockAlloc_full (hcount ▸ hu)
  refine ⟨?_, hcount.symm, hcount ▸ hinv.shape.used_le, hinv.nodup, hinv.slot, ?_, fun hne => ?_,
    fun ptr hin => (hinv.free hin).imp fun _ hk => hk.1⟩
  · obtain ⟨I, hI, hInd, hImem, hlen, -⟩ := hinv.shape
    have hmem : ∀ i, i ∈ I ↔ i < c.capacity ∧ slotAddr c b i ∉ s.live := fun i => by
      rw [hImem i, mem_tagged]
    refine ⟨I, hI, by omega, hInd, hmem, fun ptr hin a v hlo hhi => ?_⟩
    obtain ⟨hheader, hslot⟩ := hinv.store_frame (v := v) hin hlo hhi
    refine ⟨?_, congrArg infoUsed hheader⟩
    rw [show (s.k.write a v).blockNextFreeIndex b = s.k.blockNextFreeIndex b from
      congrArg infoNextFreeIndex hheader]
    exact hI.congr fun i hi => congrArg (· % 2 ^ 32) (hslot i ((hmem i).mp hi).2)
  · refine ⟨fun hnull => ?_, fun hu => congrArg Prod.fst (hfull hu)⟩
    by_contra hu
    obtain ⟨i, -, -, hi, -⟩ := hinv.alloc (hcount ▸ hu)
    exact slotAddr_ne_zero c b i (hi.symm.trans hnull)
  · obtain ⟨i, hi, hfree, heq, -⟩ := hinv.alloc (hcount ▸ fun hu =>
      hne (congrArg Prod.fst (hfull hu)))
    exact ⟨i, hi, heq, hfree⟩

/-- A block of three slots: one is taken, overwritten, and another one is taken. -/
theorem block_free_list_sound_two :
    ∃ s, Run (BlockStep .s1024 4096)
      (newBlockState .s1024 ⟨fun _ => 0, 0, 0, fun _ => ⟨0, 0, 0, 0⟩⟩ 4096)
      [.alloc, .store 5120 7, .alloc] s ∧ s.live = [6144, 5120] ∧ s.k.blockUsed 4096 = 2 := by
  let k₀ : KernelMem := newBlock .s1024 ⟨fun _ => 0, 0, 0, fun _ => ⟨0, 0, 0, 0⟩⟩ 4096
  let k₁ : KernelMem := (k₀.blockAlloc .s1024 4096).2
  let k₂ : KernelMem := k₁.write 5120 7
  have h₁ : BlockStep .s1024 4096 ⟨k₀, []⟩ .alloc ⟨k₁, [5120]⟩ :=
    .alloc (Prod.ext (by decide) rfl) (by decide)
  have h₂ : BlockStep .s1024 4096 ⟨k₁, [5120]⟩ (.store 5120 7) ⟨k₂, [5120]⟩ :=
    .store (List.mem_singleton.mpr rfl) (Nat.le_refl _) (by decide)
  have h₃ : BlockStep .s1024 4096 ⟨k₂, [5120]⟩ .alloc
      ⟨(k₂.blockAlloc .s1024 4096).2, [6144, 5120]⟩ :=
    .alloc (Prod.ext (by decide) rfl) (by decide)
  have hrun := ((Run.single h₁).snoc h₂).snoc h₃
  exact ⟨_, hrun, rfl, (block_free_list_sound hrun).2.1⟩

end CoroCore
