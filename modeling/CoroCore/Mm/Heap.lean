import CoroCore.Lib.Run
import CoroCore.Lib.Chain
import Mathlib.Algebra.Group.Nat.Defs

/-!
# The kernel heap: `mm/allocator.h`

Memory is a map from 8-byte aligned addresses to 64-bit words; both the free page list
and the heap blocks are threaded through the pages themselves:

* a free page keeps `page_info::next_free_page` in its first word;
* a `heap_block_t<size>` keeps `_size`, `used` and `next_free_index` in its first word
  (16, 16 and 32 bits), `next_block` and `next_free_block` in the next two, and a free
  slot keeps the index of the next free slot in its first four bytes.

This is the build without `MEMORY_DEBUG`. Every operation runs under its spin lock and is
one step. `0` is the null pointer.
-/

namespace CoroCore

abbrev pgSize : Nat := 4096

/-- The index stored in the last free slot, `(uint32)-1`. -/
def noIndex : Nat := 0xFFFFFFFF

/-- The eight instances of `heap_allocator<size>`. -/
inductive SizeClass
  | s8 | s16 | s32 | s64 | s128 | s256 | s512 | s1024
deriving DecidableEq, Repr

namespace SizeClass

def size : SizeClass → Nat
  | s8 => 8 | s16 => 16 | s32 => 32 | s64 => 64
  | s128 => 128 | s256 => 256 | s512 => 512 | s1024 => 1024

/-- `sizeof(__heap_block_info_t)`: 24 bytes of fields, aligned to `size`. -/
def infoSize (c : SizeClass) : Nat := (24 + c.size - 1) / c.size * c.size

/-- `heap_block_t<size>::capacity`. -/
def capacity (c : SizeClass) : Nat := (pgSize - c.infoSize) / c.size

end SizeClass

/-- `class heap_allocator<size>`. -/
structure HeapAllocator where
  headBlock : Nat
  nextFreeBlock : Nat
  allocated : Nat
  used : Nat
deriving DecidableEq, Repr

/-- Memory, `kernel_allocator` and the heap allocators over it. -/
structure KernelMem where
  mem : Nat → Nat
  freePageList : Nat
  freePageCount : Nat
  heap : SizeClass → HeapAllocator

namespace KernelMem

/-! ## Words and block fields -/

def write (k : KernelMem) (a v : Nat) : KernelMem :=
  { k with mem := Function.update k.mem a v }

def setHeap (k : KernelMem) (c : SizeClass) (h : HeapAllocator) : KernelMem :=
  { k with heap := Function.update k.heap c h }

/-- The first word of a block. -/
def packInfo (size used nextFreeIndex : Nat) : Nat :=
  size % 2 ^ 16 + used % 2 ^ 16 * 2 ^ 16 + nextFreeIndex % 2 ^ 32 * 2 ^ 32

def infoUsed (w : Nat) : Nat := w / 2 ^ 16 % 2 ^ 16
def infoNextFreeIndex (w : Nat) : Nat := w / 2 ^ 32 % 2 ^ 32
def infoBlockSize (w : Nat) : Nat := w % 2 ^ 16

def blockUsed (k : KernelMem) (b : Nat) : Nat := infoUsed (k.mem b)
def blockNextFreeIndex (k : KernelMem) (b : Nat) : Nat := infoNextFreeIndex (k.mem b)
def nextBlock (k : KernelMem) (b : Nat) : Nat := k.mem (b + 8)
def nextFreeBlock (k : KernelMem) (b : Nat) : Nat := k.mem (b + 16)

/-- The address of `data[i]` of a block. -/
def slotAddr (c : SizeClass) (b i : Nat) : Nat := b + c.infoSize + i * c.size

/-- `*(uint32*)data[i]`. -/
def slotNext (c : SizeClass) (k : KernelMem) (b i : Nat) : Nat := k.mem (slotAddr c b i) % 2 ^ 32

/-- `*(uint32*)p = v`: the upper half of the word stays. -/
def writeLow (k : KernelMem) (p v : Nat) : KernelMem :=
  k.write p (k.mem p / 2 ^ 32 * 2 ^ 32 + v % 2 ^ 32)

def blockFull (c : SizeClass) (k : KernelMem) (b : Nat) : Bool := k.blockUsed b = c.capacity
def blockEmpty (k : KernelMem) (b : Nat) : Bool := k.blockUsed b = 0

/-! ## `class allocator` -/

/-- `allocator::free_page` on a page of the pool (other addresses panic). -/
def freePage (k : KernelMem) (pa : Nat) : KernelMem :=
  { k.write pa k.freePageList with freePageList := pa, freePageCount := k.freePageCount + 1 }

/-- `allocator::alloc_page`. -/
def allocPage (k : KernelMem) : Nat × KernelMem :=
  if k.freePageList = 0 then (0, k)
  else (k.freePageList,
    { k with freePageList := k.mem k.freePageList, freePageCount := k.freePageCount - 1 })

/-- The constructor of `allocator`: frees the `n` pages from `start` on. -/
def initPages (k : KernelMem) (start : Nat) : Nat → KernelMem
  | 0 => k
  | n + 1 => (initPages k start n).freePage (start + n * pgSize)

/-! ## `struct heap_block_t` -/

/-- The words the constructor of `heap_block_t` stores, by their offset in the page.
Padding after the fields and after the last slot keeps the `old` contents. -/
def initWord (c : SizeClass) (off old : Nat) : Nat :=
  if off = 0 then packInfo c.size 0 0
  else if off = 8 ∨ off = 16 then 0
  else if off < c.infoSize ∨ c.infoSize + c.capacity * c.size ≤ off then old
  else if (off - c.infoSize) % c.size = 0 then
    if (off - c.infoSize) / c.size = c.capacity - 1 then noIndex
    else (off - c.infoSize) / c.size + 1
  else 0

/-- `new (b) heap_block_t<size>()`. -/
def newBlock (c : SizeClass) (k : KernelMem) (b : Nat) : KernelMem :=
  { k with mem := fun a => if b ≤ a ∧
    a < b + pgSize then initWord c (a - b) (k.mem a) else k.mem a }

/-- `heap_block_t::alloc`. -/
def blockAlloc (c : SizeClass) (k : KernelMem) (b : Nat) : Nat × KernelMem :=
  if k.blockFull c b then (0, k)
  else
    let i := k.blockNextFreeIndex b
    (slotAddr c b i,
      k.write b (packInfo (infoBlockSize (k.mem b)) (k.blockUsed b + 1) (k.slotNext c b i)))

/-- `heap_block_t::free`; `none` is its panic. -/
def blockFree (c : SizeClass) (k : KernelMem) (b ptr : Nat) : Option KernelMem :=
  let i := (ptr - (b + c.infoSize)) / c.size
  if c.capacity ≤ i then none
  else
    let k' := k.writeLow ptr (k.blockNextFreeIndex b)
    some (k'.write b (packInfo (infoBlockSize (k'.mem b)) (k'.blockUsed b + (2 ^ 16 - 1)) i))

/-! ## `class heap_allocator` -/

/-- The end of `heap_allocator::alloc`, where `next_free_block` is a block. -/
def allocFrom (c : SizeClass) (k : KernelMem) : Nat × KernelMem :=
  let b := (k.heap c).nextFreeBlock
  let r := k.blockAlloc c b
  let h := r.2.heap c
  let next := if r.2.blockFull c b then r.2.nextFreeBlock b else h.nextFreeBlock
  (r.1, r.2.setHeap c { h with nextFreeBlock := next, used := h.used + c.size })

/-- The part of `heap_allocator::alloc` that makes a block out of a new page. -/
def addBlock (c : SizeClass) (k : KernelMem) (b : Nat) : KernelMem :=
  let k' := k.newBlock c b
  let h := k'.heap c
  (k'.write (b + 8) h.headBlock).setHeap c
    { headBlock := b, nextFreeBlock := b, allocated := h.allocated + pgSize, used := h.used }

/-- `heap_allocator::alloc`: the pointer and the page obtained on the way, if any. -/
def alloc (c : SizeClass) (k : KernelMem) : Nat × Option Nat × KernelMem :=
  if (k.heap c).nextFreeBlock = 0 then
    let r := k.allocPage
    if r.1 = 0 then (0, none, r.2)
    else
      let r' := (r.2.addBlock c r.1).allocFrom c
      (r'.1, some r.1, r'.2)
  else
    let r := k.allocFrom c
    (r.1, none, r.2)

/-- `heap_allocator::free`. -/
def free (c : SizeClass) (k : KernelMem) (ptr : Nat) : Option KernelMem :=
  let b := ptr - ptr % pgSize
  let full := k.blockFull c b
  (k.blockFree c b ptr).map fun k =>
    let h := k.heap c
    if full then
      (k.write (b + 16) h.nextFreeBlock).setHeap c
        { h with nextFreeBlock := b, used := h.used - c.size }
    else k.setHeap c { h with used := h.used - c.size }

/-- The loop of `heap_allocator::truncate` from `block` with `prev` before it. It returns
the pages it gives back; `none` when the block list is longer than `fuel`. -/
def truncateLoop (c : SizeClass) : Nat → KernelMem → Nat → Nat → Option (List Nat × KernelMem)
  | fuel, k, prev, block =>
    if block = 0 then some ([], k)
    else match fuel with
      | 0 => none
      | fuel + 1 =>
        let next := k.nextBlock block
        if k.blockEmpty block then
          let k := if prev = 0 then k.setHeap c { k.heap c with headBlock := next }
            else k.write (prev + 8) next
          let k := k.freePage block
          let h := k.heap c
          let k := k.setHeap c { h with allocated := h.allocated - pgSize }
          (truncateLoop c fuel k prev next).map fun r => (block :: r.1, r.2)
        else truncateLoop c fuel k block next

/-- `heap_allocator::truncate`. -/
def truncate (c : SizeClass) (fuel : Nat) (k : KernelMem) : Option (List Nat × KernelMem) :=
  truncateLoop c fuel k 0 (k.heap c).headBlock

end KernelMem

/-! ## The heap and its clients -/

/-- Who holds a page. -/
inductive Owner
  | outside
  | free
  | heap (c : SizeClass)
  | client
deriving DecidableEq, Repr

/-- The kernel memory with the record of its clients: the holder of every page, from the
`alloc_page` and `free_page` calls so far, and the results of `alloc` not yet freed. -/
structure HeapSystem where
  k : KernelMem
  owner : Nat → Owner
  live : List (SizeClass × Nat)

/-- A call, or a store by a client into memory it holds. -/
inductive HeapOp
  | alloc (c : SizeClass)
  | free (c : SizeClass) (ptr : Nat)
  | truncate (c : SizeClass)
  | allocPage
  | freePage (page : Nat)
  | store (a v : Nat)

namespace HeapSystem

open KernelMem

def pageOf (a : Nat) : Nat := a - a % pgSize

/-- The word at `a` belongs to a live allocation or to a page of another client. -/
def ClientWord (s : HeapSystem) (a : Nat) : Prop :=
  a % 8 = 0 ∧
    ((∃ x ∈ s.live, x.2 ≤ a ∧ a < x.2 + x.1.size) ∨ s.owner (pageOf a) = .client)

/-- One operation. `free` and `freePage` are called on what the caller holds. -/
inductive Step : HeapSystem → HeapOp → HeapSystem → Prop
  | allocNull {s : HeapSystem} {c : SizeClass} {k : KernelMem} :
      s.k.alloc c = (0, none, k) → Step s (.alloc c) { s with k := k }
  | allocOld {s : HeapSystem} {c : SizeClass} {ptr : Nat} {k : KernelMem} :
      s.k.alloc c = (ptr, none, k) → ptr ≠ 0 →
      Step s (.alloc c) { s with k := k, live := (c, ptr) :: s.live }
  | allocNew {s : HeapSystem} {c : SizeClass} {ptr page : Nat} {k : KernelMem} :
      s.k.alloc c = (ptr, some page, k) →
      Step s (.alloc c) { k := k, owner := Function.update s.owner page (.heap c),
                          live := (c, ptr) :: s.live }
  | free {s : HeapSystem} {c : SizeClass} {ptr : Nat} {k : KernelMem} :
      (c, ptr) ∈ s.live → s.k.free c ptr = some k →
      Step s (.free c ptr) { s with k := k, live := s.live.erase (c, ptr) }
  | truncate {s : HeapSystem} {c : SizeClass} {fuel : Nat} {freed : List Nat} {k : KernelMem} :
      s.k.truncate c fuel = some (freed, k) →
      Step s (.truncate c)
        { s with k := k, owner := fun p => if p ∈ freed then .free else s.owner p }
  | allocPageNull {s : HeapSystem} {k : KernelMem} :
      s.k.allocPage = (0, k) → Step s .allocPage { s with k := k }
  | allocPage {s : HeapSystem} {page : Nat} {k : KernelMem} :
      s.k.allocPage = (page, k) → page ≠ 0 →
      Step s .allocPage { s with k := k, owner := Function.update s.owner page .client }
  | freePage {s : HeapSystem} {page : Nat} :
      s.owner page = .client →
      Step s (.freePage page)
        { s with k := s.k.freePage page, owner := Function.update s.owner page .free }
  | store {s : HeapSystem} {a v : Nat} :
      s.ClientWord a → v < 2 ^ 64 → Step s (.store a v) { s with k := s.k.write a v }

/-- A boot state: the `n` pages from `start` on are free, nothing else is known about
memory. -/
def boot (mem : Nat → Nat) (start n : Nat) : HeapSystem where
  k := initPages ⟨mem, 0, 0, fun _ => ⟨0, 0, 0, 0⟩⟩ start n
  owner := fun p => if p % pgSize = 0 ∧ start ≤ p ∧ p < start + n * pgSize then .free else .outside
  live := []

end HeapSystem

end CoroCore
