import CoroCore.Mm.Heap

/-!
# `operator new` and `operator delete`: `mm/allocator.cc`

Requests of at most 1024 bytes go to one of the eight heap allocators, larger ones to
`large_mem_allocator`, which maps pages of the pool at fresh virtual addresses. `operator delete`
finds the allocator from the address alone: by its range, and in the range of the heap by the size
stored at the start of the page.

The kernel page table is kept as the tables and pages that its valid entries refer to, by level and
by the part of the virtual address that selects them (`PageTable` has the entries themselves). Only
the entries from `VMEM_START` on are here. The table pages come from the same pool as everything
else, and are never given back.

`use_ptmalloc` is false. A panic is `none`.
-/

namespace CoroCore

open KernelMem HeapSystem

abbrev kernBase : Nat := 0x80200000
abbrev ioMemStart : Nat := 0x80000000 + 127 * 1024 * 1024
abbrev vmemStart : Nat := 0x100000000
abbrev mmapStart : Nat := 0x2000000000
abbrev maxVirt : Nat := 2 ^ 38

/-! ## The size class of a request -/

def tab64 : List Nat :=
  [63,  0, 58,  1, 59, 47, 53,  2,
   60, 39, 48, 27, 54, 33, 42,  3,
   61, 51, 37, 40, 49, 18, 28, 20,
   55, 30, 34, 11, 43, 14, 22,  4,
   62, 57, 46, 52, 38, 26, 32, 41,
   50, 36, 17, 19, 29, 10, 13, 21,
   56, 45, 25, 31, 35, 16,  9, 12,
   44, 24, 15,  8, 23,  7,  6,  5]

def log2_64 (value : UInt64) : Nat :=
  let value := value ||| (value >>> 1)
  let value := value ||| (value >>> 2)
  let value := value ||| (value >>> 4)
  let value := value ||| (value >>> 8)
  let value := value ||| (value >>> 16)
  let value := value ||| (value >>> 32)
  tab64.getD (((value - (value >>> 1)) * 0x07EDD5E59A4E28C2) >>> 58).toNat 0

/-- The heap allocator that `__alloc` asks for `size` bytes; `none` is its panic. -/
def sizeClassOf (size : Nat) : Option SizeClass :=
  if size = 1 then some .s8
  else match log2_64 (UInt64.ofNat size - 1) with
    | 0 | 1 | 2 => some .s8
    | 3 => some .s16
    | 4 => some .s32
    | 5 => some .s64
    | 6 => some .s128
    | 7 => some .s256
    | 8 => some .s512
    | 9 => some .s1024
    | _ => none

/-- The slots of the chosen allocator hold the request. -/
theorem sizeClassOf_fits {size : Nat} (h0 : 0 < size) (h : size ≤ 1024) :
    ∃ c, sizeClassOf size = some c ∧ size ≤ c.size := by
  have hall : ((List.range 1025).all fun k => k = 0 || (sizeClassOf k).any fun c => k ≤ c.size) =
      true := by
    decide +kernel
  have hk := List.all_eq_true.mp hall size (List.mem_range.mpr (by omega))
  rw [decide_eq_false (by omega), Bool.false_or, Option.any_eq_true] at hk
  obtain ⟨c, hc, hle⟩ := hk
  exact ⟨c, hc, of_decide_eq_true hle⟩

/-! ## Heap calls with their record -/

namespace HeapSystem

/-- `heap_allocator::alloc`. -/
def allocate (s : HeapSystem) (c : SizeClass) : Nat × HeapSystem :=
  match s.k.alloc c with
  | (ptr, some page, k) =>
    (ptr, { k := k, owner := Function.update s.owner page (.heap c), live := (c, ptr) :: s.live })
  | (ptr, none, k) =>
    if ptr = 0 then (0, { s with k := k })
    else (ptr, { s with k := k, live := (c, ptr) :: s.live })

/-- `heap_allocator::truncate`. -/
def truncated (fuel : Nat) (s : HeapSystem) (c : SizeClass) : Option HeapSystem :=
  (s.k.truncate c fuel).map fun r =>
    { s with k := r.2, owner := fun p => if p ∈ r.1 then .free else s.owner p }

/-- The `truncate` calls of `default_alloc`. -/
def truncateAll (fuel : Nat) (s : HeapSystem) : Option HeapSystem :=
  [.s8, .s16, .s32, .s64, .s128, .s256, .s512, .s1024].foldlM (truncated fuel) s

end HeapSystem

/-! ## The state -/

/-- A live result of `large_mem_allocator::alloc`: the address of its `large_mem_info` and its
number of pages. -/
structure Large where
  start : Nat
  count : Nat
deriving DecidableEq, Repr

/-- `sizeof(large_mem_info)`. -/
def largeInfoSize : Nat := 16

/-- What a page taken from the pool is used for. -/
inductive PageUse
  | data (va : Nat)
  | table (level i : Nat)
  | other
deriving DecidableEq, Repr

/-- The heap, the kernel page table, `vmem_top` of `large_mem_allocator`, and the record of the
clients: the live large allocations and the use of each page of the pool. -/
structure NewSystem where
  hs : HeapSystem
  table : Nat → Nat → Nat
  vmap : Nat → Nat
  vmemTop : Nat
  large : List Large
  use : Nat → PageUse

namespace NewSystem

/-- The physical address behind a virtual one. -/
def phys (s : NewSystem) (va : Nat) : Nat := s.vmap (pageOf va) + va % pgSize

/-- The word at a virtual address. -/
def readV (s : NewSystem) (va : Nat) : Nat := s.hs.k.mem (s.phys va)

def writeK (s : NewSystem) (a v : Nat) : NewSystem :=
  { s with hs := { s.hs with k := s.hs.k.write a v } }

def writeV (s : NewSystem) (va v : Nat) : NewSystem := s.writeK (s.phys va) v

/-! ## The kernel page table -/

/-- `kernel_allocator.alloc_page`. -/
def takePage (s : NewSystem) (u : PageUse) : Nat × NewSystem :=
  let r := s.hs.k.allocPage
  if r.1 = 0 then (0, s)
  else (r.1, { s with
    hs := { s.hs with k := r.2, owner := Function.update s.hs.owner r.1 .client }
    use := Function.update s.use r.1 u })

/-- `kernel_allocator.free_page`. -/
def givePage (s : NewSystem) (pa : Nat) : NewSystem :=
  { s with hs := { s.hs with k := s.hs.k.freePage pa
                             owner := Function.update s.hs.owner pa .free } }

/-- The part of `va` that selects an entry of a table at `level`. -/
def entryOf (level va : Nat) : Nat := va / 2 ^ (12 + 9 * level)

/-- `*pte = PA2PTE(pa) | PTE_V` above the last level. -/
def setTable (s : NewSystem) (level i pa : Nat) : NewSystem :=
  { s with table := Function.update s.table level (Function.update (s.table level) i pa) }

/-- `*pte` at the last level: the page that is mapped, or 0. -/
def setPage (s : NewSystem) (va pa : Nat) : NewSystem :=
  { s with vmap := Function.update s.vmap va pa }

/-- The loop of `walk` with `alloc` set, from `level` down; `none` if there is no page for a
table. -/
def walkLevels (va : Nat) : Nat → NewSystem → Option NewSystem
  | 0, s => some s
  | level + 1, s =>
    let i := entryOf (level + 1) va
    if s.table (level + 1) i ≠ 0 then walkLevels va level s
    else
      let r := s.takePage (.table (level + 1) i)
      if r.1 = 0 then none
      else walkLevels va level (r.2.setTable (level + 1) i r.1)

/-- `kvmmap` of one page. It panics outside the address space, without a page for a table, and on
an entry in use. -/
def kvmmap (s : NewSystem) (va pa : Nat) : Option NewSystem :=
  if maxVirt ≤ va then none
  else (walkLevels va 2 s).bind fun s =>
    if s.vmap va ≠ 0 then none else some (s.setPage va pa)

/-- `kvmunmap` of `n` pages from `va` on, with `do_free`. The loop only ends at the last page, so
that an empty range ends in a panic. -/
def kvmunmap : Nat → Nat → NewSystem → Option NewSystem
  | 0, _, _ => none
  | n + 1, va, s =>
    if maxVirt ≤ va ∨ s.table 2 (entryOf 2 va) = 0 ∨ s.table 1 (entryOf 1 va) = 0 ∨ s.vmap va = 0
    then none
    else
      let s' := (s.givePage (s.vmap va)).setPage va 0
      if n = 0 then some s' else kvmunmap n (va + pgSize) s'

/-! ## `class large_mem_allocator` -/

/-- The loop of `large_mem_allocator::alloc` with `n` pages to go: the number of pages it maps. -/
def mapLoop : Nat → Nat → NewSystem → Option (Nat × NewSystem)
  | 0, _, s => some (0, s)
  | n + 1, va, s =>
    let r := s.takePage (.data va)
    if r.1 = 0 then some (0, s)
    else (r.2.kvmmap va r.1).bind fun s =>
      (mapLoop n (va + pgSize) s).map fun r => (r.1 + 1, r.2)

/-- `page_count` for a request. -/
def pageCount (size : Nat) : Nat := (size + largeInfoSize + pgSize - 1) / pgSize

/-- `large_mem_allocator::alloc`. -/
def largeAlloc (s : NewSystem) (size : Nat) : Option (Nat × NewSystem) :=
  let count := pageCount size
  (mapLoop count s.vmemTop s).bind fun r =>
    if r.1 = count then
      let info := s.vmemTop
      let s := { r.2 with vmemTop := info + count * pgSize, large := ⟨info, count⟩ :: r.2.large }
      some (info + largeInfoSize, (s.writeV info count).writeV (info + 8) size)
    else if 0 < r.1 then (kvmunmap r.1 s.vmemTop r.2).map fun s => (0, s)
    else some (0, r.2)

/-- `large_mem_allocator::free`. The size of the range is a 64-bit product. -/
def largeFree (s : NewSystem) (ptr : Nat) : Option NewSystem :=
  let info := ptr - largeInfoSize
  if info % pgSize ≠ 0 ∨ info < vmemStart then none
  else kvmunmap (s.readV info * pgSize % 2 ^ 64 / pgSize) info s

/-! ## `operator new`, `operator delete` -/

/-- `__alloc`. -/
def tryAlloc (s : NewSystem) (size : Nat) : Option (Nat × NewSystem) :=
  if 1024 < size then s.largeAlloc size
  else (sizeClassOf size).map fun c =>
    let r := s.hs.allocate c
    (r.1, { s with hs := r.2 })

/-- `default_alloc`. The block lists have at most `fuel` blocks. -/
def defaultAlloc (fuel : Nat) (s : NewSystem) (size : Nat) : Option (Nat × NewSystem) :=
  (s.tryAlloc size).bind fun r =>
    if r.1 ≠ 0 then some r
    else (r.2.hs.truncateAll fuel).bind fun hs => { r.2 with hs := hs }.tryAlloc size

/-- Where `operator delete` passes a pointer to. `broken` is the panic of `default_delete`. -/
inductive Route
  | ptmalloc
  | large (count : Nat)
  | heap (c : SizeClass)
  | broken
deriving DecidableEq, Repr

/-- The dispatch of `operator delete` and `default_delete`. -/
def route (s : NewSystem) (ptr : Nat) : Route :=
  if mmapStart ≤ ptr then .ptmalloc
  else if vmemStart ≤ ptr then .large (s.readV (ptr - largeInfoSize))
  else match infoBlockSize (s.hs.k.mem (pageOf ptr)) / 8 with
    | 1 => .heap .s8
    | 2 => .heap .s16
    | 4 => .heap .s32
    | 8 => .heap .s64
    | 16 => .heap .s128
    | 32 => .heap .s256
    | 64 => .heap .s512
    | 128 => .heap .s1024
    | _ => .broken

/-- `operator delete`, on a pointer that is not for `ptmalloc_free`. -/
def delete (s : NewSystem) (ptr : Nat) : Option NewSystem :=
  match s.route ptr with
  | .heap c => (s.hs.k.free c ptr).map fun k => { s with hs := { s.hs with k := k } }
  | .large _ => s.largeFree ptr
  | .ptmalloc | .broken => none

/-! ## Runs -/

/-- A call of one of the operators with the pointer it returns or gets, a page taken or given back
by another part of the kernel, or a store by a client. -/
inductive NewOp
  | new (size ptr : Nat)
  | delete (ptr : Nat)
  | takePage
  | givePage (page : Nat)
  | store (a v : Nat)

/-- The word at the physical address `a` belongs to a live allocation, or to a page of another part
of the kernel. The first words of a large allocation are its `large_mem_info`. -/
def ClientWord (s : NewSystem) (a : Nat) : Prop :=
  a % 8 = 0 ∧
    ((∃ x ∈ s.hs.live, x.2 ≤ a ∧ a < x.2 + x.1.size) ∨
      (∃ l ∈ s.large, ∃ va, l.start + largeInfoSize ≤ va ∧ va < l.start + l.count * pgSize ∧
        a = s.phys va) ∨
      s.hs.owner (pageOf a) = .client ∧ s.use (pageOf a) = .other)

/-- One operation. A request has at most the size of the physical memory, 128 MB; `delete` is
called on a live pointer. -/
inductive Step : NewSystem → NewOp → NewSystem → Prop
  | new {s s' : NewSystem} {size ptr fuel : Nat} :
      size ≤ 128 * 1024 * 1024 → s.defaultAlloc fuel size = some (ptr, s') →
      Step s (.new size ptr) s'
  | deleteSmall {s s' : NewSystem} {c : SizeClass} {ptr : Nat} :
      (c, ptr) ∈ s.hs.live → s.delete ptr = some s' →
      Step s (.delete ptr)
        { s' with hs := { s'.hs with live := s'.hs.live.erase (c, ptr) } }
  | deleteLarge {s s' : NewSystem} {l : Large} :
      l ∈ s.large → s.delete (l.start + largeInfoSize) = some s' →
      Step s (.delete (l.start + largeInfoSize)) { s' with large := s'.large.erase l }
  | takePage {s : NewSystem} : Step s .takePage (s.takePage .other).2
  | givePage {s : NewSystem} {page : Nat} :
      s.hs.owner page = .client → s.use page = .other → Step s (.givePage page) (s.givePage page)
  | store {s : NewSystem} {a v : Nat} :
      s.ClientWord a → v < 2 ^ 64 → Step s (.store a v) (s.writeK a v)

/-- The state after the constructors of the allocators: the `n` pages from `start` on are free. -/
def boot (mem : Nat → Nat) (start n : Nat) : NewSystem where
  hs := HeapSystem.boot mem start n
  table := fun _ _ => 0
  vmap := fun _ => 0
  vmemTop := vmemStart
  large := []
  use := fun _ => .other

end NewSystem

end CoroCore
