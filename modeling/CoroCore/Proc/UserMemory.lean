import CoroCore.Lib.Result
import CoroCore.Mm.PageFree

/-!
# The memory of a user process: `proc/process.cc`

`__mmap` maps a range of pages and records it in `mmap_infos`; `__free_pagetable` unmaps what is
recorded and gives the page tables back. A panic stops the kernel, and what was done before it
stays done (`Res`).

The nodes of `mmap_infos` come from the kernel heap. A heap block is a page with 31 nodes, which
`kernel_allocator` does not get back when they are deleted: `room` counts the nodes that the blocks
at hand still have.

What the process reads outside its own memory and which pages it maps is written down in `reads`
and `maps`; `oom` says that an allocation has failed.
-/

namespace CoroCore.User

open Vmem

abbrev trampolineVa : Nat := maxVa - pgSize
abbrev trapframeVa : Nat := trampolineVa - pgSize
abbrev userTop : Nat := 2 ^ 37
abbrev userStackTop : Nat := userTop - pgSize
abbrev userTextStart : Nat := pgSize

abbrev mapDefault : Nat := 0
abbrev mapShared : Nat := 1
abbrev mapUser : Nat := 4

/-- `mmap_info`. -/
structure MmapInfo where
  start : Nat
  size : Nat
  flags : Nat
  pteFlags : Nat
  deriving DecidableEq

/-- The memory of a `user_process`, and that of the kernel. -/
structure UserMem where
  vm : Vm
  pagetable : Nat
  infos : List MmapInfo
  room : Nat
  heap : List Nat
  oom : Bool
  minVa : Nat
  maxVa : Nat
  epc : Nat
  reads : List (Nat × Nat)
  maps : List Nat

/-- A result, or a panic. -/
inductive Res (α : Type)
  | ok (a : α) (p : UserMem)
  | panic (e : Panic) (p : UserMem)

namespace Res

variable {α β : Type}

def bind : Res α → (α → UserMem → Res β) → Res β
  | ok a p, f => f a p
  | panic e p, _ => panic e p

/-- The memory in the end. -/
def mem : Res α → UserMem
  | ok _ p => p
  | panic _ p => p

end Res

namespace UserMem

/-- A function of `mm/vmem.cc`. -/
def run {α : Type} (p : UserMem) (c : Except Panic (α × Vm)) : Res α :=
  match c with
  | .ok (a, s) => .ok a { p with vm := s }
  | .error e => .panic e p

/-- A node from the kernel heap. -/
def newNode (p : UserMem) : Option UserMem :=
  match p.room, p.vm.free with
  | room + 1, _ => some { p with room := room }
  | 0, [] => none
  | 0, page :: free =>
    some { p with room := 30, heap := page :: p.heap, vm := { p.vm with free := free } }

/-- `mmap_infos.push_back`. Without a node the record is lost. -/
def pushBack (p : UserMem) (info : MmapInfo) : UserMem :=
  match p.newNode with
  | none => { p with oom := true }
  | some p => { p with infos := p.infos ++ [info] }

/-- `__mmap` of given physical pages. -/
def mmapAt (va pa size flags pteFlags : Nat) (p : UserMem) : Res Int :=
  (p.run (mappages p.pagetable va pa size pteFlags p.vm)).bind fun r p =>
    if r < 0 then .ok (-1) { p with oom := true }
    else .ok 0 (p.pushBack ⟨va, size, flags, pteFlags⟩)

/-- The loop of `__mmap`, and the address at which it fails. -/
def mmapLoop (pteFlags : Nat) : Nat → Nat → UserMem → Res (Option Nat)
  | 0, _, p => .ok none p
  | fuel + 1, va, p =>
    match p.vm.allocPage with
    | none => .ok (some va) { p with oom := true }
    | some (pa, s) =>
      ({ p with vm := s }.run (mappages p.pagetable va pa pgSize pteFlags s)).bind fun r p =>
        if r < 0 then .ok (some va) { p with oom := true }
        else mmapLoop pteFlags fuel (va + pgSize) { p with maps := p.maps ++ [va / pgSize] }

/-- The end of `__mmap`: a record, or `err_free`. -/
def mmapEnd (va size flags pteFlags : Nat) (r : Option Nat) (p : UserMem) : Res Int :=
  match r with
  | none => .ok 0 (p.pushBack ⟨va, size, flags &&& (2 ^ 64 - 1 - mapShared), pteFlags⟩)
  | some cur =>
    if cur = va then .ok (-1) p
    else
      (p.run ((uvmunmap p.pagetable va (cur - va) true p.vm).map fun s => ((), s))).bind
        fun _ p => .ok (-1) p

/-- `__mmap` of new pages. The end of the range is computed in 64 bits. -/
def mmap (va size flags pteFlags : Nat) (p : UserMem) : Res Int :=
  (mmapLoop pteFlags (((va + size) % 2 ^ 64 - va + (pgSize - 1)) / pgSize) va p).bind
    (mmapEnd va size flags pteFlags)

/-- `copyout` of `len` bytes from `src`. An address out of range is not mapped. -/
def copyout : Nat → Nat → Nat → Nat → UserMem → Res Int
  | 0, _, _, len, p => .ok (if len = 0 then 0 else -1) p
  | fuel + 1, dstva, src, len, p =>
    if len = 0 then .ok 0 p
    else if walkaddr p.pagetable (pgRoundDown dstva) p.vm = 0 then .ok (-1) p
    else
      let n := min (pgSize - (dstva - pgRoundDown dstva)) len
      copyout fuel (pgRoundDown dstva + pgSize) ((src + n) % 2 ^ 64) (len - n)
        { p with reads := p.reads ++ [(src, n)] }

/-- `memset_user`. -/
def memsetUser : Nat → Nat → Nat → UserMem → Res Int
  | 0, _, len, p => .ok (if len = 0 then 0 else -1) p
  | fuel + 1, dstva, len, p =>
    if len = 0 then .ok 0 p
    else if walkaddr p.pagetable (pgRoundDown dstva) p.vm = 0 then .ok (-1) p
    else
      memsetUser fuel (pgRoundDown dstva + pgSize)
        (len - min (pgSize - (dstva - pgRoundDown dstva)) len) p

/-- The pages from that of `va` up to the end of the address space. -/
def pagesAbove (va : Nat) : Nat := Vmem.maxVa / pgSize - va / pgSize

/-- `__free_pagetable`, which is all that the destructor does to memory. -/
def freePagetable (p : UserMem) : Except Panic UserMem := do
  let s ← p.infos.foldlM (fun s info =>
    uvmunmap p.pagetable info.start info.size (info.flags &&& mapShared = 0) s) p.vm
  let s ← freePagetablePages p.pagetable s
  return { p with vm := s, infos := [], pagetable := 0 }

def destroy (p : UserMem) : Res Unit :=
  match p.freePagetable with
  | .ok p => .ok () p
  | .error e => .panic e p

/-- The error path of `__init_pagetable` after a `__mmap` that failed. -/
def initFailed (p : UserMem) : Res Int := p.destroy.bind fun _ p => .ok (-12) p

/-- `__init_pagetable`, once the pages are allocated. -/
def initMaps (trampoline trapframe stack : Nat) (p : UserMem) : Res Int :=
  (mmapAt trampolineVa trampoline pgSize mapShared (pteR ||| pteX) p).bind fun r p =>
    if r < 0 then p.initFailed
    else (mmapAt trapframeVa trapframe pgSize mapDefault (pteR ||| pteW) p).bind fun r p =>
      if r < 0 then p.initFailed
      else (mmapAt userStackTop stack pgSize mapUser (pteU ||| pteR ||| pteW) p).bind fun r p =>
        if r < 0 then p.initFailed else .ok 0 p

/-- `alloc_page`, with 0 for no page. -/
def takePage (s : Vm) : Nat × Vm := s.allocPage.getD (0, s)

/-- `create_empty_user_pagetable`, with 0 for no page. -/
def createPagetable (s : Vm) : Nat × Vm := s.allocTable.getD (0, s)

/-- `__init_pagetable`, which is all that the constructor does. The object itself, with its empty
lists, is there already. -/
def construct (trampoline : Nat) (p : UserMem) : Res Int :=
  let (root, s) := createPagetable p.vm
  let (trapframe, s) := takePage s
  let (stack, s) := takePage s
  if root = 0 ∨ trapframe = 0 ∨ stack = 0 then
    ({ p with pagetable := 0, oom := true }.run (do
      let s ← freePagetablePages root s
      let s ← s.freePage trapframe
      let s ← s.freePage stack
      return ((), s))).bind fun _ p => .ok (-12) p
  else initMaps trampoline trapframe stack { p with vm := s, pagetable := root }

end UserMem

end CoroCore.User
