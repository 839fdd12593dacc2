import CoroCore.Lib.Run

/-!
# The buffer cache: `utils/buffer_manager.h`, `utils/buffer.h` and `utils/list.h`

Buffers are heap objects named by ids and referenced by `shared_ptr`. A reference count is
the number of copies of the pointer: in the nodes of `buffer_list` and `flush_list`, in the
nodes that `list::free_node` keeps in `node_cache` (their `data` is not cleared), in the
local `buf` of a `get_derived` call, and in the hands of tasks (`handles`).

A `get_derived` call takes its lock-protected sections one at a time; between them other
tasks run:

* `enter`: from `lock.lock()` to the first unlock, or to the wait on `flush_queue`, after
  which the scan starts again;
* `writeBack`: `buf->flush()`, the device write of an evicted dirty buffer;
* `finish`: from the second `lock.lock()` to the return.

Tasks that hold a pointer load the buffer (`get_ref`), modify it and drop the pointer.
`latest` is not part of the program: it records the last contents written to each key
through the cache, starting with the contents of the device.
-/

namespace CoroCore

open Lib

abbrev BufId := Nat

/-- `referenceable_buffer` with its match key; `key = none` after `init()`. -/
structure Buffer (K D : Type) where
  key : Option K
  valid : Bool
  dirty : Bool
  data : D
deriving DecidableEq, Repr

/-- `list<buffer_ptr_t>`: the pointers in its nodes, front first, and the pointers left in
the nodes of `node_cache`, last freed first. -/
structure PtrList where
  nodes : List BufId
  cache : List BufId
deriving DecidableEq, Repr

namespace PtrList

def empty : PtrList := ⟨[], []⟩

/-- `push_front`: `alloc_node` takes the last freed node, whose data is overwritten. -/
def pushFront (l : PtrList) (b : BufId) : PtrList := ⟨b :: l.nodes, l.cache.tail⟩

/-- `push_back`. -/
def pushBack (l : PtrList) (b : BufId) : PtrList := ⟨l.nodes ++ [b], l.cache.tail⟩

/-- `free_node` keeps up to eight nodes, with their data. -/
def freeNode (cache : List BufId) (b : BufId) : List BufId :=
  if cache.length < 8 then b :: cache else cache

/-- `erase` of the node that holds `b`. -/
def erase (l : PtrList) (b : BufId) : PtrList := ⟨l.nodes.erase b, freeNode l.cache b⟩

/-- `move_to_front` of the node that holds `b`. -/
def moveToFront (l : PtrList) (b : BufId) : PtrList := ⟨b :: l.nodes.erase b, l.cache⟩

end PtrList

/-- Where a `get_derived` call stands. -/
inductive Call (K : Type)
  | idle
  | start (k : K)
  | waiting (k : K)
  | flushing (k : K) (buf : BufId)
  | flushed (k : K) (buf : BufId)
deriving DecidableEq, Repr

namespace Call

/-- The local `buf` of the call. -/
def buf {K : Type} : Call K → Option BufId
  | .flushing _ b => some b
  | .flushed _ b => some b
  | _ => none

/-- `flush_queue.wake_up_all()`. -/
def wake {K : Type} : Call K → Call K
  | .waiting k => .start k
  | c => c

end Call

/-- A buffer manager, the device below it and the tasks above it. -/
structure BufSystem (K D : Type) where
  bufferList : PtrList
  flushList : PtrList
  /-- The spin lock was left held by a call that failed. -/
  stuck : Bool
  bufs : BufId → Buffer K D
  next : BufId
  device : K → D
  calls : List (Call K)
  handles : List BufId
  latest : K → D

namespace BufSystem

variable {K D : Type} [DecidableEq K]

/-- No buffers, no tasks. -/
def init (device : K → D) (d : D) : BufSystem K D :=
  ⟨.empty, .empty, false, fun _ => ⟨none, false, false, d⟩, 0, device, [], [], device⟩

def setBuf (s : BufSystem K D) (b : BufId) (x : Buffer K D) : BufSystem K D :=
  { s with bufs := Function.update s.bufs b x }

/-- `buf->init(..)`: a new key, or none, and invalid contents. -/
def initBuf (s : BufSystem K D) (b : BufId) (key : Option K) : BufSystem K D :=
  s.setBuf b { s.bufs b with key := key, valid := false }

def setCall (s : BufSystem K D) (t : Nat) (c : Call K) : BufSystem K D :=
  { s with calls := s.calls.set t c }

/-- The call returns `b`. -/
def hand (s : BufSystem K D) (t : Nat) (b : BufId) : BufSystem K D :=
  { s.setCall t .idle with handles := b :: s.handles }

/-- `node->match(k)`. -/
def isKey (s : BufSystem K D) (k : K) (b : BufId) : Bool := (s.bufs b).key = some k

/-- The `use_count` of `b`. -/
def useCount (s : BufSystem K D) (b : BufId) : Nat :=
  s.bufferList.nodes.count b + s.bufferList.cache.count b + s.flushList.nodes.count b +
    s.flushList.cache.count b + s.handles.count b + s.calls.countP fun c => c.buf = some b

/-- The victim that `get_derived` picks: the last buffer of which the list is the only
owner, once there are `min` buffers. -/
def unused (min : Nat) (s : BufSystem K D) : Option BufId :=
  if min ≤ s.bufferList.nodes.length then
    s.bufferList.nodes.reverse.find? fun b => s.useCount b = 1
  else none

/-- A possible choice of the victim: any buffer that can be detached, or none. -/
def VictimOk (min : Nat) (s : BufSystem K D) : Option BufId → Prop
  | none => True
  | some b => min ≤ s.bufferList.nodes.length ∧ b ∈ s.bufferList.nodes ∧ s.useCount b = 1

instance (min : Nat) (s : BufSystem K D) (v : Option BufId) : Decidable (s.VictimOk min v) :=
  match v with
  | none => inferInstanceAs (Decidable True)
  | some b => inferInstanceAs (Decidable (_ ∧ b ∈ s.bufferList.nodes ∧ s.useCount b = 1))

/-- The section of `get_derived` that found no buffer for `k` and has `b` to give: it is
handed out at once if clean and goes to `flush_list` otherwise. -/
def place (s : BufSystem K D) (t : Nat) (k : K) (b : BufId) : BufSystem K D :=
  if (s.bufs b).dirty then
    { s with flushList := s.flushList.pushBack b }.setCall t (.flushing k b)
  else
    { s.initBuf b (some k) with bufferList := s.bufferList.pushFront b }.hand t b

/-- First section of `get_derived(k)`. `victim` is the buffer found by the backward
search and `mem` says whether a new buffer can be allocated. -/
def enter (max : Nat) (s : BufSystem K D) (t : Nat) (k : K) (victim : Option BufId) (mem : Bool) :
    BufSystem K D :=
  if s.flushList.nodes.any (s.isKey k) then s.setCall t (.waiting k)
  else
    match s.bufferList.nodes.find? (s.isKey k), victim with
    | some b, _ => { s with bufferList := s.bufferList.moveToFront b }.hand t b
    | none, some b => { s with bufferList := s.bufferList.erase b }.place t k b
    | none, none =>
      if max ≤ s.bufferList.nodes.length then s.setCall t .idle
      -- the failure return between `lock()` and `unlock()`
      else if mem = false then { s.setCall t .idle with stuck := true }
      else
        { s.setBuf s.next { s.bufs s.next with key := none, valid := false, dirty := false } with
          next := s.next + 1 }.place t k s.next

/-- `referenceable_buffer::flush`. -/
def flush (s : BufSystem K D) (b : BufId) : BufSystem K D :=
  match (s.bufs b).key with
  | some k =>
    if (s.bufs b).valid && (s.bufs b).dirty then
      { s.setBuf b { s.bufs b with dirty := false } with
        device := Function.update s.device k (s.bufs b).data }
    else s
  | none => s

/-- `flush_list.erase(flush_it)` and `flush_queue.wake_up_all()`. -/
def endFlush (s : BufSystem K D) (b : BufId) : BufSystem K D :=
  { s with flushList := s.flushList.erase b, calls := s.calls.map Call.wake }

/-- Last section of `get_derived(k)` after the flush of the victim `b`. -/
def finish (s : BufSystem K D) (t : Nat) (k : K) (b : BufId) : BufSystem K D :=
  match s.bufferList.nodes.find? (s.isKey k) with
  | some r => { (s.endFlush b).initBuf b none with bufferList := s.bufferList.pushBack b }.hand t r
  | none =>
    { (s.endFlush b).initBuf b (some k) with bufferList := s.bufferList.pushFront b }.hand t b

/-- Events of a run. -/
inductive Event (K D : Type)
  | call (k : K)
  | enter (t : Nat) (victim : Option BufId) (mem : Bool)
  | writeBack (t : Nat)
  | finish (t : Nat)
  | load (b : BufId)
  | modify (b : BufId) (d : D)
  | drop (b : BufId)

variable (min max : Nat)

/-- One step. The buffers a task works on are those it holds a pointer to. -/
inductive Step : BufSystem K D → Event K D → BufSystem K D → Prop
  | call (s : BufSystem K D) (k : K) : Step s (.call k) { s with calls := s.calls ++ [.start k] }
  | enter {s : BufSystem K D} {t : Nat} {k : K} {victim : Option BufId} {mem : Bool} :
      s.calls[t]? = some (.start k) → s.stuck = false → s.VictimOk min victim →
      Step s (.enter t victim mem) (s.enter max t k victim mem)
  | writeBack {s : BufSystem K D} {t : Nat} {k : K} {b : BufId} :
      s.calls[t]? = some (.flushing k b) →
      Step s (.writeBack t) ((s.flush b).setCall t (.flushed k b))
  | finish {s : BufSystem K D} {t : Nat} {k : K} {b : BufId} :
      s.calls[t]? = some (.flushed k b) → s.stuck = false → Step s (.finish t) (s.finish t k b)
  | load {s : BufSystem K D} {b : BufId} {k : K} :
      b ∈ s.handles → (s.bufs b).valid = false → (s.bufs b).key = some k →
      Step s (.load b) (s.setBuf b ⟨some k, true, false, s.device k⟩)
  | modify {s : BufSystem K D} {b : BufId} {k : K} {d : D} :
      b ∈ s.handles → (s.bufs b).valid = true → (s.bufs b).key = some k →
      Step s (.modify b d)
        { s.setBuf b ⟨some k, true, true, d⟩ with latest := Function.update s.latest k d }
  | drop {s : BufSystem K D} {b : BufId} :
      b ∈ s.handles → Step s (.drop b) { s with handles := s.handles.erase b }

omit [DecidableEq K] in
theorem unused_ok (s : BufSystem K D) : s.VictimOk min (s.unused min) := by
  unfold unused
  split
  · next hmin =>
    cases hf : s.bufferList.nodes.reverse.find? fun b => s.useCount b = 1 with
    | none => trivial
    | some b =>
      have hmem := List.mem_of_find?_eq_some hf
      have hone := List.find?_some hf
      exact ⟨hmin, List.mem_reverse.mp hmem, by simpa using hone⟩
  · trivial

end BufSystem

end CoroCore
