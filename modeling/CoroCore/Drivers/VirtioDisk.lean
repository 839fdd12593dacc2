import Mathlib.Data.List.Basic
import Mathlib.Logic.Function.Basic
import CoroCore.Lib.Run
import Mathlib.Algebra.Group.Nat.Defs

/-!
# The virtio disk

The driver of `virtio_disk.cc` together with the device behind it and any number of calls of
`disk_command`. A section of the driver between `lock.lock()` and `lock.unlock()` is one event.
The interrupt handler is the exception: the device may publish more entries while the handler
is inside its loop, so every round of the loop is an event of its own and the lock says who is
inside. Descriptors, rings and `info[]` are the driver's own memory (`Disk`). What only the proofs
read, namely what was submitted, served and published so far, is kept beside it (`Sys`).

A call has a number of its own and is made once; a task that makes two calls has two numbers.
-/

namespace CoroCore.Virtio

/-- `NUM`: the descriptors, and the slots of both rings. -/
abbrev NUM : Nat := 8

/-- The ring indices are `uint16`. -/
abbrev idxRange : Nat := 2 ^ 16

abbrev VRING_DESC_F_NEXT : Nat := 1
abbrev VRING_DESC_F_WRITE : Nat := 2

abbrev VIRTIO_BLK_T_OUT : Nat := 1
abbrev VIRTIO_BLK_T_FLUSH : Nat := 4

/-- `block_device::BLOCK_SIZE`. -/
abbrev BLOCK_SIZE : Nat := 1024

/-! ## Memory of the driver -/

/-- What `virtq_desc::addr` points at. -/
inductive Addr where
  | null
  | op (i : Nat)
  | data (buf : Nat)
  | status (i : Nat)
deriving DecidableEq, Repr

/-- `virtq_desc`. -/
structure Desc where
  addr : Addr
  len : Nat
  flags : Nat
  next : Nat
deriving DecidableEq, Repr

/-- The descriptor `free_desc` leaves behind. -/
def Desc.zero : Desc := ⟨.null, 0, 0, 0⟩

/-- `virtio_blk_req`; `reserved` is always 0. -/
structure BlkReq where
  type : Nat
  sector : Nat
deriving DecidableEq, Repr

/-- `virtio_disk` and the two pages it shares with the device. `usedIdx` is `used->idx`, written by
the device, and `usedSeen` is `used_idx`, how far the driver has looked. `done`, `status` and
`sleeper` are the fields of `info[]`; `asleep` is the state of the callers that sleep on the queues
of the disk. -/
structure Disk where
  desc : Nat → Desc
  availIdx : Nat
  availRing : Nat → Nat
  usedIdx : Nat
  usedRing : Nat → Nat
  usedSeen : Nat
  free : Nat → Bool
  ops : Nat → BlkReq
  done : Nat → Bool
  status : Nat → Nat
  sleeper : Nat → Option Nat
  requestQueue : List Nat
  asleep : Nat → Bool

/-- The arguments of `disk_command`, and whether its task yields when it waits. -/
structure Req where
  command : Nat
  blockNo : Nat
  count : Nat
  buf : Nat
  noYield : Bool
deriving DecidableEq, Repr

/-- `idx[0]`, `idx[1]` and `idx[2]`. -/
structure Chain where
  head : Nat
  data : Nat
  stat : Nat
deriving DecidableEq, Repr

def Chain.descs (ch : Chain) : List Nat := [ch.head, ch.data, ch.stat]

/-- The sector of a request, in `uint64`. -/
def Req.sector (r : Req) : Nat := r.blockNo * (BLOCK_SIZE / 512) % 2 ^ 64

namespace Disk

/-- `wait_queue::wake_up_one` of `request_queue`. -/
def wakeUpOne (d : Disk) : Disk :=
  match d.requestQueue with
  | [] => d
  | c :: cs => { d with requestQueue := cs, asleep := Function.update d.asleep c false }

/-- `alloc_desc`; `none` is -1. -/
def allocDesc (d : Disk) : Option (Nat × Disk) :=
  match (List.range NUM).find? d.free with
  | none => none
  | some i => some (i, { d with free := Function.update d.free i false })

/-- `free_desc`; `none` is a panic. -/
def freeDesc (d : Disk) (i : Nat) : Option Disk :=
  if NUM ≤ i then none
  else if d.free i then none
  else some (wakeUpOne
    { d with
      desc := Function.update d.desc i Desc.zero
      free := Function.update d.free i true })

/-- `free_chain`. Every round frees a descriptor that was not free, so a chain that does not end
panics in round `NUM + 1` at the latest. -/
def freeChain : Nat → Disk → Nat → Option Disk
  | 0, _, _ => none
  | fuel + 1, d, i =>
    let flag := (d.desc i).flags
    let nxt := (d.desc i).next
    match d.freeDesc i with
    | none => none
    | some d' => if flag &&& VRING_DESC_F_NEXT ≠ 0 then freeChain fuel d' nxt else some d'

/-- The inner loop of `alloc_descs`: give back what was allocated. -/
def freeAll : List Nat → Disk → Option Disk
  | [], d => some d
  | i :: is, d => (d.freeDesc i).bind (freeAll is)

/-- The outer loop of `alloc_descs` with `n` rounds to go. The outer `none` is a panic, the
inner one is -1. -/
def allocDescsLoop : Nat → List Nat → Disk → Option (Option (List Nat) × Disk)
  | 0, idx, d => some (some idx, d)
  | n + 1, idx, d =>
    match d.allocDesc with
    | none => (freeAll idx d).map fun d' => (none, d')
    | some (i, d') => allocDescsLoop n (idx ++ [i]) d'

/-- `alloc_descs`. -/
def allocDescs (d : Disk) : Option (Option (List Nat) × Disk) := allocDescsLoop 3 [] d

/-- The flags of the data descriptor. -/
def dataFlags (command : Nat) : Nat :=
  (if command = VIRTIO_BLK_T_OUT ∨ command = VIRTIO_BLK_T_FLUSH then 0 else VRING_DESC_F_WRITE)
    ||| VRING_DESC_F_NEXT

/-- `disk_command` formats the three descriptors. -/
def format (d : Disk) (r : Req) (ch : Chain) : Disk :=
  { d with
    ops := Function.update d.ops ch.head ⟨r.command % 2 ^ 32, r.sector⟩
    desc :=
      Function.update
        (Function.update
          (Function.update d.desc ch.head ⟨.op ch.head, 16, VRING_DESC_F_NEXT, ch.data⟩)
          ch.data ⟨.data r.buf, r.count * BLOCK_SIZE % 2 ^ 32, dataFlags r.command, ch.stat⟩)
        ch.stat ⟨.status ch.head, 1, VRING_DESC_F_WRITE, 0⟩
    status := Function.update d.status ch.head 0xfb
    done := Function.update d.done ch.head false }

/-- `disk_command` puts the head of its chain into the avail ring. -/
def pushAvail (d : Disk) (head : Nat) : Disk :=
  { d with
    availRing := Function.update d.availRing (d.availIdx % NUM) head
    availIdx := (d.availIdx + 1) % idxRange }

/-- `single_wait_queue::wake_up` of `info[i].wait_queue`. -/
def wakeSleeper (d : Disk) (i : Nat) : Disk :=
  match d.sleeper i with
  | none => d
  | some c =>
    { d with
      sleeper := Function.update d.sleeper i none
      asleep := Function.update d.asleep c false }

/-- One round of the loop of `virtio_disk_intr`; `none` when it stays in
`while (info[id].status != 0) ;`. -/
def intrRound (d : Disk) : Option Disk :=
  let id := d.usedRing (d.usedSeen % NUM)
  if d.status id ≠ 0 then none
  else some (wakeSleeper
    { d with
      usedSeen := (d.usedSeen + 1) % idxRange
      done := Function.update d.done id true } id)

/-- The loop of `virtio_disk_intr`, when the device publishes nothing meanwhile; `none` when
it has not ended after the given number of rounds. -/
def intrLoop : Nat → Disk → Option Disk
  | 0, d => if d.usedSeen = d.usedIdx then some d else none
  | n + 1, d => if d.usedSeen = d.usedIdx then some d else d.intrRound.bind (intrLoop n)

/-- What the device finds when it follows the chain of `head`: the header, the buffer and the
place of the status byte. -/
def resolve (d : Disk) (head : Nat) : Option (BlkReq × Nat × Nat) :=
  let d0 := d.desc head
  let d1 := d.desc d0.next
  let d2 := d.desc d1.next
  match d0.addr, d1.addr, d2.addr with
  | .op i, .data p, .status k => some (d.ops i, p, k)
  | _, _, _ => none

end Disk

/-- `virtio_disk::capacity`, from `regs->config.capacity`. -/
def capacity (config : Nat) : Nat := config * 512 % 2 ^ 64 / BLOCK_SIZE

/-! ## The system -/

/-- Where a call of `disk_command` is. `waiting` is the second wait loop, of the call that
submitted the chain as number `ticket`. -/
inductive Pc where
  | idle
  | retry (r : Req)
  | waiting (r : Req) (ch : Chain) (ticket : Nat)
  | returned (ticket : Nat) (code : Int)
  | failed
deriving DecidableEq, Repr

/-- The driver lock between two events. `abandoned`: a call has returned with it. -/
inductive Lock where
  | free
  | handler
  | abandoned
deriving DecidableEq, Repr

/-- `kernel_assert` of `disk_command`, or one of the panics of `free_desc`. -/
inductive Panic where
  | count
  | freeDesc
deriving DecidableEq, Repr

/-- A chain the device is working on: the number of its avail entry and its head. -/
structure Job where
  ticket : Nat
  head : Nat
deriving DecidableEq, Repr

/-- A chain was put into the avail ring. -/
structure Submission where
  call : Nat
  req : Req
  chain : Chain
deriving DecidableEq, Repr

/-- The device has performed a request and written its status byte. -/
structure Service where
  ticket : Nat
  blk : BlkReq
  buf : Nat
  status : Nat
deriving DecidableEq, Repr

/-- Driver, device and calls. `lastAvail` is the device's own index into the avail ring, `fetched`
the number of entries it has read and `seen` the number the handler has. -/
structure Sys where
  disk : Disk
  lock : Lock
  panicked : Option Panic
  pc : Nat → Pc
  lastAvail : Nat
  taken : List Job
  executed : List Job
  fetched : Nat
  seen : Nat
  submitted : List Submission
  served : List Service
  published : List Job

inductive Event where
  /-- A call starts; it reads the capacity and perhaps the status register. -/
  | call (c : Nat) (r : Req) (config : Nat) (needsReset : Bool)
  /-- A call that waits gets the lock back. -/
  | resume (c : Nat) (needsReset : Bool)
  | intrEnter
  | intrRound
  | intrLeave
  /-- The device reads the next entry of the avail ring. -/
  | fetch
  /-- The device performs a request and writes the status byte. -/
  | execute (j : Job) (status : Nat)
  /-- The device writes the next entry of the used ring. -/
  | publish (j : Job)
deriving DecidableEq, Repr

namespace Sys

/-- After `open`: every descriptor is free and no call is made. -/
def init : Sys where
  disk :=
    { desc := fun _ => Desc.zero, availIdx := 0, availRing := fun _ => 0
      usedIdx := 0, usedRing := fun _ => 0, usedSeen := 0
      free := fun i => decide (i < NUM), ops := fun _ => ⟨0, 0⟩
      done := fun _ => false, status := fun _ => 0, sleeper := fun _ => none
      requestQueue := [], asleep := fun _ => false }
  lock := .free
  panicked := none
  pc := fun _ => .idle
  lastAvail := 0
  taken := []
  executed := []
  fetched := 0
  seen := 0
  submitted := []
  served := []
  published := []

def setPc (s : Sys) (c : Nat) (p : Pc) : Sys := { s with pc := Function.update s.pc c p }

/-- The test of the second wait loop, up to where the lock is dropped: the call returns, or
finds the device broken and returns as well, or sleeps on `info[idx[0]].wait_queue`. -/
def check (s : Sys) (c : Nat) (r : Req) (ch : Chain) (ticket : Nat) (needsReset : Bool) : Sys :=
  if s.disk.done ch.head then
    match s.disk.freeChain (NUM + 1) ch.head with
    | none => { s with panicked := some .freeDesc }
    | some d => setPc { s with disk := d } c (.returned ticket 0)
  else if needsReset then
    -- `co_return -1` comes before `free_chain` and `lock.unlock()`
    setPc { s with lock := .abandoned } c (.returned ticket (-1))
  else if r.noYield then s
  else
    { s with
      disk :=
        { s.disk with
          sleeper := Function.update s.disk.sleeper ch.head (some c)
          asleep := Function.update s.disk.asleep c true } }

/-- `disk_command` formats its chain and gives it to the device. -/
def submit (s : Sys) (c : Nat) (r : Req) (ch : Chain) : Sys :=
  setPc
    { s with
      disk := (s.disk.format r ch).pushAvail ch.head
      submitted := s.submitted ++ [⟨c, r, ch⟩] } c (.waiting r ch s.submitted.length)

/-- A round of the first wait loop: allocate three descriptors, or sleep on `request_queue`. -/
def attempt (s : Sys) (c : Nat) (r : Req) (needsReset : Bool) : Sys :=
  match s.disk.allocDescs with
  | none => { s with panicked := some .freeDesc }
  | some (some idx, d) =>
    let ch : Chain := ⟨idx.getD 0 0, idx.getD 1 0, idx.getD 2 0⟩
    ({ s with disk := d }.submit c r ch).check c r ch s.submitted.length needsReset
  | some (none, d) =>
    if r.noYield then setPc { s with disk := d } c (.retry r)
    else
      setPc
        { s with
          disk :=
            { d with
              requestQueue := d.requestQueue ++ [c]
              asleep := Function.update d.asleep c true } } c (.retry r)

/-- `block_no + count > capacity()`, in `uint64`. -/
def outOfRange (r : Req) (config : Nat) : Prop := capacity config < (r.blockNo + r.count) % 2 ^ 64

instance (r : Req) (config : Nat) : Decidable (outOfRange r config) :=
  inferInstanceAs (Decidable (_ < _))

def callStep (s : Sys) (c : Nat) (r : Req) (config : Nat) (needsReset : Bool) : Option Sys :=
  if s.pc c ≠ .idle then none
  else if r.count ≠ 1 then some { s with panicked := some .count }
  else if outOfRange r config then some (s.setPc c .failed)
  else if s.lock = .free then some (s.attempt c r needsReset)
  else none

def resumeStep (s : Sys) (c : Nat) (needsReset : Bool) : Option Sys :=
  if s.lock = .free ∧ s.disk.asleep c = false then
    match s.pc c with
    | .retry r => some (s.attempt c r needsReset)
    | .waiting r ch ticket => some (s.check c r ch ticket needsReset)
    | _ => none
  else none

/-- A round of the handler, if there is an entry it has not seen. A handler that spins changes
nothing. -/
def intrRoundStep (s : Sys) : Option Sys :=
  if s.lock = .handler ∧ s.disk.usedSeen ≠ s.disk.usedIdx then
    match s.disk.intrRound with
    | none => some s
    | some d => some { s with disk := d, seen := s.seen + 1 }
  else none

def fetchStep (s : Sys) : Option Sys :=
  if s.lastAvail ≠ s.disk.availIdx then
    some
      { s with
        lastAvail := (s.lastAvail + 1) % idxRange
        fetched := s.fetched + 1
        taken := s.taken ++ [⟨s.fetched, s.disk.availRing (s.lastAvail % NUM)⟩] }
  else none

def executeStep (s : Sys) (j : Job) (b : Nat) : Option Sys :=
  if j ∈ s.taken then
    match s.disk.resolve j.head with
    | none => none
    | some (blk, buf, k) =>
      some
        { s with
          disk := { s.disk with status := Function.update s.disk.status k b }
          taken := s.taken.erase j
          executed := s.executed ++ [j]
          served := s.served ++ [⟨j.ticket, blk, buf, b⟩] }
  else none

def publishStep (s : Sys) (j : Job) : Option Sys :=
  if j ∈ s.executed then
    some
      { s with
        disk :=
          { s.disk with
            usedRing := Function.update s.disk.usedRing (s.disk.usedIdx % NUM) j.head
            usedIdx := (s.disk.usedIdx + 1) % idxRange }
        executed := s.executed.erase j
        published := s.published ++ [j] }
  else none

/-- One event; `none` when it cannot happen now. Nothing happens after a panic. -/
def step (s : Sys) (e : Event) : Option Sys :=
  if s.panicked.isSome then none
  else
    match e with
    | .call c r config needsReset => s.callStep c r config needsReset
    | .resume c needsReset => s.resumeStep c needsReset
    | .intrEnter => if s.lock = .free then some { s with lock := .handler } else none
    | .intrRound => s.intrRoundStep
    | .intrLeave =>
      if s.lock = .handler ∧ s.disk.usedSeen = s.disk.usedIdx then some { s with lock := .free }
      else none
    | .fetch => s.fetchStep
    | .execute j b => s.executeStep j b
    | .publish j => s.publishStep j

/-- The events one after the other, as long as each of them is allowed. -/
def exec (ok : Sys → Event → Bool) (s : Sys) : List Event → Option Sys
  | [] => some s
  | e :: es => if ok s e then (s.step e).bind fun s' => exec ok s' es else none

end Sys

/-- The step relation of the disk. -/
def Step (s : Sys) (e : Event) (s' : Sys) : Prop := s.step e = some s'

theorem run_exec {ok : Sys → Event → Bool} {es : List Event} {s s' : Sys}
    (h : s.exec ok es = some s') : Lib.Run (Lib.Guarded Step fun s e => ok s e = true) s es s' := by
  induction es generalizing s with
  | nil =>
    cases h
    exact .nil _
  | cons e es ih =>
    rw [Sys.exec] at h
    split at h
    · next hok =>
      obtain ⟨t, ht, hrest⟩ := Option.bind_eq_some_iff.mp h
      exact (Lib.Run.single ⟨hok, ht⟩).append (ih hrest)
    · cases h

end CoroCore.Virtio
