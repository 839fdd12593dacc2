import CoroCore.Nfs.Alloc
import CoroCore.Utils.ReferenceGuard

/-!
# The locks of the block buffers: `fs/nfs/nfs.cc` and `fs/nfs/inode.cc`

The block allocator and the data path once more, now as what they do to the `_in_use_mutex` of the
buffers. Fields of the super block and of inodes, and what a buffer holds, are values from shared
memory. A `co_await` on a task that fails destroys the coroutine, with the guards in it.

`alloc_block` gives the bitmap buffer back with `buf_ref->put()`, the `put` of the buffer and not
of the guard. The guard still holds, and its destructor unlocks the mutex a second time.

* `Call`: the functions of the allocator and of the data path;
* `locks_released_once`: each path of them is exact if and only if `alloc_block` takes no block on
  it, and until it does no two tasks hold the same buffer.
-/

namespace CoroCore.Nfs.Locks

open Lib Lib.Co LockEvent

/-- A `referenceable_buffer`: a node of the block buffer, or an inode. -/
inductive Buffer
  | block (n : Nat)
  | inode (n : Nat)
  deriving DecidableEq

/-- `co_await` of a task that may have returned `task_fail`. -/
def await {α : Type} (c : Co Buffer (Option α)) : Co Buffer α := do
  match ← c with
  | none => abort
  | some a => return a

/-- `kernel_block_buffer.get`: some node, or none if there is no node to be had. -/
def bufferGet (_blockNo : Nat) : Co Buffer Buffer := do
  let found ← load
  if found = 0 then abort else return .block (← load)

/-- A block buffer, read or written under its guard. -/
def useBlock (b : Nat) : Co Buffer Unit := do
  withRef (← bufferGet b) (return ())

/-- The loop of `alloc_block`: the bitmap block and the zero bit it stops at, and `buf_ref`. The
guard that `buf_ref` held before is destroyed after the next one is there. -/
def scanBitmap (start : Nat) : Nat → Nat → Nat → Guard Buffer → Co Buffer (Nat × Nat × Guard Buffer)
  | 0, bi, z, ref => return (bi, z, ref)
  | fuel + 1, bi, z, ref =>
    if bi < start then do
      let next ← (bufferGet bi >>= getRef).onAbort ref.destroy
      let (ref, old) := ref.assign next
      old.destroy
      let z ← load
      if z = none32 then scanBitmap start fuel (bi + 1) z ref else return (bi, z, ref)
    else return (bi, z, ref)

/-- `alloc_block` from `bitmap_set` on. The mark stands for `bitmap_set`. -/
def takeBlock (start b : Nat) (ref : Guard Buffer) : Co Buffer (Option Nat) := do
  step (mark (← ref.arrow))
  nodePut (← ref.arrow)
  if b < start then panic
  else do
    ref.destroy
    return some b

/-- `alloc_block`. -/
def allocBlock : Co Buffer (Option Nat) := do
  let used ← load
  let total ← load
  if total ≤ used then return none
  else do
    let start ← load
    let next ← load
    let first := if start ≤ next then bitmapBlockIndex else next
    let (bi, z, ref) ← scanBitmap start (start - first) first (← load) Guard.empty
    let totalBlocks ← load
    if totalBlocks ≤ blockIndex bi z then do
      ref.destroy
      return none
    else takeBlock start (blockIndex bi z) ref

/-- `free_block`. -/
def freeBlock (b : Nat) : Co Buffer (Option Unit) := do
  let totalBlocks ← load
  if totalBlocks ≤ b then return none
  else do
    let ref ← bufferGet (bitmapBlockIndex + b / bitmapBlockSize) >>= getRef
    let ref ← ref.put
    ref.destroy
    return some ()

/-- `direct_data_block_rw`. -/
def directDataBlockRw (write : Bool) (k off size : Nat) : Co Buffer Unit :=
  if k < numDirectData ∧ off + size ≤ blockSize then do
    let b ← load
    if b = none32 then
      if write then await allocBlock >>= useBlock else return ()
    else useBlock b
  else panic

/-- The first half of `data_block_rw`: the data block, if there is one in the end. -/
def addrBlockEntry (write : Bool) (ab : Nat) : Co Buffer (Option Nat) := do
  withRef (← bufferGet ab) do
    let b ← load
    if b = none32 then
      if write then return some (← await allocBlock) else return none
    else return some b

/-- `data_block_rw`. -/
def dataBlockRw (write : Bool) (ab j off size : Nat) : Co Buffer Unit :=
  if j < numAddrs ∧ off + size ≤ blockSize then do
    match ← addrBlockEntry write ab with
    | none => return ()
    | some b => useBlock b
  else panic

/-- First loop of `get_block_index`: the node, the number and the offset it stops at. -/
def walk : Nat → Nat → Nat → Co Buffer (Buffer × Nat × Nat)
  | 0, b, offset => return (← bufferGet b, b, offset)
  | fuel + 1, b, offset => do
    let node ← bufferGet b
    if offset < addrBlockDataSize then return (node, b, offset)
    else do
      let next ← withRef node load
      if next = none32 then return (node, b, offset)
      else walk fuel next (offset - addrBlockDataSize)

/-- Second loop of `get_block_index`. -/
def extend : Nat → Buffer → Nat → Nat → Co Buffer (Buffer × Nat × Nat)
  | 0, node, b, offset => return (node, b, offset)
  | fuel + 1, node, b, offset =>
    if offset < addrBlockDataSize then return (node, b, offset)
    else do
      let nb ← await allocBlock
      let newNode ← bufferGet nb
      withRef newNode (return ())
      withRef node (return ())
      extend fuel newNode nb (offset - addrBlockDataSize)

/-- `get_block_index`: the address block, the index in it, the data block if it is asked for, and
the offset in the data block. -/
def getBlockIndex (start offset : Nat) (dataBlockIndex : Bool) :
    Co Buffer (Nat × Nat × Option Nat × Nat) := do
  let (node, b, offset) ← walk (offset / addrBlockDataSize) start offset
  let (node, b, offset) ← extend (offset / addrBlockDataSize) node b offset
  let data ← if dataBlockIndex then some <$> withRef node load else pure none
  return (b, offset / blockSize, data, offset % blockSize)

/-- First loop of `data_rw`. -/
def directLoop (write : Bool) : Nat → Nat → Nat → Co Buffer (Nat × Nat)
  | 0, offset, size => return (offset, size)
  | fuel + 1, offset, size =>
    if offset < directDataSize ∧ 0 < size then do
      let n := min size (blockSize - offset % blockSize)
      directDataBlockRw write (offset / blockSize) (offset % blockSize) n
      directLoop write fuel (offset + n) (size - n)
    else return (offset, size)

/-- Last loop of `data_rw`. -/
def indirectLoop (write : Bool) : Nat → Nat → Nat → Nat → Co Buffer Unit
  | 0, _, _, _ => return ()
  | fuel + 1, cur, offset, size =>
    if 0 < size then do
      let (ab, j, _, off) ← getBlockIndex cur offset false
      let n := min size (blockSize - off)
      dataBlockRw write ab j off n
      indirectLoop write fuel ab (offset % addrBlockDataSize + n) (size - n)
    else return ()

/-- The indirect part of `data_rw`, from `next_addr_block` or from the remembered position. -/
def indirectRw (write : Bool) (cur offset size : Nat) : Co Buffer Unit := do
  if (← load) = offset then indirectLoop write size (← load) (← load) size
  else indirectLoop write size cur offset size

/-- `data_rw`. -/
def dataRw (write : Bool) (offset size : Nat) : Co Buffer Unit := do
  let (offset, size) ← directLoop write size offset size
  if size = 0 then return ()
  else do
    let next ← load
    if next = none32 then
      if write then do
        let nb ← await allocBlock
        useBlock nb
        indirectRw write nb (offset - directDataSize) size
      else return ()
    else indirectRw write next (offset - directDataSize) size

/-- `load()` of inode `i`. It reads the inode table under a guard. -/
def loadInode (i : Nat) : Co Buffer Unit := do
  if (← load) = 0 ∧ i ≠ 0 then withRef (.inode (← load)) (dataRw false (i * dinodeSize) dinodeSize)
  else return ()

/-- `free_block` of the addresses in use, for `n` addresses. -/
def freeEntries : Nat → Co Buffer Unit
  | 0 => return ()
  | n + 1 => do
    let b ← load
    if b = none32 then freeEntries n
    else do
      await (freeBlock b)
      freeEntries n

/-- Last loop of `truncate`. A chain that is longer than `fuel` is not followed to its end. -/
def freeChain : Nat → Nat → Co Buffer Unit
  | 0, _ => panic
  | fuel + 1, ab =>
    if ab = none32 then return ()
    else do
      let next ← withRef (← bufferGet ab) do
        freeEntries numAddrs
        load
      await (freeBlock ab)
      freeChain fuel next

/-- `truncate` of inode `i`. -/
def truncate (i : Nat) (size : Int) (fuel : Nat) : Co Buffer Int :=
  if size ≠ 0 then return -1
  else do
    loadInode i
    if (← load) = 0 then return 0
    else do
      freeEntries numDirectData
      freeChain fuel (← load)
      return 0

/-- The functions, with their arguments. -/
inductive Call
  | allocBlock
  | freeBlock (b : Nat)
  | directDataBlockRw (write : Bool) (k off size : Nat)
  | dataBlockRw (write : Bool) (ab j off size : Nat)
  | getBlockIndex (start offset : Nat) (dataBlockIndex : Bool)
  | dataRw (write : Bool) (offset size : Nat)
  | truncate (i : Nat) (size : Int) (fuel : Nat)

def Call.code : Call → Co Buffer Unit
  | allocBlock => do let _ ← Locks.allocBlock; return ()
  | freeBlock b => do let _ ← Locks.freeBlock b; return ()
  | directDataBlockRw write k off size => Locks.directDataBlockRw write k off size
  | dataBlockRw write ab j off size => Locks.dataBlockRw write ab j off size
  | getBlockIndex start offset data => do let _ ← Locks.getBlockIndex start offset data; return ()
  | dataRw write offset size => Locks.dataRw write offset size
  | truncate i size fuel => do let _ ← Locks.truncate i size fuel; return ()

/-! ## What is due -/

variable {α : Type} {ref : Guard Buffer} {h : Buffer → Nat}

theorem keeps_await {c : Co Buffer (Option α)} (hc : Keeps c) : Keeps (await c) :=
  hc.bind fun r =>
    match r with
    | none => Keeps.abort
    | some a => Keeps.ret a

theorem keeps_bufferGet (b : Nat) : Keeps (bufferGet b) :=
  Keeps.load.bind fun _ =>
    Keeps.ite (fun _ => Keeps.abort) fun _ => Keeps.load.bind fun _ => Keeps.ret _

theorem keeps_useBlock (b : Nat) : Keeps (useBlock b) :=
  (keeps_bufferGet b).bind fun _ => Keeps.withRef (Keeps.ret ())

/-- The guard in `buf_ref` is due at the end of the loop, in place of the one at its start. -/
theorem wp_scanBitmap (start : Nat) : ∀ (fuel bi z : Nat) (ref : Guard Buffer),
    wp (fun r h' => h' = r.2.2.due h) (h ≤ ·) (scanBitmap start fuel bi z ref) (ref.due h)
  | 0, _, _, _ => rfl
  | fuel + 1, bi, z, ref => by
    rw [scanBitmap]
    split
    · refine wp_bind.mpr (wp_onAbort (wp_bind.mpr ?_))
      refine wp_mono (keeps_bufferGet bi (ref.due h)) ?_ fun _ hle => Guard.wp_destroy_le hle
      rintro node _ rfl
      refine wp_getRef (fun next => ?_) fun _ hle => Guard.wp_destroy_le hle
      rw [Guard.due_comm]
      refine wp_bind.mpr (Guard.wp_destroy fun z => ?_)
      change wp _ _ (if z = none32 then _ else _) _
      split
      · exact wp_scanBitmap start fuel (bi + 1) z next
      · rfl
    · rfl

/-- The mark pays for the `put` of the buffer, and the guard for its own. -/
theorem wp_takeBlock (start b : Nat) :
    wp (fun _ h' => h' = h) (h ≤ ·) (takeBlock start b ref) (ref.due h) := by
  rcases ref with ⟨_ | p, hold⟩
  · trivial
  · refine ⟨_, rfl, ?_⟩
    change wp _ _ (nodePut p >>= fun _ => if b < start then panic else _) _
    refine wp_bind.mpr (wp_nodePut ?_ ?_)
    · rw [Function.update_self]
      exact Nat.succ_pos _
    · rw [Function.update_self, Nat.add_sub_cancel, Function.update_idem, Function.update_eq_self]
      split
      · trivial
      · exact wp_bind.mpr (Guard.wp_destroy rfl)

theorem keeps_allocBlock : Keeps allocBlock := by
  refine Keeps.load.bind fun used => Keeps.load.bind fun total =>
    Keeps.ite (fun _ => Keeps.ret _) ?_
  refine fun _ => Keeps.load.bind fun start => Keeps.load.bind fun next =>
    Keeps.load.bind fun z => ?_
  intro h
  refine wp_bind.mpr (wp_mono (wp_scanBitmap start _ _ z Guard.empty) ?_ fun _ => id)
  rintro ⟨bi, z, ref⟩ _ rfl
  intro totalBlocks
  change wp _ _ (if totalBlocks ≤ blockIndex bi z then _ else _) _
  split
  · exact wp_bind.mpr (Guard.wp_destroy rfl)
  · exact wp_takeBlock start (blockIndex bi z)

theorem keeps_freeBlock (b : Nat) : Keeps (freeBlock b) := by
  refine Keeps.load.bind fun totalBlocks => Keeps.ite (fun _ => Keeps.ret _) fun _ => ?_
  intro h
  refine wp_bind.mpr (wp_bind.mpr (wp_mono (keeps_bufferGet _ h) ?_ fun _ => id))
  rintro node _ rfl
  refine wp_getRef (fun ref => ?_) fun _ => id
  exact wp_bind.mpr (Guard.wp_put (wp_bind.mpr (Guard.wp_destroy rfl)))

theorem keeps_directDataBlockRw (write : Bool) (k off size : Nat) :
    Keeps (directDataBlockRw write k off size) := by
  refine Keeps.ite (fun _ => Keeps.load.bind fun b => ?_) fun _ => Keeps.panic
  refine Keeps.ite (fun _ => Keeps.ite (fun _ => ?_) fun _ => Keeps.ret ()) fun _ =>
    keeps_useBlock b
  exact (keeps_await keeps_allocBlock).bind keeps_useBlock

theorem keeps_addrBlockEntry (write : Bool) (ab : Nat) : Keeps (addrBlockEntry write ab) := by
  refine (keeps_bufferGet ab).bind fun node => Keeps.withRef (Keeps.load.bind fun b => ?_)
  refine Keeps.ite (fun _ => Keeps.ite (fun _ => ?_) fun _ => Keeps.ret _) fun _ => Keeps.ret _
  exact (keeps_await keeps_allocBlock).bind fun _ => Keeps.ret _

theorem keeps_dataBlockRw (write : Bool) (ab j off size : Nat) :
    Keeps (dataBlockRw write ab j off size) := by
  refine Keeps.ite (fun _ => (keeps_addrBlockEntry write ab).bind fun r => ?_) fun _ => Keeps.panic
  cases r with
  | none => exact Keeps.ret ()
  | some b => exact keeps_useBlock b

theorem keeps_walk : ∀ fuel b offset : Nat, Keeps (walk fuel b offset)
  | 0, b, _ => (keeps_bufferGet b).bind fun _ => Keeps.ret _
  | fuel + 1, b, offset => by
    refine (keeps_bufferGet b).bind fun node => Keeps.ite (fun _ => Keeps.ret _) fun _ => ?_
    refine (Keeps.withRef Keeps.load).bind fun next => Keeps.ite (fun _ => Keeps.ret _) fun _ => ?_
    exact keeps_walk fuel next (offset - addrBlockDataSize)

theorem keeps_extend : ∀ (fuel : Nat) (node : Buffer) (b offset : Nat),
    Keeps (extend fuel node b offset)
  | 0, _, _, _ => Keeps.ret _
  | fuel + 1, node, b, offset => by
    refine Keeps.ite (fun _ => Keeps.ret _) fun _ =>
      (keeps_await keeps_allocBlock).bind fun nb => ?_
    refine (keeps_bufferGet nb).bind fun newNode => ?_
    refine (Keeps.withRef (Keeps.ret ())).bind fun _ =>
      (Keeps.withRef (Keeps.ret ())).bind fun _ => ?_
    exact keeps_extend fuel newNode nb (offset - addrBlockDataSize)

theorem keeps_getBlockIndex (start offset : Nat) (data : Bool) :
    Keeps (getBlockIndex start offset data) := by
  refine (keeps_walk _ start offset).bind fun r => (keeps_extend _ _ _ _).bind fun r' => ?_
  cases data with
  | false => exact Keeps.ret _
  | true => exact ((Keeps.withRef Keeps.load).bind fun _ => Keeps.ret _).bind fun _ => Keeps.ret _

theorem keeps_directLoop (write : Bool) : ∀ fuel offset size : Nat,
    Keeps (directLoop write fuel offset size)
  | 0, _, _ => Keeps.ret _
  | fuel + 1, _, _ => Keeps.ite
      (fun _ => (keeps_directDataBlockRw write _ _ _).bind fun _ => keeps_directLoop write fuel _ _)
      fun _ => Keeps.ret _

theorem keeps_indirectLoop (write : Bool) : ∀ fuel cur offset size : Nat,
    Keeps (indirectLoop write fuel cur offset size)
  | 0, _, _, _ => Keeps.ret _
  | fuel + 1, cur, offset, size => by
    refine Keeps.ite (fun _ => (keeps_getBlockIndex cur offset false).bind fun r => ?_)
      fun _ => Keeps.ret _
    exact (keeps_dataBlockRw write _ _ _ _).bind fun _ => keeps_indirectLoop write fuel _ _ _

theorem keeps_indirectRw (write : Bool) (cur offset size : Nat) :
    Keeps (indirectRw write cur offset size) := by
  refine Keeps.load.bind fun raw => Keeps.ite (fun _ => ?_) fun _ =>
    keeps_indirectLoop write _ _ _ _
  exact Keeps.load.bind fun _ => Keeps.load.bind fun _ => keeps_indirectLoop write _ _ _ _

theorem keeps_dataRw (write : Bool) (offset size : Nat) : Keeps (dataRw write offset size) := by
  refine (keeps_directLoop write size offset size).bind fun r => Keeps.ite (fun _ => Keeps.ret _) ?_
  refine fun _ => Keeps.load.bind fun next => Keeps.ite (fun _ => ?_)
    fun _ => keeps_indirectRw write _ _ _
  refine Keeps.ite (fun _ => (keeps_await keeps_allocBlock).bind fun nb => ?_) fun _ => Keeps.ret _
  exact (keeps_useBlock nb).bind fun _ => keeps_indirectRw write _ _ _

theorem keeps_loadInode (i : Nat) : Keeps (loadInode i) := by
  refine Keeps.load.bind fun valid => Keeps.ite (fun _ => ?_) fun _ => Keeps.ret _
  exact Keeps.load.bind fun _ => Keeps.withRef (keeps_dataRw false _ _)

theorem keeps_freeEntries : ∀ n : Nat, Keeps (freeEntries n)
  | 0 => Keeps.ret _
  | n + 1 => by
    refine Keeps.load.bind fun b => Keeps.ite (fun _ => keeps_freeEntries n) fun _ => ?_
    exact (keeps_await (keeps_freeBlock b)).bind fun _ => keeps_freeEntries n

theorem keeps_freeChain : ∀ fuel ab : Nat, Keeps (freeChain fuel ab)
  | 0, _ => Keeps.panic
  | fuel + 1, ab => by
    refine Keeps.ite (fun _ => Keeps.ret _) fun _ => (keeps_bufferGet ab).bind fun node => ?_
    refine (Keeps.withRef ((keeps_freeEntries numAddrs).bind fun _ => Keeps.load)).bind
      fun next => ?_
    exact (keeps_await (keeps_freeBlock ab)).bind fun _ => keeps_freeChain fuel next

theorem keeps_truncate (i : Nat) (size : Int) (fuel : Nat) : Keeps (truncate i size fuel) := by
  refine Keeps.ite (fun _ => Keeps.ret _) fun _ => (keeps_loadInode i).bind fun _ => ?_
  refine Keeps.load.bind fun n => Keeps.ite (fun _ => Keeps.ret _) fun _ => ?_
  refine (keeps_freeEntries numDirectData).bind fun _ => Keeps.load.bind fun next => ?_
  exact (keeps_freeChain fuel next).bind fun _ => Keeps.ret _

theorem Call.keeps : ∀ f : Call, Keeps f.code
  | .allocBlock => keeps_allocBlock.bind fun _ => Keeps.ret ()
  | .freeBlock b => (keeps_freeBlock b).bind fun _ => Keeps.ret ()
  | .directDataBlockRw write k off size => keeps_directDataBlockRw write k off size
  | .dataBlockRw write ab j off size => keeps_dataBlockRw write ab j off size
  | .getBlockIndex start offset data =>
      (keeps_getBlockIndex start offset data).bind fun _ => Keeps.ret ()
  | .dataRw write offset size => keeps_dataRw write offset size
  | .truncate i size fuel => (keeps_truncate i size fuel).bind fun _ => Keeps.ret ()

/-! ## Paths and tasks -/

open BufferTasks

/-- Tasks that call the functions. -/
abbrev TaskStep : Sys Buffer → Act Buffer → Sys Buffer → Prop := Step (Set.range Call.code)

/-- A path is exact if and only if `alloc_block` takes no block on it. In every run in which it
takes none, no two tasks hold the same buffer. -/
theorem locks_released_once (f : Call) (es : List (LockEvent Buffer)) (ls : List (Act Buffer))
    (s : Sys Buffer) :
    (Path f.code es (some ()) → (Exact es ↔ ∀ b, mark b ∉ es)) ∧
      (Run (Guarded TaskStep Unmarked) Sys.initial ls s →
        ∀ t u b, s.Holds t b → s.Holds u b → t = u) := by
  constructor
  · intro hp
    exact f.keeps.exact_iff hp
  · intro hrun t u b ht hu
    refine exclusive ?_ hrun ht hu
    rintro _ ⟨f, rfl⟩
    exact f.keeps

/-- `free_block` of block 100, whose bit is in block buffer 2. -/
theorem locks_released_once_free :
    Path (Call.freeBlock 100).code [acquire (.block 2), release (.block 2)] (some ()) ∧
      Exact [acquire (Buffer.block 2), release (Buffer.block 2)] := by
  have hp : Path (Call.freeBlock 100).code [acquire (.block 2), release (.block 2)] (some ()) :=
    .read (v := 8000) (.read (v := 1) (.read (v := 2) (.act (.read (v := 1) (.act .ret)))))
  exact ⟨hp, ((locks_released_once _ _ [] Sys.initial).1 hp).mpr (by simp)⟩

/-- Block buffer 2 holds the only bitmap block, in which bit 100 is the first zero. `alloc_block`
takes block 100, and unlocks the buffer twice. Between the two, another task locks it; after them
a third task can lock it too. -/
theorem locks_released_twice :
    (∃ es, Path Call.allocBlock.code es (some ()) ∧ ¬ Exact es) ∧
      ∃ ls s, Run TaskStep Sys.initial ls s ∧ s.Holds 1 (.block 2) ∧ s.Holds 2 (.block 2) := by
  constructor
  · refine ⟨[acquire (.block 2), mark (.block 2), release (.block 2), release (.block 2)], ?_, ?_⟩
    · refine .read (v := 0) (.read (v := 1) (.read (v := 3) (.read (v := 2) (.read (v := 0) ?_))))
      refine .read (v := 1) (.read (v := 2) (.act (.read (v := 1) (.read (v := 100) ?_))))
      exact .read (v := 8000) (.act (.act (.act .ret)))
    · exact fun h => absurd (h.balanced (.block 2)) (by decide)
  · -- task 0 allocates up to the `put` of the buffer
    have h0 : Run TaskStep Sys.initial [] Sys.initial := .nil _
    have h1 := h0.snoc (.call (t := 0) rfl ⟨.allocBlock, rfl⟩)
    have h2 := ((((h1.snoc (.read (t := 0) (v := 0) rfl)).snoc (.read (t := 0) (v := 1) rfl)).snoc
      (.read (t := 0) (v := 3) rfl)).snoc (.read (t := 0) (v := 2) rfl)).snoc
      (.read (t := 0) (v := 0) rfl)
    have h3 := ((h2.snoc (.read (t := 0) (v := 1) rfl)).snoc (.read (t := 0) (v := 2) rfl)).snoc
      (.lock (t := 0) rfl rfl rfl)
    have h4 := ((h3.snoc (.read (t := 0) (v := 1) rfl)).snoc (.read (t := 0) (v := 100) rfl)).snoc
      (.read (t := 0) (v := 8000) rfl)
    have h5 := (h4.snoc (.mark (t := 0) rfl)).snoc (.unlock (t := 0) rfl)
    -- task 1 is at the same bitmap block in `free_block`
    have h6 := (((h5.snoc (.call (t := 1) rfl ⟨.freeBlock 50, rfl⟩)).snoc
      (.read (t := 1) (v := 8000) rfl)).snoc (.read (t := 1) (v := 1) rfl)).snoc
      (.read (t := 1) (v := 2) rfl)
    have h7 := h6.snoc (.lock (t := 1) rfl rfl rfl)
    -- the guard of task 0 is destroyed
    have h8 := h7.snoc (.unlock (t := 0) rfl)
    have h9 := (((h8.snoc (.call (t := 2) rfl ⟨.freeBlock 51, rfl⟩)).snoc
      (.read (t := 2) (v := 8000) rfl)).snoc (.read (t := 2) (v := 1) rfl)).snoc
      (.read (t := 2) (v := 2) rfl)
    refine ⟨_, _, h9.snoc (.lock (t := 2) rfl rfl rfl), ?_, ?_⟩
    · change _ < _
      decide
    · change _ < _
      decide

end CoroCore.Nfs.Locks
