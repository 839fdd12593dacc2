import CoroCore.Lib.Bytes
import Mathlib.Logic.Function.Basic

/-!
# File data: `fs/nfs/inode.cc`

`data_rw` and what it calls, over a device that is a plain array of blocks. An inode refers to
its data by 13 direct addresses and a chain of address blocks; an address block holds the
number of the next one and 255 addresses. `(uint32)-1` stands for no block.

The inode objects are a family `ino`, and an operation names the object it works on. The block
allocator is a parameter: it may keep state of its own, in `al` or on the device, and it may
fail. A failed operation ends with the state it has reached (`Except.error`).

A loop of the source takes as fuel the largest number of rounds its condition allows.
-/

namespace CoroCore.Nfs

open Lib

abbrev blockSize : Nat := 1024
abbrev numDirectData : Nat := 13
abbrev numAddrs : Nat := 255
abbrev addrBlockDataSize : Nat := 261120
abbrev directDataSize : Nat := 13312

/-- `(uint32)-1`. -/
abbrev none32 : Nat := 4294967295

/-- `addr_block::next_addr_block`. -/
def nextOf (blk : Bytes) : Nat := getLe blk 0 4

/-- `addr_block::addrs[j]`. -/
def addrAt (blk : Bytes) (j : Nat) : Nat := getLe blk (4 * (j + 1)) 4

def setNext (blk : Bytes) (b : Nat) : Bytes := setLe blk 0 4 b

def setAddr (blk : Bytes) (j b : Nat) : Bytes := setLe blk (4 * (j + 1)) 4 b

/-- `nfs_inode`: metadata, block addresses and the remembered position of `data_rw`. -/
structure Inode where
  size : Nat
  nlinks : Nat
  perm : Nat
  type : Nat
  addrs : Nat → Nat
  nextAddrBlock : Nat
  cacheRawIndirectOffset : Nat
  cacheOffset : Nat
  cacheAddrBlock : Nat
  valid : Bool
  dirty : Bool

namespace Inode

/-- A new object. Its metadata and addresses are set by `initData` or a load. -/
def new : Inode :=
  ⟨0, 0, 0, 0, fun _ => 0, 0, none32, none32, none32, false, false⟩

/-- `nfs_inode::init_data`. -/
def initData (ino : Inode) : Inode :=
  { ino with size := 0, nlinks := 0, perm := 0, type := 0, addrs := fun _ => none32,
             nextAddrBlock := none32, valid := true, dirty := true }

/-- The inode `x` in an object that remembers what `y` remembers. -/
def withPos (x y : Inode) : Inode :=
  { x with cacheRawIndirectOffset := y.cacheRawIndirectOffset, cacheOffset := y.cacheOffset,
           cacheAddrBlock := y.cacheAddrBlock }

end Inode

/-- The blocks of the device and the state of the block allocator. -/
structure Dev (α : Type) where
  disk : Nat → Bytes
  al : α

def Dev.store {α : Type} (d : Dev α) (b : Nat) (blk : Bytes) : Dev α :=
  { d with disk := Function.update d.disk b blk }

/-- Inode objects over a device. -/
structure Store (ι α : Type) where
  ino : ι → Inode
  dev : Dev α

/-- `nfs::alloc_block`, or any other allocator. -/
abbrev Alloc (α : Type) := Dev α → Except (Dev α) (Nat × Dev α)

namespace Store

variable {ι α : Type} [DecidableEq ι]

def setIno (s : Store ι α) (i : ι) (x : Inode) : Store ι α :=
  { s with ino := Function.update s.ino i x }

@[simp] theorem setIno_self {s : Store ι α} {i : ι} {x : Inode} : (s.setIno i x).ino i = x :=
  Function.update_self ..

theorem setIno_of_ne {s : Store ι α} {i j : ι} {x : Inode} (h : j ≠ i) :
    (s.setIno i x).ino j = s.ino j := Function.update_of_ne h ..

@[simp] theorem setIno_dev {s : Store ι α} {i : ι} {x : Inode} : (s.setIno i x).dev = s.dev := rfl

/-- `addrs[k] = b; mark_dirty()`. -/
def setDirect (s : Store ι α) (i : ι) (k b : Nat) : Store ι α :=
  s.setIno i { s.ino i with addrs := Function.update (s.ino i).addrs k b, dirty := true }

def store (s : Store ι α) (b : Nat) (blk : Bytes) : Store ι α :=
  { s with dev := s.dev.store b blk }

variable (alloc : Alloc α)

/-- The contents of a block after `size` bytes of `src` are copied to `off`; a fresh block is
zero elsewhere. -/
def blockWrite (blk : Bytes) (clear : Bool) (off : Nat) (src : Bytes) (size : Nat) : Bytes :=
  if clear then
    memset (memset (memcpy blk off src size) 0 0 off) (off + size) 0 (blockSize - off - size)
  else memcpy blk off src size

/-- The end of `direct_data_block_rw` and `data_block_rw`: the copy between the data block `b`
and the caller's buffer at `pos`. -/
def transfer (write clear : Bool) (b off pos size : Nat) (buf : Bytes) (s : Store ι α) :
    Bytes × Store ι α :=
  if write then
    (buf, s.store b (blockWrite (s.dev.disk b) clear off (fun k => buf (pos + k)) size))
  else (memcpy buf pos (fun k => s.dev.disk b (off + k)) size, s)

/-- `direct_data_block_rw`. -/
def directDataBlockRw (write : Bool) (i : ι) (k off pos size : Nat) (buf : Bytes)
    (s : Store ι α) : Except (Store ι α) (Bytes × Store ι α) :=
  if (s.ino i).addrs k = none32 then
    if write then
      match alloc s.dev with
      | .error d => .error { s with dev := d }
      | .ok (b, d) => .ok (transfer true true b off pos size buf
          ({ s with dev := d }.setDirect i k b))
    else .ok (memset buf pos 0 size, s)
  else .ok (transfer write false ((s.ino i).addrs k) off pos size buf s)

/-- `data_block_rw`. -/
def dataBlockRw (write : Bool) (ab j off pos size : Nat) (buf : Bytes) (s : Store ι α) :
    Except (Store ι α) (Bytes × Store ι α) :=
  if addrAt (s.dev.disk ab) j = none32 then
    if write then
      match alloc s.dev with
      | .error d => .error { s with dev := d }
      | .ok (b, d) =>
        .ok (transfer true true b off pos size buf
          { s with dev := d.store ab (setAddr (d.disk ab) j b) })
    else .ok (memset buf pos 0 size, s)
  else .ok (transfer write false (addrAt (s.dev.disk ab) j) off pos size buf s)

/-- First loop of `get_block_index`: along the chain. -/
def walk (disk : Nat → Bytes) : Nat → Nat → Nat → Nat × Nat
  | 0, b, offset => (b, offset)
  | fuel + 1, b, offset =>
    if offset < addrBlockDataSize then (b, offset)
    else if nextOf (disk b) = none32 then (b, offset)
    else walk disk fuel (nextOf (disk b)) (offset - addrBlockDataSize)

/-- An address block with no entries: `memset(.., 0xff, BLOCK_SIZE)`. -/
def blankBlock (blk : Bytes) : Bytes := memset blk 0 0xff blockSize

/-- A new address block `nb` is made and linked after `b`. -/
def linkBlock (d : Dev α) (b nb : Nat) : Dev α :=
  (d.store nb (blankBlock (d.disk nb))).store b
    (setNext ((d.store nb (blankBlock (d.disk nb))).disk b) nb)

/-- Second loop of `get_block_index`: missing address blocks are created. -/
def extend : Nat → Nat → Nat → Dev α → Except (Dev α) (Nat × Nat × Dev α)
  | 0, b, offset, d => .ok (b, offset, d)
  | fuel + 1, b, offset, d =>
    if offset < addrBlockDataSize then .ok (b, offset, d)
    else
      match alloc d with
      | .error d => .error d
      | .ok (nb, d) => extend fuel nb (offset - addrBlockDataSize) (linkBlock d b nb)

/-- `get_block_index`: the address block, the index in it and the offset in the data block. -/
def getBlockIndex (start offset : Nat) (d : Dev α) :
    Except (Dev α) (Nat × Nat × Nat × Dev α) :=
  match walk d.disk (offset / addrBlockDataSize) start offset with
  | (b, offset) =>
    match extend alloc (offset / addrBlockDataSize) b offset d with
    | .error d => .error d
    | .ok (b, offset, d) => .ok (b, offset / blockSize, offset % blockSize, d)

/-- First loop of `data_rw`. Returns the offset and the position in the buffer it has reached,
and the size that is left. -/
def directLoop (write : Bool) (i : ι) : Nat → Nat → Nat → Nat → Bytes → Store ι α →
    Except (Store ι α) (Nat × Nat × Nat × Bytes × Store ι α)
  | 0, offset, pos, size, buf, s => .ok (offset, pos, size, buf, s)
  | fuel + 1, offset, pos, size, buf, s =>
    if offset < directDataSize ∧ 0 < size then
      match directDataBlockRw alloc write i (offset / blockSize) (offset % blockSize) pos
          (min size (blockSize - offset % blockSize)) buf s with
      | .error s => .error s
      | .ok (buf, s) =>
        directLoop write i fuel (offset + min size (blockSize - offset % blockSize))
          (pos + min size (blockSize - offset % blockSize))
          (size - min size (blockSize - offset % blockSize)) buf s
    else .ok (offset, pos, size, buf, s)

/-- Last loop of `data_rw`. `offset` is relative to the start of `cur`. -/
def indirectLoop (write : Bool) : Nat → Nat → Nat → Nat → Nat → Bytes → Store ι α →
    Except (Store ι α) (Nat × Nat × Bytes × Store ι α)
  | 0, cur, offset, _, _, buf, s => .ok (cur, offset, buf, s)
  | fuel + 1, cur, offset, pos, size, buf, s =>
    if 0 < size then
      match getBlockIndex alloc cur offset s.dev with
      | .error d => .error { s with dev := d }
      | .ok (ab, j, off, d) =>
        match dataBlockRw alloc write ab j off pos (min size (blockSize - off)) buf
            { s with dev := d } with
        | .error s => .error s
        | .ok (buf, s) =>
          indirectLoop write fuel ab (offset % addrBlockDataSize + min size (blockSize - off))
            (pos + min size (blockSize - off)) (size - min size (blockSize - off)) buf s
    else .ok (cur, offset, buf, s)

/-- The first address block of an inode, created by a write. -/
def firstAddrBlock (i : ι) (s : Store ι α) : Except (Store ι α) (Store ι α) :=
  match alloc s.dev with
  | .error d => .error { s with dev := d }
  | .ok (b, d) =>
    .ok ({ s with dev := d.store b (blankBlock (d.disk b)) }.setIno i
      { s.ino i with nextAddrBlock := b, dirty := true })

/-- Where the last loop starts: at the remembered position if it is at indirect offset `r`. -/
def startAt (ino : Inode) (r : Nat) : Nat × Nat :=
  if ino.cacheRawIndirectOffset = r then (ino.cacheAddrBlock, ino.cacheOffset)
  else (ino.nextAddrBlock, r)

/-- The position that `data_rw` remembers, in 32-bit fields. -/
def remember (ino : Inode) (raw offset cur : Nat) : Inode :=
  { ino with cacheRawIndirectOffset := raw % 2 ^ 32, cacheOffset := offset % 2 ^ 32,
             cacheAddrBlock := cur }

/-- The indirect part of `data_rw`, once there is a first address block. -/
def indirectRw (write : Bool) (i : ι) (r pos size : Nat) (buf : Bytes) (s : Store ι α) :
    Except (Store ι α) (Nat × Bytes × Store ι α) :=
  match indirectLoop alloc write size (startAt (s.ino i) r).1 (startAt (s.ino i) r).2 pos size
      buf s with
  | .error s => .error s
  | .ok (cur, offset, buf, s) =>
    .ok (pos + size, buf, s.setIno i (remember (s.ino i) (r + size) offset cur))

/-- `data_rw`: the number of bytes, the buffer and the state. -/
def dataRw (write : Bool) (i : ι) (offset size : Nat) (buf : Bytes) (s : Store ι α) :
    Except (Store ι α) (Nat × Bytes × Store ι α) :=
  match directLoop alloc write i size offset 0 size buf s with
  | .error s => .error s
  | .ok (offset, pos, size, buf, s) =>
    if size = 0 then .ok (pos, buf, s)
    else if (s.ino i).nextAddrBlock = none32 then
      if write then
        match firstAddrBlock alloc i s with
        | .error s => .error s
        | .ok s => indirectRw alloc write i (offset - directDataSize) pos size buf s
      else .ok (pos + size, memset buf pos 0 size, s)
    else indirectRw alloc write i (offset - directDataSize) pos size buf s

/-- `nfs_inode::read` of a loaded inode. -/
def read (i : ι) (offset size : Nat) (buf : Bytes) (s : Store ι α) :
    Except (Store ι α) (Nat × Bytes × Store ι α) :=
  dataRw alloc false i offset size buf s

/-- `nfs_inode::write` of a loaded inode. -/
def write (i : ι) (offset size : Nat) (src : Bytes) (s : Store ι α) :
    Except (Store ι α) (Nat × Store ι α) :=
  match dataRw alloc true i offset size src s with
  | .error s => .error s
  | .ok (n, _, s) =>
    if (s.ino i).size < offset + n then
      .ok (n, s.setIno i { s.ino i with size := (offset + n) % 2 ^ 32, dirty := true })
    else .ok (n, s)

end Store

end CoroCore.Nfs
