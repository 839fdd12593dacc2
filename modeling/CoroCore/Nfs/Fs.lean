import CoroCore.Nfs.Format
import CoroCore.Nfs.Truncate
import CoroCore.Utils.QuickString

/-!
# The file system: `nfs.cc` and the directory operations of `inode.cc`

Inode objects are indexed by inode number; 0 is the inode table. An object that is not valid
gets its fields from the inode table, or for the inode table itself from the superblock, before
they are used (`load`). An object that leaves the inode cache keeps its fields here, as an object
does in `inode::init`, until it is loaded again.

Which object the inode cache recycles is an argument of the operations that fetch an inode, and
so is what an uninitialised local variable holds. `get_inode` holds `nfs::lock` when the cache
flushes this object. `alloc_block` takes the same lock: a flush that needs a block panics there.
-/

namespace CoroCore.Nfs

open Lib

/-- The state of a mounted file system. -/
abbrev Fs := Store Nat Super

/-- An operation fails with the state it has reached. -/
abbrev Res (β : Type) := Except Fs β

/-- How a call ends that is not done: it fails with the state it has reached, or it panics. -/
inductive Stop (σ : Type) where
  | failed (s : σ)
  | panicked

/-- The result of a call that may panic. -/
abbrev Outcome (β : Type) := Except (Stop Fs) β

/-- A call that only fails, as part of one that may panic. -/
def outcome {σ β : Type} (x : Except σ β) : Except (Stop σ) β := x.mapError .failed

theorem outcome_bind {σ β γ : Type} {x : Except σ β} {f : β → Except σ γ} :
    outcome (x >>= f) = outcome x >>= fun a => outcome (f a) := by
  cases x <;> rfl

theorem outcome_failed {σ β : Type} {x : Except σ β} {s : σ}
    (h : outcome x = .error (.failed s)) : x = .error s := by
  cases x <;> cases h
  rfl

theorem outcome_bind_ok {σ β γ : Type} {x : Except σ β} {f : β → Except (Stop σ) γ} {c : γ}
    (h : (outcome x >>= f) = .ok c) : ∃ a, x = .ok a ∧ f a = .ok c := by
  cases x with
  | error s => cases h
  | ok a => exact ⟨a, rfl, h⟩

abbrev maxNameLength : Nat := 28
abbrev direntSize : Nat := 32

/-- An inode number that is not in use. -/
def Inode.absent : Inode := { Inode.new.initData with valid := false, dirty := false }

/-- `strcmp(s1, s2)`, with `s1` at offset `off` of `p`. -/
def strcmp (p : Bytes) (off : Nat) : CStr → Int
  | [] => (p off).toNat
  | c :: q =>
    if p off ≠ 0 ∧ p off = c then strcmp p (off + 1) q
    else ((p off).toNat : Int) - c.toNat

/-- `dirent::inode_number`. -/
def direntNumber (b : Bytes) : Nat := getLe b 0 4

/-- The entry that `__link` makes in the local variable `new_dirent`. -/
def makeDirent (n : Nat) (name : CStr) (junk : Bytes) : Bytes :=
  memset (memcpy (setLe junk 0 4 n) 4 (fun k => name.getD k 0) name.length) (4 + name.length) 0 1

namespace Fs

/-- `load()` of the inode table. -/
def loadTable (s : Fs) : Fs :=
  if (s.ino 0).valid then s else s.setIno 0 ((s.ino 0).load s.dev.al.inodeTable)

/-- Read a `dinode` of the inode table. -/
def readDinode (n : Nat) (s : Fs) : Res (Dinode × Fs) := do
  let (_, buf, s) ← Store.read allocBlock 0 (n * dinodeSize) dinodeSize (fun _ => 0) (loadTable s)
  return (Dinode.decode buf, s)

/-- Write a `dinode` of the inode table, with blocks from `alloc`. -/
def writeDinodeWith (alloc : Alloc Super) (n : Nat) (d : Dinode) (s : Fs) : Res Fs := do
  let (_, s) ← Store.write alloc 0 (n * dinodeSize) dinodeSize d.encode (loadTable s)
  return s

/-- Write a `dinode` of the inode table. -/
def writeDinode (n : Nat) (d : Dinode) (s : Fs) : Res Fs := writeDinodeWith allocBlock n d s

/-- `load()`. -/
def load (i : Nat) (s : Fs) : Res Fs :=
  if (s.ino i).valid then .ok s
  else if i = 0 then .ok (loadTable s)
  else do
    let (d, s) ← readDinode i s
    return s.setIno i ((s.ino i).load d)

/-- The inode table's `__flush`. -/
def flushTable (s : Fs) : Fs :=
  { s with
    dev := { s.dev with al := { s.dev.al with inodeTable := (s.ino 0).toDinode, dirty := true } }
  }.setIno 0 { s.ino 0 with dirty := false }

/-- `flush()`, with blocks from `alloc`. -/
def flushWith (alloc : Alloc Super) (i : Nat) (s : Fs) : Res Fs :=
  if (s.ino i).valid ∧ (s.ino i).dirty then
    if i = 0 then .ok (flushTable s)
    else do
      let s ← writeDinodeWith alloc i (s.ino i).toDinode s
      return s.setIno i { s.ino i with dirty := false }
  else .ok s

/-- `flush()`. -/
def flush (i : Nat) (s : Fs) : Res Fs := flushWith allocBlock i s

theorem flush_eq {i : Nat} {s : Fs} : flush i s =
    if (s.ino i).valid ∧ (s.ino i).dirty then
      if i = 0 then .ok (flushTable s)
      else writeDinode i (s.ino i).toDinode s >>= fun s =>
        .ok (s.setIno i { s.ino i with dirty := false })
    else .ok s := rfl

/-- `alloc_block` of a caller that holds `nfs::lock`: it takes the lock before anything else, and
`spinlock::lock` panics. -/
def heldAlloc : Alloc Super := fun d => .error d

/-- The inode cache takes the object of inode `j` for inode `n`, with `nfs::lock` held. -/
def recycle (j n : Nat) (s : Fs) : Outcome Fs :=
  match flushWith heldAlloc j s with
  | .error _ => .error .panicked
  | .ok s =>
    let t := s.setIno j { (s.ino j).withPos Inode.new with valid := false }
    .ok (t.setIno n ((t.ino n).withPos (s.ino j)))

/-- `get_inode`. A new object is made, or that of `victim` is recycled, if there is none. -/
def getInode (n : Nat) (victim : Option Nat) (s : Fs) : Outcome Fs :=
  if (s.ino n).valid then .ok s
  else
    match victim with
    | none => .ok s
    | some j => recycle j n s

/-- `sb.ninodes = n; sb_dirty = true`. -/
def setNinodes (n : Nat) (s : Fs) : Fs :=
  { s with dev := { s.dev with al := { s.dev.al with ninodes := n % 2 ^ 32, dirty := true } } }

/-- `alloc_inode`. -/
def allocInode (victim : Option Nat) (s : Fs) : Outcome (Nat × Fs) := do
  let (temp, s) ← outcome (readDinode 0 s)
  if temp.type ≠ itypeNextFreeInode then .error (.failed s)
  else
    let (new, s) ← outcome (readDinode temp.size s)
    let head := if new.type = itypeNextFreeInode then new.size else (temp.size + 1) % 2 ^ 32
    let s ← outcome (writeDinode 0 { temp with size := head } s)
    let s ← getInode temp.size victim s
    let s := s.setIno temp.size (s.ino temp.size).initData
    return (temp.size, setNinodes (s.dev.al.ninodes + 1) s)

/-- `free_inode`. -/
def freeInode (i : Nat) (junk : Dinode) (s : Fs) : Res Fs := do
  let (temp, s) ← readDinode 0 s
  if temp.type ≠ itypeNextFreeInode then .error s
  else
    let s ← writeDinode 0 { temp with size := i } s
    let s ← writeDinode i { junk with size := temp.size, type := itypeNextFreeInode } s
    return setNinodes (s.dev.al.ninodes + 2 ^ 32 - 1) s

/-- `nfs_inode::read`. -/
def read (i offset size : Nat) (s : Fs) : Res (Nat × Bytes × Fs) := do
  let s ← load i s
  Store.read allocBlock i offset size (fun _ => 0) s

/-- `nfs_inode::write`. -/
def write (i offset size : Nat) (src : Bytes) (s : Fs) : Res (Nat × Fs) := do
  let s ← load i s
  Store.write allocBlock i offset size src s

/-- `nfs_inode::truncate(0)`. -/
def truncate (i : Nat) (s : Fs) : Res Fs := do
  let s ← load i s
  return Store.truncate i s

/-- The loop of `__link`: the offset of the first free entry of a directory, or its end. -/
def findFree (dir : Nat) : Nat → Nat → Fs → Res (Nat × Fs)
  | 0, offset, s => .ok (offset, s)
  | fuel + 1, offset, s =>
    if (s.ino dir).size ≤ offset then .ok (offset, s)
    else do
      let (n, buf, s) ← read dir offset direntSize s
      if n ≠ direntSize then .error s
      else if direntNumber buf = 0 then .ok (offset, s)
      else findFree dir fuel (offset + direntSize) s

/-- `__link`. -/
def linkEntry (dir n : Nat) (name : CStr) (junk : Bytes) (s : Fs) : Res Fs := do
  let s ← load n s
  let s := s.setIno n { s.ino n with nlinks := ((s.ino n).nlinks + 1) % 2 ^ 16, dirty := true }
  let (offset, s) ← findFree dir ((s.ino dir).size / direntSize + 1) 0 s
  let (_, s) ← write dir offset direntSize (makeDirent n name junk) s
  return s

/-- `create` and `mkdir`, which differ in the type of the new inode only. -/
def make (type dir : Nat) (name : CStr) (victim : Option Nat) (junk : Bytes) (s : Fs) :
    Outcome (Nat × Fs) :=
  if maxNameLength < name.length then .error (.failed s)
  else do
    let s ← outcome (load dir s)
    let (n, s) ← allocInode victim s
    let s ← outcome (load n s)
    let s := s.setIno n { s.ino n with type := type, dirty := true }
    let s ← outcome (linkEntry dir n name junk s)
    return (n, s)

/-- `nfs_inode::create`: the number of the new file. -/
def create (dir : Nat) (name : CStr) (victim : Option Nat) (junk : Bytes) (s : Fs) :
    Outcome (Nat × Fs) := make itypeFile dir name victim junk s

/-- `nfs_inode::mkdir`. -/
def mkdir (dir : Nat) (name : CStr) (victim : Option Nat) (junk : Bytes) (s : Fs) :
    Outcome (Nat × Fs) := make itypeDir dir name victim junk s

/-- `nfs_inode::link` of the inode `old`. -/
def link (dir old : Nat) (name : CStr) (junk : Bytes) (s : Fs) : Res Fs :=
  if maxNameLength < name.length then .error s
  else do
    let s ← load dir s
    linkEntry dir old name junk s

/-- The search of `lookup` and `unlink`: the offset and the bytes of the live entry with this
name. The offset is a 32-bit variable. -/
def findEntry (dir : Nat) (name : CStr) : Nat → Nat → Fs → Res (Option (Nat × Bytes) × Fs)
  | 0, _, s => .ok (none, s)
  | fuel + 1, offset, s =>
    if (s.ino dir).size ≤ offset then .ok (none, s)
    else do
      let (n, buf, s) ← read dir offset direntSize s
      if n ≠ direntSize then .ok (none, s)
      else if direntNumber buf ≠ 0 ∧ strcmp buf 4 name = 0 then .ok (some (offset, buf), s)
      else findEntry dir name fuel ((offset + direntSize) % 2 ^ 32) s

/-- `nfs_inode::lookup`: the number of the inode given to the dentry. -/
def lookup (dir : Nat) (name : CStr) (victim : Option Nat) (s : Fs) : Outcome (Option Nat × Fs) :=
  if maxNameLength < name.length then .error (.failed s)
  else do
    let s ← outcome (load dir s)
    let (found, s) ← outcome (findEntry dir name ((s.ino dir).size / direntSize + 1) 0 s)
    match found with
    | none => return (none, s)
    | some (_, buf) =>
      let s ← getInode (direntNumber buf) victim s
      let s ← outcome (load (direntNumber buf) s)
      return (some (direntNumber buf), s)

/-- `unlink`, once the entry is found: inode `i` loses a link, and is freed with the last one. -/
def dropLink (i : Nat) (junk : Dinode) (s : Fs) : Res Fs := do
  let s ← load i s
  let s := s.setIno i { s.ino i with nlinks := ((s.ino i).nlinks + 2 ^ 16 - 1) % 2 ^ 16 }
  if (s.ino i).nlinks = 0 then
    let s ← truncate i s
    let s ← flush i s
    let s ← freeInode i junk s
    return s.setIno i { s.ino i with valid := false, dirty := false }
  else return s.setIno i { s.ino i with dirty := true }

/-- `nfs_inode::unlink` of a dentry with inode `i`. -/
def unlink (dir : Nat) (name : CStr) (i : Nat) (junk : Dinode) (s : Fs) : Res Fs :=
  if maxNameLength < name.length then .error s
  else do
    let s ← load dir s
    let (found, s) ← findEntry dir name ((s.ino dir).size / direntSize + 1) 0 s
    match found with
    | none => .error s
    | some (offset, buf) =>
      let s ← dropLink i junk s
      let (_, s) ← write dir offset direntSize (setLe buf 0 4 0) s
      return s

/-- A new file system, with the inode table and the root directory still in memory. -/
def format (nblocks : Nat) (disk : Nat → Bytes) : Fs :=
  Store.setIno ⟨fun _ => Inode.absent, formatDev nblocks disk⟩ 0
    { Inode.new.initData with type := itypeFile, nlinks := 1 }

/-- `make_fs`, with the flushes of its `unmount`, as long as the block cache has evicted nothing. -/
def makeFs (nblocks : Nat) (disk : Nat → Bytes) (junk : Dinode) : Res Fs :=
  if nblocks < 1024 then .error (format nblocks disk)
  else do
    let s ← writeDinode 0 { junk with type := itypeNextFreeInode, nlinks := 1, size := 2 }
      (format nblocks disk)
    let s := s.setIno 1 { (s.ino 1).initData with type := itypeDir, nlinks := 1 }
    let s ← flush 1 s
    flush 0 s

/-- `mount` of what `make_fs` has written: all objects are new. -/
def mount (s : Fs) : Fs :=
  { s with ino := fun i => { (s.ino i).withPos Inode.new with valid := false, dirty := false } }

end Fs

end CoroCore.Nfs
