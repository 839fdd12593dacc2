import CoroCore.Nfs.Data

/-!
# Inodes and directory entries on disk: `fs/nfs/common.h`

A `dinode` takes 64 bytes of the inode table. What `__flush` writes is what `__load` reads
(`decode_encode`). A `dirent` takes 32 bytes of a directory.
-/

namespace CoroCore.Nfs

open Lib

/-- `struct dinode`. -/
structure Dinode where
  size : Nat
  nlinks : Nat
  perm : Nat
  type : Nat
  nextAddrBlock : Nat
  addrs : Nat → Nat

abbrev dinodeSize : Nat := 64

abbrev itypeFile : Nat := 1
abbrev itypeDir : Nat := 2
abbrev itypeNextFreeInode : Nat := 8

namespace Dinode

/-- The first `n` addresses, from offset 12 on. -/
def putAddrs (addrs : Nat → Nat) : Nat → Bytes → Bytes
  | 0, b => b
  | n + 1, b => setLe (putAddrs addrs n b) (12 + 4 * n) 4 (addrs n)

/-- The bytes of a `dinode`. -/
def encode (d : Dinode) : Bytes :=
  putAddrs d.addrs numDirectData
    (setLe
      (setLe (setLe (setLe (setLe (fun _ => 0) 0 4 d.size) 4 2 d.nlinks) 6 1 d.perm) 7 1 d.type)
      8 4 d.nextAddrBlock)

def decode (b : Bytes) : Dinode where
  size := getLe b 0 4
  nlinks := getLe b 4 2
  perm := getLe b 6 1
  type := getLe b 7 1
  nextAddrBlock := getLe b 8 4
  addrs k := if k < numDirectData then getLe b (12 + 4 * k) 4 else none32

end Dinode

namespace Inode

/-- What `__flush` copies. -/
def toDinode (x : Inode) : Dinode := ⟨x.size, x.nlinks, x.perm, x.type, x.nextAddrBlock, x.addrs⟩

/-- What `__load` copies, and the marks that `load` sets. -/
def load (x : Inode) (d : Dinode) : Inode :=
  { x with size := d.size, nlinks := d.nlinks, perm := d.perm, type := d.type, addrs := d.addrs,
           nextAddrBlock := d.nextAddrBlock, valid := true, dirty := false }

/-- The fields are in the range of their types. -/
structure InRange (x : Inode) : Prop where
  size : x.size < 2 ^ 32
  nlinks : x.nlinks < 2 ^ 16
  perm : x.perm < 2 ^ 8
  type : x.type < 2 ^ 8

/-- The inode is the one that `d` describes. -/
structure Stored (x : Inode) (d : Dinode) : Prop where
  size : d.size = x.size
  nlinks : d.nlinks = x.nlinks
  perm : d.perm = x.perm
  type : d.type = x.type
  next : d.nextAddrBlock = x.nextAddrBlock
  addrs : ∀ k < numDirectData, d.addrs k = x.addrs k

end Inode

namespace Dinode

/-- A `dinode` depends on its own 64 bytes only. -/
theorem decode_congr {b b' : Bytes} (h : ∀ k < dinodeSize, b k = b' k) : decode b = decode b' := by
  have hget : ∀ off n, off + n ≤ dinodeSize → getLe b off n = getLe b' off n :=
    fun off n hle => getLe_congr fun k hk => h _ (by omega)
  unfold decode
  rw [hget 0 4 (by decide), hget 4 2 (by decide), hget 6 1 (by decide), hget 7 1 (by decide),
    hget 8 4 (by decide)]
  congr 1
  funext k
  split
  · next hk =>
    refine hget _ 4 ?_
    simp only [numDirectData, dinodeSize] at *
    omega
  · rfl

theorem getLe_putAddrs_low {addrs : Nat → Nat} {b : Bytes} {off n : Nat} (h : off + n ≤ 12) :
    ∀ m, getLe (putAddrs addrs m b) off n = getLe b off n := by
  intro m
  induction m with
  | zero => rfl
  | succ m ih => rw [putAddrs, getLe_setLe_of_disjoint (by omega), ih]

theorem getLe_putAddrs {addrs : Nat → Nat} {b : Bytes} {k : Nat} (hk : addrs k < 2 ^ 32) :
    ∀ m, k < m → getLe (putAddrs addrs m b) (12 + 4 * k) 4 = addrs k := by
  intro m
  induction m with
  | zero => exact fun h => absurd h (Nat.not_lt_zero k)
  | succ m ih =>
    intro h
    rw [putAddrs]
    rcases Nat.lt_succ_iff_lt_or_eq.mp h with hlt | rfl
    · rw [getLe_setLe_of_disjoint (by omega), ih hlt]
    · exact getLe_setLe hk

section Fields

variable {d : Dinode}

theorem decode_size (h : d.size < 2 ^ 32) : (decode d.encode).size = d.size := by
  show getLe (encode d) 0 4 = d.size
  rw [encode, getLe_putAddrs_low (by decide), getLe_setLe_of_disjoint (by decide),
    getLe_setLe_of_disjoint (by decide), getLe_setLe_of_disjoint (by decide),
    getLe_setLe_of_disjoint (by decide), getLe_setLe h]

theorem decode_nlinks (h : d.nlinks < 2 ^ 16) : (decode d.encode).nlinks = d.nlinks := by
  show getLe (encode d) 4 2 = d.nlinks
  rw [encode, getLe_putAddrs_low (by decide), getLe_setLe_of_disjoint (by decide),
    getLe_setLe_of_disjoint (by decide), getLe_setLe_of_disjoint (by decide), getLe_setLe h]

theorem decode_perm (h : d.perm < 2 ^ 8) : (decode d.encode).perm = d.perm := by
  show getLe (encode d) 6 1 = d.perm
  rw [encode, getLe_putAddrs_low (by decide), getLe_setLe_of_disjoint (by decide),
    getLe_setLe_of_disjoint (by decide), getLe_setLe h]

theorem decode_type (h : d.type < 2 ^ 8) : (decode d.encode).type = d.type := by
  show getLe (encode d) 7 1 = d.type
  rw [encode, getLe_putAddrs_low (by decide), getLe_setLe_of_disjoint (by decide), getLe_setLe h]

theorem decode_next (h : d.nextAddrBlock < 2 ^ 32) :
    (decode d.encode).nextAddrBlock = d.nextAddrBlock := by
  show getLe (encode d) 8 4 = d.nextAddrBlock
  rw [encode, getLe_putAddrs_low (by decide), getLe_setLe h]

theorem decode_addrs {k : Nat} (hk : k < numDirectData) (h : d.addrs k < 2 ^ 32) :
    (decode d.encode).addrs k = d.addrs k := by
  show (if k < numDirectData then getLe (encode d) (12 + 4 * k) 4 else none32) = d.addrs k
  rw [if_pos hk, encode, getLe_putAddrs h _ hk]

end Fields

/-- `__load` after `__flush`. -/
theorem decode_encode {x : Inode} (hr : x.InRange) (hn : x.nextAddrBlock < 2 ^ 32)
    (ha : ∀ k < numDirectData, x.addrs k < 2 ^ 32) : x.Stored (decode x.toDinode.encode) where
  size := decode_size hr.size
  nlinks := decode_nlinks hr.nlinks
  perm := decode_perm hr.perm
  type := decode_type hr.type
  next := decode_next hn
  addrs k hk := decode_addrs hk (ha k hk)

theorem decode_type_lt (b : Bytes) : (decode b).type < 2 ^ 8 := getLe_lt 1 7

theorem decode_size_lt (b : Bytes) : (decode b).size < 2 ^ 32 := getLe_lt 4 0

end Dinode

end CoroCore.Nfs
