import CoroCore.Lib.Chain
import Mathlib.Data.Finset.Card
import Mathlib.Logic.Function.Basic
import Mathlib.Algebra.Group.Nat.Defs

/-!
# The linked list: `utils/list.h`

A list has two sentinels, a count and a cache of up to eight nodes that were taken out. Nodes move
between lists by the two `merge`s, and `operator new` makes new ones.

`Refines` says that each list holds its sequence in both directions with the right size, and that no
node is in two places. `absStep` says what the operations do to sequences.
-/

namespace CoroCore

open Lib

/-- A `list`: `_size` is an `int`, the top of `node_cache` comes first. -/
structure LinkedList (N : Type*) where
  head : N
  tail : N
  size : Int
  nodeCache : List N

namespace LinkedList

variable {N D ι : Type*}

/-- The nodes in memory. -/
structure Mem (N D : Type*) where
  next : N → N
  prev : N → N
  data : N → D

/-- The memory, the lists, and the nodes that came from `operator new` and were not deleted. -/
structure Sys (N D ι : Type*) where
  mem : Mem N D
  lists : ι → LinkedList N
  live : Finset N

/-- A node has at least 24 bytes, and the machine has 128 MiB of memory (`PHYSTOP`). -/
def maxNodes : Nat := 128 * 1024 * 1024 / 24

section Code

variable [DecidableEq N] [DecidableEq ι]

def Mem.setNext (m : Mem N D) (n x : N) : Mem N D := { m with next := Function.update m.next n x }

def Mem.setPrev (m : Mem N D) (n x : N) : Mem N D := { m with prev := Function.update m.prev n x }

def Mem.setData (m : Mem N D) (n : N) (d : D) : Mem N D :=
  { m with data := Function.update m.data n d }

def Sys.setList (s : Sys N D ι) (i : ι) (o : LinkedList N) : Sys N D ι :=
  { s with lists := Function.update s.lists i o }

/-- `_size += k` -/
def Sys.addSize (s : Sys N D ι) (i : ι) (k : Int) : Sys N D ι :=
  s.setList i { s.lists i with size := ((s.lists i).size + k).bmod (2 ^ 32) }

/-! ## Nodes -/

/-- `new node`, which gives `fresh` or null. -/
def newNode (fresh : Option N) (s : Sys N D ι) : Option N × Sys N D ι :=
  match fresh with
  | some n => (some n, { s with live := insert n s.live })
  | none => (none, s)

def allocNode (i : ι) (fresh : Option N) (s : Sys N D ι) : Option N × Sys N D ι :=
  match (s.lists i).nodeCache with
  | n :: cache => (some n, s.setList i { s.lists i with nodeCache := cache })
  | [] => newNode fresh s

def freeNode (i : ι) (n : N) (s : Sys N D ι) : Sys N D ι :=
  if (s.lists i).nodeCache.length < 8 then
    s.setList i { s.lists i with nodeCache := n :: (s.lists i).nodeCache }
  else { s with live := s.live.erase n }

/-! ## Links, written in the order of the source -/

/-- `n` in front of `p`: `__push_back` (with the tail) and `insert_before`. -/
def Mem.linkBefore (m : Mem N D) (n p : N) : Mem N D :=
  let m := m.setNext n p
  let m := m.setPrev n (m.prev p)
  let m := m.setNext (m.prev p) n
  m.setPrev p n

/-- `n` behind `p`: `__push_front` (with the head), `insert_after` and the end of
`__move_to_front`. -/
def Mem.linkAfter (m : Mem N D) (n p : N) : Mem N D :=
  let m := m.setNext n (m.next p)
  let m := m.setPrev n p
  let m := m.setPrev (m.next p) n
  m.setNext p n

/-- The beginning of `__remove` and of `__move_to_front`. -/
def Mem.unlink (m : Mem N D) (n : N) : Mem N D :=
  let m := m.setNext (m.prev n) (m.next n)
  m.setPrev (m.next n) (m.prev n)

/-- `merge(other, it)` from "detach other_it" on. -/
def Mem.transfer (m : Mem N D) (n tail : N) : Mem N D :=
  let prev := m.prev n
  let next := m.next n
  let m := m.setNext prev next
  let m := m.setPrev next prev
  let m := m.setNext (m.prev tail) n
  let m := m.setPrev n (m.prev tail)
  let m := m.setPrev tail n
  m.setNext n tail

/-- `merge(other)`, with the sentinels of the other list. -/
def Mem.splice (m : Mem N D) (tail otherHead otherTail : N) : Mem N D :=
  let m := m.setNext (m.prev tail) (m.next otherHead)
  let m := m.setPrev (m.next otherHead) (m.prev tail)
  let m := m.setPrev tail (m.prev otherTail)
  let m := m.setNext (m.prev otherTail) tail
  let m := m.setNext otherHead otherTail
  m.setPrev otherTail otherHead

/-! ## The operations

`none` is a panic. In `insert_before` and `insert_after` it is also the write through the null
pointer when there is no memory for the node. -/

def pushBack (i : ι) (d : D) (fresh : Option N) (s : Sys N D ι) : Sys N D ι :=
  match allocNode i fresh s with
  | (none, s) => s
  | (some n, s) =>
    { s with mem := (s.mem.linkBefore n (s.lists i).tail).setData n d }.addSize i 1

def pushFront (i : ι) (d : D) (fresh : Option N) (s : Sys N D ι) : Sys N D ι :=
  match allocNode i fresh s with
  | (none, s) => s
  | (some n, s) =>
    { s with mem := (s.mem.linkAfter n (s.lists i).head).setData n d }.addSize i 1

/-- `__remove` -/
def remove (i : ι) (n : N) (s : Sys N D ι) : Sys N D ι :=
  (freeNode i n { s with mem := s.mem.unlink n }).addSize i (-1)

def popFront (i : ι) (s : Sys N D ι) : Sys N D ι :=
  let first := s.mem.next (s.lists i).head
  if first = (s.lists i).tail then s else remove i first s

def popBack (i : ι) (s : Sys N D ι) : Sys N D ι :=
  let last := s.mem.prev (s.lists i).tail
  if last = (s.lists i).head then s else remove i last s

def erase (i : ι) (n : N) (s : Sys N D ι) : Option (Sys N D ι) :=
  if n = (s.lists i).head ∨ n = (s.lists i).tail then none else some (remove i n s)

def insertBefore (i : ι) (p : N) (d : D) (fresh : Option N) (s : Sys N D ι) :
    Option (Sys N D ι) :=
  if p = (s.lists i).head then none
  else match allocNode i fresh s with
    | (none, _) => none
    | (some n, s) => some ({ s with mem := (s.mem.setData n d).linkBefore n p }.addSize i 1)

def insertAfter (i : ι) (p : N) (d : D) (fresh : Option N) (s : Sys N D ι) :
    Option (Sys N D ι) :=
  if p = (s.lists i).tail then none
  else match allocNode i fresh s with
    | (none, _) => none
    | (some n, s) => some ({ s with mem := (s.mem.setData n d).linkAfter n p }.addSize i 1)

def moveToFront (i : ι) (n : N) (s : Sys N D ι) : Option (Sys N D ι) :=
  if n = (s.lists i).head ∨ n = (s.lists i).tail then none
  else if s.mem.prev n = (s.lists i).head then some s
  else some { s with mem := (s.mem.unlink n).linkAfter n (s.lists i).head }

/-- The first loop of `clear`, from `n` on. -/
def clearLoop (m : Mem N D) (tail : N) : Nat → N → Finset N → Option (Finset N)
  | 0, _, _ => none
  | fuel + 1, n, live =>
    if n = tail then some live else clearLoop m tail fuel (m.next n) (live.erase n)

/-- `clear`, with fuel for its first loop. -/
def clear (fuel : Nat) (i : ι) (s : Sys N D ι) : Option (Sys N D ι) :=
  let o := s.lists i
  (clearLoop s.mem o.tail fuel (s.mem.next o.head) s.live).map fun live =>
    { mem := (s.mem.setNext o.head o.tail).setPrev o.tail o.head
      lists := Function.update s.lists i { o with size := 0, nodeCache := [] }
      live := o.nodeCache.foldl Finset.erase live }

/-- `merge(other)` -/
def merge (i j : ι) (s : Sys N D ι) : Sys N D ι :=
  let other := s.lists j
  if s.mem.next other.head = other.tail then s
  else
    let mem := s.mem.splice (s.lists i).tail other.head other.tail
    let s := { s with mem := mem }.addSize i other.size
    s.setList j { s.lists j with size := 0 }

/-- `merge(other, other_it)` -/
def mergeAt (i j : ι) (n : N) (s : Sys N D ι) : Sys N D ι :=
  if n = (s.lists j).tail then s
  else ({ s with mem := s.mem.transfer n (s.lists i).tail }.addSize i 1).addSize j (-1)

/-! ## Operations on sequences

An element is a node with its data, and iterators are nodes. -/

/-- In front of `p`, or at the end when `p` is not in the sequence. -/
def seqBefore (p : N) (e : N × D) (l : List (N × D)) : List (N × D) :=
  l.takeWhile (·.1 ≠ p) ++ e :: l.dropWhile (·.1 ≠ p)

/-- Behind `p`, or at the front when `p` is not in the sequence. -/
def seqAfter (p : N) (e : N × D) (l : List (N × D)) : List (N × D) :=
  (seqBefore p e l.reverse).reverse

def seqAt (n : N) (l : List (N × D)) : List (N × D) := l.filter (·.1 = n)

def seqErase (n : N) (l : List (N × D)) : List (N × D) := l.filter (·.1 ≠ n)

/-- The operations, with the element that was made (none when there is no memory). -/
inductive Act (N D ι : Type*)
  | pushFront (i : ι) (e : Option (N × D))
  | pushBack (i : ι) (e : Option (N × D))
  | popFront (i : ι)
  | popBack (i : ι)
  | erase (i : ι) (n : N)
  | insertBefore (i : ι) (p : N) (e : N × D)
  | insertAfter (i : ι) (p : N) (e : N × D)
  | moveToFront (i : ι) (n : N)
  | clear (i : ι)
  | merge (i j : ι)
  | mergeAt (i j : ι) (n : N)

/-- What an operation does to the sequences. -/
def absStep (a : ι → List (N × D)) : Act N D ι → ι → List (N × D)
  | .pushFront i e => Function.update a i (e.toList ++ a i)
  | .pushBack i e => Function.update a i (a i ++ e.toList)
  | .popFront i => Function.update a i (a i).tail
  | .popBack i => Function.update a i (a i).dropLast
  | .erase i n => Function.update a i (seqErase n (a i))
  | .insertBefore i p e => Function.update a i (seqBefore p e (a i))
  | .insertAfter i p e => Function.update a i (seqAfter p e (a i))
  | .moveToFront i n => Function.update a i (seqAt n (a i) ++ seqErase n (a i))
  | .clear i => Function.update a i []
  | .merge i j => Function.update (Function.update a i (a i ++ a j)) j []
  | .mergeAt i j n =>
    Function.update (Function.update a i (a i ++ seqAt n (a j))) j (seqErase n (a j))

/-! ## Runs -/

/-- The iterator is met on the way from the head to the tail. -/
def Sys.At (s : Sys N D ι) (i : ι) (n : N) : Prop :=
  OnChain s.mem.next (s.lists i).tail (s.mem.next (s.lists i).head) n

/-- `operator new` gives a node that is not in use, as long as there is memory. -/
def Sys.CanNew (s : Sys N D ι) (fresh : Option N) : Prop :=
  ∀ n ∈ fresh, n ∉ s.live ∧ (∀ i, n ≠ (s.lists i).head ∧ n ≠ (s.lists i).tail) ∧
    s.live.card < maxNodes

/-- An operation with iterators of the list it is for: for `insert_before` also `end()`, for
`insert_after` also `rend()`. -/
inductive Step : Sys N D ι → Act N D ι → Sys N D ι → Prop
  | pushFront {s : Sys N D ι} {i : ι} {d : D} {fresh : Option N} : s.CanNew fresh →
      Step s (.pushFront i ((allocNode i fresh s).1.map (·, d))) (pushFront i d fresh s)
  | pushBack {s : Sys N D ι} {i : ι} {d : D} {fresh : Option N} : s.CanNew fresh →
      Step s (.pushBack i ((allocNode i fresh s).1.map (·, d))) (pushBack i d fresh s)
  | popFront {s : Sys N D ι} {i : ι} : Step s (.popFront i) (popFront i s)
  | popBack {s : Sys N D ι} {i : ι} : Step s (.popBack i) (popBack i s)
  | erase {s s' : Sys N D ι} {i : ι} {n : N} : s.At i n → erase i n s = some s' →
      Step s (.erase i n) s'
  | insertBefore {s s' : Sys N D ι} {i : ι} {p n : N} {d : D} {fresh : Option N} : s.CanNew fresh →
      s.At i p ∨ p = (s.lists i).tail → (allocNode i fresh s).1 = some n →
      insertBefore i p d fresh s = some s' → Step s (.insertBefore i p (n, d)) s'
  | insertAfter {s s' : Sys N D ι} {i : ι} {p n : N} {d : D} {fresh : Option N} : s.CanNew fresh →
      s.At i p ∨ p = (s.lists i).head → (allocNode i fresh s).1 = some n →
      insertAfter i p d fresh s = some s' → Step s (.insertAfter i p (n, d)) s'
  | moveToFront {s s' : Sys N D ι} {i : ι} {n : N} : s.At i n → moveToFront i n s = some s' →
      Step s (.moveToFront i n) s'
  | clear {s s' : Sys N D ι} {i : ι} {fuel : Nat} : clear fuel i s = some s' → Step s (.clear i) s'
  | merge {s : Sys N D ι} {i j : ι} : i ≠ j → Step s (.merge i j) (merge i j s)
  | mergeAt {s : Sys N D ι} {i j : ι} {n : N} : i ≠ j → s.At j n ∨ n = (s.lists j).tail →
      Step s (.mergeAt i j n) (mergeAt i j n s)

/-- A run, with the sequences it starts from and those it ends with. -/
inductive Run : Sys N D ι → (ι → List (N × D)) → Sys N D ι → (ι → List (N × D)) → Prop
  | nil {s : Sys N D ι} {a : ι → List (N × D)} : Run s a s a
  | snoc {s s' s'' : Sys N D ι} {a a' : ι → List (N × D)} {act : Act N D ι} : Run s a s' a' →
      Step s' act s'' → Run s a s'' (absStep a' act)

/-- New lists with these sentinels. -/
structure Initial (s : Sys N D ι) : Prop where
  empty : ∀ i, s.mem.next (s.lists i).head = (s.lists i).tail ∧
    s.mem.prev (s.lists i).tail = (s.lists i).head
  size : ∀ i, (s.lists i).size = 0
  cache : ∀ i, (s.lists i).nodeCache = []
  live : s.live = ∅
  sentinels : ∀ i j, (s.lists i).head ≠ (s.lists j).tail ∧
    ((s.lists i).head = (s.lists j).head → i = j) ∧ ((s.lists i).tail = (s.lists j).tail → i = j)

/-- The lists hold these sequences, and no node is in two places. -/
structure Refines (s : Sys N D ι) (a : ι → List (N × D)) : Prop where
  forward : ∀ i, Chain s.mem.next (s.lists i).tail (s.mem.next (s.lists i).head)
    ((a i).map Prod.fst)
  backward : ∀ i, Chain s.mem.prev (s.lists i).head (s.mem.prev (s.lists i).tail)
    ((a i).map Prod.fst).reverse
  data : ∀ i, ∀ e ∈ a i, s.mem.data e.1 = e.2
  size : ∀ i, (s.lists i).size = (a i).length
  nodup : ∀ i, ((a i).map Prod.fst ++ (s.lists i).nodeCache).Nodup
  apart : ∀ i j, i ≠ j → List.Disjoint ((a i).map Prod.fst ++ (s.lists i).nodeCache)
    ((a j).map Prod.fst ++ (s.lists j).nodeCache)

/-- Valid iterators cause no panic, and `clear` ends. -/
structure Proceeds (s : Sys N D ι) : Prop where
  erase : ∀ i n, s.At i n → ∃ s', erase i n s = some s'
  moveToFront : ∀ i n, s.At i n → ∃ s', moveToFront i n s = some s'
  insertBefore : ∀ i p d fresh n, s.At i p ∨ p = (s.lists i).tail →
    (allocNode i fresh s).1 = some n → ∃ s', insertBefore i p d fresh s = some s'
  insertAfter : ∀ i p d fresh n, s.At i p ∨ p = (s.lists i).head →
    (allocNode i fresh s).1 = some n → ∃ s', insertAfter i p d fresh s = some s'
  clear : ∀ i, ∃ fuel s', clear fuel i s = some s'

/-- Operations that move nodes keep the elements. -/
def Moves (a : ι → List (N × D)) : Act N D ι → Prop
  | .moveToFront i n => (absStep a (.moveToFront i n) i).Perm (a i)
  | .merge i j => (absStep a (.merge i j) i ++ absStep a (.merge i j) j).Perm (a i ++ a j)
  | .mergeAt i j n =>
    (absStep a (.mergeAt i j n) i ++ absStep a (.mergeAt i j n) j).Perm (a i ++ a j)
  | _ => True

end Code

end LinkedList

end CoroCore
