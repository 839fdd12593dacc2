import CoroCore.Lib.Run
import CoroCore.Nfs.DataRw

/-!
# Files as byte arrays

Any number of inodes that start from `init_data()` share one device and one allocator. What
the completed `read` and `write` calls on them show is what independent byte arrays, all zero
at first, would show (`reads_refine_arrays`).

The allocator is free to choose: `pick` maps the blocks handed out so far to the next block,
or to nothing.
-/

namespace CoroCore.Nfs

open Lib

/-- An allocator that hands out `pick used`, where `used` are the blocks handed out before. -/
def freshAlloc (pick : List Nat → Option Nat) : Alloc (List Nat) := fun d =>
  match pick d.al with
  | none => .error d
  | some b => .ok (b, { d with al := b :: d.al })

/-- `pick` chooses block numbers that are not in use. -/
def Fresh (pick : List Nat → Option Nat) : Prop :=
  ∀ used b, pick used = some b → b ∉ used ∧ b < none32

def freshModel (pick : List Nat → Option Nat) (hpick : Fresh pick) : AllocModel (List Nat) where
  alloc := freshAlloc pick
  Ok _ := True
  Used d b := b ∈ d.al
  alloc_ok d b d' _ h := by
    unfold freshAlloc at h
    split at h
    · cases h
    · next c hc =>
      cases h
      obtain ⟨hfresh, hlt⟩ := hpick d.al b hc
      exact ⟨trivial, hlt, hfresh, fun x => List.mem_cons, fun _ _ => rfl⟩
  alloc_error d d' _ h := by
    unfold freshAlloc at h
    split at h
    · cases h
      exact ⟨trivial, fun _ => Iff.rfl, fun _ _ => rfl⟩
    · cases h
  store_ok _ _ _ _ _ := ⟨trivial, fun _ => Iff.rfl⟩

/-- The calls made on the files. -/
inductive FileCall (ι : Type)
  | read (i : ι) (offset size : Nat)
  | write (i : ι) (offset size : Nat) (src : Bytes)

/-! ## Byte arrays -/

section Arrays

variable {ι : Type} [DecidableEq ι]

/-- What a call does to a family of byte arrays. -/
def arrayCall (c : ι → Nat → UInt8) : FileCall ι → ι → Nat → UInt8
  | .read .. => c
  | .write i offset size src => fun j p =>
    if j = i ∧ offset ≤ p ∧ p < offset + size then src (p - offset) else c j p

/-- The byte stored by the last write to file `i` that covered position `p`, and 0 if there
was none. -/
def lastWritten (cs : List (FileCall ι)) : ι → Nat → UInt8 := cs.foldl arrayCall fun _ _ => 0

/-- The largest `offset + size` of the writes to file `i`. -/
def writtenEnd (cs : List (FileCall ι)) (i : ι) : Nat :=
  cs.foldl (fun n c => match c with
    | .read .. => n
    | .write j offset size _ => if j = i then max n (offset + size) else n) 0

theorem lastWritten_snoc (cs : List (FileCall ι)) (c : FileCall ι) :
    lastWritten (cs ++ [c]) = arrayCall (lastWritten cs) c := by
  rw [lastWritten, List.foldl_append]
  rfl

end Arrays

namespace Store

variable {ι : Type} [DecidableEq ι]

/-- All inodes after `init_data()`, on a device with any contents. -/
def initial (disk : Nat → Bytes) : Store ι (List Nat) :=
  ⟨fun _ => Inode.new.initData, ⟨disk, []⟩⟩

/-- A completed call. -/
inductive CallStep (pick : List Nat → Option Nat) :
    Store ι (List Nat) → FileCall ι → Store ι (List Nat) → Prop
  | read {s t : Store ι (List Nat)} {i : ι} {offset size n : Nat} {buf buf' : Bytes} :
      offset + size < 2 ^ 32 → s.read (freshAlloc pick) i offset size buf = .ok (n, buf', t) →
      CallStep pick s (.read i offset size) t
  | write {s t : Store ι (List Nat)} {i : ι} {offset size n : Nat} {src : Bytes} :
      offset + size < 2 ^ 32 → 1 ≤ size →
      s.write (freshAlloc pick) i offset size src = .ok (n, t) →
      CallStep pick s (.write i offset size src) t

/-- The files are the arrays that the calls so far make. -/
structure Refines (A : AllocModel (List Nat)) (cs : List (FileCall ι)) (s : Store ι (List Nat)) :
    Prop where
  owned : s.Owned A
  pos : ∀ i, ∀ r < none32, s.PosAt i r
  byte : ∀ i p, s.byte i p = lastWritten cs i p
  size : ∀ i, (s.ino i).size = writtenEnd cs i

variable {A : AllocModel (List Nat)} {cs : List (FileCall ι)} {s t : Store ι (List Nat)} {i : ι}

omit [DecidableEq ι] in
theorem refs_initial {disk : Nat → Bytes} (p : ι × Slot) :
    (initial disk).refs p = none := by
  obtain ⟨j, p⟩ := p
  cases p with
  | direct k => simp [refs_eq, initial, slotRef, Inode.initData]
  | link k => exact slotRef_no_chain rfl _ (by simp)
  | entry k l => exact slotRef_no_chain rfl _ (by simp)

theorem refines_initial (pick : List Nat → Option Nat) (hpick : Fresh pick) (disk : Nat → Bytes) :
    Refines (freshModel pick hpick) ([] : List (FileCall ι)) (initial disk) where
  owned := by
    refine ⟨trivial, fun p q b hp => ?_, fun b => ⟨fun hb => ?_, fun ⟨p, hp⟩ => ?_⟩⟩
    · rw [refs_initial] at hp
      cases hp
    · exact absurd hb List.not_mem_nil
    · rw [refs_initial] at hp
      cases hp
  pos i r hr h := absurd h (Nat.ne_of_gt hr)
  byte i p := by
    rw [byte_eq, refs_initial]
    rfl
  size i := rfl

theorem Refines.read {offset size n : Nat} {buf buf' : Bytes} (h : Refines A cs s)
    (hend : offset + size < 2 ^ 32) (hread : s.read A.alloc i offset size buf = .ok (n, buf', t)) :
    n = size ∧ buf' = memcpy buf 0 (fun k => lastWritten cs i (offset + k)) size ∧
      Refines A (cs ++ [.read i offset size]) t := by
  have hr : offset - directDataSize < none32 := by
    simp only [none32, directDataSize]
    omega
  obtain ⟨hn, hbuf, hkept⟩ := read_spec h.owned (h.pos i _ hr) hend hread
  refine ⟨hn, ?_, ⟨hkept.owned, fun j r hr => ?_, fun j p => ?_, fun j => ?_⟩⟩
  · rw [hbuf]
    exact memcpy_congr fun k _ => h.byte i (offset + k)
  · rcases eq_or_ne j i with rfl | hj
    · exact hkept.pos r (h.pos j r hr)
    · exact (h.pos j r hr).of_other (hkept.other j hj) hkept.refs
  · rw [hkept.byte, h.byte, lastWritten_snoc]
    rfl
  · rw [writtenEnd, List.foldl_append, ← writtenEnd]
    rcases eq_or_ne j i with rfl | hj
    · exact hkept.like.1.trans (h.size j)
    · exact (congrArg Inode.size (hkept.other j hj)).trans (h.size j)

theorem Refines.write {offset size n : Nat} {src : Bytes} (h : Refines A cs s)
    (hend : offset + size < 2 ^ 32) (hwrite : s.write A.alloc i offset size src = .ok (n, t)) :
    Refines A (cs ++ [.write i offset size src]) t := by
  have hr : offset - directDataSize < none32 := by
    simp only [none32, directDataSize]
    omega
  obtain ⟨-, hw⟩ := write_spec h.owned (h.pos i _ hr) hend hwrite
  refine ⟨hw.owned, fun j r hr => ?_, fun j p => ?_, fun j => ?_⟩
  · rcases eq_or_ne j i with rfl | hj
    · exact hw.pos r (h.pos j r hr)
    · exact (h.pos j r hr).of_other (hw.other j hj) hw.refs
  · rw [lastWritten_snoc]
    show t.byte j p = if j = i ∧ offset ≤ p ∧ p < offset + size then src (p - offset)
      else lastWritten cs j p
    split
    · next hin =>
      obtain ⟨rfl, h1, h2⟩ := hin
      exact hw.here p h1 h2
    · next hout =>
      rw [← h.byte]
      refine hw.there j p ?_
      by_cases hj : j = i
      · refine .inr ?_
        rcases Nat.lt_or_ge p offset with hp | hp
        · exact .inl hp
        · exact .inr (Nat.not_lt.mp fun hp' => hout ⟨hj, hp, hp'⟩)
      · exact .inl hj
  · rw [writtenEnd, List.foldl_append, ← writtenEnd]
    rcases eq_or_ne i j with rfl | hj
    · simp only [List.foldl_cons, List.foldl_nil, if_true, hw.size, h.size]
    · simp only [List.foldl_cons, List.foldl_nil, if_neg hj, hw.other j hj.symm, h.size]

theorem Refines.of_run {pick : List Nat → Option Nat} (hpick : Fresh pick) {disk : Nat → Bytes}
    (h : Run (CallStep pick) (initial disk) cs s) : Refines (freshModel pick hpick) cs s := by
  refine Run.history (I := Refines (freshModel pick hpick)) (fun cs s c t hI hstep => ?_) h
    (refines_initial pick hpick disk)
  cases hstep with
  | read hend hread => exact (hI.read hend hread).2.2
  | write hend _ hwrite => exact hI.write hend hwrite

/-- After every sequence of completed calls: a read returns the bytes last written, and the
size of a file is the end of its longest write. -/
theorem reads_refine_arrays {ι : Type} [DecidableEq ι] (pick : List Nat → Option Nat)
    (hpick : Fresh pick) (disk : Nat → Bytes) (cs : List (FileCall ι)) (s : Store ι (List Nat))
    (h : Run (CallStep pick) (initial disk) cs s) :
    (∀ i, (s.ino i).size = writtenEnd cs i) ∧
    ∀ (i : ι) (offset size n : Nat) (buf buf' : Bytes) (t : Store ι (List Nat)),
      offset + size < 2 ^ 32 → s.read (freshAlloc pick) i offset size buf = .ok (n, buf', t) →
      n = size ∧ buf' = memcpy buf 0 (fun k => lastWritten cs i (offset + k)) size := by
  have hI := Refines.of_run hpick h
  refine ⟨hI.size, fun i offset size n buf buf' t hend hread => ?_⟩
  obtain ⟨hn, hbuf, -⟩ := hI.read hend hread
  exact ⟨hn, hbuf⟩

/-- The lowest of twenty blocks that is not in use. -/
def firstOfTwenty (used : List Nat) : Option Nat := (List.range 20).find? fun b => !used.contains b

theorem firstOfTwenty_fresh : Fresh firstOfTwenty := by
  intro used b hb
  have hmem := List.mem_of_find?_eq_some hb
  have hnew := List.find?_some hb
  refine ⟨by simpa using hnew, ?_⟩
  have hlt : b < 20 := List.mem_range.mp hmem
  simp only [none32]
  omega

/-- Two bytes written across the border between direct and indirect data of file 0, on a
device full of sevens. -/
theorem read_back_across_border :
    ∃ (s t : Store Nat (List Nat)) (buf' : Bytes),
      Run (CallStep firstOfTwenty) (initial fun _ _ => 7)
        [.write 0 13311 2 fun k => if k = 0 then 1 else 2] s ∧
      s.read (freshAlloc firstOfTwenty) 0 13311 3 (fun _ => 9) = .ok (3, buf', t) ∧
      buf' 0 = 1 ∧ buf' 1 = 2 ∧ buf' 2 = 0 ∧ (s.ino 0).size = 13313 := by
  have hcalls : ∃ (s t : Store Nat (List Nat)) (buf' : Bytes),
      (initial fun _ _ => 7).write (freshAlloc firstOfTwenty) 0 13311 2
        (fun k => if k = 0 then 1 else 2) = .ok (2, s) ∧
      s.read (freshAlloc firstOfTwenty) 0 13311 3 (fun _ => 9) = .ok (3, buf', t) :=
    ⟨_, _, _, rfl, rfl⟩
  obtain ⟨s, t, buf', hwrite, hread⟩ := hcalls
  have hrun := Run.single (CallStep.write (by decide) (by decide) hwrite)
  obtain ⟨hsize, hreads⟩ := reads_refine_arrays firstOfTwenty firstOfTwenty_fresh _ _ s hrun
  obtain ⟨-, hbuf⟩ := hreads 0 13311 3 3 _ buf' t (by decide) hread
  refine ⟨s, t, buf', hrun, hread, ?_, ?_, ?_, hsize 0⟩ <;> rw [hbuf] <;> rfl

end Store

end CoroCore.Nfs
