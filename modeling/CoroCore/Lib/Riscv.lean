import CoroCore.Lib.Bytes
import Mathlib.Data.Set.Lattice
import Mathlib.Order.CompletePartialOrder
import Mathlib.Order.Interval.Set.Defs

/-!
# RV64 code that moves registers

Straight-line supervisor code that saves and loads registers: what an instruction does to a hart
and to the memory that the harts share. Harts run side by side, so a piece of code is followed by
what is left of it: `Expects R l m P` says that the instructions `l` that are still to come touch
only the memory in `R` and end where `P` holds.

* `Expects.exec`: the next instruction keeps it;
* `Expects.agree`: so does whatever others do outside `R`;
* `run_saves`, `run_loads`: registers are stored in a block of memory and loaded from it.
-/

namespace CoroCore.Lib.Riscv

abbrev Word := BitVec 64

/-- The registers but `zero`. -/
inductive Reg
  | ra | sp | gp | tp
  | t0 | t1 | t2 | t3 | t4 | t5 | t6
  | s0 | s1 | s2 | s3 | s4 | s5 | s6 | s7 | s8 | s9 | s10 | s11
  | a0 | a1 | a2 | a3 | a4 | a5 | a6 | a7
deriving DecidableEq, Repr

inductive Csr
  | sscratch | sepc | satp | stvec
deriving DecidableEq, Repr

structure Hart where
  reg : Reg → Word
  csr : Csr → Word
  pc : Word

namespace Hart

def set (h : Hart) (r : Reg) (w : Word) : Hart := { h with reg := Function.update h.reg r w }

def setCsr (h : Hart) (c : Csr) (w : Word) : Hart := { h with csr := Function.update h.csr c w }

variable {h : Hart} {r : Reg} {c : Csr} {w : Word}

@[simp] theorem reg_set : (h.set r w).reg = Function.update h.reg r w := rfl
@[simp] theorem csr_set : (h.set r w).csr = h.csr := rfl
@[simp] theorem pc_set : (h.set r w).pc = h.pc := rfl
@[simp] theorem reg_setCsr : (h.setCsr c w).reg = h.reg := rfl
@[simp] theorem csr_setCsr : (h.setCsr c w).csr = Function.update h.csr c w := rfl
@[simp] theorem pc_setCsr : (h.setCsr c w).pc = h.pc := rfl

end Hart

inductive Instr
  | sd (src : Reg) (off : Nat) (base : Reg)
  | ld (dst : Reg) (off : Nat) (base : Reg)
  | addi (dst src : Reg) (imm : Int)
  | mv (dst src : Reg)
  | csrrw (dst : Reg) (c : Csr) (src : Reg)
  | csrr (dst : Reg) (c : Csr)
  | csrw (c : Csr) (src : Reg)
  | sfenceVma
  | jr (src : Reg)
  | ret
  | sret
deriving DecidableEq, Repr

/-- The doubleword at `a`. -/
def load (mem : Bytes) (a : Nat) : Word := BitVec.ofNat 64 (getLe mem a 8)

def store (mem : Bytes) (a : Nat) (w : Word) : Bytes := setLe mem a 8 w.toNat

/-- A hart and the memory. -/
structure Machine where
  hart : Hart
  mem : Bytes

/-- Where `satp` sends a virtual address. -/
abbrev Translation := Word → Word → Nat

variable {T : Translation} {m m' : Machine} {h : Hart} {R : Set Nat} {i : Instr} {l l' : List Instr}

/-- The address of `off(base)`. -/
def Hart.addr (T : Translation) (h : Hart) (off : Nat) (base : Reg) : Nat :=
  T (h.csr .satp) (h.reg base + BitVec.ofNat 64 off)

/-- What the instruction does. `sret` returns to `sepc`. -/
def exec (T : Translation) (i : Instr) (m : Machine) : Machine :=
  match i with
  | .sd src off base => { m with mem := store m.mem (m.hart.addr T off base) (m.hart.reg src) }
  | .ld dst off base => { m with hart := m.hart.set dst (load m.mem (m.hart.addr T off base)) }
  | .addi dst src imm => { m with hart := m.hart.set dst (m.hart.reg src + BitVec.ofInt 64 imm) }
  | .mv dst src => { m with hart := m.hart.set dst (m.hart.reg src) }
  | .csrrw dst c src => { m with hart := (m.hart.set dst (m.hart.csr c)).setCsr c (m.hart.reg src) }
  | .csrr dst c => { m with hart := m.hart.set dst (m.hart.csr c) }
  | .csrw c src => { m with hart := m.hart.setCsr c (m.hart.reg src) }
  | .sfenceVma => m
  | .jr src => { m with hart.pc := m.hart.reg src }
  | .ret => { m with hart.pc := m.hart.reg .ra }
  | .sret => { m with hart.pc := m.hart.csr .sepc }

def run (T : Translation) : List Instr → Machine → Machine
  | [], m => m
  | i :: l, m => run T l (exec T i m)

/-- The memory that the instruction reads or writes. -/
def Instr.touches (T : Translation) (h : Hart) : Instr → Set Nat
  | .sd _ off base => Set.Ico (h.addr T off base) (h.addr T off base + 8)
  | .ld _ off base => Set.Ico (h.addr T off base) (h.addr T off base + 8)
  | _ => ∅

/-- The code touches only the memory in `R`. -/
def Within (T : Translation) (R : Set Nat) : List Instr → Machine → Prop
  | [], _ => True
  | i :: l, m => i.touches T m.hart ⊆ R ∧ Within T R l (exec T i m)

/-- The same hart, and the same memory in `R`. -/
structure Agree (R : Set Nat) (m m' : Machine) : Prop where
  hart : m'.hart = m.hart
  mem : ∀ a ∈ R, m'.mem a = m.mem a

theorem load_congr {mem mem' : Bytes} {a : Nat} (h : ∀ k < 8, mem' (a + k) = mem (a + k)) :
    load mem' a = load mem a := by
  rw [load, load, getLe_congr h]

theorem load_store {mem : Bytes} {a : Nat} {w : Word} : load (store mem a w) a = w := by
  rw [load, store, getLe_setLe w.isLt, BitVec.ofNat_toNat, BitVec.setWidth_eq]

theorem load_store_of_disjoint {mem : Bytes} {a b : Nat} {w : Word} (h : b + 8 ≤ a ∨ a + 8 ≤ b) :
    load (store mem a w) b = load mem b := by
  rw [load, load, store, getLe_setLe_of_disjoint h]

theorem store_other {mem : Bytes} {a b : Nat} {w : Word} (h : b ∉ Set.Ico a (a + 8)) :
    store mem a w b = mem b := by
  rw [Set.mem_Ico, not_and_or, Nat.not_le, Nat.not_lt] at h
  rw [store, setLe, memcpy_out h]

theorem store_at {mem mem' : Bytes} {a b : Nat} {w : Word} (h : b ∈ Set.Ico a (a + 8)) :
    store mem a w b = store mem' a w b := by
  rw [store, store, setLe, setLe, memcpy_in h.1 h.2, memcpy_in h.1 h.2]

theorem exec_other {a : Nat} (ha : a ∉ i.touches T m.hart) : (exec T i m).mem a = m.mem a := by
  cases i with
  | sd src off base => exact store_other ha
  | _ => rfl

theorem exec_agree (h : Agree R m m') (hi : i.touches T m.hart ⊆ R) :
    Agree R (exec T i m) (exec T i m') := by
  obtain ⟨hart, mem⟩ := m
  obtain ⟨hart', mem'⟩ := m'
  obtain ⟨rfl, hmem⟩ := h
  cases i with
  | sd src off base =>
    refine ⟨rfl, fun a ha => ?_⟩
    by_cases hin : a ∈ Set.Ico (hart'.addr T off base) (hart'.addr T off base + 8)
    · exact store_at hin
    · exact (store_other hin).trans ((hmem a ha).trans (store_other hin).symm)
  | ld dst off base =>
    refine ⟨?_, hmem⟩
    have hload : load mem' (hart'.addr T off base) = load mem (hart'.addr T off base) :=
      load_congr fun k hk => hmem _ (hi ⟨Nat.le_add_right _ k, Nat.add_lt_add_left hk _⟩)
    simp only [exec, hload]
  | _ => exact ⟨rfl, hmem⟩

theorem exec_sd {src base : Reg} {off : Nat} : (exec T (.sd src off base) m).hart = m.hart := rfl

theorem exec_ld {dst base : Reg} {off : Nat} : (exec T (.ld dst off base) m).hart.reg =
    Function.update m.hart.reg dst (load m.mem (m.hart.addr T off base)) := rfl

theorem run_append : run T (l ++ l') m = run T l' (run T l m) := by
  induction l generalizing m with
  | nil => rfl
  | cons i l ih => exact ih

theorem within_append : Within T R (l ++ l') m ↔ Within T R l m ∧ Within T R l' (run T l m) := by
  induction l generalizing m with
  | nil => exact (true_and _).to_iff.symm
  | cons i l ih => rw [List.cons_append, Within, Within, ih, and_assoc, run]

theorem Within.agree (hw : Within T R l m) (h : Agree R m m') :
    Within T R l m' ∧ Agree R (run T l m) (run T l m') := by
  induction l generalizing m m' with
  | nil => exact ⟨trivial, h⟩
  | cons i l ih =>
    obtain ⟨hwithin, hrun⟩ := ih hw.2 (exec_agree h hw.1)
    exact ⟨⟨by rw [h.hart]; exact hw.1, hwithin⟩, hrun⟩

theorem Within.mono {R' : Set Nat} (hw : Within T R l m) (h : R ⊆ R') : Within T R' l m := by
  induction l generalizing m with
  | nil => trivial
  | cons i l ih => exact ⟨hw.1.trans h, ih hw.2⟩

theorem Within.run_other (hw : Within T R l m) {a : Nat} (ha : a ∉ R) :
    (run T l m).mem a = m.mem a := by
  induction l generalizing m with
  | nil => rfl
  | cons i l ih => exact (ih hw.2).trans (exec_other fun hin => ha (hw.1 hin))

/-! ## Code that is under way -/

/-- `P` depends on the hart and on the memory in `R` only. -/
def On (R : Set Nat) (P : Machine → Prop) : Prop := ∀ m m', Agree R m m' → P m → P m'

/-- The instructions to come touch only the memory in `R`, and end where `P` holds. -/
structure Expects (T : Translation) (R : Set Nat) (l : List Instr) (m : Machine)
    (P : Machine → Prop) : Prop where
  within : Within T R l m
  post : P (run T l m)

variable {P : Machine → Prop}

theorem Expects.exec (h : Expects T R (i :: l) m P) : Expects T R l (exec T i m) P :=
  ⟨h.within.2, h.post⟩

theorem Expects.other (h : Expects T R (i :: l) m P) {a : Nat} (ha : a ∉ R) :
    (Riscv.exec T i m).mem a = m.mem a :=
  exec_other fun hin => ha (h.within.1 hin)

theorem Expects.agree (h : Expects T R l m P) (hP : On R P) (hm : Agree R m m') :
    Expects T R l m' P :=
  have hrun := h.within.agree hm
  ⟨hrun.1, hP _ _ hrun.2 h.post⟩

theorem Expects.imp {Q : Machine → Prop} (h : Expects T R l m P) (hQ : ∀ m, P m → Q m) :
    Expects T R l m Q :=
  ⟨h.within, hQ _ h.post⟩

theorem Expects.done (h : Expects T R [] m P) : P m := h.post

/-! ## Saving and loading registers -/

/-- Registers, and where their doublewords are in a block of memory. -/
abbrev Layout := List (Reg × Nat)

def saves (base : Reg) (L : Layout) : List Instr := L.map fun p => .sd p.1 p.2 base

def loads (base : Reg) (L : Layout) : List Instr := L.map fun p => .ld p.1 p.2 base

/-- The doublewords are in a block of `n` bytes and do not overlap. -/
structure Layout.Fits (L : Layout) (n : Nat) : Prop where
  inside : ∀ p ∈ L, p.2 + 8 ≤ n
  apart : L.Pairwise fun p q => q.2 + 8 ≤ p.2 ∨ p.2 + 8 ≤ q.2

/-- The block at `pa` holds the registers `f`. -/
def Layout.Saved (L : Layout) (mem : Bytes) (pa : Nat) (f : Reg → Word) : Prop :=
  ∀ p ∈ L, load mem (pa + p.2) = f p.1

/-- Through `base` the hart reaches the `n` bytes at `pa`. -/
def Hart.Reaches (T : Translation) (h : Hart) (base : Reg) (pa n : Nat) : Prop :=
  ∀ off < n, h.addr T off base = pa + off

variable {L : Layout} {base : Reg} {pa n : Nat} {f : Reg → Word}

theorem Layout.Saved.congr {mem mem' : Bytes} (h : L.Saved mem pa f) (hL : ∀ p ∈ L, p.2 + 8 ≤ n)
    (hmem : ∀ a ∈ Set.Ico pa (pa + n), mem' a = mem a) : L.Saved mem' pa f := by
  intro p hp
  have hin := hL p hp
  rw [← h p hp]
  refine load_congr fun k hk => hmem _ ⟨?_, ?_⟩ <;> omega

theorem run_saves_hart : (run T (saves base L) m).hart = m.hart := by
  induction L generalizing m with
  | nil => rfl
  | cons p L ih => exact ih

theorem touches_subset (hr : h.Reaches T base pa n) {off : Nat} (hoff : off + 8 ≤ n) :
    Set.Ico (h.addr T off base) (h.addr T off base + 8) ⊆ Set.Ico pa (pa + n) := by
  rw [hr off (by omega)]
  rintro a ⟨hlow, hhigh⟩
  constructor <;> omega

theorem within_saves (hr : m.hart.Reaches T base pa n) (hL : ∀ p ∈ L, p.2 + 8 ≤ n) :
    Within T (Set.Ico pa (pa + n)) (saves base L) m := by
  induction L generalizing m with
  | nil => trivial
  | cons p L ih =>
    obtain ⟨hp, hL⟩ := List.forall_mem_cons.mp hL
    exact ⟨touches_subset hr hp, ih hr hL⟩

/-- A doubleword that is none of those saved is not changed. -/
theorem load_run_saves (hr : m.hart.Reaches T base pa n) (hL : ∀ p ∈ L, p.2 + 8 ≤ n) {off : Nat}
    (hoff : ∀ p ∈ L, p.2 + 8 ≤ off ∨ off + 8 ≤ p.2) :
    load (run T (saves base L) m).mem (pa + off) = load m.mem (pa + off) := by
  induction L generalizing m with
  | nil => rfl
  | cons p L ih =>
    obtain ⟨hp, hL⟩ := List.forall_mem_cons.mp hL
    obtain ⟨hd, hoff⟩ := List.forall_mem_cons.mp hoff
    have hr' : (exec T (.sd p.1 p.2 base) m).hart.Reaches T base pa n := by rwa [exec_sd]
    refine (ih hr' hL hoff).trans (load_store_of_disjoint ?_)
    rw [hr p.2 (by omega)]
    omega

theorem run_saves (hr : m.hart.Reaches T base pa n) (hL : L.Fits n) :
    L.Saved (run T (saves base L) m).mem pa m.hart.reg := by
  obtain ⟨hin, hapart⟩ := hL
  induction L generalizing m with
  | nil => exact fun p hp => absurd hp List.not_mem_nil
  | cons p L ih =>
    obtain ⟨hp, hin⟩ := List.forall_mem_cons.mp hin
    obtain ⟨hd, hapart⟩ := List.pairwise_cons.mp hapart
    have hr' : (exec T (.sd p.1 p.2 base) m).hart.Reaches T base pa n := by rwa [exec_sd]
    have htail := ih hr' hin hapart
    rw [exec_sd] at htail
    change Layout.Saved (p :: L)
      (run T (saves base L) (exec T (.sd p.1 p.2 base) m)).mem pa m.hart.reg
    refine List.forall_mem_cons.mpr ⟨?_, htail⟩
    have haddr : m.hart.addr T p.2 base = pa + p.2 := hr p.2 (by omega)
    calc load (run T (saves base L) (exec T (.sd p.1 p.2 base) m)).mem (pa + p.2)
      _ = load (exec T (.sd p.1 p.2 base) m).mem (pa + p.2) := load_run_saves hr' hin hd
      _ = load (store m.mem (pa + p.2) (m.hart.reg p.1)) (pa + p.2) := by rw [exec, haddr]
      _ = m.hart.reg p.1 := load_store

theorem run_loads_mem : (run T (loads base L) m).mem = m.mem := by
  induction L generalizing m with
  | nil => rfl
  | cons p L ih => exact ih

theorem run_loads_csr : (run T (loads base L) m).hart.csr = m.hart.csr := by
  induction L generalizing m with
  | nil => rfl
  | cons p L ih => exact ih

theorem run_loads_other {r : Reg} (hr : r ∉ L.map Prod.fst) :
    (run T (loads base L) m).hart.reg r = m.hart.reg r := by
  induction L generalizing m with
  | nil => rfl
  | cons p L ih =>
    rw [List.map_cons, List.mem_cons, not_or] at hr
    exact (ih hr.2).trans (Function.update_of_ne hr.1 _ _)

/-- Loading does not lose the block: where `base` itself is loaded, the block holds its value. -/
theorem run_loads (hr : m.hart.Reaches T base pa n) (hL : ∀ p ∈ L, p.2 + 8 ≤ n)
    (hnd : (L.map Prod.fst).Nodup)
    (hbase : ∀ p ∈ L, p.1 = base → load m.mem (pa + p.2) = m.hart.reg base) :
    Within T (Set.Ico pa (pa + n)) (loads base L) m ∧
    ∀ p ∈ L, (run T (loads base L) m).hart.reg p.1 = load m.mem (pa + p.2) := by
  induction L generalizing m with
  | nil => exact ⟨trivial, fun p hp => absurd hp List.not_mem_nil⟩
  | cons p L ih =>
    obtain ⟨hp, hL⟩ := List.forall_mem_cons.mp hL
    obtain ⟨hb, hbase⟩ := List.forall_mem_cons.mp hbase
    obtain ⟨hnot, hnd⟩ := List.nodup_cons.mp hnd
    have haddr : m.hart.addr T p.2 base = pa + p.2 := hr p.2 (by omega)
    -- the base register is the same after the first load
    have hkeep : (exec T (.ld p.1 p.2 base) m).hart.reg base = m.hart.reg base := by
      rw [exec_ld, haddr]
      rcases eq_or_ne p.1 base with heq | hne
      · rw [heq, Function.update_self, hb heq]
      · rw [Function.update_of_ne hne.symm]
    have hr' : (exec T (.ld p.1 p.2 base) m).hart.Reaches T base pa n := by
      intro off hoff
      rw [← hr off hoff, Hart.addr, Hart.addr, hkeep]
      rfl
    obtain ⟨hwithin, hloaded⟩ := ih hr' hL hnd fun q hq heq => (hbase q hq heq).trans hkeep.symm
    refine ⟨⟨touches_subset hr hp, hwithin⟩, List.forall_mem_cons.mpr ⟨?_, hloaded⟩⟩
    refine (run_loads_other hnot).trans ?_
    rw [exec_ld, haddr, Function.update_self]

end CoroCore.Lib.Riscv
