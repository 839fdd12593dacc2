import CoroCore.Lib.Run
import CoroCore.Trap.KernelVec

/-!
# Kernel threads

The scheduler of each core and the kernel processes share the cores. A scheduler switches to a
process that no other core has (`kernel_process::run`, `src/os/proc/process.cc`), a process switches
back (`cpu::switch_back`, `src/os/arch/cpu.cc`) when it yields or when the timer interrupts it
(`kernel_trap`, `src/os/trap/trap.cc`), and any core may run it next. The assembly runs instruction
by instruction, while the other cores do what they like with the rest of the memory.

What compiled code does is arbitrary: it may write all of the memory but the contexts of the
threads that are not running and the frames of those that are interrupted.

* `Threads`: every thread has registers of its own, which nothing but its own code changes, but for
  a call of `swtch`, and that keeps what a call keeps.
-/

namespace CoroCore.Trap

open Lib Lib.Riscv

/-- A kernel process or the scheduler of a core. -/
inductive Thread (κ π : Type)
  | scheduler (k : κ)
  | process (p : π)
deriving DecidableEq

/-- The same but for `tp`, which belongs to the core. -/
structure Same (h h' : Hart) : Prop where
  reg : ∀ r ≠ .tp, h.reg r = h'.reg r
  pc : h.pc = h'.pc

/-! ## Threads with registers of their own -/

/-- What a thread does by its own account. -/
inductive Act (κ π : Type)
  | computed (t : Thread κ π) (h h' : Hart)
  | returned (t : Thread κ π) (h : Hart)
  | spawned (p : π) (caller sp func : Word)

structure Threads (κ π : Type) where
  own : Thread κ π → Hart
  fresh : Thread κ π → Bool

/-- The registers in a new context. -/
def firstRegs (caller sp func : Word) : Reg → Word
  | .ra => caller
  | .sp => sp
  | .a0 => func
  | _ => 0

theorem firstRegs_of_ne {caller sp func : Word} {r : Reg} (hra : r ≠ .ra) (hsp : r ≠ .sp)
    (ha0 : r ≠ .a0) :
    firstRegs caller sp func r = 0 := by
  cases r with
  | ra => exact absurd rfl hra
  | sp => exact absurd rfl hsp
  | a0 => exact absurd rfl ha0
  | _ => rfl

variable {κ π : Type} [DecidableEq κ]

section

variable [DecidableEq π]

def Threads.spawn (a : Threads κ π) (p : π) (caller sp func : Word) : Threads κ π :=
  ⟨Function.update a.own (.process p) ⟨firstRegs caller sp func, fun _ => 0, 0⟩,
    Function.update a.fresh (.process p) true⟩

/-- `swtch` returns to a thread with the registers that a call keeps. A new thread starts in its
caller function with the function to call and the stack pointer as arguments. -/
inductive Threads.Step : Threads κ π → Act κ π → Threads κ π → Prop
  | computed {a : Threads κ π} {t : Thread κ π} {h h' : Hart} : Same (a.own t) h →
      Step a (.computed t h h') { a with own := Function.update a.own t h' }
  | returned {a : Threads κ π} {t : Thread κ π} {h : Hart} :
      (∀ p ∈ contextLayout, h.reg p.1 = (a.own t).reg p.1) → h.pc = (a.own t).reg .ra →
      (a.fresh t = true → h.reg .a0 = (a.own t).reg .a0 ∧ h.reg .a1 = (a.own t).reg .sp) →
      Step a (.returned t h) ⟨Function.update a.own t h, Function.update a.fresh t false⟩
  | spawned {a : Threads κ π} {p : π} {caller sp func : Word} :
      Step a (.spawned p caller sp func) (a.spawn p caller sp func)

end

/-! ## Cores -/

/-- Where the contexts and the stacks of the threads are. -/
structure Places (κ π : Type) where
  context : Thread κ π → Nat
  stack : Thread κ π → Set Nat
  nonnull : ∀ t, 0 < context t
  inside : ∀ t, context t + contextSize ≤ 2 ^ 64
  contexts_apart : ∀ t u, t ≠ u → Disjoint (contextArea (context t)) (contextArea (context u))
  stacks_apart : ∀ t u, t ≠ u → Disjoint (stack t) (stack u)
  context_off_stack : ∀ t u, Disjoint (contextArea (context t)) (stack u)

/-- A call of `kernel_trap`: the frame it was given, its copy of `sepc`, and whether every `swtch`
in it kept what a call keeps. -/
structure Interrupted where
  frame : Nat
  sepc : Word
  kept : Bool

/-- What a core is doing: compiled code of a thread, or assembly on the way from or to one. -/
inductive Job (κ π : Type)
  | body (t : Thread κ π)
  | vec (t : Thread κ π)
  | handler (t : Thread κ π)
  | ret (t : Thread κ π)
  | swtch (old : Option (Thread κ π)) (new : Thread κ π)

/-- The threads that are on the core. -/
def Job.Mentions : Job κ π → Thread κ π → Prop
  | .body u, t | .vec u, t | .handler u, t | .ret u, t => t = u
  | .swtch old new, t => old = some t ∨ t = new

structure Kernel (κ π : Type) where
  hart : κ → Hart
  mem : Bytes
  job : κ → Job κ π
  /-- The instructions to come. -/
  rest : κ → List Instr
  trap : Thread κ π → Option Interrupted
  /-- The registers with which the thread last called `swtch`. -/
  called : Thread κ π → Reg → Word
  /-- The process whose `run` is under way on the core. -/
  slice : κ → Option π
  /-- The processes that wait for a core. -/
  queue : List π

namespace Kernel

def machine (x : Kernel κ π) (k : κ) : Machine := ⟨x.hart k, x.mem⟩

def put (x : Kernel κ π) (k : κ) (m : Machine) (j : Job κ π) (l : List Instr) : Kernel κ π :=
  { x with hart := Function.update x.hart k m.hart, mem := m.mem, job := Function.update x.job k j,
           rest := Function.update x.rest k l }

variable {x : Kernel κ π} {k i : κ} {m : Machine} {j : Job κ π} {l : List Instr}

@[simp] theorem hart_put : (x.put k m j l).hart k = m.hart := Function.update_self k _ _
@[simp] theorem job_put : (x.put k m j l).job k = j := Function.update_self k _ _
@[simp] theorem rest_put : (x.put k m j l).rest k = l := Function.update_self k _ _

@[simp] theorem machine_put : (x.put k m j l).machine k = m := by
  rw [machine, hart_put]
  rfl

theorem put_other (h : i ≠ k) : (x.put k m j l).hart i = x.hart i ∧
    (x.put k m j l).job i = x.job i ∧
    (x.put k m j l).rest i = x.rest i :=
  ⟨Function.update_of_ne h _ _, Function.update_of_ne h _ _, Function.update_of_ne h _ _⟩

def Alive (x : Kernel κ π) : Thread κ π → Prop
  | .scheduler _ => True
  | .process p => p ∈ x.queue ∨ ∃ k, x.slice k = some p

/-- Compiled code of `t` leaves the contexts of the others alone, and the frames. -/
structure Spares (P : Places κ π) (x : Kernel κ π) (t : Thread κ π) (mem : Bytes) : Prop where
  contexts : ∀ u ≠ t, x.Alive u → ∀ a ∈ contextArea (P.context u), mem a = x.mem a
  frames : ∀ u f, x.trap u = some f → ∀ a ∈ frameArea f.frame, mem a = x.mem a

/-- The memory after the constructor of `kernel_process` filled `_context`. -/
def newContext (mem : Bytes) (c : Nat) (caller sp func : Word) : Bytes :=
  store (store (store (memset mem c 0 contextSize) c caller) (c + 8) sp) (c + contextA0) func

/-- A process is created and put in the queue. -/
def spawn [DecidableEq π] (P : Places κ π) (x : Kernel κ π) (p : π)
    (caller sp func : Word) : Kernel κ π :=
  { x with mem := newContext x.mem (P.context (.process p)) caller sp func,
           called := Function.update x.called (.process p) (firstRegs caller sp func),
           queue := x.queue ++ [p] }

/-- The process is not run again. -/
def abandon [DecidableEq π] (x : Kernel κ π) (k : κ) (p : π) : Kernel κ π :=
  { x with slice := Function.update x.slice k none, trap :=
    Function.update x.trap (.process p) none }

theorem load_memset_zero {mem : Bytes} {c n off : Nat} (h : off + 8 ≤ n) :
    load (memset mem c 0 n) (c + off) = 0 := by
  have hbytes : ∀ i < 8, memset mem c 0 n (c + off + i) = UInt8.ofNat (0 / 256 ^ i) := by
    intro i hi
    rw [Nat.zero_div]
    exact if_pos ⟨by omega, by omega⟩
  rw [load, getLe_of_bytes hbytes]
  rfl

theorem newContext_saved {mem : Bytes} {c : Nat} {caller sp func : Word} :
    contextLayout.Saved (newContext mem c caller sp func) c (firstRegs caller sp func) := by
  have hcases : ∀ p ∈ contextLayout, p = (.ra, 0) ∨ p = (.sp, 8) ∨
      (p.1 ≠ .ra ∧ p.1 ≠ .sp ∧ p.1 ≠ .a0 ∧ 16 ≤ p.2 ∧ p.2 + 8 ≤ contextA0) := by decide
  intro p hp
  rcases hcases p hp with rfl | rfl | ⟨hra, hsp, ha0, hlow, hhigh⟩
  · rw [newContext, load_store_of_disjoint (by simp only [contextA0]; omega),
      load_store_of_disjoint (by omega)]
    exact load_store
  · rw [newContext, load_store_of_disjoint (by simp only [contextA0]; omega)]
    exact load_store
  · rw [newContext, load_store_of_disjoint (by omega), load_store_of_disjoint (by omega),
      load_store_of_disjoint (by omega),
      load_memset_zero (by simp only [contextA0, contextSize] at *; omega)]
    exact (firstRegs_of_ne hra hsp ha0).symm

theorem newContext_other {mem : Bytes} {c b : Nat} {caller sp func : Word} (h : b ∉ contextArea c) :
    newContext mem c caller sp func b = mem b := by
  rw [contextArea, Set.mem_Ico, not_and_or] at h
  have hne : ∀ off, off + 8 ≤ contextSize → b ∉ Set.Ico (c + off) (c + off + 8) := by
    intro off hoff hin
    obtain ⟨hlow, hhigh⟩ := hin
    omega
  rw [newContext, store_other (hne contextA0 (by decide)), store_other (hne 8 (by decide))]
  exact (store_other (hne 0 (by decide))).trans (if_neg fun hin => by omega)

/-- `swtch(old, new)` is called. -/
structure Calls (P : Places κ π) (h : Hart) (old : Option (Thread κ π))
    (new : Thread κ π) : Prop where
  a0 : h.reg .a0 = BitVec.ofNat 64 (old.elim 0 P.context)
  a1 : h.reg .a1 = BitVec.ofNat 64 (P.context new)

variable [DecidableEq π]

/-- A step of core `k`. The acts of a thread that is not interrupted are labels. -/
inductive Step (P : Places κ π) : Kernel κ π → Option (Act κ π) → Kernel κ π → Prop
  | compute {x : Kernel κ π} {k : κ} {t : Thread κ π} {m : Machine} : x.job k = .body t →
      m.hart.reg .tp = (x.hart k).reg .tp → x.Spares P t m.mem →
      Step P x (some (.computed t (x.hart k) m.hart)) (x.put k m (.body t) [])
  | handle {x : Kernel κ π} {k : κ} {t : Thread κ π} {m : Machine} : x.job k = .handler t →
      m.hart.reg .tp = (x.hart k).reg .tp → x.Spares P t m.mem →
      Step P x none (x.put k m (.handler t) [])
  -- the hart saves `pc` in `sepc`, there is room on the stack of the thread
  | interrupt {x : Kernel κ π} {k : κ} {t : Thread κ π} {frame : Nat} : x.job k = .body t →
      (x.hart k).reg .sp = BitVec.ofNat 64 frame + BitVec.ofNat 64 frameSize →
      frame + frameSize ≤ 2 ^ 64 → frameArea frame ⊆ P.stack t →
      Step P x none (put { x with trap := Function.update x.trap t (some ⟨frame, 0, true⟩) } k
        ⟨{ (x.hart k).setCsr .sepc (x.hart k).pc with pc := (x.hart k).csr .stvec }, x.mem⟩
          (.vec t) kernelVec)
  | instr {x : Kernel κ π} {k : κ} {i : Instr} {l : List Instr} : x.rest k = i :: l →
      Step P x none (x.put k (exec direct i (x.machine k)) (x.job k) l)
  -- `kernel_trap` reads `sepc`
  | enter {x : Kernel κ π} {k : κ} {t : Thread κ π} {f : Interrupted} : x.job k = .vec t →
      x.rest k = [] → x.trap t = some f →
      Step P x none (put { x with
          trap := Function.update x.trap t (some { f with sepc := (x.hart k).csr .sepc }) } k
        (x.machine k) (.handler t) [])
  -- `kernel_trap` writes `sepc` and returns, with the stack pointer it had if the calls in it did
  | leave {x : Kernel κ π} {k : κ} {t : Thread κ π} {f : Interrupted} : x.job k = .handler t →
      x.trap t = some f → (f.kept = true → (x.hart k).reg .sp = BitVec.ofNat 64 f.frame) →
      Step P x none (x.put k ⟨(x.hart k).setCsr .sepc f.sepc, x.mem⟩ (.ret t) kernelRet)
  | sret {x : Kernel κ π} {k : κ} {t : Thread κ π} : x.job k = .ret t → x.rest k = [] →
      Step P x none (put { x with trap := Function.update x.trap t none } k
        (x.machine k) (.body t) [])
  | pop {x : Kernel κ π} {k : κ} {p : π} : x.job k = .body (.scheduler k) →
      x.slice k = none → p ∈ x.queue →
      Step P x none { x with slice := Function.update x.slice k (some p), queue := x.queue.erase p }
  | switchTo {x : Kernel κ π} {k : κ} {p : π} : x.job k = .body (.scheduler k) →
      x.slice k = some p →
      Calls P (x.hart k) (some (.scheduler k)) (.process p) →
      Step P x none (put { x with called := Function.update x.called (.scheduler k) (x.hart k).reg }
      k (x.machine k)
        (.swtch (some (.scheduler k)) (.process p)) (swtch (x.hart k)))
  | switchBack {x : Kernel κ π} {k : κ} {p : π} :
      x.job k = .body (.process p) ∨ x.job k = .handler (.process p) →
      Calls P (x.hart k) (some (.process p)) (.scheduler k) →
      Step P x none (put { x with called := Function.update x.called (.process p) (x.hart k).reg }
      k (x.machine k)
        (.swtch (some (.process p)) (.scheduler k)) (swtch (x.hart k)))
  -- the process is done: `switch_back(nullptr)`
  | exit {x : Kernel κ π} {k : κ} {p : π} : x.job k = .body (.process p) →
      Calls P (x.hart k) none (.scheduler k) →
      Step P x none (put { x with slice := Function.update x.slice k none } k (x.machine k)
        (.swtch none (.scheduler k)) (swtch (x.hart k)))
  | arrive {x : Kernel κ π} {k : κ} {old : Option (Thread κ π)} {t : Thread κ π} :
      x.job k = .swtch old t →
      x.rest k = [] → x.trap t = none →
      Step P x (some (.returned t (x.hart k))) (x.put k (x.machine k) (.body t) [])
  | arriveTrapped {x : Kernel κ π} {k : κ} {old : Option (Thread κ π)} {t : Thread κ π}
      {f : Interrupted} :
      x.job k = .swtch old t → x.rest k = [] → x.trap t = some f →
      Step P x none (put { x with trap := Function.update x.trap t (some { f with
          kept := f.kept && contextLayout.all fun p => (x.hart k).reg p.1 == x.called t p.1 }) } k
        (x.machine k) (.handler t) [])
  | push {x : Kernel κ π} {k : κ} {p : π} : x.job k = .body (.scheduler k) → x.slice k = some p →
      Step P x none { x with slice := Function.update x.slice k none, queue := x.queue ++ [p] }
  | drop {x : Kernel κ π} {k : κ} {p : π} : x.job k = .body (.scheduler k) → x.slice k = some p →
      Step P x none (x.abandon k p)
  | create {x : Kernel κ π} {k : κ} {t : Thread κ π} {p : π} {caller sp func : Word} :
      x.job k = .body t →
      ¬x.Alive (.process p) →
      Step P x (some (.spawned p caller sp func)) (x.spawn P p caller sp func)

/-- The schedulers start. -/
structure Booted (x : Kernel κ π) : Prop where
  job : ∀ k, x.job k = .body (.scheduler k)
  rest : ∀ k, x.rest k = []
  trap : ∀ t, x.trap t = none
  slice : ∀ k, x.slice k = none
  queue : x.queue = []

/-- The assembly on a core may run to its end. -/
theorem run_instrs {P : Places κ π} {k : κ} {l : List Instr} : ∀ {x : Kernel κ π}, x.rest k = l →
    Run (Step P) x (List.replicate l.length none)
    (x.put k (run direct l (x.machine k)) (x.job k) []) := by
  induction l with
  | nil =>
    intro x hrest
    have hx : x.put k (run direct [] (x.machine k)) (x.job k) [] = x := by
      rw [run, put, ← hrest]
      simp only [machine, Function.update_eq_self]
    rw [hx]
    exact Run.nil x
  | cons i l ih =>
    intro x hrest
    have hput : ∀ {m m' : Machine} {l l' : List Instr},
      (x.put k m (x.job k) l).put k m' (x.job k) l' =
        x.put k m' (x.job k) l' := by
      intro m m' l l'
      simp only [put, Function.update_idem]
    have htail := ih (x := x.put k (exec direct i (x.machine k)) (x.job k) l) rest_put
    rw [machine_put, job_put, hput] at htail
    exact (Run.single (Step.instr hrest)).append htail

/-- The threads when the schedulers start. -/
def threads (x : Kernel κ π) : Threads κ π where
  own
    | .scheduler k => x.hart k
    | .process _ => ⟨fun _ => 0, fun _ => 0, 0⟩
  fresh _ := false

end Kernel

end CoroCore.Trap
