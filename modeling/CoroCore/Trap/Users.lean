import CoroCore.Lib.Run
import CoroCore.Trap.Trampoline

/-!
# User processes

Cores run user processes and the kernel. A trap takes a core through `user_vec` to the kernel, which
may then run another process, and any core may run this one next: `user_trap_ret`
(`src/os/trap/trap.cc`) fills the fields of the kernel in the trapframe and goes through `user_ret`.
The assembly runs instruction by instruction, side by side with the other cores.

What processes and the kernel do is arbitrary, but that processes cannot write trapframes, which are
not mapped for them, and that the kernel writes in them what `user_exception_handler` and `syscall`
do, and everything before it runs a process.

* `users_refined`: every process has registers of its own, which only its own code and the answers
  to its system calls change, and `user_trap` starts on the stack of the core, with its number.
-/

namespace CoroCore.Trap.User

open Lib Lib.Riscv

/-- What a process sees of a hart. -/
structure Regs where
  reg : Reg → Word
  pc : Word

def seen (h : Hart) : Regs := ⟨h.reg, h.pc⟩

/-! ## Processes with registers of their own -/

inductive Act (π : Type)
  | computed (p : π) (u u' : Regs)
  | advanced (p : π)
  | answered (p : π) (v : Word)
  | loaded (p : π) (u : Regs)

variable {κ π : Type}

/-- A system call advances the program counter by its instruction and returns `v`. -/
inductive Owns [DecidableEq π] : (π → Regs) → Act π → (π → Regs) → Prop
  | computed {own : π → Regs} {p : π} {u u' : Regs} : own p = u →
      Owns own (.computed p u u') (Function.update own p u')
  | advanced {own : π → Regs} {p : π} :
      Owns own (.advanced p) (Function.update own p { own p with pc := (own p).pc + 4 })
  | answered {own : π → Regs} {p : π} {v : Word} :
      Owns own (.answered p v)
        (Function.update own p { own p with reg := Function.update (own p).reg .a0 v })
  | loaded {own : π → Regs} {p : π} {u : Regs} : Owns own (.loaded p u) (Function.update own p u)

/-! ## Cores -/

/-- The page tables, where the trapframes are, and what `user_trap_ret` puts in them. -/
structure Spaces (κ π : Type) where
  translation : Translation
  satp : π → Word
  frame : π → Nat
  kernelSatp : Word
  tempKstack : κ → Word
  hartid : κ → Word
  userTrap : Word
  maps : ∀ p, Maps translation (satp p) (frame p)
  apart : ∀ p q, p ≠ q → Disjoint (trapframeArea (frame p)) (trapframeArea (frame q))

inductive Job (π : Type)
  | kernel
  | user (p : π)
  | vec (p : π)
  | ret (p : π)

def Job.On : Job π → π → Prop
  | .kernel, _ => False
  | .user q, p | .vec q, p | .ret q, p => p = q

structure Cores (κ π : Type) where
  hart : κ → Hart
  mem : Bytes
  job : κ → Job π
  rest : κ → List Instr
  /-- `cpu::current_process`, for a user process. -/
  current : κ → Option π

/-- The field of a register in `struct trapframe`. -/
def regOff (r : Reg) : Nat := ((trapframeLayout.find? fun p => p.1 == r).map Prod.snd).getD a0Off

/-- The process that a trapframe describes. -/
def described (mem : Bytes) (pa : Nat) : Regs :=
  ⟨fun r => load mem (pa + regOff r), load mem (pa + epcOff)⟩

namespace Cores

variable [DecidableEq κ]

def machine (x : Cores κ π) (k : κ) : Machine := ⟨x.hart k, x.mem⟩

def put (x : Cores κ π) (k : κ) (m : Machine) (j : Job π) (l : List Instr) : Cores κ π :=
  { x with hart := Function.update x.hart k m.hart, mem := m.mem, job := Function.update x.job k j,
           rest := Function.update x.rest k l }

variable {x : Cores κ π} {k i : κ} {m : Machine} {j : Job π} {l : List Instr}

@[simp] theorem hart_put : (x.put k m j l).hart k = m.hart := Function.update_self k _ _
@[simp] theorem job_put : (x.put k m j l).job k = j := Function.update_self k _ _
@[simp] theorem rest_put : (x.put k m j l).rest k = l := Function.update_self k _ _

@[simp] theorem machine_put : (x.put k m j l).machine k = m := by
  rw [machine, hart_put]
  rfl

theorem put_other (h : i ≠ k) : (x.put k m j l).hart i = x.hart i ∧
    (x.put k m j l).job i = x.job i ∧
    (x.put k m j l).rest i = x.rest i :=
  ⟨Function.update_of_ne h _ _, Function.update_of_ne h _ _, Function.update_of_ne h _ _⟩

/-- No trapframe is written. -/
def Spares (S : Spaces κ π) (x : Cores κ π) (mem : Bytes) : Prop :=
  ∀ p, ∀ b ∈ trapframeArea (S.frame p), mem b = x.mem b

/-- The fields of the kernel that `user_trap_ret` writes on core `k`. -/
def fill (S : Spaces κ π) (x : Cores κ π) (k : κ) (p : π) : Bytes :=
  store (store (store (store x.mem (S.frame p + kernelSatpOff) ((x.hart k).csr .satp))
    (S.frame p + kernelSpOff) (S.tempKstack k)) (S.frame p + kernelTrapOff) S.userTrap)
    (S.frame p + kernelHartidOff) ((x.hart k).reg .tp)

/-- A step of core `k`. -/
inductive Step (S : Spaces κ π) : Cores κ π → Option (Act π) → Cores κ π → Prop
  | compute {x : Cores κ π} {k : κ} {p : π} {m : Machine} : x.job k = .user p →
      m.hart.csr = (x.hart k).csr → x.Spares S m.mem →
      Step S x (some (.computed p (seen (x.hart k)) (seen m.hart))) (x.put k m (.user p) [])
  | trap {x : Cores κ π} {k : κ} {p : π} : x.job k = .user p →
      Step S x none (x.put k
      ⟨{ (x.hart k).setCsr .sepc (x.hart k).pc with pc := (x.hart k).csr .stvec }, x.mem⟩
        (.vec p) userVec)
  | instr {x : Cores κ π} {k : κ} {i : Instr} {l : List Instr} : x.rest k = i :: l →
      Step S x none (x.put k (exec S.translation i (x.machine k)) (x.job k) l)
  | enter {x : Cores κ π} {k : κ} {p : π} : x.job k = .vec p → x.rest k = [] →
      Step S x none (x.put k (x.machine k) .kernel [])
  -- the code of the kernel stays on its page table and keeps the number of the core
  | kernel {x : Cores κ π} {k : κ} {m : Machine} : x.job k = .kernel →
      m.hart.reg .tp = (x.hart k).reg .tp → m.hart.csr .satp = (x.hart k).csr .satp →
      x.Spares S m.mem →
      Step S x none (x.put k m .kernel [])
  -- `trapframe->epc += 4`
  | advance {x : Cores κ π} {k : κ} {p : π} : x.job k = .kernel → x.current k = some p →
      Step S x (some (.advanced p))
        { x with mem := store x.mem (S.frame p + epcOff) (load x.mem (S.frame p + epcOff) + 4) }
  -- `trapframe->a0 = ret`
  | answer {x : Cores κ π} {k : κ} {p : π} {v : Word} : x.job k = .kernel → x.current k = some p →
      Step S x (some (.answered p v)) { x with mem := store x.mem (S.frame p + a0Off) v }
  -- a process that no core runs is created or given an image
  | load {x : Cores κ π} {k : κ} {p : π} {mem : Bytes} : x.job k = .kernel →
      (∀ j, x.current j ≠ some p) →
      (∀ q ≠ p, ∀ b ∈ trapframeArea (S.frame q), mem b = x.mem b) →
      Step S x (some (.loaded p (described mem (S.frame p)))) { x with mem := mem }
  | setProcess {x : Cores κ π} {k : κ} {p : π} : x.job k = .kernel → (∀ j, x.current j ≠ some p) →
      Step S x none { x with current := Function.update x.current k (some p) }
  | clearProcess {x : Cores κ π} {k : κ} : x.job k = .kernel →
      Step S x none { x with current := Function.update x.current k none }
  -- `user_trap_ret` up to the jump, with the arguments of `user_ret`
  | userTrapRet {x : Cores κ π} {k : κ} {p : π} {h : Hart} : x.job k = .kernel →
      x.current k = some p →
      h.reg .a0 = TRAPFRAME → h.reg .a1 = S.satp p →
      h.csr .sepc = Riscv.load x.mem (S.frame p + epcOff) →
      Step S x none (x.put k ⟨h, x.fill S k p⟩ (.ret p) userRet)
  | sret {x : Cores κ π} {k : κ} {p : π} : x.job k = .ret p → x.rest k = [] →
      Step S x none (x.put k (x.machine k) (.user p) [])

/-- The assembly on a core may run to its end. -/
theorem run_instrs {S : Spaces κ π} {k : κ} {l : List Instr} : ∀ {x : Cores κ π}, x.rest k = l →
    Run (Step S) x (List.replicate l.length none)
    (x.put k (run S.translation l (x.machine k)) (x.job k) []) := by
  induction l with
  | nil =>
    intro x hrest
    have hx : x.put k (run S.translation [] (x.machine k)) (x.job k) [] = x := by
      rw [run, put, ← hrest]
      simp only [machine, Function.update_eq_self]
    rw [hx]
    exact Run.nil x
  | cons i l ih =>
    intro x hrest
    have hput : ∀ {m m' : Machine} {l l' : List Instr},
      (x.put k m (x.job k) l).put k m' (x.job k) l' =
        x.put k m' (x.job k) l' := by
      intro m m' l l'
      simp only [put, Function.update_idem]
    have htail := ih (x := x.put k (exec S.translation i (x.machine k)) (x.job k) l) rest_put
    rw [machine_put, job_put, hput] at htail
    exact (Run.single (Step.instr hrest)).append htail

/-- All cores are in the kernel. -/
structure Booted (S : Spaces κ π) (x : Cores κ π) : Prop where
  job : ∀ k, x.job k = .kernel
  rest : ∀ k, x.rest k = []
  current : ∀ k, x.current k = none
  tp : ∀ k, (x.hart k).reg .tp = S.hartid k
  satp : ∀ k, (x.hart k).csr .satp = S.kernelSatp

end Cores

/-- `user_trap` starts on core `k`. -/
structure Entered (S : Spaces κ π) (k : κ) (h : Hart) : Prop where
  sp : h.reg .sp = S.tempKstack k
  tp : h.reg .tp = S.hartid k
  satp : h.csr .satp = S.kernelSatp
  pc : h.pc = S.userTrap

/-! ## Trapframes -/

variable {S : Spaces κ π} {own own' : π → Regs} {x x' : Cores κ π} {k : κ} {p : π}
  {mem mem' : Bytes} {pa : Nat} {u : Regs} {v w : Word}

/-- The trapframe of the process holds its registers. -/
def Shelved (S : Spaces κ π) (own : π → Regs) (p : π) (mem : Bytes) : Prop :=
  Shelf (S.frame p) (own p).reg (own p).pc mem

theorem regOff_of_mem {q : Reg × Nat} (hq : q ∈ trapframeLayout) : regOff q.1 = q.2 :=
  (by decide : ∀ q ∈ trapframeLayout, regOff q.1 = q.2) q hq

theorem described_shelf : Shelf pa (described mem pa).reg (described mem pa).pc mem :=
  ⟨fun q hq => by simp only [described, regOff_of_mem hq], rfl, rfl⟩

theorem described_of_shelf (h : Shelf pa u.reg u.pc mem) : described mem pa = u := by
  obtain ⟨reg, pc⟩ := u
  have hreg : (described mem pa).reg = reg := by
    funext r
    rcases eq_or_ne r .a0 with rfl | hr
    · exact h.a0
    · obtain ⟨q, hq, rfl⟩ := mem_trapframeLayout hr
      simp only [described, regOff_of_mem hq]
      exact h.saved q hq
  have hpc : (described mem pa).pc = pc := h.epc
  rw [← hreg, ← hpc]

theorem Cores.fill_other {b : Nat} (hb : b ∉ trapframeArea (S.frame p)) :
    x.fill S k p b = x.mem b := by
  rw [fill, store_trapframe_other (by decide) hb, store_trapframe_other (by decide) hb,
    store_trapframe_other (by decide) hb, store_trapframe_other (by decide) hb]

theorem Cores.fill_fields (htp : (x.hart k).reg .tp = S.hartid k)
    (hsatp : (x.hart k).csr .satp = S.kernelSatp) :
    KernelFields S.kernelSatp (S.tempKstack k) S.userTrap (S.hartid k) (S.frame p)
    (x.fill S k p) := by
  simp only [fill, htp, hsatp, kernelSatpOff, kernelSpOff, kernelTrapOff, kernelHartidOff]
  refine ⟨?_, ?_, ?_, load_store⟩
  · rw [kernelSatpOff, load_store_of_disjoint (by omega), load_store_of_disjoint (by omega),
      load_store_of_disjoint (by omega)]
    exact load_store
  · rw [kernelSpOff, load_store_of_disjoint (by omega), load_store_of_disjoint (by omega)]
    exact load_store
  · rw [kernelTrapOff, load_store_of_disjoint (by omega)]
    exact load_store

/-! ## What a core is doing -/

/-- Core `k` runs the process. -/
structure Running (S : Spaces κ π) (own : π → Regs) (k : κ) (p : π) (m : Machine) : Prop where
  seen : seen m.hart = own p
  sscratch : m.hart.csr .sscratch = TRAPFRAME
  satp : m.hart.csr .satp = S.satp p
  fields : KernelFields S.kernelSatp (S.tempKstack k) S.userTrap (S.hartid k) (S.frame p) m.mem

def Doing (S : Spaces κ π) (own : π → Regs) (k : κ) (m : Machine) (l : List Instr) : Job π → Prop
  | .kernel => l = [] ∧ m.hart.reg .tp = S.hartid k ∧ m.hart.csr .satp = S.kernelSatp
  | .user p => l = [] ∧ Running S own k p m
  | .vec p => Expects S.translation (trapframeArea (S.frame p)) l m fun m' =>
      Shelved S own p m'.mem ∧ Entered S k m'.hart
  | .ret p => Expects S.translation (trapframeArea (S.frame p)) l m (Running S own k p)

structure Sim (S : Spaces κ π) (own : π → Regs) (x : Cores κ π) : Prop where
  doing : ∀ k, Doing S own k (x.machine k) (x.rest k) (x.job k)
  shelved : ∀ p, (∀ k, ¬(x.job k).On p) → Shelved S own p x.mem
  current : ∀ k p, (x.job k).On p → x.current k = some p
  once : ∀ i j p, x.current i = some p → x.current j = some p → i = j

/-- Nothing happens to the process. -/
structure Untouched (S : Spaces κ π) (own : π → Regs) (mem : Bytes) (own' : π → Regs)
    (mem' : Bytes) (p : π) :
    Prop where
  own : own' p = own p
  mem : ∀ b ∈ trapframeArea (S.frame p), mem' b = mem b

theorem Shelved.untouched (h : Shelved S own p mem) (hp : Untouched S own mem own' mem' p) :
    Shelved S own' p mem' := by
  rw [Shelved, hp.own]
  exact h.congr hp.mem

theorem Running.untouched {m m' : Machine} (h : Running S own k p m) (hart : m'.hart = m.hart)
    (hp : Untouched S own m.mem own' m'.mem p) : Running S own' k p m' :=
  ⟨by rw [hart, h.seen, hp.own], by rw [hart, h.sscratch], by rw [hart, h.satp],
    h.fields.congr hp.mem⟩

theorem Doing.untouched {m m' : Machine} {l : List Instr} {j : Job π} (h : Doing S own k m l j)
    (hart : m'.hart = m.hart) (hp : ∀ p, j.On p → Untouched S own m.mem own' m'.mem p) :
    Doing S own' k m' l j := by
  cases j with
  | kernel => exact ⟨h.1, hart ▸ h.2.1, hart ▸ h.2.2⟩
  | user p => exact ⟨h.1, h.2.untouched hart (hp p rfl)⟩
  | vec p =>
    obtain ⟨hown, hmem⟩ := hp p rfl
    refine (h.agree (fun m₁ m₂ hm hpost => ?_) ⟨hart, hmem⟩).imp fun m₁ hpost => ?_
    · exact ⟨hpost.1.congr hm.mem, hm.hart ▸ hpost.2⟩
    · rw [Shelved, hown]
      exact hpost
  | ret p =>
    obtain ⟨hown, hmem⟩ := hp p rfl
    refine (h.agree (fun m₁ m₂ hm hpost => ?_) ⟨hart, hmem⟩).imp fun m₁ hpost => ?_
    · exact hpost.untouched hm.hart ⟨rfl, hm.mem⟩
    · exact hpost.untouched rfl ⟨hown, fun _ _ => rfl⟩

namespace Sim

/-- Core `k` steps, and touches no process that another core has. -/
theorem evolve (h : Sim S own x)
    (hother : ∀ i ≠ k, x'.hart i = x.hart i ∧ x'.job i = x.job i ∧ x'.rest i = x.rest i)
    (hfar : ∀ i ≠ k, ∀ p, x.current i = some p → Untouched S own x.mem own' x'.mem p)
    (hdoing : Doing S own' k (x'.machine k) (x'.rest k) (x'.job k))
    (hshelved : ∀ p, ¬(x'.job k).On p → (∀ i ≠ k, ¬(x.job i).On p) → Shelved S own' p x'.mem)
    (hcurrent : ∀ i ≠ k, x'.current i = x.current i)
    (hon : ∀ p, (x'.job k).On p → x'.current k = some p)
    (honce : ∀ i j p, x'.current i = some p → x'.current j = some p → i = j) : Sim S own' x' where
  doing i := by
    rcases eq_or_ne i k with rfl | hi
    · exact hdoing
    · obtain ⟨hhart, hjob, hrest⟩ := hother i hi
      rw [hjob, hrest]
      exact (h.doing i).untouched hhart fun p hp => hfar i hi p (h.current i p hp)
  shelved p hno := by
    refine hshelved p (hno k) fun i hi => ?_
    rw [← (hother i hi).2.1]
    exact hno i
  current i p hp := by
    rcases eq_or_ne i k with rfl | hi
    · exact hon p hp
    · rw [(hother i hi).2.1] at hp
      exact (hcurrent i hi).trans (h.current i p hp)
  once := honce

/-- The step touches the current process of the core only. -/
theorem update (h : Sim S own x) (hp : x.current k = some p) (hcurrent : x'.current = x.current)
    (hother : ∀ i ≠ k, x'.hart i = x.hart i ∧ x'.job i = x.job i ∧ x'.rest i = x.rest i)
    (hfar : ∀ q ≠ p, Untouched S own x.mem own' x'.mem q) (hon : ∀ q, (x'.job k).On q → q = p)
    (hdoing : Doing S own' k (x'.machine k) (x'.rest k) (x'.job k))
    (hshelved : ¬(x'.job k).On p → Shelved S own' p x'.mem) : Sim S own' x' := by
  refine h.evolve hother (fun i hi q hq => hfar q ?_) hdoing (fun q hno hnone => ?_)
    (fun _ _ => congrFun hcurrent _) (fun q hq => ?_) (by rw [hcurrent]; exact h.once)
  · rintro rfl
    exact hi (h.once i k q hq hp)
  · rcases eq_or_ne q p with rfl | hne
    · exact hshelved hno
    · refine (h.shelved q fun i hq => ?_).untouched (hfar q hne)
      rcases eq_or_ne i k with rfl | hi
      · exact hne (Option.some.inj ((h.current i q hq).symm.trans hp))
      · exact hnone i hi hq
  · rw [hcurrent, hon q hq, hp]

/-- In the kernel, the trapframe of the current process holds its registers. -/
theorem shelved_of_kernel (h : Sim S own x) (hjob : x.job k = .kernel) (hp : x.current k = some p) :
    Shelved S own p x.mem := by
  refine h.shelved p fun i hon => ?_
  have hi := h.once i k p (h.current i p hon) hp
  rw [hi, hjob] at hon
  exact hon

theorem kernel_state (h : Sim S own x) (hjob : x.job k = .kernel) :
    x.rest k = [] ∧ (x.hart k).reg .tp = S.hartid k ∧ (x.hart k).csr .satp = S.kernelSatp := by
  have hdoing := h.doing k
  rwa [hjob] at hdoing

theorem running (h : Sim S own x) (hjob : x.job k = .user p) : Running S own k p (x.machine k) := by
  have hdoing := h.doing k
  rw [hjob] at hdoing
  exact hdoing.2

theorem current_of_job (h : Sim S own x) {j : Job π} (hjob : x.job k = j) (hon : j.On p) :
    x.current k = some p := by
  rw [← hjob] at hon
  exact h.current k p hon

/-! ## Steps -/

variable {m : Machine}

theorem entered (h : Sim S own x) (hjob : x.job k = .vec p) (hrest : x.rest k = []) :
    Shelved S own p x.mem ∧ Entered S k (x.hart k) := by
  have hdoing := h.doing k
  rw [hjob, hrest] at hdoing
  exact hdoing.done

section

variable [DecidableEq π]

/-- The kernel writes in the trapframe of its current process. -/
theorem written (h : Sim S own x) (hjob : x.job k = .kernel) (hp : x.current k = some p)
    {off : Nat} {u : Regs} (hoff : off + 8 ≤ trapframeSize)
    (hshelf : Shelf (S.frame p) u.reg u.pc (store x.mem (S.frame p + off) w)) :
    Sim S (Function.update own p u) { x with mem := store x.mem (S.frame p + off) w } := by
  obtain ⟨hrest, htp, hsatp⟩ := h.kernel_state hjob
  refine h.update hp rfl (fun i _ => ⟨rfl, rfl, rfl⟩)
    (fun q hq => ⟨Function.update_of_ne hq _ _, fun b hb => ?_⟩)
    (fun q hq => ?_) ?_ fun _ => ?_
  · exact store_trapframe_other hoff (Set.disjoint_left.mp (S.apart q p hq) hb)
  · change (x.job k).On q at hq
    rw [hjob] at hq
    exact hq.elim
  · change Doing S (Function.update own p u) k ⟨x.hart k, store x.mem (S.frame p + off) w⟩
      (x.rest k) (x.job k)
    rw [hjob]
    exact ⟨hrest, htp, hsatp⟩
  · rw [Shelved, Function.update_self]
    exact hshelf

theorem load (h : Sim S own x) (hjob : x.job k = .kernel) (hfree : ∀ j, x.current j ≠ some p)
    (hmem : ∀ q ≠ p, ∀ b ∈ trapframeArea (S.frame q), mem b = x.mem b) :
    Sim S (Function.update own p (described mem (S.frame p))) { x with mem := mem } := by
  obtain ⟨hrest, htp, hsatp⟩ := h.kernel_state hjob
  have hfar : ∀ q ≠ p,
      Untouched S own x.mem (Function.update own p (described mem (S.frame p))) mem q :=
    fun q hq => ⟨Function.update_of_ne hq _ _, hmem q hq⟩
  refine h.evolve (k := k) (fun i _ => ⟨rfl, rfl, rfl⟩)
    (fun i _ q hq => hfar q ?_) ?_ (fun q _ hnone => ?_)
    (fun _ _ => rfl) (fun q hq => h.current k q hq) h.once
  · rintro rfl
    exact hfree i hq
  · change Doing S _ k ⟨x.hart k, mem⟩ (x.rest k) (x.job k)
    rw [hjob]
    exact ⟨hrest, htp, hsatp⟩
  · rcases eq_or_ne q p with rfl | hne
    · rw [Shelved, Function.update_self]
      exact described_shelf
    · refine (h.shelved q fun i hq => ?_).untouched (hfar q hne)
      rcases eq_or_ne i k with rfl | hi
      · rw [hjob] at hq
        exact hq
      · exact hnone i hi hq

end

variable [DecidableEq κ]

theorem trap (h : Sim S own x) (hjob : x.job k = .user p) :
    Sim S own (x.put k
      ⟨{ (x.hart k).setCsr .sepc (x.hart k).pc with pc := (x.hart k).csr .stvec }, x.mem⟩
      (.vec p) userVec) := by
  obtain ⟨hseen, hsscratch, hsatp, hfields⟩ := h.running hjob
  have hreg : (x.hart k).reg = (own p).reg := congrArg Regs.reg hseen
  have hpc : (x.hart k).pc = (own p).pc := congrArg Regs.pc hseen
  refine h.update (h.current_of_job hjob rfl) rfl (fun i hi => Cores.put_other hi)
    (fun q _ => ⟨rfl, fun _ _ => rfl⟩) (fun q hq => ?_) ?_ fun hno => ?_
  · rw [Cores.job_put] at hq
    exact hq
  · rw [Cores.job_put, Cores.rest_put, Cores.machine_put]
    have hmaps : Maps S.translation ((x.hart k).csr .satp) (S.frame p) := by
      rw [show (x.hart k).csr .satp = S.satp p from hsatp]
      exact S.maps p
    have hvec := userVec_expects
      (m := ⟨{ (x.hart k).setCsr .sepc (x.hart k).pc with pc := (x.hart k).csr .stvec }, x.mem⟩)
      hmaps (by simpa [Cores.machine] using hsscratch) hfields
    refine hvec.imp fun m' hpost => ?_
    obtain ⟨hshelf, hsp, htp, hsatp', htrap⟩ := hpost
    refine ⟨?_, hsp, htp, hsatp', htrap⟩
    simpa [Shelved, hreg, hpc] using hshelf
  · rw [Cores.job_put] at hno
    exact absurd rfl hno

theorem instr (h : Sim S own x) {i : Instr} {l : List Instr} (hrest : x.rest k = i :: l) :
    Sim S own (x.put k (exec S.translation i (x.machine k)) (x.job k) l) := by
  have hdoing := h.doing k
  rw [hrest] at hdoing
  have hstep : ∀ p P, (x.job k).On p → (∀ q, (x.job k).On q → q = p) →
      Expects S.translation (trapframeArea (S.frame p)) (i :: l) (x.machine k) P →
      Doing S own k (exec S.translation i (x.machine k)) l (x.job k) →
      Sim S own (x.put k (exec S.translation i (x.machine k)) (x.job k) l) := by
    intro p P hon honly hexp hnext
    refine h.update (h.current k p hon) rfl (fun i hi => Cores.put_other hi)
      (fun q hq => ⟨rfl, fun b hb => ?_⟩)
      (fun q hq => ?_) ?_ fun hno => ?_
    · exact hexp.other (Set.disjoint_left.mp (S.apart q p hq) hb)
    · rw [Cores.job_put] at hq
      exact honly q hq
    · rw [Cores.job_put, Cores.rest_put, Cores.machine_put]
      exact hnext
    · rw [Cores.job_put] at hno
      exact absurd hon hno
  cases hjob : x.job k with
  | kernel =>
    rw [hjob] at hdoing
    cases hdoing.1
  | user p =>
    rw [hjob] at hdoing
    cases hdoing.1
  | vec p =>
    rw [hjob] at hdoing hstep
    exact hstep p _ rfl (fun _ hq => hq) hdoing hdoing.exec
  | ret p =>
    rw [hjob] at hdoing hstep
    exact hstep p _ rfl (fun _ hq => hq) hdoing hdoing.exec

theorem enter (h : Sim S own x) (hjob : x.job k = .vec p) (hrest : x.rest k = []) :
    Sim S own (x.put k (x.machine k) .kernel []) := by
  obtain ⟨hshelf, hentered⟩ := h.entered hjob hrest
  refine h.update (h.current_of_job hjob rfl) rfl (fun i hi => Cores.put_other hi)
    (fun q _ => ⟨rfl, fun _ _ => rfl⟩) (fun q hq => ?_) ?_ fun _ => hshelf
  · rw [Cores.job_put] at hq
    exact hq.elim
  · rw [Cores.job_put, Cores.rest_put, Cores.machine_put]
    exact ⟨rfl, hentered.tp, hentered.satp⟩

/-- The kernel does something that touches no process of another core. -/
theorem kernel (h : Sim S own x) (hjob : x.job k = .kernel)
    (htp : m.hart.reg .tp = (x.hart k).reg .tp) (hsatp : m.hart.csr .satp = (x.hart k).csr .satp)
    (hmem : x.Spares S m.mem) :
    Sim S own (x.put k m .kernel []) := by
  obtain ⟨-, htp', hsatp'⟩ := h.kernel_state hjob
  have hfar : ∀ q, Untouched S own x.mem own (x.put k m .kernel []).mem q := fun q => ⟨rfl, hmem q⟩
  refine h.evolve (fun i hi => Cores.put_other hi) (fun _ _ q _ => hfar q) ?_ (fun q _ hnone => ?_)
    (fun _ _ => rfl)
    (fun q hq => ?_) h.once
  · rw [Cores.job_put, Cores.rest_put, Cores.machine_put]
    exact ⟨rfl, htp.trans htp', hsatp.trans hsatp'⟩
  · refine (h.shelved q fun i hq => ?_).untouched (hfar q)
    rcases eq_or_ne i k with rfl | hi
    · rw [hjob] at hq
      exact hq
    · exact hnone i hi hq
  · rw [Cores.job_put] at hq
    exact hq.elim

/-- The kernel goes on to another process, or to none. -/
theorem setCurrent (h : Sim S own x) (hjob : x.job k = .kernel) {c : Option π}
    (hfree : ∀ p ∈ c, ∀ j, x.current j ≠ some p) :
    Sim S own { x with current := Function.update x.current k c } := by
  refine ⟨h.doing, h.shelved, fun i p hp => ?_, fun i j p hi hj => ?_⟩
  · have hi : i ≠ k := by
      rintro rfl
      change (x.job i).On p at hp
      rw [hjob] at hp
      exact hp
    exact (Function.update_of_ne hi _ _).trans (h.current i p hp)
  · rcases eq_or_ne i k with rfl | hik <;> rcases eq_or_ne j i with rfl | hji
    · rfl
    · have hc : c = some p := (Function.update_self i c x.current).symm.trans hi
      exact absurd ((Function.update_of_ne hji _ _).symm.trans hj) (hfree p hc j)
    · rfl
    · have hi' : x.current i = some p := (Function.update_of_ne hik _ _).symm.trans hi
      rcases eq_or_ne j k with rfl | hjk
      · have hc : c = some p := (Function.update_self j c x.current).symm.trans hj
        exact absurd hi' (hfree p hc i)
      · exact h.once i j p hi' ((Function.update_of_ne hjk _ _).symm.trans hj)

theorem userTrapRet (h : Sim S own x) {hart : Hart} (hjob : x.job k = .kernel)
    (hp : x.current k = some p) (ha0 : hart.reg .a0 = TRAPFRAME) (ha1 : hart.reg .a1 = S.satp p)
    (hsepc : hart.csr .sepc = Riscv.load x.mem (S.frame p + epcOff)) :
    Sim S own (x.put k ⟨hart, x.fill S k p⟩ (.ret p) userRet) := by
  obtain ⟨-, htp, hsatp⟩ := h.kernel_state hjob
  have hshelf := h.shelved_of_kernel hjob hp
  have hfilled : Shelved S own p (x.fill S k p) :=
    (((hshelf.store_field (by decide)).store_field (by decide)).store_field
      (by decide)).store_field (by decide)
  refine h.update hp rfl (fun i hi => Cores.put_other hi) (fun q hq => ⟨rfl, fun b hb => ?_⟩)
    (fun q hq => ?_) ?_
    fun hno => ?_
  · exact Cores.fill_other (Set.disjoint_left.mp (S.apart q p hq) hb)
  · rw [Cores.job_put] at hq
    exact hq
  · rw [Cores.job_put, Cores.rest_put, Cores.machine_put]
    have hmaps : Maps S.translation (hart.reg .a1) (S.frame p) := by
      rw [ha1]
      exact S.maps p
    have hret := userRet_expects (m := ⟨hart, x.fill S k p⟩) hmaps ha0 hfilled
      (hsepc.trans hshelf.epc)
    refine hret.imp fun m' hpost => ?_
    obtain ⟨hmem, hreg, hpc, hsscratch, hsatp'⟩ := hpost
    refine ⟨?_, hsscratch, hsatp'.trans ha1, ?_⟩
    · rw [seen, hreg, hpc]
    · rw [hmem]
      exact Cores.fill_fields htp hsatp
  · rw [Cores.job_put] at hno
    exact absurd rfl hno

theorem sret (h : Sim S own x) (hjob : x.job k = .ret p) (hrest : x.rest k = []) :
    Sim S own (x.put k (x.machine k) (.user p) []) := by
  have hdoing := h.doing k
  rw [hjob, hrest] at hdoing
  refine h.update (h.current_of_job hjob rfl) rfl (fun i hi => Cores.put_other hi)
    (fun q _ => ⟨rfl, fun _ _ => rfl⟩) (fun q hq => ?_) ?_ fun hno => ?_
  · rw [Cores.job_put] at hq
    exact hq
  · rw [Cores.job_put, Cores.rest_put, Cores.machine_put]
    exact ⟨rfl, hdoing.done⟩
  · rw [Cores.job_put] at hno
    exact absurd rfl hno

variable [DecidableEq π]

theorem compute (h : Sim S own x) (hjob : x.job k = .user p) (hcsr : m.hart.csr = (x.hart k).csr)
    (hmem : x.Spares S m.mem) :
    Sim S (Function.update own p (seen m.hart)) (x.put k m (.user p) []) := by
  obtain ⟨hseen, hsscratch, hsatp, hfields⟩ := h.running hjob
  refine h.update (h.current_of_job hjob rfl) rfl (fun i hi => Cores.put_other hi)
    (fun q hq => ⟨Function.update_of_ne hq _ _, hmem q⟩) (fun q hq => ?_) ?_ fun hno => ?_
  · rw [Cores.job_put] at hq
    exact hq
  · rw [Cores.job_put, Cores.rest_put, Cores.machine_put]
    exact ⟨rfl, (Function.update_self p _ own).symm,
      by rw [hcsr]; exact hsscratch, by rw [hcsr]; exact hsatp, hfields.congr (hmem p)⟩
  · rw [Cores.job_put] at hno
    exact absurd rfl hno

theorem step (h : Sim S own x) {l : Option (Act π)} (hs : Cores.Step S x l x') :
    ∃ own', Silently Owns own l own' ∧ Sim S own' x' := by
  cases hs with
  | compute hjob hcsr hmem =>
      exact ⟨_, .computed (h.running hjob).seen.symm, h.compute hjob hcsr hmem⟩
  | trap hjob => exact ⟨own, rfl, h.trap hjob⟩
  | instr hrest => exact ⟨own, rfl, h.instr hrest⟩
  | enter hjob hrest => exact ⟨own, rfl, h.enter hjob hrest⟩
  | kernel hjob htp hsatp hmem => exact ⟨own, rfl, h.kernel hjob htp hsatp hmem⟩
  | @advance k p hjob hp =>
    have hshelf := h.shelved_of_kernel hjob hp
    refine ⟨_, .advanced, h.written hjob hp (by decide) ?_⟩
    have hnext := hshelf.store_epc (w := (own p).pc + 4)
    rw [← hshelf.epc] at hnext ⊢
    exact hnext
  | answer hjob hp =>
    exact ⟨_, .answered, h.written hjob hp (by decide) (h.shelved_of_kernel hjob hp).store_a0⟩
  | load hjob hfree hmem => exact ⟨_, .loaded, h.load hjob hfree hmem⟩
  | setProcess hjob hfree =>
    refine ⟨own, rfl, h.setCurrent hjob fun q hq => ?_⟩
    cases hq
    exact hfree
  | clearProcess hjob => exact ⟨own, rfl, h.setCurrent hjob fun q hq => by cases hq⟩
  | userTrapRet hjob hp ha0 ha1 hsepc => exact ⟨own, rfl, h.userTrapRet hjob hp ha0 ha1 hsepc⟩
  | sret hjob hrest => exact ⟨own, rfl, h.sret hjob hrest⟩

end Sim

/-! ## Runs -/

theorem Cores.Booted.sim (h : x.Booted S) : Sim S (fun p => described x.mem (S.frame p)) x where
  doing k := by
    rw [h.job, h.rest]
    exact ⟨rfl, h.tp k, h.satp k⟩
  shelved p _ := described_shelf
  current k p hp := by
    rw [h.job] at hp
    exact hp.elim
  once i j p hi _ := by
    rw [h.current] at hi
    cases hi

variable [DecidableEq κ] [DecidableEq π] {x₀ : Cores κ π} {ls : List (Option (Act π))}

/-- However the cores interleave and whichever core a process is run on next, its code finds the
registers it left, but for what its system calls returned. While no core runs it they are in its
trapframe. `user_trap` finds the state of its core. -/
theorem users_refined (hboot : x₀.Booted S) (hrun : Run (Cores.Step S) x₀ ls x) :
    ∃ own, Run Owns (fun p => described x₀.mem (S.frame p)) ls.reduceOption own ∧
      (∀ k p, x.job k = .user p → seen (x.hart k) = own p) ∧
      (∀ p, (∀ k, ¬(x.job k).On p) → described x.mem (S.frame p) = own p) ∧
      ∀ k p, x.job k = .vec p → x.rest k = [] → Entered S k (x.hart k) := by
  obtain ⟨own, habstract, hsim⟩ :=
    Run.simulate (R := Sim S) (fun _ _ _ _ h hs => h.step hs) hrun hboot.sim
  exact ⟨own, habstract, fun k p hjob => (hsim.running hjob).seen,
    fun p hno => described_of_shelf (hsim.shelved p hno),
    fun k p hjob hrest => (hsim.entered hjob hrest).2⟩

/-- One process, whose trapframe is at 4096 and for the process at `TRAPFRAME`. -/
def sampleSpaces : Spaces Unit Unit where
  translation satp va := if satp = 1 then 4096 + (va - TRAPFRAME).toNat else va.toNat
  satp _ := 1
  frame _ := 4096
  kernelSatp := 0
  tempKstack _ := 0x8000
  hartid _ := 0
  userTrap := 0x9000
  maps _ off hoff := by
    have hlt : off < 2 ^ 64 := Nat.lt_trans hoff (by decide)
    have hback : TRAPFRAME + BitVec.ofNat 64 off - TRAPFRAME = BitVec.ofNat 64 off := by
      rw [BitVec.add_comm, BitVec.add_sub_cancel]
    exact (if_pos rfl).trans (by rw [hback, BitVec.toNat_ofNat, Nat.mod_eq_of_lt hlt])
  apart _ _ hne := absurd rfl hne

def sampleCores : Cores Unit Unit where
  hart _ := ⟨fun _ => 0, fun _ => 0, 0⟩
  mem _ := 0
  job _ := .kernel
  rest _ := []
  current _ := none

/-- The process runs and traps. -/
theorem sample_trap : ∃ (ls : List (Option (Act Unit))) (x : Cores Unit Unit),
    Run (Cores.Step sampleSpaces) sampleCores ls x ∧ x.job () = .vec () ∧ x.rest () = [] := by
  have hload : Cores.Step sampleSpaces sampleCores (some (.loaded () (described (fun _ => 0) 4096)))
      { sampleCores with mem := fun _ => 0 } :=
    Cores.Step.load (k := ()) rfl (fun _ h => by cases h) fun _ hne => absurd rfl hne
  have hset := Cores.Step.setProcess (S := sampleSpaces) (x := sampleCores) (k := ()) (p := ()) rfl
    (fun _ h => by cases h)
  have hret := Cores.Step.userTrapRet (S := sampleSpaces)
    (x := { sampleCores with current := Function.update sampleCores.current () (some ()) })
      (k := ()) (p := ())
    (h := (Hart.set ⟨fun _ => 0, fun _ => 0, 0⟩ .a0 TRAPFRAME).set .a1 1) rfl rfl rfl rfl rfl
  have hrun := ((Run.single hload).snoc hset).snoc hret
  have huser := (hrun.append (Cores.run_instrs (k := ()) Cores.rest_put)).snoc
    (Cores.Step.sret (k := ()) (p := ()) (by rw [Cores.job_put, Cores.job_put]) Cores.rest_put)
  have htrap := huser.snoc (Cores.Step.trap (k := ()) (p := ()) Cores.job_put)
  exact ⟨_, _, htrap.append (Cores.run_instrs (k := ()) Cores.rest_put),
    by rw [Cores.job_put, Cores.job_put], Cores.rest_put⟩

theorem users_refined_sample : ∃ (ls : List (Option (Act Unit))) (x : Cores Unit Unit),
    x.job () = .vec () ∧
    ∃ own, Run Owns (fun p => described sampleCores.mem (sampleSpaces.frame p))
    ls.reduceOption own ∧
      (∀ k p, x.job k = .user p → seen (x.hart k) = own p) ∧
      (∀ p, (∀ k, ¬(x.job k).On p) → described x.mem (sampleSpaces.frame p) = own p) ∧
      ∀ k p, x.job k = .vec p → x.rest k = [] → Entered sampleSpaces k (x.hart k) := by
  obtain ⟨ls, x, hrun, hjob, -⟩ := sample_trap
  exact ⟨ls, x, hjob, users_refined ⟨fun _ => rfl, fun _ => rfl, fun _ => rfl, fun _ => rfl,
    fun _ => rfl⟩ hrun⟩

end CoroCore.Trap.User
