import CoroCore.Trap.Switch

/-!
# Interrupts in the kernel

`kernel_vec` (`src/os/trap/kernelvec.S`) puts the registers in a frame below the stack pointer,
calls `kernel_trap`, loads them again and returns with `sret`. It leaves `tp` out, since the thread
may come back on another core.

* `kernelVec_expects`: what the frame holds when `kernel_trap` is called;
* `kernelRet_expects`: what the registers are when the interrupted code goes on.
-/

namespace CoroCore.Trap

open Lib Lib.Riscv

/-- The registers in the frame. -/
def frameLayout : Layout :=
  [(.ra, 0), (.sp, 8), (.gp, 16), (.t0, 32), (.t1, 40), (.t2, 48), (.s0, 56), (.s1, 64), (.a0, 72),
    (.a1, 80), (.a2, 88), (.a3, 96), (.a4, 104), (.a5, 112), (.a6, 120), (.a7, 128), (.s2, 136),
    (.s3, 144), (.s4, 152), (.s5, 160), (.s6, 168), (.s7, 176), (.s8, 184), (.s9, 192), (.s10, 200),
    (.s11, 208), (.t3, 216), (.t4, 224), (.t5, 232), (.t6, 240)]

def frameSize : Nat := 256

/-- `kernel_vec` up to the call of `kernel_trap`. -/
def kernelVec : List Instr :=
  [.addi .sp .sp (-256), .sd .ra 0 .sp, .sd .sp 8 .sp, .sd .gp 16 .sp, .sd .t0 32 .sp,
    .sd .t1 40 .sp, .sd .t2 48 .sp, .sd .s0 56 .sp, .sd .s1 64 .sp, .sd .a0 72 .sp, .sd .a1 80 .sp,
    .sd .a2 88 .sp, .sd .a3 96 .sp, .sd .a4 104 .sp, .sd .a5 112 .sp, .sd .a6 120 .sp,
    .sd .a7 128 .sp, .sd .s2 136 .sp, .sd .s3 144 .sp, .sd .s4 152 .sp, .sd .s5 160 .sp,
    .sd .s6 168 .sp, .sd .s7 176 .sp, .sd .s8 184 .sp, .sd .s9 192 .sp, .sd .s10 200 .sp,
    .sd .s11 208 .sp, .sd .t3 216 .sp, .sd .t4 224 .sp, .sd .t5 232 .sp, .sd .t6 240 .sp,
    .mv .a0 .sp, .mv .a1 .s0]

/-- `kernel_ret`. -/
def kernelRet : List Instr :=
  [.ld .ra 0 .sp, .ld .sp 8 .sp, .ld .gp 16 .sp, .ld .t0 32 .sp, .ld .t1 40 .sp, .ld .t2 48 .sp,
    .ld .s0 56 .sp, .ld .s1 64 .sp, .ld .a0 72 .sp, .ld .a1 80 .sp, .ld .a2 88 .sp, .ld .a3 96 .sp,
    .ld .a4 104 .sp, .ld .a5 112 .sp, .ld .a6 120 .sp, .ld .a7 128 .sp, .ld .s2 136 .sp,
    .ld .s3 144 .sp, .ld .s4 152 .sp, .ld .s5 160 .sp, .ld .s6 168 .sp, .ld .s7 176 .sp,
    .ld .s8 184 .sp, .ld .s9 192 .sp, .ld .s10 200 .sp, .ld .s11 208 .sp, .ld .t3 216 .sp,
    .ld .t4 224 .sp, .ld .t5 232 .sp, .ld .t6 240 .sp, .addi .sp .sp 256, .sret]

def frameArea (frame : Nat) : Set Nat := Set.Ico frame (frame + frameSize)

/-- The frame holds the registers `f` of the interrupted code. For `sp` it has its own address. -/
structure Framed (frame : Nat) (f : Reg → Word) (mem : Bytes) : Prop where
  saved : frameLayout.Saved mem frame (Function.update f .sp (BitVec.ofNat 64 frame))
  sp : f .sp = BitVec.ofNat 64 frame + BitVec.ofNat 64 frameSize

theorem frameLayout_fits : frameLayout.Fits frameSize := ⟨by decide, by decide⟩

/-- `tp` is the only register that the frame leaves out. -/
theorem mem_frameLayout {r : Reg} (hr : r ≠ .tp) : ∃ p ∈ frameLayout, p.1 = r := by
  cases r with
  | tp => exact absurd rfl hr
  | _ => decide

variable {m : Machine} {frame : Nat} {f : Reg → Word} {mem mem' : Bytes}

theorem Framed.congr (h : Framed frame f mem) (hmem : ∀ a ∈ frameArea frame, mem' a = mem a) :
    Framed frame f mem' :=
  ⟨h.saved.congr frameLayout_fits.inside hmem, h.sp⟩

/-- The frame says nothing about `tp`. -/
theorem Framed.of_same {g : Reg → Word} (h : Framed frame f mem) (hg : ∀ r ≠ .tp, g r = f r) :
    Framed frame g mem := by
  refine ⟨fun p hp => (h.saved p hp).trans ?_, (hg .sp (by decide)).trans h.sp⟩
  have htp : p.1 ≠ .tp := (by decide : ∀ p ∈ frameLayout, p.1 ≠ .tp) p hp
  rcases eq_or_ne p.1 .sp with heq | hne
  · rw [heq, Function.update_self, Function.update_self]
  · rw [Function.update_of_ne hne, Function.update_of_ne hne, hg _ htp]

theorem kernelVec_expects (hsp : m.hart.reg .sp = BitVec.ofNat 64 frame + BitVec.ofNat 64 frameSize)
    (hframe : frame + frameSize ≤ 2 ^ 64) : Expects direct (frameArea frame) kernelVec m fun m' =>
      Framed frame m.hart.reg m'.mem ∧ m'.hart.reg .sp = BitVec.ofNat 64 frame ∧
      m'.hart.reg .tp = m.hart.reg .tp ∧ m'.hart.csr = m.hart.csr := by
  have hsplit : kernelVec =
      .addi .sp .sp (-256) :: (saves .sp frameLayout ++ [.mv .a0 .sp, .mv .a1 .s0]) := rfl
  have hdown : m.hart.reg .sp + BitVec.ofInt 64 (-256) = BitVec.ofNat 64 frame := by
    rw [hsp, BitVec.add_assoc, show BitVec.ofNat 64 frameSize + BitVec.ofInt 64 (-256) =
      0#64 by decide, BitVec.add_zero]
  obtain ⟨M, hM⟩ : ∃ M, M = exec direct (.addi .sp .sp (-256)) m := ⟨_, rfl⟩
  have hreg : M.hart.reg = Function.update m.hart.reg .sp (BitVec.ofNat 64 frame) := by
    rw [hM, ← hdown]
    rfl
  have hMsp : M.hart.reg .sp = BitVec.ofNat 64 frame := by rw [hreg, Function.update_self]
  have hr := reaches_direct hMsp hframe
  have hwithin := within_saves hr frameLayout_fits.inside
  have hsaved := run_saves hr frameLayout_fits
  have hhart : (run direct (saves .sp frameLayout) M).hart = M.hart := run_saves_hart
  have hcsr : M.hart.csr = m.hart.csr := by rw [hM]; rfl
  rw [hsplit]
  refine ⟨⟨Set.empty_subset _, ?_⟩, ?_⟩
  · rw [← hM]
    exact within_append.mpr ⟨hwithin, Set.empty_subset _, Set.empty_subset _, trivial⟩
  rw [run, ← hM, run_append]
  obtain ⟨N, hN⟩ : ∃ N, N = run direct (saves .sp frameLayout) M := ⟨_, rfl⟩
  rw [← hN] at hsaved hhart ⊢
  simp only [run, exec, Hart.reg_set, Hart.csr_set]
  refine ⟨⟨hreg ▸ hsaved, hsp⟩, ?_, ?_, ?_⟩
  · rw [Function.update_of_ne (by decide), Function.update_of_ne (by decide), hhart, hMsp]
  · rw [Function.update_of_ne (by decide), Function.update_of_ne (by decide), hhart, hreg,
      Function.update_of_ne (by decide)]
  · rw [hhart, hcsr]

theorem kernelRet_expects (hsp : m.hart.reg .sp = BitVec.ofNat 64 frame)
    (hframe : frame + frameSize ≤ 2 ^ 64) (hf : Framed frame f m.mem) :
    Expects direct (frameArea frame) kernelRet m fun m' =>
      (∀ r ≠ .tp, m'.hart.reg r = f r) ∧ m'.hart.pc = m.hart.csr .sepc ∧
      m'.hart.reg .tp = m.hart.reg .tp := by
  have hsplit : kernelRet = loads .sp frameLayout ++ [.addi .sp .sp 256, .sret] := rfl
  have hr := reaches_direct hsp hframe
  obtain ⟨hwithin, hloaded⟩ := run_loads hr frameLayout_fits.inside (by decide) fun p hp heq => by
    rw [hf.saved p hp, heq, Function.update_self, hsp]
  have hcsr : (run direct (loads .sp frameLayout) m).hart.csr = m.hart.csr := run_loads_csr
  have htp : (run direct (loads .sp frameLayout) m).hart.reg .tp = m.hart.reg .tp :=
    run_loads_other (by decide)
  rw [hsplit]
  refine ⟨within_append.mpr ⟨hwithin, Set.empty_subset _, Set.empty_subset _, trivial⟩, ?_⟩
  rw [run_append]
  obtain ⟨M, hrun⟩ : ∃ M, M = run direct (loads .sp frameLayout) m := ⟨_, rfl⟩
  rw [← hrun] at hloaded hcsr htp ⊢
  have hM : ∀ r ≠ .tp, M.hart.reg r = Function.update f .sp (BitVec.ofNat 64 frame) r := by
    intro r hr
    obtain ⟨p, hp, rfl⟩ := mem_frameLayout hr
    exact (hloaded p hp).trans (hf.saved p hp)
  simp only [run, exec, Hart.reg_set, Hart.csr_set]
  refine ⟨fun r hr => ?_, congrFun hcsr _, (Function.update_of_ne (by decide) _ _).trans htp⟩
  rcases eq_or_ne r .sp with rfl | hsp
  · rw [Function.update_self, hM _ hr, Function.update_self, hf.sp]
    congr 1
  · rw [Function.update_of_ne hsp, hM r hr, Function.update_of_ne hsp]

end CoroCore.Trap
