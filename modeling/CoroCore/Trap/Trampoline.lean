import CoroCore.Lib.Riscv

/-!
# Between user and kernel

The trampoline (`src/os/trap/trampoline.S`) saves the registers of a user process in its trapframe
(`struct trapframe`, `src/os/trap/trap.h`) and loads them from it. It reaches the trapframe through
the page table of the process, where it is at `TRAPFRAME`.

* `userVec_expects`: what the trapframe and the registers hold when `user_trap` starts;
* `userRet_expects`: what the registers are when the process goes on.
-/

namespace CoroCore.Trap

open Lib Lib.Riscv

/-- `MAXVA - PGSIZE - TRAPFRAME_SIZE`. -/
def TRAPFRAME : Word := BitVec.ofNat 64 (2 ^ 38 - 2 * 4096)

/-- The registers in `struct trapframe` but `a0`. -/
def trapframeLayout : Layout :=
  [(.ra, 40), (.sp, 48), (.gp, 56), (.tp, 64), (.t0, 72), (.t1, 80), (.t2, 88),
    (.s0, 96), (.s1, 104), (.a1, 120), (.a2, 128), (.a3, 136), (.a4, 144), (.a5, 152), (.a6, 160),
    (.a7, 168), (.s2, 176), (.s3, 184), (.s4, 192), (.s5, 200), (.s6, 208), (.s7, 216), (.s8, 224),
    (.s9, 232), (.s10, 240), (.s11, 248), (.t3, 256), (.t4, 264), (.t5, 272), (.t6, 280)]

/-- The offsets of the other fields. -/
def kernelSatpOff : Nat := 0
def kernelSpOff : Nat := 8
def kernelTrapOff : Nat := 16
def epcOff : Nat := 24
def kernelHartidOff : Nat := 32
def a0Off : Nat := 112

/-- `sizeof(struct trapframe)`. -/
def trapframeSize : Nat := 288

def trapframeArea (pa : Nat) : Set Nat := Set.Ico pa (pa + trapframeSize)

/-- `user_vec`. -/
def userVec : List Instr :=
  [.csrrw .a0 .sscratch .a0, .sd .ra 40 .a0, .sd .sp 48 .a0, .sd .gp 56 .a0, .sd .tp 64 .a0,
    .sd .t0 72 .a0, .sd .t1 80 .a0, .sd .t2 88 .a0, .sd .s0 96 .a0, .sd .s1 104 .a0,
    .sd .a1 120 .a0, .sd .a2 128 .a0, .sd .a3 136 .a0, .sd .a4 144 .a0, .sd .a5 152 .a0,
    .sd .a6 160 .a0, .sd .a7 168 .a0, .sd .s2 176 .a0, .sd .s3 184 .a0, .sd .s4 192 .a0,
    .sd .s5 200 .a0, .sd .s6 208 .a0, .sd .s7 216 .a0, .sd .s8 224 .a0, .sd .s9 232 .a0,
    .sd .s10 240 .a0, .sd .s11 248 .a0, .sd .t3 256 .a0, .sd .t4 264 .a0, .sd .t5 272 .a0,
    .sd .t6 280 .a0, .csrr .t0 .sscratch, .sd .t0 112 .a0, .csrr .t1 .sepc, .sd .t1 24 .a0,
    .ld .sp 8 .a0, .ld .tp 32 .a0, .ld .t0 16 .a0, .ld .t1 0 .a0, .csrw .satp .t1,
    .sfenceVma, .jr .t0]

/-- `user_ret`. -/
def userRet : List Instr :=
  [.csrw .satp .a1, .sfenceVma, .ld .t0 112 .a0, .csrw .sscratch .t0, .ld .ra 40 .a0,
    .ld .sp 48 .a0, .ld .gp 56 .a0, .ld .tp 64 .a0, .ld .t0 72 .a0, .ld .t1 80 .a0, .ld .t2 88 .a0,
    .ld .s0 96 .a0, .ld .s1 104 .a0, .ld .a1 120 .a0, .ld .a2 128 .a0, .ld .a3 136 .a0,
    .ld .a4 144 .a0, .ld .a5 152 .a0, .ld .a6 160 .a0, .ld .a7 168 .a0, .ld .s2 176 .a0,
    .ld .s3 184 .a0, .ld .s4 192 .a0, .ld .s5 200 .a0, .ld .s6 208 .a0, .ld .s7 216 .a0,
    .ld .s8 224 .a0, .ld .s9 232 .a0, .ld .s10 240 .a0, .ld .s11 248 .a0, .ld .t3 256 .a0,
    .ld .t4 264 .a0, .ld .t5 272 .a0, .ld .t6 280 .a0, .csrrw .a0 .sscratch .a0, .sret]

/-- The trapframe at `pa` holds the registers `f` and the program counter `pc` of the process. -/
structure Shelf (pa : Nat) (f : Reg → Word) (pc : Word) (mem : Bytes) : Prop where
  saved : trapframeLayout.Saved mem pa f
  a0 : load mem (pa + a0Off) = f .a0
  epc : load mem (pa + epcOff) = pc

/-- The fields of the kernel: its page table, its stack, where to go, and the core. -/
structure KernelFields (satp sp trap hartid : Word) (pa : Nat) (mem : Bytes) : Prop where
  satp : load mem (pa + kernelSatpOff) = satp
  sp : load mem (pa + kernelSpOff) = sp
  trap : load mem (pa + kernelTrapOff) = trap
  hartid : load mem (pa + kernelHartidOff) = hartid

theorem trapframeLayout_fits : trapframeLayout.Fits trapframeSize := ⟨by decide, by decide⟩

theorem mem_trapframeLayout {r : Reg} (hr : r ≠ .a0) : ∃ p ∈ trapframeLayout, p.1 = r := by
  cases r with
  | a0 => exact absurd rfl hr
  | _ => decide

variable {T : Translation} {m : Machine} {pa : Nat} {f : Reg → Word}
    {pc satp sp trap hartid v w : Word}
  {mem mem' : Bytes}

theorem load_trapframe (hmem : ∀ a ∈ trapframeArea pa, mem' a = mem a) {off : Nat}
    (hoff : off + 8 ≤ trapframeSize) :
    load mem' (pa + off) = load mem (pa + off) :=
  load_congr fun k hk => hmem _ ⟨by omega, by omega⟩

theorem field_subset {off : Nat} (hoff : off + 8 ≤ trapframeSize) :
    Set.Ico (pa + off) (pa + off + 8) ⊆ trapframeArea pa := by
  rintro a ⟨hlow, hhigh⟩
  constructor <;> omega

theorem Shelf.congr (h : Shelf pa f pc mem) (hmem : ∀ a ∈ trapframeArea pa, mem' a = mem a) :
    Shelf pa f pc mem' :=
  ⟨h.saved.congr trapframeLayout_fits.inside hmem, (load_trapframe hmem (by decide)).trans h.a0,
    (load_trapframe hmem (by decide)).trans h.epc⟩

theorem KernelFields.congr (h : KernelFields satp sp trap hartid pa mem)
    (hmem : ∀ a ∈ trapframeArea pa, mem' a = mem a) : KernelFields satp sp trap hartid pa mem' :=
  ⟨(load_trapframe hmem (by decide)).trans h.satp, (load_trapframe hmem (by decide)).trans h.sp,
    (load_trapframe hmem (by decide)).trans h.trap,
    (load_trapframe hmem (by decide)).trans h.hartid⟩

theorem store_trapframe_other {off b : Nat} (hoff : off + 8 ≤ trapframeSize)
    (hb : b ∉ trapframeArea pa) :
    store mem (pa + off) w b = mem b :=
  store_other fun hin => hb (field_subset hoff hin)

/-- A doubleword that holds no register of the process. -/
theorem Shelf.store_field (h : Shelf pa f pc mem) {off : Nat}
    (hoff : off ∈ [kernelSatpOff, kernelSpOff, kernelTrapOff, kernelHartidOff]) :
    Shelf pa f pc (store mem (pa + off) w) := by
  have hlayout : ∀ off ∈ [kernelSatpOff, kernelSpOff, kernelTrapOff, kernelHartidOff],
      (∀ q ∈ trapframeLayout, off + 8 ≤ q.2) ∧ off + 8 ≤ a0Off ∧
        (epcOff + 8 ≤ off ∨ off + 8 ≤ epcOff) := by decide
  obtain ⟨hregs, ha0, hepc⟩ := hlayout off hoff
  refine ⟨fun q hq => ?_, ?_, ?_⟩
  · have hlow := hregs q hq
    exact (load_store_of_disjoint (by omega)).trans (h.saved q hq)
  · exact (load_store_of_disjoint (by omega)).trans h.a0
  · exact (load_store_of_disjoint (by omega)).trans h.epc

theorem Shelf.store_epc (h : Shelf pa f pc mem) :
    Shelf pa f w (store mem (pa + epcOff) w) := by
  have hlayout : ∀ q ∈ trapframeLayout, epcOff + 8 ≤ q.2 := by decide
  refine ⟨fun q hq => ?_, ?_, load_store⟩
  · have hlow := hlayout q hq
    exact (load_store_of_disjoint (by omega)).trans (h.saved q hq)
  · exact (load_store_of_disjoint (by simp only [a0Off, epcOff]; omega)).trans h.a0

theorem Shelf.store_a0 (h : Shelf pa f pc mem) :
    Shelf pa (Function.update f .a0 v) pc (store mem (pa + a0Off) v) := by
  have hlayout : ∀ q ∈ trapframeLayout, q.1 ≠ .a0 ∧ (a0Off + 8 ≤ q.2 ∨ q.2 + 8 ≤ a0Off) := by decide
  refine ⟨fun q hq => ?_, ?_, ?_⟩
  · obtain ⟨hne, hoff⟩ := hlayout q hq
    rw [Function.update_of_ne hne]
    exact (load_store_of_disjoint (by omega)).trans (h.saved q hq)
  · rw [Function.update_self]
    exact load_store
  · exact (load_store_of_disjoint (by simp only [a0Off, epcOff]; omega)).trans h.epc

/-- With `satp` the trapframe at `pa` is at `TRAPFRAME`. -/
def Maps (T : Translation) (satp : Word) (pa : Nat) : Prop :=
  ∀ off < trapframeSize, T satp (TRAPFRAME + BitVec.ofNat 64 off) = pa + off

theorem Maps.reaches {h : Hart} (hT : Maps T (h.csr .satp) pa) (ha0 : h.reg .a0 = TRAPFRAME) :
    h.Reaches T .a0 pa trapframeSize := by
  intro off hoff
  rw [Hart.addr, ha0]
  exact hT off hoff

/-- `user_vec` from where it saves `a0`. -/
def userVecTail : List Instr :=
  [.csrr .t0 .sscratch, .sd .t0 112 .a0, .csrr .t1 .sepc, .sd .t1 24 .a0, .ld .sp 8 .a0,
    .ld .tp 32 .a0, .ld .t0 16 .a0, .ld .t1 0 .a0, .csrw .satp .t1, .sfenceVma, .jr .t0]

theorem userVecTail_expects (hT : Maps T (m.hart.csr .satp) pa) (ha0 : m.hart.reg .a0 = TRAPFRAME)
    (hs : trapframeLayout.Saved m.mem pa f) (hf : m.hart.csr .sscratch = f .a0)
    (hpc : m.hart.csr .sepc = pc) (hk : KernelFields satp sp trap hartid pa m.mem) :
    Expects T (trapframeArea pa) userVecTail m fun m' =>
      Shelf pa f pc m'.mem ∧ m'.hart.reg .sp = sp ∧ m'.hart.reg .tp = hartid ∧
      m'.hart.csr .satp = satp ∧ m'.hart.pc = trap := by
  have haddr : ∀ off < trapframeSize, T (m.hart.csr .satp) (TRAPFRAME + BitVec.ofNat 64 off) =
      pa + off := hT
  have h112 := haddr 112 (by decide)
  have h24 := haddr 24 (by decide)
  have h8 := haddr 8 (by decide)
  have h32 := haddr 32 (by decide)
  have h16 := haddr 16 (by decide)
  have h0 : T (m.hart.csr .satp) TRAPFRAME = pa := by simpa using haddr 0 (by decide)
  obtain ⟨mem, hmem⟩ : ∃ mem, mem = store (store m.mem (pa + 112) (f .a0)) (pa + 24) pc := ⟨_, rfl⟩
  have hother : ∀ off, (off + 8 ≤ 112 ∨ 120 ≤ off) → (off + 8 ≤ 24 ∨ 32 ≤ off) →
      load mem (pa + off) = load m.mem (pa + off) := by
    intro off h1 h2
    rw [hmem, load_store_of_disjoint (by omega), load_store_of_disjoint (by omega)]
  have hlayout : ∀ p ∈ trapframeLayout, (p.2 + 8 ≤ 112 ∨ 120 ≤ p.2) ∧
      (p.2 + 8 ≤ 24 ∨ 32 ≤ p.2) := by decide
  have hshelf : Shelf pa f pc mem := by
    refine ⟨fun p hp => (hother p.2 (hlayout p hp).1 (hlayout p hp).2).trans (hs p hp), ?_, ?_⟩
    · rw [hmem, load_store_of_disjoint (by simp only [a0Off]; omega)]
      exact load_store
    · rw [hmem]
      exact load_store
  have hrun : (run T userVecTail m).mem = mem ∧ (run T userVecTail m).hart.reg .sp =
    load mem (pa + 8) ∧
      (run T userVecTail m).hart.reg .tp = load mem (pa + 32) ∧
      (run T userVecTail m).hart.csr .satp = load mem (pa + 0) ∧
      (run T userVecTail m).hart.pc = load mem (pa + 16) := by
    simp [userVecTail, run, exec, Hart.addr, Hart.set, Hart.setCsr, ha0, hf, hpc, h112, h24, h8,
      h32, h16, h0, ← hmem]
  have hwithin : Within T (trapframeArea pa) userVecTail m := by
    have hfield : ∀ off ∈ [112, 24, 8, 32, 16, 0],
        Set.Ico (pa + off) (pa + off + 8) ⊆ trapframeArea pa :=
      fun off hoff => field_subset
        ((by decide : ∀ off ∈ [112, 24, 8, 32, 16, 0], off + 8 ≤ trapframeSize) off hoff)
    simp only [List.forall_mem_cons, Nat.add_zero] at hfield
    simp [userVecTail, Within, exec, Instr.touches, Hart.addr, Hart.set, ha0, h112, h24,
      h8, h32, h16, h0, hfield]
  obtain ⟨hmem', hsp, htp, hsatp, htrap⟩ := hrun
  refine ⟨hwithin, hmem' ▸ hshelf, ?_, ?_, ?_, ?_⟩
  · exact hsp.trans ((hother 8 (by omega) (by omega)).trans hk.sp)
  · exact htp.trans ((hother 32 (by omega) (by omega)).trans hk.hartid)
  · exact hsatp.trans ((hother 0 (by omega) (by omega)).trans hk.satp)
  · exact htrap.trans ((hother 16 (by omega) (by omega)).trans hk.trap)

theorem userVec_expects (hT : Maps T (m.hart.csr .satp) pa) (hs : m.hart.csr .sscratch = TRAPFRAME)
    (hk : KernelFields satp sp trap hartid pa m.mem) :
    Expects T (trapframeArea pa) userVec m fun m' =>
      Shelf pa m.hart.reg (m.hart.csr .sepc) m'.mem ∧ m'.hart.reg .sp = sp ∧
      m'.hart.reg .tp = hartid ∧
      m'.hart.csr .satp = satp ∧ m'.hart.pc = trap := by
  have hsplit : userVec = .csrrw .a0 .sscratch .a0 :: (saves .a0 trapframeLayout ++ userVecTail) :=
    rfl
  obtain ⟨M, hM⟩ : ∃ M, M = exec T (.csrrw .a0 .sscratch .a0) m := ⟨_, rfl⟩
  have hMa0 : M.hart.reg .a0 = TRAPFRAME := by
    rw [hM, ← hs]
    simp [exec]
  have hMsatp : M.hart.csr .satp = m.hart.csr .satp := by
    rw [hM]
    simp [exec]
  have hMsepc : M.hart.csr .sepc = m.hart.csr .sepc := by
    rw [hM]
    simp [exec]
  have hMsscratch : M.hart.csr .sscratch = m.hart.reg .a0 := by
    rw [hM]
    simp [exec]
  have hMmem : M.mem = m.mem := by rw [hM, exec]
  have hMreg : ∀ r ≠ .a0, M.hart.reg r = m.hart.reg r := by
    intro r hr
    rw [hM]
    simp [exec, hr]
  have hne : ∀ p ∈ trapframeLayout, p.1 ≠ .a0 := by decide
  have hr : M.hart.Reaches T .a0 pa trapframeSize := Maps.reaches (hMsatp ▸ hT) hMa0
  have hhart : (run T (saves .a0 trapframeLayout) M).hart = M.hart := run_saves_hart
  have hsaved := run_saves hr trapframeLayout_fits
  have hfield : ∀ off, (∀ p ∈ trapframeLayout, p.2 + 8 ≤ off ∨ off + 8 ≤ p.2) →
      load (run T (saves .a0 trapframeLayout) M).mem (pa + off) = load m.mem (pa + off) :=
        fun off hoff =>
    (load_run_saves hr trapframeLayout_fits.inside hoff).trans (by rw [hMmem])
  have hpc : (run T (saves .a0 trapframeLayout) M).hart.csr .sepc = m.hart.csr .sepc := by
    rw [hhart, hMsepc]
  have htail := userVecTail_expects (T := T) (m := run T (saves .a0 trapframeLayout) M)
    (f := m.hart.reg)
    (by rw [hhart, hMsatp]; exact hT) (by rw [hhart]; exact hMa0)
    (fun p hp => (hsaved p hp).trans (hMreg _ (hne p hp))) (by rw [hhart]; exact hMsscratch) hpc
    ⟨(hfield kernelSatpOff (by decide)).trans hk.satp, (hfield kernelSpOff (by decide)).trans hk.sp,
      (hfield kernelTrapOff (by decide)).trans hk.trap,
      (hfield kernelHartidOff (by decide)).trans hk.hartid⟩
  rw [hsplit]
  refine ⟨⟨Set.empty_subset _, ?_⟩, ?_⟩
  · rw [← hM]
    exact within_append.mpr ⟨within_saves hr trapframeLayout_fits.inside, htail.within⟩
  · rw [run, ← hM, run_append]
    exact htail.post

theorem userRet_expects (hT : Maps T (m.hart.reg .a1) pa) (ha0 : m.hart.reg .a0 = TRAPFRAME)
    (hs : Shelf pa f pc m.mem) (hpc : m.hart.csr .sepc = pc) :
    Expects T (trapframeArea pa) userRet m fun m' =>
      m'.mem = m.mem ∧ m'.hart.reg = f ∧ m'.hart.pc = pc ∧ m'.hart.csr .sscratch = TRAPFRAME ∧
      m'.hart.csr .satp = m.hart.reg .a1 := by
  have hsplit : userRet = [.csrw .satp .a1, .sfenceVma, .ld .t0 112 .a0, .csrw .sscratch .t0] ++
    (loads .a0 trapframeLayout ++ [.csrrw .a0 .sscratch .a0, .sret]) := rfl
  have haddr : T (m.hart.reg .a1) (TRAPFRAME + BitVec.ofNat 64 112) = pa + 112 := hT 112 (by decide)
  have hhead : run T [.csrw .satp .a1, .sfenceVma, .ld .t0 112 .a0, .csrw .sscratch .t0] m =
      ⟨⟨Function.update m.hart.reg .t0 (f .a0),
        Function.update (Function.update m.hart.csr .satp (m.hart.reg .a1)) .sscratch (f .a0),
          m.hart.pc⟩, m.mem⟩ := by
    simp only [run, exec, Hart.addr, Hart.set, Hart.setCsr, Function.update_self, ha0, haddr]
    rw [show load m.mem (pa + 112) = f .a0 from hs.a0]
  have hwithin : Within T (trapframeArea pa) [.csrw .satp .a1, .sfenceVma, .ld .t0 112 .a0,
      .csrw .sscratch .t0] m := by
    refine ⟨Set.empty_subset _, Set.empty_subset _, ?_, Set.empty_subset _, trivial⟩
    simp only [exec, Instr.touches, Hart.addr, Hart.setCsr, Function.update_self, ha0, haddr]
    exact field_subset (by decide)
  obtain ⟨M, hM⟩ : ∃ M,
    M = run T [.csrw .satp .a1, .sfenceVma, .ld .t0 112 .a0, .csrw .sscratch .t0] m := ⟨_, rfl⟩
  rw [hhead] at hM
  have hMa0 : M.hart.reg .a0 = TRAPFRAME := by
    rw [hM]
    simpa using ha0
  have hr : M.hart.Reaches T .a0 pa trapframeSize := by
    refine Maps.reaches ?_ hMa0
    rw [hM]
    simpa using hT
  have hMmem : M.mem = m.mem := by rw [hM]
  obtain ⟨hwithin', hloaded⟩ := run_loads hr trapframeLayout_fits.inside (by decide)
    fun p hp heq => absurd heq ((by decide : ∀ p ∈ trapframeLayout, p.1 ≠ .a0) p hp)
  rw [hsplit]
  refine ⟨within_append.mpr ⟨hwithin, ?_⟩, ?_⟩
  · rw [hhead, ← hM]
    exact within_append.mpr ⟨hwithin', Set.empty_subset _, Set.empty_subset _, trivial⟩
  rw [run_append, hhead, ← hM, run_append]
  have hmem : (run T (loads .a0 trapframeLayout) M).mem = M.mem := run_loads_mem
  have hcsr : (run T (loads .a0 trapframeLayout) M).hart.csr = M.hart.csr := run_loads_csr
  have ha0' : (run T (loads .a0 trapframeLayout) M).hart.reg .a0 = M.hart.reg .a0 :=
    run_loads_other (by decide)
  obtain ⟨N, hN⟩ : ∃ N, N = run T (loads .a0 trapframeLayout) M := ⟨_, rfl⟩
  rw [← hN] at hloaded hmem hcsr ha0' ⊢
  simp only [run, exec, Hart.reg_set, Hart.csr_set, Hart.reg_setCsr, Hart.csr_setCsr]
  have hsscratch : N.hart.csr .sscratch = f .a0 := by
    rw [hcsr, hM]
    simp
  refine ⟨hmem.trans hMmem, funext fun r => ?_, ?_, ?_, ?_⟩
  · rcases eq_or_ne r .a0 with rfl | hr
    · rw [Function.update_self, hsscratch]
    · obtain ⟨p, hp, rfl⟩ := mem_trapframeLayout hr
      rw [Function.update_of_ne hr, hloaded p hp, hMmem, hs.saved p hp]
  · rw [Function.update_of_ne (by decide), hcsr, hM, ← hpc]
    simp
  · rw [Function.update_self, ha0', hMa0]
  · rw [Function.update_of_ne (by decide), hcsr, hM]
    simp

end CoroCore.Trap
