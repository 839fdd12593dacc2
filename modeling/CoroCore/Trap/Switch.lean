import CoroCore.Lib.Riscv

/-!
# Switching contexts

`swtch` (`src/os/trap/switch.S`) saves the callee-saved registers in one `struct context`
(`src/os/arch/cpu.h`) and loads them from another. It runs on the kernel page table, which maps the
memory of the kernel to itself.

* `Switching.save`: with an old context, both halves of it;
* `Switching.load`: without one, only the second.
-/

namespace CoroCore.Trap

open Lib Lib.Riscv

/-- The kernel page table. -/
def direct : Translation := fun _ va => va.toNat

/-- `struct context`, up to `a0`. -/
def contextLayout : Layout :=
  [(.ra, 0), (.sp, 8), (.s0, 16), (.s1, 24), (.s2, 32), (.s3, 40), (.s4, 48), (.s5, 56), (.s6, 64),
    (.s7, 72), (.s8, 80), (.s9, 88), (.s10, 96), (.s11, 104)]

/-- The offset of `context::a0`. -/
def contextA0 : Nat := 112

/-- `sizeof(struct context)`. -/
def contextSize : Nat := 120

/-- `swtch` from its second instruction up to `_load`. -/
def swtchSave : List Instr :=
  [.sd .ra 0 .a0, .sd .sp 8 .a0, .sd .s0 16 .a0, .sd .s1 24 .a0, .sd .s2 32 .a0, .sd .s3 40 .a0,
    .sd .s4 48 .a0, .sd .s5 56 .a0, .sd .s6 64 .a0, .sd .s7 72 .a0, .sd .s8 80 .a0, .sd .s9 88 .a0,
    .sd .s10 96 .a0, .sd .s11 104 .a0]

/-- `swtch` from `_load` on. -/
def swtchLoad : List Instr :=
  [.ld .ra 0 .a1, .ld .sp 8 .a1, .ld .s0 16 .a1, .ld .s1 24 .a1, .ld .s2 32 .a1, .ld .s3 40 .a1,
    .ld .s4 48 .a1, .ld .s5 56 .a1, .ld .s6 64 .a1, .ld .s7 72 .a1, .ld .s8 80 .a1, .ld .s9 88 .a1,
    .ld .s10 96 .a1, .ld .s11 104 .a1, .ld .a0 112 .a1, .mv .a1 .sp, .ret]

/-- `swtch(old, new)`. Its first instruction skips to `_load` if `old` is null. -/
def swtch (h : Hart) : List Instr := if h.reg .a0 = 0 then swtchLoad else swtchSave ++ swtchLoad

/-- The memory of the context at `c`. -/
def contextArea (c : Nat) : Set Nat := Set.Ico c (c + contextSize)

theorem contextLayout_fits : contextLayout.Fits contextSize := ⟨by decide, by decide⟩

theorem tp_not_mem_contextLayout : Reg.tp ∉ contextLayout.map Prod.fst := by decide

variable {m : Machine} {h : Hart} {b : Reg} {a n c old new : Nat} {g : Reg → Word}

theorem reaches_direct (hb : h.reg b = BitVec.ofNat 64 a) (ha : a + n ≤ 2 ^ 64) :
    h.Reaches direct b a n := by
  intro off hoff
  rw [Hart.addr, direct, hb, ← BitVec.ofNat_add, BitVec.toNat_ofNat, Nat.mod_eq_of_lt (by omega)]

/-- The hart came from `h` by loading `g` from the context at `c`, and went on where `g` was
called. -/
structure Resumed (g : Reg → Word) (a0 : Word) (h h' : Hart) : Prop where
  reg : ∀ p ∈ contextLayout, h'.reg p.1 = g p.1
  a0 : h'.reg .a0 = a0
  a1 : h'.reg .a1 = g .sp
  pc : h'.pc = g .ra
  tp : h'.reg .tp = h.reg .tp
  csr : h'.csr = h.csr

theorem Switching.load (ha1 : m.hart.reg .a1 = BitVec.ofNat 64 new)
    (hnew : new + contextSize ≤ 2 ^ 64) (hg : contextLayout.Saved m.mem new g) :
    Expects direct (contextArea new) swtchLoad m fun m' =>
      m'.mem = m.mem ∧ Resumed g (Riscv.load m.mem (new + contextA0)) m.hart m'.hart := by
  have hsplit : swtchLoad = loads .a1 (contextLayout ++ [(.a0, contextA0)]) ++
      [.mv .a1 .sp, .ret] := rfl
  have hr := reaches_direct ha1 hnew
  obtain ⟨hwithin, hloaded⟩ :=
    run_loads hr (L := contextLayout ++ [(.a0, contextA0)]) (by decide) (by decide)
    fun p hp heq => absurd heq (by revert p; decide)
  have hkeep : ∀ p ∈ contextLayout, p.1 ≠ .a1 := by decide
  have hmem : (run direct (loads .a1 (contextLayout ++ [(.a0, contextA0)])) m).mem = m.mem :=
    run_loads_mem
  have hcsr : (run direct (loads .a1 (contextLayout ++ [(.a0, contextA0)])) m).hart.csr =
      m.hart.csr :=
    run_loads_csr
  have htp : (run direct (loads .a1 (contextLayout ++ [(.a0, contextA0)])) m).hart.reg .tp =
      m.hart.reg .tp :=
    run_loads_other (by decide)
  rw [hsplit]
  refine ⟨within_append.mpr ⟨hwithin, Set.empty_subset _, Set.empty_subset _, trivial⟩, ?_⟩
  rw [run_append]
  obtain ⟨M, hrun⟩ : ∃ M, M = run direct (loads .a1 (contextLayout ++ [(.a0, contextA0)])) m :=
    ⟨_, rfl⟩
  rw [← hrun] at hloaded hmem hcsr htp ⊢
  have hreg : ∀ p ∈ contextLayout, M.hart.reg p.1 = g p.1 :=
    fun p hp => (hloaded p (List.mem_append_left _ hp)).trans (hg p hp)
  simp only [run, exec, Hart.reg_set, Hart.csr_set]
  have hne : ∀ r ≠ .a1, Function.update M.hart.reg .a1 (M.hart.reg .sp) r = M.hart.reg r :=
    fun r hr => Function.update_of_ne hr _ _
  refine ⟨hmem, fun p hp => (hne _ (hkeep p hp)).trans (hreg p hp), ?_, ?_, ?_, ?_, hcsr⟩
  · exact (hne .a0 (by decide)).trans (hloaded (.a0, contextA0) (by decide))
  · exact (Function.update_self Reg.a1 _ M.hart.reg).trans (hreg (.sp, 8) (by decide))
  · exact (hne .ra (by decide)).trans (hreg (.ra, 0) (by decide))
  · exact (hne .tp (by decide)).trans htp

theorem Switching.save (ha0 : m.hart.reg .a0 = BitVec.ofNat 64 old)
    (ha1 : m.hart.reg .a1 = BitVec.ofNat 64 new) (hold : old + contextSize ≤ 2 ^ 64)
    (hnew : new + contextSize ≤ 2 ^ 64) (hapart : Disjoint (contextArea old) (contextArea new))
    (hg : contextLayout.Saved m.mem new g) :
    Expects direct (contextArea old ∪ contextArea new) (swtchSave ++ swtchLoad) m fun m' =>
      contextLayout.Saved m'.mem old m.hart.reg ∧
      Resumed g (Riscv.load m.mem (new + contextA0)) m.hart m'.hart := by
  have hr := reaches_direct ha0 hold
  have hfits := contextLayout_fits
  have hwithin : Within direct (contextArea old) swtchSave m := within_saves hr hfits.inside
  have hother : ∀ x ∈ contextArea new, (run direct swtchSave m).mem x = m.mem x :=
    fun x hx => hwithin.run_other (Set.disjoint_right.mp hapart hx)
  have hhart : (run direct swtchSave m).hart = m.hart := run_saves_hart (L := contextLayout)
  have hload := Switching.load (m := run direct swtchSave m) (by rw [hhart]; exact ha1) hnew
    (hg.congr hfits.inside hother)
  refine ⟨within_append.mpr
    ⟨hwithin.mono Set.subset_union_left, hload.within.mono Set.subset_union_right⟩, ?_⟩
  rw [run_append]
  obtain ⟨hmem, hresumed⟩ := hload.post
  have ha0 : Riscv.load (run direct swtchSave m).mem (new + contextA0) =
      Riscv.load m.mem (new + contextA0) :=
    load_congr fun k hk => hother _ ⟨by omega, by simp only [contextA0, contextSize]; omega⟩
  rw [ha0, hhart] at hresumed
  refine ⟨?_, hresumed⟩
  rw [hmem]
  exact run_saves hr hfits

theorem swtch_some (ha0 : h.reg .a0 = BitVec.ofNat 64 c) (hpos : 0 < c)
    (hc : c + contextSize ≤ 2 ^ 64) :
    swtch h = swtchSave ++ swtchLoad := by
  refine if_neg fun hzero => ?_
  rw [ha0] at hzero
  have hnat : c % 2 ^ 64 = 0 := by
    rw [← BitVec.toNat_ofNat, hzero]
    rfl
  rw [Nat.mod_eq_of_lt (by simp only [contextSize] at hc; omega)] at hnat
  exact absurd hnat (Nat.ne_of_gt hpos)

theorem swtch_none (ha0 : h.reg .a0 = BitVec.ofNat 64 0) : swtch h = swtchLoad := if_pos ha0

end CoroCore.Trap
