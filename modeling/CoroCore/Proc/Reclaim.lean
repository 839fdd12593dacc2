import CoroCore.Proc.Elf
import CoroCore.Proc.Ownership

/-!
# Does a process give its memory back?

A process is constructed, loads an image with `test_load_elf` and is destroyed. A segment without
pages is recorded in a form that cannot be unmapped, one that shares a page with an earlier one ends
in a panic of `mappages`, and a record for which the heap has no node costs a page.

* `copyout_spec`: `copyout` reads up to the first page that it cannot write;
* `loadSegments_spec`, `loadElf_spec`: how loading ends, by induction over the program headers;
* `construct_spec`: the constructor;
* `gives_back_iff`: the free pages in the end are those from before the construction if and only if
  the image is sound.
-/

namespace CoroCore.User

open Lib Vmem

variable {F : Set Nat} {root n pa perm : Nat} {s s' : Vm} {held : List Nat} {m m' : PageMap}
  {p q : UserMem} {room : Nat} {info : MmapInfo} {start size : Nat} {ph : ProgramHeader}
  {α β : Type}

theorem Extends.bind {r : Res α} {f : α → UserMem → Res β} (h : Extends p r.mem)
    (hf : ∀ a q, Extends q (f a q).mem) : Extends p (r.bind f).mem := by
  cases r with
  | ok a q => exact h.trans (hf a q)
  | panic e q => exact h

/-- A failed allocation is not forgotten. -/
theorem oom_bind {r : Res α} {f : α → UserMem → Res β} (h : r.mem.oom = true)
    (hf : ∀ a q, q.oom = true → (f a q).mem.oom = true) : (r.bind f).mem.oom = true := by
  cases r with
  | ok a q => exact hf a q h
  | panic e q => exact h

/-- Neither are records. -/
theorem infos_bind {r : Res α} {f : α → UserMem → Res β} (h : info ∈ r.mem.infos)
    (hf : ∀ a q, Extends q (f a q).mem) : info ∈ (r.bind f).mem.infos :=
  ((Extends.refl r.mem).bind hf).infos info h

/-! ## `__mmap` of a segment -/

/-- How `__mmap` of a range of whole pages ends. -/
inductive Mmapped (F : Set Nat) (room : Nat) (p : UserMem) (info : MmapInfo) : Res Int → Prop
  | oom {r : Res Int} : r.mem.oom = true → Mmapped F room p info r
  | remap {e : Panic} {q : UserMem} {b : MmapInfo} {j : Nat} : b ∈ p.infos → b.Has j → info.Has j →
      Mmapped F room p info (.panic e q)
  | mapped {q : UserMem} : (∀ b ∈ p.infos, ∀ j, b.Has j → ¬ info.Has j) → Intact F room [] q →
      q.infos = p.infos ++ [info] → Mmapped F room p info (.ok 0 q)

/-- The range does not wrap, and the loop goes through its pages. -/
theorem mmap_count {k : Nat} (hend : n + k ≤ trampolinePage) :
    ((n * pgSize + k * pgSize) % 2 ^ 64 - n * pgSize + (pgSize - 1)) / pgSize = k := by
  simp only [trampolinePage, trampolineVa, maxVa, pgSize] at *
  omega

theorem mmap_spec {va k : Nat} (h : Intact F room [] p) (hva : va = n * pgSize)
    (hsize : size = k * pgSize) (hk : 1 ≤ k) (hend : n + k ≤ trampolinePage)
    (hperm : HasFlag perm) (hlt : perm < 1024) :
    Mmapped F room p ⟨va, size, mapUser, perm⟩ (UserMem.mmap va size mapUser perm p) := by
  obtain ⟨m, howns, hrec⟩ := h.map
  subst hva hsize
  have hhas : ∀ j, (MmapInfo.mk (n * pgSize) (k * pgSize) mapUser perm).Has j ↔
      n ≤ j ∧ j < n + k := by
    intro j
    simp only [MmapInfo.Has, pgSize]
    omega
  rw [UserMem.mmap, mmap_count hend]
  rcases mmapLoop_spec hperm hlt k n p m howns h.free hend with
    ho | ⟨⟨e, q, hq⟩, j, h1, h2, hj⟩ | ⟨q, m', hq, hnone, hmaps, howns', hfree, hsame, -⟩
  · exact .oom (oom_bind ho fun r q =>
      (mmapEnd_adds (N := fun _ => True) _ _ _ _ r).oom)
  · rw [hq]
    obtain ⟨b, hb, hbj⟩ := (hrec.mapped j).mp hj
    exact .remap hb hbj ((hhas j).mpr ⟨h1, h2⟩)
  · rw [hq]
    have hnew : ∀ b ∈ p.infos, ∀ j, b.Has j → ¬ (n ≤ j ∧ j < n + k) := fun b hb j hbj hj =>
      (hrec.mapped j).mpr ⟨b, hb, hbj⟩ (hnone j hj.1 hj.2)
    have hne : ∀ j, n ≤ j ∧ j < n + k → j ≠ trampolinePage := fun j hj => by omega
    have huser : ¬ (mapUser &&& mapShared ≠ 0) := by decide
    have hrec' : Recorded (p.infos ++ [⟨n * pgSize, k * pgSize, mapUser, perm⟩]) m' := hrec.snoc
      ⟨Nat.mul_mod_left n pgSize, Nat.mul_mod_left k pgSize, by simp only [pgSize]; omega, by
        simp only [trampolinePage, trampolineVa, maxVa, pgSize] at *
        omega⟩
      (fun j hj => hnone j ((hhas j).mp hj).1 ((hhas j).mp hj).2)
      (fun j hj => hmaps.new j ((hhas j).mp hj).1 ((hhas j).mp hj).2)
      (fun j hj => hmaps.old j fun h => hj ((hhas j).mpr h))
      (fun j hj => iff_of_false huser (hne j ((hhas j).mp hj)))
      (fun hj => absurd rfl (hne _ ((hhas _).mp hj)))
    rw [← hsame.infos] at hrec'
    have hheld := h.held
    have hnodes := h.nodes
    rw [← hsame.heap, ← hsame.infos, ← hsame.room] at hnodes
    rw [← hsame.heap] at hheld
    rcases pushBack_spec howns' hrec' hfree hheld hnodes with
      ho | ⟨hintact, hinfos⟩
    · exact .oom ho
    · refine .mapped (fun b hb j hbj hj => hnew b hb j hbj ((hhas j).mp hj)) hintact ?_
      rw [← hsame.infos]
      exact hinfos

/-! ## Records that cannot be unmapped -/

/-- The loop of `uvmunmap` does not come to an end at a page that it never reaches. -/
theorem unmapLoop_not_ok {last : Nat} {doFree : Bool} : ∀ (fuel a : Nat) (s : Vm),
    (∀ i < fuel, a + i * pgSize ≠ last) → unmapLoop root last doFree fuel a s ≠ .ok s'
  | 0, _, _, _ => nofun
  | fuel + 1, a, s, hlast => by
    intro hok
    rw [unmapLoop] at hok
    obtain ⟨⟨r, s1⟩, -, hok⟩ := bind_ok hok
    cases r with
    | none => cases hok
    | some xi =>
      simp only at hok
      split at hok
      · cases hok
      · split at hok
        · cases hok
        · obtain ⟨s2, -, hok⟩ := bind_ok hok
          have hne : a ≠ last := by
            have := hlast 0 (Nat.succ_pos fuel)
            rwa [Nat.zero_mul, Nat.add_zero] at this
          rw [if_neg hne] at hok
          refine unmapLoop_not_ok fuel (a + pgSize) _ (fun i hi => ?_) hok
          have := hlast (i + 1) (Nat.succ_lt_succ hi)
          rwa [Nat.succ_mul, Nat.add_comm (i * pgSize), ← Nat.add_assoc] at this

/-- The end of the record, in 64 bits, is not after its start. -/
def MmapInfo.Empty (info : MmapInfo) : Prop :=
  info.start % pgSize = 0 ∧ (info.start + info.size) % 2 ^ 64 % pgSize = 0 ∧
    (info.start + info.size) % 2 ^ 64 ≤ info.start

theorem MmapInfo.Empty.not_ok {doFree : Bool} (h : info.Empty) :
    uvmunmap root info.start info.size doFree s ≠ .ok s' := by
  intro hok
  rw [uvmunmap] at hok
  split at hok
  · cases hok
  · refine unmapLoop_not_ok _ _ _ (fun i hi => ?_) hok
    obtain ⟨h1, h2, h3⟩ := h
    have hround : (info.start + info.size + (2 ^ 64 - 1)) % 2 ^ 64 =
        ((info.start + info.size) % 2 ^ 64 + (2 ^ 64 - 1)) % 2 ^ 64 := (Nat.mod_add_mod _ _ _).symm
    rw [lastPage, pgRoundDown, hround]
    simp only [pgSize, maxVa] at *
    omega

theorem foldlM_ok {ε : Type} {f : β → α → Except ε β} : ∀ {l : List α} {b b' : β},
    l.foldlM f b = .ok b' → ∀ x ∈ l, ∃ c c', f c x = .ok c'
  | [], _, _, _, _, hx => nomatch hx
  | y :: l, b, b', h, x, hx => by
    rw [List.foldlM_cons] at h
    obtain ⟨c, hc, h⟩ := bind_ok h
    rcases List.mem_cons.mp hx with rfl | hx
    · exact ⟨b, c, hc⟩
    · exact foldlM_ok h x hx

/-- A record that `uvmunmap` does not unmap. -/
def MmapInfo.Bad (info : MmapInfo) : Prop := info.size % pgSize ≠ 0 ∨ info.Empty

theorem MmapInfo.Bad.not_ok {doFree : Bool} (h : info.Bad) :
    uvmunmap root info.start info.size doFree s ≠ .ok s' := by
  rcases h with h | h
  · intro hok
    rw [uvmunmap, if_pos (.inr h)] at hok
    cases hok
  · exact h.not_ok

/-- A process with such a record cannot be destroyed. -/
theorem freePagetable_not_ok (hinfo : info ∈ p.infos) (h : info.Bad) :
    p.freePagetable ≠ .ok q := by
  intro hok
  rw [UserMem.freePagetable] at hok
  obtain ⟨s, hs, -⟩ := bind_ok hok
  obtain ⟨c, c', hc⟩ := foldlM_ok hs info hinfo
  exact h.not_ok hc

/-! ## The pages of the user -/

/-- A page that is mapped for the user. -/
def UserMapped (p : UserMem) (n : Nat) : Prop :=
  ∃ info ∈ p.infos, info.Has n ∧ info.pteFlags &&& pteU ≠ 0

theorem walkaddr_userMapped {pending : List Nat} (h : Intact F room pending p) (a : Nat) :
    walkaddr p.pagetable (pgRoundDown a) p.vm ≠ 0 ↔ UserMapped p (a / pgSize) := by
  obtain ⟨m, howns, hrec⟩ := h.map
  have hdiv : pgRoundDown a / pgSize = a / pgSize := Nat.mul_div_cancel _ (by decide)
  by_cases hva : pgRoundDown a < maxVa
  · rw [walkaddr_ne_zero howns.refines hva, hdiv]
    constructor
    · rintro ⟨f, hf, hu, -⟩
      obtain ⟨b, hb, hbn⟩ := (hrec.mapped (a / pgSize)).mp (by rw [hf]; exact nofun)
      exact ⟨b, hb, hbn, hrec.flags b hb _ f hbn hf ▸ hu⟩
    · rintro ⟨b, hb, hbn, hu⟩
      obtain ⟨f, hf⟩ := Option.ne_none_iff_exists'.mp ((hrec.mapped _).mpr ⟨b, hb, hbn⟩)
      have hne : a / pgSize ≠ trampolinePage := fun heq => hu (hrec.kernel b hb (heq ▸ hbn))
      have hF : frame f ∈ F := howns.owned.mem (.frame (a / pgSize)) ⟨hne, f, hf, rfl⟩
      exact ⟨f, hf, (hrec.flags b hb _ f hbn hf).symm ▸ hu, (howns.managed _ hF).1⟩
  · rw [walkaddr, if_pos (Nat.le_of_not_lt hva)]
    refine iff_of_false (not_not_intro rfl) ?_
    rintro ⟨b, hb, ⟨-, hbn⟩, -⟩
    have hrange := (hrec.whole b hb).range
    rw [pgRoundDown] at hva
    omega

theorem UserMapped.lt {pending : List Nat} (h : Intact F room pending p) (hn : UserMapped p n) :
    n < maxVa / pgSize := by
  obtain ⟨m, -, hrec⟩ := h.map
  obtain ⟨b, hb, ⟨-, hbn⟩, -⟩ := hn
  have hrange := (hrec.whole b hb).range
  simp only [pgSize, maxVa] at *
  omega

/-- The bytes `[a, a + len)` are in pages that have `U`. -/
def Covers (U : Nat → Prop) (a len : Nat) : Prop := ∀ b, a ≤ b → b < a + len → U (b / pgSize)

variable {U : Nat → Prop}

theorem Covers.zero (a : Nat) : Covers U a 0 := fun _ h1 h2 => absurd h2 h1.not_gt

theorem not_covers {a len : Nat} (hlen : len ≠ 0) (h : ¬ U (a / pgSize)) : ¬ Covers U a len :=
  fun hc => h (hc a le_rfl (Nat.lt_add_of_pos_right (Nat.pos_of_ne_zero hlen)))

theorem pgRoundDown_next_div (a : Nat) : (pgRoundDown a + pgSize) / pgSize = a / pgSize + 1 := by
  rw [Nat.add_div_right _ (by decide), pgRoundDown, Nat.mul_div_cancel _ (by decide)]

/-- The first page is covered; it remains to cover the others. -/
theorem covers_next {a len : Nat} (h : U (a / pgSize)) :
    Covers U a len ↔ Covers U (pgRoundDown a + pgSize)
      (len - min (pgSize - (a - pgRoundDown a)) len) := by
  constructor
  · intro hc b h1 h2
    refine hc b ?_ ?_
    · simp only [pgRoundDown, pgSize] at *
      omega
    · simp only [pgRoundDown, pgSize] at *
      omega
  · intro hc b h1 h2
    by_cases hb : pgRoundDown a + pgSize ≤ b
    · refine hc b hb ?_
      simp only [pgRoundDown, pgSize] at *
      omega
    · have hpage : b / pgSize = a / pgSize := by
        simp only [pgRoundDown, pgSize] at *
        omega
      rwa [hpage]

/-- The bytes of some reads. Addresses have 64 bits. -/
def bytesOf (rs : List (Nat × Nat)) : Set Nat := {x | ∃ r ∈ rs, ∃ k < r.2, x = (r.1 + k) % 2 ^ 64}

theorem bytesOf_nil : bytesOf [] = ∅ := by simp [bytesOf]

theorem bytesOf_append (rs rs' : List (Nat × Nat)) :
    bytesOf (rs ++ rs') = bytesOf rs ∪ bytesOf rs' := by
  ext x
  simp only [bytesOf, List.mem_append, or_and_right, exists_or]
  exact Iff.rfl

theorem bytesOf_cons (r : Nat × Nat) (rs : List (Nat × Nat)) :
    bytesOf (r :: rs) = bytesOf [r] ∪ bytesOf rs := bytesOf_append [r] rs

theorem mem_bytesOf_singleton {r : Nat × Nat} {x : Nat} :
    x ∈ bytesOf [r] ↔ ∃ k < r.2, x = (r.1 + k) % 2 ^ 64 := by
  simp [bytesOf]

/-- The bytes from `src` on for those at `a`, up to the first page that has not `U`. -/
def fetched (U : Nat → Prop) (a src len : Nat) : Set Nat :=
  {x | ∃ k < len, Covers U a (k + 1) ∧ x = (src + k) % 2 ^ 64}

theorem fetched_zero {a src : Nat} : fetched U a src 0 = ∅ :=
  Set.eq_empty_of_forall_notMem fun _ ⟨_, hk, _⟩ => absurd hk (Nat.not_lt_zero _)

theorem fetched_none {a src len : Nat} (h : ¬ U (a / pgSize)) : fetched U a src len = ∅ :=
  Set.eq_empty_of_forall_notMem fun _ ⟨_, _, hc, _⟩ => not_covers (Nat.succ_ne_zero _) h hc

/-- The bytes for the first page, and those for the others. -/
theorem fetched_next {a src len : Nat} (h : U (a / pgSize)) :
    fetched U a src len = bytesOf [(src, min (pgSize - (a - pgRoundDown a)) len)] ∪
      fetched U (pgRoundDown a + pgSize)
        ((src + min (pgSize - (a - pgRoundDown a)) len) % 2 ^ 64)
        (len - min (pgSize - (a - pgRoundDown a)) len) := by
  ext x
  rw [Set.mem_union, mem_bytesOf_singleton]
  constructor
  · rintro ⟨k, hk, hc, rfl⟩
    rw [covers_next h] at hc
    by_cases hfirst : k < min (pgSize - (a - pgRoundDown a)) len
    · exact .inl ⟨k, hfirst, rfl⟩
    · refine .inr ⟨k - min (pgSize - (a - pgRoundDown a)) len, by omega, ?_, ?_⟩
      · have hlen : k + 1 - min (pgSize - (a - pgRoundDown a)) (k + 1) =
            k - min (pgSize - (a - pgRoundDown a)) len + 1 := by omega
        rwa [hlen] at hc
      · rw [Nat.mod_add_mod]
        congr 1
        omega
  · rintro (⟨k, hk, rfl⟩ | ⟨k, hk, hc, rfl⟩)
    · refine ⟨k, hk.trans_le (Nat.min_le_right _ _), (covers_next h).mpr ?_, rfl⟩
      have hlen : k + 1 - min (pgSize - (a - pgRoundDown a)) (k + 1) = 0 := by omega
      rw [hlen]
      exact .zero _
    · refine ⟨min (pgSize - (a - pgRoundDown a)) len + k, by omega, (covers_next h).mpr ?_, ?_⟩
      · have hlen : min (pgSize - (a - pgRoundDown a)) len + k + 1 -
            min (pgSize - (a - pgRoundDown a)) (min (pgSize - (a - pgRoundDown a)) len + k + 1) =
            k + 1 := by omega
        rwa [hlen]
      · rw [Nat.mod_add_mod, Nat.add_assoc]

section Copy

variable (hU : ∀ n, U n → n < maxVa / pgSize)
include hU

/-- `copyout` reads up to the first page that it cannot write. -/
theorem copyout_spec : ∀ (fuel dstva src len : Nat) (p : UserMem),
    (∀ a, walkaddr p.pagetable (pgRoundDown a) p.vm ≠ 0 ↔ U (a / pgSize)) →
    maxVa / pgSize ≤ dstva / pgSize + fuel →
    ∃ r rs, UserMem.copyout fuel dstva src len p = .ok r { p with reads := p.reads ++ rs } ∧
      (¬ r < 0 ↔ Covers U dstva len) ∧ bytesOf rs = fetched U dstva src len
  | 0, dstva, src, len, p, _, hfuel => by
    have hnot : ¬ U (dstva / pgSize) := fun h => absurd (hU _ h) hfuel.not_gt
    refine ⟨if len = 0 then 0 else -1, [], ?_, ?_, ?_⟩
    · rw [List.append_nil]
      rfl
    · split
      · rename_i hlen
        rw [hlen]
        exact iff_of_true (by decide) (.zero dstva)
      · rename_i hlen
        exact iff_of_false (by decide) (not_covers hlen hnot)
    · rw [bytesOf_nil, fetched_none hnot]
  | fuel + 1, dstva, src, len, p, hw, hfuel => by
    have hnil : p = { p with reads := p.reads ++ [] } := by rw [List.append_nil]
    rw [UserMem.copyout]
    split
    · rename_i hlen
      refine ⟨0, [], congrArg _ hnil, ?_, ?_⟩
      · rw [hlen]
        exact iff_of_true (by decide) (.zero dstva)
      · rw [hlen, bytesOf_nil, fetched_zero]
    · rename_i hlen
      split
      · rename_i hzero
        have hnot : ¬ U (dstva / pgSize) := fun h => (hw dstva).mpr h hzero
        refine ⟨-1, [], congrArg _ hnil, iff_of_false (by decide) (not_covers hlen hnot), ?_⟩
        rw [bytesOf_nil, fetched_none hnot]
      · rename_i hpage
        have hfirst := (hw dstva).mp hpage
        obtain ⟨r, rs, hcall, hr, hrs⟩ := copyout_spec fuel (pgRoundDown dstva + pgSize)
          ((src + min (pgSize - (dstva - pgRoundDown dstva)) len) % 2 ^ 64)
          (len - min (pgSize - (dstva - pgRoundDown dstva)) len)
          (p.read src (min (pgSize - (dstva - pgRoundDown dstva)) len)) hw
          (by rw [pgRoundDown_next_div]; omega)
        refine ⟨r, (src, min (pgSize - (dstva - pgRoundDown dstva)) len) :: rs, ?_,
          hr.trans (covers_next hfirst).symm, ?_⟩
        · rw [List.append_cons]
          exact hcall
        · rw [bytesOf_cons, hrs, fetched_next hfirst]

theorem memsetUser_spec (hw : ∀ a, walkaddr p.pagetable (pgRoundDown a) p.vm ≠ 0 ↔ U (a / pgSize)) :
    ∀ fuel dstva len : Nat, maxVa / pgSize ≤ dstva / pgSize + fuel →
    ∃ r, UserMem.memsetUser fuel dstva len p = .ok r p ∧ (¬ r < 0 ↔ Covers U dstva len)
  | 0, dstva, len, hfuel => by
    refine ⟨if len = 0 then 0 else -1, rfl, ?_⟩
    split
    · rename_i hlen
      rw [hlen]
      exact iff_of_true (by decide) (.zero dstva)
    · rename_i hlen
      exact iff_of_false (by decide) (not_covers hlen fun h => absurd (hU _ h) hfuel.not_gt)
  | fuel + 1, dstva, len, hfuel => by
    rw [UserMem.memsetUser]
    split
    · rename_i hlen
      rw [hlen]
      exact ⟨0, rfl, iff_of_true (by decide) (.zero dstva)⟩
    · rename_i hlen
      split
      · rename_i hzero
        refine ⟨-1, rfl, iff_of_false (by decide) (not_covers hlen fun h => ?_)⟩
        exact (hw dstva).mpr h hzero
      · rename_i hpage
        obtain ⟨r, hcall, hr⟩ := memsetUser_spec hw fuel (pgRoundDown dstva + pgSize)
          (len - min (pgSize - (dstva - pgRoundDown dstva)) len)
          (by rw [pgRoundDown_next_div]; omega)
        exact ⟨r, hcall, hr.trans (covers_next ((hw dstva).mp hpage)).symm⟩

end Copy

theorem le_add_pagesAbove (va : Nat) : maxVa / pgSize ≤ va / pgSize + UserMem.pagesAbove va := by
  rw [UserMem.pagesAbove]
  omega

/-! ## Segments -/

namespace ProgramHeader

/-- The pages of a segment. -/
def Has (ph : ProgramHeader) (n : Nat) : Prop := ph.first ≤ n * pgSize ∧ n * pgSize < ph.last

/-- The record of a segment. -/
def record (ph : ProgramHeader) : MmapInfo := ⟨ph.first, ph.memSize, mapUser, ph.pteFlags⟩

theorem first_mod (ph : ProgramHeader) : ph.first % pgSize = 0 := Nat.mul_mod_left _ _

theorem last_mod (ph : ProgramHeader) : ph.last % pgSize = 0 := Nat.mul_mod_left _ _

theorem first_le (ph : ProgramHeader) : ph.first ≤ ph.pVaddr := Nat.div_mul_le_self _ _

theorem vaddr_lt (ph : ProgramHeader) : ph.pVaddr < ph.first + pgSize := by
  simp only [first, pgRoundDown, pgSize]
  omega

/-- A segment with a page begins in its first one. -/
theorem vaddr_le_last (h : ph.first < ph.last) : ph.pVaddr ≤ ph.last := by
  have h1 := ph.vaddr_lt
  have h2 := ph.first_mod
  have h3 := ph.last_mod
  simp only [pgSize] at *
  omega

theorem covers_of_has (hseg : ∀ n, ph.Has n → U n) {a len : Nat} (ha : ph.first ≤ a)
    (hend : a + len ≤ ph.last) : Covers U a len := by
  intro b h1 h2
  refine hseg _ ⟨?_, ?_⟩
  · have := ph.first_mod
    simp only [pgSize] at *
    omega
  · exact (Nat.div_mul_le_self b pgSize).trans_lt (by omega)

theorem user_pteFlags (ph : ProgramHeader) : ph.pteFlags &&& pteU ≠ 0 := by
  have hself : pteU &&& pteU = pteU := rfl
  rw [pteFlags, Nat.and_or_distrib_right, hself]
  intro h
  exact absurd (Nat.or_eq_zero_iff.mp h).2 (by decide)

theorem pteFlags_lt (ph : ProgramHeader) : ph.pteFlags < 2 ^ 10 := by
  refine Nat.or_lt_two_pow (Nat.or_lt_two_pow (Nat.or_lt_two_pow ?_ ?_) ?_) (by decide)
  · split <;> decide
  · split <;> decide
  · split <;> decide

theorem hasFlag_pteFlags (ph : ProgramHeader) : HasFlag ph.pteFlags := by
  intro h
  have hdiv : (ph.pteFlags &&& pteU) / 2 % 2 ^ 9 = 0 := by
    rw [Nat.and_div_two, Nat.and_mod_two_pow, h, Nat.zero_and]
  have hle : ph.pteFlags &&& pteU ≤ 16 := Nat.and_le_right
  have hself : (ph.pteFlags &&& pteU) &&& pteU = ph.pteFlags &&& pteU := by
    rw [Nat.and_assoc, Nat.and_self]
  have hlow : ph.pteFlags &&& pteU < 2 := by omega
  refine ph.user_pteFlags ?_
  rw [← hself]
  interval_cases ph.pteFlags &&& pteU <;> rfl

end ProgramHeader

/-- The bytes around those from the file are in the segment itself. -/
theorem zeroSegment_spec (hU : ∀ n, U n → n < maxVa / pgSize)
    (hw : ∀ a, walkaddr p.pagetable (pgRoundDown a) p.vm ≠ 0 ↔ U (a / pgSize))
    (hv : ph.pVaddr < 2 ^ 64) (hpos : ph.first < ph.last) (hseg : ∀ n, ph.Has n → U n)
    (hfile : Covers U ph.pVaddr ph.pFilesz) : ∃ r, zeroSegment ph p = .ok r p ∧ ¬ r < 0 := by
  have hend : ph.fileEnd = ph.pVaddr + ph.pFilesz := by
    rw [ProgramHeader.fileEnd]
    refine Nat.mod_eq_of_lt ?_
    by_cases h0 : ph.pFilesz = 0
    · omega
    · have := hU _ (hfile (ph.pVaddr + ph.pFilesz - 1) (by omega) (by omega))
      simp only [pgSize, maxVa] at *
      omega
  have hbefore : ∃ r, (if ph.first < ph.pVaddr then
      UserMem.memsetUser (UserMem.pagesAbove ph.first) ph.first (ph.pVaddr - ph.first) p
      else .ok 0 p) = .ok r p ∧ ¬ r < 0 := by
    split
    · rename_i hlt
      obtain ⟨r, hcall, hr⟩ := memsetUser_spec hU hw (UserMem.pagesAbove ph.first) ph.first
        (ph.pVaddr - ph.first) (le_add_pagesAbove _)
      refine ⟨r, hcall, hr.mpr (ph.covers_of_has hseg le_rfl ?_)⟩
      rw [Nat.add_sub_cancel' hlt.le]
      exact ph.vaddr_le_last hpos
    · exact ⟨0, rfl, by decide⟩
  obtain ⟨r, hcall, hr⟩ := hbefore
  rw [zeroSegment, hcall, Res.bind, if_neg hr]
  split
  · rename_i hlt
    obtain ⟨r, hcall, hr⟩ := memsetUser_spec hU hw (UserMem.pagesAbove ph.fileEnd) ph.fileEnd
      (ph.last - ph.fileEnd) (le_add_pagesAbove _)
    refine ⟨r, hcall, hr.mpr (ph.covers_of_has hseg ?_ ?_)⟩
    · have := ph.first_le
      omega
    · rw [Nat.add_sub_cancel' hlt.le]
  · exact ⟨0, rfl, by decide⟩

theorem fillSegment_spec (hU : ∀ n, U n → n < maxVa / pgSize)
    (hw : ∀ a, walkaddr p.pagetable (pgRoundDown a) p.vm ≠ 0 ↔ U (a / pgSize))
    (hv : ph.pVaddr < 2 ^ 64) (hpos : ph.first < ph.last) (hseg : ∀ n, ph.Has n → U n) :
    ∃ r rs, fillSegment start ph p = .ok r { p with reads := rs } ∧
      (¬ r < 0 ↔ Covers U ph.pVaddr ph.pFilesz) := by
  obtain ⟨r, rs, hcall, hr, -⟩ := copyout_spec hU (UserMem.pagesAbove ph.pVaddr) ph.pVaddr
    ((start + ph.pOffset) % 2 ^ 64) ph.pFilesz p hw (le_add_pagesAbove _)
  rw [fillSegment, hcall, Res.bind]
  split
  · rename_i hneg
    exact ⟨-1, _, rfl, iff_of_false (by decide) fun hc => hr.mpr hc hneg⟩
  · rename_i hok
    have hc := hr.mp hok
    obtain ⟨r', hcall', hr'⟩ :=
      zeroSegment_spec (p := { p with reads := p.reads ++ rs }) hU hw hv hpos hseg hc
    exact ⟨r', _, hcall', iff_of_true hr' hc⟩

/-! ## Which images are safe -/

section Image

variable (img : Bytes) (start size phoff : Nat)

/-- The `PT_LOAD` segments before program header `i`. -/
def segments (i : Nat) : List ProgramHeader :=
  ((List.range i).map (programHeader img start phoff)).filter (·.pType = 1)

/-- The pages that are mapped for the user when the first `i` segments are: theirs, and the
stack. -/
def UserPages (i n : Nat) : Prop :=
  n = userStackTop / pgSize ∨ ∃ ph ∈ segments img start phoff i, ph.Has n

/-- The loader gets past program header `i`: its segment passes the checks, and there are pages for
the bytes from the file. -/
def Passes (i : Nat) : Prop :=
  (programHeader img start phoff i).pType = 1 → (programHeader img start phoff i).Accepted size ∧
    Covers (UserPages img start phoff (i + 1)) (programHeader img start phoff i).pVaddr
      (programHeader img start phoff i).pFilesz

/-- Segment `i` has a page, it shares none with those before it, and there is a node for its
record in the heap. -/
structure Fits (room i : Nat) : Prop where
  pos : (programHeader img start phoff i).first < (programHeader img start phoff i).last
  disjoint : ∀ ph ∈ segments img start phoff i, ∀ n, ph.Has n →
    ¬ (programHeader img start phoff i).Has n
  room : 3 + (segments img start phoff i).length < room

/-- Each segment among the `n` from program header `i` on that the loader comes to and accepts
fits. -/
def FitsFrom (room i n : Nat) : Prop :=
  ∀ j, i ≤ j → j < i + n → (∀ k < j, Passes img start size phoff k) →
    (programHeader img start phoff j).pType = 1 →
    (programHeader img start phoff j).Accepted size → Fits img start phoff room j

end Image

/-- The records of the constructor have nodes, and each segment that the loader comes to and accepts
fits. -/
def Sound (img : Bytes) (start size room : Nat) : Prop :=
  3 ≤ room ∧ (HeaderOk img start size → headersSum (view img start) ≤ size →
    FitsFrom img start size (ePhoff (view img start)) room 0 (ePhnum (view img start)))

/-- The records of the constructor. -/
def baseInfos : List MmapInfo :=
  [⟨trampolineVa, pgSize, mapShared, pteR ||| pteX⟩,
    ⟨trapframeVa, pgSize, mapDefault, pteR ||| pteW⟩,
    ⟨userStackTop, pgSize, mapUser, pteU ||| pteR ||| pteW⟩]

variable {img : Bytes} {phoff i : Nat}

theorem segments_succ : segments img start phoff (i + 1) = segments img start phoff i ++
    if (programHeader img start phoff i).pType =
    1 then [programHeader img start phoff i] else [] := by
  rw [segments, List.range_succ, List.map_append, List.filter_append, segments]
  congr 1
  rw [List.map_singleton, List.filter_singleton]
  by_cases h : (programHeader img start phoff i).pType = 1
  · simp [h]
  · simp [h]

theorem fitsFrom_succ {room n : Nat} (hcome : ∀ k < i, Passes img start size phoff k) :
    FitsFrom img start size phoff room i (n + 1) ↔
      ((programHeader img start phoff i).pType = 1 →
        (programHeader img start phoff i).Accepted size → Fits img start phoff room i) ∧
      FitsFrom img start size phoff room (i + 1) n := by
  constructor
  · intro h
    refine ⟨h i le_rfl (by omega) hcome, fun j h1 h2 => h j (by omega) (by omega)⟩
  · rintro ⟨hi, hrest⟩ j h1 h2
    rcases eq_or_lt_of_le h1 with rfl | h1
    · exact fun _ => hi
    · exact hrest j h1 (by omega)

/-- After a program header that the loader does not get past nothing matters. -/
theorem fitsFrom_of_not_passes {room n : Nat} (h : ¬ Passes img start size phoff i) :
    FitsFrom img start size phoff room (i + 1) n :=
  fun _ h1 _ hall => absurd (hall i (Nat.lt_of_succ_le h1)) h

theorem ProgramHeader.Has.user (h : ph.Accepted size) (hn : ph.Has n) :
    n < userStackTop / pgSize := by
  obtain ⟨-, hlast, -⟩ := h
  obtain ⟨-, hlt⟩ := hn
  simp only [userStackTop, userTop, pgSize] at *
  omega

theorem ProgramHeader.record_empty (hv : ph.pVaddr < 2 ^ 64) (h : ¬ ph.first < ph.last) :
    ph.record.Empty := by
  refine ⟨ph.first_mod, ?_, ?_⟩
  · change (ph.first + ph.memSize) % 2 ^ 64 % pgSize = 0
    rw [ph.first_add_memSize hv]
    exact ph.last_mod
  · change (ph.first + ph.memSize) % 2 ^ 64 ≤ ph.first
    rw [ph.first_add_memSize hv]
    exact Nat.le_of_not_lt h

theorem ProgramHeader.record_has (hv : ph.pVaddr < 2 ^ 64) (h : ph.record.Whole) :
    ph.record.Has n ↔ ph.Has n := by
  have hrange : ph.first + ph.memSize ≤ maxVa := h.range
  have hend : ph.first + ph.memSize = ph.last := by
    rw [← ph.first_add_memSize hv]
    exact (Nat.mod_eq_of_lt (hrange.trans_lt (by decide))).symm
  rw [ProgramHeader.Has, ← hend]
  exact Iff.rfl

/-! ## Loading -/

/-- The process has mapped the segments before program header `i`. -/
structure Loaded (F : Set Nat) (room : Nat) (img : Bytes) (start phoff i : Nat) (p : UserMem) :
    Prop extends Intact F room [] p where
  infos : p.infos = baseInfos ++ (segments img start phoff i).map ProgramHeader.record

theorem mem_segments (h : ph ∈ segments img start phoff i) : ph.pType = 1 ∧ ph.pVaddr < 2 ^ 64 := by
  obtain ⟨hmem, htype⟩ := List.mem_filter.mp h
  obtain ⟨k, -, rfl⟩ := List.mem_map.mp hmem
  exact ⟨of_decide_eq_true htype, programHeader_vaddr_lt k⟩

theorem Loaded.record_has (h : Loaded F room img start phoff i p)
    (hph : ph ∈ segments img start phoff i) : ph.record.Has n ↔ ph.Has n := by
  obtain ⟨m, -, hrec⟩ := h.map
  refine ph.record_has (mem_segments hph).2 (hrec.whole _ ?_)
  rw [h.infos]
  exact List.mem_append_right _ (List.mem_map_of_mem hph)

theorem baseInfos_user (hn : ∃ b ∈ baseInfos, b.Has n ∧ b.pteFlags &&& pteU ≠ 0) :
    n = userStackTop / pgSize := by
  obtain ⟨b, hb, hbn, hu⟩ := hn
  simp only [baseInfos, List.mem_cons, List.not_mem_nil, or_false] at hb
  rcases hb with rfl | rfl | rfl
  · exact absurd rfl hu
  · exact absurd rfl hu
  · obtain ⟨h1, h2⟩ := hbn
    simp only [userStackTop, userTop, pgSize] at *
    omega

/-- The records of the constructor are above the segments. -/
theorem baseInfos_above {b : MmapInfo} (hb : b ∈ baseInfos) (hbn : b.Has n) :
    userStackTop / pgSize ≤ n := by
  obtain ⟨h1, h2⟩ := hbn
  simp only [baseInfos, List.mem_cons, List.not_mem_nil, or_false] at hb
  rcases hb with rfl | rfl | rfl
  · simp only [trampolineVa, maxVa, userStackTop, userTop, pgSize] at *
    omega
  · simp only [trapframeVa, trampolineVa, maxVa, userStackTop, userTop, pgSize] at *
    omega
  · simp only [userStackTop, userTop, pgSize] at *
    omega

theorem Loaded.userMapped (h : Loaded F room img start phoff i p) :
    UserMapped p n ↔ UserPages img start phoff i n := by
  rw [UserMapped, h.infos]
  constructor
  · rintro ⟨b, hb, hbn, hu⟩
    rcases List.mem_append.mp hb with hb | hb
    · exact .inl (baseInfos_user ⟨b, hb, hbn, hu⟩)
    · obtain ⟨ph, hph, rfl⟩ := List.mem_map.mp hb
      exact .inr ⟨ph, hph, (h.record_has hph).mp hbn⟩
  · rintro (rfl | ⟨ph, hph, hn⟩)
    · refine ⟨⟨userStackTop, pgSize, mapUser, pteU ||| pteR ||| pteW⟩, ?_, ?_, by decide⟩
      · exact List.mem_append_left _ (List.mem_cons_of_mem _ (List.mem_cons_of_mem _
          List.mem_cons_self))
      · exact ⟨by decide, by decide⟩
    · exact ⟨ph.record, List.mem_append_right _ (List.mem_map_of_mem hph),
        (h.record_has hph).mpr hn, ph.user_pteFlags⟩

theorem Loaded.length (h : Loaded F room img start phoff i p) :
    p.infos.length = 3 + (segments img start phoff i).length := by
  rw [h.infos, List.length_append, List.length_map]
  rfl

/-- How a segment is loaded. -/
inductive SegmentLoads (F : Set Nat) (room : Nat) (img : Bytes) (start size phoff i : Nat) :
    Res Int → Prop
  | oom {r : Res Int} : r.mem.oom = true → SegmentLoads F room img start size phoff i r
  | panic {e : Panic} {q : UserMem} : (programHeader img start phoff i).Accepted size →
      ¬ Fits img start phoff room i → SegmentLoads F room img start size phoff i (.panic e q)
  | stuck {r : Res Int} {info : MmapInfo} : (programHeader img start phoff i).Accepted size →
      ¬ Fits img start phoff room i → info ∈ r.mem.infos → info.Empty →
      SegmentLoads F room img start size phoff i r
  | rejected {a : Int} {q : UserMem} : a < 0 → ¬ (programHeader img start phoff i).Accepted size →
      Loaded F room img start phoff i q → SegmentLoads F room img start size phoff i (.ok a q)
  | loaded {a : Int} {q : UserMem} : (programHeader img start phoff i).Accepted size →
      Loaded F room img start phoff (i + 1) q →
      (Fits img start phoff room i ↔ q.infos.length ≤ room) →
      (¬ a < 0 ↔ Passes img start size phoff i) →
      SegmentLoads F room img start size phoff i (.ok a q)

theorem mmap_empty (hv : ph.pVaddr < 2 ^ 64) (h : ¬ ph.first < ph.last) :
    UserMem.mmap ph.first ph.memSize mapUser ph.pteFlags p = .ok 0 (p.pushBack ph.record) := by
  have hfuel : ((ph.first + ph.memSize) % 2 ^ 64 - ph.first + (pgSize - 1)) / pgSize = 0 := by
    rw [ph.first_add_memSize hv, Nat.sub_eq_zero_of_le (Nat.le_of_not_lt h)]
    rfl
  rw [UserMem.mmap, hfuel]
  rfl

theorem pushBack_cases (info : MmapInfo) :
    (p.pushBack info).oom = true ∨ info ∈ (p.pushBack info).infos := by
  unfold UserMem.pushBack
  split
  · exact .inl rfl
  · exact .inr (List.mem_append_right _ List.mem_cons_self)

theorem fillSegment_extends : Extends p (fillSegment start ph p).mem :=
  (fillSegment_adds (N := fun _ => True)).toExtends

theorem Intact.sameRecords (h : Intact F room [] p) (hvm : q.vm = p.vm) (hs : SameRecords p q) :
    Intact F room [] q := by
  refine ⟨?_, hvm ▸ h.free, ?_, ?_⟩
  · rw [hvm, hs.pagetable, hs.heap, hs.infos]
    exact h.map
  · rw [hs.heap]
    exact h.held
  · rw [hs.heap, hs.room, hs.infos]
    exact h.nodes

theorem Intact.heap_nil_iff {pending : List Nat} (h : Intact F room pending p) :
    p.heap = [] ↔ p.infos.length ≤ room := by
  rcases h.nodes with ⟨hheap, hcount⟩ | ⟨hheap, hcount⟩
  · exact iff_of_true hheap (by omega)
  · exact iff_of_false hheap hcount.not_ge

/-- The pages of an accepted segment that has some. -/
theorem ProgramHeader.pages_eq (hv : ph.pVaddr < 2 ^ 64) (ha : ph.Accepted size)
    (hpos : ph.first < ph.last) : ph.first = ph.first / pgSize * pgSize ∧
      ph.memSize = (ph.last / pgSize - ph.first / pgSize) * pgSize ∧
      1 ≤ ph.last / pgSize - ph.first / pgSize ∧
      ph.first / pgSize + (ph.last / pgSize - ph.first / pgSize) ≤ trampolinePage := by
  obtain ⟨-, hlast, -⟩ := ha
  have h1 := ph.first_mod
  have h2 := ph.last_mod
  have h3 := ph.first_lt hv
  simp only [memSize, trampolinePage, trampolineVa, maxVa, userStackTop, userTop, pgSize] at *
  omega

/-- After `__mmap` of a segment. -/
def loadMapped (start : Nat) (ph : ProgramHeader) (r : Int) (p : UserMem) : Res Int :=
  if r < 0 then .ok (-1) p else fillSegment start ph p

theorem loadMapped_extends (r : Int) : Extends p (loadMapped start ph r p).mem := by
  unfold loadMapped
  split
  · exact .refl _
  · exact fillSegment_extends

/-- A segment has no page in common with those before it if its record has none in common with the
records. -/
theorem Loaded.disjoint_iff (h : Loaded F room img start phoff i p) (ha : ph.Accepted size)
    (hhas : ∀ n, ph.record.Has n ↔ ph.Has n) :
    (∀ b ∈ p.infos, ∀ n, b.Has n → ¬ ph.record.Has n) ↔
      ∀ ph' ∈ segments img start phoff i, ∀ n, ph'.Has n → ¬ ph.Has n := by
  simp only [hhas]
  rw [h.infos]
  constructor
  · intro hb ph' hph' n hn
    exact hb ph'.record (List.mem_append_right _ (List.mem_map_of_mem hph')) n
      ((h.record_has hph').mpr hn)
  · intro hsegs b hb n hbn hn
    rcases List.mem_append.mp hb with hb | hb
    · exact absurd (hn.user ha) (baseInfos_above hb hbn).not_gt
    · obtain ⟨ph', hph', rfl⟩ := List.mem_map.mp hb
      exact hsegs ph' hph' n ((h.record_has hph').mp hbn) hn

/-- A segment that has pages. -/
theorem loadMapped_spec (h : Loaded F room img start phoff i p)
    (htype : (programHeader img start phoff i).pType = 1)
    (ha : (programHeader img start phoff i).Accepted size)
    (hpos : (programHeader img start phoff i).first < (programHeader img start phoff i).last) :
    SegmentLoads F room img start size phoff i
      ((UserMem.mmap (programHeader img start phoff i).first
        (programHeader img start phoff i).memSize mapUser (programHeader img start phoff i).pteFlags
        p).bind (loadMapped start (programHeader img start phoff i))) := by
  have hv : (programHeader img start phoff i).pVaddr < 2 ^ 64 := programHeader_vaddr_lt i
  have hsegs : segments img start phoff (i + 1) = _ := segments_succ
  have hfits : ∀ room, Fits img start phoff room i → ∀ ph' ∈ segments img start phoff i,
      ∀ n, ph'.Has n → ¬ (programHeader img start phoff i).Has n := fun _ hf => hf.disjoint
  rw [if_pos htype] at hsegs
  generalize hph : programHeader img start phoff i = ph at *
  obtain ⟨hfirst, hsize, hk, hend⟩ := ph.pages_eq hv ha hpos
  have hwhole : ph.record.Whole := by
    refine ⟨ph.first_mod, ?_, ?_, ?_⟩
    · change ph.memSize % pgSize = 0
      rw [hsize, Nat.mul_mod_left]
    · change 1 ≤ ph.memSize
      rw [hsize]
      exact Nat.mul_pos hk (by decide)
    · change ph.first + ph.memSize ≤ maxVa
      rw [hfirst, hsize, ← Nat.add_mul]
      exact (Nat.mul_le_mul_right pgSize hend).trans (by decide)
  have hdisjoint := h.disjoint_iff ha fun n => ph.record_has hv hwhole
  have hmmap := mmap_spec h.toIntact hfirst hsize hk hend ph.hasFlag_pteFlags ph.pteFlags_lt
  generalize UserMem.mmap ph.first ph.memSize mapUser ph.pteFlags p = r at hmmap ⊢
  cases hmmap with
  | oom ho => exact .oom (oom_bind ho fun r q => (loadMapped_extends r).oom)
  | remap hb hbj hj =>
    exact .panic (hph.symm ▸ ha) fun hf => hdisjoint.mpr (hfits room hf) _ hb _ hbj hj
  | @mapped q hnew hq hinfos =>
    have hloaded : Loaded F room img start phoff (i + 1) q := by
      refine ⟨hq, ?_⟩
      rw [hinfos, h.infos, hsegs, List.map_append, List.append_assoc]
      rfl
    have hlen : q.infos.length = p.infos.length + 1 := by
      rw [hinfos, List.length_append, List.length_singleton]
    have hseg : ∀ n, ph.Has n → UserPages img start phoff (i + 1) n := fun n hn =>
      .inr ⟨ph, hsegs ▸ List.mem_append_right _ List.mem_cons_self, hn⟩
    obtain ⟨a, rs, hcall, hr⟩ : ∃ a rs, fillSegment start ph q = .ok a { q with reads := rs } ∧
        (¬ a < 0 ↔ Covers (UserPages img start phoff (i + 1)) ph.pVaddr ph.pFilesz) :=
          fillSegment_spec
      (fun n hn => UserMapped.lt hq (hloaded.userMapped.mpr hn))
      (fun b => (walkaddr_userMapped hq b).trans hloaded.userMapped) hv hpos hseg
    have hres : (Res.ok 0 q).bind (loadMapped start ph) = .ok a { q with reads := rs } := hcall
    rw [hres]
    refine .loaded (hph.symm ▸ ha) ⟨hq.sameRecords rfl ⟨rfl, rfl, rfl, rfl⟩, hloaded.infos⟩ ?_ ?_
    · have hlength := h.length
      constructor
      · intro hf
        have := hf.room
        change q.infos.length ≤ room
        omega
      · intro hle
        refine ⟨hph.symm ▸ hpos, hph.symm ▸ hdisjoint.mp hnew, ?_⟩
        change q.infos.length ≤ room at hle
        omega
    · rw [hr, Passes, hph]
      exact ⟨fun hc _ => ⟨ha, hc⟩, fun hc => (hc htype).2⟩

theorem loadSegment_spec (h : Loaded F room img start phoff i p)
    (htype : (programHeader img start phoff i).pType = 1) :
    SegmentLoads F room img start size phoff i
      (loadSegment start size (programHeader img start phoff i) p) := by
  have hv : (programHeader img start phoff i).pVaddr < 2 ^ 64 := programHeader_vaddr_lt i
  have hrejected : ¬ (programHeader img start phoff i).Accepted size →
      SegmentLoads F room img start size phoff i (.ok (-1) p) := fun hno =>
    .rejected (by decide) hno h
  unfold loadSegment
  split
  · exact hrejected fun ha => absurd ha.1 (Nat.not_le_of_lt ‹_›)
  split
  · exact hrejected fun ha => absurd ha.2.1 (Nat.not_lt_of_le ‹_›)
  split
  · exact hrejected fun ha => absurd ha.2.2 (Nat.not_le_of_lt ‹_›)
  have ha : (programHeader img start phoff i).Accepted size :=
    ⟨Nat.le_of_not_lt ‹_›, Nat.lt_of_not_le ‹_›, Nat.le_of_not_lt ‹_›⟩
  by_cases hpos : (programHeader img start phoff i).first < (programHeader img start phoff i).last
  · refine loadMapped_spec (p := { p with
      minVa := min p.minVa (programHeader img start phoff i).first
      maxVa := max p.maxVa (programHeader img start phoff i).last }) ?_ htype ha hpos
    exact ⟨h.toIntact.sameRecords rfl ⟨rfl, rfl, rfl, rfl⟩, h.infos⟩
  · -- the segment has no page, and what is recorded cannot be unmapped
    have hnot : ¬ Fits img start phoff room i := fun hf => hpos hf.pos
    rw [mmap_empty hv hpos]
    rcases pushBack_cases (p := { p with
      minVa := min p.minVa (programHeader img start phoff i).first
      maxVa := max p.maxVa (programHeader img start phoff i).last })
      (programHeader img start phoff i).record with ho | hmem
    · exact .oom (oom_bind (r := Res.ok 0 _) (f := loadMapped _ _) ho fun r _ =>
        (loadMapped_extends r).oom)
    · exact .stuck ha hnot (infos_bind (r := Res.ok 0 _) (f := loadMapped _ _) hmem fun r _ =>
        loadMapped_extends r) (ProgramHeader.record_empty hv hpos)

/-- How loading ends, if `S` says that all is well. -/
inductive Outcome (F : Set Nat) (room : Nat) (S : Prop) : Res Int → Prop
  | oom {r : Res Int} : r.mem.oom = true → Outcome F room S r
  | panic {e : Panic} {q : UserMem} : ¬ S → Outcome F room S (.panic e q)
  | stuck {a : Int} {q : UserMem} {info : MmapInfo} : ¬ S → info ∈ q.infos → info.Empty →
      Outcome F room S (.ok a q)
  | intact {a : Int} {q : UserMem} : Intact F room [] q → (q.infos.length ≤ room ↔ S) →
      Outcome F room S (.ok a q)

variable {S S' : Prop}

theorem Outcome.congr {r : Res Int} (h : Outcome F room S r) (hS : S ↔ S') :
    Outcome F room S' r := by
  cases h with
  | oom ho => exact .oom ho
  | panic hs => exact .panic fun h' => hs (hS.mpr h')
  | stuck hs hi he => exact .stuck (fun h' => hs (hS.mpr h')) hi he
  | intact hi hs => exact .intact hi (hs.trans hS)

theorem Outcome.of_empty {r : Res Int} (hS : ¬ S) (hinfo : info ∈ r.mem.infos) (he : info.Empty) :
    Outcome F room S r := by
  cases r with
  | ok a q => exact .stuck hS hinfo he
  | panic e q => exact .panic hS

theorem Loaded.read (h : Loaded F room img start phoff i p) (a len : Nat) :
    Loaded F room img start phoff i (p.read a len) :=
  ⟨h.toIntact.sameRecords rfl ⟨rfl, rfl, rfl, rfl⟩, h.infos⟩

/-- The loop of the loader after a segment. -/
def loadNext (img : Bytes) (start size phoff n i : Nat) (r : Int) (p : UserMem) : Res Int :=
  if r < 0 then .ok (-1) p else loadSegments img start size phoff n (i + 1) p

theorem loadSegments_extends (n i : Nat) (p : UserMem) :
    Extends p (loadSegments img start size phoff n i p).mem :=
  (loadSegments_adds n i p).toExtends

theorem loadNext_extends (n i : Nat) (r : Int) :
    Extends p (loadNext img start size phoff n i r p).mem := by
  unfold loadNext
  split
  · exact .refl _
  · exact loadSegments_extends n (i + 1) p

theorem loadSegments_spec : ∀ (n i : Nat) (p : UserMem), Loaded F room img start phoff i p →
    (∀ k < i, Passes img start size phoff k) →
    Outcome F room (p.infos.length ≤ room ∧ FitsFrom img start size phoff room i n)
      (loadSegments img start size phoff n i p)
  | 0, i, p, h, _ => by
    refine .intact h.toIntact (iff_self_and.mpr fun _ => ?_)
    exact fun j h1 h2 => absurd h2 h1.not_gt
  | n + 1, i, p, h, hcome => by
    have hsucc : ∀ {k}, Passes img start size phoff i → k < i + 1 →
        Passes img start size phoff k := by
      intro k hi hk
      rcases Nat.lt_succ_iff_lt_or_eq.mp hk with hk | rfl
      · exact hcome k hk
      · exact hi
    rw [loadSegments]
    split
    · rename_i htype
      have hspec : SegmentLoads F room img start size phoff i _ := loadSegment_spec
        ((h.read (programHeaderAddr start phoff i) 4).read
          ((programHeaderAddr start phoff i + 4) % 2 ^ 64) 44) htype
      change Outcome F room _ (Res.bind _ (loadNext img start size phoff n i))
      generalize loadSegment start size (programHeader img start phoff i)
        ((p.read (programHeaderAddr start phoff i) 4).read
          ((programHeaderAddr start phoff i + 4) % 2 ^ 64) 44) = r at hspec ⊢
      cases hspec with
      | oom ho => exact .oom (oom_bind ho fun r q => (loadNext_extends n i r).oom)
      | panic ha hnot =>
        exact .panic fun hs => hnot (((fitsFrom_succ hcome).mp hs.2).1 htype ha)
      | stuck ha hnot hinfo he =>
        exact .of_empty (fun hs => hnot (((fitsFrom_succ hcome).mp hs.2).1 htype ha))
          (infos_bind hinfo fun r q => loadNext_extends n i r) he
      | @rejected a q hneg hno hq =>
        have hnot : ¬ Passes img start size phoff i := fun hp => hno (hp htype).1
        have hend : (Res.ok a q).bind (loadNext img start size phoff n i) = .ok (-1) q :=
          if_pos hneg
        rw [hend]
        refine .intact hq.toIntact ?_
        rw [hq.length, h.length]
        refine iff_self_and.mpr fun _ => (fitsFrom_succ hcome).mpr ⟨fun _ ha => absurd ha hno, ?_⟩
        exact fitsFrom_of_not_passes hnot
      | @loaded a q ha hq hfits hpass =>
        have hS : q.infos.length ≤ room ∧ FitsFrom img start size phoff room (i + 1) n ↔
            p.infos.length ≤ room ∧ FitsFrom img start size phoff room i (n + 1) := by
          rw [fitsFrom_succ hcome, ← hfits, ← and_assoc]
          refine and_congr_left fun _ => ⟨fun hf => ⟨?_, fun _ _ => hf⟩, fun hf => hf.2 htype ha⟩
          have := hf.room
          rw [h.length]
          omega
        by_cases hneg : a < 0
        · have hnot : ¬ Passes img start size phoff i := fun hp => hpass.mpr hp hneg
          have hend : (Res.ok a q).bind (loadNext img start size phoff n i) = .ok (-1) q :=
            if_pos hneg
          rw [hend]
          refine .intact hq.toIntact (Iff.trans ?_ hS)
          exact iff_self_and.mpr fun _ => fitsFrom_of_not_passes hnot
        · have hend : (Res.ok a q).bind (loadNext img start size phoff n i) =
              loadSegments img start size phoff n (i + 1) q := if_neg hneg
          rw [hend]
          exact (loadSegments_spec n (i + 1) q hq fun k hk => hsucc (hpass.mp hneg) hk).congr hS
    · rename_i htype
      have hpass : Passes img start size phoff i := fun ht => absurd ht htype
      have hsegs : segments img start phoff (i + 1) = _ := segments_succ
      rw [if_neg htype, List.append_nil] at hsegs
      refine (loadSegments_spec n (i + 1) _ ⟨(h.read _ _).toIntact, ?_⟩
        fun k hk => hsucc hpass hk).congr (and_congr_right fun _ => ?_)
      · rw [hsegs]
        exact h.infos
      · rw [fitsFrom_succ hcome]
        exact (and_iff_right fun ht => absurd ht htype).symm

/-- A computation that returns and leaves pages and records as they are. -/
inductive Quiet (q : UserMem) : Res Int → Prop
  | ok (a : Int) {q' : UserMem} : q'.vm = q.vm → SameRecords q q' → q'.oom = q.oom →
      Quiet q (.ok a q')

theorem Quiet.setEpc (a : Int) (e : Nat) : Quiet q (.ok a { q with epc := e }) :=
  .ok a rfl ⟨rfl, rfl, rfl, rfl⟩ rfl

theorem Quiet.bind {r : Res Int} {f : Int → UserMem → Res Int} (h : Quiet q r)
    (hf : ∀ a q, Quiet q (f a q)) : Quiet q (r.bind f) := by
  cases h with
  | @ok a q1 hvm hs ho =>
    have hq := hf a q1
    change Quiet q (f a q1)
    generalize f a q1 = r at hq ⊢
    cases hq with
    | ok b hvm' hs' ho' =>
      exact .ok b (hvm'.trans hvm) ⟨hs'.infos.trans hs.infos, hs'.room.trans hs.room,
        hs'.heap.trans hs.heap, hs'.pagetable.trans hs.pagetable⟩ (ho'.trans ho)

theorem Outcome.bind {r : Res Int} {f : Int → UserMem → Res Int} (h : Outcome F room S r)
    (hf : ∀ a q, Quiet q (f a q)) : Outcome F room S (r.bind f) := by
  cases r with
  | panic e q =>
    cases h with
    | oom ho => exact .oom ho
    | panic hs => exact .panic hs
  | ok a q =>
    have hq := hf a q
    change Outcome F room S (f a q)
    generalize f a q = r at hq ⊢
    cases hq with
    | ok b hvm hs ho =>
      cases h with
      | oom hoom => exact .oom (ho.trans hoom)
      | stuck hS hinfo he => exact .stuck hS (hs.infos ▸ hinfo) he
      | intact hi hS => exact .intact (hi.sameRecords hvm hs) (hs.infos ▸ hS)

theorem loadElf_spec (h : Loaded F room img start (ePhoff (view img start)) 0 p) :
    Outcome F room (p.infos.length ≤ room ∧ (HeaderOk img start size →
        headersSum (view img start) ≤ size →
        FitsFrom img start size (ePhoff (view img start)) room 0 (ePhnum (view img start))))
      (loadElf img start size p) := by
  have hsame : ∀ q : UserMem, q.vm = p.vm → SameRecords p q → Intact F room [] q := fun q hvm hs =>
    h.toIntact.sameRecords hvm hs
  unfold loadElf
  split
  · rename_i hsize
    refine .intact h.toIntact (iff_self_and.mpr fun _ hok => ?_)
    exact absurd hok.1 (Nat.not_le_of_lt hsize)
  dsimp only
  split
  · rename_i hno
    refine .intact (hsame _ rfl ⟨rfl, rfl, rfl, rfl⟩) (iff_self_and.mpr fun _ hok => ?_)
    exact absurd hok hno
  rename_i hok
  split
  · rename_i hlt
    refine .intact (hsame _ rfl ⟨rfl, rfl, rfl, rfl⟩) (iff_self_and.mpr fun _ _ hle => ?_)
    exact absurd hle (Nat.not_le_of_lt hlt)
  rename_i hle
  have hspec : Outcome F room (p.infos.length ≤ room ∧ FitsFrom img start size
      (ePhoff (view img start)) room 0 (ePhnum (view img start))) (loadSegments img start size
        (ePhoff (view img start)) (ePhnum (view img start)) 0 (p.read start headerSize)) :=
    loadSegments_spec (ePhnum (view img start)) 0 _ (h.read start headerSize)
      fun k hk => absurd hk (Nat.not_lt_zero k)
  refine (hspec.bind fun r q => ?_).congr (and_congr_right fun _ => ?_)
  · split
    · exact .ok _ rfl ⟨rfl, rfl, rfl, rfl⟩ rfl
    · exact .setEpc _ _
  · exact ⟨fun hf _ _ => hf, fun hf => hf (Classical.not_not.mp hok) (Nat.le_of_not_lt hle)⟩

/-! ## The life of a process -/

/-- `test_load_elf` puts `argc` and `argv` on the stack. `name`, `argv0` and `argc` are the
addresses of locals of the kernel. -/
def pushArgs (name argv0 argc : Nat) (p : UserMem) : Res Int :=
  (UserMem.copyout (UserMem.pagesAbove (userTop - 12)) (userTop - 12) name 12 p).bind fun r p =>
    if r < 0 then .ok r p
    else
      (UserMem.copyout (UserMem.pagesAbove (userTop - 20)) (userTop - 20) argv0 8 p).bind fun r p =>
        if r < 0 then .ok r p
        else UserMem.copyout (UserMem.pagesAbove (userTop - 28)) (userTop - 28) argc 8 p

/-- `test_load_elf`. -/
def testLoadElf (img : Bytes) (start size name argv0 argc : Nat) (p : UserMem) : Res Int :=
  (loadElf img start size p).bind fun r p =>
    if r < 0 then .ok r p else pushArgs name argv0 argc p

/-- The image is loaded into a new process. -/
def loadNew (img : Bytes) (start size trampoline name argv0 argc : Nat) (p : UserMem) : Res Int :=
  (UserMem.construct trampoline p).bind fun _ p => testLoadElf img start size name argv0 argc p

/-- Construction, loading and destruction end, and the free pages are those from before. -/
def GivesBack (img : Bytes) (start size trampoline name argv0 argc : Nat) (p : UserMem) : Prop :=
  ∃ r q q', loadNew img start size trampoline name argv0 argc p = .ok r q ∧ q.destroy = .ok () q' ∧
    ∀ x, x ∈ q'.vm.free ↔ x ∈ p.vm.free

theorem copyout_quiet (dstva src len : Nat) :
    Quiet p (UserMem.copyout (UserMem.pagesAbove dstva) dstva src len p) := by
  have hU : ∀ n, walkaddr p.pagetable (n * pgSize) p.vm ≠ 0 → n < maxVa / pgSize := by
    intro n hn
    by_contra hlt
    refine hn (if_pos ?_)
    simp only [pgSize, maxVa] at *
    omega
  obtain ⟨r, rs, hcall, -, -⟩ := copyout_spec hU (UserMem.pagesAbove dstva) dstva src len p
    (fun _ => Iff.rfl) (le_add_pagesAbove dstva)
  rw [hcall]
  exact .ok r rfl ⟨rfl, rfl, rfl, rfl⟩ rfl

theorem pushArgs_quiet (name argv0 argc : Nat) : Quiet p (pushArgs name argv0 argc p) := by
  refine (copyout_quiet _ _ _).bind fun r q => ?_
  split
  · exact .ok r rfl ⟨rfl, rfl, rfl, rfl⟩ rfl
  · refine (copyout_quiet _ _ _).bind fun r q => ?_
    split
    · exact .ok r rfl ⟨rfl, rfl, rfl, rfl⟩ rfl
    · exact copyout_quiet _ _ _

/-! ## Construction -/

/-- The pages that `kernel_allocator` has for the process. -/
structure Pool (s : Vm) : Prop where
  nodup : s.free.Nodup
  managed : ∀ x ∈ s.free, Managed s x
  bound : ∀ x ∈ s.free, x < 2 ^ 55

/-- The pages are allocated and not mapped yet. -/
theorem owns_allocated {tf st : Nat} {free : List Nat} (hp : Pool s)
    (hfree : s.free = root :: tf :: st :: free) (hs : s'.free = free)
    (hstart : s'.start = s.start) (hstop : s'.stop = s.stop) (h0 : ∀ i, s'.mem root i = 0) :
    Owns {x | x ∈ s.free} root s' [tf, st] fun _ => none := by
  have hn := hp.nodup
  rw [hfree] at hn
  simp only [List.nodup_cons, List.mem_cons, not_or] at hn
  obtain ⟨⟨hrt, hrs, hrf⟩, ⟨hts, htf⟩, hsf, -⟩ := hn
  refine ⟨Refines.empty h0, plain_empty h0, ⟨fun x => ?_, fun x o o' ho ho' => ?_⟩, fun x hx => ?_,
    hp.bound⟩
  · rw [Set.mem_ofPred_eq, hfree]
    constructor
    · intro hx
      simp only [List.mem_cons] at hx
      rcases hx with rfl | rfl | rfl | hx
      · exact ⟨.table, Radix.root_mem_pages⟩
      · exact ⟨.held, List.mem_cons_self⟩
      · exact ⟨.held, List.mem_cons_of_mem _ List.mem_cons_self⟩
      · exact ⟨.free, by rwa [Holds, hs]⟩
    · rintro ⟨o, ho⟩
      cases o with
      | free =>
        exact List.mem_cons_of_mem _ (List.mem_cons_of_mem _ (List.mem_cons_of_mem _ (hs ▸ ho)))
      | table =>
        rw [Holds, tables_empty h0] at ho
        exact Set.mem_singleton_iff.mp ho ▸ List.mem_cons_self
      | frame n =>
        obtain ⟨-, f, hf, -⟩ := ho
        cases hf
      | held =>
        simp only [Holds, List.mem_cons, List.not_mem_nil, or_false] at ho
        rcases ho with rfl | rfl
        · exact List.mem_cons_of_mem _ List.mem_cons_self
        · exact List.mem_cons_of_mem _ (List.mem_cons_of_mem _ List.mem_cons_self)
  · have hcases : ∀ o, Holds root s' [tf, st] (fun _ => none) o x →
        o = .free ∧ x ∈ free ∨ o = .table ∧ x = root ∨ o = .held ∧ (x = tf ∨ x = st) := by
      intro o ho
      cases o with
      | free => exact .inl ⟨rfl, hs ▸ ho⟩
      | table =>
        rw [Holds, tables_empty h0] at ho
        exact .inr (.inl ⟨rfl, ho⟩)
      | frame n =>
        obtain ⟨-, f, hf, -⟩ := ho
        cases hf
      | held =>
        simp only [Holds, List.mem_cons, List.not_mem_nil, or_false] at ho
        exact .inr (.inr ⟨rfl, ho⟩)
    rcases hcases o ho with ⟨rfl, hx⟩ | ⟨rfl, rfl⟩ | ⟨rfl, rfl | rfl⟩ <;>
      rcases hcases o' ho' with ⟨rfl, hx'⟩ | ⟨rfl, hx'⟩ | ⟨rfl, hx' | hx'⟩ <;>
      first
        | rfl
        | (subst hx'; contradiction)
        | contradiction
  · rw [Managed, hstart, hstop]
    exact hp.managed x hx

theorem allocPage_cons {free : List Nat} (h : s.free = pa :: free) :
    UserMem.takePage s = (pa, { s with free := free }) := by
  rw [UserMem.takePage, Vm.allocPage, h]
  rfl

theorem allocPage_nil (h : s.free = []) : UserMem.takePage s = (0, s) := by
  rw [UserMem.takePage, Vm.allocPage, h]
  rfl

theorem mmapAt_oom {va len flags pteFlags : Nat} (h : p.oom = true) :
    (UserMem.mmapAt va pa len flags pteFlags p).mem.oom = true := by
  have hadds : Adds (fun _ => True) p (UserMem.mmapAt va pa len flags pteFlags p).mem := by
    refine Adds.bind Adds.run fun r q => ?_
    split
    · exact .starve
    · exact .pushBack _
  exact hadds.oom h

theorem initFailed_oom (h : p.oom = true) : p.initFailed.mem.oom = true := by
  refine oom_bind ?_ fun _ _ h => h
  unfold UserMem.destroy
  split
  · rename_i q hq
    obtain ⟨s, -, hq⟩ := bind_ok hq
    obtain ⟨s', -, hq⟩ := bind_ok hq
    cases hq
    exact h
  · exact h

/-- The three records are made, one after the other. -/
theorem initMaps_spec {trampoline tf st : Nat} (h : Intact F room [tf, st] p)
    (hinfos : p.infos = []) (htramp : trampoline < 2 ^ 55) (htf : tf < 2 ^ 55) (hst : st < 2 ^ 55) :
    (UserMem.initMaps trampoline tf st p).mem.oom = true ∨
      ∃ q, UserMem.initMaps trampoline tf st p = .ok 0 q ∧ Intact F room [] q ∧
        q.infos = baseInfos := by
  have hlast : ∀ q : UserMem, q.oom = true → ∀ r : Int,
      (if r < 0 then q.initFailed else .ok 0 q).mem.oom = true := by
    intro q ho r
    split
    · exact initFailed_oom ho
    · exact ho
  have hstack : ∀ q : UserMem, q.oom = true → ∀ r : Int, (if r < 0 then q.initFailed else
      (UserMem.mmapAt userStackTop st pgSize mapUser (pteU ||| pteR ||| pteW) q).bind fun r p =>
        if r < 0 then p.initFailed else .ok 0 p).mem.oom = true := by
    intro q ho r
    split
    · exact initFailed_oom ho
    · exact oom_bind (mmapAt_oom ho) fun r q ho => hlast q ho r
  have hva1 : trampolineVa = trampolinePage * pgSize := by decide
  have hva2 : trapframeVa = trapframeVa / pgSize * pgSize := by decide
  have hva3 : userStackTop = userStackTop / pgSize * pgSize := by decide
  unfold UserMem.initMaps
  rcases mmapAt_spec (p := p) (n := trampolinePage) h (by decide) (by simp [hinfos])
      (HasRwx.hasFlag (by decide : HasRwx (pteR ||| pteX))) htramp (.inl ⟨rfl, rfl⟩)
      (iff_of_true (by decide : mapShared &&& mapShared ≠ 0) rfl) (fun _ => rfl) with
    ho | ⟨q1, hcall1, hq1, hinfos1⟩
  · rw [← hva1] at ho
    refine .inl (oom_bind ho fun r q ho => ?_)
    split
    · exact initFailed_oom ho
    · exact oom_bind (mmapAt_oom ho) fun r q ho => hstack q ho r
  rw [← hva1] at hcall1 hinfos1
  rw [hcall1, Res.bind, if_neg (by decide)]
  rw [hinfos, List.nil_append] at hinfos1
  rcases mmapAt_spec (p := q1) (n := trapframeVa / pgSize) hq1 (by decide)
      (by rw [hinfos1]; decide)
      (HasRwx.hasFlag (by decide : HasRwx (pteR ||| pteW))) htf (.inr ⟨by decide, rfl, by decide⟩)
      (iff_of_false (by decide : ¬ mapDefault &&& mapShared ≠ 0) (by decide))
      (fun h => absurd h (by decide)) with
    ho | ⟨q2, hcall2, hq2, hinfos2⟩
  · rw [← hva2] at ho
    exact .inl (oom_bind ho fun r q ho => hstack q ho r)
  rw [← hva2] at hcall2 hinfos2
  rw [hcall2, Res.bind, if_neg (by decide)]
  rw [hinfos1] at hinfos2
  rcases mmapAt_spec (p := q2) (n := userStackTop / pgSize) hq2 (by decide)
      (by rw [hinfos2]; decide)
      (HasRwx.hasFlag (by decide : HasRwx (pteU ||| pteR ||| pteW))) hst
      (.inr ⟨by decide, rfl, by decide⟩)
      (iff_of_false (by decide : ¬ mapUser &&& mapShared ≠ 0) (by decide))
      (fun h => absurd h (by decide)) with
    ho | ⟨q3, hcall3, hq3, hinfos3⟩
  · rw [← hva3] at ho
    exact .inl (oom_bind ho fun r q ho => hlast q ho r)
  rw [← hva3] at hcall3 hinfos3
  rw [hcall3, Res.bind, if_neg (by decide)]
  rw [hinfos2] at hinfos3
  exact .inr ⟨q3, rfl, hq3, hinfos3⟩

/-- The constructor runs out of memory, or it makes its three records. -/
theorem construct_spec {trampoline : Nat} (hp : Pool p.vm) (hinfos : p.infos = [])
    (hheap : p.heap = []) (htramp : trampoline < 2 ^ 55) :
    (UserMem.construct trampoline p).mem.oom = true ∨
      ∃ q, UserMem.construct trampoline p = .ok 0 q ∧ Intact {x | x ∈ p.vm.free} p.room [] q ∧
        q.infos = baseInfos := by
  have hfail : ∀ c : Except Panic (Unit × Vm),
      (({ p with pagetable := 0, oom := true }.run c).bind fun _ p =>
        (.ok (-12) p : Res Int)).mem.oom =
        true := by
    intro c
    rcases c with e | ⟨u, s⟩
    · rfl
    · rfl
  rw [UserMem.construct]
  cases h1 : p.vm.free with
  | nil =>
    left
    rw [UserMem.createPagetable, Vm.allocTable, h1]
    dsimp only [Option.getD_none]
    rw [if_pos (.inl rfl)]
    exact hfail _
  | cons root free1 =>
    rw [UserMem.createPagetable, Vm.allocTable, h1]
    dsimp only [Option.getD_some]
    cases h2 : free1 with
    | nil =>
      left
      rw [allocPage_nil rfl, if_pos (.inr (.inl rfl))]
      exact hfail _
    | cons tf free2 =>
      rw [allocPage_cons rfl]
      dsimp only
      cases h3 : free2 with
      | nil =>
        left
        rw [allocPage_nil rfl, if_pos (.inr (.inr rfl))]
        exact hfail _
      | cons st free3 =>
        rw [allocPage_cons rfl]
        dsimp only
        subst h2 h3
        have hmem : ∀ x ∈ [root, tf, st], x ∈ p.vm.free := fun x hx => by
          rw [h1]
          exact List.mem_append_left free3 hx
        have hpage : ∀ x ∈ [root, tf, st], x ≠ 0 ∧ x < 2 ^ 55 := fun x hx =>
          ⟨(hp.managed x (hmem x hx)).1, hp.bound x (hmem x hx)⟩
        have hne : ¬ (root = 0 ∨ tf = 0 ∨ st = 0) := by
          rintro (h0 | h0 | h0)
          · exact (hpage root (by simp)).1 h0
          · exact (hpage tf (by simp)).1 h0
          · exact (hpage st (by simp)).1 h0
        have hnodup := hp.nodup
        rw [h1] at hnodup
        have hrest : (tf :: st :: free3).Nodup := hnodup.of_cons
        rw [if_neg hne, ← h1]
        refine initMaps_spec ⟨⟨fun _ => none, ?_, ?_⟩, hrest.of_cons.of_cons, ?_, ?_⟩ hinfos htramp
          (hpage tf (by simp)).2 (hpage st (by simp)).2
        · change Owns _ root _ ([tf, st] ++ p.heap) _
          rw [hheap]
          exact owns_allocated hp h1 rfl rfl rfl fun i => Radix.fill_self
        · change Recorded p.infos _
          rw [hinfos]
          exact .nil
        · change ([tf, st] ++ p.heap).Nodup
          rw [hheap, List.append_nil]
          exact List.Nodup.sublist (List.sublist_append_left [tf, st] free3) hrest
        · refine .inl ⟨hheap, ?_⟩
          change p.room + p.infos.length = p.room
          rw [hinfos]
          rfl

/-! ## Does it give its memory back? -/

theorem destroy_eq_ok : p.destroy = .ok () q ↔ p.freePagetable = .ok q := by
  unfold UserMem.destroy
  cases p.freePagetable with
  | ok q' => exact ⟨fun h => by cases h; rfl, fun h => by cases h; rfl⟩
  | error e => exact ⟨nofun, nofun⟩

theorem loadElf_oom (h : p.oom = true) : (loadElf img start size p).mem.oom = true := by
  have hadds : Adds UserPage p (loadElf img start size p).mem := loadElf_adds
  exact hadds.oom h

theorem Quiet.oom {r : Res Int} (h : Quiet q r) (ho : q.oom = true) : r.mem.oom = true := by
  cases h with
  | ok a _ _ hoom => exact hoom.trans ho

theorem afterLoad_quiet (name argv0 argc : Nat) (r : Int) :
    Quiet p (if r < 0 then .ok r p else pushArgs name argv0 argc p) := by
  split
  · exact .ok r rfl ⟨rfl, rfl, rfl, rfl⟩ rfl
  · exact pushArgs_quiet name argv0 argc

theorem testLoadElf_oom {name argv0 argc : Nat} (h : p.oom = true) :
    (testLoadElf img start size name argv0 argc p).mem.oom = true :=
  oom_bind (loadElf_oom h) fun r _ ho => (afterLoad_quiet name argv0 argc r).oom ho

theorem loadNew_spec {trampoline name argv0 argc : Nat} (hp : Pool p.vm) (hinfos : p.infos = [])
    (hheap : p.heap = []) (htramp : trampoline < 2 ^ 55) :
    Outcome {x | x ∈ p.vm.free} p.room (Sound img start size p.room)
      (loadNew img start size trampoline name argv0 argc p) := by
  rcases construct_spec hp hinfos hheap htramp with ho | ⟨q, hcall, hq, hbase⟩
  · exact .oom (oom_bind ho fun r q ho => testLoadElf_oom ho)
  · have hloaded : Loaded {x | x ∈ p.vm.free} p.room img start (ePhoff (view img start)) 0 q :=
      ⟨hq, hbase.trans (List.append_nil _).symm⟩
    have hS : q.infos.length ≤ p.room ↔ 3 ≤ p.room := by rw [hbase]; exact Iff.rfl
    rw [loadNew, hcall]
    exact ((loadElf_spec hloaded).bind fun r q => afterLoad_quiet name argv0 argc r).congr
      (and_congr_left fun _ => hS)

/-- A process for which every allocation succeeds gives all its pages back if and only if the image
is sound. -/
theorem gives_back_iff (img : Bytes) (start size trampoline name argv0 argc : Nat) (p : UserMem)
    (hp : Pool p.vm) (hinfos : p.infos = []) (hheap : p.heap = []) (htramp : trampoline < 2 ^ 55)
    (hmem : (loadNew img start size trampoline name argv0 argc p).mem.oom = false) :
    GivesBack img start size trampoline name argv0 argc p ↔ Sound img start size p.room := by
  have hspec : Outcome {x | x ∈ p.vm.free} p.room (Sound img start size p.room)
      (loadNew img start size trampoline name argv0 argc p) := loadNew_spec hp hinfos hheap htramp
  unfold GivesBack
  generalize loadNew img start size trampoline name argv0 argc p = r at hspec hmem
  cases hspec with
  | oom ho => exact absurd ho (Bool.eq_false_iff.mp hmem)
  | panic hS => exact iff_of_false (fun ⟨_, _, _, h, _⟩ => nomatch h) hS
  | stuck hS hinfo he =>
    refine iff_of_false ?_ hS
    rintro ⟨r, q, q', hq, hdestroy, -⟩
    cases hq
    exact freePagetable_not_ok hinfo (.inr he) (destroy_eq_ok.mp hdestroy)
  | @intact a q hq hS =>
    obtain ⟨m, howns, hrec⟩ := hq.map
    obtain ⟨q', hfree, hall, hheld⟩ := freePagetable_spec howns hrec
    rw [← hS, ← hq.heap_nil_iff]
    constructor
    · rintro ⟨r, u, u', hu, hdestroy, hsame⟩
      cases hu
      have hok := destroy_eq_ok.mp hdestroy
      rw [hfree] at hok
      cases hok
      refine List.eq_nil_iff_forall_not_mem.mpr fun x hx => hheld x hx ?_
      exact (hsame x).mpr ((hall x).mpr (.inr hx))
    · intro hnil
      refine ⟨a, q, q', rfl, destroy_eq_ok.mpr hfree, fun x => ?_⟩
      have hx := hall x
      rw [hnil] at hx
      exact (hx.trans (or_iff_left List.not_mem_nil)).symm

/-- A process before its construction, with ten free pages and room for thirty records. -/
def newMem : UserMem :=
  ⟨⟨fun _ _ => 0, [12288, 16384, 20480, 24576, 28672, 32768, 36864, 40960, 45056, 49152], 12288,
    409600⟩, 0, [], 30, [], false, 0, 0, 0, [], []⟩

theorem newMem_pool : Pool newMem.vm := by
  have hpage : ∀ x ∈ newMem.vm.free, x ≠ 0 ∧ x % pgSize = 0 ∧ 12288 ≤ x ∧ x < 409600 := by
    decide
  exact ⟨by decide, hpage, fun x hx => (hpage x hx).2.2.2.trans (by decide)⟩

theorem gives_back_iff_sample :
    (loadNew sampleImage 4096 128 8192 0 0 0 newMem).mem.maps = [16] ∧
      GivesBack sampleImage 4096 128 8192 0 0 0 newMem := by
  have hnum : ePhnum (view sampleImage 4096) = 1 := by decide +kernel
  have hsound : Sound sampleImage 4096 128 30 := by
    refine ⟨by decide, fun _ _ j _ hj _ _ _ => ?_⟩
    rw [hnum] at hj
    obtain rfl : j = 0 := Nat.lt_one_iff.mp hj
    exact ⟨by decide +kernel, nofun, by decide⟩
  refine ⟨by decide +kernel, ?_⟩
  exact (gives_back_iff sampleImage 4096 128 8192 0 0 0 newMem newMem_pool rfl rfl (by decide)
    (by decide +kernel)).mpr hsound

/-- An image with a segment of 0 bytes at 65536. -/
def emptyImage : Bytes :=
  imageOf (sampleHeader [64, 0, 0, 0, 0, 0, 0, 0] ++
    [1, 0, 0, 0, 5, 0, 0, 0, 120, 0, 0, 0, 0, 0, 0, 0, 0, 0, 1, 0, 0, 0, 0, 0,
      0, 0, 0, 0, 0, 0, 0, 0, 0, 0, 0, 0, 0, 0, 0, 0, 0, 0, 0, 0, 0, 0, 0, 0])

/-- The segment is recorded with size 0. The destructor unmaps its page, which is not mapped, and
panics. -/
theorem empty_segment_not_given_back :
    Pool newMem.vm ∧ (loadNew emptyImage 4096 128 8192 0 0 0 newMem).mem.oom = false ∧
      ¬ GivesBack emptyImage 4096 128 8192 0 0 0 newMem := by
  refine ⟨newMem_pool, by decide +kernel, ?_⟩
  rintro ⟨r, q, q', hload, hdestroy, -⟩
  have hrecord : ⟨65536, 0, mapUser, pteR ||| pteX ||| pteU⟩ ∈
      (loadNew emptyImage 4096 128 8192 0 0 0 newMem).mem.infos := by
    decide +kernel
  rw [hload] at hrecord
  exact freePagetable_not_ok hrecord (.inr ⟨by decide, by decide, by decide⟩)
    (destroy_eq_ok.mp hdestroy)

end CoroCore.User
