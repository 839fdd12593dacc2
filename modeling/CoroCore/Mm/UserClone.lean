import CoroCore.Mm.UserVm

/-!
# Copying a user's memory: `mm/vmem.cc`

Like `uvmalloc`, `uvmcopy` exchanges the physical address and the size when it maps a page, and its
error paths pass numbers of pages to `uvmunmap`.

* `Copyable.ends`: when `uvmcopy` returns, it returns 0, and the stack is mapped to a frame that is
  not a page of the allocator;
* `uvmcopy_never`: `uvmcopy` neither copies nor leaves everything as it was.
-/

namespace CoroCore.Vmem

open Lib

abbrev textStart : Nat := 4096

/-- A round of the loops of `uvmcopy`: whether the page was copied. The panics of `uvmunmap` stand
for those of `uvmcopy`. -/
def copyPage (old new cur : Nat) (s : Vm) : Except Panic (Bool × Vm) := do
  match ← walk old cur false s with
  | (none, _) => throw .noTable
  | (some (x, i), s) =>
    if ¬ valid (s.mem x i) then throw .notMapped
    else
      match s.allocPage with
      | none => return (false, s)
      | some (mem, t) => do
        let (r, t) ← mappages new cur pgSize mem (s.mem x i % 1024)
          { t with mem := Function.update t.mem mem (t.mem (pte2pa (s.mem x i))) }
        if r ≠ 0 then
          let t ← t.freePage mem
          return (false, t)
        else return (true, t)

/-- A loop of `uvmcopy`, up to `stop`. It returns the address at which it was left by a `goto`. -/
def copyLoop (old new stop : Nat) : Nat → Nat → Vm → Except Panic (Option Nat × Vm)
  | 0, _, _ => .error .runaway
  | fuel + 1, cur, s =>
    if stop ≤ cur then .ok (none, s)
    else do
      let (copied, s) ← copyPage old new cur s
      if copied then copyLoop old new stop fuel (cur + pgSize) s else return (some cur, s)

/-- The size of the text, in 64 bits. -/
def textSize (total : Nat) : Nat := (total + (2 ^ 64 - stackSize)) % 2 ^ 64

/-- The end of the text, in 64 bits. -/
def textStop (total : Nat) : Nat := (textStart + textSize total) % 2 ^ 64

/-- `uvmcopy` -/
def uvmcopy (old new total : Nat) (s : Vm) : Except Panic (Int × Vm) := do
  match ← copyLoop old new stackBottom 2 (stackBottom - stackSize) s with
  | (some _, s) => do
    -- `err_ustack`
    let s ← uvmunmap new (stackBottom - stackSize) (stackSize / pgSize) true s
    return (-1, s)
  | (none, s) => do
    match ← copyLoop old new (textStop total) (textStop total / pgSize + 2) textStart s with
    | (some cur, s) => do
      -- `err`
      let s ← uvmunmap new textStart ((cur - textStart) / pgSize) false s
      return (-1, s)
    | (none, s) => return (0, s)

/-! ## What `uvmcopy` is for -/

/-- The addresses in the pages of the stack and of the text. -/
def CopiedPage (total va : Nat) : Prop :=
  stackBottom - stackSize ≤ va ∧ va < stackBottom ∨
    textStart ≤ va ∧ pgRoundDown va < textStart + (total - stackSize)

/-- The stack and the text of `old` are mapped, and nothing is mapped in `new`. -/
structure Copyable (old new total : Nat) (s : Vm) (m : PageMap) : Prop where
  oldMap : Refines old s m
  newMap : Refines new s fun _ => none
  freshOld : Fresh old s
  freshNew : Fresh new s
  apart : ∀ x ∈ tables old s, x ∉ tables new s
  stack : stackSize ≤ total
  below : textStart + (total - stackSize) ≤ stackBottom - stackSize
  mapped : ∀ va < maxVa, CopiedPage total va → m (va / pgSize) ≠ none
  managed : ∀ p ∈ s.free, s.start ≤ p ∧ p < s.stop
  ram : ramStart ≤ s.start ∧ s.stop ≤ ramStop

/-- The pages of the user are mapped in `new` as in `old`, to different pages that were free, with
the same bytes. -/
structure Cloned (old new total : Nat) (s s' : Vm) : Prop where
  copied : ∀ va < maxVa, CopiedPage total va → ∃ e e', lookup old va s = some e ∧
    lookup new va s' = some e' ∧ e' % 1024 = e % 1024 ∧ pte2pa e' ∈ s.free ∧
    pte2pa e' ∉ s'.free ∧ s'.mem (pte2pa e') = s.mem (pte2pa e)
  distinct : ∀ va < maxVa, ∀ a < maxVa, CopiedPage total va → CopiedPage total a →
    ∀ e e', lookup new va s' = some e → lookup new a s' = some e' → pte2pa e = pte2pa e' →
    va / pgSize = a / pgSize

/-- Nothing is mapped in `new`, and the pages that were free are free, or tables of `new`. -/
structure NoTrace (new : Nat) (s s' : Vm) : Prop where
  unmapped : ∀ va < maxVa, lookup new va s' = none
  free : ∀ p ∈ s.free, p ∈ s'.free ∨ p ∈ tables new s'

/-- `uvmcopy` copies and returns 0, or leaves no trace and returns -1. -/
def Clones (old new total : Nat) (s : Vm) : Prop :=
  ∃ r s', uvmcopy old new total s = .ok (r, s') ∧
    (r = 0 ∧ Cloned old new total s s' ∨ r = -1 ∧ NoTrace new s s')

variable {old new total x cur stop fuel : Nat} {s s' : Vm} {m : PageMap} {r : Option Nat × Vm}

/-! ## The error paths -/

/-- A loop of `uvmunmap` that is past its last page ends in a panic. -/
theorem unmapLoop_past {root last : Nat} {doFree : Bool} : ∀ (fuel a : Nat) (s s' : Vm), last < a →
    unmapLoop root last doFree fuel a s ≠ .ok s'
  | 0, _, _, _, _ => nofun
  | fuel + 1, a, s, s', hlt => by
    intro hok
    rw [unmapLoop] at hok
    obtain ⟨⟨found, s1⟩, -, hok⟩ := bind_ok hok
    cases found with
    | none => cases hok
    | some xi =>
      dsimp only at hok
      split at hok
      · cases hok
      · split at hok
        · cases hok
        · obtain ⟨s2, -, hok⟩ := bind_ok hok
          rw [if_neg hlt.ne'] at hok
          exact unmapLoop_past fuel _ _ _ (Nat.lt_add_right _ hlt) hok

theorem uvmunmap_zero {root : Nat} {doFree : Bool} :
    uvmunmap root textStart 0 doFree s ≠ .ok s' := by
  intro hok
  rw [uvmunmap] at hok
  split at hok
  · cases hok
  · exact unmapLoop_past _ _ _ _ (by decide) hok

theorem uvmunmap_one {root va : Nat} {doFree : Bool} : uvmunmap root va 1 doFree s ≠ .ok s' := by
  rw [uvmunmap, if_pos (.inr (by decide))]
  intro hok
  cases hok

/-! ## A round -/

/-- What a round did that copied a page: the page at `cur`, and those after it, are mapped to the
frames from `PGSIZE` on. -/
structure RoundDone (new cur : Nat) (s s' : Vm) : Prop where
  fresh : Fresh new s'
  tree : Tree new s'
  mapped : ∃ k flags, 2 ≤ k ∧ k ≤ ramStop / pgSize ∧ flags < 1024 ∧
    entry new s' cur = leafPte pgSize flags ∧
    (∀ va < maxVa, cur / pgSize ≤ va / pgSize → va / pgSize < cur / pgSize + k →
      valid (entry new s' va)) ∧
    ∀ va < maxVa, ¬ (cur / pgSize ≤ va / pgSize ∧ va / pgSize < cur / pgSize + k) →
      entry new s' va = entry new s va
  bound : s'.free ⊆ s.free

/-- A free page was taken, filled with the bytes of a frame and passed as a size. -/
theorem copyPage_call (hva : cur < maxVa) (hok : copyPage old new cur s = .ok (true, s')) :
    ∃ y free e, s.free = y :: free ∧ mappages new cur pgSize y (e % 1024)
      { s with mem := Function.update s.mem y (s.mem (pte2pa e)), free := free } = .ok (0, s') := by
  rw [copyPage] at hok
  obtain ⟨⟨found, s1⟩, hwalk, hok⟩ := bind_ok hok
  cases found with
  | none => cases hok
  | some xi =>
    rw [walk_read hva] at hwalk
    obtain ⟨-, rfl⟩ := Prod.mk.inj (Except.ok.inj hwalk)
    dsimp only at hok
    split at hok
    · cases hok
    · cases hfree : s.free with
      | nil =>
        rw [Vm.allocPage, hfree] at hok
        cases hok
      | cons y free =>
        rw [Vm.allocPage, hfree] at hok
        dsimp only at hok
        obtain ⟨⟨r, s2⟩, hmap, hok⟩ := bind_ok hok
        dsimp only at hok
        split at hok
        · obtain ⟨s3, -, hok⟩ := bind_ok hok
          cases hok
        · rename_i hr
          obtain rfl : s2 = s' := (Prod.mk.inj (Except.ok.inj hok)).2
          obtain rfl : r = 0 := not_not.mp hr
          exact ⟨y, free, _, rfl, hmap⟩

theorem update_outside {y : Nat} {v : Nat → Nat} (hf : Fresh new s) (hy : y ∈ s.free) :
    ∀ z ∈ tables new s, Function.update s.mem y v z = s.mem z := fun z hz =>
  Function.update_of_ne (by rintro rfl; exact hf.outside z hy hz) _ _

theorem copyPage_true (ht : Tree new s) (hf : Fresh new s)
    (hram : ∀ p ∈ s.free, ramStart ≤ p ∧ p < ramStop) (hcur : cur % pgSize = 0)
    (hlt : cur ≤ stackBottom) (hok : copyPage old new cur s = .ok (true, s')) :
    RoundDone new cur s s' := by
  have hva : cur < maxVa := lt_of_le_of_lt hlt (by decide)
  have hround : cur / pgSize * pgSize = cur := Nat.div_mul_cancel (Nat.dvd_of_mod_eq_zero hcur)
  obtain ⟨y, free, e, hfree, hmap⟩ := copyPage_call hva hok
  have hy : y ∈ s.free := hfree ▸ List.mem_cons_self
  have hsame := update_outside (v := s.mem (pte2pa e)) hf hy
  have ht' : Tree new { s with mem := Function.update s.mem y (s.mem (pte2pa e)), free := free } :=
    Radix.Separated.congr ht hsame
  obtain ⟨k, hsome, hcase⟩ := mappages_some ht' (hf.taken hfree hsame) hva hmap
  obtain ⟨-, hk, hlast⟩ := hcase.resolve_right fun h => nomatch h.1
  have hpages : 2 ≤ k ∧ k ≤ ramStop / pgSize := by
    have hmem := hram y hy
    have haligned := hf.aligned y hy
    simp only [lastPage, pgRoundDown, pgSize, stackBottom, ramStart, ramStop] at *
    omega
  refine ⟨hsome.uses.fresh, hsome.tree, ⟨k, e % 1024, hpages.1, hpages.2,
    Nat.mod_lt _ (by decide), hround ▸ hsome.first hk,
    fun va hva h1 h2 => (hsome.mapped va hva h1 h2).1, fun va hva hout => ?_⟩, fun p hp => ?_⟩
  · exact (hsome.other va hva hout).trans (Radix.leaf_congr hsame (path_length 2).le)
  · obtain ⟨used, hused, -⟩ := hsome.uses.used
    change free = used ++ s'.free at hused
    rw [hfree, hused]
    exact List.mem_cons_of_mem y (List.mem_append_right used hp)

/-- A page that is mapped in the new table is not copied. -/
theorem copyPage_valid (hf : Fresh new s) (hcur : cur % pgSize = 0) (hva : cur < maxVa)
    (hv : valid (entry new s cur)) : copyPage old new cur s ≠ .ok (true, s') := by
  intro hok
  have hround : cur / pgSize * pgSize = cur := Nat.div_mul_cancel (Nat.dvd_of_mod_eq_zero hcur)
  obtain ⟨y, free, e, hfree, hmap⟩ := copyPage_call hva hok
  have hsame := update_outside (v := s.mem (pte2pa e)) hf (hfree ▸ List.mem_cons_self)
  have hentry : entry new { s with mem := Function.update s.mem y (s.mem (pte2pa e)), free := free }
      cur = entry new s cur := Radix.leaf_congr hsame (path_length 2).le
  rw [mappages_valid hva (by rwa [hround, hentry])] at hmap
  cases hmap

/-! ## The loops -/

theorem copyLoop_step (hok : copyLoop old new stop (fuel + 1) cur s = .ok r) :
    stop ≤ cur ∧ r = (none, s) ∨ cur < stop ∧
      ((∃ s1, copyPage old new cur s = .ok (false, s1) ∧ r = (some cur, s1)) ∨
      ∃ s1, copyPage old new cur s = .ok (true, s1) ∧
        copyLoop old new stop fuel (cur + pgSize) s1 = .ok r) := by
  rw [copyLoop] at hok
  split at hok
  · exact .inl ⟨‹_›, (Except.ok.inj hok).symm⟩
  · rename_i hlt
    obtain ⟨⟨copied, s1⟩, hpage, hok⟩ := bind_ok hok
    refine .inr ⟨Nat.not_le.mp hlt, ?_⟩
    cases copied with
    | false => exact .inl ⟨s1, hpage, (Except.ok.inj hok).symm⟩
    | true => exact .inr ⟨s1, hpage, hok⟩

section Copyable

variable (h : Copyable old new total s m)
include h

theorem Copyable.free_ram : ∀ p ∈ s.free, ramStart ≤ p ∧ p < ramStop := fun p hp =>
  ⟨h.ram.1.trans (h.managed p hp).1, (h.managed p hp).2.trans_le h.ram.2⟩

/-- The first loop copies the page of the stack or runs into a panic. -/
theorem Copyable.stack_loop {failed : Option Nat}
    (hok : copyLoop old new stackBottom 2 (stackBottom - stackSize) s = .ok (failed, s')) :
    failed = some (stackBottom - stackSize) ∨
      failed = none ∧ RoundDone new (stackBottom - stackSize) s s' := by
  rcases copyLoop_step hok with ⟨hle, -⟩ | ⟨-, ⟨s1, -, hr⟩ | ⟨s1, hpage, hok⟩⟩
  · exact absurd hle (by decide)
  · exact .inl (Prod.mk.inj hr).1
  · rcases copyLoop_step hok with ⟨-, hr⟩ | ⟨hlt, -⟩
    · obtain ⟨rfl, rfl⟩ := Prod.mk.inj hr
      exact .inr ⟨rfl, copyPage_true h.newMap.tree h.freshNew h.free_ram (by decide)
        (by decide) hpage⟩
    · exact absurd hlt (by decide)

omit h in
/-- The second loop copies at most one page. -/
theorem RoundDone.text_loop {start : Vm} {failed : Option Nat} (hs : RoundDone new x start s)
    (hram : ∀ p ∈ s.free, ramStart ≤ p ∧ p < ramStop)
    (hok : copyLoop old new stop (fuel + 2) textStart s = .ok (failed, s')) :
    failed = some textStart ∨ failed = some (textStart + pgSize) ∨
      failed = none ∧ (s' = s ∨ RoundDone new textStart s s') := by
  rcases copyLoop_step hok with ⟨-, hr⟩ | ⟨-, ⟨s1, -, hr⟩ | ⟨s1, hpage, hok⟩⟩
  · obtain ⟨rfl, rfl⟩ := Prod.mk.inj hr
    exact .inr (.inr ⟨rfl, .inl rfl⟩)
  · exact .inl (Prod.mk.inj hr).1
  · have hdone := copyPage_true hs.tree hs.fresh hram (by decide) (by decide) hpage
    rcases copyLoop_step hok with ⟨-, hr⟩ | ⟨-, ⟨s2, -, hr⟩ | ⟨s2, hpage2, -⟩⟩
    · obtain ⟨rfl, rfl⟩ := Prod.mk.inj hr
      exact .inr (.inr ⟨rfl, .inr hdone⟩)
    · exact .inr (.inl (Prod.mk.inj hr).1)
    · obtain ⟨k, flags, hk, -, -, -, hmapped, -⟩ := hdone.mapped
      have hv : valid (entry new s1 (textStart + pgSize)) :=
        hmapped _ (by decide) (by decide) (by simp only [textStart, pgSize]; omega)
      exact absurd hpage2 (copyPage_valid hdone.fresh (by decide) (by decide) hv)

/-- When `uvmcopy` returns, the stack is mapped to the frame at `PGSIZE`. -/
theorem Copyable.ends {r : Int} (hok : uvmcopy old new total s = .ok (r, s')) :
    r = 0 ∧ ∃ flags < 1024, entry new s' (stackBottom - stackSize) = leafPte pgSize flags := by
  rw [uvmcopy] at hok
  obtain ⟨⟨failed, s1⟩, hstack, hok⟩ := bind_ok hok
  rcases h.stack_loop hstack with rfl | ⟨rfl, hdone⟩
  · obtain ⟨s2, hunmap, -⟩ := bind_ok hok
    exact absurd hunmap uvmunmap_one
  · obtain ⟨-, flags, -, -, hflags, hentry, -⟩ := hdone.mapped
    obtain ⟨⟨failed, s2⟩, htext, hok⟩ := bind_ok hok
    have hram : ∀ p ∈ s1.free, ramStart ≤ p ∧ p < ramStop := fun p hp =>
      h.free_ram p (hdone.bound hp)
    rcases hdone.text_loop hram htext with rfl | rfl | ⟨rfl, hs⟩
    · obtain ⟨s3, hunmap, -⟩ := bind_ok hok
      exact absurd hunmap uvmunmap_zero
    · obtain ⟨s3, hunmap, -⟩ := bind_ok hok
      exact absurd hunmap uvmunmap_one
    · obtain ⟨rfl, rfl⟩ := Prod.mk.inj (Except.ok.inj hok)
      refine ⟨rfl, flags, hflags, ?_⟩
      rcases hs with rfl | hs
      · exact hentry
      · -- the page of the text and those after it do not reach the stack
        obtain ⟨k, -, -, hk, -, -, -, hother⟩ := hs.mapped
        rw [hother _ (by decide) ?_, hentry]
        simp only [textStart, pgSize, stackBottom, stackSize, ramStop] at *
        omega

/-- Without a free page the error path of the stack is taken, which passes one page as one byte to
`uvmunmap`. -/
theorem Copyable.no_page (hfree : s.free = []) : uvmcopy old new total s = .error .notAligned := by
  have hva : stackBottom - stackSize < maxVa := by decide
  have hlook := h.oldMap.lookup _ hva
  obtain ⟨f, hf⟩ := Option.ne_none_iff_exists'.mp
    (h.mapped (stackBottom - stackSize) hva (.inl ⟨le_rfl, by decide⟩))
  rw [hf] at hlook
  obtain ⟨hentry, hv⟩ := lookup_eq_some hva hlook
  obtain ⟨x, hx⟩ := node_of_valid (hentry.symm ▸ hv)
  have hpage : copyPage old new (stackBottom - stackSize) s = .ok (false, s) := by
    rw [copyPage, walk_read hva, hx]
    simp only [bind, Except.bind, Option.map_some]
    rw [entry_of_node hx, hentry, if_neg (not_not_intro hv), Vm.allocPage, hfree]
    rfl
  have hloop : copyLoop old new stackBottom 2 (stackBottom - stackSize) s =
      .ok (some (stackBottom - stackSize), s) := by
    rw [copyLoop, if_neg (by decide), hpage]
    rfl
  rw [uvmcopy, hloop]
  rfl

end Copyable

/-- `uvmcopy` never does what it is for: it panics, or the stack is mapped to a frame that is not a
page of the allocator. -/
theorem uvmcopy_never (h : Copyable old new total s m) : ¬ Clones old new total s := by
  rintro ⟨r, s', hok, hend⟩
  obtain ⟨rfl, flags, hflags, hentry⟩ := h.ends hok
  obtain ⟨-, hcloned⟩ := hend.resolve_right fun h => nomatch h.1
  obtain ⟨e, e', -, hlook, -, hfree, -⟩ :=
    hcloned.copied (stackBottom - stackSize) (by decide) (.inl ⟨le_rfl, by decide⟩)
  obtain ⟨rfl, -⟩ := lookup_eq_some (by decide) hlook
  have hframe : frame (pgSize, flags) = pgSize := frame_eq rfl (by decide) hflags
  rw [hentry, show pte2pa (leafPte pgSize flags) = pgSize from hframe] at hfree
  exact absurd (h.free_ram _ hfree).1 (by decide)

/-- A page table in which only the page of the stack is mapped, and an empty one in the last free
page. -/
theorem stack_copyable : ∃ s m, Copyable ramStart 0x80302000 stackSize s m ∧ s.free = [] := by
  have hg : Growable ramStart 0 0 (bareVm [0x80300000, 0x80301000, 0x80302000]) fun _ => none :=
    bareVm_growable (by decide) (by decide) (by decide)
  have hflag : HasRwx uxwr := by decide
  have hspec : ∃ r s, mappages ramStart (stackBottom - stackSize) 0x80400000 pgSize uxwr
        (bareVm [0x80300000, 0x80301000, 0x80302000]) = .ok (r, s) ∧ _ :=
    mappages_spec hg.refines hg.fresh (by decide) (by decide) (by decide) hflag.hasFlag
      fun _ _ => rfl
  obtain ⟨r, s, hcall, hmapped⟩ := hspec
  have hrun : (mappages ramStart (stackBottom - stackSize) 0x80400000 pgSize uxwr
      (bareVm [0x80300000, 0x80301000, 0x80302000])).toOption.map (fun p => (p.1, p.2.free)) =
        some (0, [0x80302000]) := by
    decide +kernel
  rw [hcall] at hrun
  obtain ⟨rfl, hfree⟩ := Prod.mk.inj (Option.some.inj hrun)
  have hr := (hmapped.cases.resolve_right fun h => absurd h.1 (by decide)).2
  have hout : 0x80302000 ∉ tables ramStart s :=
    hmapped.uses.fresh.outside 0x80302000 (hfree ▸ List.mem_cons_self)
  have hsame := Radix.fill_outside (e := 0) hout
  have hempty : ∀ (C : Nat → Prop), ∀ x ∈ ([] : List Nat), C x :=
    fun _ _ h => absurd h List.not_mem_nil
  have hzero : ∀ i, Radix.fill s.mem 0x80302000 0 0x80302000 i = 0 := fun _ => Radix.fill_self
  refine ⟨{ s with mem := Radix.fill s.mem 0x80302000 0, free := [] }, _,
    ⟨hr.taken hsame, Refines.empty hzero, hmapped.uses.fresh.taken hfree hsame,
      ⟨List.nodup_nil, hempty _, hempty _, hempty _⟩, fun x hx => ?_, le_rfl, by decide,
      fun va hva hpage => ?_, hempty _, ?_⟩, rfl⟩
  · rw [tables_empty hzero, Set.mem_singleton_iff]
    rintro rfl
    rw [tables, Radix.pages_congr hsame] at hx
    exact hout hx
  · have hin : va / pgSize = (stackBottom - stackSize) / pgSize := by
      rcases hpage with hstack | htext
      · simp only [pgSize, stackBottom, stackSize] at *
        omega
      · simp only [pgRoundDown, pgSize, textStart, stackSize] at htext
        omega
    rw [hin, PageMap.map, if_pos ⟨le_rfl, by decide⟩]
    exact Option.some_ne_none _
  · rw [hmapped.uses.start, hmapped.uses.stop]
    exact ⟨le_rfl, le_rfl⟩

/-- With the stack mapped and no free page, `uvmcopy` panics. -/
theorem uvmcopy_panics : ∃ s m, Copyable ramStart 0x80302000 stackSize s m ∧
    uvmcopy ramStart 0x80302000 stackSize s = .error .notAligned ∧
    ¬ Clones ramStart 0x80302000 stackSize s := by
  obtain ⟨s, m, h, hfree⟩ := stack_copyable
  have hpanic := h.no_page hfree
  refine ⟨s, m, h, hpanic, ?_⟩
  rintro ⟨r, s', hok, -⟩
  rw [hpanic] at hok
  cases hok

theorem uvmcopy_never_stack : ∃ s m, Copyable ramStart 0x80302000 stackSize s m ∧
    ¬ Clones ramStart 0x80302000 stackSize s := by
  obtain ⟨s, m, h, -⟩ := stack_copyable
  exact ⟨s, m, h, uvmcopy_never h⟩

end CoroCore.Vmem
