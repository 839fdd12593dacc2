import CoroCore.Mm.PageCount

/-!
# The pages of a page table go back once: `mm/vmem.cc`

`PoolStep` is a call of `mappages` or `uvmunmap` on a page table, with others at work beside it.

* `poolTree_step`: the pages of the tree belong to `kernel_allocator`, and what is mapped has an
  access flag;
* `table_pages_freed_once`: what `free_pagetable_pages` does with such a tree.
-/

namespace CoroCore.Vmem

open Lib

/-- A call, or what others do: they allocate and free pages of `kernel_allocator`, and write to
memory outside the tree. The free pages are not in the tree when `mappages` is called, and neither
are the frames that `uvmunmap` frees. -/
inductive PoolStep (root : Nat) : Vm → Op → Vm → Prop
  | mappages {s s' : Vm} {va pa size perm : Nat} {r : Int} : HasRwx perm → Fresh root s →
      mappages root va pa size perm s = .ok (r, s') →
      PoolStep root s (.mappages va pa size perm) s'
  | uvmunmap {s s' : Vm} {va size : Nat} {doFree : Bool} : UnmapPre root s va size doFree →
      uvmunmap root va size doFree s = .ok s' → PoolStep root s (.uvmunmap va size doFree) s'
  | others {s s' : Vm} : Kept root s s' → (∀ x ∈ s'.free, Managed s' x) →
      PoolStep root s .others s'

/-- What is mapped has an access flag, and the pages are those of the allocator. -/
structure PoolTree (root : Nat) (s : Vm) : Prop where
  refines : ∃ m, Refines root s m ∧ ∀ n f, m n = some f → HasRwx f.2
  plain : Plain root s
  tables : ∀ x ∈ tables root s, Managed s x
  free : ∀ x ∈ s.free, Managed s x

variable {root va pa x i size perm last : Nat} {s s' : Vm} {r : Int} {op : Op} {doFree : Bool}

theorem Managed.congr (h : Managed s x) (hstart : s'.start = s.start) (hstop : s'.stop = s.stop) :
    Managed s' x := by
  rwa [Managed, hstart, hstop]

theorem HasRwx.leafPte (h : HasRwx perm) : HasRwx (leafPte pa perm) := by
  intro hzero
  refine h (Nat.eq_zero_of_le_zero (hzero ▸ ?_))
  rw [Vmem.leafPte, Nat.and_or_distrib_right, Nat.and_or_distrib_right]
  exact Nat.right_le_or.trans Nat.left_le_or

/-! ## Runs -/

theorem poolTree_empty (h0 : ∀ i, s.mem root i = 0) (hroot : Managed s root)
    (hfree : ∀ x ∈ s.free, Managed s x) : PoolTree root s where
  refines := ⟨_, Refines.empty h0, nofun⟩
  plain := plain_empty h0
  tables := by
    rw [tables_empty h0]
    rintro x rfl
    exact hroot
  free := hfree

/-- The tree grew. -/
theorem PoolTree.grown (h : PoolTree root s) (hg : Grown root s s') : PoolTree root s' := by
  obtain ⟨m, hr, hflags⟩ := h.refines
  obtain ⟨used, hused, htables⟩ := hg.used
  refine ⟨⟨m, hr.grown hg, hflags⟩, hg.plain h.plain, fun x hx => ?_, fun x hx => ?_⟩
  · rw [htables] at hx
    refine Managed.congr ?_ hg.start hg.stop
    rcases hx with hx | hx
    · exact h.free x (hused ▸ List.mem_append_left _ hx)
    · exact h.tables x hx
  · exact (h.free x (hused ▸ List.mem_append_right _ hx)).congr hg.start hg.stop

/-- A page was mapped. -/
theorem PoolTree.leaf (h : PoolTree root s) (hperm : HasRwx perm) (hva : va < maxVa)
    (hx : Radix.node child s.mem root (path 2 va) = some x) :
    PoolTree root (s.write x (px 0 va) (leafPte pa perm)) := by
  obtain ⟨m, hr, hflags⟩ := h.refines
  refine ⟨⟨_, hr.write hva hx (v := some (pa, perm)) ?_ (if_pos (valid_or _)), fun n f hf => ?_⟩,
    h.plain.write hr.tree hx (px_lt hva rfl), ?_, h.free⟩
  · rintro f ⟨rfl⟩
    exact hperm.hasFlag
  · rcases eq_or_ne n (va / pgSize) with rfl | hne
    · rw [Function.update_self] at hf
      cases hf
      exact hperm
    · rw [Function.update_of_ne hne] at hf
      exact hflags n f hf
  · rw [tables_write hr.tree hx]
    exact h.tables

theorem mapLoop_pool (hperm : HasRwx perm) : ∀ (fuel a pa : Nat) (s : Vm), PoolTree root s →
    Fresh root s → mapLoop root last perm fuel a pa s = .ok (r, s') → PoolTree root s'
  | 0, _, _, _, _, _, hok => by cases hok
  | fuel + 1, a, pa, s, h, hf, hok => by
    rw [mapLoop] at hok
    obtain ⟨⟨w, s1⟩, hwalk, hok⟩ := bind_ok hok
    have ha : a < maxVa := by
      by_contra hge
      rw [walk, if_pos (Nat.not_lt.mp hge)] at hwalk
      cases hwalk
    obtain ⟨m, hr, -⟩ := h.refines
    obtain ⟨w', s1', hwalk', hgrown, -, hfound⟩ := walk_alloc hr.tree hf ha
    cases hwalk.symm.trans hwalk'
    have h1 := h.grown hgrown
    cases w with
    | none =>
      cases hok
      exact h1
    | some xi =>
      obtain ⟨x, i⟩ := xi
      obtain ⟨rfl, hx⟩ := hfound x i rfl
      have h2 : PoolTree root (s1.write x (px 0 a) (leafPte pa perm)) := h1.leaf hperm ha hx
      simp only at hok
      split at hok
      · cases hok
      split at hok
      · cases hok
        exact h2
      · exact mapLoop_pool hperm fuel _ _ _ h2 (hgrown.fresh.write hgrown.tree hx) hok

/-- Pages were unmapped. -/
theorem PoolTree.unmapped (h : PoolTree root s) (hpre : UnmapPre root s va size doFree)
    (hok : uvmunmap root va size doFree s = .ok s') : PoolTree root s' := by
  obtain ⟨m, hr, hflags⟩ := h.refines
  obtain ⟨t, hok', hun⟩ := hpre.spec hr
  cases hok.symm.trans hok'
  refine ⟨⟨_, hun.refines, fun n f hf => ?_⟩, hun.plain h.plain, fun x hx => ?_, fun x hx => ?_⟩
  · rw [PageMap.unmap] at hf
    split at hf
    · cases hf
    · exact hflags n f hf
  · rw [hun.tables] at hx
    exact (h.tables x hx).congr hun.start hun.stop
  · refine Managed.congr ?_ hun.start hun.stop
    rcases (hun.free x).mp hx with hx | ⟨hd, h0, j, f, hlow, hhigh, hf, rfl⟩
    · exact h.free x hx
    · obtain ⟨k, rfl⟩ := Nat.exists_eq_add_of_le hlow
      obtain ⟨f', hf', hfree⟩ := hpre.frame hr k (Nat.lt_of_add_lt_add_left hhigh)
      cases hf.symm.trans hf'
      obtain ⟨hstart, hstop, -⟩ := (hfree hd).resolve_left h0
      exact ⟨h0, pte2pa_aligned _, hstart, hstop⟩

theorem poolTree_step (h : PoolTree root s) (hs : PoolStep root s op s') : PoolTree root s' := by
  cases hs with
  | mappages hperm hf hok => exact mapLoop_pool hperm _ _ _ s h hf hok
  | uvmunmap hpre hok => exact h.unmapped hpre hok
  | others hkept hfree =>
    obtain ⟨m, hr, hflags⟩ := h.refines
    refine ⟨⟨m, hkept.refines hr, hflags⟩, hkept.plain h.plain, fun x hx => ?_, hfree⟩
    rw [hkept.tables] at hx
    exact (h.tables x hx).congr hkept.start hkept.stop

/-! ## Leaves -/

/-- A leaf of the tree is the entry of an address, and it has an access flag. -/
theorem PoolTree.leaf_lookup (h : PoolTree root s) {p : List Nat} (hp : p.length = 2)
    (hx : Radix.node child s.mem root p = some x) (hv : valid (s.mem x i)) :
    (∃ va < maxVa, lookup root va s = some (s.mem x i)) ∧ HasRwx (s.mem x i) := by
  obtain ⟨m, hr, hflags⟩ := h.refines
  obtain ⟨va, hva, hlook⟩ := exists_lookup h.plain hp hx hv
  refine ⟨⟨va, hva, hlook⟩, ?_⟩
  rw [hr.lookup va hva] at hlook
  obtain ⟨f, hf, hpte⟩ := Option.map_eq_some_iff.mp hlook
  rw [← hpte]
  exact (hflags _ f hf).leafPte

theorem PoolTree.leavesIn (h : PoolTree root s) :
    LeavesIn (HoldsLeaf 2 s.mem root) (· = .validPage) 2 s.mem root := by
  obtain ⟨m, hr, -⟩ := h.refines
  exact leavesIn_holdsLeaf hr.tree h.plain.inTable fun p x i hp hx hv hrwx =>
    absurd (h.leaf_lookup hp hx hv).2 hrwx

theorem PoolTree.holdsLeaf_iff (h : PoolTree root s) :
    HoldsLeaf 2 s.mem root x ↔
      x ∈ Vmem.tables root s ∧ ∃ i, valid (s.mem x i) ∧ HasRwx (s.mem x i) := by
  constructor
  · rintro ⟨p, hp, hx, i, hv, hleaf⟩
    refine ⟨⟨p, hp, hx⟩, i, hv, ?_⟩
    rcases hleaf with hp | hrwx
    · exact (h.leaf_lookup hp hx hv).2
    · exact hrwx
  · rintro ⟨⟨p, hp, hx⟩, i, hv, hrwx⟩
    exact ⟨p, hp, hx, i, hv, .inr hrwx⟩

/-- Something is mapped if and only if a page of the tree holds a leaf. -/
theorem PoolTree.mapped_iff (h : PoolTree root s) :
    (∃ va < maxVa, lookup root va s ≠ none) ↔ ∃ x, HoldsLeaf 2 s.mem root x := by
  constructor
  · rintro ⟨va, hva, hlook⟩
    obtain ⟨e, he⟩ := Option.ne_none_iff_exists'.mp hlook
    obtain ⟨hentry, hv⟩ := lookup_eq_some hva he
    obtain ⟨x, hx⟩ := node_of_valid (hentry.symm ▸ hv)
    refine ⟨x, path 2 va, (path_length 2).le, hx, px 0 va, ?_, .inl (path_length 2)⟩
    rw [entry_of_node hx, hentry]
    exact hv
  · rintro ⟨x, p, hp, hx, i, hv, hleaf⟩
    rcases hp.lt_or_eq with hlt | heq
    · exact absurd (hleaf.resolve_left hlt.ne) ((h.plain p x i hp hx hv).2 hlt)
    · obtain ⟨⟨va, hva, hlook⟩, -⟩ := h.leaf_lookup heq hx hv
      exact ⟨va, hva, by rw [hlook]; exact nofun⟩

/-- A page table built from an empty root by calls of `mappages` with an access flag and of
`uvmunmap`. If nothing is mapped, `free_pagetable_pages` gives back the root and the other tables,
each once, and nothing else. If a table holds a leaf, it panics before it gives that table back. A
table holds a leaf if and only if something is mapped. -/
theorem table_pages_freed_once {s0 : Vm} {ops : List Op} (h0 : ∀ i, s0.mem root i = 0)
    (hroot : Managed s0 root) (hfree : ∀ x ∈ s0.free, Managed s0 x)
    (hrun : Run (PoolStep root) s0 ops s) :
    ((∀ va < maxVa, lookup root va s = none) →
      ∃ t l, freePagetablePages root s = .ok t ∧ t.free = l ++ s.free ∧ l.Nodup ∧
        ∀ x, x ∈ l ↔ x ∈ tables root s) ∧
    ((∃ x ∈ tables root s, ∃ i, valid (s.mem x i) ∧ HasRwx (s.mem x i)) →
      freePagetablePages root s = .error .validPage ∧
      ∃ t l, freePagetablePagesAt root s = .error (.validPage, t) ∧ t.free = l ++ s.free ∧
        l.Nodup ∧ ∀ x ∈ l, x ∈ tables root s ∧ ∀ i, valid (s.mem x i) → ¬ HasRwx (s.mem x i)) ∧
    ((∃ va < maxVa, lookup root va s ≠ none) ↔
      ∃ x ∈ tables root s, ∃ i, valid (s.mem x i) ∧ HasRwx (s.mem x i)) := by
  have h : PoolTree root s := hrun.invariant (I := PoolTree root)
    (fun _ _ _ hi hs => poolTree_step hi hs) (poolTree_empty h0 hroot hfree)
  have hleaves : (∃ x, HoldsLeaf 2 s.mem root x) ↔
      ∃ x ∈ tables root s, ∃ i, valid (s.mem x i) ∧ HasRwx (s.mem x i) :=
    exists_congr fun _ => h.holdsLeaf_iff
  have hne : root ≠ 0 := (h.tables root Radix.root_mem_pages).1
  have hcall : freePagetablePagesAt root s = freeTablesAt 3 root s := if_neg hne
  have hfrees := freeTablesAt_frees (E := (· = .validPage)) rfl 2 root s h.leavesIn
    (fun _ _ => rfl) h.tables
  rw [← hcall] at hfrees
  rw [← freePagetablePagesAt_forget, ← hleaves]
  refine ⟨fun hnone => ?_, fun hleaf => ?_, h.mapped_iff⟩
  · have hn : ∀ x ∈ tables root s, ¬ HoldsLeaf 2 s.mem root x := by
      intro x _ hx
      obtain ⟨va, hva, hlook⟩ := h.mapped_iff.mpr ⟨x, hx⟩
      exact hlook (hnone va hva)
    generalize freePagetablePagesAt root s = r at hfrees ⊢
    cases hfrees with
    | panic hn' => exact absurd hn hn'
    | all _ _ hfree hnodup hl => exact ⟨_, _, rfl, hfree, hnodup, hl⟩
  · obtain ⟨x, hx⟩ := hleaf
    generalize freePagetablePagesAt root s = r at hfrees ⊢
    cases hfrees with
    | all hn => exact absurd hx (hn x (h.holdsLeaf_iff.mp hx).1)
    | panic _ he hfree hnodup hl =>
      cases he
      refine ⟨rfl, _, _, rfl, hfree, hnodup, fun y hy => ⟨(hl y hy).1, fun i hv hrwx => ?_⟩⟩
      exact (hl y hy).2 (h.holdsLeaf_iff.mpr ⟨(hl y hy).1, i, hv, hrwx⟩)

/-- A page is mapped, which is a panic, and after `uvmunmap` the three tables are given back. -/
theorem table_pages_freed_once_page : ∃ s s',
    Run (PoolStep 4096) startVm [.mappages 8192 262144 1 pteR] s ∧
    freePagetablePages 4096 s = .error .validPage ∧
    Run (PoolStep 4096) startVm [.mappages 8192 262144 1 pteR, .uvmunmap 8192 4096 false] s' ∧
    ∃ t, freePagetablePages 4096 s' = .ok t := by
  have h0 : ∀ i, startVm.mem 4096 i = 0 := fun _ => rfl
  have hroot : Managed startVm 4096 := ⟨by decide, rfl, le_rfl, by decide⟩
  have hfree : ∀ x ∈ startVm.free, Managed startVm x := by
    unfold Managed
    decide
  obtain ⟨r, s, hcall, hmapped⟩ := startVm_pre.spec (Refines.empty h0)
  have hzero : r = 0 := by
    have heval : (mappages 4096 8192 262144 1 pteR startVm).toOption.map Prod.fst = some 0 := by
      decide +kernel
    rw [hcall] at heval
    exact Option.some.inj heval
  have hr : Refines 4096 s (PageMap.map (fun _ => none) 2 1 262144 pteR) :=
    (hmapped.cases.resolve_right fun h => absurd (hzero.symm.trans h.1) (by decide)).2
  have hrun : Run (PoolStep 4096) startVm [.mappages 8192 262144 1 pteR] s :=
    Run.single (.mappages startVm_pre.flags startVm_pre.fresh hcall)
  have hpage : ∀ a, 8192 ≤ a → a < 8192 + 4096 → lookup 4096 a s = some (leafPte 262144 pteR) := by
    intro a hlow hhigh
    have ha : a / pgSize = 2 := by
      simp only [pgSize]
      omega
    rw [hr.lookup a (hhigh.trans (by decide)), ha]
    rfl
  have hpre : UnmapPre 4096 s 8192 4096 false :=
    ⟨⟨rfl, rfl, by decide, fun a hlow hhigh => ⟨_, hpage a hlow hhigh⟩⟩, nofun⟩
  obtain ⟨s', hcall', hun⟩ := hpre.spec hr
  have hrun' := hrun.snoc (.uvmunmap hpre hcall')
  refine ⟨s, s', hrun, ?_, hrun', ?_⟩
  · obtain ⟨-, hpanic, hiff⟩ := table_pages_freed_once h0 hroot hfree hrun
    refine (hpanic (hiff.mp ⟨8192, by decide, ?_⟩)).1
    rw [hpage 8192 le_rfl (by decide)]
    exact nofun
  · obtain ⟨hok, -⟩ := table_pages_freed_once h0 hroot hfree hrun'
    have hnone : ∀ va < maxVa, lookup 4096 va s' = none := by
      intro va hva
      rw [hun.refines.lookup va hva, PageMap.unmap]
      split
      · rfl
      · rename_i hout
        exact congrArg _ (if_neg hout)
    obtain ⟨t, -, ht, -⟩ := hok hnone
    exact ⟨t, ht⟩

end CoroCore.Vmem
