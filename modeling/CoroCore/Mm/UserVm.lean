import CoroCore.Mm.MapAny

/-!
# Growing a user's memory: `mm/vmem.cc`

`uvmalloc` calls `mappages(pagetable, a, PGSIZE, mem, perm)`, with the physical address and the size
exchanged: it maps `mem / PGSIZE` pages to the frames from `PGSIZE` on. `uvmdealloc` passes a number
of pages to `uvmunmap`, which takes bytes.

* `Growable.only`: `uvmalloc` does not grow a process;
* `grows_iff`: it is right if and only if no page is needed or none can be taken.
-/

namespace CoroCore.Vmem

open Lib

/-- `KERNBASE` and `PHYSTOP`: the pages of the allocator lie between them. -/
abbrev ramStart : Nat := 0x80200000
abbrev ramStop : Nat := 0x88000000

abbrev stackBottom : Nat := 2 ^ 37
abbrev stackSize : Nat := 4096

/-- The flags of the pages of the user. -/
abbrev uxwr : Nat := pteW ||| pteX ||| pteR ||| pteU

/-- A `uint64` that is stored in an `int` and passed as a `uint64` again. -/
def throughInt (n : Nat) : Nat := ((n : Int).bmod (2 ^ 32) % 2 ^ 64).toNat

/-- `uvmdealloc` -/
def uvmdealloc (root oldsz newsz : Nat) (s : Vm) : Except Panic (Nat × Vm) :=
  if oldsz ≤ newsz then .ok (oldsz, s)
  else if pgRoundUp newsz < pgRoundUp oldsz then do
    let npages := throughInt ((pgRoundUp oldsz - pgRoundUp newsz) / pgSize)
    let s ← uvmunmap root (pgRoundUp newsz) npages true s
    return (newsz, s)
  else .ok (newsz, s)

/-- The loop of `uvmalloc`, from the address `a` on. `oldsz` is rounded up. -/
def uvmallocLoop (root oldsz newsz : Nat) : Nat → Nat → Vm → Except Panic (Nat × Vm)
  | 0, _, _ => .error .runaway
  | fuel + 1, a, s =>
    if newsz ≤ a then .ok (newsz, s)
    else
      match s.allocPage with
      | none => do
        let (_, s) ← uvmdealloc root a oldsz s
        return (0, s)
      | some (mem, s) => do
        let (r, s) ← mappages root a pgSize mem uxwr
          { s with mem := Radix.fill s.mem mem 0 }
        if r ≠ 0 then
          let s ← s.freePage mem
          let (_, s) ← uvmdealloc root a oldsz s
          return (0, s)
        else uvmallocLoop root oldsz newsz fuel (a + pgSize) s

/-- `uvmalloc` -/
def uvmalloc (root oldsz newsz : Nat) (s : Vm) : Except Panic (Nat × Vm) :=
  if newsz < oldsz then .ok (oldsz, s)
  else uvmallocLoop root (pgRoundUp oldsz) newsz (newsz / pgSize + 2) (pgRoundUp oldsz) s

/-! ## Growing -/

/-- The pages of the user up to `oldsz` are mapped, and `newsz` is larger, below the stack. -/
structure Growable (root oldsz newsz : Nat) (s : Vm) (m : PageMap) : Prop where
  refines : Refines root s m
  fresh : Fresh root s
  pages : ∀ n < (stackBottom - stackSize) / pgSize, m n ≠ none ↔ n < pgRoundUp oldsz / pgSize
  larger : oldsz ≤ newsz
  below : newsz ≤ stackBottom - stackSize
  managed : ∀ p ∈ s.free, s.start ≤ p ∧ p < s.stop
  ram : ramStart ≤ s.start ∧ s.stop ≤ ramStop

/-- The map with new pages for the user. -/
def grownMap (m : PageMap) (oldsz newsz : Nat) (frames : Nat → Nat) : PageMap := fun n =>
  if pgRoundUp oldsz / pgSize ≤ n ∧ n < pgRoundUp newsz / pgSize then
    some (frames n, uxwr)
  else m n

/-- The new pages are different pages that were free, and filled with zeros. -/
structure NewPages (oldsz newsz : Nat) (s s' : Vm) (frames : Nat → Nat) : Prop where
  free : ∀ n, pgRoundUp oldsz / pgSize ≤ n → n < pgRoundUp newsz / pgSize →
    frames n ∈ s.free ∧ frames n ∉ s'.free ∧ ∀ i < 512, s'.mem (frames n) i = 0
  distinct : ∀ n k, pgRoundUp oldsz / pgSize ≤ n → n < pgRoundUp newsz / pgSize →
    pgRoundUp oldsz / pgSize ≤ k → k < pgRoundUp newsz / pgSize → frames n = frames k → n = k

/-- `uvmdealloc` takes the new pages back. -/
def ShrinksBack (root oldsz newsz : Nat) (m : PageMap) (s' : Vm) (frames : Nat → Nat) : Prop :=
  ∃ r s'', uvmdealloc root newsz oldsz s' = .ok (r, s'') ∧ Refines root s'' m ∧
    ∀ x, x ∈ s''.free ↔ x ∈ s'.free ∨
      ∃ n, pgRoundUp oldsz / pgSize ≤ n ∧ n < pgRoundUp newsz / pgSize ∧ x = frames n

/-- `uvmalloc` maps new pages, which `uvmdealloc` takes back, or leaves everything as it was. -/
def Grows (root oldsz newsz : Nat) (s : Vm) (m : PageMap) : Prop :=
  ∃ r s', uvmalloc root oldsz newsz s = .ok (r, s') ∧
    (r = newsz ∧ (∃ frames, Refines root s' (grownMap m oldsz newsz frames) ∧
        NewPages oldsz newsz s s' frames ∧ ShrinksBack root oldsz newsz m s' frames) ∨
      r = 0 ∧ Refines root s' m ∧ s'.free.Perm s.free)

variable {root oldsz newsz pa x : Nat} {s s' : Vm} {m : PageMap}

theorem pgRoundUp_mod (a : Nat) : pgRoundUp a % pgSize = 0 := by
  rw [pgRoundUp, pgRoundDown, Nat.mul_mod_left]

theorem pgRoundUp_eq {a : Nat} (ha : a ≤ stackBottom) : a ≤ pgRoundUp a ∧
    pgRoundUp a < a + pgSize := by
  simp only [pgRoundUp, pgRoundDown, pgSize, stackBottom] at *
  omega

/-- Pages outside the tree may be written. -/
theorem Refines.taken {M : Nat → Nat → Nat} {free : List Nat} (hr : Refines root s m)
    (hsame : ∀ y ∈ tables root s, M y = s.mem y) :
    Refines root { s with mem := M, free := free } m :=
  (Kept.mk hsame rfl rfl : Kept root s { s with mem := M, free := free }).refines hr

theorem Fresh.taken {M : Nat → Nat → Nat} {free : List Nat} (hf : Fresh root s)
    (hfree : s.free = x :: free) (hsame : ∀ y ∈ tables root s, M y = s.mem y) :
    Fresh root { s with mem := M, free := free } := by
  have hmem : ∀ y ∈ free, y ∈ s.free := fun y hy => hfree ▸ List.mem_cons_of_mem x hy
  refine ⟨(List.nodup_cons.mp (hfree ▸ hf.nodup)).2, fun y hy => hf.aligned y (hmem y hy),
    fun y hy => hf.bound y (hmem y hy), fun y hy => ?_⟩
  have htables : tables root { s with mem := M, free := free } = tables root s :=
    Radix.pages_congr hsame
  rw [htables]
  exact hf.outside y (hmem y hy)

/-- `walk` fails if a table is missing and there is no page for it. -/
theorem walkLevels_no_page (hfree : s.free = []) (va : Nat) : ∀ level table,
    Radix.node child s.mem table (path level va) = none →
    walkLevels va true level table s = (none, s)
  | 0, _, hx => by cases hx
  | level + 1, table, hx => by
    have hnone : s.allocTable = none := by rw [Vm.allocTable, hfree]
    rw [walkLevels, hnone, if_pos rfl]
    split
    · rename_i hv
      have hy : child (s.mem table (px (level + 1) va)) =
          some (pte2pa (s.mem table (px (level + 1) va))) := if_pos hv
      rw [path, Radix.node_cons hy] at hx
      exact walkLevels_no_page hfree va level _ hx
    · rfl

theorem mappages_no_page {size : Nat} {perm : Nat} (hfree : s.free = []) (hva : x < maxVa)
    (hx : x % pgSize = 0) (hnode : Radix.node child s.mem root (path 2 x) = none) :
    mappages root x pa size perm s = .ok (-1, s) := by
  have hround : pgRoundDown x = x := Nat.div_mul_cancel (Nat.dvd_of_mod_eq_zero hx)
  obtain ⟨fuel, hfuel⟩ : ∃ fuel, maxVa / pgSize - x / pgSize = fuel + 1 := by
    refine ⟨maxVa / pgSize - x / pgSize - 1, ?_⟩
    simp only [pgSize, maxVa] at *
    omega
  rw [mappages, hfuel, mapLoop, hround, walk, if_neg hva.not_ge,
    walkLevels_no_page hfree x 2 root hnode]
  rfl

/-- `uvmdealloc` passes the number of pages, and panics with one of them. -/
theorem uvmdealloc_page (hx : x % pgSize = 0) (hlt : x < maxVa) :
    uvmdealloc root (x + pgSize) x s = .error .notAligned := by
  have hround : pgRoundUp x = x ∧ pgRoundUp (x + pgSize) = x + pgSize := by
    simp only [pgRoundUp, pgRoundDown, pgSize, maxVa] at *
    omega
  have hone : throughInt ((x + pgSize - x) / pgSize) = 1 := by
    rw [Nat.add_sub_cancel_left]
    rfl
  rw [uvmdealloc, if_neg (Nat.not_le.mpr (Nat.lt_add_of_pos_right (by decide))), hround.1, hround.2,
    if_pos (Nat.lt_add_of_pos_right (by decide))]
  dsimp only
  rw [hone, uvmunmap, if_pos (.inr (by decide))]
  rfl

section Growable

variable (hg : Growable root oldsz newsz s m)
include hg

theorem Growable.round : pgRoundUp oldsz < pgSize + stackBottom ∧ oldsz ≤ pgRoundUp oldsz := by
  have hle : oldsz ≤ stackBottom := hg.larger.trans (hg.below.trans (Nat.sub_le _ _))
  have := pgRoundUp_eq hle
  omega

/-- `uvmalloc` has nothing to do. -/
theorem Growable.nothing (h : newsz ≤ pgRoundUp oldsz) : Grows root oldsz newsz s m := by
  have hround : pgRoundUp newsz = pgRoundUp oldsz := by
    have hlarger := hg.larger
    have hbelow := hg.below
    simp only [pgRoundUp, pgRoundDown, pgSize, stackBottom, stackSize] at *
    omega
  have hmap : grownMap m oldsz newsz (fun _ => 0) = m := by
    funext n
    exact if_neg (by rw [hround]; omega)
  refine ⟨newsz, s, ?_, .inl ⟨rfl, fun _ => 0, hmap.symm ▸ hg.refines, ⟨?_, ?_⟩, ?_⟩⟩
  · rw [uvmalloc, if_neg hg.larger.not_gt, uvmallocLoop, if_pos h]
  · intro n h1 h2
    exact absurd h2 (by rw [hround]; exact h1.not_gt)
  · intro n _ h1 h2
    exact absurd h2 (by rw [hround]; exact h1.not_gt)
  · refine ⟨if newsz ≤ oldsz then newsz else oldsz, s, ?_, hg.refines, fun x => ?_⟩
    · rw [uvmdealloc, if_neg (show ¬ pgRoundUp oldsz < pgRoundUp newsz from hround.le.not_gt)]
      split <;> rfl
    · refine ⟨.inl, fun h => h.elim id ?_⟩
      rintro ⟨n, h1, h2, -⟩
      exact absurd h2 (by rw [hround]; exact h1.not_gt)

theorem Growable.loop (h : ¬ newsz ≤ pgRoundUp oldsz) : uvmalloc root oldsz newsz s =
    (match s.allocPage with
    | none => .ok (0, s)
    | some (mem, s1) =>
      (mappages root (pgRoundUp oldsz) pgSize mem uxwr
        { s1 with mem := Radix.fill s1.mem mem 0 }).bind fun p =>
        if p.1 ≠ 0 then (p.2.freePage mem).bind fun s => .ok (0, s)
        else uvmallocLoop root (pgRoundUp oldsz) newsz (newsz / pgSize + 1)
          (pgRoundUp oldsz + pgSize) p.2) := by
  have hnothing : ∀ s, uvmdealloc root (pgRoundUp oldsz) (pgRoundUp oldsz) s =
      .ok (pgRoundUp oldsz, s) := fun s => if_pos le_rfl
  rw [uvmalloc, if_neg hg.larger.not_gt, uvmallocLoop, if_neg h]
  cases s.allocPage with
  | none => simp only [hnothing, bind, Except.bind, pure, Except.pure]
  | some p => simp only [hnothing, bind, Except.bind, pure, Except.pure]

/-- The first page to map. -/
theorem Growable.first (h : ¬ newsz ≤ pgRoundUp oldsz) : pgRoundUp oldsz < maxVa ∧
    pgRoundUp oldsz + pgSize < maxVa ∧ m (pgRoundUp oldsz / pgSize) = none := by
  have hmod := pgRoundUp_mod oldsz
  have hbelow := hg.below
  refine ⟨?_, ?_, ?_⟩
  · simp only [pgSize, maxVa, stackBottom, stackSize] at *
    omega
  · simp only [pgSize, maxVa, stackBottom, stackSize] at *
    omega
  · by_contra hm
    refine absurd ((hg.pages _ ?_).mp hm) (lt_irrefl _)
    simp only [pgSize, stackBottom, stackSize] at *
    omega

/-- There is no page, or only one and a table is missing too. -/
theorem Growable.no_page (h : ¬ newsz ≤ pgRoundUp oldsz) (hfree : s.free = []) :
    Grows root oldsz newsz s m := by
  refine ⟨0, s, ?_, .inr ⟨rfl, hg.refines, List.Perm.refl _⟩⟩
  rw [hg.loop h, Vm.allocPage, hfree]

theorem Growable.no_table (h : ¬ newsz ≤ pgRoundUp oldsz) (hfree : s.free = [x])
    (hnode : Radix.node child s.mem root (path 2 (pgRoundUp oldsz)) = none) :
    Grows root oldsz newsz s m := by
  have hx : x ∈ s.free := hfree ▸ List.mem_cons_self
  have hout := hg.fresh.outside x hx
  have hsame := Radix.fill_outside (e := 0) hout
  have hmanaged : Managed { s with mem := Radix.fill s.mem x 0, free := [] } x := by
    have h1 := hg.managed x hx
    have h2 := hg.ram.1
    refine ⟨?_, hg.fresh.aligned x hx, h1⟩
    simp only [ramStart] at h2
    omega
  obtain ⟨s', hok, hfreed⟩ := freePage_managed hmanaged
  have hperm : s'.free = x :: [] := by
    rw [Vm.freePage, if_neg hmanaged.1] at hok
    split at hok
    · cases hok
    · obtain rfl := Except.ok.inj hok
      rfl
  refine ⟨0, s', ?_, .inr ⟨rfl, ?_, hperm ▸ hfree ▸ List.Perm.refl _⟩⟩
  · rw [hg.loop h, Vm.allocPage, hfree]
    have hnode' : Radix.node child (Radix.fill s.mem x 0) root (path 2 (pgRoundUp oldsz)) = none :=
      (Radix.node_congr hsame (path_length 2).le).trans hnode
    dsimp only
    rw [mappages_no_page rfl (hg.first h).1 (pgRoundUp_mod oldsz) hnode', Except.bind,
      if_pos (by simp), hok]
    rfl
  · have hr : Refines root { s with mem := Radix.fill s.mem x 0, free := [] } m :=
      hg.refines.taken hsame
    refine (Kept.mk (fun y hy => hfreed.mem y ?_) hfreed.start hfreed.stop).refines hr
    rintro rfl
    rw [show tables root { s with mem := Radix.fill s.mem y 0, free := [] } = tables root s from
      Radix.pages_congr hsame] at hy
    exact hout hy

/-- The exchanged call maps as many pages as the address of the new page has. -/
theorem Growable.swapped {k : Nat} (hx : x ∈ s.free) (hk : 0 < k)
    (hlast : lastPage (pgRoundUp oldsz) x = (pgRoundUp oldsz / pgSize + k - 1) * pgSize) :
    2 ≤ k := by
  have hmod := pgRoundUp_mod oldsz
  have hround := hg.round.1
  have hmanaged := hg.managed x hx
  have hram := hg.ram
  have haligned := hg.fresh.aligned x hx
  simp only [lastPage, pgRoundDown, pgSize, stackBottom, ramStart, ramStop] at *
  omega

/-- When the exchanged call fails, there was only one page, and no table for the first address. -/
theorem Growable.failed {rest : List Nat} {s1 : Vm} {k : Nat} (h : ¬ newsz ≤ pgRoundUp oldsz)
    (hfree : s.free = x :: rest) (hx : x ∉ tables root s1)
    (hsome : MappedSome root { s with mem := Radix.fill s.mem x 0, free := rest }
      (pgRoundUp oldsz / pgSize) k pgSize uxwr s1) (hfree1 : s1.free = [])
    (hok : s1.freePage x = .ok s') (hr : Refines root s' m) (hperm : s'.free.Perm s.free) :
    rest = [] ∧ k = 0 := by
  have hmanaged : Managed s1 x := by
    have hx : x ∈ s.free := hfree ▸ List.mem_cons_self
    have h1 := hg.managed x hx
    have h2 := hg.ram.1
    refine ⟨?_, hg.fresh.aligned x hx, ?_⟩
    · simp only [ramStart] at h2
      omega
    · rw [hsome.uses.start, hsome.uses.stop]
      exact h1
  obtain ⟨s2, hok2, hfreed⟩ := freePage_managed hmanaged
  obtain rfl : s2 = s' := Except.ok.inj (hok2.symm.trans hok)
  refine ⟨?_, ?_⟩
  · have hall : ∀ y ∈ rest, y = x := fun y hy => by
      have hy2 : y ∈ s2.free := hperm.mem_iff.mpr (hfree ▸ List.mem_cons_of_mem x hy)
      exact ((hfreed.free y).mp hy2).resolve_left (by rw [hfree1]; exact List.not_mem_nil)
    have hnodup : x ∉ rest := (List.nodup_cons.mp (hfree ▸ hg.fresh.nodup)).1
    exact List.eq_nil_iff_forall_not_mem.mpr fun y hy => hnodup (hall y hy ▸ hy)
  · by_contra hk
    obtain ⟨hva, -, hnone⟩ := hg.first h
    have hround : pgRoundUp oldsz / pgSize * pgSize = pgRoundUp oldsz :=
      Nat.div_mul_cancel (Nat.dvd_of_mod_eq_zero (pgRoundUp_mod oldsz))
    have hentry : entry root s2 (pgRoundUp oldsz) = leafPte pgSize uxwr := by
      rw [← hsome.first (Nat.pos_of_ne_zero hk), hround]
      refine Radix.leaf_congr (fun y hy => hfreed.mem y ?_) (path_length 2).le
      rintro rfl
      exact hx hy
    have hlook := hr.lookup _ hva
    rw [hnone] at hlook
    exact not_valid_of_lookup hva hlook (hentry ▸ valid_or _)

/-- When it succeeds, the next page is mapped already, and a further round panics. -/
theorem Growable.succeeded {s1 : Vm} {r fuel : Nat} (h : ¬ newsz ≤ pgRoundUp oldsz)
    (hf : Fresh root s1) (hsecond : valid (entry root s1 (pgRoundUp oldsz + pgSize)))
    (hok : uvmallocLoop root (pgRoundUp oldsz) newsz (fuel + 1) (pgRoundUp oldsz + pgSize) s1 =
      .ok (r, s')) : r = newsz ∧ s' = s1 := by
  have hmod := pgRoundUp_mod oldsz
  obtain ⟨hlt, hlt2, -⟩ := hg.first h
  rw [uvmallocLoop] at hok
  split at hok
  · obtain ⟨rfl, rfl⟩ := Prod.mk.inj (Except.ok.inj hok)
    exact ⟨rfl, rfl⟩
  · cases hfree : s1.free with
    | nil =>
      rw [Vm.allocPage, hfree] at hok
      dsimp only at hok
      rw [uvmdealloc_page hmod hlt] at hok
      cases hok
    | cons y free =>
      have hround : (pgRoundUp oldsz + pgSize) / pgSize * pgSize = pgRoundUp oldsz + pgSize :=
        Nat.div_mul_cancel (Nat.dvd_of_mod_eq_zero (by rwa [Nat.add_mod_right]))
      have hout : y ∉ tables root s1 := hf.outside y (hfree ▸ List.mem_cons_self)
      have hentry : entry root { s1 with mem := Radix.fill s1.mem y 0, free := free }
          (pgRoundUp oldsz + pgSize) = entry root s1 (pgRoundUp oldsz + pgSize) :=
        Radix.leaf_congr (Radix.fill_outside hout) (path_length 2).le
      rw [Vm.allocPage, hfree] at hok
      dsimp only at hok
      rw [mappages_valid hlt2 (by rwa [hround, hentry])] at hok
      cases hok

/-- The frame of the first new page is not a page of the allocator. -/
theorem Growable.wrong_frame {s1 : Vm} {frames : Nat → Nat} (h : ¬ newsz ≤ pgRoundUp oldsz)
    (hfirst : entry root s1 (pgRoundUp oldsz) = leafPte pgSize uxwr)
    (hr : Refines root s1 (grownMap m oldsz newsz frames))
    (hnew : NewPages oldsz newsz s s1 frames) : False := by
  have hin : pgRoundUp oldsz / pgSize < pgRoundUp newsz / pgSize := by
    have hmod := pgRoundUp_mod oldsz
    have hbelow := hg.below
    simp only [pgRoundUp, pgRoundDown, pgSize, stackBottom, stackSize] at *
    omega
  obtain ⟨hva, -, -⟩ := hg.first h
  have hframe := (hnew.free _ le_rfl hin).1
  have hlook := hr.lookup _ hva
  rw [grownMap, if_pos ⟨le_rfl, hin⟩] at hlook
  have hleaf := (lookup_eq_some hva hlook).1
  rw [hfirst] at hleaf
  have hstart := (hg.managed _ hframe)
  have hram := hg.ram
  have hbound : frames (pgRoundUp oldsz / pgSize) < 2 ^ 55 := by
    simp only [ramStop] at hram
    omega
  have hone : frame (pgSize, uxwr) = pgSize := frame_eq rfl (by decide) (by decide)
  have htwo : frame (frames (pgRoundUp oldsz / pgSize), uxwr) = frames (pgRoundUp oldsz / pgSize) :=
    frame_eq (hg.fresh.aligned _ hframe) hbound (by decide)
  have hbig : ramStart ≤ frames (pgRoundUp oldsz / pgSize) := hram.1.trans hstart.1
  rw [← htwo, ← show frame (pgSize, uxwr) = frame (frames (pgRoundUp oldsz / pgSize), uxwr) from
    congrArg pte2pa hleaf, hone] at hbig
  exact absurd hbig (by decide)

theorem Growable.only (h : ¬ newsz ≤ pgRoundUp oldsz) (hgrows : Grows root oldsz newsz s m)
    {rest : List Nat} (hfree : s.free = x :: rest) :
    rest = [] ∧ Radix.node child s.mem root (path 2 (pgRoundUp oldsz)) = none := by
  obtain ⟨r, s', hok, hend⟩ := hgrows
  have hx : x ∈ s.free := hfree ▸ List.mem_cons_self
  have hout := hg.fresh.outside x hx
  have hsame := Radix.fill_outside (e := 0) hout
  obtain ⟨hva, -, hnone⟩ := hg.first h
  have hround : pgRoundUp oldsz / pgSize * pgSize = pgRoundUp oldsz :=
    Nat.div_mul_cancel (Nat.dvd_of_mod_eq_zero (pgRoundUp_mod oldsz))
  have hne : r ≠ newsz → r = 0 ∧ Refines root s' m ∧ s'.free.Perm s.free := fun hr =>
    hend.resolve_left fun hl => hr hl.1
  rw [hg.loop h, Vm.allocPage, hfree] at hok
  dsimp only at hok
  obtain ⟨⟨c, s1⟩, hmap, hok⟩ := bind_ok hok
  obtain ⟨k, hsome, hcase⟩ := mappages_some (hg.refines.taken hsame).tree
    (hg.fresh.taken hfree hsame) hva hmap
  rw [hround] at hcase
  rcases hcase with ⟨rfl, hk, hlast⟩ | ⟨rfl, hfree1, hnode⟩
  · have hfirst := hsome.first hk
    have hk2 := hg.swapped hx hk hlast
    rw [hround] at hfirst
    rw [if_neg (by simp)] at hok
    have hsecond := (hsome.mapped (pgRoundUp oldsz + pgSize) (hg.first h).2.1
      (by simp only [pgSize]; omega) (by simp only [pgSize]; omega)).1
    obtain ⟨rfl, rfl⟩ := hg.succeeded h hsome.uses.fresh hsecond hok
    rcases hend with ⟨-, frames, hr, hnew, -⟩ | ⟨hr, -⟩
    · exact (hg.wrong_frame h hfirst hr hnew).elim
    · omega
  · rw [if_pos (by simp)] at hok
    obtain ⟨s2, hfreed, hok⟩ := bind_ok hok
    obtain ⟨rfl, rfl⟩ := Prod.mk.inj (Except.ok.inj hok)
    obtain ⟨-, hr, hperm⟩ := hne (by omega)
    have hrest : x ∉ rest := (List.nodup_cons.mp (hfree ▸ hg.fresh.nodup)).1
    have htables : x ∉ tables root s1 := by
      obtain ⟨used, hused, htables⟩ := hsome.uses.used
      change rest = used ++ s1.free at hused
      rw [htables]
      rintro (hxu | hxt)
      · exact hrest (hused ▸ List.mem_append_left _ hxu)
      · rw [tables, Radix.pages_congr hsame] at hxt
        exact hout hxt
    obtain ⟨hnil, hzero⟩ := hg.failed h hfree htables hsome hfree1 hfreed hr hperm
    exact ⟨hnil, (Radix.node_congr hsame (path_length 2).le).symm.trans (hnode hzero)⟩

end Growable

/-- `uvmalloc` and `uvmdealloc` are right if and only if no page is needed, or none can be taken:
there is no page, or the only one would be needed for a table. -/
theorem grows_iff (hg : Growable root oldsz newsz s m) : Grows root oldsz newsz s m ↔
    newsz ≤ pgRoundUp oldsz ∨ s.free = [] ∨
      s.free.length = 1 ∧ Radix.node child s.mem root (path 2 (pgRoundUp oldsz)) = none := by
  by_cases h : newsz ≤ pgRoundUp oldsz
  · exact iff_of_true (hg.nothing h) (.inl h)
  constructor
  · intro hgrows
    cases hfree : s.free with
    | nil => exact .inr (.inl rfl)
    | cons x rest =>
      obtain ⟨rfl, hnode⟩ := hg.only h hgrows hfree
      exact .inr (.inr ⟨rfl, hnode⟩)
  · rintro (h' | hfree | ⟨hone, hnode⟩)
    · exact absurd h' h
    · exact hg.no_page h hfree
    · obtain ⟨x, hfree⟩ := List.length_eq_one_iff.mp hone
      exact hg.no_table h hfree hnode

/-- An empty page table in the first page of the memory. -/
def bareVm (free : List Nat) : Vm := ⟨fun _ _ => 0, free, ramStart, ramStop⟩

theorem bareVm_growable {free : List Nat} (hnodup : free.Nodup)
    (hfree : ∀ p ∈ free, p % pgSize = 0 ∧ ramStart < p ∧ p < ramStop)
    (hbelow : newsz ≤ stackBottom - stackSize) :
    Growable ramStart 0 newsz (bareVm free) fun _ => none := by
  refine ⟨Refines.empty fun _ => rfl,
    ⟨hnodup, fun p hp => (hfree p hp).1, fun p hp => ?_, fun p hp => ?_⟩, fun n _ => ?_,
    Nat.zero_le _, hbelow, fun p hp => ⟨(hfree p hp).2.1.le, (hfree p hp).2.2⟩, le_rfl, le_rfl⟩
  · exact (hfree p hp).2.2.trans (by decide)
  · rw [tables_empty fun _ => rfl]
    exact (hfree p hp).2.1.ne'
  · exact iff_of_false (not_not_intro rfl) (Nat.not_lt_zero n)

/-- A single free page is given back when there is no page for the tables. -/
theorem grows_iff_page : Grows ramStart 0 1 (bareVm [0x80300000]) fun _ => none :=
  (grows_iff (bareVm_growable (by decide) (by decide) (by decide))).mpr
    (.inr (.inr ⟨rfl, rfl⟩))

/-- With three free pages `uvmalloc` does not map one page, nor does it give them back. -/
theorem three_pages : Growable ramStart 0 pgSize
      (bareVm [0x80300000, 0x80301000, 0x80302000]) (fun _ => none) ∧
    ¬ Grows ramStart 0 pgSize (bareVm [0x80300000, 0x80301000, 0x80302000]) fun _ => none := by
  have hg : Growable ramStart 0 pgSize (bareVm [0x80300000, 0x80301000, 0x80302000])
      fun _ => none := bareVm_growable (by decide) (by decide) (by decide)
  refine ⟨hg, fun hgrows => ?_⟩
  obtain ⟨hnil, -⟩ := hg.only (by decide) hgrows rfl
  cases hnil

end CoroCore.Vmem
