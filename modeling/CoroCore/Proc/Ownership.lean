import CoroCore.Lib.Ownership
import CoroCore.Proc.UserMemory

/-!
# Who has a page

A page that `kernel_allocator` had free when the process was constructed is free, a page of the page
table, the frame of a mapped page, or held by someone else: the kernel heap, or the process before
it maps it. It is only one of these (`Owns`). The frame of the trampoline is the kernel's.

* `Owns.map`, `Owns.unmap`, `Owns.freeTables`: the functions of `mm/vmem.cc` pass pages on;
* `mmapLoop_spec`, `freePagetable_spec`: those of the process.
-/

namespace CoroCore.User

open Lib Vmem

abbrev trampolinePage : Nat := trampolineVa / pgSize

inductive Owner
  | free
  | table
  | frame (n : Nat)
  | held

/-- The owner has the page. -/
def Holds (root : Nat) (s : Vm) (held : List Nat) (m : PageMap) : Owner → Nat → Prop
  | .free, x => x ∈ s.free
  | .table, x => x ∈ tables root s
  | .frame n, x => n ≠ trampolinePage ∧ ∃ f, m n = some f ∧ frame f = x
  | .held, x => x ∈ held

/-- The page table stands for `m`, and the pages in `F` have one owner each. -/
structure Owns (F : Set Nat) (root : Nat) (s : Vm) (held : List Nat) (m : PageMap) : Prop where
  refines : Refines root s m
  plain : Plain root s
  owned : Owned F (Holds root s held m)
  managed : ∀ x ∈ F, Managed s x
  bound : ∀ x ∈ F, x < 2 ^ 55

variable {F : Set Nat} {root n pa perm : Nat} {s s' : Vm} {held held' : List Nat} {m m' : PageMap}

theorem Owns.fresh (h : Owns F root s held m) (hn : s.free.Nodup) : Fresh root s := by
  have hmem : ∀ x ∈ s.free, x ∈ F := fun x hx => h.owned.mem .free hx
  refine ⟨hn, fun x hx => (h.managed x (hmem x hx)).2.1, fun x hx => ?_, fun x hx => ?_⟩
  · exact (h.bound x (hmem x hx)).trans (by decide)
  · exact h.owned.not_owner .free .table hx nofun

/-! ## Pages are passed on -/

/-- Free pages become tables. -/
theorem Owns.uses (h : Owns F root s held m) (hn : s.free.Nodup) (hu : Uses root s s') :
    Owned F (Holds root s' held m) := by
  obtain ⟨used, hfree, htables⟩ := hu.used
  have hused : ∀ x ∈ used, x ∈ s.free := fun x hx => hfree ▸ List.mem_append_left _ hx
  have hA : {x | x ∈ used} ⊆ F := fun x hx => h.owned.mem .free (hused x hx)
  -- what others have is not among the pages used
  have hother : ∀ o x, o ≠ Owner.free → Holds root s held m o x → x ∉ used := fun o x ho hx hxu =>
    h.owned.not_owner .free o (hused x hxu) ho.symm hx
  refine (h.owned.give hA .table).congr fun o x => ?_
  cases o with
  | free =>
    refine Iff.trans ?_ (give_from (by nofun))
    change x ∈ s'.free ↔ x ∈ s.free ∧ x ∉ used
    rw [hfree, List.mem_append]
    rw [hfree] at hn
    constructor
    · intro hx
      exact ⟨.inr hx, fun hx' => (List.nodup_append.mp hn).2.2 x hx' x hx rfl⟩
    · rintro ⟨hx | hx, hx'⟩
      · exact absurd hx hx'
      · exact hx
  | table =>
    refine Iff.trans ?_ give_self
    change x ∈ tables root s' ↔ x ∈ tables root s ∨ x ∈ used
    rw [htables]
    exact or_comm
  | frame k => exact give_other (by nofun) (hother (.frame k) x nofun)
  | held => exact give_other (by nofun) (hother .held x nofun)

theorem mem_of_cons {x : Nat} (hpa : pa ∉ held) : x ∈ held ↔ x ∈ pa :: held ∧
    x ∉ ({pa} : Set Nat) := by
  rw [List.mem_cons, Set.mem_singleton_iff]
  constructor
  · intro hx
    exact ⟨.inr hx, fun heq => hpa (heq ▸ hx)⟩
  · rintro ⟨hx | hx, hne⟩
    · exact absurd hx hne
    · exact hx

/-- A page that was held becomes the frame of page `n`. -/
theorem Owned.map (h : Owned F (Holds root s (pa :: held) m)) (hpa : pa ∉ held) (hm : m n = none)
    (hne : n ≠ trampolinePage) (hframe : frame (pa, perm) = pa) :
    Owned F (Holds root s held (Function.update m n (some (pa, perm)))) := by
  have hheld : Holds root s (pa :: held) m .held pa := List.mem_cons_self
  have hA : {pa} ⊆ F := Set.singleton_subset_iff.mpr (h.mem .held hheld)
  have hother : ∀ o x, o ≠ Owner.held → Holds root s (pa :: held) m o x → x ∉ ({pa} : Set Nat) := by
    rintro o x ho hx rfl
    exact h.not_owner .held o hheld ho.symm hx
  refine (h.give hA (.frame n)).congr fun o x => ?_
  cases o with
  | free => exact give_other (by nofun) (hother .free x nofun)
  | table => exact give_other (by nofun) (hother .table x nofun)
  | frame k =>
    rcases eq_or_ne k n with rfl | hkn
    · have hempty : ¬ Holds root s (pa :: held) m (.frame k) x := by
        rintro ⟨-, f, hf, -⟩
        rw [hm] at hf
        cases hf
      refine Iff.trans ?_ give_self
      rw [or_iff_right hempty, Holds, Function.update_self, Set.mem_singleton_iff]
      constructor
      · rintro ⟨-, f, hf, rfl⟩
        rw [← Option.some.inj hf, hframe]
      · rintro rfl
        exact ⟨hne, _, rfl, hframe⟩
    · refine Iff.trans ?_ (give_other (fun heq => hkn (Owner.frame.inj heq))
        (hother (.frame k) x nofun))
      rw [Holds, Function.update_of_ne hkn]
      exact Iff.rfl
  | held =>
    refine Iff.trans ?_ (give_from (by nofun))
    exact mem_of_cons hpa

/-- The trampoline is not one of the pages. -/
theorem Owned.map_trampoline {v : Option (Nat × Nat)} (h : Owned F (Holds root s held m)) :
    Owned F (Holds root s held (Function.update m trampolinePage v)) := by
  refine h.congr fun o x => ?_
  cases o with
  | frame k =>
    refine and_congr_right fun hk => ?_
    rw [Function.update_of_ne hk]
  | _ => exact Iff.rfl

/-- `alloc_page` for someone who holds the page. -/
theorem Owns.alloc {free : List Nat} (h : Owns F root s held m) (hn : s.free.Nodup)
    (hfree : s.free = pa :: free) :
    pa ∉ held ∧ free.Nodup ∧ Owns F root { s with free := free } (pa :: held) m := by
  have hpa : pa ∈ s.free := hfree ▸ List.mem_cons_self
  have hkept : Kept root s { s with free := free } := ⟨fun _ _ => rfl, rfl, rfl⟩
  rw [hfree] at hn
  obtain ⟨hpf, hn⟩ := List.nodup_cons.mp hn
  have hA : {pa} ⊆ F := Set.singleton_subset_iff.mpr (h.owned.mem .free hpa)
  have hother : ∀ o x, o ≠ Owner.free → Holds root s held m o x → x ∉ ({pa} : Set Nat) := by
    rintro o x ho hx rfl
    exact h.owned.not_owner .free o hpa ho.symm hx
  refine ⟨fun hx => hother .held pa nofun hx rfl, hn, hkept.refines h.refines, hkept.plain h.plain,
    ?_, h.managed, h.bound⟩
  refine (h.owned.give hA .held).congr fun o x => ?_
  cases o with
  | free =>
    refine Iff.trans ?_ (give_from (by nofun))
    rw [Holds, Holds, hfree]
    exact mem_of_cons hpf
  | table => exact give_other (by nofun) (hother .table x nofun)
  | frame k => exact give_other (by nofun) (hother (.frame k) x nofun)
  | held =>
    refine Iff.trans ?_ give_self
    rw [Holds, Holds, List.mem_cons]
    exact or_comm

/-! ## `mappages` and `uvmunmap` -/

theorem page_va (hn : n < maxVa / pgSize) : n * pgSize < maxVa ∧ n * pgSize + pgSize ≤ maxVa := by
  simp only [pgSize, maxVa] at *
  omega

/-- `mappages` of a page: the pages for its tables are free, and its frame is one that was held, or
that of the trampoline. -/
theorem Owns.map (h : Owns F root s held m) (hn : s.free.Nodup) (hpage : n < maxVa / pgSize)
    (hm : m n = none) (hperm : HasFlag perm) (hpa : pa < 2 ^ 55)
    (hheld : n = trampolinePage ∧ held = held' ∨
      n ≠ trampolinePage ∧ held = pa :: held' ∧ pa ∉ held' ∧ perm < 1024) :
    ∃ r s', mappages root (n * pgSize) pa pgSize perm s = .ok (r, s') ∧
      s'.free.Nodup ∧ (∀ x ∈ s'.free, x ∈ s.free) ∧ (r < 0 ∧ Owns F root s' held m ∨
        ¬ r < 0 ∧ Owns F root s' held' (Function.update m n (some (pa, perm)))) := by
  obtain ⟨-, hend⟩ := page_va hpage
  have hdiv : n * pgSize / pgSize = n := Nat.mul_div_cancel n (by decide)
  have hcount : pageCount (n * pgSize) pgSize = 1 := pageCount_page (Nat.mul_mod_left n pgSize)
  obtain ⟨r, s', hcall, hmapped⟩ :=
    mappages_spec h.refines (h.fresh hn) (Nat.le_of_ble_eq_true rfl) hend hpa hperm
    (fun j hj => by
      obtain rfl : j = 0 := Nat.lt_one_iff.mp (hcount ▸ hj)
      rwa [hdiv])
  have huses := hmapped.uses
  have howned := h.uses hn huses
  have hmanaged : ∀ x ∈ F, Managed s' x := fun x hx => by
    rw [Managed, huses.start, huses.stop]
    exact h.managed x hx
  obtain ⟨used, hused, -⟩ := huses.used
  refine ⟨r, s', hcall, huses.fresh.nodup, fun x hx => hused ▸ List.mem_append_right _ hx, ?_⟩
  rcases hmapped.cases with ⟨rfl, hr⟩ | ⟨rfl, -, j, hj, hr⟩
  · rw [hcount, hdiv, PageMap.map_one] at hr
    refine .inr ⟨by decide, hr, huses.plain h.plain, ?_, hmanaged, h.bound⟩
    rcases hheld with ⟨rfl, rfl⟩ | ⟨hne, rfl, hnot, hlt⟩
    · exact Owned.map_trampoline howned
    · have hF : pa ∈ F := h.owned.mem .held List.mem_cons_self
      exact Owned.map howned hnot hm hne (frame_eq (h.managed pa hF).2.1 hpa hlt)
  · obtain rfl : j = 0 := Nat.lt_one_iff.mp (hcount ▸ hj)
    rw [PageMap.map_zero] at hr
    exact .inl ⟨by decide, hr, huses.plain h.plain, howned, hmanaged, h.bound⟩

/-- The pages of a record. -/
def MmapInfo.Has (info : MmapInfo) (n : Nat) : Prop :=
  info.start ≤ n * pgSize ∧ n * pgSize < info.start + info.size

instance (info : MmapInfo) (n : Nat) : Decidable (info.Has n) := inferInstanceAs (Decidable (_ ∧ _))

/-- A record of whole pages. -/
structure MmapInfo.Whole (info : MmapInfo) : Prop where
  start : info.start % pgSize = 0
  size : info.size % pgSize = 0
  pos : 1 ≤ info.size
  range : info.start + info.size ≤ maxVa

theorem MmapInfo.Whole.has_iff {info : MmapInfo} (h : info.Whole) : info.Has n ↔
    info.start / pgSize ≤ n ∧ n < info.start / pgSize + pageCount info.start info.size := by
  have h1 := h.start
  have h2 := h.size
  have h3 := h.pos
  simp only [MmapInfo.Has, pageCount, pgSize] at *
  omega

theorem unmap_of_has {info : MmapInfo} (hw : info.Whole) (hn : info.Has n) :
    m.unmap (info.start / pgSize) (pageCount info.start info.size) n = none :=
  if_pos (hw.has_iff.mp hn)

theorem unmap_of_not_has {info : MmapInfo} (hw : info.Whole) (hn : ¬ info.Has n) :
    m.unmap (info.start / pgSize) (pageCount info.start info.size) n = m n :=
  if_neg fun h => hn (hw.has_iff.mpr h)

section Unmap

variable {info : MmapInfo} (h : Owns F root s held m) (hw : info.Whole)
include h hw

/-- The frames of the record are freed. -/
theorem Owns.unmap_owned (hown : ∀ n, info.Has n → n ≠ trampolinePage)
    (hun : Unmapped root s m (info.start / pgSize) (pageCount info.start info.size) true s') :
    Owned F (Holds root s' held
      (m.unmap (info.start / pgSize) (pageCount info.start info.size))) := by
  let A : Set Nat := {x | ∃ n, info.Has n ∧ Holds root s held m (.frame n) x}
  have hA : A ⊆ F := fun x ⟨n, _, hx⟩ => h.owned.mem (.frame n) hx
  have hother : ∀ o x, (∀ n, o ≠ Owner.frame n) → Holds root s held m o x → x ∉ A :=
    fun o x ho hx ⟨n, _, hx'⟩ => h.owned.not_owner o (.frame n) hx (ho n) hx'
  refine (h.owned.give hA .free).congr fun o x => ?_
  cases o with
  | free =>
    refine Iff.trans ?_ give_self
    refine (hun.free x).trans (or_congr_right ⟨?_, ?_⟩)
    · rintro ⟨-, -, n, f, h1, h2, hf, rfl⟩
      have hn : info.Has n := hw.has_iff.mpr ⟨h1, h2⟩
      exact ⟨n, hn, hown n hn, f, hf, rfl⟩
    · rintro ⟨n, hn, hx⟩
      have hx0 := (h.managed x (h.owned.mem _ hx)).1
      obtain ⟨-, f, hf, rfl⟩ := hx
      exact ⟨rfl, hx0, n, f, (hw.has_iff.mp hn).1, (hw.has_iff.mp hn).2, hf, rfl⟩
  | table =>
    refine Iff.trans ?_ (give_other (by nofun) (hother .table x nofun))
    change x ∈ tables root s' ↔ x ∈ tables root s
    rw [hun.tables]
  | frame k =>
    refine Iff.trans ?_ (give_from (by nofun))
    by_cases hk : info.Has k
    · rw [Holds, unmap_of_has hw hk]
      constructor
      · rintro ⟨-, f, hf, -⟩
        cases hf
      · rintro ⟨hx, hxA⟩
        exact absurd ⟨k, hk, hx⟩ hxA
    · rw [Holds, unmap_of_not_has hw hk]
      refine iff_self_and.mpr fun hx => ?_
      rintro ⟨n, hn, hx'⟩
      obtain rfl := Owner.frame.inj (h.owned.unique x (.frame k) (.frame n) hx hx')
      exact hk hn
  | held => exact give_other (by nofun) (hother .held x nofun)

/-- The trampoline is unmapped, and nothing is freed. -/
theorem Owns.unmap_shared (hown : ∀ n, info.Has n → n = trampolinePage)
    (hun : Unmapped root s m (info.start / pgSize) (pageCount info.start info.size) false s') :
    Owned F (Holds root s' held
      (m.unmap (info.start / pgSize) (pageCount info.start info.size))) := by
  refine h.owned.congr fun o x => ?_
  cases o with
  | free => exact (hun.free x).trans (or_iff_left fun hx => Bool.noConfusion hx.1)
  | table =>
    change x ∈ tables root s' ↔ x ∈ tables root s
    rw [hun.tables]
  | frame k =>
    refine and_congr_right fun hk => ?_
    rw [unmap_of_not_has hw fun hhas => hk (hown k hhas)]
  | held => exact Iff.rfl

/-- `uvmunmap` of the pages of a record. -/
theorem Owns.unmap (hmapped : ∀ n, info.Has n → m n ≠ none)
    (hshared : ∀ n, info.Has n → (info.flags &&& mapShared ≠ 0 ↔ n = trampolinePage)) :
    ∃ s', uvmunmap root info.start info.size (info.flags &&& mapShared = 0) s = .ok s' ∧
      Owns F root s' held (m.unmap (info.start / pgSize) (pageCount info.start info.size)) ∧
      Unmapped root s m (info.start / pgSize) (pageCount info.start info.size)
        (info.flags &&& mapShared = 0) s' := by
  obtain ⟨s', hcall, hun⟩ : ∃ s',
      uvmunmap root info.start info.size (info.flags &&& mapShared = 0) s = .ok s' ∧ _ :=
    uvmunmap_spec h.refines hw.start hw.size hw.pos hw.range (fun j hj => by
      have hn : info.Has (info.start / pgSize + j) :=
        hw.has_iff.mpr ⟨Nat.le_add_right _ _, Nat.add_lt_add_left hj _⟩
      obtain ⟨f, hf⟩ := Option.ne_none_iff_exists'.mp (hmapped _ hn)
      refine ⟨f, hf, fun hflag => ?_⟩
      have hx : Holds root s held m (.frame (info.start / pgSize + j)) (frame f) :=
        ⟨fun heq => (hshared _ hn).mpr heq (of_decide_eq_true hflag), f, hf, rfl⟩
      have hman := h.managed _ (h.owned.mem _ hx)
      exact .inr ⟨hman.2.2.1, hman.2.2.2, h.owned.not_owner _ .table hx nofun⟩)
  refine ⟨s', hcall, ⟨hun.refines, hun.plain h.plain, ?_, fun x hx => ?_, h.bound⟩, hun⟩
  · by_cases hflag : info.flags &&& mapShared = 0
    · rw [decide_eq_true hflag] at hun
      exact h.unmap_owned hw (fun n hn heq => (hshared n hn).mpr heq hflag) hun
    · rw [decide_eq_false hflag] at hun
      exact h.unmap_shared hw (fun n hn => (hshared n hn).mp hflag) hun
  · rw [Managed, hun.start, hun.stop]
    exact h.managed x hx

end Unmap

/-- `free_pagetable_pages` after everything is unmapped. -/
theorem Owns.freeTables (h : Owns F root s held m) (hm : ∀ n, m n = none) :
    ∃ s', freePagetablePages root s = .ok s' ∧ (∀ x, x ∈ F ↔ x ∈ s'.free ∨ x ∈ held) ∧
      ∀ x ∈ held, x ∉ s'.free := by
  have htable : ∀ x ∈ tables root s, x ∈ F := fun x hx => h.owned.mem .table hx
  have hroot : root ≠ 0 := (h.managed root (htable root Radix.root_mem_pages)).1
  obtain ⟨s', hcall, hfreed⟩ := freePagetablePages_spec h.refines h.plain hm hroot fun x hx =>
    h.managed x (htable x hx)
  refine ⟨s', hcall, fun x => ?_, fun x hx => ?_⟩
  · rw [hfreed.free, h.owned.total]
    constructor
    · rintro ⟨o, hx⟩
      cases o with
      | free => exact .inl (.inl hx)
      | table => exact .inl (.inr hx)
      | frame n =>
        obtain ⟨-, f, hf, -⟩ := hx
        rw [hm] at hf
        cases hf
      | held => exact .inr hx
    · rintro ((hx | hx) | hx)
      · exact ⟨.free, hx⟩
      · exact ⟨.table, hx⟩
      · exact ⟨.held, hx⟩
  · rw [hfreed.free]
    rintro (hx' | hx')
    · exact h.owned.not_owner .held .free hx nofun hx'
    · exact h.owned.not_owner .held .table hx nofun hx'

/-! ## The records of a process -/

/-- The records tell which pages are mapped, and how. -/
structure Recorded (infos : List MmapInfo) (m : PageMap) : Prop where
  whole : ∀ info ∈ infos, info.Whole
  disjoint : infos.Pairwise fun a b => ∀ n, a.Has n → ¬ b.Has n
  mapped : ∀ n, m n ≠ none ↔ ∃ info ∈ infos, info.Has n
  flags : ∀ info ∈ infos, ∀ n f, info.Has n → m n = some f → f.2 = info.pteFlags
  shared : ∀ info ∈ infos, ∀ n, info.Has n → (info.flags &&& mapShared ≠ 0 ↔ n = trampolinePage)
  kernel : ∀ info ∈ infos, info.Has trampolinePage → info.pteFlags &&& pteU = 0

theorem Recorded.nil : Recorded [] fun _ => none where
  whole _ h := absurd h List.not_mem_nil
  disjoint := .nil
  mapped n := by simp
  flags _ h := absurd h List.not_mem_nil
  shared _ h := absurd h List.not_mem_nil
  kernel _ h := absurd h List.not_mem_nil

theorem Recorded.snoc {info : MmapInfo} {infos : List MmapInfo} (h : Recorded infos m)
    (hw : info.Whole) (hnew : ∀ n, info.Has n → m n = none)
    (hin : ∀ n, info.Has n → ∃ pa, m' n = some (pa, info.pteFlags))
    (hout : ∀ n, ¬ info.Has n → m' n = m n)
    (hshared : ∀ n, info.Has n → (info.flags &&& mapShared ≠ 0 ↔ n = trampolinePage))
    (hkernel : info.Has trampolinePage → info.pteFlags &&& pteU = 0) :
    Recorded (infos ++ [info]) m' := by
  have hnot : ∀ b ∈ infos, ∀ n, b.Has n → ¬ info.Has n := fun b hb n hn hi =>
    (h.mapped n).mpr ⟨b, hb, hn⟩ (hnew n hi)
  have hcases : ∀ b, b ∈ infos ++ [info] → b ∈ infos ∨ b = info := fun b hb => by
    rwa [List.mem_append, List.mem_singleton] at hb
  refine ⟨fun b hb => ?_, ?_, fun n => ?_, fun b hb n f hn hf => ?_, fun b hb => ?_,
    fun b hb => ?_⟩
  · rcases hcases b hb with hb | rfl
    · exact h.whole b hb
    · exact hw
  · refine List.pairwise_append.mpr
      ⟨h.disjoint, List.pairwise_singleton _ _, fun a ha b hb n hn => ?_⟩
    rw [List.mem_singleton.mp hb]
    exact hnot a ha n hn
  · by_cases hn : info.Has n
    · obtain ⟨pa, hpa⟩ := hin n hn
      rw [hpa]
      refine iff_of_true nofun ⟨info, List.mem_append_right _ List.mem_cons_self, hn⟩
    · rw [hout n hn, h.mapped]
      constructor
      · rintro ⟨b, hb, hbn⟩
        exact ⟨b, List.mem_append_left _ hb, hbn⟩
      · rintro ⟨b, hb, hbn⟩
        rcases hcases b hb with hb | rfl
        · exact ⟨b, hb, hbn⟩
        · exact absurd hbn hn
  · rcases hcases b hb with hb | rfl
    · rw [hout n (hnot b hb n hn)] at hf
      exact h.flags b hb n f hn hf
    · obtain ⟨pa, hpa⟩ := hin n hn
      rw [hpa] at hf
      cases hf
      rfl
  · rcases hcases b hb with hb | rfl
    · exact h.shared b hb
    · exact hshared
  · rcases hcases b hb with hb | rfl
    · exact h.kernel b hb
    · exact hkernel

/-- The pages of the records are unmapped if they are mapped; no others are. -/
theorem unmapAll_mapped : ∀ (infos : List MmapInfo) (s : Vm) (m : PageMap), Owns F root s held m →
    (∀ info ∈ infos, info.Whole) → (infos.Pairwise fun a b => ∀ n, a.Has n → ¬ b.Has n) →
    (∀ info ∈ infos, ∀ n, info.Has n → m n ≠ none) →
    (∀ info ∈ infos, ∀ n, info.Has n → (info.flags &&& mapShared ≠ 0 ↔ n = trampolinePage)) →
    ∃ s' m', infos.foldlM (fun s info =>
        uvmunmap root info.start info.size (info.flags &&& mapShared = 0) s) s = .ok s' ∧
      Owns F root s' held m' ∧ ∀ n, m' n ≠ none ↔ m n ≠ none ∧ ∀ info ∈ infos, ¬ info.Has n
  | [], s, m, h, _, _, _, _ => ⟨s, m, rfl, h, fun n => by simp⟩
  | info :: infos, s, m, h, hwhole, hdisj, hmapped, hshared => by
    have hinfo : info ∈ info :: infos := List.mem_cons_self
    have hw := hwhole info hinfo
    obtain ⟨hhead, htail⟩ := List.pairwise_cons.mp hdisj
    obtain ⟨s1, h1, howns, -⟩ := h.unmap hw (hmapped info hinfo) (hshared info hinfo)
    have hleft : ∀ n, m.unmap (info.start / pgSize) (pageCount info.start info.size) n ≠ none ↔
        m n ≠ none ∧ ¬ info.Has n := by
      intro n
      by_cases hn : info.Has n
      · rw [unmap_of_has hw hn]
        exact iff_of_false (not_not_intro rfl) fun h => h.2 hn
      · rw [unmap_of_not_has hw hn, and_iff_left hn]
    obtain ⟨s2, m2, h2, howns2, hm2⟩ := unmapAll_mapped infos s1 _ howns
      (fun b hb => hwhole b (List.mem_cons_of_mem _ hb)) htail
      (fun b hb n hn => (hleft n).mpr ⟨hmapped b (List.mem_cons_of_mem _ hb) n hn,
        fun hi => hhead b hb n hi hn⟩)
      fun b hb => hshared b (List.mem_cons_of_mem _ hb)
    refine ⟨s2, m2, ?_, howns2, fun n => ?_⟩
    · rw [List.foldlM_cons, h1]
      exact h2
    · rw [hm2, hleft, List.forall_mem_cons, and_assoc]

theorem unmapAll_spec (infos : List MmapInfo) (s : Vm) (m : PageMap) (h : Owns F root s held m)
    (hrec : Recorded infos m) : ∃ s' m', infos.foldlM (fun s info =>
        uvmunmap root info.start info.size (info.flags &&& mapShared = 0) s) s = .ok s' ∧
      Owns F root s' held m' ∧ ∀ n, m' n = none := by
  obtain ⟨s', m', hok, howns, hm⟩ := unmapAll_mapped infos s m h hrec.whole hrec.disjoint
    (fun info hinfo n hn => (hrec.mapped n).mpr ⟨info, hinfo, hn⟩) hrec.shared
  refine ⟨s', m', hok, howns, fun n => ?_⟩
  by_contra hn
  obtain ⟨hmap, hnot⟩ := (hm n).mp hn
  obtain ⟨info, hinfo, hhas⟩ := (hrec.mapped n).mp hmap
  exact hnot info hinfo hhas

/-- `__free_pagetable` gives all pages back, but for those that someone else holds. -/
theorem freePagetable_spec {p : UserMem} (h : Owns F p.pagetable p.vm held m)
    (hrec : Recorded p.infos m) : ∃ q, p.freePagetable = .ok q ∧
      (∀ x, x ∈ F ↔ x ∈ q.vm.free ∨ x ∈ held) ∧ ∀ x ∈ held, x ∉ q.vm.free := by
  obtain ⟨s1, m1, h1, howns, hm⟩ := unmapAll_spec p.infos p.vm m h hrec
  obtain ⟨s2, h2, hall, hheld⟩ := howns.freeTables hm
  refine ⟨{ p with vm := s2, infos := [], pagetable := 0 }, ?_, hall, hheld⟩
  rw [UserMem.freePagetable, h1]
  change (freePagetablePages p.pagetable s1 >>= _) = _
  rw [h2]
  rfl

/-! ## `__mmap` -/

/-- The process has its pages and its records. `pending` are pages that it has taken and not yet
mapped, and each record has taken one of the `room` nodes that the heap had. -/
structure Intact (F : Set Nat) (room : Nat) (pending : List Nat) (p : UserMem) : Prop where
  map : ∃ m, Owns F p.pagetable p.vm (pending ++ p.heap) m ∧ Recorded p.infos m
  free : p.vm.free.Nodup
  held : (pending ++ p.heap).Nodup
  nodes : p.heap = [] ∧ p.room + p.infos.length = room ∨ p.heap ≠ [] ∧ room < p.infos.length

theorem Owns.held_congr (h : Owns F root s held m) (hh : ∀ x, x ∈ held' ↔ x ∈ held) :
    Owns F root s held' m := by
  refine ⟨h.refines, h.plain, h.owned.congr fun o x => ?_, h.managed, h.bound⟩
  cases o with
  | held => exact hh x
  | _ => exact Iff.rfl

variable {p : UserMem} {room : Nat} {pending pending' : List Nat} {info : MmapInfo}

/-- `mmap_infos.push_back` of what was mapped. -/
theorem pushBack_spec (howns : Owns F p.pagetable p.vm (pending ++ p.heap) m)
    (hrec : Recorded (p.infos ++ [info]) m) (hfree : p.vm.free.Nodup)
    (hheld : (pending ++ p.heap).Nodup)
    (hnodes : p.heap = [] ∧ p.room + p.infos.length = room ∨
      p.heap ≠ [] ∧ room < p.infos.length) :
    (p.pushBack info).oom = true ∨ Intact F room pending (p.pushBack info) ∧
      (p.pushBack info).infos = p.infos ++ [info] := by
  have hlen : (p.infos ++ [info]).length = p.infos.length + 1 := by
    rw [List.length_append, List.length_singleton]
  unfold UserMem.pushBack UserMem.newNode
  split
  · exact .inl rfl
  · rename_i q hq
    right
    split at hq
    · rename_i r hroom
      cases hq
      refine ⟨⟨⟨m, howns, hrec⟩, hfree, hheld, ?_⟩, rfl⟩
      rcases hnodes with ⟨hheap, hcount⟩ | ⟨hheap, hcount⟩
      · refine .inl ⟨hheap, ?_⟩
        change r + (p.infos ++ [info]).length = room
        omega
      · refine .inr ⟨hheap, ?_⟩
        change room < (p.infos ++ [info]).length
        omega
    · cases hq
    · rename_i page free hroom hpages
      cases hq
      obtain ⟨hnot, hnodup, howns'⟩ := howns.alloc hfree hpages
      have hperm : (pending ++ page :: p.heap).Perm (page :: (pending ++ p.heap)) :=
        List.perm_middle
      refine ⟨⟨⟨m, howns'.held_congr fun x => hperm.mem_iff, hrec⟩, hnodup, ?_, ?_⟩, rfl⟩
      · exact hperm.nodup_iff.mpr (List.nodup_cons.mpr ⟨hnot, hheld⟩)
      · refine .inr ⟨List.cons_ne_nil _ _, ?_⟩
        change room < (p.infos ++ [info]).length
        rcases hnodes with ⟨-, hcount⟩ | ⟨-, hcount⟩
        · omega
        · omega

/-- The record of a single page. -/
theorem has_page {flags pteFlags k : Nat} :
    (MmapInfo.mk (n * pgSize) pgSize flags pteFlags).Has k ↔ k = n := by
  simp only [MmapInfo.Has, pgSize]
  omega

/-- `__mmap` of a page that the process took, or of the trampoline. -/
theorem mmapAt_spec {flags : Nat} (h : Intact F room pending p) (hpage : n < maxVa / pgSize)
    (hnew : ∀ b ∈ p.infos, ¬ b.Has n) (hperm : HasFlag perm) (hpa : pa < 2 ^ 55)
    (hpending : n = trampolinePage ∧ pending = pending' ∨
      n ≠ trampolinePage ∧ pending = pa :: pending' ∧ perm < 1024)
    (hshared : flags &&& mapShared ≠ 0 ↔ n = trampolinePage)
    (hkernel : n = trampolinePage → perm &&& pteU = 0) :
    (UserMem.mmapAt (n * pgSize) pa pgSize flags perm p).mem.oom = true ∨
      ∃ q, UserMem.mmapAt (n * pgSize) pa pgSize flags perm p = .ok 0 q ∧
        Intact F room pending' q ∧ q.infos = p.infos ++ [⟨n * pgSize, pgSize, flags, perm⟩] := by
  obtain ⟨m, howns, hrec⟩ := h.map
  have hm : m n = none := by
    by_contra hm
    obtain ⟨b, hb, hbn⟩ := (hrec.mapped n).mp hm
    exact hnew b hb hbn
  have hheld := h.held
  obtain ⟨hheld', hcases⟩ : (pending' ++ p.heap).Nodup ∧
      (n = trampolinePage ∧ pending ++ p.heap = pending' ++ p.heap ∨ n ≠ trampolinePage ∧
        pending ++ p.heap = pa :: (pending' ++ p.heap) ∧ pa ∉ pending' ++ p.heap ∧
          perm < 1024) := by
    rcases hpending with ⟨hn, rfl⟩ | ⟨hn, rfl, hlt⟩
    · exact ⟨hheld, .inl ⟨hn, rfl⟩⟩
    · rw [List.cons_append, List.nodup_cons] at hheld
      exact ⟨hheld.2, .inr ⟨hn, rfl, hheld.1, hlt⟩⟩
  obtain ⟨r, s', hcall, hfree, -, hr⟩ := howns.map h.free hpage hm hperm hpa hcases
  rw [UserMem.mmapAt, hcall]
  simp only [UserMem.run, Res.bind]
  rcases hr with ⟨hr, -⟩ | ⟨hr, howns'⟩
  · rw [if_pos hr]
    exact .inl rfl
  · rw [if_neg hr]
    have hrec' : Recorded (p.infos ++ [⟨n * pgSize, pgSize, flags, perm⟩])
        (Function.update m n (some (pa, perm))) := hrec.snoc
      ⟨Nat.mul_mod_left n pgSize, Nat.mod_self pgSize, Nat.le_of_ble_eq_true rfl, (page_va hpage).2⟩
      (fun k hk => by rwa [has_page.mp hk])
      (fun k hk => by rw [has_page.mp hk, Function.update_self]; exact ⟨pa, rfl⟩)
      (fun k hk => Function.update_of_ne (fun hkn => hk (has_page.mpr hkn)) _ _)
      (fun k hk => by rwa [has_page.mp hk]) (fun hk => hkernel (has_page.mp hk).symm)
    rcases pushBack_spec (p := { p with vm := s' }) howns' hrec' hfree hheld' h.nodes with ho | ho
    · exact .inl ho
    · exact .inr ⟨_, rfl, ho⟩

/-- The pages from `n` on are mapped in addition. -/
structure Maps (m : PageMap) (n k perm : Nat) (m' : PageMap) : Prop where
  new : ∀ j, n ≤ j → j < n + k → ∃ pa, m' j = some (pa, perm)
  old : ∀ j, ¬ (n ≤ j ∧ j < n + k) → m' j = m j

theorem Maps.succ {k : Nat} (h : Maps (Function.update m n (some (pa, perm))) (n + 1) k perm m') :
    Maps m n (k + 1) perm m' := by
  refine ⟨fun j h1 h2 => ?_, fun j hj => ?_⟩
  · rcases eq_or_ne j n with rfl | hne
    · rw [h.old j (by omega), Function.update_self]
      exact ⟨pa, rfl⟩
    · exact h.new j (by omega) (by omega)
  · rw [h.old j (by omega), Function.update_of_ne (by omega)]

/-- Only the page tables, the free pages and the list of mapped pages may differ. -/
structure SameRecords (p q : UserMem) : Prop where
  infos : q.infos = p.infos
  room : q.room = p.room
  heap : q.heap = p.heap
  pagetable : q.pagetable = p.pagetable

/-- Free pages became tables, and frames of the pages from `n` on. -/
structure Takes (p q : UserMem) (n k : Nat) (m' : PageMap) : Prop where
  free : ∀ x ∈ q.vm.free, x ∈ p.vm.free
  frames : ∀ j f, n ≤ j → j < n + k → m' j = some f → f.1 ∈ p.vm.free
  maxVa : q.maxVa = p.maxVa

/-- The loop of `__mmap` of `k` pages: it lacks memory, or it finds a page that is mapped and
panics, or it maps them all. -/
theorem mmapLoop_spec (hperm : HasFlag perm) (hlt : perm < 1024) : ∀ (k n : Nat) (p : UserMem)
    (m : PageMap), Owns F p.pagetable p.vm p.heap m → p.vm.free.Nodup → n + k ≤ trampolinePage →
    (UserMem.mmapLoop perm k (n * pgSize) p).mem.oom = true ∨
      ((∃ e q, UserMem.mmapLoop perm k (n * pgSize) p = .panic e q) ∧
        ∃ j, n ≤ j ∧ j < n + k ∧ m j ≠ none) ∨
      ∃ q m', UserMem.mmapLoop perm k (n * pgSize) p = .ok none q ∧
        (∀ j, n ≤ j → j < n + k → m j = none) ∧ Maps m n k perm m' ∧
        Owns F q.pagetable q.vm q.heap m' ∧ q.vm.free.Nodup ∧ SameRecords p q ∧ Takes p q n k m'
  | 0, n, p, m, h, hfree, _ => by
    refine .inr (.inr ⟨p, m, rfl, fun j h1 h2 => absurd h2 h1.not_gt, ?_, h, hfree,
      ⟨rfl, rfl, rfl, rfl⟩, ⟨fun _ => id, fun j f h1 h2 => absurd h2 h1.not_gt, rfl⟩⟩)
    exact ⟨fun j h1 h2 => absurd h2 h1.not_gt, fun _ _ => rfl⟩
  | k + 1, n, p, m, h, hfree, hend => by
    have hpage : n < maxVa / pgSize := by
      have : n < trampolinePage := by omega
      exact this.trans (by decide)
    have hne : n ≠ trampolinePage := by omega
    have hdiv : n * pgSize / pgSize = n := Nat.mul_div_cancel n (by decide)
    rw [UserMem.mmapLoop]
    cases hpages : p.vm.free with
    | nil =>
      rw [Vm.allocPage, hpages]
      exact .inl rfl
    | cons pa free =>
      have halloc : p.vm.allocPage = some (pa, { p.vm with free := free }) := by
        rw [Vm.allocPage, hpages]
      obtain ⟨hnot, hnodup, howns⟩ := h.alloc hfree hpages
      rw [halloc]
      simp only
      by_cases hm : m n = none
      · have hF : pa ∈ F := howns.owned.mem .held List.mem_cons_self
        obtain ⟨r, s', hcall, hfree', hsub, hr⟩ := howns.map hnodup hpage hm hperm (h.bound pa hF)
          (.inr ⟨hne, rfl, hnot, hlt⟩)
        have hsub' : ∀ x ∈ s'.free, x ∈ pa :: free := fun x hx => List.mem_cons_of_mem _ (hsub x hx)
        rw [hcall]
        simp only [UserMem.run, Res.bind]
        rcases hr with ⟨hr, -⟩ | ⟨hr, howns'⟩
        · rw [if_pos hr]
          exact .inl rfl
        · have hstep : n * pgSize + pgSize = (n + 1) * pgSize := (Nat.succ_mul n pgSize).symm
          have hold : ∀ j, n + 1 ≤ j → Function.update m n (some (pa, perm)) j = m j := fun j hj =>
            Function.update_of_ne (by omega) _ _
          rw [if_neg hr, hstep]
          rcases mmapLoop_spec hperm hlt k (n + 1)
              { p with vm := s', maps := p.maps ++ [n * pgSize / pgSize] } _ howns' hfree'
              (by omega) with
            ho | ⟨hpanic, j, h1, h2, hj⟩ | ⟨q, m', hq, hnone, hmaps, howns', hnodup', hsame, htakes⟩
          · exact .inl ho
          · rw [hold j h1] at hj
            exact .inr (.inl ⟨hpanic, j, by omega, by omega, hj⟩)
          · refine .inr (.inr ⟨q, m', hq, fun j h1 h2 => ?_, hmaps.succ, howns', hnodup',
              ⟨hsame.infos, hsame.room, hsame.heap, hsame.pagetable⟩,
              fun x hx => hpages ▸ hsub' x (htakes.free x hx), fun j f h1 h2 hf => ?_,
              htakes.maxVa⟩)
            · rcases eq_or_ne j n with rfl | hjn
              · exact hm
              · rw [← hold j (by omega)]
                exact hnone j (by omega) (by omega)
            · rw [hpages]
              rcases eq_or_ne j n with rfl | hjn
              · rw [hmaps.old j (by omega), Function.update_self] at hf
                cases hf
                exact List.mem_cons_self
              · exact hsub' _ (htakes.frames j f (by omega) (by omega) hf)
      · have hremap : mappages p.pagetable (n * pgSize) pa pgSize perm _ = _ :=
          mappages_remap howns.refines (Nat.mul_mod_left n pgSize) (page_va hpage).1
            (hdiv.symm ▸ hm)
        rw [hremap]
        exact .inr (.inl ⟨⟨_, _, rfl⟩, n, le_rfl, by omega, hm⟩)

end CoroCore.User
