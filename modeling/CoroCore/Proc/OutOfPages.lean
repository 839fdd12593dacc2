import CoroCore.Mm.PageCount
import CoroCore.Proc.Reclaim

/-!
# A process runs out of pages: `proc/process.cc`

`__mmap` takes a data page and maps it. If there is no page for a table on the way, the data page
is neither mapped nor freed. The constructor takes three pages first, and if it cannot map them,
those that are not mapped yet are not freed either.

* `mmap_ends`: how `__mmap` ends, and what the process has then;
* `construct_ends`: so for the constructor;
* `call_recovers_iff`: nothing is lost if and only if it is a data page that there is no page for.
-/

namespace CoroCore.User

open Lib Vmem

variable {F : Set Nat} {root n pa perm : Nat} {s s' : Vm} {m m' : PageMap} {p q : UserMem}
  {info : MmapInfo} {infos : List MmapInfo} {pending pending' : List Nat}

/-! ## What a process knows of its pages -/

theorem MmapInfo.Bad.not_whole (h : info.Bad) : ¬ info.Whole := by
  intro hw
  have h1 := hw.pos
  have h2 := hw.range
  rcases h with h | ⟨-, -, h⟩
  · exact h hw.size
  · simp only [maxVa] at h2
    omega

/-- The records are of pages that are mapped. There may be pages that are not recorded. -/
structure Records (infos : List MmapInfo) (m : PageMap) : Prop where
  whole : ∀ info ∈ infos, info.Whole
  disjoint : infos.Pairwise fun a b => ∀ n, a.Has n → ¬ b.Has n
  mapped : ∀ info ∈ infos, ∀ n, info.Has n → m n ≠ none
  shared : ∀ info ∈ infos, ∀ n, info.Has n → (info.flags &&& mapShared ≠ 0 ↔ n = trampolinePage)

/-- The process and what it has. `pending` are pages that it has taken and does not map. -/
structure Alive (F : Set Nat) (pending : List Nat) (p : UserMem) (m : PageMap) : Prop where
  owns : Owns F p.pagetable p.vm (pending ++ p.heap) m
  records : (∃ info ∈ p.infos, info.Bad) ∨ Records p.infos m
  range : ∀ n, m n ≠ none → n < maxVa / pgSize
  free : p.vm.free.Nodup
  held : (pending ++ p.heap).Nodup

/-- The records are whole, and each page that is mapped has one. -/
def Complete (p : UserMem) : Prop :=
  (∀ info ∈ p.infos, info.Whole) ∧ ∀ n < maxVa / pgSize,
    lookup p.pagetable (n * pgSize) p.vm ≠ none → ∃ info ∈ p.infos, info.Has n

/-- A record of pages that were not mapped before. -/
theorem records_snoc (h : (∃ info ∈ infos, info.Bad) ∨ Records infos m)
    (hmono : ∀ n, m n ≠ none → m' n ≠ none) (hinfo : info.Bad ∨ info.Whole ∧
      (∀ n, info.Has n → m n = none ∧ m' n ≠ none) ∧
      ∀ n, info.Has n → (info.flags &&& mapShared ≠ 0 ↔ n = trampolinePage)) :
    (∃ b ∈ infos ++ [info], b.Bad) ∨ Records (infos ++ [info]) m' := by
  rcases h with ⟨b, hb, hbad⟩ | h
  · exact .inl ⟨b, List.mem_append_left _ hb, hbad⟩
  rcases hinfo with hbad | ⟨hw, hmap, hshared⟩
  · exact .inl ⟨info, List.mem_append_right _ List.mem_cons_self, hbad⟩
  have hcases : ∀ b, b ∈ infos ++ [info] → b ∈ infos ∨ b = info := fun b hb => by
    rwa [List.mem_append, List.mem_singleton] at hb
  refine .inr ⟨fun b hb => ?_, ?_, fun b hb n hn => ?_, fun b hb => ?_⟩
  · rcases hcases b hb with hb | rfl
    · exact h.whole b hb
    · exact hw
  · refine List.pairwise_append.mpr
      ⟨h.disjoint, List.pairwise_singleton _ _, fun a ha b hb n hn => ?_⟩
    rw [List.mem_singleton.mp hb]
    exact fun hi => h.mapped a ha n hn (hmap n hi).1
  · rcases hcases b hb with hb | rfl
    · exact hmono n (h.mapped b hb n hn)
    · exact (hmap n hn).2
  · rcases hcases b hb with hb | rfl
    · exact h.shared b hb
    · exact hshared

/-- `mmap_infos.push_back`. -/
theorem Alive.pushBack (howns : Owns F p.pagetable p.vm (pending ++ p.heap) m)
    (hold : (∃ b ∈ p.infos, b.Bad) ∨ Records p.infos m)
    (hnew : (∃ b ∈ p.infos ++ [info], b.Bad) ∨ Records (p.infos ++ [info]) m)
    (hrange : ∀ n, m n ≠ none → n < maxVa / pgSize) (hfree : p.vm.free.Nodup)
    (hheld : (pending ++ p.heap).Nodup) : Alive F pending (p.pushBack info) m := by
  unfold UserMem.pushBack UserMem.newNode
  split
  · exact ⟨howns, hold, hrange, hfree, hheld⟩
  · rename_i q hq
    split at hq
    · cases hq
      exact ⟨howns, hnew, hrange, hfree, hheld⟩
    · cases hq
    · rename_i page free hroom hpages
      cases hq
      obtain ⟨hnot, hnodup, howns'⟩ := howns.alloc hfree hpages
      have hperm : (pending ++ page :: p.heap).Perm (page :: (pending ++ p.heap)) :=
        List.perm_middle
      refine ⟨howns'.held_congr fun x => hperm.mem_iff, hnew, hrange, hnodup, ?_⟩
      exact hperm.nodup_iff.mpr (List.nodup_cons.mpr ⟨hnot, hheld⟩)

theorem Alive.lookup_ne_none (h : Alive F pending p m) (hn : n < maxVa / pgSize) :
    lookup p.pagetable (n * pgSize) p.vm ≠ none ↔ m n ≠ none := by
  rw [h.owns.refines.lookup _ (page_va hn).1, Nat.mul_div_cancel n (by decide), ne_eq,
    Option.map_eq_none_iff]

/-! ## Its destruction -/

/-- The pages that are recorded are unmapped. -/
theorem Alive.unmapAll (h : Alive F pending p m) (hrec : Records p.infos m) :
    ∃ s' m', p.infos.foldlM (fun s info =>
        uvmunmap p.pagetable info.start info.size (info.flags &&& mapShared = 0) s) p.vm = .ok s' ∧
      Owns F p.pagetable s' (pending ++ p.heap) m' ∧
      ∀ n, m' n ≠ none ↔ m n ≠ none ∧ ∀ info ∈ p.infos, ¬ info.Has n :=
  unmapAll_mapped p.infos p.vm m h.owns hrec.whole hrec.disjoint hrec.mapped hrec.shared

/-- If the destructor ends, the records were complete, and the pages are free but for those that are
held. -/
theorem Alive.freePagetable (h : Alive F pending p m) (hok : p.freePagetable = .ok q) :
    Complete p ∧ (∀ x, x ∈ F ↔ x ∈ q.vm.free ∨ x ∈ pending ++ p.heap) ∧
      ∀ x ∈ pending ++ p.heap, x ∉ q.vm.free := by
  have hrec : Records p.infos m :=
    h.records.resolve_left fun ⟨_, hinfo, hbad⟩ => freePagetable_not_ok hinfo hbad hok
  obtain ⟨s1, m1, h1, howns, hleft⟩ := h.unmapAll hrec
  rw [UserMem.freePagetable] at hok
  obtain ⟨t, ht, hok⟩ := bind_ok hok
  rw [h1] at ht
  cases ht
  obtain ⟨s2, h2, hok⟩ := bind_ok hok
  obtain rfl := Except.ok.inj hok
  have hmem : ∀ x ∈ tables p.pagetable s1, x ∈ F := fun x hx => howns.owned.mem .table hx
  have hroot : p.pagetable ≠ 0 := (howns.managed _ (hmem _ Radix.root_mem_pages)).1
  have hnone : ∀ n, m1 n = none := by
    intro n
    by_contra hn
    have hlt := h.range n ((hleft n).mp hn).1
    exact hn (freePagetablePages_ok howns.refines howns.plain hroot
      (fun x hx => howns.managed x (hmem x hx)) h2 hlt)
  obtain ⟨s3, h3, hall, hheld⟩ := howns.freeTables hnone
  rw [h2] at h3
  cases h3
  refine ⟨⟨hrec.whole, fun n hn hl => ?_⟩, hall, hheld⟩
  by_contra hno
  refine (hleft n).mpr ⟨(h.lookup_ne_none hn).mp hl, fun info hinfo hhas => ?_⟩ (hnone n)
  exact hno ⟨info, hinfo, hhas⟩

theorem Alive.freePagetable_of_complete (h : Alive F pending p m) (hc : Complete p) :
    ∃ q, p.freePagetable = .ok q := by
  have hrec : Records p.infos m :=
    h.records.resolve_left fun ⟨info, hinfo, hbad⟩ => hbad.not_whole (hc.1 info hinfo)
  obtain ⟨s1, m1, h1, howns, hleft⟩ := h.unmapAll hrec
  have hnone : ∀ n, m1 n = none := by
    intro n
    by_contra hn
    obtain ⟨hm, hno⟩ := (hleft n).mp hn
    have hlt := h.range n hm
    obtain ⟨info, hinfo, hhas⟩ := hc.2 n hlt ((h.lookup_ne_none hlt).mpr hm)
    exact hno info hinfo hhas
  obtain ⟨s2, h2, -⟩ := howns.freeTables hnone
  refine ⟨{ p with vm := s2, infos := [], pagetable := 0 }, ?_⟩
  rw [UserMem.freePagetable, h1]
  change (freePagetablePages p.pagetable s1 >>= _) = _
  rw [h2]
  rfl

/-! ## The loop of `__mmap` -/

/-- After `j` pages there is no page for the data, or it is lost because there is no page for a
table on its way. -/
def Short (p : UserMem) (n j : Nat) (lost : List Nat) : Prop :=
  lost = [] ∧ p.vm.free.length = mapCost p.pagetable p.vm n j ∨
    ∃ pa, lost = [pa] ∧ pa ∉ p.heap ∧ mapCost p.pagetable p.vm n j < p.vm.free.length ∧
      p.vm.free.length < mapCost p.pagetable p.vm n (j + 1)

/-- What is free is not enough for more than `j` pages. -/
theorem Short.lt {j k : Nat} {lost : List Nat} (h : Short p n j lost) (hj : j < k) :
    p.vm.free.length < mapCost p.pagetable p.vm n k := by
  rcases h with ⟨-, hlen⟩ | ⟨_, -, -, -, hlt⟩
  · exact hlen.trans_lt (mapCost_strictMono hj)
  · exact hlt.trans_le (mapCost_strictMono.monotone hj)

/-- The pages were not mapped before. -/
def New (m : PageMap) (n k : Nat) : Prop := ∀ i < k, n + i < maxVa / pgSize ∧ m (n + i) = none

theorem New.succ {k : Nat} {f : Nat × Nat} (hn : n < maxVa / pgSize) (hm : m n = none)
    (h : New (Function.update m n (some f)) (n + 1) k) : New m n (k + 1) := by
  intro i hi
  cases i with
  | zero => exact ⟨hn, hm⟩
  | succ i =>
    obtain ⟨hlt, hnone⟩ := h i (Nat.lt_of_succ_lt_succ hi)
    have heq : n + 1 + i = n + (i + 1) := by rw [Nat.add_assoc, Nat.add_comm 1]
    rw [heq] at hlt hnone
    rw [Function.update_of_ne (by omega)] at hnone
    exact ⟨hlt, hnone⟩

theorem New.rest {k : Nat} (h : New m n (k + 1)) (v : Option (Nat × Nat)) :
    New (Function.update m n v) (n + 1) k := by
  intro i hi
  have heq : n + 1 + i = n + (i + 1) := by rw [Nat.add_assoc, Nat.add_comm 1]
  rw [heq, Function.update_of_ne (by omega)]
  exact h (i + 1) (Nat.succ_lt_succ hi)

/-- From `p` to `q` pages are taken, `k` of them from page `n` on and their tables. -/
structure Spent (p q : UserMem) (n k : Nat) : Prop where
  count : p.vm.free.length = q.vm.free.length + mapCost p.pagetable p.vm n k
  tabled : Tabled p.pagetable (tablePaths n k) p.vm q.vm

theorem tablePaths_zero : tablePaths n 0 = ∅ := rfl

theorem Spent.zero : Spent p p n 0 :=
  ⟨by simp [mapCost, missing, tablePaths_zero, absent], by rw [tablePaths_zero]; exact .refl⟩

/-- How the loop of `__mmap` ends, with `k` pages to map from page `n` on. -/
inductive LoopEnds (F : Set Nat) (p : UserMem) (m : PageMap) (n k perm : Nat) :
    Res (Option Nat) → Prop
  | all {q : UserMem} {m' : PageMap} : New m n k → Maps m n k perm m' →
      Owns F q.pagetable q.vm q.heap m' → q.vm.free.Nodup → SameRecords p q → q.oom = p.oom →
      Spent p q n k → LoopEnds F p m n k perm (.ok none q)
  | panic {e : Panic} {q : UserMem} : ¬ New m n k → q.oom = p.oom →
      LoopEnds F p m n k perm (.panic e q)
  | short {q : UserMem} {m' : PageMap} {lost : List Nat} (j : Nat) : j < k → New m n j →
      Maps m n j perm m' → Short p n j lost → Owns F q.pagetable q.vm (lost ++ q.heap) m' →
      q.vm.free.Nodup → SameRecords p q → q.oom = true →
      LoopEnds F p m n k perm (.ok (some ((n + j) * pgSize)) q)

theorem SameRecords.refl : SameRecords p p := ⟨rfl, rfl, rfl, rfl⟩

theorem SameRecords.trans {t : UserMem} (h : SameRecords p q) (h' : SameRecords q t) :
    SameRecords p t :=
  ⟨h'.infos.trans h.infos, h'.room.trans h.room, h'.heap.trans h.heap,
    h'.pagetable.trans h.pagetable⟩

/-- A page is mapped, and then the others. -/
theorem LoopEnds.succ {t : UserMem} {k : Nat} {r : Res (Option Nat)} (hn : n < maxVa / pgSize)
    (hm : m n = none) (hsame : SameRecords p t) (hoom : t.oom = p.oom)
    (hcost : ∀ j, p.vm.free.length + mapCost t.pagetable t.vm (n + 1) j =
      t.vm.free.length + mapCost p.pagetable p.vm n (j + 1))
    (htabled : Tabled p.pagetable (tablePaths n 1) p.vm t.vm)
    (h : LoopEnds F t (Function.update m n (some (pa, perm))) (n + 1) k perm r) :
    LoopEnds F p m n (k + 1) perm r := by
  cases h with
  | @all q m' hnew hmaps howns hfree hrest ho hspent =>
    refine .all (hnew.succ hn hm) hmaps.succ howns hfree (hsame.trans hrest) (ho.trans hoom)
      ⟨?_, ?_⟩
    · have h0 := hcost k
      have h1 := hspent.count
      omega
    · rw [tablePaths_succ]
      exact htabled.trans (hsame.pagetable ▸ hspent.tabled)
  | panic hnot ho => exact .panic (fun hnew => hnot (hnew.rest _)) (ho.trans hoom)
  | @short q m' lost j hj hnew hmaps hshort howns hfree hrest ho =>
    have hva : n + 1 + j = n + (j + 1) := by rw [Nat.add_assoc, Nat.add_comm 1]
    rw [hva]
    refine .short (j + 1) (Nat.succ_lt_succ hj) (hnew.succ hn hm) hmaps.succ ?_ howns hfree
      (hsame.trans hrest) ho
    have h0 := hcost j
    have h1 := hcost (j + 1)
    rcases hshort with ⟨hlost, hlen⟩ | ⟨pb, hlost, hnot, hlt, hgt⟩
    · exact .inl ⟨hlost, by omega⟩
    · rw [hsame.heap] at hnot
      exact .inr ⟨pb, hlost, hnot, by omega, by omega⟩

/-- The loop of `__mmap`, from any page on. -/
theorem mmapLoop_ends (hperm : HasFlag perm) (hlt : perm < 1024) : ∀ (k n : Nat) (p : UserMem)
    (m : PageMap), Owns F p.pagetable p.vm p.heap m → p.vm.free.Nodup → m trampolinePage ≠ none →
    LoopEnds F p m n k perm (UserMem.mmapLoop perm k (n * pgSize) p)
  | 0, n, p, m, h, hfree, _ =>
    .all nofun ⟨fun j h1 h2 => absurd h2 h1.not_gt, fun _ _ => rfl⟩ h hfree .refl rfl .zero
  | k + 1, n, p, m, h, hfree, htramp => by
    have hnothing : New m n 0 := nofun
    have hmaps : Maps m n 0 perm m := ⟨fun j h1 h2 => absurd h2 h1.not_gt, fun _ _ => rfl⟩
    rw [UserMem.mmapLoop]
    cases hpages : p.vm.free with
    | nil =>
      rw [Vm.allocPage, hpages]
      exact .short 0 k.succ_pos hnothing hmaps (.inl ⟨rfl, by rw [hpages]; rfl⟩) h hfree
        ⟨rfl, rfl, rfl, rfl⟩ rfl
    | cons pa free =>
      have halloc : p.vm.allocPage = some (pa, { p.vm with free := free }) := by
        rw [Vm.allocPage, hpages]
      obtain ⟨hnot, hnodup, howns⟩ := h.alloc hfree hpages
      rw [halloc]
      simp only
      by_cases hn : n < maxVa / pgSize
      · by_cases hm : m n = none
        · have hne : n ≠ trampolinePage := fun heq => htramp (heq ▸ hm)
          have hF : pa ∈ F := howns.owned.mem .held List.mem_cons_self
          obtain ⟨r, s', hcall, hfree', -, hr⟩ := howns.map hnodup hn hm hperm (h.bound pa hF)
            (.inr ⟨hne, rfl, hnot, hlt⟩)
          have hlen : p.vm.free.length = free.length + 1 := congrArg List.length hpages
          rcases mapPage_count howns.refines (howns.fresh hnodup) hn (h.bound pa hF) hperm hm with
            ⟨t, hcall', hmiss⟩ | ⟨t, hcall', hcount, htabled⟩
          · rw [hcall] at hcall'
            cases hcall'
            rw [hcall]
            simp only [UserMem.run, Res.bind]
            rw [if_pos (by decide)]
            obtain ⟨-, howns'⟩ := hr.resolve_right fun h => h.1 (by decide)
            refine .short 0 k.succ_pos hnothing hmaps (.inr ⟨pa, rfl, hnot, ?_, ?_⟩) howns' hfree'
              ⟨rfl, rfl, rfl, rfl⟩ rfl
            · rw [hlen]
              exact Nat.succ_pos _
            · change free.length < _ at hmiss
              change _ < 1 + (missing p.pagetable p.vm n 1).card
              rw [hlen, Nat.add_comm]
              exact Nat.add_lt_add_left hmiss 1
          · rw [hcall] at hcall'
            cases hcall'
            rw [hcall]
            simp only [UserMem.run, Res.bind]
            rw [if_neg (by decide)]
            obtain ⟨-, howns'⟩ := hr.resolve_left fun h => absurd h.1 (by decide)
            have hstep : n * pgSize + pgSize = (n + 1) * pgSize := (Nat.succ_mul n pgSize).symm
            rw [hstep]
            refine LoopEnds.succ (t := { p with
              vm := s', maps := p.maps ++ [n * pgSize / pgSize] }) hn hm ⟨rfl, rfl, rfl, rfl⟩ rfl
              (fun j => ?_) htabled (mmapLoop_ends hperm hlt k (n + 1) _ _ howns' hfree' ?_)
            · have hj := missing_succ (k := j) htabled
              change (missing p.pagetable p.vm n (j + 1)).card =
                (missing p.pagetable p.vm n 1).card + _ at hj
              change free.length = s'.free.length + (missing p.pagetable p.vm n 1).card at hcount
              change _ + (j + (missing p.pagetable s' (n + 1) j).card) =
                s'.free.length + (j + 1 + (missing p.pagetable p.vm n (j + 1)).card)
              omega
            · rwa [Function.update_of_ne hne.symm]
        · have hremap : mappages p.pagetable (n * pgSize) pa pgSize perm _ = _ :=
            mappages_remap howns.refines (Nat.mul_mod_left n pgSize) (page_va hn).1
              ((Nat.mul_div_cancel n (by decide : 0 < pgSize)).symm ▸ hm)
          rw [hremap]
          exact .panic (fun hnew => hm (hnew 0 k.succ_pos).2) rfl
      · have hwalk : mappages p.pagetable (n * pgSize) pa pgSize perm { p.vm with free := free } =
            .error .walk := by
          rw [mappages, Nat.mul_div_cancel n (by decide), Nat.sub_eq_zero_of_le (not_lt.mp hn)]
          rfl
        rw [hwalk]
        exact .panic (fun hnew => hn (hnew 0 k.succ_pos).1) rfl

/-! ## What is freed again -/

/-- A list with as many different elements as it is long. -/
theorem nodup_of_card_le {l : List Nat} {S : Finset Nat} (hS : ∀ x ∈ S, x ∈ l)
    (hlen : l.length ≤ S.card) : l.Nodup ∧ ∀ x ∈ l, x ∈ S := by
  have hsub : S ⊆ l.toFinset := fun x hx => List.mem_toFinset.mpr (hS x hx)
  have hle : l.toFinset.card ≤ l.length := l.toFinset_card_le
  have heq : S = l.toFinset := Finset.eq_of_subset_of_card_le hsub (hle.trans hlen)
  refine ⟨?_, fun x hx => heq ▸ List.mem_toFinset.mpr hx⟩
  refine List.dedup_eq_self.mp ((List.dedup_sublist l).eq_of_length_le ?_)
  rw [← List.card_toFinset, ← heq]
  exact hlen

/-- `uvmunmap` of pages of the process: the free pages are different ones, as before. -/
theorem Owns.unmap_nodup {held : List Nat} (h : Owns F root s held m) (hw : info.Whole)
    (hn : s.free.Nodup) (hmapped : ∀ n, info.Has n → m n ≠ none)
    (hown : ∀ n, info.Has n → n ≠ trampolinePage)
    (hcall : uvmunmap root info.start info.size true s = .ok s')
    (hun : Unmapped root s m (info.start / pgSize) (pageCount info.start info.size) true s') :
    s'.free.Nodup := by
  obtain ⟨l, hl, hlen⟩ := uvmunmap_length hw.start hw.size hw.pos hw.range hcall
  -- the frames of the range
  let g : Nat → Nat := fun j => ((m (info.start / pgSize + j)).map frame).getD 0
  have hg : ∀ j < pageCount info.start info.size,
      Holds root s held m (.frame (info.start / pgSize + j)) (g j) := by
    intro j hj
    have hhas : info.Has (info.start / pgSize + j) :=
      hw.has_iff.mpr ⟨Nat.le_add_right _ _, Nat.add_lt_add_left hj _⟩
    obtain ⟨f, hf⟩ := Option.ne_none_iff_exists'.mp (hmapped _ hhas)
    exact ⟨hown _ hhas, f, hf, by simp only [g, hf]; rfl⟩
  have hnot : ∀ j < pageCount info.start info.size, g j ∉ s.free := fun j hj =>
    h.owned.not_owner (.frame _) .free (hg j hj) nofun
  have hin : ∀ x ∈ (Finset.range (pageCount info.start info.size)).image g, x ∈ l := by
    intro x hx
    obtain ⟨j, hj, rfl⟩ := Finset.mem_image.mp hx
    have hj := Finset.mem_range.mp hj
    have hfree : g j ∈ s'.free := by
      have h0 := (h.managed _ (h.owned.mem _ (hg j hj))).1
      obtain ⟨-, f, hf, hfr⟩ := hg j hj
      exact (hun.free _).mpr (.inr ⟨rfl, h0, _, f, Nat.le_add_right _ _,
        Nat.add_lt_add_left hj _, hf, hfr.symm⟩)
    rw [hl] at hfree
    exact (List.mem_append.mp hfree).resolve_right (hnot j hj)
  have hcard : ((Finset.range (pageCount info.start info.size)).image g).card =
      pageCount info.start info.size := by
    rw [Finset.card_image_of_injOn, Finset.card_range]
    intro i hi j hj hij
    have hi := hg i (Finset.mem_range.mp hi)
    have hij' : g i = g j := hij
    rw [hij'] at hi
    have heq := Owner.frame.inj (h.owned.unique _ _ _ hi (hg j (Finset.mem_range.mp hj)))
    exact Nat.add_left_cancel heq
  obtain ⟨hnodup, hback⟩ := nodup_of_card_le hin (hlen.trans hcard.ge)
  rw [hl]
  refine List.nodup_append.mpr ⟨hnodup, hn, fun x hx y hy hxy => ?_⟩
  obtain ⟨j, hj, rfl⟩ := Finset.mem_image.mp (hback x hx)
  exact hnot j (Finset.mem_range.mp hj) (hxy ▸ hy)

/-! ## `__mmap` -/

/-- What is left in the kernel: free pages, and nodes of the kernel heap. -/
structure Stock where
  pages : Nat
  nodes : Nat

def UserMem.stock (p : UserMem) : Stock := ⟨p.vm.free.length, p.room⟩

/-- A record takes a node, or a page that gives 31 of them. -/
def Stock.record (k : Stock) : Stock :=
  match k.nodes, k.pages with
  | nodes + 1, _ => { k with nodes := nodes }
  | 0, 0 => k
  | 0, pages + 1 => ⟨pages, 30⟩

theorem stock_pushBack : (p.pushBack info).stock = p.stock.record := by
  unfold UserMem.pushBack UserMem.newNode UserMem.stock Stock.record
  cases hroom : p.room with
  | succ room => rfl
  | zero =>
    cases hfree : p.vm.free with
    | nil => simp [hfree]
    | cons page free => rfl

theorem pushBack_keeps (info : MmapInfo) : (p.pushBack info).vm.mem = p.vm.mem ∧
    (∀ x ∈ (p.pushBack info).vm.free, x ∈ p.vm.free) ∧
    (p.pushBack info).pagetable = p.pagetable ∧ (p.pushBack info).maxVa = p.maxVa := by
  unfold UserMem.pushBack UserMem.newNode
  split
  · exact ⟨rfl, fun _ => id, rfl, rfl⟩
  · rename_i t ht
    split at ht
    · cases ht
      exact ⟨rfl, fun _ => id, rfl, rfl⟩
    · cases ht
    · rename_i page free hroom hpages
      cases ht
      exact ⟨rfl, fun x hx => hpages ▸ List.mem_cons_of_mem _ hx, rfl, rfl⟩

/-- From `p` to `q` there are `k` pages more from page `n` on, their tables and the record. -/
structure Paid (p q : UserMem) (n k : Nat) : Prop where
  enough : mapCost p.pagetable p.vm n k ≤ p.vm.free.length
  stock : q.stock = Stock.record ⟨p.vm.free.length - mapCost p.pagetable p.vm n k, p.room⟩
  pagetable : q.pagetable = p.pagetable
  tabled : Tabled p.pagetable (tablePaths n k) p.vm q.vm

/-- How `__mmap` of `k` pages from page `n` on ends. -/
inductive MmapEnds (F : Set Nat) (p : UserMem) (m : PageMap) (n k perm : Nat) : Res Int → Prop
  | mapped {q : UserMem} {m' : PageMap} : New m n k → Maps m n k perm m' → Alive F [] q m' →
      m' trampolinePage ≠ none → q.oom = true ∨ q.oom = p.oom → Paid p q n k →
      MmapEnds F p m n k perm (.ok 0 q)
  | panic {e : Panic} {q : UserMem} : ¬ New m n k → q.oom = p.oom →
      MmapEnds F p m n k perm (.panic e q)
  | short {q : UserMem} {lost : List Nat} (j : Nat) : j < k → Short p n j lost → Alive F lost q m →
      SameRecords p q → q.oom = true → MmapEnds F p m n k perm (.ok (-1) q)

/-- The record of a request is one that cannot be unmapped, or it has the pages of the loop. -/
theorem bad_or_pages {size flags k : Nat} (hva : n * pgSize < 2 ^ 64) (hsize : size < 2 ^ 64)
    (hk : k = ((n * pgSize + size) % 2 ^ 64 - n * pgSize + (pgSize - 1)) / pgSize) :
    (MmapInfo.mk (n * pgSize) size flags perm).Bad ∨ size = k * pgSize ∧ 1 ≤ k := by
  simp only [MmapInfo.Bad, MmapInfo.Empty, pgSize] at *
  omega

theorem whole_of_new {k flags : Nat} (hk : 1 ≤ k) (hnew : New m n k) :
    (MmapInfo.mk (n * pgSize) (k * pgSize) flags perm).Whole := by
  have hlast := (hnew (k - 1) (Nat.sub_lt hk Nat.one_pos)).1
  refine ⟨Nat.mul_mod_left n pgSize, Nat.mul_mod_left k pgSize, ?_, ?_⟩
  · exact Nat.mul_pos hk (by decide)
  · simp only [maxVa, pgSize] at *
    omega

theorem has_pages {k flags j : Nat} : (MmapInfo.mk (n * pgSize) (k * pgSize) flags perm).Has j ↔
    n ≤ j ∧ j < n + k := by
  simp only [MmapInfo.Has, pgSize]
  omega

theorem New.none {k j : Nat} (h : New m n k) (h1 : n ≤ j) (h2 : j < n + k) :
    j < maxVa / pgSize ∧ m j = none := by
  have hj := h (j - n) (Nat.sub_lt_left_of_lt_add h1 h2)
  rwa [Nat.add_sub_cancel' h1] at hj

/-- `__mmap` without the flag of shared pages. -/
theorem not_shared (flags : Nat) : flags &&& (2 ^ 64 - 1 - mapShared) &&& mapShared = 0 := by
  rw [Nat.and_assoc]
  exact Nat.and_zero flags

/-- The range is mapped, and recorded if there is a node for the record. -/
theorem mapped_ends {size flags k : Nat} (h : Alive F [] p m) (htramp : m trampolinePage ≠ none)
    (hva : n * pgSize < 2 ^ 64) (hsize : size < 2 ^ 64)
    (hk : k = ((n * pgSize + size) % 2 ^ 64 - n * pgSize + (pgSize - 1)) / pgSize)
    (hnew : New m n k) (hmaps : Maps m n k perm m') (howns : Owns F q.pagetable q.vm q.heap m')
    (hfree : q.vm.free.Nodup) (hsame : SameRecords p q) (hoom : q.oom = p.oom)
    (hspent : Spent p q n k) :
    MmapEnds F p m n k perm (UserMem.mmapEnd (n * pgSize) size flags perm none q) := by
  have hmono : ∀ j, m j ≠ none → m' j ≠ none := by
    intro j hj
    rwa [hmaps.old j fun hin => hj (hnew.none hin.1 hin.2).2]
  have hrange : ∀ j, m' j ≠ none → j < maxVa / pgSize := by
    intro j hj
    by_cases hin : n ≤ j ∧ j < n + k
    · exact (hnew.none hin.1 hin.2).1
    · rw [hmaps.old j hin] at hj
      exact h.range j hj
  have hold : (∃ b ∈ q.infos, b.Bad) ∨ Records q.infos m := hsame.infos ▸ h.records
  refine .mapped hnew hmaps (Alive.pushBack howns ?_ (records_snoc hold hmono ?_) hrange hfree ?_)
    (hmono _ htramp) ?_ ?_
  · exact hold.imp_right fun hrec =>
      ⟨hrec.whole, hrec.disjoint, fun b hb j hj => hmono j (hrec.mapped b hb j hj), hrec.shared⟩
  · refine (bad_or_pages hva hsize hk).imp_right ?_
    rintro ⟨rfl, hpos⟩
    refine ⟨whole_of_new hpos hnew, fun j hj => ?_, fun j hj => ?_⟩
    · obtain ⟨h1, h2⟩ := has_pages.mp hj
      obtain ⟨pa, hpa⟩ := hmaps.new j h1 h2
      exact ⟨(hnew.none h1 h2).2, Option.ne_none_iff_exists'.mpr ⟨_, hpa⟩⟩
    · obtain ⟨h1, h2⟩ := has_pages.mp hj
      refine iff_of_false (not_not_intro (not_shared flags)) ?_
      rintro rfl
      exact htramp (hnew.none h1 h2).2
  · rw [hsame.heap]
    exact h.held
  · rw [← hoom]
    unfold UserMem.pushBack UserMem.newNode
    split
    · exact .inl rfl
    · rename_i t ht
      split at ht <;> cases ht <;> exact .inr rfl
  · have hcount := hspent.count
    refine ⟨hcount ▸ Nat.le_add_left _ _, ?_, ?_, fun q' hq' => ?_⟩
    · rw [stock_pushBack, UserMem.stock, hsame.room, hcount, Nat.add_sub_cancel]
    · exact (pushBack_keeps _).2.2.1.trans hsame.pagetable
    · rw [← hspent.tabled q' hq', (pushBack_keeps _).1]

/-- What was mapped before the allocation failed is unmapped and freed. -/
theorem short_ends {j k : Nat} {lost : List Nat} (size flags : Nat) (hj : j < k)
    (h : Alive F [] p m)
    (htramp : m trampolinePage ≠ none) (hnew : New m n j) (hmaps : Maps m n j perm m')
    (hshort : Short p n j lost) (howns : Owns F q.pagetable q.vm (lost ++ q.heap) m')
    (hfree : q.vm.free.Nodup) (hsame : SameRecords p q) (hoom : q.oom = true) :
    MmapEnds F p m n k perm
      (UserMem.mmapEnd (n * pgSize) size flags perm (some ((n + j) * pgSize)) q) := by
  have hheld : (lost ++ q.heap).Nodup := by
    have hheap : p.heap.Nodup := h.held
    rw [hsame.heap]
    rcases hshort with ⟨rfl, -⟩ | ⟨pa, rfl, hnot, -⟩
    · exact hheap
    · exact List.nodup_cons.mpr ⟨hnot, hheap⟩
  have hold : (∃ b ∈ q.infos, b.Bad) ∨ Records q.infos m := hsame.infos ▸ h.records
  rw [UserMem.mmapEnd]
  cases j with
  | zero =>
    obtain rfl : m' = m := funext fun i => hmaps.old i fun hi => hi.2.not_ge hi.1
    rw [if_pos (by rw [Nat.add_zero])]
    exact .short 0 hj hshort ⟨howns, hold, h.range, hfree, hheld⟩ hsame hoom
  | succ j =>
    have hne : (n + (j + 1)) * pgSize ≠ n * pgSize := by
      simp only [pgSize]
      omega
    have hlen : (n + (j + 1)) * pgSize - n * pgSize = (j + 1) * pgSize := by
      rw [← Nat.sub_mul, Nat.add_sub_cancel_left]
    have hw : (MmapInfo.mk (n * pgSize) ((j + 1) * pgSize) mapUser perm).Whole :=
      whole_of_new j.succ_pos hnew
    have hmapped : ∀ i, (MmapInfo.mk (n * pgSize) ((j + 1) * pgSize) mapUser perm).Has i →
        m' i ≠ none := by
      intro i hi
      obtain ⟨h1, h2⟩ := has_pages.mp hi
      obtain ⟨pa, hpa⟩ := hmaps.new i h1 h2
      exact Option.ne_none_iff_exists'.mpr ⟨_, hpa⟩
    have hown : ∀ i, (MmapInfo.mk (n * pgSize) ((j + 1) * pgSize) mapUser perm).Has i →
        i ≠ trampolinePage := by
      rintro i hi rfl
      obtain ⟨h1, h2⟩ := has_pages.mp hi
      exact htramp (hnew.none h1 h2).2
    have huser : mapUser &&& mapShared = 0 := by decide
    obtain ⟨s', hcall, howns', hun⟩ := howns.unmap hw hmapped fun i hi =>
      iff_of_false (not_not_intro huser) (hown i hi)
    simp only [huser, decide_true] at hcall hun
    have hback :
        m'.unmap (n * pgSize / pgSize) (pageCount (n * pgSize) ((j + 1) * pgSize)) = m := by
      funext i
      by_cases hi : (MmapInfo.mk (n * pgSize) ((j + 1) * pgSize) mapUser perm).Has i
      · obtain ⟨h1, h2⟩ := has_pages.mp hi
        exact (unmap_of_has hw hi).trans (hnew.none h1 h2).2.symm
      · exact (unmap_of_not_has hw hi).trans (hmaps.old i fun hin => hi (has_pages.mpr hin))
    have hnodup := howns.unmap_nodup hw hfree hmapped hown hcall hun
    rw [if_neg hne, hlen, hcall]
    exact .short (j + 1) hj hshort ⟨hback ▸ howns', hold, h.range, hnodup, hheld⟩
      ⟨hsame.infos, hsame.room, hsame.heap, hsame.pagetable⟩ hoom

theorem mmap_ends (size flags : Nat) (h : Alive F [] p m) (htramp : m trampolinePage ≠ none)
    (hva : n * pgSize < 2 ^ 64) (hsize : size < 2 ^ 64) (hperm : HasFlag perm) (hlt : perm < 1024) :
    MmapEnds F p m n (((n * pgSize + size) % 2 ^ 64 - n * pgSize + (pgSize - 1)) / pgSize) perm
      (UserMem.mmap (n * pgSize) size flags perm p) := by
  rw [UserMem.mmap]
  have hloop := mmapLoop_ends hperm hlt
    (((n * pgSize + size) % 2 ^ 64 - n * pgSize + (pgSize - 1)) / pgSize) n p m h.owns h.free htramp
  generalize UserMem.mmapLoop perm _ (n * pgSize) p = r at hloop
  cases hloop with
  | all hnew hmaps howns hfree hsame hoom hspent =>
    exact mapped_ends h htramp hva hsize rfl hnew hmaps howns hfree hsame hoom hspent
  | panic hnot hoom => exact .panic hnot hoom
  | short j hj hnew hmaps hshort howns hfree hsame hoom =>
    exact short_ends size flags hj h htramp hnew hmaps hshort howns hfree hsame hoom

/-! ## The constructor -/

/-- `__mmap` of a page that the process took, or of the trampoline. -/
theorem Alive.mmapAt (flags : Nat) (h : Alive F pending p m) (hpage : n < maxVa / pgSize)
    (hm : m n = none) (hperm : HasFlag perm) (hpa : pa < 2 ^ 55)
    (hpending : n = trampolinePage ∧ pending = pending' ∨
      n ≠ trampolinePage ∧ pending = pa :: pending' ∧ perm < 1024)
    (hshared : flags &&& mapShared ≠ 0 ↔ n = trampolinePage) :
    (∃ q, UserMem.mmapAt (n * pgSize) pa pgSize flags perm p = .ok (-1) q ∧ Alive F pending q m) ∨
      ∃ q, UserMem.mmapAt (n * pgSize) pa pgSize flags perm p = .ok 0 q ∧
        Alive F pending' q (Function.update m n (some (pa, perm))) := by
  have hheld := h.held
  obtain ⟨hheld', hcases⟩ : (pending' ++ p.heap).Nodup ∧
      (n = trampolinePage ∧ pending ++ p.heap = pending' ++ p.heap ∨ n ≠ trampolinePage ∧
        pending ++ p.heap = pa :: (pending' ++ p.heap) ∧ pa ∉ pending' ++ p.heap ∧
          perm < 1024) := by
    rcases hpending with ⟨hn, rfl⟩ | ⟨hn, rfl, hlt⟩
    · exact ⟨hheld, .inl ⟨hn, rfl⟩⟩
    · rw [List.cons_append, List.nodup_cons] at hheld
      exact ⟨hheld.2, .inr ⟨hn, rfl, hheld.1, hlt⟩⟩
  obtain ⟨r, s', hcall, hfree, -, hr⟩ := h.owns.map h.free hpage hm hperm hpa hcases
  rw [UserMem.mmapAt, hcall]
  simp only [UserMem.run, Res.bind]
  rcases hr with ⟨hr, howns⟩ | ⟨hr, howns⟩
  · rw [if_pos hr]
    exact .inl ⟨_, rfl, howns, h.records, h.range, hfree, hheld⟩
  · rw [if_neg hr]
    have hmono : ∀ j, m j ≠ none → Function.update m n (some (pa, perm)) j ≠ none := by
      intro j hj
      rwa [Function.update_of_ne fun heq : j = n => hj (heq ▸ hm)]
    have hw : (MmapInfo.mk (n * pgSize) pgSize flags perm).Whole :=
      ⟨Nat.mul_mod_left n pgSize, Nat.mod_self pgSize, Nat.le_of_ble_eq_true rfl, (page_va hpage).2⟩
    refine .inr ⟨_, rfl, Alive.pushBack (p := { p with vm := s' }) howns ?_
      (records_snoc h.records hmono (.inr ⟨hw, fun j hj => ?_, fun j hj => ?_⟩)) ?_ hfree hheld'⟩
    · exact h.records.imp_right fun hrec =>
        ⟨hrec.whole, hrec.disjoint, fun b hb j hj => hmono j (hrec.mapped b hb j hj), hrec.shared⟩
    · obtain rfl := has_page.mp hj
      rw [Function.update_self]
      exact ⟨hm, Option.some_ne_none _⟩
    · obtain rfl := has_page.mp hj
      exact hshared
    · intro j hj
      rcases eq_or_ne j n with rfl | hne
      · exact hpage
      · rw [Function.update_of_ne hne] at hj
        exact h.range j hj

/-- The call fails, there is nothing left of the process, and a page is not free. -/
def Loses (F : Set Nat) (r : Res Int) : Prop :=
  ∀ a q, r = .ok a q → a ≠ 0 ∧ q.infos = [] ∧ q.pagetable = 0 ∧ ∃ x ∈ F, x ∉ q.vm.free

theorem freePagetable_empty (h : p.freePagetable = .ok q) : q.infos = [] ∧ q.pagetable = 0 := by
  rw [UserMem.freePagetable] at h
  obtain ⟨s1, -, h⟩ := bind_ok h
  obtain ⟨s2, -, h⟩ := bind_ok h
  obtain rfl := Except.ok.inj h
  exact ⟨rfl, rfl⟩

/-- The pages that are not mapped yet are not freed. -/
theorem initFailed_loses {st : Nat} (h : Alive F pending p m) (hst : st ∈ pending) :
    Loses F p.initFailed := by
  intro a q hok
  rw [UserMem.initFailed, UserMem.destroy] at hok
  cases hfree : p.freePagetable with
  | error e =>
    rw [hfree] at hok
    cases hok
  | ok q' =>
    rw [hfree] at hok
    cases hok
    obtain ⟨-, hall, hheld⟩ := h.freePagetable hfree
    have hst' : st ∈ pending ++ p.heap := List.mem_append_left _ hst
    obtain ⟨h1, h2⟩ := freePagetable_empty hfree
    exact ⟨by decide, h1, h2, st, (hall st).mpr (.inr hst'), hheld st hst'⟩

/-- The constructor maps its pages, or it loses the page of the stack. -/
theorem initMaps_ends {trampoline tf st : Nat} (h : Alive F [tf, st] p fun _ => none)
    (htramp : trampoline < 2 ^ 55) (htf : tf < 2 ^ 55) (hst : st < 2 ^ 55) :
    (∃ q m', UserMem.initMaps trampoline tf st p = .ok 0 q ∧ Alive F [] q m' ∧
      m' trampolinePage = some (trampoline, pteR ||| pteX)) ∨
      Loses F (UserMem.initMaps trampoline tf st p) := by
  have hva1 : trampolineVa = trampolinePage * pgSize := by decide
  have hva2 : trapframeVa = trapframeVa / pgSize * pgSize := by decide
  have hva3 : userStackTop = userStackTop / pgSize * pgSize := by decide
  unfold UserMem.initMaps
  rcases h.mmapAt (n := trampolinePage) mapShared (by decide) rfl
      (HasRwx.hasFlag (by decide : HasRwx (pteR ||| pteX))) htramp (.inl ⟨rfl, rfl⟩)
      (iff_of_true (by decide) rfl) with ⟨q1, hcall1, hq1⟩ | ⟨q1, hcall1, hq1⟩
  · rw [← hva1] at hcall1
    rw [hcall1, Res.bind, if_pos (by decide)]
    exact .inr (initFailed_loses hq1 (List.mem_cons_of_mem _ List.mem_cons_self))
  rw [← hva1] at hcall1
  rw [hcall1, Res.bind, if_neg (by decide)]
  rcases hq1.mmapAt (n := trapframeVa / pgSize) mapDefault (by decide)
      (Function.update_of_ne (by decide) _ _) (HasRwx.hasFlag (by decide : HasRwx (pteR ||| pteW)))
      htf (.inr ⟨by decide, rfl, by decide⟩) (iff_of_false (by decide) (by decide)) with
    ⟨q2, hcall2, hq2⟩ | ⟨q2, hcall2, hq2⟩
  · rw [← hva2] at hcall2
    rw [hcall2, Res.bind, if_pos (by decide)]
    exact .inr (initFailed_loses hq2 (List.mem_cons_of_mem _ List.mem_cons_self))
  rw [← hva2] at hcall2
  rw [hcall2, Res.bind, if_neg (by decide)]
  rcases hq2.mmapAt (n := userStackTop / pgSize) mapUser (by decide)
      ((Function.update_of_ne (by decide) _ _).trans (Function.update_of_ne (by decide) _ _))
      (HasRwx.hasFlag (by decide : HasRwx (pteU ||| pteR ||| pteW))) hst
      (.inr ⟨by decide, rfl, by decide⟩) (iff_of_false (by decide) (by decide)) with
    ⟨q3, hcall3, hq3⟩ | ⟨q3, hcall3, hq3⟩
  · rw [← hva3] at hcall3
    rw [hcall3, Res.bind, if_pos (by decide)]
    exact .inr (initFailed_loses hq3 List.mem_cons_self)
  rw [← hva3] at hcall3
  rw [hcall3, Res.bind, if_neg (by decide)]
  refine .inl ⟨q3, _, rfl, hq3, ?_⟩
  rw [Function.update_of_ne (by decide), Function.update_of_ne (by decide), Function.update_self]

/-- The process when its pages are taken and not mapped yet. -/
theorem alive_allocated {tf st : Nat} {free : List Nat} (hp : Pool p.vm) (hinfos : p.infos = [])
    (hheap : p.heap = []) (hfree : p.vm.free = root :: tf :: st :: free) :
    Alive {x | x ∈ p.vm.free} [tf, st] { p with
      vm := { p.vm with mem := Radix.fill p.vm.mem root 0, free := free }, pagetable := root }
      fun _ => none := by
  have hrest : (tf :: st :: free).Nodup := (hfree ▸ hp.nodup).of_cons
  refine ⟨?_, ?_, fun n h => absurd rfl h, hrest.of_cons.of_cons, ?_⟩
  · change Owns _ root _ ([tf, st] ++ p.heap) _
    rw [hheap]
    exact owns_allocated hp hfree rfl rfl rfl fun _ => Radix.fill_self
  · change (∃ b ∈ p.infos, b.Bad) ∨ Records p.infos _
    rw [hinfos]
    exact .inr ⟨nofun, List.Pairwise.nil, nofun, nofun⟩
  · change ([tf, st] ++ p.heap).Nodup
    rw [hheap, List.append_nil]
    exact List.Nodup.sublist (List.sublist_append_left [tf, st] free) hrest

theorem giveBack_page (h : pa = 0 ∨ Managed s pa) : ∃ s', s.freePage pa = .ok s' ∧
    (∀ y, Managed s y → Managed s' y) ∧ ∀ y, y ∈ s'.free ↔ y ∈ s.free ∨ y ≠ 0 ∧ y = pa := by
  rcases h with rfl | h
  · exact ⟨s, rfl, fun _ => id, fun y => by simp⟩
  · obtain ⟨s', hok, hfreed⟩ := freePage_managed h
    refine ⟨s', hok, fun _ => hfreed.managed, fun y => (hfreed.free y).trans (or_congr_right ?_)⟩
    rw [Set.mem_singleton_iff]
    exact ⟨fun hy => ⟨hy ▸ h.1, hy⟩, fun hy => hy.2⟩

theorem giveBack_table (h : root = 0 ∨ Managed s root) (h0 : root ≠ 0 → ∀ i, s.mem root i = 0) :
    ∃ s', freePagetablePages root s = .ok s' ∧ (∀ y, Managed s y → Managed s' y) ∧
      ∀ y, y ∈ s'.free ↔ y ∈ s.free ∨ y ≠ 0 ∧ y = root := by
  rcases h with rfl | h
  · exact ⟨s, rfl, fun _ => id, fun y => by simp⟩
  · have hempty := h0 h.1
    have htables := tables_empty hempty
    obtain ⟨s', hok, hfreed⟩ := freePagetablePages_spec (Refines.empty hempty) (plain_empty hempty)
      (fun _ => rfl) h.1 fun x hx => by
        rw [htables] at hx
        exact Set.mem_singleton_iff.mp hx ▸ h
    refine ⟨s', hok, fun _ => hfreed.managed, fun y => (hfreed.free y).trans (or_congr_right ?_)⟩
    rw [htables, Set.mem_singleton_iff]
    exact ⟨fun hy => ⟨hy ▸ h.1, hy⟩, fun hy => hy.2⟩

/-- The constructor without one of its three pages frees the others. -/
theorem abort_spec {tf st : Nat} (hpage : ∀ x ∈ [root, tf, st], x = 0 ∨ Managed s x)
    (h0 : root ≠ 0 → ∀ i, s.mem root i = 0) :
    ∃ q, (({ p with pagetable := 0, oom := true } : UserMem).run (do
        let s ← freePagetablePages root s
        let s ← s.freePage tf
        let s ← s.freePage st
        return ((), s))).bind (fun _ p => (.ok (-12) p : Res Int)) = .ok (-12) q ∧
      q.pagetable = 0 ∧ q.infos = p.infos ∧
      ∀ y, y ∈ q.vm.free ↔ y ∈ s.free ∨ y ≠ 0 ∧ y ∈ [root, tf, st] := by
  obtain ⟨s1, h1, hman1, hfree1⟩ := giveBack_table (hpage root (by simp)) h0
  obtain ⟨s2, h2, hman2, hfree2⟩ := giveBack_page ((hpage tf (by simp)).imp_right (hman1 tf))
  obtain ⟨s3, h3, -, hfree3⟩ :=
    giveBack_page ((hpage st (by simp)).imp_right fun h => hman2 st (hman1 st h))
  refine ⟨{ p with pagetable := 0, oom := true, vm := s3 }, ?_, rfl, rfl, fun y => ?_⟩
  · simp only [h1, h2, h3, bind, Except.bind, pure, Except.pure, UserMem.run, Res.bind]
  · rw [hfree3, hfree2, hfree1, or_assoc, or_assoc, ← and_or_left, ← and_or_left]
    simp

/-- How the constructor ends. -/
inductive ConstructEnds (p : UserMem) : Res Int → Prop
  | abort {q : UserMem} : p.vm.free.length < 3 → q.pagetable = 0 → q.infos = [] →
      (∀ x, x ∈ q.vm.free ↔ x ∈ p.vm.free) → ConstructEnds p (.ok (-12) q)
  | mapped {q : UserMem} {m : PageMap} {f : Nat × Nat} : 3 ≤ p.vm.free.length →
      Alive {x | x ∈ p.vm.free} [] q m → m trampolinePage = some f → f.2 &&& pteU = 0 →
      ConstructEnds p (.ok 0 q)
  | loses {r : Res Int} : 3 ≤ p.vm.free.length → Loses {x | x ∈ p.vm.free} r → ConstructEnds p r

theorem construct_ends {trampoline : Nat} (hp : Pool p.vm) (hinfos : p.infos = [])
    (hheap : p.heap = []) (htramp : trampoline < 2 ^ 55) :
    ConstructEnds p (UserMem.construct trampoline p) := by
  have habort : ∀ {s : Vm} {root tf st : Nat}, p.vm.free.length < 3 →
      (∀ x ∈ [root, tf, st], x = 0 ∨ Managed s x) → (root ≠ 0 → ∀ i, s.mem root i = 0) →
      (∀ y, y ∈ s.free ∨ y ≠ 0 ∧ y ∈ [root, tf, st] ↔ y ∈ p.vm.free) →
      ConstructEnds p ((({ p with pagetable := 0, oom := true } : UserMem).run (do
        let s ← freePagetablePages root s
        let s ← s.freePage tf
        let s ← s.freePage st
        return ((), s))).bind (fun _ p => (.ok (-12) p : Res Int))) := by
    intro s root tf st hlen hpage h0 hall
    obtain ⟨q, hq, hpt, hi, hfree⟩ := abort_spec (p := p) hpage h0
    rw [hq]
    exact .abort hlen hpt (hi.trans hinfos) fun x => (hfree x).trans (hall x)
  rw [UserMem.construct]
  cases h1 : p.vm.free with
  | nil =>
    rw [UserMem.createPagetable, Vm.allocTable, h1]
    dsimp only [Option.getD_none]
    rw [allocPage_nil h1]
    dsimp only
    rw [allocPage_nil h1]
    dsimp only
    rw [if_pos (.inl rfl)]
    refine habort (by simp [h1]) (by simp) (fun h => absurd rfl h) fun y => ?_
    rw [h1]
    simp
  | cons root free1 =>
    have hroot := hp.managed root (h1 ▸ List.mem_cons_self)
    rw [UserMem.createPagetable, Vm.allocTable, h1]
    dsimp only [Option.getD_some]
    have hzero : ∀ i, Radix.fill p.vm.mem root 0 root i = 0 := fun i => Radix.fill_self
    cases h2 : free1 with
    | nil =>
      rw [allocPage_nil rfl]
      dsimp only
      rw [allocPage_nil rfl]
      dsimp only
      rw [if_pos (.inr (.inl rfl))]
      subst h2
      refine habort (by simp [h1]) (fun x hx => ?_) (fun _ => hzero) fun y => ?_
      · simp only [List.mem_cons, List.not_mem_nil, or_false] at hx
        rcases hx with rfl | rfl | rfl
        · exact .inr hroot
        · exact .inl rfl
        · exact .inl rfl
      · rw [h1]
        have hne := hroot.1
        grind
    | cons tf free2 =>
      rw [allocPage_cons rfl]
      dsimp only
      have htf := hp.managed tf (by rw [h1, h2]; simp)
      cases h3 : free2 with
      | nil =>
        rw [allocPage_nil rfl]
        dsimp only
        rw [if_pos (.inr (.inr rfl))]
        subst h2 h3
        refine habort (by simp [h1]) (fun x hx => ?_) (fun _ => hzero) fun y => ?_
        · simp only [List.mem_cons, List.not_mem_nil, or_false] at hx
          rcases hx with rfl | rfl | rfl
          · exact .inr hroot
          · exact .inr htf
          · exact .inl rfl
        · rw [h1]
          have hne := hroot.1
          have hne' := htf.1
          grind
      | cons st free3 =>
        rw [allocPage_cons rfl]
        dsimp only
        subst h2 h3
        have hst := hp.managed st (by rw [h1]; simp)
        have hlen : 3 ≤ p.vm.free.length := by
          rw [h1]
          exact Nat.le_add_left 3 _
        have hne : ¬ (root = 0 ∨ tf = 0 ∨ st = 0) := by
          rintro (h0 | h0 | h0)
          · exact hroot.1 h0
          · exact htf.1 h0
          · exact hst.1 h0
        have hbound : ∀ x ∈ [tf, st], x < 2 ^ 55 := fun x hx => hp.bound x (by
          rw [h1]
          exact List.mem_cons_of_mem _ (List.mem_append_left free3 hx))
        rw [if_neg hne]
        rcases initMaps_ends (alive_allocated hp hinfos hheap h1) htramp (hbound tf (by simp))
          (hbound st (by simp)) with ⟨q, m, hq, halive, hm⟩ | hloses
        · rw [hq]
          exact .mapped hlen halive hm (by decide : (pteR ||| pteX) &&& pteU = 0)
        · exact .loses hlen hloses

/-! ## Does a failed call lose pages? -/

/-- A process is constructed, or it maps `size` bytes from page `n` on. -/
inductive Request
  | construct (trampoline : Nat)
  | mmap (n size flags pteFlags : Nat)

def Request.call : Request → UserMem → Res Int
  | .construct trampoline, p => p.construct trampoline
  | .mmap n size flags pteFlags, p => p.mmap (n * pgSize) size flags pteFlags

/-- The addresses and sizes are those of 64 bits, and the flags are those of a page. -/
def Request.Valid : Request → Prop
  | .construct trampoline => trampoline < 2 ^ 55
  | .mmap n size _ pteFlags => n * pgSize < 2 ^ 64 ∧ size < 2 ^ 64 ∧ HasFlag pteFlags ∧
      pteFlags < 1024

/-- An allocation fails, and so does the call. -/
def FailsForMemory (r : Res Int) : Prop := r.mem.oom = true ∧ ∀ q, r ≠ .ok 0 q

/-- What the page table maps, if there is one. -/
def UserMem.entryOf (p : UserMem) (va : Nat) : Option Nat :=
  if p.pagetable = 0 then none else lookup p.pagetable va p.vm

/-- The call does not panic, what was mapped before is mapped after it, and when the process is
destroyed its pages are free again, but for those that are in the kernel heap already. -/
def Recovers (F : Set Nat) (p : UserMem) (r : Res Int) : Prop :=
  ∃ a q q', r = .ok a q ∧ (∀ va < maxVa, q.entryOf va = p.entryOf va) ∧ q.destroy = .ok () q' ∧
    ∀ x, x ∈ q'.vm.free ↔ x ∈ F ∧ x ∉ p.heap

/-- The processes and the pages that were free before they were constructed. The calls of `__mmap`
so far were successful, or nothing was lost. -/
inductive Reached : Set Nat → UserMem → Prop
  | construct {trampoline : Nat} {p q : UserMem} : Pool p.vm → p.infos = [] → p.heap = [] →
      trampoline < 2 ^ 55 → p.construct trampoline = .ok 0 q →
      Reached {x | x ∈ p.vm.free} { q with oom := false }
  | mmap {F : Set Nat} {n size flags perm : Nat} {p q : UserMem} {a : Int} : Reached F p →
      (Request.mmap n size flags perm).Valid → p.mmap (n * pgSize) size flags perm = .ok a q →
      a = 0 ∨ Recovers F p (.ok a q) → Reached F { q with oom := false }

/-- The constructor is called for a process without memory, `__mmap` for any other. -/
def Ready (F : Set Nat) : Request → UserMem → Prop
  | .construct _, p =>
    Pool p.vm ∧ p.infos = [] ∧ p.heap = [] ∧ p.pagetable = 0 ∧ F = {x | x ∈ p.vm.free}
  | .mmap .., p => Reached F p

/-- The constructor does not get its three pages. `__mmap` does not get a data page: what is free
is enough for the pages before it and their tables, and nothing is left. -/
def Request.Spares : Request → UserMem → Prop
  | .construct _, p => p.vm.free.length < 3
  | .mmap n _ _ _, p => Complete p ∧ ∃ j, p.vm.free.length = mapCost p.pagetable p.vm n j

theorem Alive.pagetable_ne (h : Alive F pending p m) : p.pagetable ≠ 0 :=
  (h.owns.managed _ (h.owns.owned.mem .table Radix.root_mem_pages)).1

theorem Alive.entryOf_eq (hp : Alive F pending p m) (hq : Alive F pending' q m) {va : Nat}
    (hva : va < maxVa) : q.entryOf va = p.entryOf va := by
  rw [UserMem.entryOf, UserMem.entryOf, if_neg hp.pagetable_ne, if_neg hq.pagetable_ne,
    hp.owns.refines.lookup va hva, hq.owns.refines.lookup va hva]

/-- A call of `__mmap` that fails loses the data page for which there is no table. -/
theorem recovers_short {lost : List Nat} {j : Nat} {a : Int} (hp : Alive F [] p m)
    (hq : Alive F lost q m) (hsame : SameRecords p q) (hshort : Short p n j lost) :
    Recovers F p (.ok a q) ↔ Complete p ∧ lost = [] := by
  have hcomplete : Complete q ↔ Complete p := by
    rw [Complete, Complete, hsame.infos]
    refine and_congr_right fun _ => forall₂_congr fun n hn => ?_
    rw [hp.lookup_ne_none hn, hq.lookup_ne_none hn]
  constructor
  · rintro ⟨b, t, t', heq, -, hdestroy, hall⟩
    cases heq
    obtain ⟨hc, hfree, hheld⟩ := hq.freePagetable (destroy_eq_ok.mp hdestroy)
    refine ⟨hcomplete.mp hc, ?_⟩
    rcases hshort with ⟨hlost, -⟩ | ⟨pa, rfl, hnot, -⟩
    · exact hlost
    · have hpa : pa ∈ [pa] ++ q.heap := List.mem_append_left _ List.mem_cons_self
      exact absurd ((hall pa).mpr ⟨(hfree pa).mpr (.inr hpa), hnot⟩) (hheld pa hpa)
  · rintro ⟨hc, rfl⟩
    obtain ⟨q', hok⟩ := hq.freePagetable_of_complete (hcomplete.mpr hc)
    obtain ⟨-, hfree, hheld⟩ := hq.freePagetable hok
    refine ⟨a, q, q', rfl, fun va hva => hp.entryOf_eq hq hva, destroy_eq_ok.mpr hok, fun x => ?_⟩
    rw [hfree, ← hsame.heap]
    constructor
    · intro hx
      exact ⟨.inl hx, fun hheap => hheld x hheap hx⟩
    · rintro ⟨hx | hx, hnot⟩
      · exact hx
      · exact absurd hx hnot

theorem Reached.alive (h : Reached F p) :
    (∃ m, Alive F [] p m ∧ m trampolinePage ≠ none) ∧ p.oom = false := by
  induction h with
  | @construct trampoline p q hpool hinfos hheap htramp hcall =>
    have hends : ConstructEnds p (p.construct trampoline) :=
      construct_ends hpool hinfos hheap htramp
    rw [hcall] at hends
    cases hends with
    | mapped _ halive hm _ =>
      exact ⟨⟨_, ⟨halive.owns, halive.records, halive.range, halive.free, halive.held⟩,
        hm ▸ Option.some_ne_none _⟩, rfl⟩
    | loses _ hloses => exact absurd rfl (hloses 0 q rfl).1
  | @mmap F n size flags perm p q a _ hvalid hcall hend ih =>
    obtain ⟨⟨m, halive, hm⟩, hoom⟩ := ih
    obtain ⟨hva, hsize, hperm, hlt⟩ := hvalid
    have hends : MmapEnds F p m n _ perm (p.mmap (n * pgSize) size flags perm) :=
      mmap_ends _ _ halive hm hva hsize hperm hlt
    rw [hcall] at hends
    cases hends with
    | mapped _ _ hq hm' _ =>
      exact ⟨⟨_, ⟨hq.owns, hq.records, hq.range, hq.free, hq.held⟩, hm'⟩, rfl⟩
    | short j _ hshort hq hsame _ =>
      have hrec := hend.resolve_left (by decide)
      obtain ⟨-, rfl⟩ := (recovers_short halive hq hsame hshort).mp hrec
      exact ⟨⟨_, ⟨hq.owns, hq.records, hq.range, hq.free, hq.held⟩, hm⟩, rfl⟩

/-- A call that runs out of memory loses nothing if and only if it is the first pages of the
constructor or a data page of `__mmap` that are not there. -/
theorem call_recovers_iff (F : Set Nat) (r : Request) (p : UserMem) (hready : Ready F r p)
    (hvalid : r.Valid) (hoom : p.oom = false) (hfail : FailsForMemory (r.call p)) :
    Recovers F p (r.call p) ↔ r.Spares p := by
  obtain ⟨hout, hno⟩ := hfail
  cases r with
  | construct trampoline =>
    obtain ⟨hpool, hinfos, hheap, hpt, rfl⟩ := hready
    have hends : ConstructEnds p (p.construct trampoline) :=
      construct_ends hpool hinfos hheap hvalid
    simp only [Request.call, Request.Spares] at hno ⊢
    generalize p.construct trampoline = r at hends hno
    -- a process without page table is destroyed at once
    have hdestroy : ∀ q : UserMem, q.infos = [] → q.pagetable = 0 → q.destroy = .ok () q := by
      rintro ⟨vm, pagetable, infos, _⟩ rfl rfl
      rfl
    cases hends with
    | @abort q hlen hq0 hqi hfree =>
      refine iff_of_true ⟨_, q, q, rfl, fun va _ => ?_, hdestroy q hqi hq0, fun x => ?_⟩ hlen
      · rw [UserMem.entryOf, UserMem.entryOf, if_pos hq0, if_pos hpt]
      · rw [hfree, hheap]
        exact (and_iff_left List.not_mem_nil).symm
    | mapped => exact absurd rfl (hno _)
    | loses hlen hloses =>
      refine iff_of_false ?_ hlen.not_gt
      rintro ⟨a, q, q', rfl, -, hq', hall⟩
      obtain ⟨-, hqi, hq0, x, hx, hnot⟩ := hloses a q rfl
      rw [hdestroy q hqi hq0] at hq'
      cases hq'
      exact hnot ((hall x).mpr ⟨hx, hheap ▸ List.not_mem_nil⟩)
  | mmap n size flags perm =>
    obtain ⟨⟨m, halive, hm⟩, -⟩ := Reached.alive hready
    obtain ⟨hva, hsize, hperm, hlt⟩ := hvalid
    have hends : MmapEnds F p m n _ perm (p.mmap (n * pgSize) size flags perm) :=
      mmap_ends _ _ halive hm hva hsize hperm hlt
    simp only [Request.call, Request.Spares] at hno hout ⊢
    generalize p.mmap (n * pgSize) size flags perm = r at hends hno hout
    cases hends with
    | mapped => exact absurd rfl (hno _)
    | panic _ hq =>
      have hout : p.oom = true := hq.symm.trans hout
      rw [hoom] at hout
      cases hout
    | @short q lost j _ hshort hq hsame _ =>
      refine (recovers_short halive hq hsame hshort).trans (and_congr_right fun _ => ?_)
      rcases hshort with ⟨hlost, hlen⟩ | ⟨pa, rfl, -, hlt, hgt⟩
      · exact iff_of_true hlost ⟨j, hlen⟩
      · refine iff_of_false nofun ?_
        -- between the cost of `j` pages and that of `j + 1`
        rintro ⟨i, hi⟩
        rw [hi] at hlt hgt
        have h1 := mapCost_strictMono.lt_iff_lt.mp hlt
        have h2 := mapCost_strictMono.lt_iff_lt.mp hgt
        exact absurd h1 (Nat.le_of_lt_succ h2).not_gt

/-- A process before its construction, with `k` free pages. -/
def memOf (k : Nat) : UserMem :=
  { newMem with vm := { newMem.vm with free := newMem.vm.free.take k } }

theorem memOf_pool (k : Nat) : Pool (memOf k).vm := by
  have hsub := List.take_sublist k newMem.vm.free
  exact ⟨newMem_pool.nodup.sublist hsub, fun x hx => newMem_pool.managed x (hsub.subset hx),
    fun x hx => newMem_pool.bound x (hsub.subset hx)⟩

theorem eq_ok {r : Res Int} {a : Int}
    (h : (match r with | .ok b _ => decide (b = a) | .panic _ _ => false) = true) :
    r = .ok a r.mem := by
  cases r with
  | ok b q => rw [of_decide_eq_true h, Res.mem]
  | panic e q => cases h

/-- The constructor records what it maps. -/
theorem construct_complete {trampoline : Nat} (hp : Pool p.vm) (hinfos : p.infos = [])
    (hheap : p.heap = []) (htramp : trampoline < 2 ^ 55)
    (hoom : (UserMem.construct trampoline p).mem.oom = false) :
    Complete (UserMem.construct trampoline p).mem := by
  rcases construct_spec hp hinfos hheap htramp with ho | ⟨q, hq, hintact, -⟩
  · rw [hoom] at ho
    cases ho
  rw [hq, Res.mem]
  obtain ⟨m, howns, hrec⟩ := hintact.map
  refine ⟨hrec.whole, fun n hn hlookup => (hrec.mapped n).mp fun hnone => hlookup ?_⟩
  have hlt : n * pgSize < maxVa := by
    simp only [maxVa, pgSize] at *
    omega
  rw [howns.refines.lookup _ hlt, Nat.mul_div_cancel n (by decide), hnone]
  rfl

/-- A new process for which three pages are left. -/
def spareMem : UserMem := { (UserMem.construct 8192 (memOf 10)).mem with oom := false }

theorem spareMem_reached : Reached {x | x ∈ (memOf 10).vm.free} spareMem :=
  .construct (memOf_pool 10) rfl rfl (by decide) (eq_ok (by decide +kernel))

/-- The first page that it maps takes two tables. -/
theorem spareMem_spares (flags perm : Nat) :
    (Request.mmap 16 (2 * pgSize) flags perm).Spares spareMem := by
  refine ⟨?_, 1, by decide +kernel⟩
  exact construct_complete (memOf_pool 10) rfl rfl (by decide : 8192 < 2 ^ 55) (by decide +kernel)

/-- With two pages a process is not constructed. With three pages left it does not map two pages. -/
theorem call_recovers_no_page :
    FailsForMemory ((Request.construct 8192).call (memOf 2)) ∧
      Recovers {x | x ∈ (memOf 2).vm.free} (memOf 2) ((Request.construct 8192).call (memOf 2)) ∧
      FailsForMemory ((Request.mmap 16 (2 * pgSize) mapUser (pteR ||| pteU)).call spareMem) ∧
      Recovers {x | x ∈ (memOf 10).vm.free} spareMem
        ((Request.mmap 16 (2 * pgSize) mapUser (pteR ||| pteU)).call spareMem) := by
  have hfails : ∀ {r : Res Int} {a : Int}, r = .ok a r.mem → a ≠ 0 → r.mem.oom = true →
      FailsForMemory r := by
    intro r a hr ha hoom
    refine ⟨hoom, fun q hq => ?_⟩
    rw [hr] at hq
    exact ha (Res.ok.inj hq).1
  have hnew : FailsForMemory ((Request.construct 8192).call (memOf 2)) :=
    hfails (a := -12) (eq_ok (by decide +kernel)) (by decide) (by decide +kernel)
  have hmap : FailsForMemory
      ((Request.mmap 16 (2 * pgSize) mapUser (pteR ||| pteU)).call spareMem) :=
    hfails (a := -1) (eq_ok (by decide +kernel)) (by decide) (by decide +kernel)
  refine ⟨hnew, ?_, hmap, ?_⟩
  · exact (call_recovers_iff _ (.construct 8192) (memOf 2) ⟨memOf_pool 2, rfl, rfl, rfl, rfl⟩
      (by decide : 8192 < 2 ^ 55) rfl hnew).mpr (by decide : (memOf 2).vm.free.length < 3)
  · exact (call_recovers_iff _ (.mmap 16 (2 * pgSize) mapUser (pteR ||| pteU)) spareMem
      spareMem_reached ⟨by decide, by decide, HasRwx.hasFlag (by decide), by decide⟩ rfl hmap).mpr
      (spareMem_spares _ _)

/-- A process for which one page is left. -/
def lastMem : UserMem := { (UserMem.construct 8192 (memOf 8)).mem with oom := false }

theorem lastMem_reached : Reached {x | x ∈ (memOf 8).vm.free} lastMem :=
  .construct (memOf_pool 8) rfl rfl (by decide) (eq_ok (by decide +kernel))

/-- It maps a page that takes two tables that are not there. The data page is not freed. -/
theorem data_page_lost :
    Reached {x | x ∈ (memOf 8).vm.free} lastMem ∧ lastMem.oom = false ∧
      (Request.mmap 16 pgSize mapUser (pteR ||| pteU)).Valid ∧
      FailsForMemory ((Request.mmap 16 pgSize mapUser (pteR ||| pteU)).call lastMem) ∧
      ¬ Recovers {x | x ∈ (memOf 8).vm.free} lastMem
        ((Request.mmap 16 pgSize mapUser (pteR ||| pteU)).call lastMem) := by
  have hcall : (Request.mmap 16 pgSize mapUser (pteR ||| pteU)).call lastMem =
      .ok (-1) ((Request.mmap 16 pgSize mapUser (pteR ||| pteU)).call lastMem).mem :=
    eq_ok (by decide +kernel)
  have hlen : lastMem.vm.free.length = 1 := by decide +kernel
  have hvalid : (Request.mmap 16 pgSize mapUser (pteR ||| pteU)).Valid :=
    ⟨by decide, by decide, HasRwx.hasFlag (by decide), by decide⟩
  refine ⟨lastMem_reached, rfl, hvalid, ⟨by decide +kernel, fun q hq => ?_⟩, fun hrec => ?_⟩
  · rw [hcall] at hq
    cases hq
  obtain ⟨⟨m, halive, hm⟩, -⟩ := lastMem_reached.alive
  obtain ⟨hva, hsize, hperm, hlt⟩ := hvalid
  have hends : MmapEnds _ lastMem m 16
      _ _ ((Request.mmap 16 pgSize mapUser (pteR ||| pteU)).call lastMem) :=
    mmap_ends _ _ halive hm hva hsize hperm hlt
  generalize (Request.mmap 16 pgSize mapUser (pteR ||| pteU)).call lastMem = r at hends hrec hcall
  cases hends with
  | mapped => cases hcall
  | panic => cases hcall
  | @short q lost j _ hshort hq hsame _ =>
    obtain ⟨-, rfl⟩ := (recovers_short halive hq hsame hshort).mp hrec
    have hcost : lastMem.vm.free.length = mapCost lastMem.pagetable lastMem.vm 16 j := by
      rcases hshort with ⟨-, hcost⟩ | ⟨_, hlost, -⟩
      · exact hcost
      · cases hlost
    -- the table of the second level is missing
    have htwo : 2 ≤ mapCost lastMem.pagetable lastMem.vm 16 1 := by
      refine Nat.add_le_add_left (Finset.card_pos.mpr ⟨[px 2 (16 * pgSize)], ?_⟩) 1
      refine Finset.mem_filter.mpr ⟨?_, by decide +kernel⟩
      rw [tablePaths_one]
      exact Finset.mem_insert_self _ _
    rw [hlen] at hcost
    cases j with
    | zero => cases hcost
    | succ j =>
      have hmono : mapCost lastMem.pagetable lastMem.vm 16 1 ≤
          mapCost lastMem.pagetable lastMem.vm 16 (j + 1) :=
        mapCost_strictMono.monotone (Nat.succ_le_succ j.zero_le)
      exact absurd (htwo.trans (hmono.trans hcost.ge)) (by decide)

end CoroCore.User
