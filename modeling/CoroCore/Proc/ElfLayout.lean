import CoroCore.Proc.ElfBytes
import CoroCore.Proc.OutOfPages

/-!
# What a loaded image looks like

The segments of an image are loaded one after the other. Each has new frames, which are filled with
the bytes of the file and zeros, and whatever was mapped before stays as it is: its frames are not
free (`Placed.trans`).

* `mmap_places`: `__mmap` of pages, as seen in the page table;
* `loadSegmentBytes_places`, `loadSegmentsBytes_places`: a segment, and the loop over them;
* `image_laid_out`: a process is constructed and loads an image.
-/

namespace CoroCore.User

open Lib Vmem

variable {F : Set Nat} {root n k perm : Nat} {s s' : Vm} {held : List Nat} {m : PageMap}
  {p q u : UserMem} {room : Nat} {start size : Nat} {ph : ProgramHeader} {img d d' d'' : Bytes}
  {L L' : List ProgramHeader} {r : Int}

/-! ## Entries of the page table -/

/-- The entry of page `n`. -/
def UserMem.pte (p : UserMem) (n : Nat) : Option Nat := lookup p.pagetable (n * pgSize) p.vm

theorem lookup_congr {va : Nat} (h : s.mem = s'.mem) : lookup root va s = lookup root va s' := by
  by_cases hva : va < maxVa
  · rw [lookup_eq hva, lookup_eq hva, entry, entry, h]
  · rw [lookup, lookup, walk, walk, if_pos (not_lt.mp hva), if_pos (not_lt.mp hva)]

theorem pte_out (hn : ¬ n < maxVa / pgSize) : p.pte n = none := by
  have hva : maxVa ≤ n * pgSize := by
    simp only [maxVa, pgSize] at *
    omega
  rw [UserMem.pte, lookup, walk, if_pos hva]

theorem pte_lt {e : Nat} (he : p.pte n = some e) : n < maxVa / pgSize := by
  by_contra hn
  rw [pte_out hn] at he
  cases he

theorem Owns.pte (h : Owns F p.pagetable p.vm held m) (hn : n < maxVa / pgSize) :
    p.pte n = (m n).map fun f => leafPte f.1 f.2 := by
  rw [UserMem.pte, h.refines.lookup _ (page_va hn).1, Nat.mul_div_cancel n (by decide)]

/-- Different pages have different frames, but for the trampoline. -/
theorem Owns.frame_ne {n' e e' : Nat} (h : Owns F p.pagetable p.vm held m) (hn : n ≠ trampolinePage)
    (hn' : n' ≠ trampolinePage) (hne : n ≠ n') (he : p.pte n = some e) (he' : p.pte n' = some e') :
    pte2pa e ≠ pte2pa e' := by
  have howner : ∀ {j e}, j ≠ trampolinePage → p.pte j = some e →
      Holds p.pagetable p.vm held m (.frame j) (pte2pa e) := by
    intro j e hj he
    rw [h.pte (pte_lt he)] at he
    obtain ⟨f, hf, rfl⟩ := Option.map_eq_some_iff.mp he
    exact ⟨hj, f, hf, rfl⟩
  intro heq
  have hx := howner hn he
  rw [heq] at hx
  exact hne (Owner.frame.inj (h.owned.unique _ _ _ hx (howner hn' he')))

theorem Owns.frame_not_free {e : Nat} (h : Owns F p.pagetable p.vm held m) (hn : n ≠ trampolinePage)
    (he : p.pte n = some e) : pte2pa e ∉ p.vm.free := by
  rw [h.pte (pte_lt he)] at he
  obtain ⟨f, hf, rfl⟩ := Option.map_eq_some_iff.mp he
  have hx : Holds p.pagetable p.vm held m (.frame n) (frame f) := ⟨hn, f, hf, rfl⟩
  exact h.owned.not_owner _ .free hx (fun h => by cases h)

/-! ## Translation -/

/-- An address of the user is in a page that is not the trampoline. -/
theorem Owns.physAddr_eq {a : Nat} (h : Owns F p.pagetable p.vm held m) (hrec : Recorded p.infos m)
    (ha : UserAddr p.pagetable p.vm a) : ∃ f, physAddr p.pagetable p.vm a = frame f + a % pgSize ∧
      Holds p.pagetable p.vm held m (.frame (a / pgSize)) (frame f) := by
  have hdiv : pgRoundDown a / pgSize = a / pgSize := Nat.mul_div_cancel _ (by decide)
  have hva : pgRoundDown a < maxVa := by
    by_contra hva
    exact ha (by rw [walkaddr, if_pos (Nat.le_of_not_lt hva)])
  obtain ⟨f, hf, hu, -⟩ := (walkaddr_ne_zero h.refines hva).mp ha
  refine ⟨f, ?_, ?_, f, hdiv ▸ hf, rfl⟩
  · rw [physAddr, walkaddr_eq_frame h.refines hva hf hu]
  · intro heq
    rw [hdiv] at hf
    obtain ⟨b, hb, hbn⟩ := (hrec.mapped (a / pgSize)).mp (Option.ne_none_iff_exists'.mpr ⟨f, hf⟩)
    rw [hrec.flags b hb _ f hbn hf] at hu
    exact hu (hrec.kernel b hb (heq ▸ hbn))

theorem Intact.translates {pending : List Nat} (h : Intact F room pending p) :
    Translates p.pagetable p.vm := by
  obtain ⟨m, howns, hrec⟩ := h.map
  intro a b ha hb heq
  obtain ⟨f, hf, hfx⟩ := howns.physAddr_eq hrec ha
  obtain ⟨g, hg, hgx⟩ := howns.physAddr_eq hrec hb
  rw [hf, hg] at heq
  have hmod : ∀ x, frame x % pgSize = 0 := fun x => pte2pa_aligned _
  have hframe : frame f = frame g := by
    have h1 := hmod f
    have h2 := hmod g
    simp only [pgSize] at *
    omega
  rw [hframe] at hfx
  have hpage : a / pgSize = b / pgSize := Owner.frame.inj (howns.owned.unique _ _ _ hfx hgx)
  have hoff : a % pgSize = b % pgSize := by omega
  rw [← Nat.div_add_mod a pgSize, ← Nat.div_add_mod b pgSize, hpage, hoff]

/-- The translation of an address in a page of the user. -/
theorem physAddr_of_pte {e off : Nat} (he : p.pte n = some e)
    (hu : e &&& pteU ≠ 0) (hoff : off < pgSize) :
    physAddr p.pagetable p.vm (n * pgSize + off) = pte2pa e + off := by
  have hn := pte_lt he
  have hdown : pgRoundDown (n * pgSize + off) = n * pgSize := by
    simp only [pgRoundDown, pgSize] at *
    omega
  have hmod : (n * pgSize + off) % pgSize = off := by
    simp only [pgSize] at *
    omega
  rw [physAddr, hdown, hmod, walkaddr_lookup (page_va hn).1]
  change ((p.pte n).map _).getD 0 + off = _
  rw [he, Option.map_some, Option.getD_some, if_neg hu]

/-! ## `__mmap` -/

/-- The pages in `S` are new: they were not mapped, and their frames were free. -/
structure NewPages (p q : UserMem) (S : Nat → Prop) (perm : Nat) : Prop where
  new : ∀ j, S j → p.pte j = none ∧
    ∃ pa ∈ p.vm.free, pa ∉ q.vm.free ∧ pa % pgSize = 0 ∧ pa < 2 ^ 55 ∧
    q.pte j = some (leafPte pa perm)
  old : ∀ j, ¬ S j → q.pte j = p.pte j
  free : ∀ x ∈ q.vm.free, x ∈ p.vm.free

theorem pushBack_pte (info : MmapInfo) : (p.pushBack info).pte n = p.pte n := by
  obtain ⟨hmem, -, hroot, -⟩ := pushBack_keeps (p := p) info
  rw [UserMem.pte, UserMem.pte, hroot]
  exact lookup_congr hmem

theorem mmap_places {va len : Nat} (h : Intact F room [] p) (hva : va = n * pgSize)
    (hlen : len = k * pgSize) (hk : 1 ≤ k) (hend : n + k ≤ trampolinePage) (hperm : HasFlag perm)
    (hlt : perm < 1024) (hcall : UserMem.mmap va len mapUser perm p = .ok r q)
    (hoom : q.oom = false) :
    Intact F room [] q ∧ NewPages p q (fun j => n ≤ j ∧ j < n + k) perm ∧ q.maxVa = p.maxVa := by
  subst hva hlen
  have hspec := mmap_spec h rfl rfl hk hend hperm hlt
  rw [hcall] at hspec
  have hintact : Intact F room [] q := by
    cases hspec with
    | oom ho => exact absurd ho (Bool.eq_false_iff.mp hoom)
    | mapped _ hq _ => exact hq
  refine ⟨hintact, ?_⟩
  obtain ⟨m, howns, -⟩ := h.map
  rw [UserMem.mmap, mmap_count hend] at hcall
  rcases mmapLoop_spec hperm hlt k n p m howns h.free hend with
    ho | ⟨⟨e, u, hu⟩, -⟩ | ⟨u, m', hu, hnone, hmaps, howns', -, -, htakes⟩
  · have hoom' := oom_bind (f := UserMem.mmapEnd (n * pgSize) (k * pgSize) mapUser perm) ho
      fun r q => (mmapEnd_adds (N := fun _ => True) _ _ _ _ r).oom
    rw [hcall] at hoom'
    exact absurd hoom' (Bool.eq_false_iff.mp hoom)
  · rw [hu] at hcall
    cases hcall
  · rw [hu] at hcall
    obtain ⟨-, rfl⟩ := Res.ok.inj hcall
    obtain ⟨-, hfree, -, hmax⟩ := pushBack_keeps (p := u)
      ⟨n * pgSize, k * pgSize, mapUser &&& (2 ^ 64 - 1 - mapShared), perm⟩
    refine ⟨⟨fun j hj => ?_, fun j hj => ?_, fun x hx => htakes.free x (hfree x hx)⟩,
      hmax.trans htakes.maxVa⟩
    · have hpage : j < maxVa / pgSize := (hj.2.trans_le hend).trans (by decide)
      have hne : j ≠ trampolinePage := by omega
      obtain ⟨pa, hpa⟩ := hmaps.new j hj.1 hj.2
      have hmem : pa ∈ p.vm.free := htakes.frames j _ hj.1 hj.2 hpa
      have hF : pa ∈ F := howns.owned.mem .free hmem
      have hframe : frame (pa, perm) = pa :=
        frame_eq (howns.managed pa hF).2.1 (howns.bound pa hF) hlt
      rw [howns.pte hpage, hnone j hj.1 hj.2, pushBack_pte, howns'.pte hpage, hpa]
      refine ⟨rfl, pa, hmem, fun hx => ?_, (howns.managed pa hF).2.1, howns.bound pa hF, rfl⟩
      have howner : Holds u.pagetable u.vm u.heap m' (.frame j) pa := ⟨hne, _, hpa, hframe⟩
      exact howns'.owned.not_owner _ .free howner (fun h => by cases h) (hfree pa hx)
    · rw [pushBack_pte]
      by_cases hpage : j < maxVa / pgSize
      · rw [howns'.pte hpage, howns.pte hpage, hmaps.old j hj]
      · rw [pte_out hpage, pte_out hpage]

/-! ## Segments -/

/-- The segments `L` are placed: their pages are new, and the frames have the bytes of the segment.
The memory of pages that were not free is as it was. -/
structure Placed (img : Bytes) (start : Nat) (L : List ProgramHeader) (p q : UserMem)
    (d d' : Bytes) : Prop where
  new : ∀ ph ∈ L, ∀ n, ph.Has n → p.pte n = none ∧ ∃ pa ∈ p.vm.free, pa ∉ q.vm.free ∧
    pa % pgSize = 0 ∧ pa < 2 ^ 55 ∧ q.pte n = some (leafPte pa ph.pteFlags) ∧
      ∀ off < pgSize, d' (pa + off) = ph.byte img start (n * pgSize + off)
  old : ∀ n, (∀ ph ∈ L, ¬ ph.Has n) → q.pte n = p.pte n
  free : ∀ x ∈ q.vm.free, x ∈ p.vm.free
  other : ∀ x, pgRoundDown x ∉ p.vm.free → d' x = d x
  maxVa : IsGreatest (insert p.maxVa {a | ∃ ph ∈ L, ph.last = a}) q.maxVa

theorem pgRoundDown_offset {pa off : Nat} (hpa : pa % pgSize = 0) (hoff : off < pgSize) :
    pgRoundDown (pa + off) = pa := by
  simp only [pgRoundDown, pgSize] at *
  omega

/-- A page below a page boundary is below it as a whole. -/
theorem offset_lt {a off : Nat} (ha : a % pgSize = 0) (hn : n * pgSize < a) (hoff : off < pgSize) :
    n * pgSize + off < a := by
  obtain ⟨b, rfl⟩ := Nat.dvd_of_mod_eq_zero ha
  rw [Nat.mul_comm pgSize] at hn ⊢
  calc n * pgSize + off < n * pgSize + pgSize := Nat.add_lt_add_left hoff _
    _ = (n + 1) * pgSize := (Nat.succ_mul n pgSize).symm
    _ ≤ b * pgSize := Nat.mul_le_mul_right _ (Nat.lt_of_mul_lt_mul_right hn)

theorem Placed.nil : Placed img start [] p p d d :=
  ⟨nofun, fun _ _ => rfl, fun _ => id, fun _ _ => rfl, Set.mem_insert _ _, by
    rintro a (rfl | ⟨_, h, _⟩)
    · exact le_rfl
    · cases h⟩

/-- Segments that follow have other pages, and their frames are not those before. -/
theorem Placed.trans (h : Placed img start L p q d d') (h' : Placed img start L' q u d' d'') :
    Placed img start (L ++ L') p u d d'' := by
  have hfresh : ∀ ph' ∈ L', ∀ n, ph'.Has n → ∀ ph ∈ L, ¬ ph.Has n := by
    intro ph' hph' n hn ph hph hn'
    obtain ⟨-, pa, -, -, -, -, he, -⟩ := h.new ph hph n hn'
    rw [(h'.new ph' hph' n hn).1] at he
    cases he
  refine ⟨fun ph hph n hn => ?_, fun n hn => ?_, fun x hx => h.free x (h'.free x hx),
    fun x hx => ?_, ?_, ?_⟩
  · rcases List.mem_append.mp hph with hph | hph
    · obtain ⟨hnone, pa, hpa, hpa', haligned, hbound, he, hbytes⟩ := h.new ph hph n hn
      refine ⟨hnone, pa, hpa, fun hx => hpa' (h'.free pa hx), haligned, hbound, ?_,
        fun off hoff => ?_⟩
      · rw [h'.old n fun ph' hph' hn' => hfresh ph' hph' n hn' ph hph hn]
        exact he
      · rw [h'.other _ (by rwa [pgRoundDown_offset haligned hoff])]
        exact hbytes off hoff
    · obtain ⟨hnone, pa, hpa, hrest⟩ := h'.new ph hph n hn
      rw [h.old n (hfresh ph hph n hn)] at hnone
      exact ⟨hnone, pa, h.free pa hpa, hrest⟩
  · rw [h'.old n fun ph hph => hn ph (List.mem_append_right _ hph),
      h.old n fun ph hph => hn ph (List.mem_append_left _ hph)]
  · rw [h'.other x fun hfree => hx (h.free _ hfree), h.other x hx]
  · rcases h'.maxVa.1 with heq | ⟨ph, hph, heq⟩
    · rw [heq]
      rcases h.maxVa.1 with heq | ⟨ph, hph, heq⟩
      · exact .inl heq
      · exact .inr ⟨ph, List.mem_append_left _ hph, heq⟩
    · exact .inr ⟨ph, List.mem_append_right _ hph, heq⟩
  · have hmid : q.maxVa ≤ u.maxVa := h'.maxVa.2 (Set.mem_insert _ _)
    rintro a (rfl | ⟨ph, hph, rfl⟩)
    · exact (h.maxVa.2 (Set.mem_insert _ _)).trans hmid
    · rcases List.mem_append.mp hph with hph | hph
      · exact (h.maxVa.2 (.inr ⟨ph, hph, rfl⟩)).trans hmid
      · exact h'.maxVa.2 (.inr ⟨ph, hph, rfl⟩)

/-- What is written to the pages of a segment stays in their frames. -/
theorem NewPages.placed (h : NewPages p q ph.Has ph.pteFlags)
    (hw : Written (physAddr q.pagetable q.vm) (Set.Ico ph.first ph.last) (ph.byte img start) d d')
    (hmax : IsGreatest (insert p.maxVa {a | ∃ ph' ∈ [ph], ph'.last = a}) q.maxVa) :
    Placed img start [ph] p q d d' := by
  have hphys : ∀ {n pa off}, pa % pgSize = 0 → pa < 2 ^ 55 →
      q.pte n = some (leafPte pa ph.pteFlags) → off < pgSize →
      physAddr q.pagetable q.vm (n * pgSize + off) = pa + off := by
    intro n pa off haligned hbound he hoff
    have hu : leafPte pa ph.pteFlags &&& pteU ≠ 0 := by
      rw [leafPte_and_user]
      exact ph.user_pteFlags
    have hframe := frame_eq haligned hbound ph.pteFlags_lt
    rw [frame] at hframe
    rw [physAddr_of_pte he hu hoff, hframe]
  refine ⟨fun ph' hph' n hn => ?_, fun n hn => h.old n (hn ph List.mem_cons_self), h.free,
    fun x hx => ?_, hmax⟩
  · obtain rfl := List.mem_singleton.mp hph'
    obtain ⟨hnone, pa, hpa, hpa', haligned, hbound, he⟩ := h.new n hn
    refine ⟨hnone, pa, hpa, hpa', haligned, hbound, he, fun off hoff => ?_⟩
    rw [← hphys haligned hbound he hoff]
    exact hw.stored _ ⟨hn.1.trans (Nat.le_add_right _ _), offset_lt ph'.last_mod hn.2 hoff⟩
  · refine hw.other x ?_
    rintro a ha rfl
    have hn : ph.Has (a / pgSize) := by
      have hfirst := ph.first_mod
      have h1 := ha.1
      have h2 := ha.2
      simp only [ProgramHeader.Has, pgSize] at *
      omega
    obtain ⟨-, pa, hpa, -, haligned, hbound, he⟩ := h.new _ hn
    have hoff : a % pgSize < pgSize := Nat.mod_lt _ (by decide)
    have heq := hphys haligned hbound he hoff
    rw [Nat.mul_comm, Nat.div_add_mod] at heq
    rw [heq, pgRoundDown_offset haligned hoff] at hx
    exact hx hpa

theorem isGreatest_max {a : Nat} :
    IsGreatest (insert a {b | ∃ ph' ∈ [ph], ph'.last = b}) (max a ph.last) := by
  constructor
  · rcases max_choice a ph.last with h | h
    · exact .inl h
    · exact .inr ⟨ph, List.mem_cons_self, h.symm⟩
  · rintro b (rfl | ⟨ph', hph', rfl⟩)
    · exact le_max_left _ _
    · rw [List.mem_singleton.mp hph']
      exact le_max_right _ _

/-- A segment is loaded. -/
theorem loadSegmentBytes_places (h : Intact F room [] p) (hph : ph.Proper)
    (hcall : loadSegmentBytes img start size ph d p = .ok (r, d') q) (hr : ¬ r < 0)
    (hoom : q.oom = false) : Intact F room [] q ∧ Placed img start [ph] p q d d' := by
  have hload : loadSegment start size ph p = .ok r q := by
    rw [← loadSegmentBytes_fst img d, hcall]
    rfl
  have ha := loadSegment_accepted hload hr
  have hv : ph.pVaddr < 2 ^ 64 := (Nat.le_add_right _ _).trans_lt hph.memory
  rw [loadSegmentBytes, if_neg ha.1.not_gt, if_neg ha.2.1.not_ge, if_neg ha.2.2.not_gt] at hcall
  obtain ⟨r1, t, hmap, hcall⟩ := Res.bind_ok hcall
  have hneg : ¬ r1 < 0 := fun hneg => by
    rw [if_pos hneg] at hcall
    obtain ⟨rfl, -⟩ := Prod.mk.inj (Res.ok.inj hcall).1
    exact hr (by decide)
  rw [if_neg hneg] at hcall
  have hext : Extends t q := by
    have hfill : fillSegment start ph t = .ok r q := by
      rw [← fillSegmentBytes_fst img d, hcall]
      rfl
    have hext : Extends t (fillSegment start ph t).mem := fillSegment_extends
    rwa [hfill] at hext
  have ht : t.oom = false := Bool.eq_false_iff.mpr fun ho => Bool.eq_false_iff.mp hoom (hext.oom ho)
  obtain ⟨hfirst, hsize, hk, hend⟩ := ph.pages_eq hv ha hph.pages
  obtain ⟨hintact, hnew, hmax⟩ := mmap_places (p := { p with
    minVa := min p.minVa ph.first, maxVa := max p.maxVa ph.last })
    (h.sameRecords rfl ⟨rfl, rfl, rfl, rfl⟩) hfirst hsize hk hend ph.hasFlag_pteFlags ph.pteFlags_lt
    hmap ht
  obtain ⟨hq, -, hw⟩ := fillSegmentBytes_ok hintact.translates hph hcall hr
  obtain ⟨rs, rfl⟩ : ∃ rs, q = { t with reads := rs } := ⟨_, hq⟩
  have hhas : (fun j => ph.first / pgSize ≤ j ∧
      j < ph.first / pgSize + (ph.last / pgSize - ph.first / pgSize)) = ph.Has := by
    have h1 := ph.first_mod
    have h2 := ph.last_mod
    funext j
    simp only [ProgramHeader.Has, pgSize, eq_iff_iff] at *
    omega
  rw [hhas] at hnew
  refine ⟨hintact.sameRecords rfl ⟨rfl, rfl, rfl, rfl⟩, NewPages.placed ?_ hw ?_⟩
  · exact ⟨hnew.new, hnew.old, hnew.free⟩
  · change IsGreatest _ t.maxVa
    rw [hmax]
    exact isGreatest_max

theorem Placed.of_read {a len : Nat} (h : Placed img start L (p.read a len) q d d') :
    Placed img start L p q d d' :=
  ⟨h.new, h.old, h.free, h.other, h.maxVa⟩

theorem Intact.read (h : Intact F room [] p) (a len : Nat) : Intact F room [] (p.read a len) :=
  h.sameRecords rfl ⟨rfl, rfl, rfl, rfl⟩

theorem Placed.setEpc {epc : Nat} (h : Placed img start L p q d d') :
    Placed img start L p { q with epc := epc } d d' :=
  ⟨h.new, h.old, h.free, h.other, h.maxVa⟩

theorem Intact.setEpc {epc : Nat} (h : Intact F room [] p) :
    Intact F room [] { p with epc := epc } :=
  h.sameRecords rfl ⟨rfl, rfl, rfl, rfl⟩

/-- The loop over the program headers, by induction on those that are left. -/
theorem loadSegmentsBytes_places {phoff : Nat} : ∀ (n i : Nat) (d : Bytes) (p : UserMem),
    Intact F room [] p → (∀ j < i + n, (programHeader img start phoff j).pType = 1 →
      (programHeader img start phoff j).Proper) →
    loadSegmentsBytes img start size phoff n i d p = .ok (r, d') q → ¬ r < 0 → q.oom = false →
    Intact F room [] q ∧ ∃ L, segments img start phoff (i + n) = segments img start phoff i ++ L ∧
      Placed img start L p q d d'
  | 0, i, d, p, h, _, hcall, _, _ => by
    obtain ⟨hres, rfl⟩ := Res.ok.inj hcall
    obtain ⟨-, rfl⟩ := Prod.mk.inj hres
    exact ⟨h, [], (List.append_nil _).symm, .nil⟩
  | n + 1, i, d, p, h, hproper, hcall, hr, hoom => by
    have hnext : i + (n + 1) = i + 1 + n := (Nat.succ_add_eq_add_succ i n).symm
    have hsucc : segments img start phoff (i + 1) = _ := segments_succ
    rw [hnext] at hproper ⊢
    rw [loadSegmentsBytes] at hcall
    split at hcall
    · rename_i htype
      obtain ⟨⟨r1, d1⟩, t, hseg, hcall⟩ := Res.bind_ok hcall
      dsimp only at hcall
      have hneg : ¬ r1 < 0 := fun hneg => by
        rw [if_pos hneg] at hcall
        obtain ⟨rfl, -⟩ := Prod.mk.inj (Res.ok.inj hcall).1
        exact hr (by decide)
      rw [if_neg hneg] at hcall
      have hext : Extends t q := by
        have hloop : loadSegments img start size phoff n (i + 1) t = .ok r q := by
          rw [← loadSegmentsBytes_fst img n (i + 1) d1, hcall]
          rfl
        have hext : Extends t (loadSegments img start size phoff n (i + 1) t).mem :=
          loadSegments_extends n (i + 1) t
        rwa [hloop] at hext
      have ht : t.oom = false :=
        Bool.eq_false_iff.mpr fun ho => Bool.eq_false_iff.mp hoom (hext.oom ho)
      obtain ⟨hintact, hplaced⟩ := loadSegmentBytes_places ((h.read _ _).read _ _)
        (hproper i (by omega) htype) hseg hneg ht
      obtain ⟨hq, L, hL, hrest⟩ :=
        loadSegmentsBytes_places n (i + 1) d1 t hintact hproper hcall hr hoom
      refine ⟨hq, [programHeader img start phoff i] ++ L, ?_, hplaced.of_read.of_read.trans hrest⟩
      rw [hL, hsucc, if_pos htype, List.append_assoc]
    · rename_i htype
      obtain ⟨hq, L, hL, hrest⟩ :=
        loadSegmentsBytes_places n (i + 1) d _ (h.read _ _) hproper hcall hr hoom
      refine ⟨hq, L, ?_, hrest.of_read⟩
      rw [hL, hsucc, if_neg htype, List.append_nil]

/-- The `PT_LOAD` segments of an image. -/
def imageSegments (img : Bytes) (start : Nat) : List ProgramHeader :=
  segments img start (ePhoff (view img start)) (ePhnum (view img start))

theorem loadElfBytes_places (h : Intact F room [] p)
    (hproper : ∀ ph ∈ imageSegments img start, ph.Proper)
    (hcall : loadElfBytes img start size d p = .ok (0, d') q) (hoom : q.oom = false) :
    Intact F room [] q ∧ Placed img start (imageSegments img start) p q d d' ∧
      q.epc = eEntry (view img start) := by
  rw [loadElfBytes] at hcall
  dsimp only at hcall
  split at hcall
  · cases hcall
  split at hcall
  · cases hcall
  split at hcall
  · cases hcall
  obtain ⟨⟨r1, d1⟩, t, hloop, hcall⟩ := Res.bind_ok hcall
  dsimp only at hcall
  split at hcall
  · cases hcall
  rename_i hneg
  obtain ⟨hres, rfl⟩ := Res.ok.inj hcall
  obtain ⟨-, rfl⟩ := Prod.mk.inj hres
  obtain ⟨ht, L, hL, hplaced⟩ := loadSegmentsBytes_places _ 0 d _ (h.read start headerSize)
    (fun j hj htype => hproper _ (List.mem_filter.mpr
      ⟨List.mem_map_of_mem (List.mem_range.mpr (by rwa [Nat.zero_add] at hj)),
      decide_eq_true htype⟩))
    hloop hneg hoom
  rw [Nat.zero_add] at hL
  have hsegs : imageSegments img start = L := hL
  rw [hsegs]
  exact ⟨ht.setEpc, hplaced.of_read.setEpc, rfl⟩

/-! ## A new process -/

theorem mmapAt_maxVa {va pa len flags : Nat}
    (h : UserMem.mmapAt va pa len flags perm p = .ok r q) : q.maxVa = p.maxVa := by
  obtain ⟨a, t, hrun, h⟩ := Res.bind_ok h
  have ht : t.maxVa = p.maxVa := by
    unfold UserMem.run at hrun
    split at hrun
    · obtain ⟨-, rfl⟩ := Res.ok.inj hrun
      rfl
    · cases hrun
  split at h
  · obtain ⟨-, rfl⟩ := Res.ok.inj h
    exact ht
  · obtain ⟨-, rfl⟩ := Res.ok.inj h
    exact (pushBack_keeps _).2.2.2.trans ht

theorem initFailed_ne : p.initFailed ≠ .ok 0 q := by
  intro h
  obtain ⟨_, _, -, h⟩ := Res.bind_ok h
  exact absurd (Res.ok.inj h).1 (by decide)

theorem initMaps_maxVa {trampoline tf st : Nat}
    (h : UserMem.initMaps trampoline tf st p = .ok 0 q) : q.maxVa = p.maxVa := by
  obtain ⟨r1, p1, h1, h⟩ := Res.bind_ok h
  split at h
  · exact absurd h initFailed_ne
  obtain ⟨r2, p2, h2, h⟩ := Res.bind_ok h
  split at h
  · exact absurd h initFailed_ne
  obtain ⟨r3, p3, h3, h⟩ := Res.bind_ok h
  split at h
  · exact absurd h initFailed_ne
  obtain ⟨-, rfl⟩ := Res.ok.inj h
  rw [mmapAt_maxVa h3, mmapAt_maxVa h2, mmapAt_maxVa h1]

/-- A constructor that succeeds has taken three pages. -/
theorem construct_ok {trampoline : Nat} (h : UserMem.construct trampoline p = .ok 0 q) :
    ∃ root tf st free, p.vm.free = root :: tf :: st :: free ∧
      UserMem.initMaps trampoline tf st { p with
        vm := { p.vm with mem := Radix.fill p.vm.mem root 0, free := free }, pagetable := root } =
        .ok 0 q := by
  rw [UserMem.construct] at h
  dsimp only at h
  split at h
  · obtain ⟨_, _, -, h⟩ := Res.bind_ok h
    exact absurd (Res.ok.inj h).1 (by decide)
  rename_i hne
  cases h1 : p.vm.free with
  | nil =>
    rw [UserMem.createPagetable, Vm.allocTable, h1] at hne
    exact absurd (.inl rfl) hne
  | cons root free =>
    rw [UserMem.createPagetable, Vm.allocTable, h1] at h hne
    dsimp only [Option.getD_some] at h hne
    cases free with
    | nil =>
      rw [allocPage_nil rfl] at hne
      exact absurd (.inr (.inl rfl)) hne
    | cons tf free =>
      rw [allocPage_cons rfl] at h hne
      dsimp only at h hne
      cases free with
      | nil =>
        rw [allocPage_nil rfl] at hne
        exact absurd (.inr (.inr rfl)) hne
      | cons st free =>
        rw [allocPage_cons rfl] at h
        exact ⟨root, tf, st, free, rfl, h⟩

/-- The trampoline is mapped in a new process. -/
theorem construct_trampoline {trampoline : Nat} (hp : Pool p.vm) (hinfos : p.infos = [])
    (hheap : p.heap = []) (htramp : trampoline < 2 ^ 55)
    (h : UserMem.construct trampoline p = .ok 0 q) : q.maxVa = p.maxVa ∧
      q.pte trampolinePage = some (leafPte trampoline (pteR ||| pteX)) := by
  obtain ⟨root, tf, st, free, hfree, hinit⟩ := construct_ok h
  have hbound : ∀ x ∈ [root, tf, st], x < 2 ^ 55 := fun x hx => hp.bound x (by
    rw [hfree]
    exact List.mem_append_left free hx)
  have hkeep := initMaps_maxVa hinit
  refine ⟨hkeep, ?_⟩
  rcases initMaps_ends (alive_allocated hp hinfos hheap hfree) htramp (hbound tf (by simp))
    (hbound st (by simp)) with ⟨t, m, ht, halive, hm⟩ | hloses
  · rw [hinit] at ht
    obtain ⟨-, rfl⟩ := Res.ok.inj ht
    rw [halive.owns.pte (by decide), hm]
    rfl
  · exact absurd rfl (hloses 0 q hinit).1

/-- The image is laid out as its program headers say. The process was `p`, with the bytes `d`; its
`epc`, which is in the trapframe, is not among these. -/
structure LaidOut (img : Bytes) (start : Nat) (p q : UserMem) (d d' : Bytes) : Prop where
  base : ∀ info ∈ baseInfos, ∀ n, info.Has n → p.pte n ≠ none
  kept : ∀ n e, p.pte n = some e →
    q.pte n = some e ∧ ∀ off < pgSize, d' (pte2pa e + off) = d (pte2pa e + off)
  mapped : ∀ ph ∈ imageSegments img start, ∀ n, ph.Has n → p.pte n = none ∧
    ∃ pa ∈ p.vm.free, pa ∉ q.vm.free ∧ q.pte n = some (leafPte pa ph.pteFlags) ∧
      pte2pa (leafPte pa ph.pteFlags) = pa ∧
      (∀ n' e, n' ≠ n → q.pte n' = some e → pte2pa e ≠ pa) ∧
      ∀ off < pgSize, d' (pa + off) = ph.byte img start (n * pgSize + off)
  maxVa : IsGreatest (insert 0 {a | ∃ ph ∈ imageSegments img start, ph.last = a}) q.maxVa
  epc : q.epc = eEntry (view img start)

/-- A process that is constructed and loads an image without running out of memory has it laid out
as the program headers say, if they are proper. -/
theorem image_laid_out (img : Bytes) (start size trampoline : Nat) (p0 p q : UserMem) (d d' : Bytes)
    (hp : Pool p0.vm) (hinfos : p0.infos = []) (hheap : p0.heap = []) (hmax : p0.maxVa = 0)
    (haligned : trampoline % pgSize = 0) (htramp : trampoline < 2 ^ 55)
    (hkernel : trampoline ∉ p0.vm.free) (hnew : UserMem.construct trampoline p0 = .ok 0 p)
    (hproper : ∀ ph ∈ imageSegments img start, ph.Proper)
    (hload : loadElfBytes img start size d p = .ok (0, d') q) (hmem : q.oom = false) :
    LaidOut img start p q d d' := by
  have hoom : p.oom = false := by
    refine Bool.eq_false_iff.mpr fun ho => Bool.eq_false_iff.mp hmem ?_
    have hcall : loadElf img start size p = .ok 0 q := by
      rw [← loadElfBytes_fst (d := d), hload]
      rfl
    have hfinal : (loadElf img start size p).mem.oom = true := loadElf_oom ho
    rwa [hcall] at hfinal
  obtain ⟨hzero, hpte⟩ := construct_trampoline hp hinfos hheap htramp hnew
  obtain ⟨hintact, hbase⟩ : Intact {x | x ∈ p0.vm.free} p0.room [] p ∧ p.infos = baseInfos := by
    rcases construct_spec hp hinfos hheap htramp with ho | ⟨t, ht, hrest⟩
    · rw [hnew] at ho
      exact absurd ho (Bool.eq_false_iff.mp hoom)
    · rw [hnew] at ht
      obtain ⟨-, rfl⟩ := Res.ok.inj ht
      exact hrest
  obtain ⟨hq, hplaced, hepc⟩ := loadElfBytes_places hintact hproper hload hmem
  obtain ⟨m, howns, hrec⟩ := hintact.map
  obtain ⟨m', howns', -⟩ := hq.map
  have hframe : pte2pa (leafPte trampoline (pteR ||| pteX)) = trampoline :=
    frame_eq haligned htramp (by decide)
  -- frames of pages mapped before are not free
  have hused : ∀ n e, p.pte n = some e → pte2pa e ∉ p.vm.free := by
    intro n e he hfree
    by_cases hn : n = trampolinePage
    · rw [hn, hpte] at he
      rw [← Option.some.inj he, hframe] at hfree
      exact hkernel (howns.owned.mem .free hfree)
    · exact howns.frame_not_free hn he hfree
  have hkept : ∀ n e, p.pte n = some e → q.pte n = some e := by
    intro n e he
    rw [hplaced.old n fun ph hph hn => ?_, he]
    rw [(hplaced.new ph hph n hn).1] at he
    cases he
  refine ⟨fun info hinfo n hn => ?_, fun n e he => ⟨hkept n e he, fun off hoff => ?_⟩,
    fun ph hph n hn => ?_, hzero.trans hmax ▸ hplaced.maxVa, hepc⟩
  · have hm : m n ≠ none := (hrec.mapped n).mpr ⟨info, hbase ▸ hinfo, hn⟩
    have hlt : n < maxVa / pgSize := by
      have hrange := (hrec.whole info (hbase ▸ hinfo)).range
      have hend := hn.2
      simp only [pgSize, maxVa] at *
      omega
    rw [howns.pte hlt]
    exact fun h => hm (Option.map_eq_none_iff.mp h)
  · refine hplaced.other _ ?_
    rw [pgRoundDown_offset (pte2pa_aligned e) hoff]
    exact hused n e he
  · obtain ⟨hnone, pa, hpa, hpa', hmod, hbound, he, hbytes⟩ := hplaced.new ph hph n hn
    have hpa0 := frame_eq hmod hbound ph.pteFlags_lt
    refine ⟨hnone, pa, hpa, hpa', he, hpa0, fun n' e hne he' => ?_, hbytes⟩
    have hn : n ≠ trampolinePage := fun heq => by
      rw [heq, hpte] at hnone
      cases hnone
    by_cases hn' : n' = trampolinePage
    · rw [hn', hkept _ _ hpte] at he'
      rw [← Option.some.inj he', hframe]
      rintro rfl
      exact hkernel (howns.owned.mem .free hpa)
    · have hdiff := howns'.frame_ne hn' hn hne he' he
      rw [frame] at hpa0
      rwa [hpa0] at hdiff

/-- What is returned, if there is no panic. -/
def Res.answer {α : Type} : Res α → Option α
  | .ok a _ => some a
  | .panic _ _ => none

theorem Res.eq_ok {α : Type} {r : Res α} {a : α} (h : r.answer = some a) : r = .ok a r.mem := by
  cases r with
  | ok b p => rw [Option.some.inj h, Res.mem]
  | panic e p => cases h

/-- The image with 8 bytes of text at 65536, in a frame that was full of 7s. -/
theorem image_laid_out_sample : ∃ p q d', UserMem.construct 8192 newMem = .ok 0 p ∧
    loadElfBytes sampleImage 4096 128 (fun _ => 7) p = .ok (0, d') q ∧ q.maps = [16] ∧
    LaidOut sampleImage 4096 p q (fun _ => 7) d' := by
  have hnew : UserMem.construct 8192 newMem = .ok 0 (UserMem.construct 8192 newMem).mem :=
    Res.eq_ok (by decide +kernel)
  have hval :
      (loadElf sampleImage 4096 128 (UserMem.construct 8192 newMem).mem).answer = some 0 := by
    decide +kernel
  have hfst := Res.eq_ok hval
  rw [← loadElfBytes_fst (d := fun _ => 7)] at hfst
  obtain ⟨⟨r, d'⟩, q, hload, hq⟩ := Res.bind_ok hfst
  obtain ⟨rfl, hmem⟩ := Res.ok.inj hq
  rw [loadElfBytes_fst] at hmem
  have hproper : ∀ ph ∈ imageSegments sampleImage 4096, ph.Proper := by
    intro ph hph
    obtain ⟨k, hk, rfl⟩ := List.mem_map.mp (List.mem_filter.mp hph).1
    have hnum : ePhnum (view sampleImage 4096) = 1 := by decide +kernel
    rw [hnum] at hk
    obtain rfl : k = 0 := Nat.lt_one_iff.mp (List.mem_range.mp hk)
    exact ⟨by decide +kernel, by decide +kernel, by decide +kernel, by decide +kernel⟩
  refine ⟨_, q, d', hnew, hload, ?_, image_laid_out sampleImage 4096 128 8192 newMem _ q _ d'
    newMem_pool rfl rfl rfl (by decide) (by decide) (by decide) hnew hproper hload ?_⟩
  · rw [hmem]
    decide +kernel
  · rw [hmem]
    decide +kernel

end CoroCore.User
