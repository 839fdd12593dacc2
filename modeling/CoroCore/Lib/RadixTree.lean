import Mathlib.Data.List.Induction
import Mathlib.Data.Set.Insert
import Mathlib.Logic.Function.Basic

/-!
# Radix trees in a memory

Memory consists of pages in `P` with entries in `E`, indexed by `ι`. An entry may refer to a child
page (`child`). `node` follows a path of indices from a page. A tree of depth `d` is made of the
pages at the ends of the paths of length at most `d`; what the entries at depth `d` say is not part
of it. It is `Separated` if different paths end at different pages.

* `Separated.write_leaf`, `leaf_write`: a write to an entry at depth `d`;
* `Separated.grow`, `pages_grow`, `leaf_grow`: a new, empty page becomes a child;
* `Entries`: what holds of the entries at each depth, through writes and growth;
* `pages_succ`, `Separated.subtree`, `Separated.disjoint`: the subtrees of the children.
-/

namespace CoroCore.Lib.Radix

variable {P ι E : Type*} [DecidableEq P] [DecidableEq ι] {child : E → Option P} {M : P → ι → E}
  {root x y z : P} {i j : ι} {e e0 : E} {p q r : List ι} {d : Nat}

/-- The page at the end of a path. -/
def node (child : E → Option P) (M : P → ι → E) (root : P) (p : List ι) : Option P :=
  p.foldlM (fun x i => child (M x i)) root

/-- Different paths of length at most `d` end at different pages. -/
def Separated (child : E → Option P) (d : Nat) (M : P → ι → E) (root : P) : Prop :=
  ∀ p q x, p.length ≤ d → q.length ≤ d → node child M root p = some x →
    node child M root q = some x → p = q

/-- The pages of the tree of depth `d`. -/
def pages (child : E → Option P) (d : Nat) (M : P → ι → E) (root : P) : Set P :=
  {x | ∃ p, p.length ≤ d ∧ node child M root p = some x}

/-- The entry `i` of the page at the end of `p`, and `e0` if there is no such page. -/
def leaf (child : E → Option P) (e0 : E) (M : P → ι → E) (root : P) (p : List ι) (i : ι) : E :=
  ((node child M root p).map fun x => M x i).getD e0

/-- Write an entry. -/
def write (M : P → ι → E) (x : P) (i : ι) (e : E) : P → ι → E :=
  Function.update M x (Function.update (M x) i e)

/-- Fill a page with one entry. -/
def fill (M : P → ι → E) (x : P) (e : E) : P → ι → E := Function.update M x fun _ => e

omit [DecidableEq P] [DecidableEq ι] in
theorem node_nil : node child M root [] = some root := rfl

omit [DecidableEq P] [DecidableEq ι] in
theorem node_append : node child M root (p ++ q) = (node child M root p).bind
    fun x => node child M x q := by
  rw [node, List.foldlM_append]
  rfl

omit [DecidableEq P] [DecidableEq ι] in
theorem node_snoc : node child M root (p ++ [i]) = (node child M root p).bind
    fun x => child (M x i) := by
  rw [node_append]
  congr 1
  funext x
  simp [node]

omit [DecidableEq P] [DecidableEq ι] in
/-- The end of a longer path is reached through the end of a shorter one. -/
theorem node_snoc_eq_some : node child M root (p ++ [i]) = some y ↔
    ∃ x, node child M root p = some x ∧ child (M x i) = some y := by
  rw [node_snoc, Option.bind_eq_some_iff]

theorem write_self : write M x i e x i = e := by
  rw [write, Function.update_self, Function.update_self]

theorem write_of_ne (h : ¬ (y = x ∧ j = i)) : write M x i e y j = M y j := by
  rcases eq_or_ne y x with rfl | hy
  · rw [write, Function.update_self, Function.update_of_ne fun hj => h ⟨rfl, hj⟩]
  · rw [write, Function.update_of_ne hy]

omit [DecidableEq ι] in
theorem fill_self : fill M x e x i = e := by rw [fill, Function.update_self]

omit [DecidableEq ι] in
theorem fill_of_ne (h : y ≠ x) : fill M x e y j = M y j := by rw [fill, Function.update_of_ne h]

/-! ## Writes -/

/-- A write to an entry of the page at `p` is only seen by the paths through this entry. -/
theorem node_write (hs : Separated child d M root) (hp : p.length ≤ d)
    (hx : node child M root p = some x) (hq : q.length ≤ d) (hpq : ¬ p ++ [i] <+: q) :
    node child (write M x i e) root q = node child M root q := by
  induction q using List.reverseRecOn with
  | nil => rfl
  | append_singleton q j ih =>
    have hlen : q.length < d := by
      rw [List.length_append, List.length_singleton] at hq
      exact hq
    have hpre : ¬ p ++ [i] <+: q := fun h => hpq (h.trans (List.prefix_append q [j]))
    rw [node_snoc, node_snoc, ih hlen.le hpre]
    cases hy : node child M root q with
    | none => rfl
    | some y =>
      have hne : ¬ (y = x ∧ j = i) := by
        rintro ⟨rfl, rfl⟩
        obtain rfl : p = q := hs p q y hp hlen.le hx hy
        exact hpq (List.prefix_refl _)
      simp only [Option.bind_some, write_of_ne hne]

/-- No path of the tree goes through an entry at depth `d`. -/
theorem node_write_leaf (hs : Separated child d M root) (hp : p.length = d)
    (hx : node child M root p = some x) (hq : q.length ≤ d) :
    node child (write M x i e) root q = node child M root q := by
  refine node_write hs hp.le hx hq fun hpre => ?_
  have := hpre.length_le
  rw [List.length_append, List.length_singleton] at this
  omega

theorem Separated.write_leaf (hs : Separated child d M root) (hp : p.length = d)
    (hx : node child M root p = some x) : Separated child d (write M x i e) root := by
  intro q r y hq hr hqy hry
  rw [node_write_leaf hs hp hx hq] at hqy
  rw [node_write_leaf hs hp hx hr] at hry
  exact hs q r y hq hr hqy hry

theorem pages_write_leaf (hs : Separated child d M root) (hp : p.length = d)
    (hx : node child M root p = some x) :
    pages child d (write M x i e) root = pages child d M root := by
  ext y
  refine exists_congr fun q => and_congr_right fun hq => ?_
  rw [node_write_leaf hs hp hx hq]

theorem leaf_write (hs : Separated child d M root) (hp : p.length = d)
    (hx : node child M root p = some x) (hq : q.length = d) :
    leaf child e0 (write M x i e) root q j =
      if q = p ∧ j = i then e else leaf child e0 M root q j := by
  rw [leaf, leaf, node_write_leaf hs hp hx hq.le]
  split
  · rename_i h
    obtain ⟨rfl, rfl⟩ := h
    rw [hx, Option.map_some, write_self, Option.getD_some]
  · rename_i hne
    cases hy : node child M root q with
    | none => rfl
    | some y =>
      have : ¬ (y = x ∧ j = i) := fun h => hne ⟨hs q p y hq.le hp.le hy (h.1 ▸ hx), h.2⟩
      rw [Option.map_some, Option.map_some, write_of_ne this]

/-! ## Growth -/

omit [DecidableEq P] [DecidableEq ι] in
/-- Only the pages of the tree matter. -/
theorem node_congr {M' : P → ι → E} (h : ∀ x ∈ pages child d M root, M' x = M x)
    (hq : q.length ≤ d) : node child M' root q = node child M root q := by
  induction q using List.reverseRecOn with
  | nil => rfl
  | append_singleton q j ih =>
    have hlen : q.length < d := by
      rw [List.length_append, List.length_singleton] at hq
      exact hq
    rw [node_snoc, node_snoc, ih hlen.le]
    cases hz : node child M root q with
    | none => rfl
    | some z => rw [Option.bind_some, Option.bind_some, h z ⟨q, hlen.le, hz⟩]

omit [DecidableEq P] [DecidableEq ι] in
theorem leaf_congr {M' : P → ι → E} (h : ∀ x ∈ pages child d M root, M' x = M x)
    (hq : q.length ≤ d) : leaf child e0 M' root q j = leaf child e0 M root q j := by
  rw [leaf, leaf, node_congr h hq]
  cases hz : node child M root q with
  | none => rfl
  | some z => rw [Option.map_some, Option.map_some, h z ⟨q, hq, hz⟩]

omit [DecidableEq P] [DecidableEq ι] in
theorem Separated.congr {M' : P → ι → E} (hs : Separated child d M root)
    (h : ∀ x ∈ pages child d M root, M' x = M x) : Separated child d M' root := by
  intro q r z hq hr hqz hrz
  rw [node_congr h hq] at hqz
  rw [node_congr h hr] at hrz
  exact hs q r z hq hr hqz hrz

omit [DecidableEq P] [DecidableEq ι] in
theorem pages_congr {M' : P → ι → E} (h : ∀ x ∈ pages child d M root, M' x = M x) :
    pages child d M' root = pages child d M root := by
  ext y
  refine exists_congr fun q => and_congr_right fun hq => ?_
  rw [node_congr h hq]

omit [DecidableEq ι] in
/-- A page outside the tree may be filled. -/
theorem fill_outside (hy : y ∉ pages child d M root) :
    ∀ x ∈ pages child d M root, fill M y e x = M x := by
  intro x hx
  have hne : x ≠ y := by
    rintro rfl
    exact hy hx
  rw [fill, Function.update_of_ne hne]

/-- A page outside the tree may be written. -/
theorem write_outside (hy : y ∉ pages child d M root) :
    ∀ x ∈ pages child d M root, write M y i e x = M x := by
  intro x hx
  have hne : x ≠ y := by
    rintro rfl
    exact hy hx
  rw [write, Function.update_of_ne hne]

/-- The page at `p` gets the empty page `y` as its child `i`. -/
def grow (M : P → ι → E) (x : P) (i : ι) (y : P) (e0 e : E) : P → ι → E := write (fill M y e0) x i e

section Grow

variable (hs : Separated child d M root) (hp : p.length < d) (hx : node child M root p = some x)
  (hy : y ∉ pages child d M root) (he : child e = some y) (h0 : child e0 = none)
include hs hp hx hy

theorem node_grow_old (hq : q.length ≤ d) (hpq : ¬ p ++ [i] <+: q) :
    node child (grow M x i y e0 e) root q = node child M root q := by
  have hx' : node child (fill M y e0) root p = some x :=
    (node_congr (fill_outside hy) hp.le).trans hx
  rw [grow, node_write (hs.congr (fill_outside hy)) hp.le hx' hq hpq,
    node_congr (fill_outside hy) hq]

include he

theorem node_grow_self : node child (grow M x i y e0 e) root (p ++ [i]) = some y := by
  have hpre : ¬ p ++ [i] <+: p := fun h => by
    have := h.length_le
    rw [List.length_append, List.length_singleton] at this
    exact Nat.not_succ_le_self _ this
  refine node_snoc_eq_some.mpr ⟨x, ?_, ?_⟩
  · rw [node_grow_old hs hp hx hy hp.le hpre, hx]
  · rw [grow, write_self, he]

include h0

theorem node_grow_past (hr : r ≠ []) :
    node child (grow M x i y e0 e) root (p ++ [i] ++ r) = none := by
  have hne : y ≠ x := by
    rintro rfl
    exact hy ⟨p, hp.le, hx⟩
  obtain ⟨j, r, rfl⟩ := List.exists_cons_of_ne_nil hr
  rw [node_append, node_grow_self hs hp hx hy he, Option.bind_some, ← List.singleton_append,
    node_append, ← List.nil_append [j], node_snoc, node_nil, Option.bind_some, grow,
    write_of_ne fun h => hne h.1, fill_self, h0]
  rfl

/-- A path of the tree that grew is an old one, or the one to the new page. -/
theorem node_grow_eq_some (hq : q.length ≤ d)
    (hz : node child (grow M x i y e0 e) root q = some z) :
    (¬ p ++ [i] <+: q ∧ node child M root q = some z) ∨ (q = p ++ [i] ∧ z = y) := by
  by_cases hpq : p ++ [i] <+: q
  · obtain ⟨r, rfl⟩ := hpq
    rcases eq_or_ne r [] with rfl | hr
    · rw [List.append_nil] at hz ⊢
      rw [node_grow_self hs hp hx hy he] at hz
      exact .inr ⟨rfl, (Option.some.inj hz).symm⟩
    · rw [node_grow_past hs hp hx hy he h0 hr] at hz
      cases hz
  · rw [node_grow_old hs hp hx hy hq hpq] at hz
    exact .inl ⟨hpq, hz⟩

theorem Separated.grow : Separated child d (grow M x i y e0 e) root := by
  intro q r z hq hr hqz hrz
  rcases node_grow_eq_some hs hp hx hy he h0 hq hqz with ⟨-, hq'⟩ | ⟨rfl, rfl⟩
  · rcases node_grow_eq_some hs hp hx hy he h0 hr hrz with ⟨-, hr'⟩ | ⟨rfl, rfl⟩
    · exact hs q r z hq hr hq' hr'
    · exact absurd ⟨q, hq, hq'⟩ hy
  · rcases node_grow_eq_some hs hp hx hy he h0 hr hrz with ⟨-, hr'⟩ | ⟨rfl, -⟩
    · exact absurd ⟨r, hr, hr'⟩ hy
    · rfl

variable (hi : child (M x i) = none)
include hi

theorem pages_grow : pages child d (grow M x i y e0 e) root = insert y (pages child d M root) := by
  ext z
  constructor
  · rintro ⟨q, hq, hz⟩
    rcases node_grow_eq_some hs hp hx hy he h0 hq hz with ⟨-, hq'⟩ | ⟨-, rfl⟩
    · exact .inr ⟨q, hq, hq'⟩
    · exact .inl rfl
  · rintro (rfl | ⟨q, hq, hz⟩)
    · refine ⟨p ++ [i], ?_, node_grow_self hs hp hx hy he⟩
      rw [List.length_append, List.length_singleton]
      exact hp
    · refine ⟨q, hq, (node_grow_old hs hp hx hy hq ?_).trans hz⟩
      rintro ⟨r, rfl⟩
      rw [node_append, node_snoc, hx, Option.bind_some, hi] at hz
      cases hz

theorem leaf_grow (hq : q.length = d) :
    leaf child e0 (grow M x i y e0 e) root q j = leaf child e0 M root q j := by
  rw [leaf, leaf]
  by_cases hpq : p ++ [i] <+: q
  · obtain ⟨r, rfl⟩ := hpq
    have hold : node child M root (p ++ [i] ++ r) = none := by
      rw [node_append, node_snoc, hx, Option.bind_some, hi, Option.bind_none]
    rw [hold]
    rcases eq_or_ne r [] with rfl | hr
    · have hne : y ≠ x := by
        rintro rfl
        exact hy ⟨p, hp.le, hx⟩
      rw [List.append_nil, node_grow_self hs hp hx hy he, Option.map_some, grow,
        write_of_ne fun h => hne h.1, fill_self]
      rfl
    · rw [node_grow_past hs hp hx hy he h0 hr]
      rfl
  · rw [node_grow_old hs hp hx hy hq.le hpq]
    cases hz : node child M root q with
    | none => rfl
    | some z =>
      have hzx : z ≠ x := by
        rintro rfl
        have := hs q p z hq.le hp.le hz hx
        rw [this] at hq
        exact hp.ne hq
      have hzy : z ≠ y := by
        rintro rfl
        exact hy ⟨q, hq.le, hz⟩
      rw [Option.map_some, Option.map_some, grow, write_of_ne fun h => hzx h.1, fill_of_ne hzy]

end Grow

/-! ## What the entries are -/

/-- All entries of the tree meet `Q`, which may depend on the depth of the page. -/
def Entries (Q : Nat → ι → E → Prop) (child : E → Option P) (d : Nat) (M : P → ι → E) (root : P) :
    Prop :=
  ∀ p x i, p.length ≤ d → node child M root p = some x → Q p.length i (M x i)

variable {Q : Nat → ι → E → Prop}

omit [DecidableEq P] [DecidableEq ι] in
theorem Entries.congr {M' : P → ι → E} (hQ : Entries Q child d M root)
    (h : ∀ x ∈ pages child d M root, M' x = M x) : Entries Q child d M' root := by
  intro q x i hq hx
  rw [node_congr h hq] at hx
  rw [h x ⟨q, hq, hx⟩]
  exact hQ q x i hq hx

theorem Entries.write_leaf (hQ : Entries Q child d M root) (hs : Separated child d M root)
    (hp : p.length = d) (hx : node child M root p = some x) (he : Q d i e) :
    Entries Q child d (write M x i e) root := by
  intro q y j hq hy
  rw [node_write_leaf hs hp hx hq] at hy
  by_cases h : y = x ∧ j = i
  · obtain ⟨rfl, rfl⟩ := h
    obtain rfl : q = p := hs q p y hq hp.le hy hx
    rw [write_self, hp]
    exact he
  · rw [write_of_ne h]
    exact hQ q y j hq hy

theorem Entries.grow (hQ : Entries Q child d M root) (hs : Separated child d M root)
    (hp : p.length < d) (hx : node child M root p = some x) (hy : y ∉ pages child d M root)
    (he : child e = some y) (h0 : child e0 = none) (hQe : Q p.length i e)
    (hQ0 : ∀ j, Q (p.length + 1) j e0) : Entries Q child d (grow M x i y e0 e) root := by
  intro q z j hq hz
  rcases node_grow_eq_some hs hp hx hy he h0 hq hz with ⟨-, hz'⟩ | ⟨rfl, rfl⟩
  · have hzy : z ≠ y := by
      rintro rfl
      exact hy ⟨q, hq, hz'⟩
    by_cases h : z = x ∧ j = i
    · obtain ⟨rfl, rfl⟩ := h
      obtain rfl : q = p := hs q p z hq hp.le hz' hx
      rw [Radix.grow, write_self]
      exact hQe
    · rw [Radix.grow, write_of_ne h, fill_of_ne hzy]
      exact hQ q z j hq hz'
  · have hzx : z ≠ x := by
      rintro rfl
      exact hy ⟨p, hp.le, hx⟩
    rw [Radix.grow, write_of_ne fun h => hzx h.1, fill_self, List.length_append,
      List.length_singleton]
    exact hQ0 j

/-! ## Subtrees -/

omit [DecidableEq P] [DecidableEq ι] in
theorem node_cons (hy : child (M root i) = some y) :
    node child M root (i :: p) = node child M y p := by
  rw [node, List.foldlM_cons, hy]
  rfl

omit [DecidableEq P] [DecidableEq ι] in
/-- A tree is its root with the trees of the children. -/
theorem pages_succ : x ∈ pages child (d + 1) M root ↔
    x = root ∨ ∃ i y, child (M root i) = some y ∧ x ∈ pages child d M y := by
  constructor
  · rintro ⟨q, hq, hx⟩
    cases q with
    | nil => exact .inl (Option.some.inj hx).symm
    | cons i q =>
      cases hy : child (M root i) with
      | none =>
        rw [node, List.foldlM_cons, hy] at hx
        cases hx
      | some y =>
        rw [node_cons hy] at hx
        exact .inr ⟨i, y, hy, q, Nat.le_of_succ_le_succ hq, hx⟩
  · rintro (rfl | ⟨i, y, hy, q, hq, hx⟩)
    · exact ⟨[], Nat.zero_le _, rfl⟩
    · exact ⟨i :: q, Nat.succ_le_succ hq, (node_cons hy).trans hx⟩

omit [DecidableEq P] [DecidableEq ι] in
theorem root_mem_pages : root ∈ pages child d M root := ⟨[], Nat.zero_le d, rfl⟩

omit [DecidableEq P] [DecidableEq ι] in
theorem Separated.subtree (hs : Separated child (d + 1) M root) (hy : child (M root i) = some y) :
    Separated child d M y := by
  intro q r x hq hr hqx hrx
  rw [← node_cons hy] at hqx hrx
  exact List.tail_eq_of_cons_eq
    (hs (i :: q) (i :: r) x (Nat.succ_le_succ hq) (Nat.succ_le_succ hr) hqx hrx)

omit [DecidableEq P] [DecidableEq ι] in
theorem Separated.root_not_mem (hs : Separated child (d + 1) M root)
    (hy : child (M root i) = some y) : root ∉ pages child d M y := by
  rintro ⟨q, hq, hx⟩
  rw [← node_cons hy] at hx
  cases hs (i :: q) [] root (Nat.succ_le_succ hq) (Nat.zero_le _) hx rfl

omit [DecidableEq P] [DecidableEq ι] in
/-- The trees of two children have no page in common. -/
theorem Separated.disjoint (hs : Separated child (d + 1) M root) (hy : child (M root i) = some y)
    (hz : child (M root j) = some z) (hij : i ≠ j) (hx : x ∈ pages child d M y) :
    x ∉ pages child d M z := by
  obtain ⟨q, hq, hqx⟩ := hx
  rintro ⟨r, hr, hrx⟩
  rw [← node_cons hy] at hqx
  rw [← node_cons hz] at hrx
  have heq := hs (i :: q) (j :: r) x (Nat.succ_le_succ hq) (Nat.succ_le_succ hr) hqx hrx
  exact hij (List.head_eq_of_cons_eq heq)

omit [DecidableEq P] [DecidableEq ι] in
theorem Entries.subtree (hQ : Entries Q child (d + 1) M root) (hy : child (M root i) = some y) :
    Entries (fun k => Q (k + 1)) child d M y := by
  intro q x j hq hx
  rw [← node_cons hy] at hx
  exact hQ (i :: q) x j (Nat.succ_le_succ hq) hx

end CoroCore.Lib.Radix
