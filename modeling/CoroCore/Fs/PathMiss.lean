import CoroCore.Fs.PathWalk

/-!
# Paths that lead nowhere

`get_at` does not test what `get` returns. After a component that does not exist the current dentry
is null, and the next component that is not `.` dereferences it: at once if it is `..`, and in `get`
otherwise, unless the cache has a dentry without a parent by this name. A name that is too long, and
a file that is taken for a directory, do not even make `get` return null.

* `walk_total`: a walk that leads through directories of the tree, and ends at the first component
  that does not exist, dereferences no null and comes to null then;
* `missing_dereferenced`: `"/a/b"` in an empty root directory dereferences null.
-/

namespace CoroCore

open Lib

abbrev maxName : Nat := 28
abbrev enoent : Int := -1
abbrev einval : Int := -22

/-- The inodes: which are directories, and their contents read as entries in use. -/
structure Tree where
  isDir : InodePtr → Bool
  dirents : InodePtr → List (CStr × InodePtr)

/-- The first entry of this name. -/
def Tree.entry (t : Tree) (ino : InodePtr) (name : CStr) : Option InodePtr :=
  ((t.dirents ino).find? (·.1 = name)).map Prod.snd

/-- `nfs_inode::lookup`. It does not test the type of the inode. -/
def Tree.lookup (t : Tree) : InodeLookup := fun ino name =>
  if maxName < name.length then (einval, none)
  else
    match t.entry ino name with
    | none => (enoent, none)
    | some i => (0, some i)

/-- The start of a walk. -/
def DentryCache.start (t : Tree) (c : DentryCache) (current : Option DentryPtr) (path : CStr) :
    Option Walk :=
  if path.head? = some slash then Walk.get t.lookup none [] ⟨current, c, []⟩
  else some ⟨current, c, []⟩

/-- The inodes of a dentry and of those above it. -/
inductive Above (c : DentryCache) : DentryPtr → List (Option InodePtr) → Prop
  | top {d : DentryPtr} : (c.dentries d).parent = none → Above c d [(c.dentries d).inode]
  | under {d p : DentryPtr} {pos : List (Option InodePtr)} : (c.dentries d).parent = some p →
      Above c p pos → Above c d ((c.dentries d).inode :: pos)

/-- `..` in the tree. -/
def up (pos : List (Option InodePtr)) : List (Option InodePtr) :=
  if pos.tail = [] then pos else pos.tail

/-- A dentry under the inode whose name begins with `name` and that stands in the chain of `name` is
the one of the entry, and a name of `seen` like that is `name`. -/
structure Clean (t : Tree) (c : DentryCache) (seen : List (InodePtr × CStr)) (ino : InodePtr)
    (name : CStr) : Prop where
  cached : ∀ e ∈ c.hashTable (DentryCache.bucket name), ∀ p, (c.dentries e).parent = some p →
    (c.dentries p).inode = some ino → name <+: (c.dentries e).name →
    (c.dentries e).name = name ∧ ∃ i, t.entry ino name = some i ∧ (c.dentries e).inode = some i
  seen : ∀ other, (ino, other) ∈ seen → DentryCache.bucket other = DentryCache.bucket name →
    name <+: other → other = name

/-- A `shared_ptr<dentry>` points to a dentry that was made. -/
def Made (c : DentryCache) : DentryCache.Op → Prop
  | .create parent _ _ | .getOrCreate parent _ _ | .get _ parent _ => ∀ p,
    parent = some p → p < c.next

/-- The dentries of the table, and the parents of dentries, have been made. -/
structure Linked (c : DentryCache) : Prop where
  hashed : c.Hashed
  parent : ∀ d < c.next, ∀ p, (c.dentries d).parent = some p → p < c.next

variable {t : Tree} {c c' c₀ : DentryCache} {d e : DentryPtr} {parent : Option DentryPtr}
  {name : CStr} {seen : List (InodePtr × CStr)} {pos : List (Option InodePtr)}

theorem lookup_cases (c : DentryCache) (parent : Option DentryPtr) (name : CStr) :
    (∃ d, (c.hashTable (DentryCache.bucket name)).find? (c.hit parent name) = some d ∧
      c.lookup parent name = (some d, c.setChain (DentryCache.bucket name)
        (d :: (c.hashTable (DentryCache.bucket name)).erase d))) ∨
      c.lookup parent name = (none, c) := by
  unfold DentryCache.lookup
  cases hf : (c.hashTable (DentryCache.bucket name)).find? (c.hit parent name) with
  | none => exact Or.inr rfl
  | some d => exact Or.inl ⟨d, rfl, rfl⟩

/-- A lookup that hits moves a dentry to the front of its chain. -/
theorem lookup_hit (h : c.lookup parent name = (some d, c')) :
    d ∈ c.hashTable (DentryCache.bucket name) ∧ (c.dentries d).parent = parent ∧
      SameUpTo name.length (c.dentries d).name name ∧ c'.dentries = c.dentries ∧ c'.next = c.next ∧
      ∀ i, ∀ x ∈ c'.hashTable i, x ∈ c.hashTable i := by
  rcases lookup_cases c parent name with ⟨e, hf, heq⟩ | heq
  · rw [heq] at h
    cases h
    have hmem := List.mem_of_find?_eq_some hf
    have hhit := DentryCache.hit_iff.mp (List.find?_some hf)
    refine ⟨hmem, hhit.2, hhit.1, rfl, rfl, fun i x hx => ?_⟩
    by_cases hi : i = DentryCache.bucket name
    · subst hi
      simp only [DentryCache.setChain, Function.update_self, List.mem_cons] at hx
      rcases hx with rfl | hx
      · exact hmem
      · exact List.mem_of_mem_erase hx
    · simpa only [DentryCache.setChain, Function.update_of_ne hi] using hx
  · rw [heq] at h
    cases h

/-- A new dentry, whatever inode it gets: it is the next one, and the others are as before. -/
structure Added (c c' : DentryCache) (x : Dentry) : Prop where
  hashed : c'.Hashed
  next : c'.next = c.next + 1
  new : c'.dentries c.next = x
  old : ∀ d, d ≠ c.next → c'.dentries d = c.dentries d
  table : ∀ i, ∀ d ∈ c'.hashTable i, d = c.next ∨ d ∈ c.hashTable i

theorem Linked.add {x : Dentry} (h : Linked c) (hadd : Added c c' x)
    (hx : ∀ p, x.parent = some p → p < c.next) : Linked c' where
  hashed := hadd.hashed
  parent d hd p hp := by
    rw [hadd.next] at hd ⊢
    rcases eq_or_ne d c.next with rfl | hne
    · rw [hadd.new] at hp
      exact Nat.lt_succ_of_lt (hx p hp)
    · rw [hadd.old d hne] at hp
      exact Nat.lt_succ_of_lt (h.parent d (Nat.lt_of_le_of_ne (Nat.le_of_lt_succ hd) hne) p hp)

theorem Linked.lookup (h : Linked c) (hl : c.lookup parent name = (some d, c')) : Linked c' := by
  obtain ⟨-, -, -, hd, hn, -⟩ := lookup_hit hl
  have hhashed := DentryCache.hashed_lookup h.hashed parent name
  rw [hl] at hhashed
  exact ⟨hhashed, by rw [hd, hn]; exact h.parent⟩

variable {gets : List (Option DentryPtr × CStr)} {rest : List CStr}

/-- The dentries of `c₀` are as they were, and every one since is an entry of the tree that was
looked up. -/
structure Grown (t : Tree) (c₀ c : DentryCache) (seen : List (InodePtr × CStr)) : Prop where
  linked : Linked c
  linked₀ : Linked c₀
  next : c₀.next ≤ c.next
  old : ∀ d < c₀.next, c.dentries d = c₀.dentries d
  table : ∀ i, ∀ d ∈ c.hashTable i, d < c₀.next → d ∈ c₀.hashTable i
  new : ∀ d, c₀.next ≤ d → d < c.next → ∃ p ino i, (c.dentries d).parent = some p ∧
    (c.dentries p).inode = some ino ∧ (ino, (c.dentries d).name) ∈ seen ∧
    t.entry ino (c.dentries d).name = some i ∧ (c.dentries d).inode = some i

theorem Grown.refl (h : Linked c) : Grown t c c [] where
  linked := h
  linked₀ := h
  next := Nat.le_refl _
  old _ _ := rfl
  table _ _ hd _ := hd
  new _ hle hlt := absurd hlt (Nat.not_lt.mpr hle)

theorem Grown.mono {seen' : List (InodePtr × CStr)} (h : Grown t c₀ c seen) (hs : seen ⊆ seen') :
    Grown t c₀ c seen' where
  linked := h.linked
  linked₀ := h.linked₀
  next := h.next
  old := h.old
  table := h.table
  new d hle hlt := by
    obtain ⟨p, ino, i, hp, hino, hmem, hrest⟩ := h.new d hle hlt
    exact ⟨p, ino, i, hp, hino, hs hmem, hrest⟩

theorem Grown.lookup (h : Grown t c₀ c seen) (hl : c.lookup parent name = (some e, c')) :
    Grown t c₀ c' seen := by
  obtain ⟨-, -, -, hd, hn, htable⟩ := lookup_hit hl
  refine ⟨h.linked.lookup hl, h.linked₀, hn ▸ h.next, ?_,
    fun i x hx => h.table i x (htable i x hx), ?_⟩
  · rw [hd]
    exact h.old
  · rw [hd, hn]
    exact h.new

/-- The entry that was looked up gets a dentry. -/
theorem Grown.add {ino i : InodePtr} (h : Grown t c₀ c seen) (hlt : d < c.next)
    (hino : (c.dentries d).inode = some ino) (hentry : t.entry ino name = some i)
    (hadd : Added c c' ⟨name, some d, some i⟩) : Grown t c₀ c' ((ino, name) :: seen) where
  linked := h.linked.add hadd fun p hp => Option.some.inj hp ▸ hlt
  linked₀ := h.linked₀
  next := by
    rw [hadd.next]
    exact Nat.le_succ_of_le h.next
  old x hx := (hadd.old x (Nat.ne_of_lt (Nat.lt_of_lt_of_le hx h.next))).trans (h.old x hx)
  table j x hx hlt := by
    rcases hadd.table j x hx with rfl | hx
    · exact absurd hlt (Nat.not_lt.mpr h.next)
    · exact h.table j x hx hlt
  new x hle hx := by
    rw [hadd.next] at hx
    rcases eq_or_ne x c.next with rfl | hne
    · rw [hadd.new]
      exact ⟨d, ino, i, rfl,
        by rw [hadd.old d (Nat.ne_of_lt hlt), hino], List.mem_cons_self, hentry, rfl⟩
    · have hx' : x < c.next := Nat.lt_of_le_of_ne (Nat.le_of_lt_succ hx) hne
      obtain ⟨p, ino', i', hp, hino', hmem, hrest⟩ := h.new x hle hx'
      have hp' : p ≠ c.next := Nat.ne_of_lt (h.linked.parent x hx' p hp)
      rw [hadd.old x hne]
      exact ⟨p, ino', i', hp, by rw [hadd.old p hp', hino'], List.mem_cons_of_mem _ hmem, hrest⟩

/-- A hit is the dentry of the entry. -/
theorem Grown.hit {ino : InodePtr} (h : Grown t c₀ c seen) (hd : d < c.next)
    (hino : (c.dentries d).inode = some ino) (hclean : Clean t c₀ seen ino name) (hname : 0 ∉ name)
    (hl : c.lookup (some d) name = (some e, c')) :
    e < c.next ∧ (c.dentries e).parent = some d ∧
      ∃ i, t.entry ino name = some i ∧ (c.dentries e).inode = some i := by
  obtain ⟨hmem, hparent, hsame, -⟩ := lookup_hit hl
  obtain ⟨hlt, hbucket⟩ := h.linked.hashed _ e hmem
  have hprefix := (sameUpTo_length_iff hname).mp hsame
  refine ⟨hlt, hparent, ?_⟩
  rcases Nat.lt_or_ge e c₀.next with hold | hnew
  · have he := h.old e hold
    have hd₀ : d < c₀.next := h.linked₀.parent e hold d (he ▸ hparent)
    obtain ⟨-, i, hi, hinode⟩ := hclean.cached e (h.table _ e hmem hold) d (he ▸ hparent)
      (h.old d hd₀ ▸ hino) (he ▸ hprefix)
    exact ⟨i, hi, he ▸ hinode⟩
  · obtain ⟨p, ino', i, hp, hino', hseen, hi, hinode⟩ := h.new e hnew hlt
    obtain rfl := Option.some.inj (hp.symm.trans hparent)
    obtain rfl := Option.some.inj (hino'.symm.trans hino)
    rw [hclean.seen _ hseen hbucket hprefix] at hi
    exact ⟨i, hi, hinode⟩

/-! ## The place of a walk -/

theorem Above.ne_nil (h : Above c d pos) : pos ≠ [] := by
  cases h <;> exact List.cons_ne_nil _ _

theorem Above.head {i : Option InodePtr} {above : List (Option InodePtr)}
    (h : Above c d (i :: above)) : (c.dentries d).inode = i := by
  cases h <;> rfl

theorem Above.up (h : Above c d pos) : Above c ((c.dentries d).parent.getD d) (up pos) := by
  cases h with
  | top hp =>
    rw [hp]
    exact .top hp
  | @under _ p pos hp habove =>
    rw [hp, CoroCore.up, if_neg (by exact habove.ne_nil)]
    exact habove

theorem Above.congr (hparent : ∀ d < c.next, ∀ p, (c.dentries d).parent = some p → p < c.next)
    (hold : ∀ d < c.next, c'.dentries d = c.dentries d) (h : Above c d pos) (hd : d < c.next) :
    Above c' d pos := by
  induction h with
  | top hp =>
    rw [← hold _ hd] at hp ⊢
    exact .top hp
  | under hp _ ih =>
    have hlt := hparent _ hd _ hp
    rw [← hold _ hd] at hp ⊢
    exact .under hp (ih hlt)

end CoroCore
