import CoroCore.Lib.Run
import CoroCore.Utils.QuickString

/-!
# The dentry cache: `fs/dentry.h` and `fs/dentry.cc`

Dentries are heap objects named by pointers. The cache is a table of
`HASH_TABLE_SIZE` chains of pointers; a chain is searched from the front and a hit is
moved to the front. Locks are left out: each call is one step.

`get` calls the virtual `inode::lookup` of the parent's inode. What that call returns,
and the inode it attaches to the new dentry, is the argument `look`.

Results:
* `lookup_exact_iff`: in every reachable table, a lookup is exact if and only if no
  dentry of the same parent with a longer name beginning with the wanted one stands
  in the chain before a dentry with exactly that name.
* `lookup_not_exact`: a failed path lookup leaves such a dentry behind, and
  `get(nullptr, "")` then returns it instead of the root.
-/

namespace CoroCore

open Lib

abbrev DentryPtr := Nat
abbrev InodePtr := Nat

/-- `class dentry`. -/
structure Dentry where
  name : CStr
  parent : Option DentryPtr
  inode : Option InodePtr
deriving DecidableEq, Repr

/-- `class dentry_cache`. `dentries` is the heap the pointers go to and `next` the
address of the next `make_shared<dentry>`. -/
structure DentryCache where
  hashTable : Nat → List DentryPtr
  dentries : DentryPtr → Dentry
  next : DentryPtr
  size : Nat

/-- What `inode::lookup(new_dentry)` does: its return value and the inode it passes to
`new_dentry->set_inode`, if any. -/
abbrev InodeLookup := InodePtr → CStr → Int × Option InodePtr

namespace DentryCache

def hashTableSize : Nat := 1024

/-- An empty table, as after `destroy`. -/
def empty : DentryCache := ⟨fun _ => [], fun _ => ⟨[], none, none⟩, 0, 0⟩

def bucket (name : CStr) : Nat := quickHash name % hashTableSize

def setDentry (c : DentryCache) (p : DentryPtr) (d : Dentry) : DentryCache :=
  { c with dentries := Function.update c.dentries p d }

def setChain (c : DentryCache) (i : Nat) (l : List DentryPtr) : DentryCache :=
  { c with hashTable := Function.update c.hashTable i l }

/-- `dentry_cache::__add`. -/
def add (c : DentryCache) (name : CStr) : DentryPtr × DentryCache :=
  let c' := c.setDentry c.next ⟨name, none, none⟩
  (c.next, { c'.setChain (bucket name) (c.next :: c.hashTable (bucket name)) with
    next := c.next + 1, size := c.size + 1 })

/-- `dentry_cache::__get_free_dentry`. `__reuse` always returns null, so a new dentry
is added whatever `size` is. -/
def getFreeDentry (c : DentryCache) (name : CStr) (parent : Option DentryPtr) :
    DentryPtr × DentryCache :=
  let (d, c') := c.add name
  (d, c'.setDentry d { c'.dentries d with parent := parent })

/-- The test in the loop of `dentry_cache::lookup`. -/
def hit (c : DentryCache) (parent : Option DentryPtr) (name : CStr) (d : DentryPtr) : Bool :=
  strncmp (c.dentries d).name name name.length = 0 ∧ (c.dentries d).parent = parent

/-- `dentry_cache::lookup`. -/
def lookup (c : DentryCache) (parent : Option DentryPtr) (name : CStr) :
    Option DentryPtr × DentryCache :=
  match (c.hashTable (bucket name)).find? (c.hit parent name) with
  | some d => (some d, c.setChain (bucket name) (d :: (c.hashTable (bucket name)).erase d))
  | none => (none, c)

/-- The end of `dentry_cache::get`, after `inode::lookup` has returned `ret` and passed
`found` to `set_inode`. Only `-1` resets the parent and hides the new dentry. -/
def finishGet (c : DentryCache) (d : DentryPtr) (ret : Int) (found : Option InodePtr) :
    Option DentryPtr × DentryCache :=
  if ret = -1 then
    (none, c.setDentry d ⟨(c.dentries d).name, none, found.or (c.dentries d).inode⟩)
  else
    (some d, c.setDentry d { c.dentries d with inode := found.or (c.dentries d).inode })

/-- `dentry_cache::get`. The outer `none` is the null dereference in
`parent->get_inode()->lookup(..)`. -/
def get (look : InodeLookup) (c : DentryCache) (parent : Option DentryPtr) (name : CStr) :
    Option (Option DentryPtr × DentryCache) :=
  match c.lookup parent name with
  | (some d, c') => some (some d, c')
  | (none, c') =>
    let r := c'.getFreeDentry name parent
    (parent.bind fun p => (r.2.dentries p).inode).map fun ino =>
      r.2.finishGet r.1 (look ino name).1 (look ino name).2

/-- The common tail of `create` and `get_or_create`. -/
def fill (c : DentryCache) (name : CStr) (parent : Option DentryPtr) (inode : Option InodePtr) :
    DentryPtr × DentryCache :=
  let (d, c') := c.getFreeDentry name parent
  match inode with
  | some i => (d, c'.setDentry d { c'.dentries d with inode := some i })
  | none => (d, c')

/-- `dentry_cache::create` (both overloads). -/
def create (c : DentryCache) (parent : Option DentryPtr) (name : CStr) (inode : Option InodePtr) :
    DentryPtr × DentryCache :=
  c.fill name parent inode

/-- `dentry_cache::get_or_create`. -/
def getOrCreate (c : DentryCache) (parent : Option DentryPtr) (name : CStr)
    (inode : Option InodePtr) : DentryPtr × DentryCache :=
  match c.lookup parent name with
  | (some d, c') => (d, c')
  | (none, c') => c'.fill name parent inode

/-- A call on the cache. -/
inductive Op
  | create (parent : Option DentryPtr) (name : CStr) (inode : Option InodePtr)
  | getOrCreate (parent : Option DentryPtr) (name : CStr) (inode : Option InodePtr)
  | get (look : InodeLookup) (parent : Option DentryPtr) (name : CStr)

/-- The table after a call; `none` when the call crashes. -/
def apply (c : DentryCache) : Op → Option DentryCache
  | .create parent name inode => some (c.create parent name inode).2
  | .getOrCreate parent name inode => some (c.getOrCreate parent name inode).2
  | .get look parent name => (c.get look parent name).map Prod.snd

def Step (c : DentryCache) (op : Op) (c' : DentryCache) : Prop := c.apply op = some c'

/-! ## What a lookup should do -/

def InTable (c : DentryCache) (d : DentryPtr) : Prop := ∃ i, d ∈ c.hashTable i

/-- `d` is a dentry for exactly this parent and this name. -/
def Names (c : DentryCache) (d : DentryPtr) (parent : Option DentryPtr) (name : CStr) : Prop :=
  (c.dentries d).parent = parent ∧ (c.dentries d).name = name

/-- `d` is the only dentry of the table for this parent and this name. -/
def OnlyNamed (c : DentryCache) (d : DentryPtr) (parent : Option DentryPtr) (name : CStr) : Prop :=
  c.InTable d ∧ c.Names d parent name ∧ ∀ e, c.InTable e → c.Names e parent name → e = d

/-- What `lookup` and `get` should return for `(parent, name)`. The last clause with
`parent = none` and `name = []` is about `get(nullptr, "")` and the root dentry. -/
structure LookupExact (c : DentryCache) (parent : Option DentryPtr) (name : CStr) : Prop where
  sound : ∀ d, (c.lookup parent name).1 = some d → c.Names d parent name
  complete : ∀ d, c.OnlyNamed d parent name → (c.lookup parent name).1 = some d
  getOnly : ∀ look d, c.OnlyNamed d parent name →
    (c.get look parent name).map Prod.fst = some (some d)

/-- A dentry of `parent` whose name agrees with `name` over the length of `name`, but is
not `name`, stands in the chain before every dentry for `(parent, name)`. -/
def Shadowed (c : DentryCache) (parent : Option DentryPtr) (name : CStr) : Prop :=
  ∃ pre d post, c.hashTable (bucket name) = pre ++ d :: post ∧
    (c.dentries d).parent = parent ∧ SameUpTo name.length (c.dentries d).name name ∧
    (c.dentries d).name ≠ name ∧ ∀ e ∈ pre, ¬ c.Names e parent name

/-! ## The table stays sorted into chains -/

/-- Every pointer of a chain is an allocated dentry whose name hashes to that chain. -/
def Hashed (c : DentryCache) : Prop :=
  ∀ i d, d ∈ c.hashTable i → d < c.next ∧ bucket (c.dentries d).name = i

theorem hashed_empty : empty.Hashed := by
  intro i d hd
  simp [empty] at hd

theorem hashed_setDentry {c : DentryCache} (h : c.Hashed) {p : DentryPtr} {e : Dentry}
    (he : e.name = (c.dentries p).name) : (c.setDentry p e).Hashed := by
  intro i d hd
  obtain ⟨hlt, hb⟩ := h i d hd
  refine ⟨hlt, ?_⟩
  by_cases hdp : d = p
  · subst hdp
    simpa [setDentry, he] using hb
  · simpa [setDentry, hdp] using hb

theorem hashed_add {c : DentryCache} (h : c.Hashed) (name : CStr) : (c.add name).2.Hashed := by
  intro i d hd
  by_cases hdn : d = c.next
  · -- the new dentry is in the chain of its name only
    subst hdn
    refine ⟨by simp [add], ?_⟩
    by_cases hi : i = bucket name
    · simp [add, setDentry, setChain, hi]
    · have hold : c.next ∈ c.hashTable i := by
        simpa [add, setDentry, setChain, Function.update_of_ne hi] using hd
      exact absurd (h i c.next hold).1 (Nat.lt_irrefl _)
  · have hold : d ∈ c.hashTable i := by
      by_cases hi : i = bucket name
      · subst hi
        simpa [add, setDentry, setChain, hdn] using hd
      · simpa [add, setDentry, setChain, Function.update_of_ne hi] using hd
    obtain ⟨hlt, hb⟩ := h i d hold
    refine ⟨Nat.lt_succ_of_lt hlt, ?_⟩
    simpa [add, setDentry, setChain, hdn] using hb

theorem hashed_getFreeDentry {c : DentryCache} (h : c.Hashed) (name : CStr)
    (parent : Option DentryPtr) : (c.getFreeDentry name parent).2.Hashed :=
  hashed_setDentry (hashed_add h name) rfl

theorem hashed_lookup {c : DentryCache} (h : c.Hashed) (parent : Option DentryPtr) (name : CStr) :
    (c.lookup parent name).2.Hashed := by
  unfold lookup
  split
  · next d hd =>
    intro i e he
    have hold : e ∈ c.hashTable i := by
      by_cases hi : i = bucket name
      · subst hi
        simp only [setChain, Function.update_self, List.mem_cons] at he
        rcases he with rfl | he
        · exact List.mem_of_find?_eq_some hd
        · exact List.mem_of_mem_erase he
      · simpa [setChain, Function.update_of_ne hi] using he
    exact h i e hold
  · exact h

theorem hashed_fill {c : DentryCache} (h : c.Hashed) (name : CStr) (parent : Option DentryPtr)
    (inode : Option InodePtr) : (c.fill name parent inode).2.Hashed := by
  unfold fill
  have hf := hashed_getFreeDentry h name parent
  cases inode with
  | none => exact hf
  | some i => exact hashed_setDentry hf rfl

theorem hashed_finishGet {c : DentryCache} (h : c.Hashed) (d : DentryPtr) (ret : Int)
    (found : Option InodePtr) : (c.finishGet d ret found).2.Hashed := by
  unfold finishGet
  split
  · exact hashed_setDentry h rfl
  · exact hashed_setDentry h rfl

theorem hashed_get {c : DentryCache} (h : c.Hashed) {look : InodeLookup}
    {parent : Option DentryPtr} {name : CStr} {r : Option DentryPtr × DentryCache}
    (hg : c.get look parent name = some r) : r.2.Hashed := by
  unfold get at hg
  have hl := hashed_lookup h parent name
  generalize c.lookup parent name = q at hg hl
  obtain ⟨_ | d, c'⟩ := q
  · obtain ⟨ino, -, rfl⟩ := Option.map_eq_some_iff.mp hg
    exact hashed_finishGet (hashed_getFreeDentry hl name parent) _ _ _
  · cases hg
    exact hl

theorem hashed_step {c c' : DentryCache} {op : Op} (h : c.Hashed) (hs : c.Step op c') :
    c'.Hashed := by
  cases op with
  | create parent name inode =>
    cases hs
    exact hashed_fill h name parent inode
  | getOrCreate parent name inode =>
    cases hs
    unfold getOrCreate
    have hl := hashed_lookup h parent name
    generalize c.lookup parent name = q at hl
    obtain ⟨_ | d, c'⟩ := q
    · exact hashed_fill hl name parent inode
    · exact hl
  | get look parent name =>
    obtain ⟨r, hr, rfl⟩ := Option.map_eq_some_iff.mp hs
    exact hashed_get h hr

theorem hashed_run {ops : List Op} {c : DentryCache} (h : Run Step empty ops c) : c.Hashed :=
  h.invariant (fun _ _ _ hi hs => hashed_step hi hs) hashed_empty

/-! ## When a lookup is exact -/

theorem hit_iff {c : DentryCache} {parent : Option DentryPtr} {name : CStr} {d : DentryPtr} :
    c.hit parent name d = true ↔
      SameUpTo name.length (c.dentries d).name name ∧ (c.dentries d).parent = parent := by
  simp [hit, strncmp_eq_zero]

theorem hit_of_names {c : DentryCache} {parent : Option DentryPtr} {name : CStr} {d : DentryPtr}
    (h : c.Names d parent name) : c.hit parent name d = true := by
  rw [hit_iff, h.2]
  exact ⟨sameUpTo_self _ _, h.1⟩

theorem lookup_fst (c : DentryCache) (parent : Option DentryPtr) (name : CStr) :
    (c.lookup parent name).1 = (c.hashTable (bucket name)).find? (c.hit parent name) := by
  unfold lookup
  cases (c.hashTable (bucket name)).find? (c.hit parent name) with
  | none => rfl
  | some d => rfl

theorem get_fst_of_lookup {look : InodeLookup} {c : DentryCache} {parent : Option DentryPtr}
    {name : CStr} {d : DentryPtr} (h : (c.lookup parent name).1 = some d) :
    (c.get look parent name).map Prod.fst = some (some d) := by
  unfold get
  generalize c.lookup parent name = q at h
  obtain ⟨_ | e, c'⟩ := q
  · cases h
  · cases h
    rfl

/-- Where the first dentry that passes the test is not shadowing, it is exact. -/
theorem names_of_lookup {c : DentryCache} {parent : Option DentryPtr} {name : CStr}
    {d : DentryPtr} (hs : ¬ c.Shadowed parent name) (h : (c.lookup parent name).1 = some d) :
    c.Names d parent name := by
  rw [lookup_fst, List.find?_eq_some_iff_append] at h
  obtain ⟨hhit, pre, post, hchain, hpre⟩ := h
  obtain ⟨hsame, hpar⟩ := hit_iff.mp hhit
  refine ⟨hpar, ?_⟩
  by_contra hne
  refine hs ⟨pre, d, post, hchain, hpar, hsame, hne, ?_⟩
  intro e he hn
  simpa [hit_of_names hn] using hpre e he

/-- A lookup in a reachable table is exact if and only if it is not shadowed. -/
theorem lookup_exact_iff {ops : List Op} {c : DentryCache} (h : Run Step empty ops c)
    (parent : Option DentryPtr) (name : CStr) :
    c.LookupExact parent name ↔ ¬ c.Shadowed parent name := by
  constructor
  · rintro hex ⟨pre, d, post, hchain, hpar, hsame, hne, hpre⟩
    -- the test is passed by `d`, so the search stops at `d` or before it
    have hd : c.hit parent name d = true := hit_iff.mpr ⟨hsame, hpar⟩
    have hfind : (c.lookup parent name).1 = ((pre ++ [d]).find? (c.hit parent name)) := by
      rw [lookup_fst, hchain, List.append_cons, List.find?_append]
      cases hf : (pre ++ [d]).find? (c.hit parent name) with
      | some e => rfl
      | none => simp [hd] at hf
    obtain ⟨e, he⟩ : ∃ e, (pre ++ [d]).find? (c.hit parent name) = some e := by
      rw [← Option.isSome_iff_exists, List.find?_isSome]
      exact ⟨d, by simp, hd⟩
    have hnames := hex.sound e (hfind.trans he)
    rcases List.mem_append.mp (List.mem_of_find?_eq_some he) with hmem | hmem
    · exact hpre e hmem hnames
    · rw [List.mem_singleton] at hmem
      subst hmem
      exact hne hnames.2
  · intro hs
    have hcomplete : ∀ d, c.OnlyNamed d parent name → (c.lookup parent name).1 = some d := by
      rintro d ⟨⟨i, hi⟩, hn, huniq⟩
      have hmem : d ∈ c.hashTable (bucket name) := by
        rw [← hn.2, (hashed_run h i d hi).2]
        exact hi
      obtain ⟨e, he⟩ : ∃ e, (c.lookup parent name).1 = some e := by
        rw [lookup_fst, ← Option.isSome_iff_exists, List.find?_isSome]
        exact ⟨d, hmem, hit_of_names hn⟩
      have hemem : e ∈ c.hashTable (bucket name) := by
        rw [lookup_fst] at he
        exact List.mem_of_find?_eq_some he
      rw [he, huniq e ⟨_, hemem⟩ (names_of_lookup hs he)]
    exact ⟨fun d hd => names_of_lookup hs hd, hcomplete,
      fun _ d hd => get_fst_of_lookup (hcomplete d hd)⟩

/-- Mounting, then a path lookup of `"lmm"` in the root directory that finds nothing.
The hash of `"lmm"` is a multiple of 1024, so its dentry joins the root's chain. -/
def failedGet : List Op :=
  [.create none [] (some 1), .get (fun _ _ => (-1, none)) (some 0) [108, 109, 109]]

/-- The table after `failedGet`. -/
def afterFailedGet : DentryCache :=
  ((empty.create none [] (some 1)).2.get (fun _ _ => (-1, none)) (some 0) [108, 109, 109]).elim
    empty Prod.snd

theorem failedGet_run : Run Step empty failedGet afterFailedGet :=
  (Run.single (show Step empty (.create none [] (some 1)) _ from rfl)).snoc rfl

theorem failedGet_lookup :
    (afterFailedGet.lookup none []).1 = some 1 ∧
      (afterFailedGet.dentries 1).name = [108, 109, 109] := by
  decide

/-- After that failed path lookup, `get(nullptr, "")` returns the dentry of `"lmm"`. -/
theorem lookup_not_exact :
    ¬ ∀ (ops : List Op) (c : DentryCache) (parent : Option DentryPtr) (name : CStr),
      Run Step empty ops c → c.LookupExact parent name := by
  intro hall
  have hnames := (hall _ _ none [] failedGet_run).sound 1 failedGet_lookup.1
  rw [Names, failedGet_lookup.2] at hnames
  exact absurd hnames.2 (by decide)

/-- Mounting, then `"lmm.v"` and `"lmm"` in the root directory and `"lmm"` in the directory `"lmm"`.
The hashes of both names are multiples of 1024. -/
def sameChain : List Op :=
  [.create none [] (some 1), .create (some 0) [108, 109, 109, 46, 118] (some 2),
    .create (some 0) [108, 109, 109] (some 3), .create (some 2) [108, 109, 109] (some 4)]

/-- The table after `sameChain`. -/
def afterSameChain : DentryCache :=
  let c := (empty.create none [] (some 1)).2
  let c := (c.create (some 0) [108, 109, 109, 46, 118] (some 2)).2
  let c := (c.create (some 0) [108, 109, 109] (some 3)).2
  (c.create (some 2) [108, 109, 109] (some 4)).2

theorem step_create {c : DentryCache} {parent : Option DentryPtr} {name : CStr}
    {inode : Option InodePtr} :
    Step c (.create parent name inode) (c.create parent name inode).2 := rfl

theorem sameChain_run : Run Step empty sameChain afterSameChain :=
  (((Run.single step_create).snoc step_create).snoc step_create).snoc step_create

/-- Four dentries are in one chain. `"lmm.v"` is behind `"lmm"`, and so shadows nothing. -/
theorem lookup_exact_in_chain : Run Step empty sameChain afterSameChain ∧
    afterSameChain.hashTable (bucket [108, 109, 109]) = [3, 2, 1, 0] ∧
      afterSameChain.LookupExact (some 0) [108, 109, 109] := by
  have hchain : afterSameChain.hashTable (bucket [108, 109, 109]) = [3, 2, 1, 0] := by decide
  refine ⟨sameChain_run, hchain, (lookup_exact_iff sameChain_run _ _).mpr ?_⟩
  rintro ⟨pre, d, post, hsplit, hpar, hsame, hne, hpre⟩
  rw [hchain] at hsplit
  have hnames : afterSameChain.Names 2 (some 0) [108, 109, 109] := ⟨by decide, by decide⟩
  have hother : (afterSameChain.dentries 3).parent = some 2 := by decide
  rcases pre with _ | ⟨_, _ | ⟨e, pre⟩⟩
  · cases hsplit
    cases hother.symm.trans hpar
  · cases hsplit
    exact hne hnames.2
  · obtain ⟨-, rfl, -⟩ : _ = _ ∧ 2 = e ∧ _ := by simpa using hsplit
    exact hpre 2 (by simp) hnames

end DentryCache

end CoroCore
