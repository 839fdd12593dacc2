import CoroCore.Fs.Dentry
import Mathlib.Data.List.TakeWhile

/-!
# Path walking: `dentry_cache::get_at` of `fs/dentry.cc`

`get_at` has two overloads. The one for `const char*` leaves the slash behind a `.` or `..` to the
next iteration, the one for `std::string_view` takes it with the component.

* `getAt`, `getAtView`: the two overloads;
* `resolve`: the fold over the components of the path;
* `getAt_eq_resolve`, `getAtView_eq_resolve`: both are this fold;
* `get_at_agree`: so they make the same calls of `get` and return the same dentry.
-/

namespace CoroCore

/-- `'/'` and `'.'`. -/
abbrev slash : UInt8 := 47
abbrev dot : UInt8 := 46

/-- A walk under way: the current dentry, the cache, and the calls of `get` so far. -/
structure Walk where
  current : Option DentryPtr
  cache : DentryCache
  gets : List (Option DentryPtr × CStr)

namespace Walk

/-- `current = *co_await get(parent, name)`; `none` if it dereferences null. -/
def get (look : InodeLookup) (parent : Option DentryPtr) (name : CStr) (w : Walk) : Option Walk :=
  (w.cache.get look parent name).map fun r => ⟨r.1, r.2, w.gets ++ [(parent, name)]⟩

/-- `current = current->parent`, unless that is null; `none` if `current` is. -/
def up (w : Walk) : Option Walk :=
  w.current.map fun d =>
    match (w.cache.dentries d).parent with
    | none => w
    | some p => { w with current := some p }

/-- Up to the next slash or the terminator. -/
def inName (c : UInt8) : Bool := c ≠ slash ∧ c ≠ 0

theorem dropWhile_lt {p : UInt8 → Bool} {path : CStr} (h : path.takeWhile p ≠ []) :
    (path.dropWhile p).length < path.length := by
  have hlen := congrArg List.length (List.takeWhile_append_dropWhile (p := p) (l := path))
  rw [List.length_append] at hlen
  have := List.length_pos_of_ne_nil h
  omega

/-- The path behind the component that `get_at(const char*)` has looked up. -/
def skipSlash (path : CStr) : CStr := if path.head? = some slash then path.tail else path

theorem skipSlash_le (path : CStr) : (skipSlash path).length ≤ path.length := by
  unfold skipSlash
  split
  · rw [List.length_tail]
    exact Nat.sub_le _ _
  · exact Nat.le_refl _

/-- The loop of `get_at(const char*)`. The string may go on behind its terminator. -/
def loop (look : InodeLookup) (path : CStr) (w : Walk) : Option Walk :=
  match path with
  | [] => some w
  | c :: rest =>
    if c = 0 then some w
    else if _h : (c :: rest).takeWhile inName = [] then loop look rest w
    else
      let name := (c :: rest).takeWhile inName
      if name = [dot] then loop look ((c :: rest).dropWhile inName) w
      else if name = [dot, dot] then w.up.bind (loop look ((c :: rest).dropWhile inName))
      else
        (w.get look w.current name).bind (loop look (skipSlash ((c :: rest).dropWhile inName)))
termination_by path.length
decreasing_by
  · exact Nat.lt_succ_self _
  · exact dropWhile_lt _h
  · exact dropWhile_lt _h
  · exact Nat.lt_of_le_of_lt (skipSlash_le _) (dropWhile_lt _h)

/-- The component at the start of a `string_view`, and the path behind it. -/
def splitView (path : CStr) : CStr × CStr :=
  match path.idxOf? slash with
  | none => (path, path.drop path.length)
  | some pos => (path.take pos, path.drop (pos + 1))

theorem splitView_lt {path : CStr} (h : path ≠ []) : (splitView path).2.length < path.length := by
  have := List.length_pos_of_ne_nil h
  unfold splitView
  split
  · simpa using this
  · rw [List.length_drop]
    omega

/-- The loop of `get_at(std::string_view)`. -/
def loopView (look : InodeLookup) (path : CStr) (w : Walk) : Option Walk :=
  if _h : path = [] then some w
  else if path.idxOf? slash = some 0 then loopView look (path.drop 1) w
  else
    let name := (splitView path).1
    if name = [dot] then loopView look (splitView path).2 w
    else if name = [dot, dot] then w.up.bind (loopView look (splitView path).2)
    else (w.get look w.current name).bind (loopView look (splitView path).2)
termination_by path.length
decreasing_by
  · rw [List.length_drop]
    exact Nat.sub_lt (List.length_pos_of_ne_nil _h) Nat.one_pos
  · exact splitView_lt _h
  · exact splitView_lt _h
  · exact splitView_lt _h

end Walk

/-- `dentry_cache::get_at(const char*)`; `none` if null is dereferenced. -/
def DentryCache.getAt (look : InodeLookup) (c : DentryCache) (current : Option DentryPtr)
    (path : CStr) : Option Walk :=
  if path.head? = some slash then
    (Walk.get look none [] ⟨current, c, []⟩).bind (Walk.loop look path.tail)
  else Walk.loop look path ⟨current, c, []⟩

/-- `dentry_cache::get_at(std::string_view)`. -/
def DentryCache.getAtView (look : InodeLookup) (c : DentryCache) (current : Option DentryPtr)
    (path : CStr) : Option Walk :=
  if path.head? = some slash then
    (Walk.get look none [] ⟨current, c, []⟩).bind (Walk.loopView look (path.drop 1))
  else Walk.loopView look path ⟨current, c, []⟩

/-! ## The fold over the components -/

/-- The components of a path that are not empty. -/
def components (path : CStr) : List CStr := (path.splitOn slash).filter (· ≠ [])

/-- `.` keeps the dentry, `..` goes to its parent if it has one, and any other component is looked
up. -/
def Walk.component (look : InodeLookup) (w : Walk) (name : CStr) : Option Walk :=
  if name = [dot] then some w
  else if name = [dot, dot] then w.up
  else w.get look w.current name

/-- What `get_at` should do: the walk along the components, from the root for a path that begins
with a slash. -/
def DentryCache.resolve (look : InodeLookup) (c : DentryCache) (current : Option DentryPtr)
    (path : CStr) : Option Walk :=
  (if path.head? = some slash then Walk.get look none [] ⟨current, c, []⟩
    else some ⟨current, c, []⟩).bind fun w => (components path).foldlM (Walk.component look) w

variable {look : InodeLookup} {c : DentryCache} {current : Option DentryPtr} {path name : CStr}
  {w : Walk}

theorem components_nil : components [] = [] := rfl

theorem components_slash : components (slash :: path) = components path := by
  rw [components, ← List.nil_append (slash :: path),
    List.splitOn_append_cons_self_of_not_mem List.not_mem_nil]
  rfl

theorem components_name (hne : name ≠ []) (hname : slash ∉ name) :
    components name = [name] := by
  rw [components, List.splitOn_eq_singleton hname]
  simp [hne]

theorem components_append (hne : name ≠ []) (hname : slash ∉ name) :
    components (name ++ slash :: path) = name :: components path := by
  rw [components, List.splitOn_append_cons_self_of_not_mem hname]
  simp [hne, components]

/-- A component, and what is behind it. -/
theorem components_split {rest : CStr} (hne : name ≠ []) (hname : slash ∉ name)
    (hrest : rest = [] ∨ rest.head? = some slash) :
    components (name ++ rest) = name :: components rest := by
  rcases hrest with rfl | hrest
  · rw [List.append_nil, components_name hne hname, components_nil]
  · obtain ⟨tail, rfl⟩ := List.head?_eq_some_iff.mp hrest
    rw [components_append hne hname, components_slash]

theorem components_skipSlash : components (Walk.skipSlash path) = components path := by
  unfold Walk.skipSlash
  split
  · next h =>
    obtain ⟨tail, rfl⟩ := List.head?_eq_some_iff.mp h
    exact components_slash.symm
  · rfl

theorem mem_takeWhile_inName {b : UInt8} (h : b ∈ path.takeWhile Walk.inName) : b ≠ slash := by
  have := List.mem_takeWhile_imp h
  simp only [Walk.inName, decide_eq_true_eq] at this
  exact this.1

/-- The component ends at a slash or at the end of the path. -/
theorem dropWhile_inName (hnul : 0 ∉ path) : path.dropWhile Walk.inName = [] ∨
    (path.dropWhile Walk.inName).head? = some slash := by
  rcases hd : path.dropWhile Walk.inName with _ | ⟨b, rest⟩
  · exact Or.inl rfl
  · have hne : path.dropWhile Walk.inName ≠ [] := by
      rw [hd]
      simp
    have hb := List.head_dropWhile_not Walk.inName hne
    have hmem : b ∈ path := by
      have := (List.dropWhile_sublist Walk.inName (l := path)).subset (a := b)
      exact this (by rw [hd]; simp)
    have hb0 : b ≠ 0 := fun h => hnul (h ▸ hmem)
    simp only [hd, List.head_cons, Walk.inName, decide_eq_false_iff_not, not_and_or, not_not] at hb
    rcases hb with rfl | rfl
    · exact Or.inr rfl
    · exact absurd rfl hb0

/-- The next component of a string. -/
theorem components_takeWhile (hnul : 0 ∉ path) (hne : path.takeWhile Walk.inName ≠ []) :
    components path = path.takeWhile Walk.inName :: components (path.dropWhile Walk.inName) := by
  conv_lhs => rw [← List.takeWhile_append_dropWhile (p := Walk.inName) (l := path)]
  exact components_split hne (fun hm => mem_takeWhile_inName hm rfl) (dropWhile_inName hnul)

theorem not_mem_dropWhile (hnul : 0 ∉ path) : 0 ∉ path.dropWhile Walk.inName := fun hm =>
  hnul ((List.dropWhile_sublist Walk.inName).subset hm)

theorem not_mem_skipSlash (hnul : 0 ∉ path) : 0 ∉ Walk.skipSlash path := by
  unfold Walk.skipSlash
  split
  · exact fun hm => hnul (List.mem_of_mem_tail hm)
  · exact hnul

/-- What is done with one component. -/
theorem foldlM_component (name : CStr) (rest : List CStr) (w : Walk) :
    (name :: rest).foldlM (Walk.component look) w =
      if name = [dot] then rest.foldlM (Walk.component look) w
      else if name = [dot, dot] then w.up.bind fun w => rest.foldlM (Walk.component look) w
      else (w.get look w.current name).bind fun w => rest.foldlM (Walk.component look) w := by
  rw [List.foldlM_cons, Walk.component]
  split
  · rfl
  · split
    · rfl
    · rfl

theorem loop_eq (path : CStr) (w : Walk) (hnul : 0 ∉ path) :
    Walk.loop look path w = (components path).foldlM (Walk.component look) w := by
  fun_induction Walk.loop look path w with
  | case1 w => rfl
  | case2 w rest => exact absurd List.mem_cons_self hnul
  | case3 w c rest hc h ih =>
    -- no name before the next slash
    have hslash : c = slash := by
      by_contra hne
      rw [List.takeWhile_cons_of_pos (by simp [Walk.inName, hne, hc])] at h
      cases h
    subst hslash
    rw [components_slash]
    exact ih fun hm => hnul (List.mem_cons_of_mem _ hm)
  | case4 w c rest hc h name hname ih =>
    rw [components_takeWhile hnul h, foldlM_component, if_pos hname]
    exact ih (not_mem_dropWhile hnul)
  | case5 w c rest hc h name hname hdots ih =>
    rw [components_takeWhile hnul h, foldlM_component, if_neg hname, if_pos hdots]
    exact congrArg w.up.bind (funext fun w => ih w (not_mem_dropWhile hnul))
  | case6 w c rest hc h name hname hdots ih =>
    rw [components_takeWhile hnul h, foldlM_component, if_neg hname, if_neg hdots]
    refine congrArg (Option.bind _) (funext fun w => ?_)
    rw [ih w (not_mem_skipSlash (not_mem_dropWhile hnul)), components_skipSlash]

theorem idxOf?_eq_zero (h : path.idxOf? slash = some 0) : path.head? = some slash := by
  cases path with
  | nil => cases h
  | cons c rest =>
    rw [List.idxOf?_cons] at h
    split at h
    · next hc => simpa using hc
    · obtain ⟨n, -, hn⟩ := Option.map_eq_some_iff.mp h
      cases hn

/-- The next component of a `string_view`. -/
theorem components_splitView (hne : path ≠ []) (h : path.idxOf? slash ≠ some 0) :
    components path = (Walk.splitView path).1 :: components (Walk.splitView path).2 := by
  unfold Walk.splitView
  split
  · next hnone =>
    rw [List.drop_length, components_nil, components_name hne (List.idxOf?_eq_none_iff.mp hnone)]
  · next pos hpos =>
    obtain ⟨hlt, hslash, hfirst⟩ := List.idxOf?_eq_some_iff.mp hpos
    have hsplit : path = path.take pos ++ slash :: path.drop (pos + 1) := by
      rw [← hslash, ← List.drop_eq_getElem_cons hlt, List.take_append_drop]
    have hname : path.take pos ≠ [] := by
      intro hnil
      have hzero : pos = 0 := (List.take_eq_nil_iff.mp hnil).resolve_right hne
      exact h (hzero ▸ hpos)
    have hnot : slash ∉ path.take pos := by
      intro hm
      obtain ⟨j, hj, he⟩ := List.mem_take_iff_getElem.mp hm
      exact hfirst j (Nat.lt_of_lt_of_le hj (Nat.min_le_left _ _)) he
    conv_lhs => rw [hsplit]
    exact components_append hname hnot

theorem loopView_eq (path : CStr) (w : Walk) :
    Walk.loopView look path w = (components path).foldlM (Walk.component look) w := by
  fun_induction Walk.loopView look path w with
  | case1 w => rfl
  | case2 path w hne h ih =>
    obtain ⟨tail, rfl⟩ := List.head?_eq_some_iff.mp (idxOf?_eq_zero h)
    rw [components_slash]
    exact ih
  | case3 path w hne h name hname ih =>
    rw [components_splitView hne h, foldlM_component, if_pos hname]
    exact ih
  | case4 path w hne h name hname hdots ih =>
    rw [components_splitView hne h, foldlM_component, if_neg hname, if_pos hdots]
    exact congrArg w.up.bind (funext fun w => ih w)
  | case5 path w hne h name hname hdots ih =>
    rw [components_splitView hne h, foldlM_component, if_neg hname, if_neg hdots]
    exact congrArg (Option.bind _) (funext fun w => ih w)

theorem getAt_eq_resolve (hnul : 0 ∉ path) : c.getAt look current path =
    c.resolve look current path := by
  unfold DentryCache.getAt DentryCache.resolve
  split
  · next h =>
    obtain ⟨tail, rfl⟩ := List.head?_eq_some_iff.mp h
    refine congrArg (Option.bind _) (funext fun w => ?_)
    rw [List.tail_cons, components_slash, loop_eq _ _ fun hm => hnul (List.mem_cons_of_mem _ hm)]
  · exact loop_eq _ _ hnul

theorem getAtView_eq_resolve : c.getAtView look current path = c.resolve look current path := by
  unfold DentryCache.getAtView DentryCache.resolve
  split
  · next h =>
    obtain ⟨tail, rfl⟩ := List.head?_eq_some_iff.mp h
    refine congrArg (Option.bind _) (funext fun w => ?_)
    rw [List.drop_succ_cons, List.drop_zero, components_slash, loopView_eq]
  · exact loopView_eq _ _

/-- The two overloads make the same calls and return the same dentry, that of the fold. -/
theorem get_at_agree (look : InodeLookup) (c : DentryCache) (current : Option DentryPtr)
    (path : CStr) (hnul : 0 ∉ path) :
    c.getAt look current path = c.resolve look current path ∧
      c.getAtView look current path = c.resolve look current path :=
  ⟨getAt_eq_resolve hnul, getAtView_eq_resolve⟩

/-- `"/./../a//"` after mounting, with a file `"a"` in the root directory. -/
theorem get_at_agree_sample :
    ((DentryCache.empty.create none [] (some 1)).2.getAt (fun _ _ => (0, some 2)) none
      [47, 46, 47, 46, 46, 47, 97, 47, 47]).map (fun w => (w.current, w.gets)) =
        some (some 1, [(none, []), (some 0, [97])]) ∧
    ((DentryCache.empty.create none [] (some 1)).2.getAtView (fun _ _ => (0, some 2)) none
      [47, 46, 47, 46, 46, 47, 97, 47, 47]).map (fun w => (w.current, w.gets)) =
        some (some 1, [(none, []), (some 0, [97])]) := by
  obtain ⟨h, hview⟩ := get_at_agree (fun _ _ => (0, some 2))
    (DentryCache.empty.create none [] (some 1)).2 none
    [47, 46, 47, 46, 46, 47, 97, 47, 47] (by decide)
  rw [h, hview, and_self]
  decide +kernel

end CoroCore
