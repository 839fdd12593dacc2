import CoroCore.Lib.StableOrder
import CoroCore.Utils.LinkedListRun

/-!
# Timed sleepers: `cpu::sleep` and `cpu::wake_up` in `arch/cpu.cc`

A cpu keeps its sleepers in a linked list, with the time of each. `__push_sleeper` looks for the
first one that wakes later, `wake_up` takes sleepers off the front.

`sleepers_due`: after any calls the list holds the sleepers that were not woken, sorted by time and
those of one time in the order of their calls, and `wake_up` wakes exactly the ones that are due.
-/

namespace CoroCore

open Lib LinkedList

namespace Sleepers

variable {N S : Type*}

/-- `sleep_info`: `wakeup_time` and `sleeper`. -/
abbrev Info (S : Type*) := Nat × S

/-- The list `sleepers` of a cpu. -/
abbrev Cpu (N S : Type*) := Sys N (Info S) Unit

/-- The loop of `__push_sleeper`, from the iterator `n` on. -/
def insertPos (m : Mem N (Info S)) [DecidableEq N] (tail : N) (time : Nat) : Nat → N → Option N
  | 0, _ => none
  | fuel + 1, n =>
    if n = tail then some tail
    else if time < (m.data n).1 then some n
    else insertPos m tail time fuel (m.next n)

variable [DecidableEq N]

/-- `__push_sleeper`, with fuel for its loop and what `operator new` gives. -/
def pushSleeper (fuel : Nat) (x : Info S) (fresh : Option N) (s : Cpu N S) : Option (Cpu N S) :=
  (insertPos s.mem (s.lists ()).tail x.1 fuel (s.mem.next (s.lists ()).head)).bind fun pos =>
    insertBefore () pos x fresh s

/-- `sleep(ticks, sleeper)` at the time `now`. -/
def sleep (fuel now ticks : Nat) (sleeper : S) (fresh : Option N) (s : Cpu N S) :
    Option (Cpu N S) :=
  pushSleeper fuel ((now + ticks) % 2 ^ 64, sleeper) fresh s

/-- The loop of `wake_up`, with the sleepers that it woke. -/
def wakeUp (now : Nat) : Nat → Cpu N S → List S → Option (Cpu N S × List S)
  | 0, _, _ => none
  | fuel + 1, s, woken =>
    let first := s.mem.next (s.lists ()).head
    if first = (s.lists ()).tail then some (s, woken)
    else if now < (s.mem.data first).1 then some (s, woken)
    else wakeUp now fuel (popFront () s) (woken ++ [(s.mem.data first).2])

/-- A run, with the sleepers that are registered and not woken, in the order of their calls. -/
inductive Run : Cpu N S → List (Info S) → Prop
  | init {s : Cpu N S} : Initial s → Run s []
  | push {s s' : Cpu N S} {p : List (Info S)} {x : Info S} {fuel : Nat} {fresh : Option N} :
      Run s p → s.CanNew fresh → pushSleeper fuel x fresh s = some s' → Run s' (p ++ [x])
  | wakeUp {s s' : Cpu N S} {p : List (Info S)} {now fuel : Nat} {woken : List S} : Run s p →
      wakeUp now fuel s [] = some (s', woken) → Run s' (p.filter (now < ·.1))

/-- The list holds `l`, from the head to the tail. -/
def Holds (s : Cpu N S) (l : List (Info S)) : Prop :=
  ∃ a : List (N × Info S), a.map Prod.snd = l ∧ Refines s fun _ => a

/-- What `wake_up` at `now` has to do when the list holds `l`. -/
structure Due (s : Cpu N S) (p l : List (Info S)) (now : Nat) : Prop where
  ends : ∃ fuel r, wakeUp now fuel s [] = some r
  woken : ∀ fuel s' w, wakeUp now fuel s [] = some (s', w) →
    w = (l.filter (·.1 ≤ now)).map Prod.snd ∧ Holds s' (l.filter (now < ·.1))
  exact : StableSort Prod.fst (p.filter (·.1 ≤ now)) (l.filter (·.1 ≤ now))

variable {s s' : Cpu N S} {a : List (N × Info S)} {m : Mem N (Info S)} {p l : List (Info S)}
  {x : Info S} {fresh : Option N} {tail n : N} {time now fuel : Nat} {w woken : List S}

/-! ## Registering -/

/-- The first node with a later time, or the tail. -/
theorem insertPos_chain (hdata : ∀ e ∈ a, m.data e.1 = e.2)
    (h : Chain m.next tail n (nodes a)) : insertPos m tail time fuel n =
      if (a.takeWhile (·.2.1 ≤ time)).length < fuel then
        some ((nodes (a.dropWhile (·.2.1 ≤ time))).headD tail)
      else none := by
  induction fuel generalizing a n with
  | zero => rfl
  | succ fuel ih =>
    cases a with
    | nil => rw [insertPos, if_pos (chain_nil.mp h)]; rfl
    | cons e a =>
      obtain ⟨rfl, hne, ha⟩ := h
      have he := hdata e List.mem_cons_self
      rw [insertPos, if_neg hne, he]
      by_cases ht : time < e.2.1
      · simp [ht, not_le.mpr ht, nodes_cons]
      · rw [if_neg ht, ih (fun e' he' => hdata e' (List.mem_cons_of_mem _ he')) ha]
        simp [not_lt.mp ht]

theorem update_unit {B : Type*} (b c : B) : Function.update (fun _ : Unit => b) () c = fun _ => c :=
  funext fun _ => Function.update_self ..

/-- The new sleeper is behind those that wake at the same time or earlier. -/
theorem pushSleeper_rep (h : Rep s fun _ => a) (hnew : s.CanNew fresh)
    (hpush : pushSleeper fuel x fresh s = some s') : ∃ n, Rep s' fun _ =>
      a.takeWhile (·.2.1 ≤ x.1) ++ (n, x) :: a.dropWhile (·.2.1 ≤ x.1) := by
  have hgood := h.good ()
  have hchain := hgood.links.chain_next hgood.ends_notMem.2
  obtain ⟨pos, hpos, hins⟩ := Option.bind_eq_some_iff.mp hpush
  rw [insertPos_chain hgood.data hchain] at hpos
  split at hpos
  · obtain rfl := Option.some.inj hpos
    obtain ⟨n, halloc⟩ : ∃ n, (allocNode () fresh s).1 = some n := by
      unfold insertBefore at hins
      split at hins
      · simp at hins
      split at hins
      · simp at hins
      · rename_i n s1 heq
        exact ⟨n, by rw [heq]⟩
    refine ⟨n, ?_⟩
    have hsplit := List.takeWhile_append_dropWhile (p := (·.2.1 ≤ x.1)) (l := a)
    cases hdrop : a.dropWhile (·.2.1 ≤ x.1) with
    | nil =>
      rw [hdrop] at hins hsplit
      have hrep := h.insertBefore hnew (.inr rfl) halloc hins
      rw [update_unit, seqBefore_of_notMem hgood.ends_notMem.2] at hrep
      rw [List.append_nil] at hsplit
      rwa [hsplit]
    | cons e v =>
      rw [hdrop] at hins hsplit
      have hmem : e.1 ∈ nodes a := by
        rw [← hsplit, nodes_append]
        exact List.mem_append_right _ List.mem_cons_self
      have hrep := h.insertBefore hnew (.inl (h.at_iff.mpr hmem)) halloc hins
      have hnodup := hgood.nodup_nodes
      rw [← hsplit, nodes_append, nodes_cons, List.nodup_middle, List.nodup_cons] at hnodup
      have hu : e.1 ∉ nodes (a.takeWhile (·.2.1 ≤ x.1)) :=
        fun hu => hnodup.1 (List.mem_append_left _ hu)
      rw [update_unit, ← hsplit] at hrep
      rwa [show e = (e.1, e.2) from rfl, seqBefore_split hu] at hrep
  · simp at hpos

theorem pushSleeper_ends (h : Rep s fun _ => a) (halloc : (allocNode () fresh s).1 = some n) :
    ∃ fuel s', pushSleeper fuel x fresh s = some s' := by
  have hgood := h.good ()
  have hchain := hgood.links.chain_next hgood.ends_notMem.2
  have hpos : insertPos s.mem (s.lists ()).tail x.1 (a.length + 1)
      (s.mem.next (s.lists ()).head) =
        some ((nodes (a.dropWhile (·.2.1 ≤ x.1))).headD (s.lists ()).tail) := by
    rw [insertPos_chain hgood.data hchain]
    exact if_pos (Nat.lt_succ_of_le (List.takeWhile_sublist _).length_le)
  have hat : s.At () ((nodes (a.dropWhile (·.2.1 ≤ x.1))).headD (s.lists ()).tail) ∨
      (nodes (a.dropWhile (·.2.1 ≤ x.1))).headD (s.lists ()).tail = (s.lists ()).tail := by
    cases hdrop : a.dropWhile (·.2.1 ≤ x.1) with
    | nil => exact .inr rfl
    | cons e v =>
      refine .inl (h.at_iff.mpr ?_)
      exact List.mem_map_of_mem ((List.dropWhile_sublist _).subset (hdrop ▸ List.mem_cons_self))
  obtain ⟨s', hs'⟩ := h.proceeds.insertBefore () _ x fresh n hat halloc
  exact ⟨a.length + 1, s', by rw [pushSleeper, hpos]; exact hs'⟩

/-! ## Waking up -/

/-- The sleepers that are due are woken in order and taken off the list. -/
theorem wakeUp_rep (h : Rep s fun _ => a) (hwake : wakeUp now fuel s woken = some (s', w)) :
    w = woken ++ (a.takeWhile (·.2.1 ≤ now)).map (·.2.2) ∧
      Rep s' fun _ => a.dropWhile (·.2.1 ≤ now) := by
  induction fuel generalizing s a woken with
  | zero => simp [wakeUp] at hwake
  | succ fuel ih =>
    have hgood := h.good ()
    rw [wakeUp] at hwake
    cases a with
    | nil =>
      have hnext := (hgood.adjacent (u := []) (v := []) (U := []) rfl rfl).1
      rw [if_pos hnext] at hwake
      obtain ⟨rfl, rfl⟩ := Prod.mk.inj (Option.some.inj hwake)
      exact ⟨(List.append_nil _).symm, h⟩
    | cons e a =>
      have hnext : s.mem.next (s.lists ()).head = e.1 :=
        (hgood.adjacent (u := []) (v := e :: a) (U := []) rfl rfl).1
      have hne : e.1 ≠ (s.lists ()).tail := fun he =>
        hgood.ends_notMem.2 (he ▸ List.mem_cons_self)
      simp only [hnext, if_neg hne, hgood.data e List.mem_cons_self] at hwake
      by_cases hlt : now < e.2.1
      · rw [if_pos hlt] at hwake
        obtain ⟨rfl, rfl⟩ := Prod.mk.inj (Option.some.inj hwake)
        simp [not_le.mpr hlt, h]
      · rw [if_neg hlt] at hwake
        have hpop := h.popFront (i := ())
        rw [update_unit, List.tail_cons] at hpop
        obtain ⟨rfl, hrep⟩ := ih hpop hwake
        simp [not_lt.mp hlt, hrep]

theorem wakeUp_ends (h : Rep s fun _ => a) (hfuel : a.length < fuel) (woken : List S) :
    ∃ r, wakeUp now fuel s woken = some r := by
  induction fuel generalizing s a woken with
  | zero => simp at hfuel
  | succ fuel ih =>
    have hgood := h.good ()
    rw [wakeUp]
    cases a with
    | nil =>
      have hnext := (hgood.adjacent (u := []) (v := []) (U := []) rfl rfl).1
      exact ⟨_, if_pos hnext⟩
    | cons e a =>
      have hpop := h.popFront (i := ())
      rw [update_unit] at hpop
      obtain ⟨r, hr⟩ := ih hpop (Nat.lt_of_succ_lt_succ hfuel)
        (woken ++ [(s.mem.data (s.mem.next (s.lists ()).head)).2])
      split
      · exact ⟨_, rfl⟩
      split
      · exact ⟨_, rfl⟩
      · exact ⟨r, hr⟩

/-! ## Runs -/

/-- The list holds the sleepers that were not woken, sorted. -/
theorem Run.sorted (h : Run s p) :
    ∃ a, (Rep s fun _ => a) ∧ StableSort Prod.fst p (a.map Prod.snd) := by
  induction h with
  | init h => exact ⟨[], h.rep, StableSort.nil⟩
  | push _ hnew hpush ih =>
    obtain ⟨a, hrep, hsort⟩ := ih
    obtain ⟨n, hrep'⟩ := pushSleeper_rep hrep hnew hpush
    refine ⟨_, hrep', ?_⟩
    have hins := hsort.insert ‹_›
    rw [List.takeWhile_map, List.dropWhile_map] at hins
    rw [List.map_append, List.map_cons]
    exact hins
  | @wakeUp _ _ _ now _ _ _ hwake ih =>
    obtain ⟨a, hrep, hsort⟩ := ih
    refine ⟨_, (wakeUp_rep hrep hwake).2, ?_⟩
    have hdrop := (hsort.split now).2
    rw [List.dropWhile_map] at hdrop
    exact hdrop

/-- The list is sorted, with sleepers of one time in the order of their calls, and `wake_up` wakes
the sleepers that are due, once each and in the order of the list, and keeps the others. -/
theorem sleepers_due (h : Run s p) :
    (∃ l, Holds s l ∧ StableSort Prod.fst p l ∧ ∀ now, Due s p l now) ∧
      ∀ x fresh n, (allocNode () fresh s).1 = some n →
        ∃ fuel s', pushSleeper fuel x fresh s = some s' := by
  obtain ⟨a, hrep, hsort⟩ := h.sorted
  refine ⟨⟨a.map Prod.snd, ⟨a, rfl, hrep.refines⟩, hsort, fun now => ⟨?_, ?_, hsort.filter _⟩⟩,
    fun x fresh n halloc => pushSleeper_ends hrep halloc⟩
  · exact ⟨a.length + 1, wakeUp_ends hrep (Nat.lt_succ_self _) []⟩
  · intro fuel s' w hwake
    obtain ⟨rfl, hrep'⟩ := wakeUp_rep hrep hwake
    obtain ⟨ht, hd⟩ := takeWhile_eq_filter (k := now) hsort.sorted
    rw [← ht, ← hd, List.takeWhile_map, List.dropWhile_map, List.map_map]
    exact ⟨List.nil_append _, _, rfl, hrep'.refines⟩

/-- A new cpu, with the sentinels 0 and 1. -/
def newCpu : Cpu Nat Char :=
  ⟨⟨fun _ => 1, fun _ => 0, fun _ => (0, 'a')⟩, fun _ => ⟨0, 1, 0, []⟩, ∅⟩

/-- Registered for 5 and for 3, and `wake_up` at 4. -/
theorem sleepers_due_two : ∃ s : Cpu Nat Char, ∃ l, Run s [(5, 'a')] ∧ Holds s l ∧
    StableSort Prod.fst [(5, 'a')] l ∧ ∀ now, Due s [(5, 'a')] l now := by
  have hinit : Initial newCpu :=
    ⟨fun _ => ⟨rfl, rfl⟩, fun _ => rfl, fun _ => rfl, rfl, fun () () => by decide⟩
  have hnew : newCpu.CanNew (some 2) := by
    intro n hn
    obtain rfl := Option.some.inj hn
    exact ⟨by decide, fun () => by decide, by decide⟩
  obtain ⟨s1, h1⟩ : ∃ s1, pushSleeper 1 (5, 'a') (some 2) newCpu = some s1 := ⟨_, rfl⟩
  have hnew' : s1.CanNew (some 3) := by
    obtain rfl := Option.some.inj h1
    intro n hn
    obtain rfl := Option.some.inj hn
    exact ⟨by decide, fun () => by decide, by decide⟩
  obtain ⟨s2, h2⟩ : ∃ s2, pushSleeper 1 (3, 'b') (some 3) s1 = some s2 := by
    obtain rfl := Option.some.inj h1
    exact ⟨_, rfl⟩
  obtain ⟨s3, w, h3⟩ : ∃ s3 w, wakeUp 4 2 s2 [] = some (s3, w) := by
    obtain rfl := Option.some.inj h1
    obtain rfl := Option.some.inj h2
    exact ⟨_, _, rfl⟩
  have hrun := (((Run.init hinit).push hnew h1).push hnew' h2).wakeUp h3
  obtain ⟨⟨l, hl⟩, -⟩ := sleepers_due hrun
  exact ⟨s3, l, hrun, hl⟩

end Sleepers

end CoroCore
