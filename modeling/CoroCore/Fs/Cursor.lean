import CoroCore.Atomic.Mutex
import Mathlib.Algebra.BigOperators.Group.List.Basic
import Mathlib.Algebra.Order.BigOperators.Group.List
import Mathlib.Algebra.GroupWithZero.Nat

/-!
# The cursor of a file: `simple_file::read` and `write` in `fs/file.h`

Both take the lock of the inode, pass the cursor to the inode's operation, give the lock back and
then add what the operation returned to the cursor, which is a read and a write of it.

`cursor_iff`: the calls use consecutive ranges and move the cursor by what they return if and only
if no operation that moves bytes is made while another call has not moved the cursor yet.
-/

namespace CoroCore

open Lib

namespace Cursor

/-- `read` or `write` of `size` bytes. -/
inductive Call
  | read (size : Nat)
  | write (size : Nat)

def Call.size : Call → Nat
  | read size => size
  | write size => size

/-- Where a task is: in `coro_mutex::lock`, between the lock and the operation, before the read of
the cursor in `offset += ret`, or before the write. -/
inductive Pc
  | idle
  | waiting (c : Call)
  | locked (c : Call)
  | moving (n : Nat)
  | loaded (offset n : Nat)

/-- The file with the mutex of its inode, its tasks, those in a run queue, and the ranges of bytes
that were used, with start and length. -/
structure Sys where
  offset : Nat
  mutex : Mutex
  pc : Nat → Pc
  ready : List Nat
  used : List (Nat × Nat)

inductive Act
  | call (t : Nat) (c : Call)
  | resume (t : Nat)
  | op (t : Nat) (ret : Int)
  | load (t : Nat)
  | store (t : Nat)

/-- A round of the loop of `coro_mutex::lock`. -/
def attempt (t : Nat) (c : Call) (s : Sys) : Sys :=
  { s with
    mutex := (s.mutex.tryLock t).2
    pc := Function.update s.pc t (if (s.mutex.tryLock t).1 then .locked c else .waiting c) }

/-- The operation of the inode, which returns `ret`, and `unlock`. -/
def operate (t : Nat) (ret : Int) (s : Sys) : Sys :=
  { s with
    mutex := s.mutex.unlock.2
    ready := s.ready ++ s.mutex.unlock.1.toList
    pc := Function.update s.pc t (if 0 < ret then .moving ret.toNat else .idle)
    used := if 0 < ret then s.used ++ [(s.offset, ret.toNat)] else s.used }

/-- The steps of the tasks, in any order. -/
inductive Step : Sys → Act → Sys → Prop
  | call {s : Sys} {t : Nat} {c : Call} : s.pc t = .idle → Step s (.call t c) (attempt t c s)
  | resume {s : Sys} {t : Nat} {c : Call} : t ∈ s.ready → s.pc t = .waiting c →
      Step s (.resume t) (attempt t c { s with ready := s.ready.erase t })
  | op {s : Sys} {t : Nat} {c : Call} {ret : Int} : s.pc t = .locked c → ret ≤ c.size →
      Step s (.op t ret) (operate t ret s)
  | load {s : Sys} {t n : Nat} : s.pc t = .moving n →
      Step s (.load t) { s with pc := Function.update s.pc t (.loaded s.offset n) }
  | store {s : Sys} {t n v : Nat} : s.pc t = .loaded v n →
      Step s (.store t)
        { s with offset := (v + n) % 2 ^ 64, pc := Function.update s.pc t .idle }

def initial (offset : Nat) : Sys := ⟨offset, ⟨false, []⟩, fun _ => .idle, [], []⟩

/-! ## What a cursor has to do -/

/-- The ranges follow one another from `c` on, in 64 bits. -/
def Consecutive : Nat → List (Nat × Nat) → Prop
  | _, [] => True
  | c, (start, n) :: l => start = c ∧ Consecutive ((c + n) % 2 ^ 64) l

/-- The number of bytes in the ranges. -/
def total (l : List (Nat × Nat)) : Nat := (l.map Prod.snd).sum

/-- In some order the ranges follow one another and do not overlap, and when all calls have ended
the cursor has moved by the bytes in them. -/
structure Sequential (c : Nat) (s : Sys) : Prop where
  ranges : ∃ l, l.Perm s.used ∧ Consecutive c l ∧
    (c + total l < 2 ^ 64 → l.Pairwise fun x y => x.1 + x.2 ≤ y.1)
  moved : (∀ t, s.pc t = .idle) → s.offset = (c + total s.used) % 2 ^ 64

/-- The call has used its range and not moved the cursor yet. -/
def Pc.Pending : Pc → Prop
  | .moving _ => True
  | .loaded _ _ => True
  | _ => False

/-- No bytes are moved while a call is pending. -/
def Alone (s : Sys) : Act → Prop
  | .op _ ret => 0 < ret → ∀ u, ¬ (s.pc u).Pending
  | _ => True

variable {s s' : Sys} {t c : Nat} {a : Act} {ls : List Act} {l l' : List (Nat × Nat)}

/-! ## Ranges -/

theorem total_append : total (l ++ l') = total l + total l' := by
  rw [total, total, total, List.map_append, List.sum_append]

theorem total_perm (h : l.Perm l') : total l = total l' := (h.map Prod.snd).sum_eq

theorem total_cons {x : Nat × Nat} : total (x :: l) = x.2 + total l := List.sum_cons

theorem Consecutive.snoc {start n : Nat} : ∀ {c : Nat} {l : List (Nat × Nat)}, Consecutive c l →
    start = (c + total l) % 2 ^ 64 → c < 2 ^ 64 → Consecutive c (l ++ [(start, n)])
  | c, [], _, hs, hc => ⟨hs.trans (Nat.mod_eq_of_lt hc), True.intro⟩
  | c, (b, k) :: l, h, hs, _ => by
    refine ⟨h.1, h.2.snoc ?_ (Nat.mod_lt _ (by decide))⟩
    rw [hs, Nat.mod_add_mod, total_cons, Nat.add_assoc]

/-- Ranges that do not wrap start at the cursor or later, and do not overlap. -/
theorem Consecutive.pairwise : ∀ {c : Nat} {l : List (Nat × Nat)}, Consecutive c l →
    c + total l < 2 ^ 64 → (∀ x ∈ l, c ≤ x.1) ∧ l.Pairwise fun x y => x.1 + x.2 ≤ y.1
  | c, [], _, _ => ⟨nofun, List.Pairwise.nil⟩
  | c, (b, k) :: l, ⟨hb, h⟩, hlt => by
    rw [total_cons, ← Nat.add_assoc] at hlt
    rw [Nat.mod_eq_of_lt (Nat.lt_of_le_of_lt (Nat.le_add_right _ _) hlt)] at h
    obtain ⟨hle, hpair⟩ := h.pairwise hlt
    refine ⟨fun x hx => ?_, List.pairwise_cons.mpr ⟨fun x hx => hb ▸ hle x hx, hpair⟩⟩
    rcases List.mem_cons.mp hx with rfl | hx
    · exact hb.ge
    · exact (Nat.le_add_right c k).trans (hle x hx)

/-! ## Calls one after the other -/

/-- No call is pending, or one is, with the last range. -/
inductive Inv (c : Nat) (s : Sys) : Prop
  | rest (hused : Consecutive c s.used) (hoffset : s.offset = (c + total s.used) % 2 ^ 64)
      (hpc : ∀ u, ¬ (s.pc u).Pending) : Inv c s
  | busy (t n : Nat) (l : List (Nat × Nat)) (hused : s.used = l ++ [(s.offset, n)])
      (hcons : Consecutive c s.used) (hoffset : s.offset = (c + total l) % 2 ^ 64)
      (hpc : s.pc t = .moving n ∨ s.pc t = .loaded s.offset n)
      (hother : ∀ u, u ≠ t → ¬ (s.pc u).Pending) : Inv c s

theorem pending_of_busy {n : Nat} (h : s.pc t = .moving n ∨ s.pc t = .loaded s.offset n) :
    (s.pc t).Pending := by
  rcases h with h | h <;> rw [h] <;> exact True.intro

theorem not_pending_update {pc : Nat → Pc} {q : Pc} {P : Nat → Prop}
    (h : ∀ u, P u → ¬ (pc u).Pending) (hq : ¬ q.Pending) (u : Nat) (hu : P u) :
    ¬ (Function.update pc t q u).Pending := by
  rcases eq_or_ne u t with rfl | hne
  · rwa [Function.update_self]
  · rw [Function.update_of_ne hne]
    exact h u hu

/-- A task that is not pending does something else. -/
theorem Inv.other {q : Pc} (h : Inv c s) (hp : ¬ (s.pc t).Pending) (hq : ¬ q.Pending)
    (hoffset : s'.offset = s.offset) (hused : s'.used = s.used)
    (hpc : s'.pc = Function.update s.pc t q) : Inv c s' := by
  cases h with
  | rest hcons hoff hall =>
    refine .rest (hused ▸ hcons) (by rw [hoffset, hused]; exact hoff) fun u => ?_
    rw [hpc]
    exact not_pending_update (P := fun _ => True) (fun u _ => hall u) hq u True.intro
  | busy v n l hl hcons hoff hv hother =>
    have hvt : v ≠ t := by
      rintro rfl
      exact hp (pending_of_busy hv)
    refine .busy v n l (by rw [hused, hoffset]; exact hl) (hused ▸ hcons) (hoffset.trans hoff) ?_
      fun u hu => ?_
    · rw [hpc, Function.update_of_ne hvt, hoffset]
      exact hv
    · rw [hpc]
      exact not_pending_update (P := (· ≠ v)) hother hq u hu

theorem Inv.attempt {k : Call} (h : Inv c s) (hp : ¬ (s.pc t).Pending)
    (hoffset : s'.offset = s.offset) (hused : s'.used = s.used) (hpc : s'.pc = s.pc) :
    Inv c (attempt t k s') := by
  refine h.other (t := t) (q := if (s'.mutex.tryLock t).1 then .locked k else .waiting k) hp ?_
    hoffset hused ?_
  · split <;> exact id
  · rw [← hpc]
    rfl

theorem Inv.step (hc : c < 2 ^ 64) (h : Inv c s) (hok : Alone s a) (hstep : Step s a s') :
    Inv c s' := by
  cases hstep with
  | @call t k hidle => exact h.attempt (by rw [hidle]; exact id) rfl rfl rfl
  | @resume t k _ hwait => exact h.attempt (by rw [hwait]; exact id) rfl rfl rfl
  | @op t k ret hlocked _ =>
    rcases le_or_gt ret 0 with hret | hret
    · refine h.other (t := t) (q := .idle) (by rw [hlocked]; exact id) id rfl ?_ ?_
      · exact if_neg hret.not_gt
      · exact congrArg (Function.update s.pc t) (if_neg hret.not_gt)
    · -- no other call is pending
      cases h with
      | busy v n l _ _ _ hv _ => exact absurd (pending_of_busy hv) (hok hret v)
      | rest hcons hoff hall =>
        have hused : (operate t ret s).used = s.used ++ [(s.offset, ret.toNat)] := if_pos hret
        have hpc : (operate t ret s).pc = Function.update s.pc t (.moving ret.toNat) :=
          congrArg (Function.update s.pc t) (if_pos hret)
        refine .busy t ret.toNat s.used hused ?_ hoff (.inl ?_) fun u hu => ?_
        · rw [hused]
          exact hcons.snoc hoff hc
        · rw [hpc, Function.update_self]
        · rw [hpc, Function.update_of_ne hu]
          exact hall u
  | @load t n hmoving =>
    cases h with
    | rest _ _ hall => exact absurd (by rw [hmoving]; exact True.intro) (hall t)
    | busy v k l hl hcons hoff hv hother =>
      have hvt : t = v := by
        by_contra hne
        exact hother t hne (by rw [hmoving]; exact True.intro)
      subst hvt
      obtain rfl : k = n := by
        rcases hv with hv | hv
        · rw [hmoving] at hv
          cases hv
          rfl
        · rw [hmoving] at hv
          cases hv
      refine .busy t k l hl hcons hoff (.inr (Function.update_self _ _ _)) fun u hu => ?_
      change ¬ (Function.update s.pc t (.loaded s.offset k) u).Pending
      rw [Function.update_of_ne hu]
      exact hother u hu
  | @store t n v hloaded =>
    cases h with
    | rest _ _ hall => exact absurd (by rw [hloaded]; exact True.intro) (hall t)
    | busy w k l hl hcons hoff hv hother =>
      have hwt : t = w := by
        by_contra hne
        exact hother t hne (by rw [hloaded]; exact True.intro)
      subst hwt
      obtain ⟨rfl, rfl⟩ : v = s.offset ∧ n = k := by
        rcases hv with hv | hv
        · rw [hloaded] at hv
          cases hv
        · rw [hloaded] at hv
          cases hv
          exact ⟨rfl, rfl⟩
      refine .rest hcons ?_ fun u => ?_
      · change (s.offset + n) % 2 ^ 64 = (c + total s.used) % 2 ^ 64
        rw [hl, total_append, hoff, Nat.mod_add_mod, Nat.add_assoc]
        rfl
      · rcases eq_or_ne u t with rfl | hne
        · change ¬ (Function.update s.pc u .idle u).Pending
          rw [Function.update_self]
          exact id
        · change ¬ (Function.update s.pc t .idle u).Pending
          rw [Function.update_of_ne hne]
          exact hother u hne

theorem Inv.sequential (h : Inv c s) : Sequential c s := by
  have hranges : ∀ hcons : Consecutive c s.used, ∃ l, l.Perm s.used ∧ Consecutive c l ∧
      (c + total l < 2 ^ 64 → l.Pairwise fun x y => x.1 + x.2 ≤ y.1) := fun hcons =>
    ⟨s.used, .refl _, hcons, fun hlt => (hcons.pairwise hlt).2⟩
  cases h with
  | rest hcons hoff _ => exact ⟨hranges hcons, fun _ => hoff⟩
  | busy t n l _ hcons _ ht _ =>
    refine ⟨hranges hcons, fun hidle => ?_⟩
    have hpending := pending_of_busy ht
    rw [hidle t] at hpending
    exact hpending.elim

/-! ## Calls that overlap -/

/-- Two ranges start at the same byte. -/
def Overlap (l : List (Nat × Nat)) : Prop := ¬ (l.map Prod.fst).Nodup

/-- The ranges that were used are not empty. -/
def NonEmpty (l : List (Nat × Nat)) : Prop := ∀ x ∈ l, 0 < x.2

theorem used_step (hstep : Step s a s') : s'.used = s.used ∨
    ∃ ret : Int, 0 < ret ∧ (∃ t, a = .op t ret) ∧ s'.used = s.used ++ [(s.offset, ret.toNat)] := by
  cases hstep with
  | @op t k ret _ _ =>
    rcases le_or_gt ret 0 with hret | hret
    · exact .inl (if_neg hret.not_gt)
    · exact .inr ⟨ret, hret, ⟨t, rfl⟩, if_pos hret⟩
  | _ => exact .inl rfl

theorem nonEmpty_step (h : NonEmpty s.used) (hstep : Step s a s') : NonEmpty s'.used := by
  rcases used_step hstep with hused | ⟨ret, hret, -, hused⟩
  · rwa [hused]
  · rw [hused]
    intro x hx
    rcases List.mem_append.mp hx with hx | hx
    · exact h x hx
    · rw [List.mem_singleton.mp hx]
      exact Int.lt_toNat.mpr hret

theorem Overlap.step (h : Overlap s.used) (hstep : Step s a s') : Overlap s'.used := by
  rcases used_step hstep with hused | ⟨ret, -, -, hused⟩
  · rwa [hused]
  · rw [hused, Overlap, List.map_append]
    exact fun hn => h hn.of_append_left

/-- A step that is not alone uses a range that starts where that of the pending call does. -/
theorem overlap_of_not_alone (h : Inv c s) (hstep : Step s a s') (hok : ¬ Alone s a) :
    Overlap s'.used := by
  cases hstep with
  | @op t k ret _ _ =>
    obtain ⟨hret, hpending⟩ := Classical.not_imp.mp hok
    cases h with
    | rest _ _ hall => exact absurd hall hpending
    | busy v n l hl _ _ _ _ =>
      have hused : (operate t ret s).used = s.used ++ [(s.offset, ret.toNat)] := if_pos hret
      rw [hused, hl, Overlap, List.map_append, List.nodup_append]
      rintro ⟨-, -, hapart⟩
      exact hapart s.offset (by simp) s.offset (by simp) rfl
  | _ => exact absurd True.intro hok

theorem not_overlap (h : Sequential c s) (hne : NonEmpty s.used) (hlt : c + total s.used < 2 ^ 64) :
    ¬ Overlap s.used := by
  obtain ⟨l, hperm, -, hapart⟩ := h.ranges
  rw [← total_perm hperm] at hlt
  refine not_not_intro ((hperm.map Prod.fst).nodup_iff.mp ?_)
  refine List.pairwise_map.mpr ((hapart hlt).imp_of_mem fun {x y} hx _ hxy heq => ?_)
  have hpos := hne x (hperm.subset hx)
  rw [← heq] at hxy
  exact absurd hxy (Nat.lt_add_of_pos_right hpos).not_ge

/-- In a run whose ranges do not wrap, the calls use consecutive ranges and no update of the cursor
is lost if and only if no operation moves bytes while another call has not moved the cursor yet. -/
theorem cursor_iff (c : Nat) (ls : List Act) (s : Sys) (hc : c < 2 ^ 64)
    (hrun : Run Step (initial c) ls s) :
    (Run (Guarded Step Alone) (initial c) ls s → Sequential c s) ∧
      (c + total s.used < 2 ^ 64 → Sequential c s → Run (Guarded Step Alone) (initial c) ls s) := by
  have hinv : ∀ {ls s}, Run (Guarded Step Alone) (initial c) ls s → Inv c s := fun h =>
    h.invariant (fun _ _ _ hi hs => hi.step hc hs.1 hs.2)
      (.rest True.intro (Nat.mod_eq_of_lt hc).symm fun _ => id)
  refine ⟨fun h => (hinv h).sequential, fun hlt hseq => ?_⟩
  have hne : NonEmpty s.used := hrun.invariant (fun _ _ _ h hs => nonEmpty_step h hs) nofun
  have hcases : ∀ {ls s}, Run Step (initial c) ls s →
      Run (Guarded Step Alone) (initial c) ls s ∨ Overlap s.used := by
    intro ls s h
    induction h with
    | nil => exact .inl (.nil _)
    | @snoc s u ls a _ hs ih =>
      rcases ih with ih | ih
      · by_cases hok : Alone s a
        · exact .inl (.snoc ih ⟨hok, hs⟩)
        · exact .inr (overlap_of_not_alone (hinv ih) hs hok)
      · exact .inr (ih.step hs)
  exact (hcases hrun).resolve_right (not_overlap hseq hne hlt)

/-- Two tasks write a byte each. The second waits for the lock, and gets it after the first has
moved the cursor. -/
def turns : List Act :=
  [.call 0 (.write 1), .call 1 (.write 1), .op 0 1, .load 0, .store 0, .resume 1, .op 1 1, .load 1,
    .store 1]

theorem step_call {u : Nat} {k : Call} (h : s.pc u = .idle) :
    Step s (.call u k) (attempt u k s) := .call h

theorem step_op {u : Nat} {k : Call} (r : Int) (h : s.pc u = .locked k) (hr : r ≤ k.size) :
    Step s (.op u r) (operate u r s) := .op h hr

theorem step_resume {u : Nat} {k : Call} (hready : u ∈ s.ready) (h : s.pc u = .waiting k) :
    Step s (.resume u) (attempt u k { s with ready := s.ready.erase u }) := .resume hready h

/-- The tasks other than 0 and 1 do nothing. -/
theorem not_pending_of_two (hrest : ∀ u, s.pc (u + 2) = .idle) (h0 : ¬ (s.pc 0).Pending)
    (h1 : ¬ (s.pc 1).Pending) (u : Nat) : ¬ (s.pc u).Pending := by
  rcases u with _ | _ | u
  · exact h0
  · exact h1
  · rw [hrest u]
    exact id

theorem cursor_iff_turns : ∃ s, Run Step (initial 0) turns s ∧ s.used = [(0, 1), (1, 1)] ∧
    Run (Guarded Step Alone) (initial 0) turns s ∧ Sequential 0 s := by
  have h0 : Run (Guarded Step Alone) (initial 0) [] (initial 0) := .nil _
  have h1 := h0.snoc
    (⟨True.intro, step_call (k := .write 1) rfl⟩ : Guarded Step Alone _ (.call 0 (.write 1)) _)
  have h2 := h1.snoc
    (⟨True.intro, step_call (k := .write 1) rfl⟩ : Guarded Step Alone _ (.call 1 (.write 1)) _)
  have h3 := h2.snoc (⟨fun _ => not_pending_of_two (fun _ => rfl) id id,
    step_op (k := .write 1) 1 rfl (by decide)⟩ : Guarded Step Alone _ (.op 0 1) _)
  have h4 := h3.snoc (⟨True.intro, .load (n := 1) rfl⟩ : Guarded Step Alone _ (.load 0) _)
  have h5 := h4.snoc
    (⟨True.intro, .store (n := 1) (v := 0) rfl⟩ : Guarded Step Alone _ (.store 0) _)
  have h6 := h5.snoc (⟨True.intro, step_resume (k := .write 1) List.mem_cons_self rfl⟩ :
    Guarded Step Alone _ (.resume 1) _)
  have h7 := h6.snoc (⟨fun _ => not_pending_of_two (fun _ => rfl) id id,
    step_op (k := .write 1) 1 rfl (by decide)⟩ : Guarded Step Alone _ (.op 1 1) _)
  have h8 := h7.snoc (⟨True.intro, .load (n := 1) rfl⟩ : Guarded Step Alone _ (.load 1) _)
  have h9 := h8.snoc
    (⟨True.intro, .store (n := 1) (v := 1) rfl⟩ : Guarded Step Alone _ (.store 1) _)
  exact ⟨_, h9.unguard, rfl, h9, (cursor_iff 0 turns _ (by decide) h9.unguard).1 h9⟩

/-- Two tasks write one byte each. -/
def twoWrites : List Act :=
  [.call 0 (.write 1), .op 0 1, .call 1 (.write 1), .op 1 1, .load 0, .load 1, .store 0, .store 1]

/-- They write it at the same place, and the cursor moves by one. -/
theorem cursor_update_lost : ∃ s, Run Step (initial 0) twoWrites s ∧ (∀ t, s.pc t = .idle) ∧
    s.used = [(0, 1), (0, 1)] ∧ s.offset = 1 ∧ ¬ Sequential 0 s := by
  have h1 := (Run.nil (initial 0)).snoc (step_call (u := 0) (k := .write 1) rfl)
  have h2 := h1.snoc (step_op (u := 0) (k := .write 1) 1 rfl (by decide))
  have h3 := h2.snoc (step_call (u := 1) (k := .write 1) rfl)
  have h4 := h3.snoc (step_op (u := 1) (k := .write 1) 1 rfl (by decide))
  have h5 := h4.snoc (Step.load (t := 0) (n := 1) rfl)
  have h6 := h5.snoc (Step.load (t := 1) (n := 1) rfl)
  have h7 := h6.snoc (Step.store (t := 0) (n := 1) (v := 0) rfl)
  have h8 := h7.snoc (Step.store (t := 1) (n := 1) (v := 0) rfl)
  have hidle : ∀ t : Nat, Function.update (Function.update (Function.update (Function.update
      (Function.update (Function.update (Function.update (Function.update (fun _ => Pc.idle)
        0 (.locked (.write 1))) 0 (.moving 1)) 1 (.locked (.write 1))) 1 (.moving 1))
        0 (.loaded 0 1)) 1 (.loaded 0 1)) 0 .idle) 1 .idle t = Pc.idle := by
    intro t
    simp only [Function.update_apply]
    split
    · rfl
    · split <;> rfl
  refine ⟨_, h8, hidle, rfl, rfl, fun hseq => ?_⟩
  exact absurd (hseq.moved hidle) (by decide)

end Cursor

end CoroCore
