import CoroCore.Atomic.Mutex
import CoroCore.Lib.LockCode

/-!
# `reference_guard` and the mutex of a buffer: `utils/buffer.h`

`get_ref` locks the `_in_use_mutex` of a buffer and returns a guard, whose destructor unlocks it. A
guard can be moved, and `put` unlocks early. `operator->` of a guard reaches the buffer itself, and
so its `put`, of which the guard does not know.

* `Guard`, `getRef`, `withRef`: guards, over buffers in `β`;
* `Step`: tasks that run code with guards, at the granularity of single lock and unlock steps;
* `exclusive`: no two tasks hold the same buffer if the code keeps what is due.
-/

namespace CoroCore

open Lib Lib.Co LockEvent

/-- `reference_guard`. -/
structure Guard (β : Type) where
  ptr : Option β
  hold : Bool
  deriving DecidableEq

variable {β α : Type}

/-- `referenceable_buffer::put`. -/
def nodePut (b : β) : Co β Unit := step (release b)

/-- `referenceable_buffer::get_ref`. The `load()` in `get` fails if the device does: then there is
no guard, and the mutex stays locked. -/
def getRef (b : β) : Co β (Guard β) := do
  step (acquire b)
  let loaded ← load
  if loaded = 0 then abort else return ⟨some b, true⟩

namespace Guard

def empty : Guard β := ⟨none, false⟩

/-- `operator->`. Nothing good comes of a null pointer. -/
def arrow (g : Guard β) : Co β β :=
  match g.ptr with
  | none => panic
  | some b => return b

/-- `~reference_guard`. -/
def destroy (g : Guard β) : Co β Unit :=
  if g.hold then g.arrow >>= nodePut else return ()

/-- `reference_guard::put`. -/
def put (g : Guard β) : Co β (Guard β) :=
  if g.hold then do
    nodePut (← g.arrow)
    return { g with hold := false }
  else panic

/-- `operator=`: the two guards change places. -/
def assign (g other : Guard β) : Guard β × Guard β := (other, g)

end Guard

/-- A block with a guard that is not touched in it. It is destroyed also if the coroutine is. -/
def withRef (b : β) (body : Co β α) : Co β α := do
  let ref ← getRef b
  let a ← body.onAbort ref.destroy
  ref.destroy
  return a

/-! ## What guards owe -/

section Due

variable [DecidableEq β] {g : Guard β} {h : β → Nat} {b : β}

/-- What is due with guard `g`, on top of `h`. -/
def Guard.due (g : Guard β) (h : β → Nat) : β → Nat :=
  match g with
  | ⟨some b, true⟩ => Function.update h b (h b + 1)
  | ⟨_, _⟩ => h

theorem Guard.le_due (g : Guard β) (h : β → Nat) : h ≤ g.due h := by
  rcases g with ⟨_ | b, _ | _⟩
  · exact le_refl h
  · exact le_refl h
  · exact le_refl h
  · intro c
    change h c ≤ Function.update h b (h b + 1) c
    rcases eq_or_ne c b with rfl | hne
    · rw [Function.update_self]
      exact Nat.le_succ _
    · rw [Function.update_of_ne hne]

/-- One more of `b` is due. -/
theorem wp_nodePut {Q : Unit → (β → Nat) → Prop} {E : (β → Nat) → Prop} (hb : 0 < h b)
    (hQ : Q () (Function.update h b (h b - 1))) : wp Q E (nodePut b) h :=
  ⟨_, ⟨hb, rfl⟩, hQ⟩

theorem Guard.wp_destroy {Q : Unit → (β → Nat) → Prop} {E : (β → Nat) → Prop} (hQ : Q () h) :
    wp Q E g.destroy (g.due h) := by
  rcases g with ⟨_ | b, _ | _⟩
  · exact hQ
  · trivial
  · exact hQ
  · refine wp_nodePut (h := Function.update h b (h b + 1)) ?_ ?_
    · rw [Function.update_self]
      exact Nat.succ_pos _
    · rw [Function.update_self, Nat.add_sub_cancel, Function.update_idem, Function.update_eq_self]
      exact hQ

/-- `put` releases what is due, and the guard does not hold after it. -/
theorem Guard.wp_put {Q : Guard β → (β → Nat) → Prop} {E : (β → Nat) → Prop}
    (hQ : Q { g with hold := false } (Guard.due { g with hold := false } h)) :
    wp Q E g.put (g.due h) := by
  rcases g with ⟨_ | b, _ | _⟩
  · trivial
  · trivial
  · trivial
  · change wp Q E (nodePut b >>= fun _ => pure ⟨some b, false⟩) _
    exact wp_bind.mpr (Guard.wp_destroy (g := ⟨some b, true⟩) hQ)

/-- The order of two guards does not matter. -/
theorem Guard.due_comm (g g' : Guard β) (h : β → Nat) : g.due (g'.due h) = g'.due (g.due h) := by
  have key : ∀ (g : Guard β) (h : β → Nat) (c : β),
      g.due h c = h c + if g = ⟨some c, true⟩ then 1 else 0 := by
    rintro ⟨_ | b, _ | _⟩ h c
    · rfl
    · rfl
    · simp [due]
    · rcases eq_or_ne c b with rfl | hne
      · simp [due]
      · simp [due, hne, hne.symm]
  funext c
  rw [key, key, key, key, Nat.add_right_comm]

theorem wp_getRef {Q : Guard β → (β → Nat) → Prop} {E : (β → Nat) → Prop}
    (hQ : ∀ g : Guard β, Q g (g.due h)) (hE : ∀ h', h ≤ h' → E h') : wp Q E (getRef b) h := by
  refine ⟨_, rfl, fun v => ?_⟩
  change wp Q E (if v = 0 then abort else pure ⟨some b, true⟩) _
  split
  · exact hE _ (Guard.le_due ⟨some b, true⟩ h)
  · exact hQ ⟨some b, true⟩

/-- A guard is destroyed when the coroutine is, in a state with more due than at its creation. -/
theorem Guard.wp_destroy_le {h' : β → Nat} (hle : g.due h ≤ h') :
    wp (fun _ h' => h ≤ h') (h ≤ ·) g.destroy h' := by
  have hh : h ≤ h' := (g.le_due h).trans hle
  rcases g with ⟨_ | b, _ | _⟩
  · exact hh
  · trivial
  · exact hh
  · have hb : h b + 1 ≤ h' b := by
      have := hle b
      rwa [due, Function.update_self] at this
    refine wp_nodePut (Nat.lt_of_lt_of_le (Nat.succ_pos _) hb) fun c => ?_
    rcases eq_or_ne c b with rfl | hne
    · rw [Function.update_self]
      exact Nat.le_sub_one_of_lt hb
    · rw [Function.update_of_ne hne]
      exact hh c

theorem Keeps.onAbort {body : Co β α} (hbody : Keeps body) : wp (fun _ h' => h' = g.due h) (h ≤ ·)
    (body.onAbort g.destroy) (g.due h) :=
  wp_onAbort (wp_mono (hbody _) (fun _ _ => id) fun _ hle => Guard.wp_destroy_le hle)

theorem Keeps.withRef {body : Co β α} (hbody : Keeps body) : Keeps (withRef b body) := by
  intro h
  refine wp_bind.mpr (wp_getRef (fun g => ?_) fun _ => id)
  refine wp_bind.mpr (wp_mono (Keeps.onAbort hbody) ?_ fun _ => id)
  rintro a _ rfl
  exact wp_bind.mpr (Guard.wp_destroy rfl)

end Due

/-! ## Tasks -/

namespace BufferTasks

/-- The mutexes of the buffers, what each task has still to do and has done, and which tasks sleep
in a wait queue. -/
structure Sys (β : Type) where
  mutex : β → Mutex
  code : Nat → Co β Unit
  done : Nat → List (LockEvent β)
  asleep : Nat → Bool

inductive Act (β : Type)
  | call (t : Nat)
  | read (t : Nat)
  | lock (t : Nat) (b : β)
  | sleep (t : Nat) (b : β)
  | unlock (t : Nat) (b : β)
  | mark (t : Nat) (b : β)

variable [DecidableEq β]

namespace Sys

/-- Task `t` goes on with `c`, after the steps `es`. -/
def go (s : Sys β) (t : Nat) (c : Co β Unit) (es : List (LockEvent β)) : Sys β :=
  { s with code := Function.update s.code t c, done := Function.update s.done t (s.done t ++ es) }

def setMutex (s : Sys β) (b : β) (m : Mutex) : Sys β :=
  { s with mutex := Function.update s.mutex b m }

/-- `wake_up` of a sleeper. -/
def wakeUp (s : Sys β) (w : Option Nat) : Sys β :=
  match w with
  | none => s
  | some w => { s with asleep := Function.update s.asleep w false }

def initial : Sys β := ⟨fun _ => ⟨false, []⟩, fun _ => .ret (), fun _ => [], fun _ => false⟩

/-- The task has locked the mutex of `b`, and has not unlocked it since. -/
def Holds (s : Sys β) (t : Nat) (b : β) : Prop :=
  (s.done t).count (release b) < (s.done t).count (acquire b)

end Sys

/-- A task calls one of `calls`, reads shared memory, or makes a round of `lock` or an `unlock`. -/
inductive Step (calls : Set (Co β Unit)) : Sys β → Act β → Sys β → Prop
  | call {s : Sys β} {t : Nat} {c : Co β Unit} : s.code t = .ret () → c ∈ calls →
      Step calls s (.call t) (s.go t c [])
  | read {s : Sys β} {t v : Nat} {k : Nat → Co β Unit} : s.code t = .read k →
      Step calls s (.read t) (s.go t (k v) [])
  | lock {s : Sys β} {t : Nat} {b : β} {k : Co β Unit} : s.code t = .act (acquire b) k →
      s.asleep t = false → ((s.mutex b).tryLock t).1 = true →
      Step calls s (.lock t b) ((s.setMutex b ((s.mutex b).tryLock t).2).go t k [acquire b])
  | sleep {s : Sys β} {t : Nat} {b : β} {k : Co β Unit} : s.code t = .act (acquire b) k →
      s.asleep t = false → ((s.mutex b).tryLock t).1 = false →
      Step calls s (.sleep t b) { s.setMutex b ((s.mutex b).tryLock t).2 with
        asleep := Function.update s.asleep t true }
  | unlock {s : Sys β} {t : Nat} {b : β} {k : Co β Unit} : s.code t = .act (release b) k →
      Step calls s (.unlock t b)
        (((s.setMutex b (s.mutex b).unlock.2).wakeUp (s.mutex b).unlock.1).go t k [release b])
  | mark {s : Sys β} {t : Nat} {b : β} {k : Co β Unit} : s.code t = .act (mark b) k →
      Step calls s (.mark t b) (s.go t k [mark b])

/-- No mark is passed. -/
def Unmarked (_ : Sys β) (a : Act β) : Prop := ∀ t b, a ≠ .mark t b

/-- Task `t` holds what is due with it, and the mutexes are locked by those who hold them. -/
structure Inv (s : Sys β) (held : Nat → β → Nat) : Prop where
  count : ∀ t b, (s.done t).count (acquire b) = (s.done t).count (release b) + held t b
  code : ∀ t, wp (fun _ h => h = fun _ => 0) (fun _ => True) (s.code t) (held t)
  free : ∀ b, (s.mutex b).locked = false → ∀ t, held t b = 0
  once : ∀ t b, held t b ≤ 1
  unique : ∀ t u b, 0 < held t b → 0 < held u b → t = u

variable {s s' : Sys β} {held : Nat → β → Nat} {t : Nat} {b : β} {a : Act β} {k : Co β Unit}
  {calls : Set (Co β Unit)}

theorem Inv.initial : Inv (Sys.initial : Sys β) fun _ _ => 0 where
  count _ _ := rfl
  code _ := rfl
  free _ _ _ := rfl
  once _ _ := Nat.zero_le 1
  unique _ _ _ h := absurd h (Nat.lt_irrefl 0)

/-- A step that is not on a lock. -/
theorem Inv.go (h : Inv s held)
    (hk : wp (fun _ h => h = fun _ => 0) (fun _ => True) k (held t)) : Inv (s.go t k []) held where
  count u c := by
    have hdone : (s.go t k []).done = s.done := by simp [Sys.go]
    rw [hdone]
    exact h.count u c
  code u := by
    rcases eq_or_ne u t with rfl | hne
    · simpa [Sys.go] using hk
    · simpa [Sys.go, hne] using h.code u
  free := h.free
  once := h.once
  unique := h.unique

/-- What the tasks hold after task `t` has locked or unlocked `b`. -/
def setHeld (held : Nat → β → Nat) (t : Nat) (b : β) (n : Nat) : Nat → β → Nat :=
  Function.update held t (Function.update (held t) b n)

theorem setHeld_self (n : Nat) : setHeld held t b n t b = n := by simp [setHeld]

theorem setHeld_of_ne {u : Nat} {c : β} (n : Nat) (hne : ¬ (u = t ∧ c = b)) :
    setHeld held t b n u c = held u c := by
  rcases eq_or_ne u t with rfl | hu
  · have hc : c ≠ b := fun hc => hne ⟨rfl, hc⟩
    simp [setHeld, hc]
  · simp [setHeld, hu]

/-- The history and the code of the tasks after a lock step of task `t`. -/
theorem Inv.lock_step (h : Inv s held) {m : Mutex} {w : Option Nat} {e : LockEvent β} {n : Nat}
    (hpay : e.Pays (held t) (Function.update (held t) b n)) (he : ∀ c, e ≠ mark c)
    (hk : wp (fun _ h => h = fun _ => 0) (fun _ => True) k (Function.update (held t) b n))
    (hfree : m.locked = false → ∀ u, setHeld held t b n u b = 0) (hn : n ≤ 1)
    (hunique : 0 < n → ∀ u, 0 < held u b → u = t) :
    Inv (((s.setMutex b m).wakeUp w).go t k [e]) (setHeld held t b n) := by
  have hdone : ((s.setMutex b m).wakeUp w).done = s.done := by cases w <;> rfl
  have hcode : ((s.setMutex b m).wakeUp w).code = s.code := by cases w <;> rfl
  have hmutex : ((s.setMutex b m).wakeUp w).mutex = Function.update s.mutex b m := by
    cases w <;> rfl
  refine ⟨fun u c => ?_, fun u => ?_, fun c hc u => ?_, fun u c => ?_, fun u v c hu hv => ?_⟩
  · simp only [Sys.go, hdone]
    rcases eq_or_ne u t with rfl | hne
    · have h1 := h.count u c
      have h2 := hpay.count c
      have h3 : [e].count (mark c) = 0 :=
        List.count_eq_zero.mpr fun hc => he c (List.mem_singleton.mp hc).symm
      rw [Function.update_self, List.count_append, List.count_append, setHeld, Function.update_self]
      omega
    · rw [Function.update_of_ne hne, setHeld_of_ne n fun hu => hne hu.1]
      exact h.count u c
  · simp only [Sys.go, hcode]
    rcases eq_or_ne u t with rfl | hne
    · rw [Function.update_self, setHeld, Function.update_self]
      exact hk
    · rw [Function.update_of_ne hne, setHeld, Function.update_of_ne hne]
      exact h.code u
  · simp only [Sys.go, hmutex] at hc
    rcases eq_or_ne c b with rfl | hne
    · rw [Function.update_self] at hc
      exact hfree hc u
    · rw [Function.update_of_ne hne] at hc
      rw [setHeld_of_ne n fun hu => hne hu.2]
      exact h.free c hc u
  · by_cases huc : u = t ∧ c = b
    · obtain ⟨rfl, rfl⟩ := huc
      rw [setHeld_self]
      exact hn
    · rw [setHeld_of_ne n huc]
      exact h.once u c
  · rcases eq_or_ne c b with rfl | hne
    · have hall : ∀ x, 0 < setHeld held t c n x c → x = t ∨ (0 < held x c ∧ n = 0) := by
        intro x hx
        rcases eq_or_ne x t with hxt | hxt
        · exact .inl hxt
        · rw [setHeld_of_ne n fun hu => hxt hu.1] at hx
          rcases Nat.eq_zero_or_pos n with hn0 | hn0
          · exact .inr ⟨hx, hn0⟩
          · exact .inl (hunique hn0 x hx)
      rcases hall u hu with rfl | ⟨hu', rfl⟩
      · rcases hall v hv with rfl | ⟨-, rfl⟩
        · rfl
        · rw [setHeld_self] at hu
          exact absurd hu (Nat.lt_irrefl 0)
      · rcases hall v hv with rfl | ⟨hv', -⟩
        · rw [setHeld_self] at hv
          exact absurd hv (Nat.lt_irrefl 0)
        · exact h.unique u v c hu' hv'
    · rw [setHeld_of_ne n fun hx => hne hx.2] at hu hv
      exact h.unique u v c hu hv

theorem Inv.step (hcalls : ∀ c ∈ calls, Keeps c) (h : Inv s held)
    (hs : Guarded (Step calls) Unmarked s a s') : ∃ held', Inv s' held' := by
  obtain ⟨hmark, hs⟩ := hs
  cases hs with
  | @call t c hcode hc =>
    have hzero : held t = fun _ => 0 := by
      have := h.code t
      rwa [hcode] at this
    refine ⟨held, h.go (wp_mono (hcalls c hc (held t)) ?_ fun _ _ => True.intro)⟩
    rintro _ _ rfl
    exact hzero
  | @read t v k hcode =>
    have hk := h.code t
    rw [hcode] at hk
    exact ⟨held, h.go (hk v)⟩
  | @lock t b k hcode _ htry =>
    have hk := h.code t
    rw [hcode] at hk
    obtain ⟨_, rfl, hk⟩ := hk
    have hlocked : (s.mutex b).locked = false := by
      simp only [Mutex.tryLock] at htry
      split at htry
      · cases htry
      · exact Bool.eq_false_iff.mpr ‹_›
    have hzero := h.free b hlocked
    refine ⟨_, h.lock_step (w := none) rfl (fun _ hc => by cases hc) hk ?_ ?_ ?_⟩
    · simp [Mutex.tryLock, hlocked]
    · rw [hzero t]
    · intro _ u hu
      rw [hzero u] at hu
      exact absurd hu (Nat.lt_irrefl 0)
  | @sleep t b k hcode _ htry =>
    have hlocked : (s.mutex b).locked = true := by
      simp only [Mutex.tryLock] at htry
      split at htry
      · assumption
      · cases htry
    refine ⟨held, h.count, h.code, fun c hc u => ?_, h.once, h.unique⟩
    rcases eq_or_ne c b with rfl | hne
    · simp [Sys.setMutex, Mutex.tryLock, hlocked] at hc
    · simp only [Sys.setMutex, Function.update_of_ne hne] at hc
      exact h.free c hc u
  | @unlock t b k hcode =>
    have hk := h.code t
    rw [hcode] at hk
    obtain ⟨_, ⟨hpos, rfl⟩, hk⟩ := hk
    have hone := h.once t b
    refine ⟨_, h.lock_step ⟨hpos, rfl⟩ (fun _ hc => by cases hc) hk ?_ ?_ ?_⟩
    · intro _ u
      rcases eq_or_ne u t with rfl | hne
      · rw [setHeld_self]
        omega
      · rw [setHeld_of_ne _ fun hu => hne hu.1]
        exact Nat.eq_zero_of_not_pos fun hu => hne (h.unique u t b hu hpos)
    · omega
    · intro _ u hu
      exact h.unique u t b hu hpos
  | @mark t b k hcode => exact absurd rfl (hmark t b)

/-- No two tasks hold the mutex of the same buffer, in any run in which no mark is passed. -/
theorem exclusive (hcalls : ∀ c ∈ calls, Keeps c) {ls : List (Act β)}
    (hrun : Run (Guarded (Step calls) Unmarked) Sys.initial ls s) {u : Nat} (ht : s.Holds t b)
    (hu : s.Holds u b) : t = u := by
  obtain ⟨held, h⟩ := hrun.invariant (I := fun s => ∃ held, Inv s held)
    (fun _ _ _ h hs => h.elim fun _ h => h.step hcalls hs) ⟨_, Inv.initial⟩
  have hpos : ∀ x, s.Holds x b → 0 < held x b := by
    intro x hx
    have h1 := h.count x b
    have h2 : _ < _ := hx
    omega
  exact h.unique t u b (hpos t ht) (hpos u hu)

end BufferTasks

end CoroCore
