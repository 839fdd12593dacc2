import Mathlib.Algebra.Order.Pi
import Mathlib.Data.List.Count
import Mathlib.Logic.Function.Basic

/-!
# Code that acquires and releases locks

A coroutine is given by what it does to locks (`Co`). A value it reads from memory that it shares
with others is arbitrary, since others may have written it. `Co.Path` gives its execution paths.

A path should be `Exact`: every release finds the lock held, and every lock is released as often as
it is acquired. Code may announce with `mark` that it will release a lock once more than it
acquired it. The weakest precondition `Co.wp` counts the releases that are due, whether by an
acquisition or by a mark. Code that `Keeps` these counts is built by the rules below from smaller
such code, and then

* `Keeps.exact_iff`: its paths are exact if and only if there is no mark on them.
-/

namespace CoroCore.Lib

/-- A step on lock `b`. A mark does nothing. -/
inductive LockEvent (β : Type)
  | acquire (b : β)
  | release (b : β)
  | mark (b : β)
  deriving DecidableEq

/-- Code over locks in `β`. An `abort` ends it early, a `panic` ends everything. -/
inductive Co (β α : Type)
  | ret (a : α)
  | abort
  | panic
  | act (e : LockEvent β) (k : Co β α)
  | read (k : Nat → Co β α)

variable {β α γ : Type}

open LockEvent

namespace Co

protected def bind : Co β α → (α → Co β γ) → Co β γ
  | ret a, f => f a
  | abort, _ => abort
  | panic, _ => panic
  | act e k, f => act e (k.bind f)
  | read k, f => read fun v => (k v).bind f

instance : Monad (Co β) where
  pure := ret
  bind := Co.bind

/-- A single step. -/
def step (e : LockEvent β) : Co β Unit := act e (ret ())

/-- A value from shared memory. -/
def load : Co β Nat := read ret

/-- Run `fin` when the code is aborted. -/
def onAbort : Co β α → Co β Unit → Co β α
  | ret a, _ => ret a
  | abort, fin => fin.bind fun _ => abort
  | panic, _ => panic
  | act e k, fin => act e (k.onAbort fin)
  | read k, fin => read fun v => (k v).onAbort fin

/-- The steps of an execution, and what it returns unless it is aborted. -/
inductive Path : Co β α → List (LockEvent β) → Option α → Prop
  | ret {a : α} : Path (ret a) [] (some a)
  | abort : Path abort [] none
  | act {e : LockEvent β} {k : Co β α} {es : List (LockEvent β)} {r : Option α} :
      Path k es r → Path (act e k) (e :: es) r
  | read {k : Nat → Co β α} {v : Nat} {es : List (LockEvent β)} {r : Option α} :
      Path (k v) es r → Path (read k) es r

end Co

variable [DecidableEq β]

/-! ## Exact paths -/

/-- With `h` at the start, every release finds the lock held. -/
def Proper (h : β → Nat) (es : List (LockEvent β)) : Prop :=
  ∀ pre b suf, es = pre ++ release b :: suf →
    pre.count (release b) < pre.count (acquire b) + h b

/-- Every release finds the lock held, and every lock is released as often as it is acquired. -/
structure Exact (es : List (LockEvent β)) : Prop where
  proper : Proper (fun _ => 0) es
  balanced : ∀ b, es.count (release b) = es.count (acquire b)

/-! ## Due releases -/

/-- What is due after a step, if `h` is due before it. A release must be due. -/
def LockEvent.Pays : LockEvent β → (β → Nat) → (β → Nat) → Prop
  | acquire b, h, h' => h' = Function.update h b (h b + 1)
  | mark b, h, h' => h' = Function.update h b (h b + 1)
  | release b, h, h' => 0 < h b ∧ h' = Function.update h b (h b - 1)

theorem LockEvent.Pays.count {e : LockEvent β} {h h' : β → Nat} (hp : e.Pays h h') (b : β) :
    [e].count (acquire b) + [e].count (mark b) + h b = [e].count (release b) + h' b := by
  cases e with
  | acquire c =>
    cases hp
    rcases eq_or_ne b c with rfl | hne
    · simp
      omega
    · simp [hne, hne.symm]
  | mark c =>
    cases hp
    rcases eq_or_ne b c with rfl | hne
    · simp
      omega
    · simp [hne, hne.symm]
  | release c =>
    obtain ⟨hc, rfl⟩ := hp
    rcases eq_or_ne b c with rfl | hne
    · simp
      omega
    · simp [hne, hne.symm]

namespace Co

/-- If `h` is due, then the code releases only what is due, and `Q` holds of what is due when it
returns, and `E` when it is aborted. -/
def wp (Q : α → (β → Nat) → Prop) (E : (β → Nat) → Prop) : Co β α → (β → Nat) → Prop
  | ret a, h => Q a h
  | abort, h => E h
  | panic, _ => True
  | act e k, h => ∃ h', e.Pays h h' ∧ wp Q E k h'
  | read k, h => ∀ v, wp Q E (k v) h

variable {Q Q' : α → (β → Nat) → Prop} {E E' : (β → Nat) → Prop} {c : Co β α} {h : β → Nat}
  {es : List (LockEvent β)} {r : Option α}

theorem wp_mono (hc : wp Q E c h) (hQ : ∀ a h, Q a h → Q' a h) (hE : ∀ h, E h → E' h) :
    wp Q' E' c h := by
  induction c generalizing h with
  | ret a => exact hQ a h hc
  | abort => exact hE h hc
  | panic => trivial
  | act e k ih =>
    obtain ⟨h', hp, hk⟩ := hc
    exact ⟨h', hp, ih hk⟩
  | read k ih => exact fun v => ih v (hc v)

theorem wp_bind {f : α → Co β γ} {R : γ → (β → Nat) → Prop} :
    wp R E (c >>= f) h ↔ wp (fun a h => wp R E (f a) h) E c h := by
  change wp R E (c.bind f) h ↔ _
  induction c generalizing h with
  | ret a => rfl
  | abort => rfl
  | panic => rfl
  | act e k ih => exact exists_congr fun h' => and_congr_right fun _ => ih
  | read k ih => exact forall_congr' fun v => ih v

theorem wp_onAbort {fin : Co β Unit} (hc : wp Q (wp (fun _ => E) E fin) c h) :
    wp Q E (c.onAbort fin) h := by
  induction c generalizing h with
  | ret a => exact hc
  | abort => exact wp_bind.mpr hc
  | panic => trivial
  | act e k ih =>
    obtain ⟨h', hp, hk⟩ := hc
    exact ⟨h', hp, ih hk⟩
  | read k ih => exact fun v => ih v (hc v)

/-! ## Paths -/

theorem Path.count (hp : Path c es r) (hc : wp Q E c h) : ∃ h', (∀ a, r = some a → Q a h') ∧
    ∀ b, es.count (acquire b) + es.count (mark b) + h b = es.count (release b) + h' b := by
  induction hp generalizing h with
  | @ret a =>
    refine ⟨h, ?_, fun _ => rfl⟩
    rintro _ ⟨rfl⟩
    exact hc
  | abort => exact ⟨h, fun _ hr => (nomatch hr), fun _ => rfl⟩
  | @act e k es r _ ih =>
    obtain ⟨h1, hpay, hk⟩ := hc
    obtain ⟨h2, hQ, hcount⟩ := ih hk
    refine ⟨h2, hQ, fun b => ?_⟩
    have he := hpay.count b
    have hes := hcount b
    rw [← List.singleton_append, List.count_append, List.count_append, List.count_append]
    omega
  | read _ ih => exact ih (hc _)

theorem Path.proper (hp : Path c es r) (hc : wp Q E c h) (hm : ∀ b, mark b ∉ es) :
    Proper h es := by
  induction hp generalizing h with
  | ret => exact fun pre b suf heq => absurd heq (by simp)
  | abort => exact fun pre b suf heq => absurd heq (by simp)
  | @act e k es r _ ih =>
    obtain ⟨h', hpay, hk⟩ := hc
    have hes : Proper h' es := ih hk fun b hb => hm b (List.mem_cons_of_mem e hb)
    intro pre b suf heq
    cases pre with
    | nil =>
      obtain ⟨rfl, -⟩ := List.cons.inj heq
      rw [List.count_nil, List.count_nil, Nat.zero_add]
      exact hpay.1
    | cons e' pre =>
      obtain ⟨rfl, htail⟩ := List.cons.inj heq
      have hpre := hes pre b suf htail
      have he := hpay.count b
      have hmark : [e].count (mark b) = 0 :=
        List.count_eq_zero.mpr fun hb => hm b (List.mem_singleton.mp hb ▸ List.mem_cons_self)
      rw [← List.singleton_append, List.count_append, List.count_append]
      omega
  | read _ ih => exact ih (hc _) hm

/-! ## Code that keeps what is due -/

/-- What is due stays due. Only if the code is aborted it may leave more. -/
def Keeps (c : Co β α) : Prop := ∀ h : β → Nat, wp (fun _ h' => h' = h) (h ≤ ·) c h

theorem Keeps.ret (a : α) : Keeps (pure a : Co β α) := fun _ => rfl

theorem Keeps.abort : Keeps (abort : Co β α) := fun h => le_refl h

theorem Keeps.panic : Keeps (panic : Co β α) := fun _ => True.intro

theorem Keeps.load : Keeps (load : Co β Nat) := fun _ _ => rfl

theorem Keeps.bind {f : α → Co β γ} (hc : Keeps c) (hf : ∀ a, Keeps (f a)) : Keeps (c >>= f) := by
  intro h
  rw [wp_bind]
  refine wp_mono (hc h) ?_ fun _ => id
  rintro a _ rfl
  exact hf a _

theorem Keeps.ite {p : Prop} [Decidable p] {d : Co β α} (hc : p → Keeps c) (hd : ¬ p → Keeps d) :
    Keeps (if p then c else d) := by
  split
  · exact hc ‹p›
  · exact hd ‹¬ p›

theorem Keeps.exact_iff (hc : Keeps c) {a : α} (hp : Path c es (some a)) :
    Exact es ↔ ∀ b, mark b ∉ es := by
  obtain ⟨h', hQ, hcount⟩ := hp.count (hc fun _ => 0)
  obtain rfl := hQ a rfl
  constructor
  · intro hex b hb
    have h1 : _ + _ + 0 = _ + 0 := hcount b
    have h2 := hex.balanced b
    have h3 := List.count_pos_iff.mpr hb
    omega
  · intro hm
    refine ⟨hp.proper (hc fun _ => 0) hm, fun b => ?_⟩
    have h1 : _ + _ + 0 = _ + 0 := hcount b
    have h2 := List.count_eq_zero.mpr (hm b)
    omega

end Co

end CoroCore.Lib
