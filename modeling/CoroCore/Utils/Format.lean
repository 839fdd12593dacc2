import Mathlib.Algebra.Order.Group.Nat
import Mathlib.Data.List.Basic

/-!
# Formatted output: `utils/fprintf.h`, `utils/fprintf.cc`, `utils/fprint.cc`, `utils/printf.cc`

The template `__fprintf` formats one element and calls itself with the arguments that are left; the
one without arguments copies the rest. Both write their last piece up to and with the terminator. A
specifier that the argument's `__fprint` refuses fails the task, and with it the whole call.

* `fprintf_never`: so no format is printed as its text;
* `fprintf_pieces`: a format of literal bytes and of specifiers with an argument each is printed as
  its text and the terminator;
* `fprintf_refused`: a refused specifier ends the call, after what stands before it is written;
* `vprintf_pieces`: `__vprintf` prints the same text, without the terminator.
-/

namespace CoroCore.Format

/-- An argument. A null string has no bytes. -/
inductive Arg
  | int (x : UInt64)
  | ptr (x : UInt64)
  | str (s : Option (List UInt8))

abbrev percent : UInt8 := 37
abbrev specD : UInt8 := 100
abbrev specL : UInt8 := 108
abbrev specX : UInt8 := 120
abbrev specP : UInt8 := 112
abbrev specS : UInt8 := 115

/-- `digits[d]`. -/
def digit (d : Nat) : UInt8 := if d < 10 then UInt8.ofNat (48 + d) else UInt8.ofNat (87 + d)

/-- The digits of a number, from the last one on, before those in `buf`. -/
def putDigits (base : Nat) : Nat → Nat → List UInt8 → List UInt8
  | 0, _, buf => buf
  | fuel + 1, x, buf =>
    if x / base = 0 then digit (x % base) :: buf
    else putDigits base fuel (x / base) (digit (x % base) :: buf)

/-- A number of `w` bits, in a buffer of `size` bytes. -/
def putInt (w size base : Nat) (sign : Bool) (x : Nat) : List UInt8 :=
  if sign && decide (2 ^ (w - 1) ≤ x) then 45 :: putDigits base size (2 ^ w - x) []
  else putDigits base size x []

/-- `0x` and 16 digits. -/
def putPtr (x : UInt64) : List UInt8 :=
  48 :: 120 :: (List.range 16).map fun i => digit (x.toNat / 16 ^ (15 - i) % 16)

/-- `(null)`. -/
def nullText : List UInt8 := [40, 110, 117, 108, 108, 41]

/-- `__fprint`. A specifier that is not one of the argument's is a `task_fail`. -/
def fprint : Arg → UInt8 → Option (List UInt8)
  | .int x, c =>
    if c = specD then some (putInt 64 32 10 true x.toNat)
    else if c = specX then some (putInt 64 32 16 false x.toNat) else none
  | .ptr x, c => if c = specP then some (putPtr x) else none
  | .str s, c => if c = specS then some (s.getD nullText) else none

/-- What the template does after an element: it is done, the task has failed, or it goes on. -/
inductive Next
  | done
  | failed
  | goOn (p : Nat)

section Fprintf

variable (text : List UInt8)

/-- `fmt[k]`, up to the terminator. -/
def cstr (k : Nat) : Option UInt8 := (text ++ [0])[k]?

/-- The `n` bytes from `fmt + p` on. -/
def slice (p n : Nat) : List UInt8 := ((text ++ [0]).drop p).take n

/-- The bytes for the specifier `c` that ends at `fmt + p + i`. -/
def element (p i : Nat) (x : Arg) (c : UInt8) : Option (List UInt8) :=
  if c = specD ∨ c = specL ∨ c = specX ∨ c = specP ∨ c = specS then fprint x c
  else if c = percent then some [percent]
  else some (slice text (p + i - 2) 2)

/-- The loop of the template: what it writes, and what comes after it. A read after the terminator
has no result. -/
def formatOne (p : Nat) (x : Arg) : Nat → Nat → Option (List UInt8 × Next)
  | 0, _ => none
  | fuel + 1, i =>
    match cstr text (p + i) with
    | none => none
    | some c =>
      if c = 0 then some (slice text p (i + 1), .done)
      else if c ≠ percent then formatOne p x fuel (i + 1)
      else
        match cstr text (p + i + 1) with
        | none => none
        | some c =>
          let i := i + 2
          let before := if 2 < i then slice text p (i - 2) else []
          match element text p i x c with
          | none => some (before, .failed)
          | some out => some (before ++ out, .goOn (p + i))

/-- `__fprintf` without arguments. -/
def formatRest : Nat → Nat → Nat → Option (List UInt8)
  | 0, _, _ => none
  | fuel + 1, p, i =>
    match cstr text (p + i) with
    | none => none
    | some c =>
      if c = 0 then some (slice text p (i + 1))
      else if c ≠ percent then formatRest fuel p (i + 1)
      else
        match cstr text (p + i + 1) with
        | none => none
        | some c =>
          if c = percent then
            (formatRest fuel (p + (i + 2)) 0).map (slice text p (i + 1) ++ ·)
          else formatRest fuel p (i + 2)

/-- The number of bytes that can be read, and one for the read after them. -/
def steps : Nat := text.length + 2

/-- `__fprintf` from `fmt + p` on: what it writes, and whether the task is `task_ok`. A call that
fails unwinds those that wait for it. -/
def fprintfFrom : List Arg → Nat → Option (List UInt8 × Bool)
  | [], p => (formatRest text (steps text) p 0).map (·, true)
  | x :: args, p =>
    match formatOne text p x (steps text) 0 with
    | none => none
    | some (out, .done) => some (out, true)
    | some (out, .failed) => some (out, false)
    | some (out, .goOn p) => (fprintfFrom args p).map fun r => (out ++ r.1, r.2)

/-- `__fprintf`. -/
def fprintf (args : List Arg) : Option (List UInt8 × Bool) := fprintfFrom text args 0

end Fprintf

/-- A conversion of `__vprintf`. Other arguments are not read as such. -/
def vprint : Arg → UInt8 → List UInt8
  | .int x, c =>
    if c = specD then putInt 32 16 10 true (x.toNat % 2 ^ 32)
    else if c = specL then putInt 64 32 10 true x.toNat
    else if c = specX then putInt 32 16 16 true (x.toNat % 2 ^ 32) else []
  | .ptr x, c => if c = specP then putPtr x else []
  | .str s, c => if c = specS then s.getD nullText else []

/-- `__vprintf`. A percent sign at the end is not printed. -/
def vprintf : List UInt8 → List Arg → List UInt8
  | [], _ => []
  | [b], _ => if b ≠ percent then [b] else []
  | b :: c :: rest, args =>
    if b ≠ percent then b :: vprintf (c :: rest) args
    else if c = specD ∨ c = specL ∨ c = specX ∨ c = specP ∨ c = specS then
      match args with
      | a :: args => vprint a c ++ vprintf rest args
      | [] => vprintf rest []
    else if c = percent then percent :: vprintf rest args
    else percent :: c :: vprintf rest args

/-- The specifiers that take an argument. -/
def isSpec (c : UInt8) : Bool := c = specD || c = specX || c = specP || c = specS

/-- What a format stands for: its text, with a percent sign for two of them, and the next argument
for a specifier, as long as there is one. An argument of another type stands for nothing. -/
def expected : List UInt8 → List Arg → Option (List UInt8)
  | [], _ => some []
  | [b], _ => some [b]
  | b :: c :: rest, args =>
    if b ≠ percent then (expected (c :: rest) args).map (b :: ·)
    else if c = percent then (expected rest args).map (percent :: ·)
    else if isSpec c then
      match args with
      | a :: args =>
        match fprint a c with
        | some out => (expected rest args).map (out ++ ·)
        | none => none
      | [] => (expected rest []).map fun out => percent :: c :: out
    else (expected rest args).map fun out => percent :: c :: out

/-- A string without a terminator in it. -/
def NoNul (s : List UInt8) : Prop := (0 : UInt8) ∉ s

instance (s : List UInt8) : Decidable (NoNul s) := inferInstanceAs (Decidable (¬ _))

def Arg.Valid : Arg → Prop
  | .str (some s) => NoNul s
  | _ => True

/-! ## The terminator -/

theorem digit_ne_zero {d : Nat} (h : d < 16) : digit d ≠ 0 := by
  have hall : ∀ d < 16, digit d ≠ 0 := by decide
  exact hall d h

theorem noNul_putDigits {base : Nat} (hb : 0 < base) (hb' : base ≤ 16) : ∀ (fuel x : Nat)
    (buf : List UInt8), NoNul buf → NoNul (putDigits base fuel x buf)
  | 0, _, _, h => h
  | fuel + 1, x, buf, h => by
    have hcons : NoNul (digit (x % base) :: buf) := fun hmem =>
      (List.mem_cons.mp hmem).elim
        (fun h0 => digit_ne_zero (Nat.lt_of_lt_of_le (Nat.mod_lt x hb) hb') h0.symm) h
    rw [putDigits]
    split
    · exact hcons
    · exact noNul_putDigits hb hb' fuel _ _ hcons

theorem noNul_putInt {w size base x : Nat} {sign : Bool} (hb : 0 < base) (hb' : base ≤ 16) :
    NoNul (putInt w size base sign x) := by
  have hnil : NoNul [] := List.not_mem_nil
  rw [putInt]
  split
  · intro hmem
    rcases List.mem_cons.mp hmem with h0 | hmem
    · cases h0
    · exact noNul_putDigits hb hb' _ _ _ hnil hmem
  · exact noNul_putDigits hb hb' _ _ _ hnil

theorem noNul_putPtr (x : UInt64) : NoNul (putPtr x) := by
  intro hmem
  simp only [putPtr, List.mem_cons, List.mem_map] at hmem
  rcases hmem with h0 | h0 | ⟨i, -, h0⟩
  · cases h0
  · cases h0
  · exact digit_ne_zero (Nat.mod_lt _ (by decide)) h0

theorem noNul_fprint {a : Arg} {c : UInt8} {out : List UInt8} (h : a.Valid)
    (hout : fprint a c = some out) : NoNul out := by
  cases a with
  | int x =>
    rw [fprint] at hout
    split at hout
    · cases hout
      exact noNul_putInt (by decide) (by decide)
    · split at hout
      · cases hout
        exact noNul_putInt (by decide) (by decide)
      · cases hout
  | ptr x =>
    rw [fprint] at hout
    split at hout
    · cases hout
      exact noNul_putPtr x
    · cases hout
  | str s =>
    rw [fprint] at hout
    split at hout
    · cases hout
      cases s with
      | none => exact (by decide : (0 : UInt8) ∉ nullText)
      | some s => exact h
    · cases hout

theorem noNul_expected : ∀ (text : List UInt8) (args : List Arg) (out : List UInt8), NoNul text →
    (∀ a ∈ args, a.Valid) → expected text args = some out → NoNul out
  | [], _, _, h, _, hout => by
    cases hout
    exact h
  | [b], _, _, h, _, hout => by
    cases hout
    exact h
  | b :: c :: rest, args, out, h, hargs, hout => by
    obtain ⟨hb, hcr⟩ : (0 : UInt8) ≠ b ∧ NoNul (c :: rest) := by
      rwa [NoNul, List.mem_cons, not_or] at h
    obtain ⟨hc, hr⟩ : (0 : UInt8) ≠ c ∧ NoNul rest := by
      rwa [NoNul, List.mem_cons, not_or] at hcr
    have hcons : ∀ {b : UInt8} {l : List UInt8}, 0 ≠ b → NoNul l → NoNul (b :: l) :=
      fun hb hl hmem => (List.mem_cons.mp hmem).elim hb hl
    rw [expected.eq_def] at hout
    simp only at hout
    split at hout
    · obtain ⟨l, hl, rfl⟩ := Option.map_eq_some_iff.mp hout
      exact hcons hb (noNul_expected (c :: rest) args l hcr hargs hl)
    split at hout
    · obtain ⟨l, hl, rfl⟩ := Option.map_eq_some_iff.mp hout
      exact hcons (by decide) (noNul_expected rest args l hr hargs hl)
    split at hout
    · cases args with
      | nil =>
        obtain ⟨l, hl, rfl⟩ := Option.map_eq_some_iff.mp hout
        exact hcons (by decide) (hcons hc (noNul_expected rest [] l hr nofun hl))
      | cons a args =>
        simp only at hout
        split at hout
        · rename_i l' hl'
          obtain ⟨l, hl, rfl⟩ := Option.map_eq_some_iff.mp hout
          have ha := noNul_fprint (hargs a List.mem_cons_self) hl'
          have hrest := noNul_expected rest args l hr
            (fun a ha => hargs a (List.mem_cons_of_mem _ ha)) hl
          exact fun hmem => (List.mem_append.mp hmem).elim ha hrest
        · cases hout
    · obtain ⟨l, hl, rfl⟩ := Option.map_eq_some_iff.mp hout
      exact hcons (by decide) (hcons hc (noNul_expected rest args l hr hargs hl))

theorem mem_slice {text : List UInt8} {p i : Nat} {c : UInt8} (h : cstr text (p + i) = some c) :
    c ∈ slice text p (i + 1) := by
  refine List.mem_of_getElem? (i := i) ?_
  rw [slice, List.getElem?_take_of_lt i.lt_succ_self, List.getElem?_drop]
  exact h

theorem nul_mem_formatOne {text : List UInt8} {p : Nat} {x : Arg} {out : List UInt8} :
    ∀ (fuel i : Nat), formatOne text p x fuel i = some (out, .done) → 0 ∈ out
  | 0, _, h => nomatch h
  | fuel + 1, i, h => by
    rw [formatOne] at h
    split at h
    · cases h
    · rename_i c hc
      split at h
      · rename_i h0
        cases h
        exact h0 ▸ mem_slice hc
      split at h
      · exact nul_mem_formatOne fuel (i + 1) h
      · split at h
        · cases h
        · simp only at h
          split at h
          · cases h
          · cases h

theorem nul_mem_formatRest {text out : List UInt8} : ∀ (fuel p i : Nat),
    formatRest text fuel p i = some out → 0 ∈ out
  | 0, _, _, h => nomatch h
  | fuel + 1, p, i, h => by
    rw [formatRest] at h
    split at h
    · cases h
    · rename_i c hc
      split at h
      · rename_i h0
        cases h
        exact h0 ▸ mem_slice hc
      split at h
      · exact nul_mem_formatRest fuel p (i + 1) h
      split at h
      · cases h
      split at h
      · obtain ⟨out', h', rfl⟩ := Option.map_eq_some_iff.mp h
        exact List.mem_append_right _ (nul_mem_formatRest fuel (p + (i + 2)) 0 h')
      · exact nul_mem_formatRest fuel p (i + 2) h

theorem nul_mem_fprintfFrom {text : List UInt8} : ∀ (args : List Arg) (p : Nat) (out : List UInt8),
    fprintfFrom text args p = some (out, true) → 0 ∈ out
  | [], p, out, h => by
    obtain ⟨out', h', heq⟩ := Option.map_eq_some_iff.mp h
    cases heq
    exact nul_mem_formatRest _ p 0 h'
  | x :: args, p, out, h => by
    rw [fprintfFrom] at h
    split at h
    · cases h
    · rename_i out' h'
      cases h
      exact nul_mem_formatOne _ 0 h'
    · cases h
    · rename_i out' p' _
      obtain ⟨⟨rest, ok⟩, hrest, heq⟩ := Option.map_eq_some_iff.mp h
      cases heq
      exact List.mem_append_right _ (nul_mem_fprintfFrom args p' rest hrest)

/-- The format is printed as its text, and nothing after the terminator is read. -/
def Implements (text : List UInt8) (args : List Arg) : Prop :=
  ∃ out, expected text args = some out ∧ fprintf text args = some (out, true)

/-- The terminator is printed, or something after it is read, or the call fails. -/
theorem fprintf_never (text : List UInt8) (args : List Arg) (htext : NoNul text)
    (hargs : ∀ a ∈ args, a.Valid) : ¬ Implements text args := fun ⟨out, hexp, hout⟩ =>
  noNul_expected text args out htext hargs hexp (nul_mem_fprintfFrom args 0 out hout)

theorem fprintf_never_letter : NoNul [97] ∧ ¬ Implements [97] [] :=
  ⟨by decide, fprintf_never [97] [] (by decide) nofun⟩

/-- `%%%d` with the argument 7: the two percent signs take the argument. -/
theorem percent_takes_argument :
    expected [37, 37, 37, 100] [.int 7] = some [37, 55] ∧
      fprintf [37, 37, 37, 100] [.int 7] = some ([37, 37, 100, 0], true) ∧
      ¬ Implements [37, 37, 37, 100] [.int 7] := by
  have h : fprintf [37, 37, 37, 100] [.int 7] = some ([37, 37, 100, 0], true) := by decide +kernel
  have hexp : expected [37, 37, 37, 100] [.int 7] = some [37, 55] := by decide +kernel
  refine ⟨hexp, h, fun ⟨out, hexp', hout⟩ => ?_⟩
  rw [hexp] at hexp'
  rw [h] at hout
  cases hexp'
  cases hout

/-! ## Formats without these -/

/-- A literal byte, or a specifier with its argument. -/
inductive Piece
  | lit (b : UInt8)
  | conv (c : UInt8) (a : Arg)

namespace Piece

def bytes : Piece → List UInt8
  | lit b => [b]
  | conv c _ => [percent, c]

def arg? : Piece → Option Arg
  | lit _ => none
  | conv _ a => some a

def out : Piece → List UInt8
  | lit b => [b]
  | conv c a => (fprint a c).getD []

def Ok : Piece → Prop
  | lit b => b ≠ 0 ∧ b ≠ percent
  | conv c a => (fprint a c).isSome = true

theorem Ok.fprint_eq {c : UInt8} {a : Arg} (h : (conv c a).Ok) :
    fprint a c = some (conv c a).out := by
  obtain ⟨out, hout⟩ := Option.isSome_iff_exists.mp h
  exact hout.trans (congrArg some (congrArg (Option.getD · []) hout).symm)

end Piece

/-- The specifiers for which the template calls `__fprint`. -/
def Takes (c : UInt8) : Prop := c = specD ∨ c = specL ∨ c = specX ∨ c = specP ∨ c = specS

theorem isSpec_of_fprint {a : Arg} {c : UInt8} {out : List UInt8} (h : fprint a c = some out) :
    isSpec c = true := by
  simp only [isSpec, Bool.or_eq_true, decide_eq_true_eq]
  cases a with
  | int x =>
    rw [fprint] at h
    split at h
    · tauto
    · split at h
      · tauto
      · cases h
  | ptr x =>
    rw [fprint] at h
    split at h
    · tauto
    · cases h
  | str s =>
    rw [fprint] at h
    split at h
    · tauto
    · cases h

theorem takes_of_isSpec {c : UInt8} (h : isSpec c = true) : Takes c := by
  simp only [isSpec, Bool.or_eq_true, decide_eq_true_eq] at h
  rw [Takes]
  tauto

variable {text lits rest : List UInt8} {p i : Nat} {x : Arg} {c : UInt8} {ps : List Piece}

theorem cstr_eq {k : Nat} {b : UInt8} (h : (text ++ [0]).drop k = b :: rest) :
    cstr text k = some b := by
  rw [cstr, ← Nat.add_zero k, ← List.getElem?_drop, h]
  rfl

theorem drop_succ_eq {k : Nat} {b : UInt8} (h : (text ++ [0]).drop k = b :: rest) :
    (text ++ [0]).drop (k + 1) = rest := by
  rw [← List.drop_drop, h]
  rfl

/-- The bytes that are neither the terminator nor a percent sign are passed over. -/
theorem formatOne_skip : ∀ (lits : List UInt8) (fuel i : Nat),
    (∀ b ∈ lits, b ≠ 0 ∧ b ≠ percent) → (text ++ [0]).drop (p + i) = lits ++ rest →
    formatOne text p x (fuel + lits.length) i = formatOne text p x fuel (i + lits.length)
  | [], _, _, _, _ => rfl
  | b :: lits, fuel, i, hlit, h => by
    obtain ⟨h0, hpercent⟩ := hlit b List.mem_cons_self
    have hnext := drop_succ_eq h
    rw [List.length_cons, ← Nat.add_assoc, formatOne, cstr_eq h]
    simp only
    rw [if_neg h0, if_pos hpercent, formatOne_skip lits fuel (i + 1)
      (fun b hb => hlit b (List.mem_cons_of_mem _ hb)) hnext, Nat.add_assoc, Nat.add_comm 1]

theorem formatRest_skip : ∀ (lits : List UInt8) (fuel i : Nat),
    (∀ b ∈ lits, b ≠ 0 ∧ b ≠ percent) → (text ++ [0]).drop (p + i) = lits ++ rest →
    formatRest text (fuel + lits.length) p i = formatRest text fuel p (i + lits.length)
  | [], _, _, _, _ => rfl
  | b :: lits, fuel, i, hlit, h => by
    obtain ⟨h0, hpercent⟩ := hlit b List.mem_cons_self
    have hnext := drop_succ_eq h
    rw [List.length_cons, ← Nat.add_assoc, formatRest, cstr_eq h]
    simp only
    rw [if_neg h0, if_pos hpercent, formatRest_skip lits fuel (i + 1)
      (fun b hb => hlit b (List.mem_cons_of_mem _ hb)) hnext, Nat.add_assoc, Nat.add_comm 1]

/-- The first specifier is formatted, or refused. -/
theorem formatOne_eq (hlit : ∀ b ∈ lits, b ≠ 0 ∧ b ≠ percent) (hc : Takes c)
    (h : (text ++ [0]).drop p = lits ++ percent :: c :: rest) :
    formatOne text p x (steps text) 0 =
      match fprint x c with
      | none => some (lits, .failed)
      | some out => some (lits ++ out, .goOn (p + (lits.length + 2))) := by
  have hlen := congrArg List.length h
  simp only [List.length_drop, List.length_append, List.length_cons, List.length_nil] at hlen
  obtain ⟨fuel, hfuel⟩ : ∃ fuel, steps text = fuel + 1 + lits.length :=
    ⟨text.length + 1 - lits.length, by rw [steps]; omega⟩
  have hat : (text ++ [0]).drop (p + lits.length) = percent :: c :: rest := by
    rw [← List.drop_drop, h, List.drop_left]
  have hbefore :
      (if 2 < lits.length + 2 then slice text p (lits.length + 2 - 2) else []) = lits := by
    rw [Nat.add_sub_cancel, slice, h]
    cases lits with
    | nil => rfl
    | cons b lits => rw [if_pos (by rw [List.length_cons]; omega), List.take_left]
  rw [hfuel, formatOne_skip lits (fuel + 1) 0 hlit h, Nat.zero_add, formatOne, cstr_eq hat]
  simp only
  rw [if_neg (by decide), if_neg (by decide), cstr_eq (drop_succ_eq hat)]
  simp only [element, if_pos (show _ ∨ _ from hc), hbefore]

/-- A conversion after literal bytes. -/
theorem fprintfFrom_conv {a : Arg} {args : List Arg} {out : List UInt8}
    (hlit : ∀ b ∈ lits, b ≠ 0 ∧ b ≠ percent) (ha : fprint a c = some out)
    (h : (text ++ [0]).drop p = lits ++ percent :: c :: rest) :
    fprintfFrom text (a :: args) p =
      (fprintfFrom text args (p + (lits.length + 2))).map fun r => (lits ++ out ++ r.1, r.2) := by
  rw [fprintfFrom, formatOne_eq hlit (takes_of_isSpec (isSpec_of_fprint ha)) h, ha]

theorem drop_conv (h : (text ++ [0]).drop p = lits ++ percent :: c :: rest) :
    (text ++ [0]).drop (p + (lits.length + 2)) = rest := by
  rw [← Nat.add_assoc, ← List.drop_drop, ← List.drop_drop, h, List.drop_left]
  rfl

theorem formatRest_eq (hlit : ∀ b ∈ lits, b ≠ 0 ∧ b ≠ percent)
    (h : (text ++ [0]).drop p = lits ++ [0]) :
    formatRest text (steps text) p 0 = some (lits ++ [0]) := by
  have hlen := congrArg List.length h
  simp only [List.length_drop, List.length_append, List.length_singleton] at hlen
  obtain ⟨fuel, hfuel⟩ : ∃ fuel, steps text = fuel + 1 + lits.length :=
    ⟨text.length + 1 - lits.length, by rw [steps]; omega⟩
  have hat : (text ++ [0]).drop (p + lits.length) = [0] := by
    rw [← List.drop_drop, h, List.drop_left]
  rw [hfuel, formatRest_skip lits (fuel + 1) 0 hlit h, Nat.zero_add, formatRest, cstr_eq hat]
  simp only
  rw [if_pos True.intro, slice, h, ← List.length_singleton, ← List.length_append, List.take_length]

/-- The pieces up to the first specifier. -/
theorem pieces_cases : ∀ ps : List Piece, (∀ q ∈ ps, q.Ok) →
    ∃ lits : List UInt8, (∀ b ∈ lits, b ≠ 0 ∧ b ≠ percent) ∧ (ps = lits.map .lit ∨
      ∃ c a rest, ps = lits.map .lit ++ .conv c a :: rest ∧ (Piece.conv c a).Ok)
  | [], _ => ⟨[], nofun, .inl rfl⟩
  | .conv c a :: ps, h => ⟨[], nofun, .inr ⟨c, a, ps, rfl, h _ List.mem_cons_self⟩⟩
  | .lit b :: ps, h => by
    obtain ⟨lits, hlits, hps⟩ := pieces_cases ps fun q hq => h q (List.mem_cons_of_mem _ hq)
    refine ⟨b :: lits, fun b' hb => ?_, ?_⟩
    · rcases List.mem_cons.mp hb with rfl | hb
      · exact h (.lit b') List.mem_cons_self
      · exact hlits b' hb
    · rcases hps with rfl | ⟨c, a, rest, rfl, hc⟩
      · exact .inl rfl
      · exact .inr ⟨c, a, rest, rfl, hc⟩

theorem flatMap_lit {f : Piece → List UInt8} (hf : ∀ b, f (.lit b) = [b]) (lits : List UInt8) :
    (lits.map Piece.lit).flatMap f = lits := by
  induction lits with
  | nil => rfl
  | cons b lits ih => rw [List.map_cons, List.flatMap_cons, hf, ih, List.singleton_append]

theorem filterMap_lit (lits : List UInt8) : (lits.map Piece.lit).filterMap Piece.arg? = [] := by
  induction lits with
  | nil => rfl
  | cons b lits ih => exact ih

/-- The pieces are printed, and the call goes on with what follows their last conversion. -/
theorem fprintfFrom_append (text rest : List UInt8) (args : List Arg) (n : Nat) :
    ∀ (ps : List Piece) (p : Nat), ps.length = n → (∀ q ∈ ps, q.Ok) →
    (text ++ [0]).drop p = ps.flatMap Piece.bytes ++ rest →
    ∃ (out lits : List UInt8) (p' : Nat), ps.flatMap Piece.out = out ++ lits ∧
      (∀ b ∈ lits, b ≠ 0 ∧ b ≠ percent) ∧ (text ++ [0]).drop p' = lits ++ rest ∧
      fprintfFrom text (ps.filterMap Piece.arg? ++ args) p =
        (fprintfFrom text args p').map fun r => (out ++ r.1, r.2) := by
  induction n using Nat.strongRecOn with
  | ind n ih =>
    intro ps p hlen hok h
    obtain ⟨lits, hlits, rfl | ⟨c, a, qs, rfl, hc⟩⟩ := pieces_cases ps hok
    · rw [flatMap_lit (fun _ => rfl)] at h
      refine ⟨[], lits, p, flatMap_lit (fun _ => rfl) lits, hlits, h, ?_⟩
      rw [filterMap_lit]
      exact Option.map_id'.symm
    · rw [List.flatMap_append, List.flatMap_cons, flatMap_lit (fun _ => rfl), List.append_assoc,
        List.append_assoc] at h
      obtain ⟨out, lits', p', hout, hlits', hdrop, heq⟩ :=
        ih qs.length (by rw [← hlen, List.length_append, List.length_cons]; omega) qs _ rfl
          (fun q hq => hok q (List.mem_append_right _ (List.mem_cons_of_mem _ hq))) (drop_conv h)
      refine ⟨lits ++ (Piece.conv c a).out ++ out, lits', p', ?_, hlits', hdrop, ?_⟩
      · rw [List.flatMap_append, List.flatMap_cons, flatMap_lit (fun _ => rfl), hout,
          List.append_assoc, List.append_assoc]
      · rw [List.filterMap_append, filterMap_lit]
        change fprintfFrom text (a :: (qs.filterMap Piece.arg? ++ args)) p = _
        rw [fprintfFrom_conv hlits hc.fprint_eq h, heq, Option.map_map]
        simp only [Function.comp_def, List.append_assoc]

theorem expected_lit {b : UInt8} {args : List Arg} (h : b ≠ percent) :
    expected (b :: rest) args = (expected rest args).map (b :: ·) := by
  cases rest with
  | nil => rfl
  | cons c rest => exact if_pos h

theorem expected_conv {a : Arg} {args : List Arg} {out : List UInt8} (h : fprint a c = some out) :
    expected (percent :: c :: rest) (a :: args) = (expected rest args).map (out ++ ·) := by
  have hspec : isSpec c = true := isSpec_of_fprint h
  have hc : c ≠ percent := by
    rintro rfl
    cases hspec
  rw [expected, if_neg (not_not_intro rfl), if_neg hc, if_pos hspec, h]

theorem expected_pieces : ∀ {ps : List Piece}, (∀ q ∈ ps, q.Ok) →
    expected (ps.flatMap Piece.bytes) (ps.filterMap Piece.arg?) = some (ps.flatMap Piece.out)
  | [], _ => rfl
  | .lit b :: ps, h => by
    have hb : b ≠ 0 ∧ b ≠ percent := h (.lit b) List.mem_cons_self
    have hps := expected_pieces fun q hq => h q (List.mem_cons_of_mem _ hq)
    exact (expected_lit hb.2).trans (congrArg (Option.map (b :: ·)) hps)
  | .conv c a :: ps, h => by
    have hc : (Piece.conv c a).Ok := h (.conv c a) List.mem_cons_self
    have hps := expected_pieces fun q hq => h q (List.mem_cons_of_mem _ hq)
    exact (expected_conv hc.fprint_eq).trans (congrArg (Option.map (_ ++ ·)) hps)

/-- A format of literal bytes and of specifiers with an argument each is printed as its text and the
terminator. -/
theorem fprintf_pieces (hok : ∀ q ∈ ps, q.Ok) :
    ∃ out, expected (ps.flatMap Piece.bytes) (ps.filterMap Piece.arg?) = some out ∧
      fprintf (ps.flatMap Piece.bytes) (ps.filterMap Piece.arg?) = some (out ++ [0], true) := by
  obtain ⟨out, lits, p, hout, hlits, hdrop, heq⟩ :=
    fprintfFrom_append (ps.flatMap Piece.bytes) [0] [] ps.length ps 0 rfl hok rfl
  refine ⟨_, expected_pieces hok, ?_⟩
  rw [List.append_nil] at heq
  rw [fprintf, heq, fprintfFrom, formatRest_eq hlits hdrop, hout, List.append_assoc]
  rfl

/-- A specifier that its argument refuses ends the call: what stands before it is written, and
nothing after it. -/
theorem fprintf_refused {a : Arg} {args : List Arg} (hok : ∀ q ∈ ps, q.Ok) (hc : Takes c)
    (ha : fprint a c = none) :
    fprintf (ps.flatMap Piece.bytes ++ percent :: c :: rest)
    (ps.filterMap Piece.arg? ++ a :: args) =
      some (ps.flatMap Piece.out, false) := by
  obtain ⟨out, lits, p, hout, hlits, hdrop, heq⟩ :=
    fprintfFrom_append (ps.flatMap Piece.bytes ++ percent :: c :: rest)
      (percent :: c :: rest ++ [0]) (a :: args) ps.length ps 0 rfl hok (List.append_assoc _ _ _)
  rw [fprintf, heq, fprintfFrom, formatOne_eq hlits hc hdrop, ha, hout]
  rfl

example : fprintf [97, 37, 108, 98] [.int 5] = some ([97], false) := by decide +kernel

/-! ## `__vprintf` -/

/-- The argument is one that `__vprintf` can print: a number is an `int` that is not negative. -/
def Piece.Common : Piece → Prop
  | .conv _ (.int x) => x.toNat < 2 ^ 31
  | _ => True

/-- More steps than there are digits change nothing. -/
theorem putDigits_fuel {base : Nat} (hb : 1 < base) : ∀ (fuel more x : Nat) (buf : List UInt8),
    x < base ^ (fuel + 1) → putDigits base (fuel + 1 + more) x buf = putDigits base (fuel + 1) x buf
  | fuel, more, x, buf, hx => by
    rw [Nat.add_right_comm, putDigits, putDigits]
    split
    · rfl
    · rename_i hne
      cases fuel with
      | zero =>
        rw [Nat.zero_add, Nat.pow_one] at hx
        exact absurd (Nat.div_eq_of_lt hx) hne
      | succ fuel =>
        refine putDigits_fuel hb fuel more _ _ ?_
        rw [Nat.pow_succ] at hx
        exact (Nat.div_lt_iff_lt_mul (Nat.lt_trans Nat.one_pos hb)).mpr hx

theorem putInt_common {base x : Nat} {sign sign' : Bool} (hb : 10 ≤ base) (hx : x < 2 ^ 31) :
    putInt 32 16 base sign (x % 2 ^ 32) = putInt 64 32 base sign' x := by
  have hpow : x < base ^ (15 + 1) :=
    hx.trans_le ((by decide : 2 ^ 31 ≤ 10 ^ 16).trans (Nat.pow_le_pow_left hb 16))
  have h32 : ¬ 2 ^ (32 - 1) ≤ x := hx.not_ge
  have h64 : ¬ 2 ^ (64 - 1) ≤ x := (hx.trans (by decide)).not_ge
  rw [Nat.mod_eq_of_lt (hx.trans (by decide)), putInt, putInt, decide_eq_false h32,
    decide_eq_false h64, Bool.and_false, Bool.and_false, if_neg Bool.false_ne_true,
    if_neg Bool.false_ne_true]
  exact (putDigits_fuel (Nat.lt_of_lt_of_le (by decide) hb) 15 16 x [] hpow).symm

theorem vprint_common {a : Arg} {out : List UInt8} (hout : fprint a c = some out)
    (h : (Piece.conv c a).Common) : vprint a c = out := by
  have hc : isSpec c = true := isSpec_of_fprint hout
  cases a with
  | int x =>
    have hl : c ≠ specL := by
      rintro rfl
      cases hc
    rw [fprint] at hout
    rw [vprint, if_neg hl]
    split at hout
    · rename_i hd
      cases hout
      exact (if_pos hd).trans (putInt_common (by decide) h)
    · rename_i hd
      split at hout
      · rename_i hx
        cases hout
        rw [if_neg hd, if_pos hx]
        exact putInt_common (by decide) h
      · cases hout
  | ptr x =>
    rw [fprint] at hout
    rw [vprint]
    split at hout
    · rename_i hp
      cases hout
      exact if_pos hp
    · cases hout
  | str s =>
    rw [fprint] at hout
    rw [vprint]
    split at hout
    · rename_i hs
      cases hout
      exact if_pos hs
    · cases hout

theorem vprintf_lit {b : UInt8} {args : List Arg} (h : b ≠ percent) :
    vprintf (b :: rest) args = b :: vprintf rest args := by
  cases rest with
  | nil => exact if_pos h
  | cons c rest => exact if_pos h

theorem vprintf_conv {a : Arg} {args : List Arg} (h : isSpec c = true) :
    vprintf (percent :: c :: rest) (a :: args) = vprint a c ++ vprintf rest args := by
  have hspec : c = specD ∨ c = specL ∨ c = specX ∨ c = specP ∨ c = specS := takes_of_isSpec h
  rw [vprintf, if_neg (not_not_intro rfl), if_pos hspec]

/-- `__vprintf` prints such a format as its text. -/
theorem vprintf_pieces : ∀ {ps : List Piece}, (∀ q ∈ ps, q.Ok ∧ q.Common) →
    expected (ps.flatMap Piece.bytes) (ps.filterMap Piece.arg?) =
      some (vprintf (ps.flatMap Piece.bytes) (ps.filterMap Piece.arg?))
  | [], _ => rfl
  | .lit b :: ps, h => by
    have hb : b ≠ 0 ∧ b ≠ percent := (h (.lit b) List.mem_cons_self).1
    have hps := vprintf_pieces fun q hq => h q (List.mem_cons_of_mem _ hq)
    refine (expected_lit hb.2).trans ((congrArg (Option.map (b :: ·)) hps).trans ?_)
    exact congrArg some (vprintf_lit hb.2).symm
  | .conv c a :: ps, h => by
    obtain ⟨hc, hcommon⟩ := h (.conv c a) List.mem_cons_self
    have hps := vprintf_pieces fun q hq => h q (List.mem_cons_of_mem _ hq)
    have hout := hc.fprint_eq
    refine (expected_conv hout).trans ((congrArg (Option.map (_ ++ ·)) hps).trans ?_)
    refine congrArg some (Eq.trans ?_ (vprintf_conv (isSpec_of_fprint hout)).symm)
    exact congrArg (· ++ _) (vprint_common hout hcommon).symm

end CoroCore.Format
