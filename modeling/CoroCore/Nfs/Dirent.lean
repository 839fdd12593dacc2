import CoroCore.Nfs.Fs

/-!
# Directory entries

The 32 bytes of a `dirent` hold an inode number and a name; the number 0 marks a free entry.

* `direntOf_make`: the entry that `__link` writes is read back;
* `direntOf_clear`: the entry that `unlink` writes is free;
* `strcmp_dirent`: the comparison of `lookup` and `unlink` finds the entry with the name;
* `roundTrips_iff`: an accepted name comes back if it leaves room for its terminator. The
  checks of the operations let through one length more, and `maximal_name_overruns` is a name
  of that length.
-/

namespace CoroCore.Nfs

open Lib

/-- The C string at `off`, in at most `n` bytes. -/
def cstrAt (b : Bytes) (off : Nat) : Nat → CStr
  | 0 => []
  | n + 1 => if b off = 0 then [] else b off :: cstrAt b (off + 1) n

/-- What an entry holds, if it is in use. -/
def direntOf (b : Bytes) : Option (CStr × Nat) :=
  if direntNumber b = 0 then none else some (cstrAt b 4 maxNameLength, direntNumber b)

/-- A name that fits into an entry with its terminator. -/
structure GoodName (name : CStr) : Prop where
  nul : 0 ∉ name
  short : name.length < maxNameLength

variable {b b' : Bytes} {name : CStr} {n : Nat}

theorem cstrAt_congr : ∀ (n off : Nat), (∀ k < n, b (off + k) = b' (off + k)) →
    cstrAt b off n = cstrAt b' off n := by
  intro n
  induction n with
  | zero => exact fun _ _ => rfl
  | succ n ih =>
    intro off h
    have hhead : b off = b' off := h 0 (Nat.succ_pos n)
    have htail : cstrAt b (off + 1) n = cstrAt b' (off + 1) n := by
      refine ih (off + 1) fun k hk => ?_
      rw [Nat.add_right_comm]
      exact h (k + 1) (Nat.succ_lt_succ hk)
    rw [cstrAt, cstrAt, hhead, htail]

/-- An entry depends on its own 32 bytes only. -/
theorem direntOf_congr (h : ∀ k < direntSize, b k = b' k) : direntOf b = direntOf b' := by
  have hnumber : direntNumber b = direntNumber b' := by
    refine getLe_congr fun k hk => h _ ?_
    simp only [direntSize]
    omega
  have hname : cstrAt b 4 maxNameLength = cstrAt b' 4 maxNameLength := by
    refine cstrAt_congr _ _ fun k hk => h _ ?_
    simp only [direntSize, maxNameLength] at *
    omega
  rw [direntOf, direntOf, hnumber, hname]

/-! ## The comparison -/

theorem strcmp_eq_zero : ∀ (name : CStr) (off n : Nat), 0 ∉ name → name.length < n →
    (strcmp b off name = 0 ↔ cstrAt b off n = name) := by
  intro name
  induction name with
  | nil =>
    intro off n _ hn
    obtain ⟨n, rfl⟩ := Nat.exists_eq_succ_of_ne_zero (Nat.ne_of_gt hn)
    rw [strcmp, cstrAt]
    split
    · next hz => simp [hz]
    · next hz =>
      have hpos : (b off).toNat ≠ 0 := fun he => hz (UInt8.toNat_inj.mp he)
      simp [hpos]
  | cons c name ih =>
    intro off n hnul hn
    obtain ⟨n, rfl⟩ := Nat.exists_eq_succ_of_ne_zero (Nat.ne_zero_of_lt hn)
    have hc : c ≠ 0 := fun he => hnul (he ▸ List.mem_cons_self)
    have hrest := ih (off + 1) n (fun hm => hnul (List.mem_cons_of_mem c hm))
      (Nat.lt_of_succ_lt_succ hn)
    rw [strcmp, cstrAt]
    split
    · next hmatch => rw [if_neg hmatch.1, hrest, hmatch.2, List.cons.injEq, eq_self, true_and]
    · next hmatch =>
      have hne : b off ≠ c := fun he => hmatch ⟨he ▸ hc, he⟩
      have hsub : ((b off).toNat : Int) - c.toNat ≠ 0 := by
        intro he
        exact hne (UInt8.toNat_inj.mp (by omega))
      refine ⟨fun he => absurd he hsub, fun he => ?_⟩
      split at he
      · cases he
      · exact absurd (List.cons.inj he).1 hne

/-- An entry in use has this name if `strcmp` says so. -/
theorem strcmp_dirent (hname : GoodName name) :
    (direntNumber b ≠ 0 ∧ strcmp b 4 name = 0) ↔ direntOf b = some (name, direntNumber b) := by
  rw [strcmp_eq_zero name 4 maxNameLength hname.nul hname.short, direntOf]
  split
  · next hz => simp [hz]
  · next hz => simp [hz]

/-! ## The entries that are written -/

theorem cstrAt_of_bytes : ∀ (name : CStr) (off n : Nat), 0 ∉ name → name.length < n →
    (∀ k < name.length, b (off + k) = name.getD k 0) → b (off + name.length) = 0 →
    cstrAt b off n = name := by
  intro name
  induction name with
  | nil =>
    intro off n _ hn _ hend
    obtain ⟨n, rfl⟩ := Nat.exists_eq_succ_of_ne_zero (Nat.ne_of_gt hn)
    exact if_pos hend
  | cons c name ih =>
    intro off n hnul hn hbytes hend
    obtain ⟨n, rfl⟩ := Nat.exists_eq_succ_of_ne_zero (Nat.ne_zero_of_lt hn)
    have hc : c ≠ 0 := fun he => hnul (he ▸ List.mem_cons_self)
    have hhead : b off = c := hbytes 0 (Nat.succ_pos _)
    have htail : cstrAt b (off + 1) n = name := by
      refine ih (off + 1) n (fun hm => hnul (List.mem_cons_of_mem c hm)) (Nat.lt_of_succ_lt_succ hn)
        (fun k hk => ?_) ?_
      · rw [Nat.add_right_comm]
        exact hbytes (k + 1) (Nat.succ_lt_succ hk)
      · rw [Nat.add_right_comm]
        exact hend
    rw [cstrAt, hhead, if_neg hc, htail]

theorem makeDirent_name {junk : Bytes} {k : Nat} (hk : k < name.length) :
    makeDirent n name junk (4 + k) = name.getD k 0 := by
  rw [makeDirent, memset, if_neg (by omega), memcpy_in (by omega) (by omega),
    Nat.add_sub_cancel_left]

theorem makeDirent_end {junk : Bytes} : makeDirent n name junk (4 + name.length) = 0 := by
  rw [makeDirent, memset, if_pos (by omega)]

/-- The entry that `__link` writes. -/
theorem direntOf_make {junk : Bytes} (hn : n ≠ 0) (hlt : n < 2 ^ 32) (hname : GoodName name) :
    direntOf (makeDirent n name junk) = some (name, n) := by
  have hshort := hname.short
  have hnumber : direntNumber (makeDirent n name junk) = n := by
    refine Eq.trans (getLe_congr fun k hk => ?_) (getLe_setLe (b := junk) hlt)
    rw [makeDirent, memset, if_neg (by omega), memcpy_out (by omega)]
  have hcstr : cstrAt (makeDirent n name junk) 4 maxNameLength = name := by
    refine cstrAt_of_bytes name 4 maxNameLength hname.nul hname.short
      (fun _ hk => makeDirent_name hk) makeDirent_end
  rw [direntOf, hnumber, hcstr, if_neg hn]

/-- The entry that `unlink` writes. -/
theorem direntOf_clear (b : Bytes) : direntOf (setLe b 0 4 0) = none :=
  if_pos (getLe_setLe (by decide))

/-- In a free entry that was never written, or is not in a block, all bytes are 0. -/
theorem direntOf_zero (h : ∀ k < 4, b k = 0) : direntOf b = none := by
  refine if_pos ?_
  rw [direntNumber, getLe_of_bytes (w := 0) fun k hk => ?_]
  · rfl
  · rw [Nat.zero_add, h k hk, Nat.zero_div]
    rfl

/-! ## Round trip -/

/-- The names that `create`, `mkdir`, `link`, `lookup` and `unlink` do not turn down. -/
structure AcceptedName (name : CStr) : Prop where
  nul : 0 ∉ name
  accepted : ¬maxNameLength < name.length

/-- The last offset that `strcmp` reads of its first argument. -/
def strcmpLast (p : Bytes) (off : Nat) : CStr → Nat
  | [] => off
  | c :: q => if p off ≠ 0 ∧ p off = c then strcmpLast p (off + 1) q else off

/-- The name goes into its field and comes back. What lies behind the 32 bytes of the entry,
when it is compared, can be anything. -/
structure RoundTrips (name : CStr) : Prop where
  inside : ∀ (n : Nat) (junk : Bytes) (k : Nat), k < 4 ∨ direntSize ≤ k →
    makeDirent n name junk k = setLe junk 0 4 n k
  decoded : ∀ (n : Nat) (junk p : Bytes), (∀ k < direntSize, p k = makeDirent n name junk k) →
    ∀ name', AcceptedName name' →
      (strcmp p 4 name' = 0 ↔ name' = name) ∧ strcmpLast p 4 name' < direntSize

theorem strcmpLast_le : ∀ (q : CStr) (off k : Nat), b (off + k) = 0 →
    strcmpLast b off q ≤ off + k := by
  intro q
  induction q with
  | nil => exact fun off k _ => Nat.le_add_right off k
  | cons c q ih =>
    intro off k hend
    rw [strcmpLast]
    split
    · next hmatch =>
      -- the terminator lies ahead, since the byte here is not 0
      obtain ⟨k, rfl⟩ : ∃ j, k = j + 1 :=
        Nat.exists_eq_succ_of_ne_zero fun hk => hmatch.1 (by rwa [hk] at hend)
      have hrest := ih (off + 1) k (by rwa [Nat.add_right_comm])
      rwa [Nat.add_right_comm] at hrest
    · exact Nat.le_add_right off k

theorem GoodName.roundTrips (hname : GoodName name) : RoundTrips name where
  inside n junk k hk := by
    have hshort := hname.short
    simp only [maxNameLength, direntSize] at *
    rw [makeDirent, memset, if_neg (by omega), memcpy_out (by omega)]
  decoded n junk p hp name' hname' := by
    have hshort := hname.short
    have haccepted := hname'.accepted
    simp only [maxNameLength, direntSize] at *
    have hend : p (4 + name.length) = 0 := by
      rw [hp _ (by omega), makeDirent_end]
    have hcstr : cstrAt p 4 (maxNameLength + 1) = name := by
      refine cstrAt_of_bytes name 4 _ hname.nul (Nat.lt_succ_of_lt hname.short)
        (fun k hk => ?_) hend
      rw [hp _ (by omega), makeDirent_name hk]
    constructor
    · rw [strcmp_eq_zero name' 4 (maxNameLength + 1) hname'.nul
        (by simp only [maxNameLength]; omega), hcstr, eq_comm]
    · exact Nat.lt_of_le_of_lt (strcmpLast_le name' 4 _ hend) (by omega)

/-- An accepted name comes back exactly if its terminator lies in the field too. -/
theorem roundTrips_iff (hname : AcceptedName name) :
    RoundTrips name ↔ name.length < maxNameLength := by
  refine ⟨fun h => ?_, fun h => GoodName.roundTrips ⟨hname.nul, h⟩⟩
  -- otherwise the terminator is the byte behind the entry
  refine Nat.lt_of_not_le fun hlong => ?_
  have haccepted := hname.accepted
  have hend : 4 + name.length = direntSize := by
    simp only [maxNameLength, direntSize] at *
    omega
  have hzero : makeDirent 0 name (fun _ => 1) (4 + name.length) = 0 := makeDirent_end
  have hkept := h.inside 0 (fun _ => 1) (4 + name.length) (.inr (Nat.le_of_eq hend.symm))
  rw [hzero, hend] at hkept
  exact absurd hkept (by decide)

theorem roundTrips_iff_sample : AcceptedName [104, 105] ∧
    (RoundTrips [104, 105] ↔ ([104, 105] : CStr).length < maxNameLength) :=
  have hname : AcceptedName [104, 105] := ⟨by decide, by decide⟩
  ⟨hname, roundTrips_iff hname⟩

/-- A name of 28 bytes is accepted. Its terminator is written behind the entry, and the name is
not found if something else stands there when the entry is compared. -/
theorem maximal_name_overruns :
    AcceptedName (List.replicate 28 97) ∧
    makeDirent 2 (List.replicate 28 97) (fun _ => 1) 32 = 0 ∧
    setLe (fun _ => 1) 0 4 2 32 = 1 ∧
    strcmp (memset (makeDirent 2 (List.replicate 28 97) (fun _ => 1)) 32 98 1) 4
      (List.replicate 28 97) ≠ 0 ∧
    ¬RoundTrips (List.replicate 28 97) := by
  refine ⟨⟨by decide, by decide⟩, by decide, by decide, by decide, fun h => ?_⟩
  exact absurd (h.inside 2 (fun _ => 1) 32 (.inr (by decide))) (by decide)

end CoroCore.Nfs
