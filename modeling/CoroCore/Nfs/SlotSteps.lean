import CoroCore.Nfs.Slots

/-!
# Storing a block number

The four places where a new block number is stored, as steps on the slots: a direct address
(`Adds.direct`), the first address block (`Adds.first`), a further address block
(`Adds.link`) and an entry of an address block (`Adds.entry`). In each case one slot changes
and no other, over all inodes: the blocks of the others are different ones.
-/

namespace CoroCore.Nfs

open Lib

theorem slotRef_setDirect {disk : Nat → Bytes} {ino : Inode} {k b : Nat} {d : Bool} (p : Slot) :
    slotRef disk { ino with addrs := Function.update ino.addrs k b, dirty := d } p =
      if p = .direct k ∧ k < numDirectData then toRef b else slotRef disk ino p := by
  cases p with
  | direct l =>
    rcases eq_or_ne l k with rfl | hl
    · by_cases hk : l < numDirectData <;> simp [slotRef, hk]
    · simp [slotRef, hl]
  | link l => simp [slotRef]
  | entry l j => simp [slotRef]

theorem slotRef_no_chain {disk : Nat → Bytes} {ino : Inode} (h : ino.nextAddrBlock = none32)
    (p : Slot) (hp : ∀ k, p ≠ .direct k) : slotRef disk ino p = none := by
  have hchain : ∀ k, chain disk ino.nextAddrBlock k = none := by
    intro k
    cases hc : chain disk ino.nextAddrBlock k with
    | none => rfl
    | some c =>
      have := chain_isSome_le (Nat.zero_le k) (by rw [hc]; rfl)
      simp [chain, h] at this
  cases p with
  | direct k => exact absurd rfl (hp k)
  | link k => exact hchain k
  | entry k j => simp [slotRef, hchain]

/-- A chain that ends with a blank block. -/
theorem chain_blank {disk : Nat → Bytes} {a b k : Nat} (hk : chain disk a k = some b)
    (hblank : nextOf (disk b) = none32) {m : Nat} (hm : k < m) : chain disk a m = none := by
  have hnext : chain disk a (k + 1) = none := by
    rw [chain, hk, Option.bind_some, hblank, toRef_none32]
  cases hc : chain disk a m with
  | none => rfl
  | some c =>
    have := chain_isSome_le (Nat.succ_le_of_lt hm) (by rw [hc]; rfl)
    rw [hnext] at this
    cases this

namespace Store

variable {ι α : Type} [DecidableEq ι] {A : AllocModel α} {s t : Store ι α} {i : ι}

omit [DecidableEq ι] in
theorem refs_congr (hino : t.ino = s.ino)
    (h : ∀ q x, s.refs q = some x → t.dev.disk x = s.dev.disk x) : t.refs = s.refs := by
  ext1 ⟨j, p⟩
  rw [refs_eq, refs_eq, hino]
  refine slotRef_congr ?_ p
  exact fun k c hc => h (j, .link k) c hc

omit [DecidableEq ι] in
/-- The slots of an inode that the step does not touch. -/
theorem refs_other {j : ι} (hino : t.ino j = s.ino j)
    (h : ∀ k x, s.refs (j, .link k) = some x → t.dev.disk x = s.dev.disk x) (p : Slot) :
    t.refs (j, p) = s.refs (j, p) := by
  rw [refs_eq, refs_eq, hino]
  refine slotRef_congr ?_ p
  exact h

/-- A direct address. -/
theorem Adds.direct {k b : Nat} {d : Dev α} (hk : k < numDirectData) (hb : b < none32)
    (hempty : (s.ino i).addrs k = none32)
    (hdisk : ∀ q x, s.refs q = some x → d.disk x = s.dev.disk x) :
    Adds s ({ s with dev := d }.setDirect i k b) (i, .direct k) b := by
  refine ⟨?_, ?_, fun q x _ hx => hdisk q x hx⟩
  · simp [refs_eq, slotRef, hk, hempty]
  · ext1 ⟨j, p⟩
    rcases eq_or_ne j i with rfl | hj
    · have hself : ({ s with dev := d }.setDirect j k b).refs (j, p) =
          if p = .direct k ∧ k < numDirectData then toRef b else slotRef d.disk (s.ino j) p := by
        rw [← slotRef_setDirect (d := true)]
        simp [refs_eq, setDirect, setIno]
      have hframe : slotRef d.disk (s.ino j) p = slotRef s.dev.disk (s.ino j) p := by
        refine slotRef_congr ?_ p
        exact fun m c hc => hdisk (j, .link m) c hc
      rw [hself, hframe]
      by_cases hp : p = .direct k
      · subst hp
        rw [if_pos ⟨rfl, hk⟩, toRef_of_lt hb, Function.update_self]
      · rw [if_neg fun h => hp h.1, Function.update_of_ne (by simpa using hp)]
        rfl
    · rw [Function.update_of_ne (by simp [hj])]
      refine refs_other ?_ (fun m x hx => hdisk _ x hx) p
      simp [setDirect, setIno, Function.update_of_ne hj]

/-- The first address block. -/
theorem Adds.first {b : Nat} {d : Dev α} (hb : b < none32)
    (hempty : (s.ino i).nextAddrBlock = none32) (hfresh : ∀ q, s.refs q ≠ some b)
    (hdisk : ∀ q x, s.refs q = some x → d.disk x = s.dev.disk x) :
    Adds s ({ s with dev := d.store b (blankBlock (d.disk b)) }.setIno i
      { s.ino i with nextAddrBlock := b, dirty := true }) (i, .link 0) b := by
  have hstore : ∀ q x, s.refs q = some x →
      (d.store b (blankBlock (d.disk b))).disk x = s.dev.disk x := by
    intro q x hx
    have hxb : x ≠ b := fun e => hfresh q (e ▸ hx)
    rw [Dev.store_of_ne hxb, hdisk q x hx]
  have hblank : (d.store b (blankBlock (d.disk b))).disk b = blankBlock (d.disk b) :=
    Dev.store_self
  refine ⟨slotRef_no_chain hempty _ (by simp), ?_, fun q x _ hx => hstore q x hx⟩
  ext1 ⟨j, p⟩
  rcases eq_or_ne j i with rfl | hj
  · have hold : ∀ p, (∀ k, p ≠ .direct k) → s.refs (j, p) = none :=
      fun p hp => slotRef_no_chain hempty p hp
    have hzero : chain (d.store b (blankBlock (d.disk b))).disk b 0 = some b := toRef_of_lt hb
    have hlater : ∀ m, 0 < m → chain (d.store b (blankBlock (d.disk b))).disk b m = none :=
      fun m hm => chain_blank hzero (by rw [hblank, nextOf_blank]) hm
    cases p with
    | direct k =>
      rw [Function.update_of_ne (by simp)]
      simp [refs_eq, slotRef, setIno]
    | link k =>
      rcases Nat.eq_zero_or_pos k with rfl | hk
      · rw [Function.update_self]
        simpa [refs_eq, slotRef, setIno] using hzero
      · rw [Function.update_of_ne (by simp [Nat.ne_of_gt hk]), hold _ (by simp)]
        simpa [refs_eq, slotRef, setIno] using hlater k hk
    | entry k l =>
      rw [Function.update_of_ne (by simp), hold _ (by simp)]
      by_cases hl : l < numAddrs
      · rcases Nat.eq_zero_or_pos k with rfl | hk
        · simp [refs_eq, slotRef, setIno, hl, hzero, addrAt_blank hl]
        · simp [refs_eq, slotRef, setIno, hlater k hk]
      · simp [refs_eq, slotRef, hl]
  · rw [Function.update_of_ne (by simp [hj])]
    refine refs_other ?_ (fun m x hx => hstore _ x hx) p
    simp [setIno, Function.update_of_ne hj]

omit [DecidableEq ι] in
/-- The data blocks are none of the address blocks. -/
theorem Owned.ne_link (h : s.Owned A) {k c x : Nat} (hc : s.refs (i, .link k) = some c)
    {q : ι × Slot} (hq : q.2.IsData) (hx : s.refs q = some x) : x ≠ c := by
  rintro rfl
  have hqi := h.inj q (i, .link k) x hx hc
  rw [hqi] at hq
  exact hq

/-- A further address block `b` after the last one, `c`. -/
theorem Adds.link (h : s.Owned A) {k c b : Nat} (hc : s.refs (i, .link k) = some c)
    (hend : nextOf (s.dev.disk c) = none32) (hb : b < none32) (hino : t.ino = s.ino)
    (htc : t.dev.disk c = setNext (s.dev.disk c) b) (htb : nextOf (t.dev.disk b) = none32)
    (hta : ∀ j < numAddrs, addrAt (t.dev.disk b) j = none32)
    (hdisk : ∀ q x, s.refs q = some x → x ≠ c → t.dev.disk x = s.dev.disk x) :
    Adds s t (i, .link (k + 1)) b := by
  have hlast : chain s.dev.disk (s.ino i).nextAddrBlock k = some c := hc
  have hafter : ∀ m, k < m → chain s.dev.disk (s.ino i).nextAddrBlock m = none :=
    fun m hm => chain_blank hlast hend hm
  -- the blocks before the last one are different from it, so the chain up to it is unchanged
  have hne : ∀ m x, m ≠ k → chain s.dev.disk (s.ino i).nextAddrBlock m = some x → x ≠ c := by
    intro m x hm hx e
    have := h.inj (i, .link m) (i, .link k) x hx (e ▸ hc)
    simp only [Prod.mk.injEq, Slot.link.injEq, true_and] at this
    exact hm this
  have hupto : ∀ m ≤ k, chain t.dev.disk (s.ino i).nextAddrBlock m =
      chain s.dev.disk (s.ino i).nextAddrBlock m := by
    intro m hm
    refine chain_congr fun l hl x hx => ?_
    rw [hdisk (i, .link l) x hx (hne l x (Nat.ne_of_lt (Nat.lt_of_lt_of_le hl hm)) hx)]
  have hnew : chain t.dev.disk (s.ino i).nextAddrBlock (k + 1) = some b := by
    rw [chain, hupto k (Nat.le_refl k), hlast, Option.bind_some, htc, nextOf_setNext hb,
      toRef_of_lt hb]
  have hbeyond : ∀ m, k + 1 < m → chain t.dev.disk (s.ino i).nextAddrBlock m = none :=
    fun m hm => chain_blank hnew htb hm
  refine ⟨hafter (k + 1) (Nat.lt_succ_self k), ?_,
    fun q x hq hx => hdisk q x hx (h.ne_link hc hq hx)⟩
  ext1 ⟨j, p⟩
  rcases eq_or_ne j i with rfl | hj
  · cases p with
    | direct m =>
      rw [Function.update_of_ne (by simp), refs_eq, refs_eq, hino]
      rfl
    | link m =>
      rw [refs_eq, hino]
      rcases Nat.lt_trichotomy m (k + 1) with hm | rfl | hm
      · rw [Function.update_of_ne (by simp [Nat.ne_of_lt hm]), refs_eq]
        exact hupto m (Nat.le_of_lt_succ hm)
      · rw [Function.update_self]
        exact hnew
      · rw [Function.update_of_ne (by simp [Nat.ne_of_gt hm]), refs_eq]
        exact (hbeyond m hm).trans (hafter m (Nat.lt_of_succ_lt hm)).symm
    | entry m l =>
      rw [Function.update_of_ne (by simp), refs_eq, refs_eq, hino, slotRef, slotRef]
      by_cases hl : l < numAddrs
      · rw [if_pos hl, if_pos hl]
        rcases Nat.lt_trichotomy m (k + 1) with hm | rfl | hm
        · rw [hupto m (Nat.le_of_lt_succ hm)]
          cases hx : chain s.dev.disk (s.ino j).nextAddrBlock m with
          | none => rfl
          | some x =>
            rw [Option.bind_some, Option.bind_some]
            rcases eq_or_ne m k with rfl | hmk
            · obtain rfl := Option.some.inj (hx.symm.trans hlast)
              rw [htc, addrAt_setNext]
            · rw [hdisk (j, .link m) x hx (hne m x hmk hx)]
        · rw [hnew, hafter _ (Nat.lt_succ_self k), Option.bind_some, hta l hl, toRef_none32,
            Option.bind_none]
        · rw [hbeyond m hm, hafter m (Nat.lt_of_succ_lt hm), Option.bind_none, Option.bind_none]
      · rw [if_neg hl, if_neg hl]
  · rw [Function.update_of_ne (by simp [hj])]
    refine refs_other (by rw [hino]) (fun m x hx => hdisk _ x hx ?_) p
    rintro rfl
    exact hj (congrArg Prod.fst (h.inj _ _ x hx hc))

/-- Entry `l` of the `k`-th address block `c`. -/
theorem Adds.entry (h : s.Owned A) {k l c b : Nat} (hc : s.refs (i, .link k) = some c)
    (hl : l < numAddrs) (hempty : addrAt (s.dev.disk c) l = none32) (hb : b < none32)
    (hino : t.ino = s.ino) (htc : t.dev.disk c = setAddr (s.dev.disk c) l b)
    (hdisk : ∀ q x, s.refs q = some x → x ≠ c → t.dev.disk x = s.dev.disk x) :
    Adds s t (i, .entry k l) b := by
  have hlast : chain s.dev.disk (s.ino i).nextAddrBlock k = some c := hc
  have hne : ∀ m x, m ≠ k → chain s.dev.disk (s.ino i).nextAddrBlock m = some x → x ≠ c := by
    intro m x hm hx e
    have := h.inj (i, .link m) (i, .link k) x hx (e ▸ hc)
    simp only [Prod.mk.injEq, Slot.link.injEq, true_and] at this
    exact hm this
  have hchain : ∀ m, chain t.dev.disk (s.ino i).nextAddrBlock m =
      chain s.dev.disk (s.ino i).nextAddrBlock m := by
    intro m
    refine chain_congr fun r _ x hx => ?_
    rcases eq_or_ne x c with rfl | hxc
    · rw [htc, nextOf_setAddr]
    · rw [hdisk (i, .link r) x hx hxc]
  refine ⟨?_, ?_, fun q x hq hx => hdisk q x hx (h.ne_link hc hq hx)⟩
  · rw [refs_eq, slotRef, if_pos hl, hlast, Option.bind_some, hempty, toRef_none32]
  · ext1 ⟨j, p⟩
    rcases eq_or_ne j i with rfl | hj
    · cases p with
      | direct m =>
        rw [Function.update_of_ne (by simp), refs_eq, refs_eq, hino]
        rfl
      | link m =>
        rw [Function.update_of_ne (by simp), refs_eq, refs_eq, hino]
        exact hchain m
      | entry m r =>
        rw [refs_eq, hino, slotRef, hchain]
        rcases eq_or_ne m k with rfl | hm
        · rw [hlast, Option.bind_some, htc]
          rcases eq_or_ne r l with rfl | hr
          · rw [if_pos hl, addrAt_setAddr_self hb, toRef_of_lt hb, Function.update_self]
          · rw [addrAt_setAddr_of_ne hr, Function.update_of_ne (by simp [hr]), refs_eq, slotRef,
              hlast, Option.bind_some]
        · rw [Function.update_of_ne (by simp [hm]), refs_eq, slotRef]
          cases hx : chain s.dev.disk (s.ino j).nextAddrBlock m with
          | none => rfl
          | some x =>
            rw [Option.bind_some, Option.bind_some, hdisk (j, .link m) x hx (hne m x hm hx)]
    · rw [Function.update_of_ne (by simp [hj])]
      refine refs_other (by rw [hino]) (fun m x hx => hdisk _ x hx ?_) p
      rintro rfl
      exact hj (congrArg Prod.fst (h.inj _ _ x hx hc))

end Store

end CoroCore.Nfs
