import CoroCore.Lib.Run
import CoroCore.Mm.UserCopy

/-!
# The memories of user processes

Several processes have page tables in one memory. The harts store and load bytes for them, and the
kernel copies between them and buffers of its own with `copyout` and `copyin` (`mm/vmem.cc`). A copy
that comes to a page that is not the user's stops there and returns -1.

* `copyout_stops`, `copyin_stops`: what such a copy has done by then;
* `memories_apart`: each process has a memory of its own, which only its own stores and the copies
  to it change, and none of these changes a byte of a page table.
-/

namespace CoroCore.Vmem

open Lib

variable {root va src dst len n x y : Nat} {m m' : Bytes}

/-! ## Copies that stop -/

/-- A user page goes on up to its end. -/
theorem page_end_le (hu : UserPage root m va) (hbad : ¬ UserPage root m (va + n)) :
    pgSize - va % pgSize ≤ n :=
  Nat.le_of_not_lt fun hlt => hbad ((userPage_of_chunk hlt).mpr hu)

/-- After the first `k` addresses, the others are mapped up to the same one. -/
theorem SameTables.rest (h : SameTables root m m') {k : Nat} (hk : k ≤ n)
    (hpages : ∀ j < n, UserPage root m (va + j)) (hbad : ¬ UserPage root m (va + n)) :
    (∀ j < n - k, UserPage root m' (va + k + j)) ∧ ¬ UserPage root m' (va + k + (n - k)) := by
  refine ⟨fun j hj => ?_, ?_⟩
  · rw [h.userPage, Nat.add_assoc]
    exact hpages _ (by omega)
  · rw [h.userPage, Nat.add_assoc, Nat.add_sub_cancel' hk]
    exact hbad

theorem copyout_stops (n : Nat) : ∀ (len va src : Nat) (m : Bytes), UserMap root m → n < len →
    (∀ k < n, UserPage root m (va + k)) → ¬ UserPage root m (va + n) →
    copyout root va src len m = (-1, (copyout root va src n m).2) := by
  induction n using Nat.strong_induction_on with
  | _ n ih =>
  intro len va src m hmap hn hpages hbad
  rcases eq_or_ne n 0 with rfl | hpos
  · have hzero := (walkaddr_page_eq_zero hmap).mpr hbad
    rw [copyout, dif_neg hn.ne', copyout, dif_pos rfl]
    exact if_pos hzero
  have hu : UserPage root m va := hpages 0 (Nat.pos_of_ne_zero hpos)
  have hend := page_end_le hu hbad
  have hoff : 0 < pgSize - va % pgSize := Nat.sub_pos_of_lt (Nat.mod_lt _ (by decide))
  rw [copyout_step (Nat.zero_lt_of_lt hn).ne' hmap hu, copyout_step hpos hmap hu,
    Nat.min_eq_left (hend.trans hn.le), Nat.min_eq_left hend]
  have hsame : SameTables root m
    (memcpy m (userFrame root m va + va % pgSize) (fun k => m (src + k))
      (pgSize - va % pgSize)) := by
    refine sameTables_memcpy fun t ht y h1 h2 => ?_
    exact hmap.tables va hu t ht y (by omega) (by omega)
  obtain ⟨hpages', hbad'⟩ := hsame.rest hend hpages hbad
  exact ih _ (Nat.sub_lt (Nat.pos_of_ne_zero hpos) hoff) _ _ _ _ (hsame.userMap hmap)
    (by omega) hpages' hbad'

theorem copyin_stops (n : Nat) : ∀ (len va dst : Nat) (m : Bytes), UserMap root m →
    Buffer root m dst len →
    n < len → (∀ k < n, UserPage root m (va + k)) → ¬ UserPage root m (va + n) →
    copyin root dst va len m = (-1, (copyin root dst va n m).2) := by
  induction n using Nat.strong_induction_on with
  | _ n ih =>
  intro len va dst m hmap hbuf hn hpages hbad
  rcases eq_or_ne n 0 with rfl | hpos
  · have hzero := (walkaddr_page_eq_zero hmap).mpr hbad
    rw [copyin, dif_neg hn.ne', copyin, dif_pos rfl]
    exact if_pos hzero
  have hu : UserPage root m va := hpages 0 (Nat.pos_of_ne_zero hpos)
  have hend := page_end_le hu hbad
  have hoff : 0 < pgSize - va % pgSize := Nat.sub_pos_of_lt (Nat.mod_lt _ (by decide))
  rw [copyin_step (Nat.zero_lt_of_lt hn).ne' hmap hu, copyin_step hpos hmap hu,
    Nat.min_eq_left (hend.trans hn.le), Nat.min_eq_left hend]
  have hsame : SameTables root m (memcpy m dst (fun k => m (userFrame root m va + va % pgSize + k))
      (pgSize - va % pgSize)) := sameTables_buffer hbuf (hend.trans hn.le)
  obtain ⟨hpages', hbad'⟩ := hsame.rest hend hpages hbad
  exact ih _ (Nat.sub_lt (Nat.pos_of_ne_zero hpos) hoff) _ _ _ _ (hsame.userMap hmap)
    (hsame.buffer hbuf (hend.trans hn.le)) (by omega) hpages' hbad'

/-! ## Memories of their own -/

/-- The bytes at the addresses that a process may use, and those of the kernel. -/
structure Memories (π : Type) where
  user : π → Nat → Option UInt8
  kernel : Nat → UInt8

/-- What a process or the kernel does, and its result. -/
inductive Access (π : Type)
  | stored (p : π) (a : Nat) (v : UInt8)
  | loaded (p : π) (a : Nat) (v : UInt8)
  | kernelStored (x : Nat) (v : UInt8)
  | copiedOut (p : π) (va src len : Nat) (r : Int)
  | copiedIn (p : π) (dst va len : Nat) (r : Int)

/-- Of a range of `len` addresses the first `n` are mapped, and the next one is not or there is
none. -/
def Stops (u : Nat → Option UInt8) (va len n : Nat) (r : Int) : Prop :=
  (∀ k < n, (u (va + k)).isSome) ∧ (n = len ∧ r = 0 ∨ n < len ∧ u (va + n) = none ∧ r = -1)

/-- `n` bytes from `va` on become those of `f`. -/
def overwrite {α : Type} (u : Nat → α) (va n : Nat) (f : Nat → α) : Nat → α := fun a =>
  if va ≤ a ∧ a < va + n then f (a - va) else u a

variable {π : Type}

inductive Memories.Step [DecidableEq π] : Memories π → Access π → Memories π → Prop
  | store {s : Memories π} {p : π} {a : Nat} {v : UInt8} : (s.user p a).isSome →
      Step s (.stored p a v) { s with
        user := Function.update s.user p (Function.update (s.user p) a (some v)) }
  | load {s : Memories π} {p : π} {a : Nat} {v : UInt8} : s.user p a = some v →
      Step s (.loaded p a v) s
  | kernelStore {s : Memories π} {x : Nat} {v : UInt8} :
      Step s (.kernelStored x v) { s with kernel := Function.update s.kernel x v }
  | copyout {s : Memories π} {p : π} {va src len n : Nat} {r : Int} : Stops (s.user p) va len n r →
      Step s (.copiedOut p va src len r)
        { s with
          user := Function.update s.user p
            (overwrite (s.user p) va n fun k => some (s.kernel (src + k))) }
  | copyin {s : Memories π} {p : π} {dst va len n : Nat} {r : Int} : Stops (s.user p) va len n r →
      Step s (.copiedIn p dst va len r)
        { s with kernel := overwrite s.kernel dst n fun k => (s.user p (va + k)).getD 0 }

/-! ## Processes in one memory -/

variable {root : π → Nat} {K : Set Nat}

/-- The bytes in `K` are the kernel's own. No page has two owners. -/
structure Isolated (root : π → Nat) (K : Set Nat) (m : Bytes) : Prop where
  map : ∀ p, UserMap (root p) m
  distinct : ∀ p, Distinct (root p) m
  frames : ∀ p q a b, p ≠ q → UserPage (root p) m a → UserPage (root q) m b →
    userFrame (root p) m a ≠ userFrame (root q) m b
  tables : ∀ p q a, UserPage (root p) m a → ∀ t ∈ tables (root q) (pageTables m),
    Apart (userFrame (root p) m a) pgSize t pgSize
  kernel_frames : ∀ p a, UserPage (root p) m a → ∀ x ∈ K,
    ¬ (userFrame (root p) m a ≤ x ∧ x < userFrame (root p) m a + pgSize)
  kernel_tables : ∀ p, ∀ t ∈ Vmem.tables (root p) (pageTables m), ∀ x ∈ K,
    ¬ (t ≤ x ∧ x < t + pgSize)

/-- The steps of harts that run processes, and of the kernel. A hart stores and loads at the
translation of a user address, and a copy has a buffer of the kernel. -/
inductive AccessStep (root : π → Nat) (K : Set Nat) : Bytes → Access π → Bytes → Prop
  | store {m : Bytes} {p : π} {a : Nat} {v : UInt8} : UserPage (root p) m a →
      AccessStep root K m (.stored p a v) (Function.update m (phys (root p) m a) v)
  | load {m : Bytes} {p : π} {a : Nat} : UserPage (root p) m a →
      AccessStep root K m (.loaded p a (m (phys (root p) m a))) m
  | kernelStore {m : Bytes} {x : Nat} {v : UInt8} : x ∈ K →
      AccessStep root K m (.kernelStored x v) (Function.update m x v)
  | copyout {m : Bytes} {p : π} {va src len : Nat} : (∀ k < len, src + k ∈ K) →
      AccessStep root K m (.copiedOut p va src len (copyout (root p) va src len m).1)
        (copyout (root p) va src len m).2
  | copyin {m : Bytes} {p : π} {dst va len : Nat} : (∀ k < len, dst + k ∈ K) →
      AccessStep root K m (.copiedIn p dst va len (copyin (root p) dst va len m).1)
        (copyin (root p) dst va len m).2

/-- The memory of a process. -/
def userMemory (root : Nat) (m : Bytes) (a : Nat) : Option UInt8 :=
  if UserPage root m a then some (m (phys root m a)) else none

/-- What the memory stands for. -/
structure Shows (root : π → Nat) (K : Set Nat) (s : Memories π) (m : Bytes) : Prop where
  isolated : Isolated root K m
  user : ∀ p, s.user p = userMemory (root p) m
  kernel : ∀ x ∈ K, s.kernel x = m x

theorem Isolated.same (h : Isolated root K m) (hsame : ∀ p, SameTables (root p) m m') :
    Isolated root K m' where
  map p := (hsame p).userMap (h.map p)
  distinct p := (hsame p).distinct (h.distinct p)
  frames p q a b hne ha hb := by
    rw [(hsame p).userFrame, (hsame q).userFrame]
    exact h.frames p q a b hne ((hsame p).userPage.mp ha) ((hsame q).userPage.mp hb)
  tables p q a ha t ht := by
    rw [(hsame q).tables] at ht
    rw [(hsame p).userFrame]
    exact h.tables p q a ((hsame p).userPage.mp ha) t ht
  kernel_frames p a ha x hx := by
    rw [(hsame p).userFrame]
    exact h.kernel_frames p a ((hsame p).userPage.mp ha) x hx
  kernel_tables p t ht x hx := by
    rw [(hsame p).tables] at ht
    exact h.kernel_tables p t ht x hx

theorem Isolated.buffer (h : Isolated root K m) {buf : Nat} (p : π)
    (hbuf : ∀ k < len, buf + k ∈ K) :
    Buffer (root p) m buf len where
  frames a ha x h1 h2 := by
    obtain ⟨k, rfl⟩ := Nat.exists_eq_add_of_le h1
    exact h.kernel_frames p a ha _ (hbuf k (by omega))
  tables t ht x h1 h2 := by
    obtain ⟨k, rfl⟩ := Nat.exists_eq_add_of_le h1
    exact h.kernel_tables p t ht _ (hbuf k (by omega))

theorem frame_of_phys (r : Nat) (a : Nat) : phys r m a / pgSize * pgSize = userFrame r m a := by
  have hframe := frame_mod r m a
  have hlt : a % pgSize < pgSize := Nat.mod_lt _ (by decide)
  rw [phys]
  simp only [pgSize] at *
  omega

/-- The translations of user addresses of different processes differ. -/
theorem Isolated.phys_ne (h : Isolated root K m) {p q : π} {a b : Nat} (hne : p ≠ q)
    (ha : UserPage (root p) m a) (hb : UserPage (root q) m b) :
    phys (root p) m a ≠ phys (root q) m b := by
  intro heq
  refine h.frames p q a b hne ha hb ?_
  rw [← frame_of_phys, heq, frame_of_phys]

/-- The bytes of the kernel and those at user addresses are not in the page tables. -/
theorem Isolated.sameTables (h : Isolated root K m) (q : π) (hdiff : ∀ x, m' x ≠ m x →
    x ∈ K ∨ ∃ p a, UserPage (root p) m a ∧ x = phys (root p) m a) : SameTables (root q) m m' := by
  intro t ht y h1 h2
  by_contra hne
  rcases hdiff y hne with hK | ⟨p, a, ha, rfl⟩
  · exact h.kernel_tables q t ht y hK ⟨h1, h2⟩
  · exact h.tables p q a ha t ht _ phys_mem.1 phys_mem.2 ⟨h1, h2⟩

/-- Bytes of a process change. -/
theorem Shows.setUser [DecidableEq π] {s : Memories π} {p : π} {u : Nat → Option UInt8}
    (h : Shows root K s m)
    (hdiff : ∀ x, m' x ≠ m x → ∃ a, UserPage (root p) m a ∧ x = phys (root p) m a)
    (hu : ∀ a, u a = if UserPage (root p) m a then some (m' (phys (root p) m a)) else none) :
    Shows root K { s with user := Function.update s.user p u } m' ∧
      ∀ q, SameTables (root q) m m' := by
  have hsame : ∀ q, SameTables (root q) m m' := fun q =>
    h.isolated.sameTables q fun x hx => .inr ⟨p, hdiff x hx⟩
  refine ⟨⟨h.isolated.same hsame, fun q => ?_, fun x hx => ?_⟩, hsame⟩
  · funext a
    rw [userMemory, if_congr (hsame q).userPage rfl rfl, (hsame q).phys]
    dsimp only
    rcases eq_or_ne q p with rfl | hq
    · rw [Function.update_self, hu]
    · have hkept : UserPage (root q) m a → m' (phys (root q) m a) = m (phys (root q) m a) := by
        intro ha
        by_contra hne
        obtain ⟨b, hb, heq⟩ := hdiff _ hne
        exact h.isolated.phys_ne hq ha hb heq
      rw [Function.update_of_ne hq, h.user q, userMemory]
      split
      · next ha => rw [hkept ha]
      · rfl
  · refine (h.kernel x hx).trans ?_
    by_contra hne
    obtain ⟨a, ha, rfl⟩ := hdiff x (Ne.symm hne)
    exact h.isolated.kernel_frames p a ha _ hx phys_mem

/-- Bytes of the kernel change. -/
theorem Shows.setKernel {s : Memories π} {f : Nat → UInt8} (h : Shows root K s m)
    (hdiff : ∀ x, m' x ≠ m x → x ∈ K) (hf : ∀ x ∈ K, f x = m' x) :
    Shows root K { s with kernel := f } m' ∧ ∀ q, SameTables (root q) m m' := by
  have hsame : ∀ q, SameTables (root q) m m' := fun q =>
    h.isolated.sameTables q fun x hx => .inl (hdiff x hx)
  refine ⟨⟨h.isolated.same hsame, fun q => ?_, hf⟩, hsame⟩
  funext a
  rw [h.user q, userMemory, userMemory, if_congr (hsame q).userPage rfl rfl, (hsame q).phys]
  split
  · next ha =>
    have hkept : m' (phys (root q) m a) = m (phys (root q) m a) := by
      by_contra hne
      exact h.isolated.kernel_frames q a ha _ (hdiff _ hne) phys_mem
    rw [hkept]
  · rfl

theorem userMemory_isSome {r a : Nat} : (userMemory r m a).isSome ↔ UserPage r m a := by
  rw [userMemory]
  split <;> simp [*]

/-- A range is mapped, or there is a first address that is not. -/
theorem stops_or (r va len : Nat) (m : Bytes) : (∀ k < len, UserPage r m (va + k)) ∨
    ∃ n < len, (∀ k < n, UserPage r m (va + k)) ∧ ¬ UserPage r m (va + n) := by
  by_cases hall : ∀ k < len, UserPage r m (va + k)
  · exact .inl hall
  · have hex : ∃ n, n < len ∧ ¬ UserPage r m (va + n) := by simpa using hall
    refine .inr ⟨Nat.find hex, (Nat.find_spec hex).1, fun k hk => ?_, (Nat.find_spec hex).2⟩
    by_contra hbad
    exact Nat.find_min hex hk ⟨hk.trans (Nat.find_spec hex).1, hbad⟩

/-- `copyout` has copied `n` bytes when it returns. -/
theorem Isolated.copyout_ends (h : Isolated root K m) (p : π) (va : Nat)
    (hbuf : ∀ k < len, src + k ∈ K) :
    ∃ n, Stops (userMemory (root p) m) va len n (copyout (root p) va src len m).1 ∧ n ≤ len ∧
    (∀ k < n, UserPage (root p) m (va + k)) ∧
    (∀ k < n, (copyout (root p) va src len m).2 (phys (root p) m (va + k)) = m (src + k)) ∧
    ∀ x, (∀ k < n, x ≠ phys (root p) m (va + k)) → (copyout (root p) va src len m).2 x = m x := by
  have hspec : ∀ n ≤ len, CopiedOut (root p) va src n m (copyout (root p) va src n m) := fun n hn =>
    copyout_spec n va src m (h.map p) (h.distinct p)
      (h.buffer p fun k hk => hbuf k (hk.trans_le hn))
  rcases stops_or (root p) va len m with hall | ⟨n, hn, hpages, hbad⟩
  · have hres := (hspec len le_rfl).result.mpr hall
    refine ⟨len, ⟨fun k hk => userMemory_isSome.mpr (hall k hk), .inl ⟨rfl, hres⟩⟩,
      le_rfl, hall, ?_⟩
    exact ((hspec len le_rfl).stored hres).2
  · have hres := (hspec n hn.le).result.mpr hpages
    rw [copyout_stops n len va src m (h.map p) hn hpages hbad]
    refine ⟨n, ⟨fun k hk => userMemory_isSome.mpr (hpages k hk), .inr ⟨hn, if_neg hbad, rfl⟩⟩,
      hn.le, hpages, ?_⟩
    exact ((hspec n hn.le).stored hres).2

theorem Isolated.copyin_ends (h : Isolated root K m) (p : π) (va : Nat)
    (hbuf : ∀ k < len, dst + k ∈ K) :
    ∃ n, Stops (userMemory (root p) m) va len n (copyin (root p) dst va len m).1 ∧ n ≤ len ∧
    (∀ k < n, UserPage (root p) m (va + k)) ∧
    (∀ k < n, (copyin (root p) dst va len m).2 (dst + k) = m (phys (root p) m (va + k))) ∧
    ∀ x, x < dst ∨ dst + n ≤ x → (copyin (root p) dst va len m).2 x = m x := by
  have hspec : ∀ n ≤ len, CopiedIn (root p) dst va n m (copyin (root p) dst va n m) := fun n hn =>
    copyin_spec n va dst m (h.map p) (h.buffer p fun k hk => hbuf k (hk.trans_le hn))
  rcases stops_or (root p) va len m with hall | ⟨n, hn, hpages, hbad⟩
  · have hres := (hspec len le_rfl).result.mpr hall
    refine ⟨len, ⟨fun k hk => userMemory_isSome.mpr (hall k hk), .inl ⟨rfl, hres⟩⟩,
      le_rfl, hall, ?_⟩
    exact (hspec len le_rfl).stored hres
  · have hres := (hspec n hn.le).result.mpr hpages
    rw [copyin_stops n len va dst m (h.map p) (h.buffer p hbuf) hn hpages hbad]
    refine ⟨n, ⟨fun k hk => userMemory_isSome.mpr (hpages k hk), .inr ⟨hn, if_neg hbad, rfl⟩⟩,
      hn.le, hpages, ?_⟩
    exact (hspec n hn.le).stored hres

theorem Shows.step [DecidableEq π] {s : Memories π} {act : Access π} (h : Shows root K s m)
    (hs : AccessStep root K m act m') :
    ∃ s', Memories.Step s act s' ∧ Shows root K s' m' ∧ ∀ q, SameTables (root q) m m' := by
  have hiso := h.isolated
  cases hs with
  | @store p a v ha =>
    refine ⟨_, .store (by rw [h.user p]; exact userMemory_isSome.mpr ha), h.setUser ?_ fun b => ?_⟩
    · intro x hx
      refine ⟨a, ha, ?_⟩
      by_contra hne
      exact hx (Function.update_of_ne hne _ _)
    · rcases eq_or_ne b a with rfl | hb
      · rw [Function.update_self, Function.update_self, if_pos ha]
      · rw [Function.update_of_ne hb, h.user p, userMemory]
        refine ite_congr rfl (fun hb' => ?_) fun _ => rfl
        rw [Function.update_of_ne fun heq => hb (phys_inj (hiso.distinct p) hb' ha heq)]
  | @load p a ha => exact ⟨s, .load (by rw [h.user p]; exact if_pos ha), h, fun _ => .refl _ _⟩
  | @kernelStore x v hx =>
    refine ⟨_, .kernelStore, h.setKernel (fun y hy => ?_) fun y hy => ?_⟩
    · rcases eq_or_ne y x with rfl | hne
      · exact hx
      · exact absurd (Function.update_of_ne hne _ _) hy
    · rcases eq_or_ne y x with rfl | hne
      · rw [Function.update_self, Function.update_self]
      · rw [Function.update_of_ne hne, Function.update_of_ne hne]
        exact h.kernel y hy
  | @copyout p va src len hbuf =>
    obtain ⟨n, hstops, hlen, hpages, hbytes, hother⟩ := hiso.copyout_ends p va hbuf
    refine ⟨_, .copyout (by rw [h.user p]; exact hstops), h.setUser (fun x hx => ?_) fun a => ?_⟩
    · by_contra hno
      refine hx (hother x fun k hk heq => hno ⟨va + k, hpages k hk, heq⟩)
    · rw [overwrite]
      split
      · next hin =>
        obtain ⟨k, rfl⟩ := Nat.exists_eq_add_of_le hin.1
        have hk : k < n := by omega
        rw [Nat.add_sub_cancel_left, if_pos (hpages k hk), hbytes k hk,
          h.kernel _ (hbuf k (by omega))]
      · next hout =>
        rw [h.user p, userMemory]
        refine ite_congr rfl (fun ha => ?_) fun _ => rfl
        rw [hother _ fun k hk heq => ?_]
        have := phys_inj (hiso.distinct p) ha (hpages k hk) heq
        omega
  | @copyin p dst va len hbuf =>
    obtain ⟨n, hstops, hlen, hpages, hbytes, hother⟩ := hiso.copyin_ends p va hbuf
    refine ⟨_, .copyin (by rw [h.user p]; exact hstops),
      h.setKernel (fun x hx => ?_) fun x hx => ?_⟩
    · have hin : dst ≤ x ∧ x < dst + n := by
        by_contra hout
        exact hx (hother x (by omega))
      obtain ⟨k, rfl⟩ := Nat.exists_eq_add_of_le hin.1
      exact hbuf k (by omega)
    · rw [overwrite]
      split
      · next hin =>
        obtain ⟨k, rfl⟩ := Nat.exists_eq_add_of_le hin.1
        have hk : k < n := by omega
        rw [Nat.add_sub_cancel_left, hbytes k hk, h.user p, userMemory, if_pos (hpages k hk)]
        rfl
      · next hout =>
        rw [hother x (by omega)]
        exact h.kernel x hx

/-- The processes behave as processes that have memories of their own, and their page tables
stay. -/
theorem memories_apart [DecidableEq π] {m₀ : Bytes} {acts : List (Access π)}
    (h₀ : Isolated root K m₀) (hrun : Run (AccessStep root K) m₀ acts m) : ∃ s : Memories π,
    Run Memories.Step ⟨fun p => userMemory (root p) m₀, m₀⟩ acts s ∧
      (∀ p a, s.user p a = if UserPage (root p) m a then some (m (phys (root p) m a)) else none) ∧
      (∀ x ∈ K, s.kernel x = m x) ∧ ∀ p, SameTables (root p) m₀ m := by
  have hshows : ∃ s : Memories π, Run Memories.Step ⟨fun p => userMemory (root p) m₀, m₀⟩ acts s ∧
      Shows root K s m ∧ ∀ p, SameTables (root p) m₀ m := by
    induction hrun with
    | nil => exact ⟨_, .nil _, ⟨h₀, fun _ => rfl, fun _ _ => rfl⟩, fun _ => .refl _ _⟩
    | snoc _ hs ih =>
      obtain ⟨s, hrun', hshows, hsame⟩ := ih
      obtain ⟨s', hstep, hshows', hsame'⟩ := hshows.step hs
      exact ⟨s', hrun'.snoc hstep, hshows', fun p => SameTables.trans (hsame p) (hsame' p)⟩
  obtain ⟨s, hrun', hshows, hsame⟩ := hshows
  exact ⟨s, hrun', fun p a => congrFun (hshows.user p) a, hshows.kernel, hsame⟩

/-! ### Two processes -/

/-- Page tables at 4096 for two pages, and at 65536 for one. -/
def twoSpaces : Bytes := words [(4096, 2049), (8192, 3073), (12288, 5137), (12296, 4113),
  (65536, 17409), (69632, 18433), (73728, 19473)]

def twoRoots (p : Bool) : Nat := if p then 4096 else 65536

def kernelPage : Set Nat := {x | 32768 ≤ x ∧ x < 36864}

theorem twoSpaces_mem {x i : Nat} (hx : x % 8 = 0) : (pageTables twoSpaces).mem x i =
    if i < 512 then
    if x + 8 * i = 4096 then 2049 else if x + 8 * i = 8192 then 3073
    else if x + 8 * i = 12288 then 5137 else if x + 8 * i = 12296 then 4113
    else if x + 8 * i = 65536 then 17409 else if x + 8 * i = 69632 then 18433
    else if x + 8 * i = 73728 then 19473 else 0 else 0 := by
  have hi : (x + 8 * i) % 8 = 0 := by omega
  simp only [pageTables, twoSpaces, getLe_words_nil,
    getLe_words_cons (show 2049 < 256 ^ 8 by decide) hi (show 4096 % 8 = 0 from rfl),
    getLe_words_cons (show 3073 < 256 ^ 8 by decide) hi (show 8192 % 8 = 0 from rfl),
    getLe_words_cons (show 5137 < 256 ^ 8 by decide) hi (show 12288 % 8 = 0 from rfl),
    getLe_words_cons (show 4113 < 256 ^ 8 by decide) hi (show 12296 % 8 = 0 from rfl),
    getLe_words_cons (show 17409 < 256 ^ 8 by decide) hi (show 65536 % 8 = 0 from rfl),
    getLe_words_cons (show 18433 < 256 ^ 8 by decide) hi (show 69632 % 8 = 0 from rfl),
    getLe_words_cons (show 19473 < 256 ^ 8 by decide) hi (show 73728 % 8 = 0 from rfl)]

theorem twoSpaces_first : LowPages 4096 2 twoFrames twoSpaces := by
  refine ⟨fun i => ?_, fun i => ?_, fun i => ?_, rfl, by decide, by decide, by decide⟩
  · rw [twoSpaces_mem rfl, show pa2pte (4096 + pgSize) ||| pteV = 2049 from rfl]
    grind
  · rw [twoSpaces_mem rfl, show pa2pte (4096 + 2 * pgSize) ||| pteV = 3073 from rfl]
    simp only [pgSize]
    grind
  · rw [twoSpaces_mem rfl]
    match i with
    | 0 => rfl
    | 1 => rfl
    | i + 2 =>
      simp only [pgSize]
      grind

theorem twoSpaces_second : LowPages 65536 1 (fun _ => 77824) twoSpaces := by
  refine ⟨fun i => ?_, fun i => ?_, fun i => ?_, rfl, by decide, by decide, fun _ _ => by decide⟩
  · rw [twoSpaces_mem rfl, show pa2pte (65536 + pgSize) ||| pteV = 17409 from rfl]
    grind
  · rw [twoSpaces_mem rfl, show pa2pte (65536 + 2 * pgSize) ||| pteV = 18433 from rfl]
    simp only [pgSize]
    grind
  · rw [twoSpaces_mem rfl, show leafPte 77824 pteU = 19473 from rfl]
    simp only [pgSize]
    grind

theorem twoRoots_frame {p : Bool} {a : Nat} (h : UserPage (twoRoots p) twoSpaces a) :
    p = true ∧ (userFrame (twoRoots p) twoSpaces a = 20480 ∨
      userFrame (twoRoots p) twoSpaces a = 16384) ∨
      p = false ∧ userFrame (twoRoots p) twoSpaces a = 77824 := by
  cases p with
  | true =>
    have hframe := twoSpaces_first.userFrame (twoSpaces_first.userPage.mp h)
    refine .inl ⟨rfl, ?_⟩
    rw [show twoRoots true = 4096 from rfl, hframe, twoFrames]
    split
    · exact .inl rfl
    · exact .inr rfl
  | false => exact .inr ⟨rfl, twoSpaces_second.userFrame (twoSpaces_second.userPage.mp h)⟩

theorem twoRoots_tables {p : Bool} {t : Nat} (h : t ∈ tables (twoRoots p) (pageTables twoSpaces)) :
    4096 ≤ t ∧ t + pgSize ≤ 16384 ∨ 65536 ≤ t ∧ t + pgSize ≤ 77824 := by
  cases p with
  | true =>
    have := twoSpaces_first.tables h
    simp only [pgSize] at *
    omega
  | false =>
    have := twoSpaces_second.tables h
    simp only [pgSize] at *
    omega

theorem twoRoots_isolated : Isolated twoRoots kernelPage twoSpaces where
  map p := by
    cases p with
    | true => exact twoSpaces_first.userMap (by decide)
    | false => exact twoSpaces_second.userMap fun _ _ => by decide
  distinct p := by
    cases p with
    | true => exact twoSpaces_first.distinct (by decide)
    | false => exact twoSpaces_second.distinct fun i hi j hj _ => by omega
  frames p q a b hne ha hb heq := by
    have hp := twoRoots_frame ha
    have hq := twoRoots_frame hb
    rw [heq] at hp
    rcases hp with ⟨rfl, hp⟩ | ⟨rfl, hp⟩ <;> rcases hq with ⟨rfl, hq⟩ | ⟨rfl, hq⟩
    · exact hne rfl
    · omega
    · omega
    · exact hne rfl
  tables p q a ha t ht y h1 h2 := by
    have := twoRoots_frame ha
    have := twoRoots_tables ht
    simp only [pgSize] at *
    omega
  kernel_frames p a ha x hx := by
    have := twoRoots_frame ha
    have hx' : 32768 ≤ x ∧ x < 36864 := hx
    simp only [pgSize]
    omega
  kernel_tables p t ht x hx := by
    have := twoRoots_tables ht
    have hx' : 32768 ≤ x ∧ x < 36864 := hx
    simp only [pgSize] at *
    omega

/-- Both processes store at one address, and the first one loads its own byte. The kernel copies it,
and a range to the second one, whose page ends before the range does. -/
theorem memories_apart_sample : ∃ (r₁ r₂ : Int) (m : Bytes),
    Run (AccessStep twoRoots kernelPage) twoSpaces
    [.stored true 5 7, .stored false 5 9, .loaded true 5 7,
      .copiedIn true 32768 5 1 r₁, .copiedOut false 4090 32768 10 r₂] m ∧
    ∃ s : Memories Bool, Run Memories.Step ⟨fun p => userMemory (twoRoots p) twoSpaces, twoSpaces⟩
      [.stored true 5 7, .stored false 5 9, .loaded true 5 7, .copiedIn true 32768 5 1 r₁,
        .copiedOut false 4090 32768 10 r₂] s ∧
      (∀ p a, s.user p a = if UserPage (twoRoots p) m a
        then some (m (phys (twoRoots p) m a)) else none) ∧
      (∀ x ∈ kernelPage, s.kernel x = m x) ∧ ∀ p, SameTables (twoRoots p) twoSpaces m := by
  have hfirst : UserPage (twoRoots true) twoSpaces 5 := twoSpaces_first.userPage.mpr (by decide)
  have hsecond : UserPage (twoRoots false) twoSpaces 5 := twoSpaces_second.userPage.mpr (by decide)
  have hphys : phys (twoRoots true) twoSpaces 5 = 20485 :=
    congrArg (· + 5 % pgSize) (twoSpaces_first.userFrame (by decide))
  have hphys' : phys (twoRoots false) twoSpaces 5 = 77829 :=
    congrArg (· + 5 % pgSize) (twoSpaces_second.userFrame (by decide))
  have h₁ : Run (AccessStep twoRoots kernelPage) twoSpaces [.stored true 5 7] _ :=
    Run.single (.store hfirst)
  have hsame₁ : ∀ p, SameTables (twoRoots p) twoSpaces _ :=
    (memories_apart twoRoots_isolated h₁).choose_spec.2.2.2
  have h₂ := h₁.snoc (l := .stored false 5 9) (.store ((hsame₁ false).userPage.mpr hsecond))
  have hsame₂ : ∀ p, SameTables (twoRoots p) twoSpaces _ :=
    (memories_apart twoRoots_isolated h₂).choose_spec.2.2.2
  have h₃ := h₂.snoc (l := .loaded true 5 7) (by
    have hload := AccessStep.load (K := kernelPage) ((hsame₂ true).userPage.mpr hfirst)
    rwa [(hsame₂ true).phys, (hsame₁ false).phys, hphys, hphys', Function.update_of_ne (by decide),
      Function.update_self] at hload)
  have hbuf : ∀ k < 1, 32768 + k ∈ kernelPage := fun k hk => ⟨by omega, by omega⟩
  have hbuf' : ∀ k < 10, 32768 + k ∈ kernelPage := fun k hk => ⟨by omega, by omega⟩
  have h₄ := h₃.snoc (l := .copiedIn true 32768 5 1 _) (.copyin hbuf)
  have h₅ := h₄.snoc (l := .copiedOut false 4090 32768 10 _) (.copyout hbuf')
  exact ⟨_, _, _, h₅, memories_apart twoRoots_isolated h₅⟩

end CoroCore.Vmem
