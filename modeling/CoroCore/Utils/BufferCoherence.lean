import CoroCore.Utils.BufferManager

/-!
# Coherence of the buffer cache

`get_derived` lets go of the lock while the victim of an eviction is written back. Afterwards
it looks for the wanted key in `buffer_list` again, but not in `flush_list`: another task may
have fetched the key, modified the buffer and had it evicted meanwhile. Then a second buffer
for the key comes to exist beside the one that is being written back.

* `coherent_of_run`: whatever the interleaving, the eviction choices and the two bounds, the
  cache is coherent as long as no call comes back to find its key in `flush_list`;
* `finish_incoherent`: four tasks that make it happen.
-/

namespace CoroCore

open Lib

namespace BufSystem

variable {K D : Type} [DecidableEq K]

/-- The buffers in `buffer_list` together with `flush_list`. -/
def live (s : BufSystem K D) : List BufId := s.bufferList.nodes ++ s.flushList.nodes

/-- What the cache promises its users. -/
structure Coherent (s : BufSystem K D) : Prop where
  /-- At most one buffer has a given key. -/
  unique : ∀ k, s.live.countP (s.isKey k) ≤ 1
  /-- A buffer in the hands of a task that is still to be loaded finds the latest contents on
  the device, and no modified buffer for its key is left to be written back. -/
  loads : ∀ b ∈ s.handles, ∀ k, (s.bufs b).key = some k → (s.bufs b).valid = false →
    s.device k = s.latest k ∧ ∀ c ∈ s.live, (s.bufs c).key = some k → (s.bufs c).dirty = false
  /-- The latest contents are in a buffer that will be written back, or on the device. -/
  noLoss : ∀ k, s.device k = s.latest k ∨
    ∃ b ∈ s.live, s.bufs b = ⟨some k, true, true, s.latest k⟩
  /-- Loaded buffers in the lists hold the latest contents. -/
  current : ∀ b ∈ s.live, ∀ k, (s.bufs b).key = some k → (s.bufs b).valid = true →
    (s.bufs b).data = s.latest k

/-- The check that `get_derived` does not make after the flush of its victim: no other buffer
for the wanted key is in `flush_list`. -/
def Revalidated (s : BufSystem K D) : Event K D → Prop
  | .finish t => ∀ k b, s.calls[t]? = some (.flushed k b) →
      ∀ c ∈ s.flushList.nodes.erase b, (s.bufs c).key ≠ some k
  | _ => True

/-! ## The buffers -/

/-- The part of the invariant about the buffers `live` in the two lists, whatever list they
are in. -/
structure Stored (live : List BufId) (bufs : BufId → Buffer K D) (next : BufId)
    (device latest : K → D) : Prop where
  nodup : live.Nodup
  fresh : ∀ b ∈ live, b < next
  unique : ∀ b ∈ live, ∀ c ∈ live, ∀ k, (bufs b).key = some k → (bufs c).key = some k → b = c
  blank : ∀ b, (bufs b).key = none → (bufs b).valid = false
  clean : ∀ b, (bufs b).valid = false → (bufs b).dirty = false
  data : ∀ b ∈ live, ∀ k, (bufs b).key = some k → (bufs b).valid = true →
    (bufs b).data = latest k
  written : ∀ k, (∀ b ∈ live, (bufs b).key = some k → (bufs b).dirty = false) →
    device k = latest k

namespace Stored

variable {live live' : List BufId} {bufs : BufId → Buffer K D} {next : BufId}
  {device latest : K → D} {b : BufId} {k : K}

omit [DecidableEq K] in
theorem perm (h : Stored live bufs next device latest) (hp : live.Perm live') :
    Stored live' bufs next device latest where
  nodup := hp.nodup_iff.mp h.nodup
  fresh b hb := h.fresh b (hp.mem_iff.mpr hb)
  unique b hb c hc := h.unique b (hp.mem_iff.mpr hb) c (hp.mem_iff.mpr hc)
  blank := h.blank
  clean := h.clean
  data b hb := h.data b (hp.mem_iff.mpr hb)
  written k hk := h.written k fun b hb => hk b (hp.mem_iff.mp hb)

omit [DecidableEq K] in
/-- A clean buffer takes a key that no other buffer has. -/
theorem init (h : Stored live bufs next device latest) (key : Option K)
    (hb : (bufs b).dirty = false)
    (hkey : ∀ c ∈ live, c ≠ b → ∀ k, key = some k → (bufs c).key ≠ some k) :
    Stored live (Function.update bufs b { bufs b with key := key, valid := false }) next
      device latest where
  nodup := h.nodup
  fresh := h.fresh
  unique c hc d hd k hck hdk := by
    rcases eq_or_ne c b with rfl | hcb <;> rcases eq_or_ne d c with hdc | hdc
    · exact hdc.symm
    · rw [Function.update_self] at hck
      rw [Function.update_of_ne hdc] at hdk
      exact absurd hdk (hkey d hd hdc k hck)
    · exact hdc.symm
    · rw [Function.update_of_ne hcb] at hck
      rcases eq_or_ne d b with rfl | hdb
      · rw [Function.update_self] at hdk
        exact absurd hck (hkey c hc hcb k hdk)
      · rw [Function.update_of_ne hdb] at hdk
        exact h.unique c hc d hd k hck hdk
  blank c := by
    rcases eq_or_ne c b with rfl | hcb
    · simp
    · simpa [Function.update_of_ne hcb] using h.blank c
  clean c := by
    rcases eq_or_ne c b with rfl | hcb
    · simpa using hb
    · simpa [Function.update_of_ne hcb] using h.clean c
  data c hc k := by
    rcases eq_or_ne c b with rfl | hcb
    · simp
    · simpa [Function.update_of_ne hcb] using h.data c hc k
  written k hk := h.written k fun c hc hck => by
    rcases eq_or_ne c b with rfl | hcb
    · exact hb
    · simpa [Function.update_of_ne hcb] using hk c hc
        (by simpa [Function.update_of_ne hcb] using hck)

omit [DecidableEq K] in
/-- A buffer allocated for a new node. -/
theorem push (h : Stored live bufs next device latest) :
    Stored (next :: live)
      (Function.update bufs next { bufs next with key := none, valid := false, dirty := false })
      (next + 1) device latest := by
  have hne : ∀ c ∈ live, c ≠ next := fun c hc => Nat.ne_of_lt (h.fresh c hc)
  refine ⟨?_, ?_, ?_, ?_, ?_, ?_, ?_⟩
  · exact List.nodup_cons.mpr ⟨fun hm => (hne next hm) rfl, h.nodup⟩
  · intro c hc
    rcases List.mem_cons.mp hc with rfl | hc
    · exact Nat.lt_succ_self c
    · exact Nat.lt_succ_of_lt (h.fresh c hc)
  · intro c hc d hd k hck hdk
    rcases List.mem_cons.mp hc with rfl | hc
    · simp at hck
    · rcases List.mem_cons.mp hd with rfl | hd
      · simp at hdk
      · rw [Function.update_of_ne (hne c hc)] at hck
        rw [Function.update_of_ne (hne d hd)] at hdk
        exact h.unique c hc d hd k hck hdk
  · intro c
    rcases eq_or_ne c next with rfl | hcn
    · simp
    · simpa [Function.update_of_ne hcn] using h.blank c
  · intro c
    rcases eq_or_ne c next with rfl | hcn
    · simp
    · simpa [Function.update_of_ne hcn] using h.clean c
  · intro c hc k
    rcases List.mem_cons.mp hc with rfl | hc
    · simp
    · simpa [Function.update_of_ne (hne c hc)] using h.data c hc k
  · intro k hk
    refine h.written k fun c hc hck => ?_
    have := hk c (List.mem_cons_of_mem _ hc)
    rw [Function.update_of_ne (hne c hc)] at this
    exact this hck

/-- `flush` of a dirty buffer. -/
theorem flush (h : Stored live bufs next device latest) (hb : b ∈ live)
    (hk : (bufs b).key = some k) (hv : (bufs b).valid = true) :
    Stored live (Function.update bufs b { bufs b with dirty := false }) next
      (Function.update device k (bufs b).data) latest where
  nodup := h.nodup
  fresh := h.fresh
  unique c hc d hd k' hck hdk := by
    refine h.unique c hc d hd k' ?_ ?_
    · rcases eq_or_ne c b with rfl | hcb <;> simp_all [Function.update_of_ne]
    · rcases eq_or_ne d b with rfl | hdb <;> simp_all [Function.update_of_ne]
  blank c := by
    rcases eq_or_ne c b with rfl | hcb
    · simp [hk]
    · simpa [Function.update_of_ne hcb] using h.blank c
  clean c := by
    rcases eq_or_ne c b with rfl | hcb
    · simp
    · simpa [Function.update_of_ne hcb] using h.clean c
  data c hc k' := by
    rcases eq_or_ne c b with rfl | hcb
    · simpa using h.data c hc k'
    · simpa [Function.update_of_ne hcb] using h.data c hc k'
  written k' hk' := by
    rcases eq_or_ne k' k with rfl | hkk
    · rw [Function.update_self]
      exact h.data b hb k' hk hv
    · rw [Function.update_of_ne hkk]
      refine h.written k' fun c hc hck => ?_
      rcases eq_or_ne c b with rfl | hcb
      · exact absurd (Option.some.inj (hck.symm.trans hk)) hkk
      · simpa [Function.update_of_ne hcb] using hk' c hc
          (by simpa [Function.update_of_ne hcb] using hck)

omit [DecidableEq K] in
/-- The load of an invalid buffer. -/
theorem load (h : Stored live bufs next device latest) (hb : b ∈ live)
    (hk : (bufs b).key = some k) (hv : (bufs b).valid = false) :
    Stored live (Function.update bufs b ⟨some k, true, false, device k⟩) next device latest := by
  have hkey : ∀ c, (Function.update bufs b ⟨some k, true, false, device k⟩ c).key =
      (bufs c).key := by
    intro c
    rcases eq_or_ne c b with rfl | hcb
    · simp [hk]
    · simp [Function.update_of_ne hcb]
  have hdirty : ∀ c,
      (Function.update bufs b ⟨some k, true, false, device k⟩ c).dirty = (bufs c).dirty := by
    intro c
    rcases eq_or_ne c b with rfl | hcb
    · simp [h.clean c hv]
    · simp [Function.update_of_ne hcb]
  -- the buffer is the only one for its key and it is clean
  have hdev : device k = latest k := by
    refine h.written k fun c hc hck => ?_
    rw [h.unique c hc b hb k hck hk]
    exact h.clean b hv
  refine ⟨h.nodup, h.fresh, ?_, ?_, ?_, ?_, ?_⟩
  · simpa only [hkey] using h.unique
  · intro c hck
    rcases eq_or_ne c b with rfl | hcb
    · simp at hck
    · rw [Function.update_of_ne hcb] at hck ⊢
      exact h.blank c hck
  · intro c hcv
    rcases eq_or_ne c b with rfl | hcb
    · simp
    · rw [Function.update_of_ne hcb] at hcv ⊢
      exact h.clean c hcv
  · intro c hc k' hck hcv
    rcases eq_or_ne c b with rfl | hcb
    · rw [Function.update_self] at hck ⊢
      cases hck
      exact hdev
    · rw [Function.update_of_ne hcb] at hck hcv ⊢
      exact h.data c hc k' hck hcv
  · simpa only [hkey, hdirty] using h.written

/-- A store into a loaded buffer. -/
theorem modify (h : Stored live bufs next device latest) (hb : b ∈ live)
    (hk : (bufs b).key = some k) (d : D) :
    Stored live (Function.update bufs b ⟨some k, true, true, d⟩) next device
      (Function.update latest k d) := by
  have hkey : ∀ c, (Function.update bufs b ⟨some k, true, true, d⟩ c).key = (bufs c).key := by
    intro c
    rcases eq_or_ne c b with rfl | hcb
    · simp [hk]
    · simp [Function.update_of_ne hcb]
  refine ⟨h.nodup, h.fresh, ?_, ?_, ?_, ?_, ?_⟩
  · simpa only [hkey] using h.unique
  · intro c hck
    rcases eq_or_ne c b with rfl | hcb
    · simp at hck
    · rw [Function.update_of_ne hcb] at hck ⊢
      exact h.blank c hck
  · intro c hcv
    rcases eq_or_ne c b with rfl | hcb
    · simp at hcv
    · rw [Function.update_of_ne hcb] at hcv ⊢
      exact h.clean c hcv
  · intro c hc k' hck hcv
    rcases eq_or_ne c b with rfl | hcb
    · rw [Function.update_self] at hck ⊢
      cases hck
      simp
    · rw [Function.update_of_ne hcb] at hck hcv ⊢
      -- another loaded buffer has another key
      have hkk : k' ≠ k := fun e => hcb (h.unique c hc b hb k' hck (e ▸ hk))
      rw [Function.update_of_ne hkk]
      exact h.data c hc k' hck hcv
  · intro k' hk'
    rcases eq_or_ne k' k with rfl | hkk
    · simpa using hk' b hb
    · rw [Function.update_of_ne hkk]
      refine h.written k' fun c hc hck => ?_
      rcases eq_or_ne c b with rfl | hcb
      · exact absurd (Option.some.inj (hck.symm.trans hk)) hkk
      · simpa [Function.update_of_ne hcb] using hk' c hc
          (by simpa [Function.update_of_ne hcb] using hck)

end Stored

/-! ## The calls and the pointers in the hands of tasks -/

/-- The part of the invariant about who points to which buffer. -/
structure Owned (s : BufSystem K D) : Prop where
  handed : ∀ b ∈ s.handles, b ∈ s.bufferList.nodes
  keyed : ∀ b ∈ s.handles, (s.bufs b).key ≠ none
  inFlush : ∀ (t : Nat) (c : Call K) (b : BufId), s.calls[t]? = some c → c.buf = some b →
    b ∈ s.flushList.nodes
  apart : ∀ (t u : Nat) (c d : Call K) (b : BufId), s.calls[t]? = some c → s.calls[u]? = some d →
    c.buf = some b → d.buf = some b → t = u
  written : ∀ (t : Nat) (k : K) (b : BufId), s.calls[t]? = some (.flushed k b) →
    (s.bufs b).dirty = false

/-- The invariant of the cache. -/
structure CacheInv (s : BufSystem K D) : Prop where
  stored : Stored s.live s.bufs s.next s.device s.latest
  owned : s.Owned

omit [DecidableEq K] in
theorem CacheInv.init (device : K → D) (d : D) : (init device d).CacheInv := by
  refine ⟨⟨?_, ?_, ?_, ?_, ?_, ?_, ?_⟩, ⟨?_, ?_, ?_, ?_, ?_⟩⟩ <;>
    simp [BufSystem.init, live, PtrList.empty]

theorem countP_key_le_one {s : BufSystem K D} (h : s.CacheInv) (k : K) :
    s.live.countP (s.isKey k) ≤ 1 := by
  rw [List.countP_eq_length_filter]
  have hnd : (s.live.filter (s.isKey k)).Nodup := h.stored.nodup.filter _
  have hall : ∀ b ∈ s.live.filter (s.isKey k), b ∈ s.live ∧ (s.bufs b).key = some k := by
    intro b hb
    simpa [isKey] using List.mem_filter.mp hb
  match hl : s.live.filter (s.isKey k) with
  | [] => simp
  | [b] => simp
  | b :: c :: l =>
    rw [hl] at hnd hall
    have hb := hall b (by simp)
    have hc := hall c (by simp)
    have hbc : b = c := h.stored.unique b hb.1 c hc.1 k hb.2 hc.2
    simp [hbc] at hnd

theorem CacheInv.coherent {s : BufSystem K D} (h : s.CacheInv) : s.Coherent where
  unique := countP_key_le_one h
  loads b hb k hk hv := by
    have hlive : b ∈ s.live := List.mem_append_left _ (h.owned.handed b hb)
    have hclean : ∀ c ∈ s.live, (s.bufs c).key = some k → (s.bufs c).dirty = false := by
      intro c hc hck
      rw [h.stored.unique c hc b hlive k hck hk]
      exact h.stored.clean b hv
    exact ⟨h.stored.written k hclean, hclean⟩
  noLoss k := by
    by_cases hd : ∀ b ∈ s.live, (s.bufs b).key = some k → (s.bufs b).dirty = false
    · exact .inl (h.stored.written k hd)
    · push Not at hd
      obtain ⟨b, hb, hk, hdirty⟩ := hd
      have hv : (s.bufs b).valid = true := by
        rcases hv : (s.bufs b).valid with _ | _
        · exact absurd (h.stored.clean b hv) hdirty
        · rfl
      refine .inr ⟨b, hb, ?_⟩
      rw [← h.stored.data b hb k hk hv, ← hk]
      have hd : (s.bufs b).dirty = true := by simpa using hdirty
      rw [show s.bufs b = ⟨(s.bufs b).key, (s.bufs b).valid, (s.bufs b).dirty, (s.bufs b).data⟩
        from rfl, hv, hd]
  current := h.stored.data

/-! ## Preservation

A buffer on its way from one list to the other, or just allocated, is in neither: `Limbo`
says that the invariant holds with it set apart. -/

/-- The invariant while `b` is outside the lists. -/
structure Limbo (s : BufSystem K D) (b : BufId) : Prop where
  stored : Stored (b :: s.live) s.bufs s.next s.device s.latest
  owned : s.Owned
  unheld : b ∉ s.handles

section Steps

variable {s : BufSystem K D} {t : Nat} {k : K} {b : BufId} {c : Call K}

omit [DecidableEq K] in
theorem mem_live : b ∈ s.live ↔ b ∈ s.bufferList.nodes ∨ b ∈ s.flushList.nodes :=
  List.mem_append

omit [DecidableEq K] in
theorem getElem?_set_some {calls : List (Call K)} {u : Nat} {d : Call K}
    (h : (calls.set t c)[u]? = some d) : (u = t ∧ d = c) ∨ (u ≠ t ∧ calls[u]? = some d) := by
  rw [List.getElem?_set] at h
  split at h
  · split at h
    · exact .inl ⟨by simp_all, by simp_all⟩
    · cases h
  · exact .inr ⟨by simp_all [eq_comm], h⟩

omit [DecidableEq K] in
/-- A call moves on to a point where it holds no buffer. -/
theorem Owned.setCall (h : s.Owned) (hc : c.buf = none) : (s.setCall t c).Owned := by
  have hget : ∀ (u : Nat) (d : Call K) (b : BufId), (s.calls.set t c)[u]? = some d →
      d.buf = some b → s.calls[u]? = some d := by
    intro u d b hu hd
    rcases getElem?_set_some hu with ⟨-, rfl⟩ | ⟨-, hu⟩
    · simp [hc] at hd
    · exact hu
  exact {
    handed := h.handed
    keyed := h.keyed
    inFlush := fun u d b hu hd => h.inFlush u d b (hget u d b hu hd) hd
    apart := fun u v d e b hu hv hd he =>
      h.apart u v d e b (hget u d b hu hd) (hget v e b hv he) hd he
    written := fun u k b hu => h.written u k b (hget u _ b hu rfl) }

omit [DecidableEq K] in
theorem CacheInv.setCall (h : s.CacheInv) (hc : c.buf = none) : (s.setCall t c).CacheInv :=
  ⟨h.stored, h.owned.setCall hc⟩

omit [DecidableEq K] in
/-- `co_return` of a buffer of `buffer_list`. -/
theorem CacheInv.hand (h : s.CacheInv) (hb : b ∈ s.bufferList.nodes)
    (hk : (s.bufs b).key ≠ none) : (s.hand t b).CacheInv := by
  have ho : (s.setCall t .idle).Owned := h.owned.setCall rfl
  refine ⟨h.stored, ⟨?_, ?_, ho.inFlush, ho.apart, ho.written⟩⟩
  · intro c hc
    rcases List.mem_cons.mp hc with rfl | hc
    · exact hb
    · exact ho.handed c hc
  · intro c hc
    rcases List.mem_cons.mp hc with rfl | hc
    · exact hk
    · exact ho.keyed c hc

omit [DecidableEq K] in
theorem CacheInv.moveToFront (h : s.CacheInv) (hb : b ∈ s.bufferList.nodes) :
    { s with bufferList := s.bufferList.moveToFront b }.CacheInv := by
  have hp : s.bufferList.nodes.Perm (b :: s.bufferList.nodes.erase b) := List.perm_cons_erase hb
  exact ⟨h.stored.perm (hp.append_right _),
    ⟨fun c hc => hp.mem_iff.mp (h.owned.handed c hc), h.owned.keyed, h.owned.inFlush,
      h.owned.apart, h.owned.written⟩⟩

omit [DecidableEq K] in
/-- A buffer of which `buffer_list` is the only owner is in nobody's hands. -/
theorem notMem_handles (hb : b ∈ s.bufferList.nodes) (hu : s.useCount b = 1) : b ∉ s.handles := by
  intro hm
  have hnode : 0 < s.bufferList.nodes.count b := List.count_pos_iff.mpr hb
  have hhand : 0 < s.handles.count b := List.count_pos_iff.mpr hm
  simp only [useCount] at hu
  omega

omit [DecidableEq K] in
theorem Owned.eraseNode (h : s.Owned) (hb : b ∉ s.handles) {l : PtrList}
    (hl : l.nodes = s.bufferList.nodes.erase b) : { s with bufferList := l }.Owned := by
  refine ⟨fun c hc => ?_, h.keyed, h.inFlush, h.apart, h.written⟩
  have hcb : c ≠ b := fun e => hb (e ▸ hc)
  rw [hl]
  exact (List.mem_erase_of_ne hcb).mpr (h.handed c hc)

omit [DecidableEq K] in
/-- The victim leaves `buffer_list`. -/
theorem CacheInv.evict (h : s.CacheInv) (hb : b ∈ s.bufferList.nodes) (hu : s.useCount b = 1) :
    { s with bufferList := s.bufferList.erase b }.Limbo b := by
  have hp : s.bufferList.nodes.Perm (b :: s.bufferList.nodes.erase b) := List.perm_cons_erase hb
  have hheld : b ∉ s.handles := notMem_handles hb hu
  exact ⟨h.stored.perm (hp.append_right _), h.owned.eraseNode hheld rfl, hheld⟩

omit [DecidableEq K] in
/-- A new node is allocated. -/
theorem CacheInv.alloc (h : s.CacheInv) :
    { s.setBuf s.next { s.bufs s.next with key := none, valid := false, dirty := false } with
      next := s.next + 1 }.Limbo s.next := by
  have hne : ∀ c ∈ s.live, c ≠ s.next := fun c hc => Nat.ne_of_lt (h.stored.fresh c hc)
  refine ⟨h.stored.push, ⟨h.owned.handed, ?_, h.owned.inFlush, h.owned.apart, ?_⟩, ?_⟩
  · intro c hc
    have hcn := hne c (mem_live.mpr (.inl (h.owned.handed c hc)))
    simpa [BufSystem.setBuf, Function.update_of_ne hcn] using h.owned.keyed c hc
  · intro t k c hc
    have hcn := hne c (mem_live.mpr (.inr (h.owned.inFlush t _ c hc rfl)))
    simpa [BufSystem.setBuf, Function.update_of_ne hcn] using h.owned.written t k c hc
  · exact fun hm => hne s.next (mem_live.mpr (.inl (h.owned.handed _ hm))) rfl

omit [DecidableEq K] in
theorem Limbo.notMem_live (h : s.Limbo b) : b ∉ s.live := (List.nodup_cons.mp h.stored.nodup).1

omit [DecidableEq K] in
/-- The pointers after `buf->init` of a buffer outside the lists, which then joins
`buffer_list`. -/
theorem Limbo.initOwned (h : s.Limbo b) {l : PtrList} (hl : s.bufferList.nodes ⊆ l.nodes)
    (key : Option K) : { s.initBuf b key with bufferList := l }.Owned := by
  have hne : ∀ c ∈ s.live, c ≠ b := fun c hc e => h.notMem_live (e ▸ hc)
  refine ⟨fun c hc => hl (h.owned.handed c hc), ?_, h.owned.inFlush, h.owned.apart, ?_⟩
  · intro c hc
    have hcb := hne c (mem_live.mpr (.inl (h.owned.handed c hc)))
    simpa [initBuf, setBuf, Function.update_of_ne hcb] using h.owned.keyed c hc
  · intro t k c hc
    have hcb := hne c (mem_live.mpr (.inr (h.owned.inFlush t _ c hc rfl)))
    simpa [initBuf, setBuf, Function.update_of_ne hcb] using h.owned.written t k c hc

omit [DecidableEq K] in
/-- A clean buffer outside the lists is given the wanted key and handed out. -/
theorem Limbo.deliver (h : s.Limbo b) (hd : (s.bufs b).dirty = false)
    (hk : ∀ c ∈ s.live, (s.bufs c).key ≠ some k) :
    ({ s.initBuf b (some k) with bufferList := s.bufferList.pushFront b }.hand t b).CacheInv := by
  have hst := h.stored.init (some k) hd (by
    intro c hc hcb k' hk'
    cases hk'
    rcases List.mem_cons.mp hc with rfl | hc
    · exact absurd rfl hcb
    · exact hk c hc)
  have hinv : { s.initBuf b (some k) with bufferList := s.bufferList.pushFront b }.CacheInv :=
    ⟨hst, h.initOwned (fun c hc => List.mem_cons_of_mem _ hc) (some k)⟩
  refine hinv.hand (by simp [PtrList.pushFront]) ?_
  simp [initBuf, setBuf]

omit [DecidableEq K] in
/-- The section that ends with `flush_list.push_back` or with the hand-out. -/
theorem Limbo.place (h : s.Limbo b) (hk : ∀ c ∈ s.live, (s.bufs c).key ≠ some k) :
    (s.place t k b).CacheInv := by
  unfold BufSystem.place
  split
  · next hd =>
    have hperm : (b :: s.live).Perm (s.bufferList.nodes ++ (s.flushList.nodes ++ [b])) := by
      rw [← List.append_assoc]
      exact (List.perm_append_singleton b s.live).symm
    have hflush : ∀ (u : Nat) (d : Call K), s.calls[u]? = some d → d.buf ≠ some b :=
      fun u d hu hd => h.notMem_live (mem_live.mpr (.inr (h.owned.inFlush u d b hu hd)))
    refine ⟨h.stored.perm hperm, ⟨h.owned.handed, h.owned.keyed, ?_, ?_, ?_⟩⟩
    · intro u d c hu hd
      refine List.mem_append.mpr ?_
      rcases getElem?_set_some hu with ⟨-, rfl⟩ | ⟨-, hu⟩
      · cases hd
        exact .inr (List.mem_singleton_self b)
      · exact .inl (h.owned.inFlush u d c hu hd)
    · intro u v d e c hu hv hd he
      rcases getElem?_set_some hu with ⟨hut, rfl⟩ | ⟨-, hu'⟩ <;>
        rcases getElem?_set_some hv with ⟨hvt, rfl⟩ | ⟨-, hv'⟩
      · exact hut.trans hvt.symm
      · cases hd
        exact absurd he (hflush v e hv')
      · cases he
        exact absurd hd (hflush u d hu')
      · exact h.owned.apart u v d e c hu' hv' hd he
    · intro u k' c hu
      rcases getElem?_set_some hu with ⟨-, he⟩ | ⟨-, hu⟩
      · cases he
      · exact h.owned.written u k' c hu
  · next hd => exact h.deliver (by simpa using hd) hk

theorem isKey_eq_true : s.isKey k b = true ↔ (s.bufs b).key = some k := by
  simp [isKey]

/-- The first section of a call keeps the invariant. -/
theorem CacheInv.enter (h : s.CacheInv) {min max : Nat} {victim : Option BufId} {mem : Bool}
    (hv : s.VictimOk min victim) : (s.enter max t k victim mem).CacheInv := by
  unfold BufSystem.enter
  split
  · exact h.setCall rfl
  · next hflush =>
    -- past the wait, `flush_list` has no buffer for the key
    have hfl : ∀ c ∈ s.flushList.nodes, (s.bufs c).key ≠ some k := by
      intro c hc hck
      exact hflush (List.any_eq_true.mpr ⟨c, hc, isKey_eq_true.mpr hck⟩)
    split
    · next b _ hf =>
      have hmem := List.mem_of_find?_eq_some hf
      have hkey := isKey_eq_true.mp (List.find?_some hf)
      refine (h.moveToFront hmem).hand (by simp [PtrList.moveToFront]) ?_
      simp [hkey]
    · next b hf =>
      have hbl : ∀ c ∈ s.bufferList.nodes, (s.bufs c).key ≠ some k := by
        intro c hc hck
        exact List.find?_eq_none.mp hf c hc (isKey_eq_true.mpr hck)
      refine (h.evict hv.2.1 hv.2.2).place fun c hc => ?_
      rcases mem_live.mp hc with hc | hc
      · exact hbl c (List.mem_of_mem_erase hc)
      · exact hfl c hc
    · next hf =>
      have hbl : ∀ c ∈ s.bufferList.nodes, (s.bufs c).key ≠ some k := by
        intro c hc hck
        exact List.find?_eq_none.mp hf c hc (isKey_eq_true.mpr hck)
      split
      · exact h.setCall rfl
      · split
        · have ho : (s.setCall t .idle).Owned := h.owned.setCall rfl
          exact ⟨h.stored, ⟨ho.handed, ho.keyed, ho.inFlush, ho.apart, ho.written⟩⟩
        · refine h.alloc.place fun c hc => ?_
          have hcn : c ≠ s.next := fun e => h.alloc.notMem_live (e ▸ hc)
          rw [show (_ : BufSystem K D).bufs c = s.bufs c from Function.update_of_ne hcn _ _]
          rcases mem_live.mp hc with hc | hc
          · exact hbl c hc
          · exact hfl c hc

/-- `flush` changes the buffer and the device only. -/
theorem flush_frame (s : BufSystem K D) (b : BufId) :
    s.flush b = { s with bufs := (s.flush b).bufs, device := (s.flush b).device } := by
  unfold BufSystem.flush
  repeat' split
  all_goals rfl

@[simp] theorem flush_calls : (s.flush b).calls = s.calls := by rw [flush_frame]

@[simp] theorem flush_live : (s.flush b).live = s.live := by rw [flush_frame]; rfl

@[simp] theorem flush_key (c : BufId) : ((s.flush b).bufs c).key = (s.bufs c).key := by
  unfold BufSystem.flush
  repeat' split
  · rcases eq_or_ne c b with rfl | hcb
    · simp [setBuf]
    · simp [setBuf, Function.update_of_ne hcb]
  all_goals rfl

theorem flush_dirty_le (c : BufId) (hc : (s.bufs c).dirty = false) :
    ((s.flush b).bufs c).dirty = false := by
  unfold BufSystem.flush
  repeat' split
  · rcases eq_or_ne c b with rfl | hcb
    · simp [setBuf]
    · simpa [setBuf, Function.update_of_ne hcb] using hc
  all_goals exact hc

/-- `buf->flush()` leaves the buffer clean. -/
theorem flush_clean {l : List BufId} (h : Stored l s.bufs s.next s.device s.latest) :
    ((s.flush b).bufs b).dirty = false := by
  unfold BufSystem.flush
  split
  · split
    · simp [setBuf]
    · next hvd =>
      rcases hv : (s.bufs b).valid with _ | _
      · exact h.clean b hv
      · simpa [hv] using hvd
  · next hk => exact h.clean b (h.blank b hk)

theorem Stored.flushBuf {l : List BufId} (h : Stored l s.bufs s.next s.device s.latest)
    (hb : b ∈ l) :
    Stored l (s.flush b).bufs (s.flush b).next (s.flush b).device (s.flush b).latest := by
  unfold BufSystem.flush
  split
  · next k hk =>
    split
    · next hvd =>
      have hv : (s.bufs b).valid = true ∧ (s.bufs b).dirty = true := by simpa using hvd
      exact h.flush hb hk hv.1
    · exact h
  · exact h

theorem Owned.flush (h : s.Owned) : (s.flush b).Owned := by
  rw [flush_frame]
  refine ⟨h.handed, fun c hc => ?_, h.inFlush, h.apart, fun u k c hu => ?_⟩
  · rw [flush_key]
    exact h.keyed c hc
  · exact flush_dirty_le c (h.written u k c hu)

theorem CacheInv.flush (h : s.CacheInv) (hb : b ∈ s.live) : (s.flush b).CacheInv := by
  refine ⟨?_, h.owned.flush⟩
  rw [flush_live]
  exact h.stored.flushBuf hb

/-- The device write of the victim keeps the invariant. -/
theorem CacheInv.writeBack (h : s.CacheInv) (ht : s.calls[t]? = some (.flushing k b)) :
    ((s.flush b).setCall t (.flushed k b)).CacheInv := by
  have hb : b ∈ s.live := mem_live.mpr (.inr (h.owned.inFlush t _ b ht rfl))
  have hf := h.flush hb
  have hmine : (s.flush b).calls[t]? = some (.flushing k b) := by rw [flush_calls, ht]
  -- the call keeps its buffer, so each changed entry can be traded for the old one
  have hget : ∀ (u : Nat) (d : Call K) (c : BufId),
      ((s.flush b).calls.set t (.flushed k b))[u]? = some d → d.buf = some c →
      ∃ d', (s.flush b).calls[u]? = some d' ∧ d'.buf = some c := by
    intro u d c hu hd
    rcases getElem?_set_some hu with ⟨rfl, rfl⟩ | ⟨-, hu⟩
    · exact ⟨_, hmine, hd⟩
    · exact ⟨d, hu, hd⟩
  refine ⟨hf.stored, ⟨hf.owned.handed, hf.owned.keyed, ?_, ?_, ?_⟩⟩
  · intro u d c hu hd
    obtain ⟨d', hu', hd'⟩ := hget u d c hu hd
    exact hf.owned.inFlush u d' c hu' hd'
  · intro u v d e c hu hv hd he
    obtain ⟨d', hu', hd'⟩ := hget u d c hu hd
    obtain ⟨e', hv', he'⟩ := hget v e c hv he
    exact hf.owned.apart u v d' e' c hu' hv' hd' he'
  · intro u k' c hu
    rcases getElem?_set_some hu with ⟨-, he⟩ | ⟨-, hu⟩
    · cases he
      exact flush_clean h.stored
    · exact hf.owned.written u k' c hu

omit [DecidableEq K] in
theorem getElem?_map_wake {calls : List (Call K)} {u : Nat} {d : Call K} {c : BufId}
    (h : (calls.map Call.wake)[u]? = some d) (hd : d.buf = some c) : calls[u]? = some d := by
  rw [List.getElem?_map] at h
  obtain ⟨d', hd', rfl⟩ := Option.map_eq_some_iff.mp h
  rw [hd']
  cases d' <;> first | rfl | cases hd

omit [DecidableEq K] in
/-- `flush_list.erase`, `wake_up_all`, and the end of the call. -/
theorem CacheInv.release (h : s.CacheInv) (ht : s.calls[t]? = some (.flushed k b)) :
    ((s.endFlush b).setCall t .idle).Limbo b := by
  have hb : b ∈ s.flushList.nodes := h.owned.inFlush t _ b ht rfl
  have hp : s.live.Perm (b :: (s.bufferList.nodes ++ s.flushList.nodes.erase b)) :=
    ((List.perm_cons_erase hb).append_left _).trans List.perm_middle
  have hst := h.stored.perm hp
  have hget : ∀ (u : Nat) (d : Call K) (c : BufId),
      ((s.calls.map Call.wake).set t .idle)[u]? = some d → d.buf = some c →
      u ≠ t ∧ s.calls[u]? = some d := by
    intro u d c hu hd
    rcases getElem?_set_some hu with ⟨-, rfl⟩ | ⟨hut, hu⟩
    · cases hd
    · exact ⟨hut, getElem?_map_wake hu hd⟩
  have hheld : b ∉ s.handles := fun hm =>
    (List.nodup_cons.mp hst.nodup).1 (List.mem_append_left _ (h.owned.handed b hm))
  refine ⟨hst, ⟨h.owned.handed, h.owned.keyed, ?_, ?_, ?_⟩, hheld⟩
  · intro u d c hu hd
    obtain ⟨hut, hu'⟩ := hget u d c hu hd
    have hcb : c ≠ b := fun e => hut (h.owned.apart u t d _ b hu' ht (e ▸ hd) rfl)
    exact (List.mem_erase_of_ne hcb).mpr (h.owned.inFlush u d c hu' hd)
  · intro u v d e c hu hv hd he
    exact h.owned.apart u v d e c (hget u d c hu hd).2 (hget v e c hv he).2 hd he
  · intro u k' c hu
    exact h.owned.written u k' c (hget u _ c hu rfl).2

omit [DecidableEq K] in
theorem hand_setCall_idle {key : Option K} {l : PtrList} {r : BufId} :
    { (s.setCall t .idle).initBuf b key with bufferList := l }.hand t r =
      { s.initBuf b key with bufferList := l }.hand t r := by
  simp [BufSystem.hand, BufSystem.setCall, initBuf, setBuf]

/-- The last section of a call keeps the invariant if no buffer for the key is left in
`flush_list`. -/
theorem CacheInv.finish (h : s.CacheInv) (ht : s.calls[t]? = some (.flushed k b))
    (hre : ∀ c ∈ s.flushList.nodes.erase b, (s.bufs c).key ≠ some k) :
    (s.finish t k b).CacheInv := by
  have hl := h.release ht
  have hclean : (s.bufs b).dirty = false := h.owned.written t k b ht
  unfold BufSystem.finish
  split
  · next r hf =>
    have hmem := List.mem_of_find?_eq_some hf
    have hkey : (s.bufs r).key = some k := isKey_eq_true.mp (List.find?_some hf)
    have hrb : r ≠ b := fun e => hl.notMem_live (mem_live.mpr (.inl (e ▸ hmem)))
    have hst := hl.stored.init none hclean (fun c _ _ k' hk' => by cases hk')
    have hinv : { ((s.endFlush b).setCall t .idle).initBuf b none with
        bufferList := s.bufferList.pushBack b }.CacheInv := by
      refine ⟨hst.perm ?_, hl.initOwned (fun c hc => List.mem_append_left _ hc) none⟩
      exact ((List.perm_append_singleton b s.bufferList.nodes).append_right _).symm
    rw [← hand_setCall_idle]
    refine hinv.hand (List.mem_append_left _ hmem) ?_
    rw [show (_ : BufSystem K D).bufs r = s.bufs r from Function.update_of_ne hrb _ _, hkey]
    simp
  · next hf =>
    rw [← hand_setCall_idle]
    refine hl.deliver hclean fun c hc => ?_
    rcases mem_live.mp hc with hc | hc
    · exact fun hck => List.find?_eq_none.mp hf c hc (isKey_eq_true.mpr hck)
    · exact hre c hc

end Steps

/-- One step of a run that is revalidated keeps the invariant. -/
theorem CacheInv.step {min max : Nat} {s s' : BufSystem K D} {e : Event K D} (h : s.CacheInv)
    (hs : Guarded (Step min max) Revalidated s e s') : s'.CacheInv := by
  obtain ⟨hok, hs⟩ := hs
  cases hs with
  | call k =>
    have hget : ∀ (u : Nat) (d : Call K) (b : BufId), (s.calls ++ [.start k])[u]? = some d →
        d.buf = some b → s.calls[u]? = some d := by
      intro u d b hu hd
      rw [List.getElem?_append] at hu
      split at hu
      · exact hu
      · obtain rfl := List.mem_singleton.mp (List.mem_of_getElem? hu)
        cases hd
    refine ⟨h.stored, ⟨h.owned.handed, h.owned.keyed, ?_, ?_, ?_⟩⟩
    · exact fun u d b hu hd => h.owned.inFlush u d b (hget u d b hu hd) hd
    · exact fun u v d e b hu hv hd he =>
        h.owned.apart u v d e b (hget u d b hu hd) (hget v e b hv he) hd he
    · exact fun u k b hu => h.owned.written u k b (hget u _ b hu rfl)
  | enter ht _ hv => exact h.enter hv
  | writeBack ht => exact h.writeBack ht
  | finish ht _ => exact h.finish ht (hok _ _ ht)
  | @load b k hb hv hk =>
    have hlive : b ∈ s.live := mem_live.mpr (.inl (h.owned.handed b hb))
    refine ⟨h.stored.load hlive hk hv, ⟨h.owned.handed, ?_, h.owned.inFlush, h.owned.apart, ?_⟩⟩
    · intro c hc
      rcases eq_or_ne c b with rfl | hcb
      · simp [setBuf]
      · simpa [setBuf, Function.update_of_ne hcb] using h.owned.keyed c hc
    · intro t k' c hc
      rcases eq_or_ne c b with rfl | hcb
      · simp [setBuf]
      · simpa [setBuf, Function.update_of_ne hcb] using h.owned.written t k' c hc
  | @modify b k d hb hv hk =>
    have hlive : b ∈ s.live := mem_live.mpr (.inl (h.owned.handed b hb))
    refine ⟨h.stored.modify hlive hk d, ⟨h.owned.handed, ?_, h.owned.inFlush, h.owned.apart, ?_⟩⟩
    · intro c hc
      rcases eq_or_ne c b with rfl | hcb
      · simp [setBuf]
      · simpa [setBuf, Function.update_of_ne hcb] using h.owned.keyed c hc
    · intro t k' c hc
      -- a buffer in somebody's hands is not in `flush_list`
      have hcb : c ≠ b := by
        rintro rfl
        exact (List.nodup_append.mp h.stored.nodup).2.2 c (h.owned.handed c hb) c
          (h.owned.inFlush t _ c hc rfl) rfl
      simpa [setBuf, Function.update_of_ne hcb] using h.owned.written t k' c hc
  | drop hb =>
    exact ⟨h.stored, ⟨fun c hc => h.owned.handed c (List.mem_of_mem_erase hc),
      fun c hc => h.owned.keyed c (List.mem_of_mem_erase hc), h.owned.inFlush, h.owned.apart,
      h.owned.written⟩⟩

/-- In every run in which no call comes back from its flush to find a buffer for its key in
`flush_list`, the cache is coherent at every moment. -/
theorem coherent_of_run (min max : Nat) (device : K → D) (d : D) (es : List (Event K D))
    (s : BufSystem K D) (h : Run (Guarded (Step min max) Revalidated) (init device d) es s) :
    s.Coherent := by
  have hinv : s.CacheInv := Run.invariant (I := CacheInv) (fun _ _ _ hi hs => hi.step hs) h
    (CacheInv.init device d)
  exact hinv.coherent

/-- One dirty buffer is evicted and its key written back. -/
def evictionRun : List (Event Nat Nat) :=
  [.call 1, .enter 0 none true, .load 0, .modify 0 7, .drop 0,
    .call 0, .enter 1 (some 0) true, .writeBack 1, .finish 1]

theorem coherent_after_eviction :
    ∃ s : BufSystem Nat Nat,
      Run (Guarded (Step 1 3) Revalidated) (init (fun _ => 0) 0) evictionRun s ∧
        s.device 1 = 7 ∧ s.Coherent := by
  have hrun : ∃ s : BufSystem Nat Nat,
      Run (Guarded (Step 1 3) Revalidated) (init (fun _ => 0) 0) evictionRun s ∧
        s.device 1 = 7 := by
    refine ⟨_, (Run.nil _).snoc ⟨trivial, .call _ _⟩ |>.snoc ⟨trivial, .enter rfl rfl trivial⟩
      |>.snoc ⟨trivial, .load ?_ rfl rfl⟩ |>.snoc ⟨trivial, .modify ?_ rfl rfl⟩
      |>.snoc ⟨trivial, .drop ?_⟩
      |>.snoc ⟨trivial, .call _ _⟩ |>.snoc ⟨trivial, .enter rfl rfl ?_⟩
      |>.snoc ⟨trivial, .writeBack rfl⟩ |>.snoc ⟨?revalidated, .finish rfl rfl⟩, rfl⟩
    case revalidated =>
      intro k b hcall
      cases hcall
      decide
    all_goals decide
  obtain ⟨s, hs, hdev⟩ := hrun
  exact ⟨s, hs, hdev, coherent_of_run 1 3 _ 0 evictionRun s hs⟩

/-- Task 1 evicts the dirty buffer of key 1 to make room for key 0; meanwhile task 2 fetches,
modifies and drops key 0, and task 3, on its way to key 2, evicts it. -/
def doubleRun : List (Event Nat Nat) :=
  [.call 1, .enter 0 none true, .load 0, .modify 0 7, .drop 0,
    .call 0, .enter 1 (some 0) true,
    .call 0, .enter 2 none true, .load 1, .modify 1 9, .drop 1,
    .call 2, .enter 3 (some 1) true,
    .writeBack 1, .finish 1]

/-- After `doubleRun` two buffers for key 0 exist, and the one that was handed out is about to
load what the device held before the modification by task 2. -/
theorem finish_incoherent :
    ∃ s : BufSystem Nat Nat, Run (Step 1 3) (init (fun _ => 0) 0) doubleRun s ∧
      s.live.countP (s.isKey 0) = 2 ∧ (∃ b ∈ s.handles, s.bufs b = ⟨some 0, false, false, 7⟩) ∧
      s.device 0 ≠ s.latest 0 ∧ ¬ s.Coherent := by
  refine ⟨_, (Run.nil _).snoc (.call _ _) |>.snoc (.enter rfl rfl trivial)
    |>.snoc (.load ?_ rfl rfl) |>.snoc (.modify ?_ rfl rfl) |>.snoc (.drop ?_)
    |>.snoc (.call _ _) |>.snoc (.enter rfl rfl ?_)
    |>.snoc (.call _ _) |>.snoc (.enter rfl rfl trivial)
    |>.snoc (.load ?_ rfl rfl) |>.snoc (.modify ?_ rfl rfl) |>.snoc (.drop ?_)
    |>.snoc (.call _ _) |>.snoc (.enter rfl rfl ?_)
    |>.snoc (.writeBack rfl) |>.snoc (.finish rfl rfl), ?_, ?_, ?_,
    fun h => absurd (h.unique 0) ?_⟩
  all_goals decide

end BufSystem

end CoroCore
