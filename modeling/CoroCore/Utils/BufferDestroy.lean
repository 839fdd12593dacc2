import Mathlib.Data.List.Nodup
import CoroCore.Utils.BufferCoherence

/-!
# `buffer_manager::destroy`

`destroy(device)` takes the buffers of a device out of `buffer_list`, writes them back and
returns them as blank buffers. A buffer of which the list is not the only owner is dropped
instead, without a write, and counted as failed.

`list::erase` keeps the freed node, and with it the pointer, in the `node_cache` of the list.
An eviction that goes through `flush_list` leaves such a pointer behind, so the last buffer
that was evicted dirty has two owners although nobody uses it.

* `destroy_ok_iff`: with no pointers to the device's buffers outside the manager, `destroy`
  keeps its promise exactly if the lock was not left held and none of these buffers is in a
  recycled node;
* `destroy_fails_after_eviction`: at the kernel's sizes, one eviction and one more write to the
  buffer make `destroy` lose the write.
-/

namespace CoroCore

open Lib

namespace BufSystem

variable {K D : Type} [DecidableEq K]

/-- `node->match(device)`. -/
def onDevice (s : BufSystem K D) (dev : K → Bool) (b : BufId) : Bool :=
  (s.bufs b).key.any dev

/-- The scan of `buffer_list` in `destroy`: the state, the local list and `failed_count`. -/
def detach (dev : K → Bool) : List BufId → BufSystem K D × List BufId × Nat →
    BufSystem K D × List BufId × Nat
  | [], st => st
  | b :: bs, (s, out, failed) =>
    if s.onDevice dev b then
      if s.useCount b = 1 then
        detach dev bs
          ({ s with bufferList := ⟨s.bufferList.nodes.erase b, s.bufferList.cache⟩ },
            out ++ [b], failed)
      else detach dev bs ({ s with bufferList := s.bufferList.erase b }, out, failed + 1)
    else detach dev bs (s, out, failed)

/-- The flush loop of `destroy`. -/
def drain : List BufId → BufSystem K D → BufSystem K D
  | [], s => s
  | b :: bs, s => drain bs ((s.flush b).initBuf b none)

/-- `buffer_list.merge(flush_list)`. -/
def mergeBack (s : BufSystem K D) (out : List BufId) : BufSystem K D :=
  { s with bufferList := ⟨s.bufferList.nodes ++ out, s.bufferList.cache⟩ }

/-- `destroy(device)`, with no other task running meanwhile. `none`: it spins on the lock. -/
def destroy (dev : K → Bool) (s : BufSystem K D) : Option (Nat × BufSystem K D) :=
  if s.stuck then none
  else
    match detach dev s.bufferList.nodes (s, [], 0) with
    | (s', out, failed) => some (failed, (drain out s').mergeBack out)

/-- What `destroy` promises: nothing failed, every modified buffer of the device is written,
and whatever happens later, tasks find the last contents written through the cache. -/
def DestroyOk (min max : Nat) (dev : K → Bool) (s : BufSystem K D) : Prop :=
  ∃ s', s.destroy dev = some (0, s') ∧
    (∀ b ∈ s.live, ∀ k, dev k → ∀ d, s.bufs b = ⟨some k, true, true, d⟩ → s'.device k = d) ∧
    ∀ es u, Run (Guarded (Step min max) Revalidated) s' es u →
      ∀ b ∈ u.handles, ∀ k, dev k → (u.bufs b).key = some k → (u.bufs b).valid = true →
        (u.bufs b).data = u.latest k

/-- No task and nothing else outside the manager points to a buffer of the device. -/
def Released (dev : K → Bool) (s : BufSystem K D) : Prop :=
  (∀ b ∈ s.handles, s.onDevice dev b = false) ∧
    ∀ c ∈ s.calls, ∀ b, c.buf = some b → s.onDevice dev b = false

/-- A buffer of the device is also referenced from a recycled node of one of the lists. -/
def Recycled (dev : K → Bool) (s : BufSystem K D) : Prop :=
  ∃ b ∈ s.bufferList.nodes, s.onDevice dev b = true ∧
    (b ∈ s.bufferList.cache ∨ b ∈ s.flushList.cache)

/-! ## Who is in `flush_list` -/

/-- The buffers in `flush_list` are those of the calls that write them back. -/
def Flushers (s : BufSystem K D) : Prop :=
  ∀ b ∈ s.flushList.nodes, ∃ c ∈ s.calls, c.buf = some b

section Flushers

variable {s s' : BufSystem K D} {t : Nat} {b : BufId}

omit [DecidableEq K] in
theorem flusher_set {calls : List (Call K)} {c d : Call K} (ht : calls[t]? = some c)
    (hc : c.buf ≠ some b) (h : ∃ e ∈ calls, e.buf = some b) :
    ∃ e ∈ calls.set t d, e.buf = some b := by
  obtain ⟨e, he, hb⟩ := h
  obtain ⟨u, hu⟩ := List.getElem?_of_mem he
  have hut : t ≠ u := by
    rintro rfl
    rw [ht] at hu
    cases hu
    exact hc hb
  exact ⟨e, List.mem_of_getElem? (i := u) (by rw [List.getElem?_set_ne hut, hu]), hb⟩

omit [DecidableEq K] in
theorem mem_set_self {calls : List (Call K)} {c d : Call K} (ht : calls[t]? = some c) :
    d ∈ calls.set t d :=
  List.mem_set (List.getElem?_eq_some_iff.mp ht).1 d

omit [DecidableEq K] in
theorem Flushers.place {k k' : K} (h : s.Flushers) (ht : s.calls[t]? = some (.start k')) :
    (s.place t k b).Flushers := by
  unfold BufSystem.place
  split
  · intro c hc
    rcases List.mem_append.mp hc with hc | hc
    · exact flusher_set ht (by simp [Call.buf]) (h c hc)
    · obtain rfl := List.mem_singleton.mp hc
      exact ⟨_, mem_set_self ht, rfl⟩
  · exact fun c hc => flusher_set ht (by simp [Call.buf]) (h c hc)

theorem Flushers.step {min max : Nat} {e : Event K D} (h : s.Flushers) (hi : s.CacheInv)
    (hs : Step min max s e s') : s'.Flushers := by
  cases hs with
  | call k =>
    intro b hb
    obtain ⟨c, hc, hcb⟩ := h b hb
    exact ⟨c, List.mem_append_left _ hc, hcb⟩
  | enter ht _ _ =>
    unfold BufSystem.enter
    split
    · exact fun c hc => flusher_set ht (by simp [Call.buf]) (h c hc)
    · split
      · exact fun c hc => flusher_set ht (by simp [Call.buf]) (h c hc)
      · exact Flushers.place h ht
      · split
        · exact fun c hc => flusher_set ht (by simp [Call.buf]) (h c hc)
        · split
          · exact fun c hc => flusher_set ht (by simp [Call.buf]) (h c hc)
          · exact Flushers.place h ht
  | @writeBack t k b ht =>
    intro c hc
    rw [flush_frame] at hc
    have hold := h c hc
    rw [← flush_calls (b := b)] at hold ht
    rcases eq_or_ne c b with rfl | hcb
    · exact ⟨_, mem_set_self ht, rfl⟩
    · exact flusher_set ht (by simpa [Call.buf] using hcb.symm) hold
  | @finish t k b ht _ =>
    have hnd : s.flushList.nodes.Nodup := (List.nodup_append.mp hi.stored.nodup).2.1
    have hrest : ∀ c ∈ s.flushList.nodes.erase b,
        ∃ e ∈ (s.calls.map Call.wake).set t .idle, e.buf = some c := by
      intro c hc
      obtain ⟨hcb, hmem⟩ := hnd.mem_erase_iff.mp hc
      obtain ⟨e, he, hec⟩ := h c hmem
      have hwake : e.wake = e := by cases e <;> first | rfl | cases hec
      refine flusher_set (c := .flushed k b) ?_ (by simpa [Call.buf] using hcb.symm)
        ⟨e, List.mem_map.mpr ⟨e, he, hwake⟩, hec⟩
      rw [List.getElem?_map, ht]
      rfl
    unfold BufSystem.finish
    split
    · exact hrest
    · exact hrest
  | load hb hv hk => exact h
  | modify hb hv hk => exact h
  | drop hb => exact h

end Flushers

/-! ## The scan -/

section Scan

variable {s : BufSystem K D} {b c : BufId} {dev : K → Bool}

omit [DecidableEq K] in
theorem useCount_moveOut (hne : c ≠ b) :
    { s with bufferList := ⟨s.bufferList.nodes.erase b, s.bufferList.cache⟩ }.useCount c =
      s.useCount c := by
  simp [useCount, List.count_erase_of_ne hne]

omit [DecidableEq K] in
theorem useCount_erase (hne : c ≠ b) :
    { s with bufferList := s.bufferList.erase b }.useCount c = s.useCount c := by
  have hcache : (PtrList.freeNode s.bufferList.cache b).count c = s.bufferList.cache.count c := by
    unfold PtrList.freeNode
    split
    · exact List.count_cons_of_ne hne.symm
    · rfl
  simp [useCount, PtrList.erase, List.count_erase_of_ne hne, hcache]

omit [DecidableEq K] in
/-- `failed_count` is the number of the device's buffers that have another owner: the scan
does not change the owners of the buffers still to be visited. -/
theorem detach_failed (dev : K → Bool) :
    ∀ (bs : List BufId) (s : BufSystem K D) (out : List BufId) (failed : Nat), bs.Nodup →
    (detach dev bs (s, out, failed)).2.2 =
      failed + bs.countP fun b => s.onDevice dev b && s.useCount b != 1 := by
  intro bs
  induction bs with
  | nil => exact fun _ _ _ _ => rfl
  | cons b bs ih =>
    intro s out failed hnd
    obtain ⟨hb, hnd⟩ := List.nodup_cons.mp hnd
    have hne : ∀ c ∈ bs, c ≠ b := fun c hc e => hb (e ▸ hc)
    unfold detach
    by_cases hdev : s.onDevice dev b = true
    · by_cases huse : s.useCount b = 1
      · rw [if_pos hdev, if_pos huse, ih _ _ _ hnd, List.countP_cons_of_neg (by simp [huse])]
        refine congrArg (failed + ·) (List.countP_congr fun c hc => ?_)
        rw [useCount_moveOut (hne c hc)]
        exact Iff.rfl
      · rw [if_pos hdev, if_neg huse, ih _ _ _ hnd, List.countP_cons_of_pos (by simp [hdev, huse]),
          Nat.add_assoc, Nat.add_comm 1]
        refine congrArg (fun n => failed + (n + 1)) (List.countP_congr fun c hc => ?_)
        rw [useCount_erase (hne c hc)]
        exact Iff.rfl
    · rw [if_neg hdev, ih _ _ _ hnd, List.countP_cons_of_neg (by simp [hdev])]

/-- The invariant while the buffers `out` are in the local list of `destroy`. -/
structure Detached (s : BufSystem K D) (out : List BufId) : Prop where
  stored : Stored (s.live ++ out) s.bufs s.next s.device s.latest
  owned : s.Owned

omit [DecidableEq K] in
theorem Detached.moveOut {out : List BufId} (h : s.Detached out) (hb : b ∈ s.bufferList.nodes)
    (hu : s.useCount b = 1) :
    { s with bufferList := ⟨s.bufferList.nodes.erase b, s.bufferList.cache⟩ }.Detached
      (out ++ [b]) := by
  have hp : s.bufferList.nodes.Perm (b :: s.bufferList.nodes.erase b) := List.perm_cons_erase hb
  refine ⟨h.stored.perm ?_, h.owned.eraseNode (notMem_handles hb hu) rfl⟩
  have hmove : (s.live ++ out).Perm
      (b :: ((s.bufferList.nodes.erase b ++ s.flushList.nodes) ++ out)) :=
    (hp.append_right _).append_right _
  refine hmove.trans ?_
  rw [live, ← List.append_assoc]
  exact (List.perm_append_singleton b _).symm

omit [DecidableEq K] in
/-- The scan when the list is the only owner of every buffer of the device. -/
theorem detach_all : ∀ (bs : List BufId) (s : BufSystem K D) (out : List BufId), bs.Nodup →
    bs ⊆ s.bufferList.nodes → (∀ b ∈ bs, s.onDevice dev b = true → s.useCount b = 1) →
    s.Detached out → ∃ nodes out',
      detach dev bs (s, out, 0) = ({ s with bufferList := ⟨nodes, s.bufferList.cache⟩ }, out', 0) ∧
        { s with bufferList := ⟨nodes, s.bufferList.cache⟩ }.Detached out' ∧
        nodes ⊆ s.bufferList.nodes ∧ ∀ b ∈ nodes, b ∈ bs → s.onDevice dev b = false := by
  intro bs
  induction bs with
  | nil => exact fun s out _ _ _ h => ⟨s.bufferList.nodes, out, rfl, h, fun _ hb => hb, by simp⟩
  | cons b bs ih =>
    intro s out hnd hsub huse h
    obtain ⟨hb, hnd⟩ := List.nodup_cons.mp hnd
    have hne : ∀ c ∈ bs, c ≠ b := fun c hc e => hb (e ▸ hc)
    have hmem : b ∈ s.bufferList.nodes := hsub List.mem_cons_self
    unfold detach
    by_cases hdev : s.onDevice dev b = true
    · have hone : s.useCount b = 1 := huse b List.mem_cons_self hdev
      rw [if_pos hdev, if_pos hone]
      obtain ⟨nodes, out', heq, hdet, hsubset, hoff⟩ := ih _ (out ++ [b]) hnd
        (fun c hc => (List.mem_erase_of_ne (hne c hc)).mpr (hsub (List.mem_cons_of_mem _ hc)))
        (fun c hc hc' => by
          rw [useCount_moveOut (hne c hc)]
          exact huse c (List.mem_cons_of_mem _ hc) hc')
        (h.moveOut hmem hone)
      refine ⟨nodes, out', heq, hdet, fun c hc => List.mem_of_mem_erase (hsubset hc), ?_⟩
      intro c hc hcb
      rcases List.mem_cons.mp hcb with rfl | hcb
      · -- the list has no duplicates, so the buffer is gone from it
        have hnodes : s.bufferList.nodes.Nodup :=
          (List.nodup_append.mp (List.nodup_append.mp h.stored.nodup).1).1
        exact absurd (hsubset hc) (hnodes.not_mem_erase)
      · exact hoff c hc hcb
    · rw [if_neg hdev]
      obtain ⟨nodes, out', heq, hdet, hsubset, hoff⟩ := ih s out hnd
        (fun c hc => hsub (List.mem_cons_of_mem _ hc))
        (fun c hc => huse c (List.mem_cons_of_mem _ hc)) h
      refine ⟨nodes, out', heq, hdet, hsubset, ?_⟩
      intro c hc hcb
      rcases List.mem_cons.mp hcb with rfl | hcb
      · simpa using hdev
      · exact hoff c hc hcb

end Scan

/-! ## The flush loop -/

section Drain

variable {s : BufSystem K D} {dev : K → Bool}

theorem drain_frame : ∀ (out : List BufId) (s : BufSystem K D),
    drain out s = { s with bufs := (drain out s).bufs, device := (drain out s).device } := by
  intro out
  induction out with
  | nil => exact fun _ => rfl
  | cons b bs ih =>
    intro s
    unfold drain
    rw [ih, initBuf, setBuf, flush_frame]

theorem drain_key (c : BufId) : ∀ (out : List BufId) (s : BufSystem K D),
    ((drain out s).bufs c).key = if c ∈ out then none else (s.bufs c).key := by
  intro out
  induction out with
  | nil => exact fun _ => rfl
  | cons b bs ih =>
    intro s
    unfold drain
    rw [ih]
    rcases eq_or_ne c b with rfl | hcb
    · simp [initBuf, setBuf]
    · simp [initBuf, setBuf, hcb]

theorem Owned.drain : ∀ (out : List BufId) (s : BufSystem K D), s.Owned →
    (∀ b ∈ out, b ∉ s.live) → (drain out s).Owned := by
  intro out
  induction out with
  | nil => exact fun _ h _ => h
  | cons b bs ih =>
    intro s h hout
    refine ih _ ?_ fun c hc => ?_
    · have hf : (s.flush b).Owned := h.flush
      have hb : b ∉ (s.flush b).live := by
        rw [flush_live]
        exact hout b List.mem_cons_self
      have hne : ∀ c ∈ (s.flush b).live, c ≠ b := fun c hc e => hb (e ▸ hc)
      refine ⟨hf.handed, fun c hc => ?_, hf.inFlush, hf.apart, fun u k c hu => ?_⟩
      · have hcb := hne c (mem_live.mpr (.inl (hf.handed c hc)))
        simpa [initBuf, setBuf, Function.update_of_ne hcb] using hf.keyed c hc
      · have hcb := hne c (mem_live.mpr (.inr (hf.inFlush u _ c hu rfl)))
        simpa [initBuf, setBuf, Function.update_of_ne hcb] using hf.written u k c hu
    · show c ∉ (s.flush b).live
      rw [flush_live]
      exact hout c (List.mem_cons_of_mem _ hc)

theorem Stored.drain {l : List BufId} : ∀ (out : List BufId) (s : BufSystem K D),
    Stored l s.bufs s.next s.device s.latest → out ⊆ l →
    Stored l (drain out s).bufs (drain out s).next (drain out s).device (drain out s).latest := by
  intro out
  induction out with
  | nil => exact fun _ h _ => h
  | cons b bs ih =>
    intro s h hsub
    refine ih _ ?_ fun c hc => hsub (List.mem_cons_of_mem _ hc)
    exact (h.flushBuf (hsub List.mem_cons_self)).init none (flush_clean h)
      fun c _ _ k hk => by cases hk

/-- Once all buffers of the device are in the local list, the rest of `destroy` leaves the
invariant in place and the latest contents on the device. -/
theorem Detached.finish {out : List BufId} (h : s.Detached out) (dev : K → Bool)
    (hoff : ∀ b ∈ s.live, s.onDevice dev b = false) :
    ((drain out s).mergeBack out).CacheInv ∧
      ∀ k, dev k = true → (drain out s).device k = s.latest k := by
  have hout : ∀ b ∈ out, b ∉ s.live := fun b hb hm =>
    (List.nodup_append.mp h.stored.nodup).2.2 b hm b hb rfl
  have hst := Stored.drain out s h.stored fun b hb => List.mem_append_right _ hb
  have hown := Owned.drain out s h.owned hout
  have hlive : (drain out s).live = s.live := by rw [drain_frame]; rfl
  have hlatest : (drain out s).latest = s.latest := by rw [drain_frame]
  refine ⟨⟨hst.perm ?_, ⟨?_, hown.keyed, hown.inFlush, hown.apart, hown.written⟩⟩, fun k hk => ?_⟩
  · rw [← hlive]
    show ((drain out s).bufferList.nodes ++ (drain out s).flushList.nodes ++ out).Perm
      ((drain out s).bufferList.nodes ++ out ++ (drain out s).flushList.nodes)
    rw [List.append_assoc, List.append_assoc]
    exact List.perm_append_comm.append_left _
  · exact fun c hc => List.mem_append_left _ (hown.handed c hc)
  · rw [← hlatest]
    refine hst.written k fun b hb hkey => ?_
    rw [drain_key] at hkey
    split at hkey
    · cases hkey
    · next hb' =>
      rcases List.mem_append.mp hb with hb | hb
      · have := hoff b hb
        simp [onDevice, hkey, hk] at this
      · exact absurd hb hb'

end Drain

/-! ## The promise -/

section Promise

variable {s : BufSystem K D} {dev : K → Bool}

omit [DecidableEq K] in
/-- With nobody outside the manager pointing to it, a buffer of `buffer_list` has one owner
exactly if no recycled node points to it. -/
theorem useCount_eq_one_iff (h : s.CacheInv) (hr : s.Released dev) {b : BufId}
    (hb : b ∈ s.bufferList.nodes) (hdev : s.onDevice dev b = true) :
    s.useCount b = 1 ↔ b ∉ s.bufferList.cache ∧ b ∉ s.flushList.cache := by
  obtain ⟨hnd, -, hdisj⟩ := List.nodup_append.mp h.stored.nodup
  have hnode : s.bufferList.nodes.count b = 1 := List.count_eq_one_of_mem hnd hb
  have hflush : s.flushList.nodes.count b = 0 :=
    List.count_eq_zero.mpr fun hm => hdisj b hb b hm rfl
  have hhand : s.handles.count b = 0 := by
    refine List.count_eq_zero.mpr fun hm => ?_
    simp [hr.1 b hm] at hdev
  have hcalls : (s.calls.countP fun c => c.buf = some b) = 0 := by
    refine List.countP_eq_zero.mpr fun c hc hcb => ?_
    simp [hr.2 c hc b (by simpa using hcb)] at hdev
  rw [← List.count_eq_zero, ← List.count_eq_zero, useCount, hnode, hflush, hhand, hcalls]
  omega

omit [DecidableEq K] in
/-- The local list starts empty. -/
theorem CacheInv.detached (h : s.CacheInv) : s.Detached [] :=
  ⟨by simpa using h.stored, h.owned⟩

theorem destroy_eq {s' : BufSystem K D} {out : List BufId} {failed : Nat} (hstuck : s.stuck = false)
    (h : detach dev s.bufferList.nodes (s, [], 0) = (s', out, failed)) :
    s.destroy dev = some (failed, (drain out s').mergeBack out) := by
  unfold destroy
  rw [if_neg (by simp [hstuck]), h]

theorem destroy_of_unshared (min max : Nat) (h : s.CacheInv) (hf : s.Flushers)
    (hr : s.Released dev) (hstuck : s.stuck = false) (hrec : ¬ s.Recycled dev) :
    s.DestroyOk min max dev := by
  have hnd : s.bufferList.nodes.Nodup := (List.nodup_append.mp h.stored.nodup).1
  have huse : ∀ b ∈ s.bufferList.nodes, s.onDevice dev b = true → s.useCount b = 1 := by
    intro b hb hdev
    refine (useCount_eq_one_iff h hr hb hdev).mpr ⟨fun hc => hrec ?_, fun hc => hrec ?_⟩
    · exact ⟨b, hb, hdev, .inl hc⟩
    · exact ⟨b, hb, hdev, .inr hc⟩
  obtain ⟨nodes, out, heq, hdet, hsub, hoff⟩ :=
    detach_all s.bufferList.nodes s [] hnd (fun _ hb => hb) huse h.detached
  obtain ⟨hinv, hdevice⟩ := hdet.finish dev (fun b hb => by
    rcases mem_live.mp hb with hb | hb
    · exact hoff b hb (hsub hb)
    · obtain ⟨c, hc, hcb⟩ := hf b hb
      exact hr.2 c hc b hcb)
  refine ⟨_, destroy_eq hstuck heq, ?_, ?_⟩
  · intro b hb k hk d hbuf
    have hlatest : (s.bufs b).data = s.latest k :=
      h.stored.data b hb k (by rw [hbuf]) (by rw [hbuf])
    rw [hbuf] at hlatest
    exact (hdevice k hk).trans hlatest.symm
  · intro es u hrun b hb k _ hkey hvalid
    have hu : u.CacheInv := Run.invariant (I := CacheInv) (fun _ _ _ hi hs => hi.step hs) hrun hinv
    exact hu.stored.data b (mem_live.mpr (.inl (hu.owned.handed b hb))) k hkey hvalid

/-- A device's buffer in a recycled node makes `destroy` fail. -/
theorem DestroyOk.unshared {min max : Nat} (h : s.CacheInv) (hr : s.Released dev)
    (hok : s.DestroyOk min max dev) : s.stuck = false ∧ ¬ s.Recycled dev := by
  obtain ⟨s', hs', -, -⟩ := hok
  unfold destroy at hs'
  split at hs'
  · cases hs'
  · next hstuck =>
    refine ⟨by simpa using hstuck, ?_⟩
    rintro ⟨b, hb, hdev, hrec⟩
    have hnd : s.bufferList.nodes.Nodup := (List.nodup_append.mp h.stored.nodup).1
    have hfailed := detach_failed dev s.bufferList.nodes s [] 0 hnd
    have hzero : (detach dev s.bufferList.nodes (s, [], 0)).2.2 = 0 :=
      congrArg Prod.fst (Option.some.inj hs')
    rw [hzero, Nat.zero_add, eq_comm, List.countP_eq_zero] at hfailed
    have hone : s.useCount b = 1 := by simpa [hdev] using hfailed b hb
    have hnot := (useCount_eq_one_iff h hr hb hdev).mp hone
    exact hrec.elim hnot.1 hnot.2

theorem inv_of_run {min max : Nat} {device : K → D} {d : D} {es : List (Event K D)}
    (h : Run (Guarded (Step min max) Revalidated) (init device d) es s) :
    s.CacheInv ∧ s.Flushers :=
  Run.invariant (I := fun s => s.CacheInv ∧ s.Flushers)
    (fun _ _ _ hi hs => ⟨hi.1.step hs, hi.2.step hi.1 hs.2⟩) h
    ⟨CacheInv.init device d, fun b hb => by cases hb⟩

/-- After every history of the cache, with no pointers to the device's buffers outside the
manager: `destroy` keeps its promise exactly if the lock is free and none of these buffers is
also in a recycled node. -/
theorem destroy_ok_iff (min max : Nat) (device : K → D) (d : D) (es : List (Event K D))
    (s : BufSystem K D) (h : Run (Guarded (Step min max) Revalidated) (init device d) es s)
    (dev : K → Bool) (hr : s.Released dev) :
    s.DestroyOk min max dev ↔ s.stuck = false ∧ ¬ s.Recycled dev := by
  obtain ⟨hinv, hf⟩ := inv_of_run h
  constructor
  · exact DestroyOk.unshared hinv hr
  · exact fun ⟨hstuck, hrec⟩ => destroy_of_unshared min max hinv hf hr hstuck hrec

/-- Block 5 is fetched, modified and dropped. -/
def writeRun : List (Event Nat Nat) :=
  [.call 5, .enter 0 none true, .load 0, .modify 0 7, .drop 0]

theorem destroy_ok_after_write :
    ∃ s : BufSystem Nat Nat,
      Run (Guarded (Step 2048 10240) Revalidated) (init (fun _ => 0) 0) writeRun s ∧
        s.bufs 0 = ⟨some 5, true, true, 7⟩ ∧ s.DestroyOk 2048 10240 fun _ => true := by
  have hrun : ∃ s : BufSystem Nat Nat,
      Run (Guarded (Step 2048 10240) Revalidated) (init (fun _ => 0) 0) writeRun s ∧
        s.bufs 0 = ⟨some 5, true, true, 7⟩ ∧ s.handles = [] ∧ s.calls = [.idle] ∧
        s.stuck = false ∧ s.bufferList.cache = [] ∧ s.flushList.cache = [] := by
    refine ⟨_, (Run.nil _).snoc ⟨trivial, .call _ _⟩ |>.snoc ⟨trivial, .enter rfl rfl trivial⟩
      |>.snoc ⟨trivial, .load ?_ rfl rfl⟩ |>.snoc ⟨trivial, .modify ?_ rfl rfl⟩
      |>.snoc ⟨trivial, .drop ?_⟩, rfl, rfl, rfl, rfl, rfl, rfl⟩
    all_goals decide
  obtain ⟨s, h, hbuf, hhand, hcalls, hstuck, hbc, hfc⟩ := hrun
  refine ⟨s, h, hbuf, (destroy_ok_iff 2048 10240 _ 0 writeRun s h _ ⟨?_, ?_⟩).mpr ⟨hstuck, ?_⟩⟩
  · simp [hhand]
  · simp [hcalls, Call.buf]
  · simp [Recycled, hbc, hfc]

end Promise

/-! ## Filling the cache -/

section Fill

variable (min max : Nat)

/-- The cache after blocks `0 .. n - 1` were fetched, the first one modified. -/
structure Filled (n : Nat) (s : BufSystem Nat Nat) : Prop where
  bufferList : s.bufferList = ⟨(List.range n).reverse, []⟩
  flushList : s.flushList = .empty
  stuck : s.stuck = false
  next : s.next = n
  handles : s.handles = []
  calls : ∀ c ∈ s.calls, c = .idle
  keys : ∀ b < n, (s.bufs b).key = some b
  dirty : (s.bufs 0).dirty = true

theorem Step.guarded {min max : Nat} {s s' : BufSystem Nat Nat} {e : Event Nat Nat}
    (h : Step min max s e s') (he : ∀ t, e ≠ .finish t) :
    Guarded (Step min max) Revalidated s e s' := by
  refine ⟨?_, h⟩
  cases e with
  | finish t => exact absurd rfl (he t)
  | _ => trivial

/-- The first section of a call that allocates a buffer. -/
theorem enter_new {s : BufSystem Nat Nat} {t k : Nat} (hflush : s.flushList.nodes = [])
    (hfind : ∀ b ∈ s.bufferList.nodes, (s.bufs b).key ≠ some k)
    (hlen : s.bufferList.nodes.length < max) :
    s.enter max t k none true =
      { s with bufferList := s.bufferList.pushFront s.next
               bufs := Function.update s.bufs s.next ⟨some k, false, false, (s.bufs s.next).data⟩
               next := s.next + 1
               calls := s.calls.set t .idle
               handles := s.next :: s.handles } := by
  have hnone : s.bufferList.nodes.find? (s.isKey k) = none :=
    List.find?_eq_none.mpr fun b hb hk => hfind b hb (isKey_eq_true.mp hk)
  unfold BufSystem.enter
  rw [if_neg (by simp [hflush]), hnone]
  simp only [if_neg (Nat.not_le.mpr hlen), reduceCtorEq, if_false]
  simp [place, hand, setCall, initBuf, setBuf]

/-- A block that is not in the cache is fetched into a new buffer and dropped. -/
theorem fetch_new {s : BufSystem Nat Nat} {k : Nat} (hflush : s.flushList.nodes = [])
    (hstuck : s.stuck = false) (hfind : ∀ b ∈ s.bufferList.nodes, (s.bufs b).key ≠ some k)
    (hlen : s.bufferList.nodes.length < max) :
    Run (Guarded (Step min max) Revalidated) s
      [.call k, .enter s.calls.length none true, .drop s.next]
      { s with bufferList := s.bufferList.pushFront s.next
               bufs := Function.update s.bufs s.next ⟨some k, false, false, (s.bufs s.next).data⟩
               next := s.next + 1
               calls := s.calls ++ [.idle] } := by
  have hcall : Step min max s (.call k) { s with calls := s.calls ++ [.start k] } := .call s k
  have henter : Step min max { s with calls := s.calls ++ [.start k] }
      (.enter s.calls.length none true) _ := .enter (k := k) (by simp) hstuck trivial
  rw [enter_new max (s := { s with calls := s.calls ++ [.start k] }) hflush hfind hlen] at henter
  have hrun := (Run.single (hcall.guarded (by simp))).snoc (henter.guarded (by simp)) |>.snoc
    (Step.guarded (.drop (b := s.next) List.mem_cons_self) (by simp))
  simpa using hrun

theorem Filled.more {n : Nat} {s : BufSystem Nat Nat} (h : s.Filled n) (hn : 0 < n)
    (hmax : n < max) :
    ∃ es u, Run (Guarded (Step min max) Revalidated) s es u ∧ u.Filled (n + 1) := by
  have hrun := fetch_new min max (s := s) (k := n) (by simp [h.flushList, PtrList.empty])
    h.stuck
    (fun b hb => by
      have hlt : b < n := by simpa [h.bufferList] using hb
      simpa [h.keys b hlt] using Nat.ne_of_lt hlt)
    (by simpa [h.bufferList] using hmax)
  refine ⟨_, _, hrun, ?_, h.flushList, h.stuck, ?_, h.handles, ?_, ?_, ?_⟩
  · simp [h.bufferList, h.next, PtrList.pushFront, List.range_succ]
  · simp [h.next]
  · intro c hc
    rcases List.mem_append.mp hc with hc | hc
    · exact h.calls c hc
    · exact List.mem_singleton.mp hc
  · intro b hb
    rcases eq_or_ne b n with rfl | hbn
    · simp [h.next]
    · have hlt : b < n := Nat.lt_of_le_of_ne (Nat.le_of_lt_succ hb) hbn
      simp [h.next, Function.update_of_ne hbn, h.keys b hlt]
  · have hne : 0 ≠ n := Nat.ne_of_lt hn
    simp [h.next, Function.update_of_ne hne, h.dirty]

theorem filled_one (hmax : 0 < max) :
    ∃ es u, Run (Guarded (Step min max) Revalidated) (init (fun _ : Nat => 0) 0) es u ∧
      u.Filled 1 := by
  have hcall : Step min max (init (fun _ : Nat => 0) 0) (.call 0)
      { init (fun _ : Nat => 0) 0 with calls := [.start 0] } := .call _ 0
  have henter : Step min max { init (fun _ : Nat => 0) 0 with calls := [.start 0] }
      (.enter 0 none true) _ := .enter (k := 0) rfl rfl trivial
  rw [enter_new max (s := { init (fun _ : Nat => 0) 0 with calls := [.start 0] }) rfl
    (fun b hb => by cases hb) hmax] at henter
  refine ⟨_, _, (Run.single (hcall.guarded (by simp))).snoc (henter.guarded (by simp))
    |>.snoc (Step.guarded (.load (b := 0) List.mem_cons_self rfl rfl) (by simp))
    |>.snoc (Step.guarded (.modify (b := 0) (d := 1) List.mem_cons_self rfl rfl) (by simp))
    |>.snoc (Step.guarded (.drop (b := 0) List.mem_cons_self) (by simp)),
    rfl, rfl, rfl, rfl, rfl, ?_, ?_, rfl⟩
  · simp [setBuf]
  · intro b hb
    obtain rfl := Nat.lt_one_iff.mp hb
    rfl

theorem exists_filled {n : Nat} (hn : 0 < n) (hmax : n ≤ max) :
    ∃ es u, Run (Guarded (Step min max) Revalidated) (init (fun _ : Nat => 0) 0) es u ∧
      u.Filled n := by
  induction n with
  | zero => exact absurd hn (Nat.lt_irrefl 0)
  | succ n ih =>
    rcases Nat.eq_zero_or_pos n with rfl | hpos
    · exact filled_one min max hmax
    · obtain ⟨es, s, h, hs⟩ := ih hpos (Nat.le_of_succ_le hmax)
      obtain ⟨fs, u, h', hu⟩ := hs.more min max hpos hmax
      exact ⟨es ++ fs, u, h.append h', hu⟩

/-- The first section of a call that evicts a dirty buffer. -/
theorem enter_evict {s : BufSystem Nat Nat} {t k : Nat} {b : BufId} {mem : Bool}
    (hflush : s.flushList.nodes = []) (hfind : ∀ b ∈ s.bufferList.nodes, (s.bufs b).key ≠ some k)
    (hdirty : (s.bufs b).dirty = true) :
    s.enter max t k (some b) mem =
      { s with bufferList := s.bufferList.erase b
               flushList := s.flushList.pushBack b
               calls := s.calls.set t (.flushing k b) } := by
  have hnone : s.bufferList.nodes.find? (s.isKey k) = none :=
    List.find?_eq_none.mpr fun b hb hk => hfind b hb (isKey_eq_true.mp hk)
  unfold BufSystem.enter
  rw [if_neg (by simp [hflush]), hnone]
  simp [place, setCall, hdirty]

/-- The last section of a call that finds its key still absent. -/
theorem finish_new {s : BufSystem Nat Nat} {t k : Nat} {b : BufId}
    (hfind : ∀ b ∈ s.bufferList.nodes, (s.bufs b).key ≠ some k) :
    s.finish t k b =
      { s with bufferList := s.bufferList.pushFront b
               flushList := s.flushList.erase b
               bufs := Function.update s.bufs b { s.bufs b with key := some k, valid := false }
               calls := (s.calls.map Call.wake).set t .idle
               handles := b :: s.handles } := by
  have hnone : s.bufferList.nodes.find? (s.isKey k) = none :=
    List.find?_eq_none.mpr fun b hb hk => hfind b hb (isKey_eq_true.mp hk)
  unfold BufSystem.finish
  rw [hnone]
  rfl

theorem Filled.victimOk {n : Nat} {s : BufSystem Nat Nat} (h : s.Filled n) (hn : 0 < n)
    (hmin : min ≤ n) (k : Nat) :
    { s with calls := s.calls ++ [Call.start k] }.VictimOk min (some 0) := by
  have hcalls : s.calls.countP (fun c => c.buf = some 0) = 0 := by
    refine List.countP_eq_zero.mpr fun c hc => ?_
    simp [h.calls c hc, Call.buf]
  have hcount : (List.range n).reverse.count 0 = 1 :=
    List.count_eq_one_of_mem (List.nodup_reverse.mpr List.nodup_range) (by simpa using hn)
  refine ⟨by simpa [h.bufferList] using hmin, by simpa [h.bufferList] using hn, ?_⟩
  simp only [useCount, h.bufferList, h.flushList, h.handles, PtrList.empty, List.countP_append,
    hcalls, hcount]
  rfl

/-- The cache is full, and a call for a further block has written back the least recently
used buffer. -/
theorem Filled.flushed {n : Nat} {s : BufSystem Nat Nat} (h : s.Filled n) (hn : 0 < n)
    (hmin : min ≤ n) :
    ∃ es u, Run (Guarded (Step min max) Revalidated) s es u ∧ u.stuck = false ∧ u.handles = [] ∧
      u.calls = s.calls ++ [Call.flushed n 0] ∧ u.flushList = ⟨[0], []⟩ ∧
      (∀ b ∈ u.bufferList.nodes, (u.bufs b).key ≠ some n) := by
  have hkey : ∀ b ∈ s.bufferList.nodes, (s.bufs b).key ≠ some n := by
    intro b hb
    have hlt : b < n := by simpa [h.bufferList] using hb
    simpa [h.keys b hlt] using Nat.ne_of_lt hlt
  have hcall : Step min max s (.call n) { s with calls := s.calls ++ [Call.start n] } := .call s n
  have henter : Step min max { s with calls := s.calls ++ [Call.start n] }
      (.enter s.calls.length (some 0) true) _ :=
    .enter (k := n) (by simp) h.stuck (h.victimOk min hn hmin n)
  rw [enter_evict max (s := { s with calls := s.calls ++ [Call.start n] })
    (by simp [h.flushList, PtrList.empty]) hkey h.dirty] at henter
  have hrun := (Run.single (hcall.guarded (by simp))).snoc (henter.guarded (by simp))
    |>.snoc (Step.guarded (.writeBack (t := s.calls.length) (k := n) (b := 0) (by simp)) (by simp))
  rw [flush_frame] at hrun
  refine ⟨_, _, hrun, h.stuck, h.handles, ?_, ?_, ?_⟩
  · simp [setCall]
  · simp [setCall, h.flushList, PtrList.empty, PtrList.pushBack]
  · intro b hb
    simp only [setCall, flush_key]
    exact hkey b (List.mem_of_mem_erase hb)

/-- The buffer is then given to the further block, which is modified and dropped: the buffer
is in `buffer_list` and in the recycled node of `flush_list`. -/
theorem Filled.evict {n : Nat} {s : BufSystem Nat Nat} (h : s.Filled n) (hn : 0 < n)
    (hmin : min ≤ n) :
    ∃ es u, Run (Guarded (Step min max) Revalidated) s es u ∧ u.stuck = false ∧
      u.handles = [] ∧ (∀ c ∈ u.calls, c.buf = none) ∧ u.bufs 0 = ⟨some n, true, true, 9⟩ ∧
      0 ∈ u.bufferList.nodes ∧ 0 ∈ u.flushList.cache := by
  obtain ⟨es, u, hrun, hstuck, hhand, hcalls, hflush, hkey⟩ :=
    h.flushed min max hn hmin
  have hget : u.calls[s.calls.length]? = some (.flushed n 0) := by simp [hcalls]
  have hfinish : Guarded (Step min max) Revalidated u (.finish s.calls.length)
      (u.finish s.calls.length n 0) := by
    refine ⟨fun k b hb c hc => ?_, .finish hget hstuck⟩
    rw [hget] at hb
    cases hb
    simp [hflush] at hc
  rw [finish_new hkey] at hfinish
  refine ⟨_, _, (hrun.snoc hfinish)
    |>.snoc (Step.guarded
      (.load (b := 0) (k := n) List.mem_cons_self (by simp) (by simp)) (by simp))
    |>.snoc (Step.guarded
      (.modify (b := 0) (k := n) (d := 9) List.mem_cons_self (by simp [setBuf]) (by simp [setBuf]))
        (by simp))
    |>.snoc (Step.guarded (.drop (b := 0) List.mem_cons_self) (by simp)), hstuck, ?_,
      ?_, ?_, ?_, ?_⟩
  · simp [setBuf, hhand]
  · intro c hc
    have hmem : c ∈ s.calls.map Call.wake ++ [Call.idle] := by
      simpa [setBuf, hcalls, Call.wake] using hc
    rcases List.mem_append.mp hmem with hc | hc
    · obtain ⟨d, hd, rfl⟩ := List.mem_map.mp hc
      rw [h.calls d hd]
      rfl
    · rw [List.mem_singleton.mp hc]
      rfl
  · simp [setBuf]
  · simp [setBuf, PtrList.pushFront]
  · simp [setBuf, hflush, PtrList.erase, PtrList.freeNode]

/-- At the sizes of the kernel's block cache: the buffer of block 2048 is modified, nobody
points to it, and `destroy` neither writes it nor reports success. -/
theorem destroy_fails_after_eviction :
    ∃ (es : List (Event Nat Nat)) (s : BufSystem Nat Nat),
      Run (Guarded (Step 2048 10240) Revalidated) (init (fun _ => 0) 0) es s ∧
        s.Released (fun _ => true) ∧ s.stuck = false ∧
        s.bufs 0 = ⟨some 2048, true, true, 9⟩ ∧ 0 ∈ s.bufferList.nodes ∧
        ¬ s.DestroyOk 2048 10240 fun _ => true := by
  obtain ⟨es, s, hrun, hs⟩ := exists_filled 2048 10240 (n := 2048) (by decide)
    (by decide)
  obtain ⟨fs, u, hrun', hstuck, hhand, hcalls, hbuf, hmem, hcache⟩ :=
    hs.evict 2048 10240 (by decide) (Nat.le_refl _)
  have hall := hrun.append hrun'
  have hrel : u.Released fun _ => true := by
    refine ⟨by simp [hhand], fun c hc b hb => ?_⟩
    simp [hcalls c hc] at hb
  refine ⟨_, u, hall, hrel, hstuck, hbuf, hmem, fun hok => ?_⟩
  refine (hok.unshared (inv_of_run hall).1 hrel).2 ⟨0, hmem, ?_, .inr hcache⟩
  simp [onDevice, hbuf]

end Fill

end BufSystem

end CoroCore
