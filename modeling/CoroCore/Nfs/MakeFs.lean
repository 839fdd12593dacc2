import CoroCore.Nfs.Table

/-!
# A new file system: `nfs::make_fs` and `nfs::mount`

`makeFs_spec` says what `mount` finds on a device after `make_fs`: the inode table with the head
of the free list, the empty root directory, and nothing else.
-/

namespace CoroCore.Nfs

open Lib

namespace Fs

variable {s t : Fs} {live : List Nat}

/-- A device on which nothing is in use, with the inode table in memory. -/
theorem format_inv {nblocks : Nat} {disk : Nat → Bytes} (hfit : Fits nblocks) :
    TableInv [] (format nblocks disk) ∧ ∀ j p, (format nblocks disk).byte j p = 0 := by
  have hblank : ∀ j, ((format nblocks disk).ino j).Blank := by
    intro j
    rcases eq_or_ne j 0 with rfl | hj
    · exact ⟨fun _ _ => rfl, rfl⟩
    · rw [format, Store.setIno_of_ne hj]
      exact ⟨fun _ _ => rfl, rfl⟩
  have hrefs : ∀ q, (format nblocks disk).refs q = none := fun q =>
    Store.slotRef_of_blank (hblank q.1) q.2
  refine ⟨⟨⟨⟨formatDev_ok hfit, fun p q b hp _ => ?_, fun b => ?_⟩,
    fun r hr hraw => ?_, fun j => ?_,
    fun hclean => absurd ⟨rfl,
    rfl⟩ hclean⟩, ?_, fun i hi => absurd hi List.not_mem_nil,
    fun i hi => absurd hi List.not_mem_nil, fun i hi _ => ⟨?_, hblank i⟩⟩, fun j p => ?_⟩
  · rw [hrefs] at hp
    cases hp
  · refine ⟨fun hb => absurd hb (not_used_formatDev hfit b), fun ⟨q, hq⟩ => ?_⟩
    rw [hrefs] at hq
    cases hq
  · exact absurd hraw (Nat.ne_of_gt hr)
  · rcases eq_or_ne j 0 with rfl | hj
    · rw [format, Store.setIno_self]
      constructor <;> decide
    · rw [format, Store.setIno_of_ne hj]
      constructor <;> exact Nat.two_pow_pos _
  · exact List.not_mem_nil
  · rw [format, Store.setIno_of_ne hi]
    rfl
  · rw [Store.byte_eq, hrefs]

/-- The flush of the inode table. -/
theorem flushTable_spec (h : TableInv live s) :
    TableInv live (flushTable s) ∧ Keeps s (flushTable s) ∧
      ((flushTable s).ino 0).dirty = false ∧ (∀ j, j ≠ 0 → (flushTable s).ino j = s.ino j) ∧
      ∀ m, dinode (flushTable s) m = s.dinode m := by
  have hok := h.core.owned.ok
  let u : Fs := { s with dev := { s.dev with al := { s.dev.al with inodeTable := (s.ino 0).toDinode,
                                                                   dirty := true } } }
  have hown : u.Owned bitmapModel :=
    ⟨⟨hok.start_gt, hok.start_le, hok.total_lt, hok.fits, hok.next_ge, hok.low, hok.count⟩,
      h.core.owned.inj, h.core.owned.used⟩
  let x : Inode := { s.ino 0 with dirty := false }
  have ha : ∀ k < numDirectData, x.addrs k = (u.ino 0).addrs k := fun _ _ => rfl
  have hn : x.nextAddrBlock = (u.ino 0).nextAddrBlock := rfl
  have hrefs : (u.setIno 0 x).refs = s.refs := Store.refs_setIno ha hn
  have hbyte : ∀ j p, (u.setIno 0 x).byte j p = s.byte j p := Store.byte_setIno ha hn
  have hdin : ∀ m, dinode (u.setIno 0 x) m = s.dinode m :=
    fun m => dinode_congr fun k _ => hbyte 0 _
  have hino : ∀ j, j ≠ 0 → (u.setIno 0 x).ino j = s.ino j := fun j hj => Store.setIno_of_ne hj
  refine ⟨⟨⟨hown.setIno ha hn, fun r hr => ?_, fun j => ?_, fun _ => ?_⟩, h.zero, h.bound,
    fun j hj => ?_, fun j hj hl => ?_⟩, ⟨fun j hj => ?_, fun j hj => ?_, fun j _ p => hbyte j p,
    fun q b hb => by rw [← hb]; exact congrFun hrefs q⟩, ?_, hino, hdin⟩
  · refine (h.core.pos r hr).mono ?_ fun q b hb => by rw [← hb]; exact congrFun hrefs q
    show (s.ino 0).SamePos ((u.setIno 0 x).ino 0)
    rw [Store.setIno_self]
    exact ⟨rfl, rfl, rfl⟩
  · show ((u.setIno 0 x).ino j).InRange
    rcases eq_or_ne j 0 with rfl | hj
    · rw [Store.setIno_self]
      obtain ⟨r1, r2, r3, r4⟩ := h.core.range 0
      exact ⟨r1, r2, r3, r4⟩
    · rw [hino j hj]
      exact h.core.range j
  · show ((u.setIno 0 x).ino 0).Stored (s.ino 0).toDinode
    rw [Store.setIno_self]
    exact ⟨rfl, rfl, rfl, rfl, rfl, fun _ _ => rfl⟩
  · show _ → ((u.setIno 0 x).ino j).Stored (dinode (u.setIno 0 x) j)
    have hne : j ≠ 0 := fun he => h.zero (he ▸ hj)
    rw [hdin, hino j hne]
    exact fun hclean => h.stored j hj (hino j hne ▸ hclean)
  · show ((u.setIno 0 x).ino j).valid = false ∧ ((u.setIno 0 x).ino j).Blank
    rw [hino j hj]
    exact h.absent j hj hl
  · show (s.ino j).Alike ((u.setIno 0 x).ino j)
    rw [hino j hj]
    exact Inode.Alike.refl _
  · show (s.ino j).SamePos ((u.setIno 0 x).ino j)
    rw [hino j hj]
    exact Inode.SamePos.refl _
  · show ((u.setIno 0 x).ino 0).dirty = false
    rw [Store.setIno_self]

theorem flush_zero_spec (h : TableInv live s) (hf : flush 0 s = .ok t) :
    TableInv live t ∧ ¬((t.ino 0).valid = true ∧ (t.ino 0).dirty = true) ∧
      (∀ j, j ≠ 0 → t.ino j = s.ino j) ∧ ∀ m, t.dinode m = s.dinode m := by
  rw [flush_eq] at hf
  split at hf
  · rw [if_pos rfl] at hf
    cases hf
    obtain ⟨ht, -, hclean, hino, hd⟩ := flushTable_spec h
    exact ⟨ht, fun hvd => Bool.noConfusion (hclean.symm.trans hvd.2), hino, hd⟩
  · next hclean =>
    cases hf
    exact ⟨h, hclean, fun _ _ => rfl, fun _ => rfl⟩

/-- `mount` when all that the memory held was flushed. -/
theorem mount_spec (h : TableInv live s)
    (hclean : ∀ i, ¬((s.ino i).valid = true ∧ (s.ino i).dirty = true)) :
    TableInv live (mount s) ∧ (∀ j, (s.ino j).Alike ((mount s).ino j)) ∧
      (∀ j p, (mount s).byte j p = s.byte j p) := by
  have halike : ∀ j, (s.ino j).Alike ((mount s).ino j) := fun j =>
    ⟨rfl, rfl, rfl, rfl, rfl, fun _ _ => rfl⟩
  have hrefs : ∀ q, (mount s).refs q = s.refs q := by
    intro q
    exact Store.slotRef_alike (halike q.1) q.2
  have hbyte : ∀ j p, (mount s).byte j p = s.byte j p := by
    intro j p
    rw [Store.byte_eq, Store.byte_eq, hrefs]
    rfl
  have hdin : ∀ m, (mount s).dinode m = s.dinode m := fun m => dinode_congr fun k _ => hbyte 0 _
  refine ⟨⟨⟨⟨h.core.owned.ok, fun p q b hp hq => ?_, fun b => ?_⟩, fun r hr hraw => ?_,
    fun j => (halike j).inRange (h.core.range j), fun _ => ?_⟩, h.zero, h.bound, fun j hj _ => ?_,
    fun j hj hl => ⟨rfl, (halike j).blank (h.absent j hj hl).2⟩⟩, halike, hbyte⟩
  · rw [hrefs] at hp hq
    exact h.core.owned.inj p q b hp hq
  · simp only [hrefs]
    exact h.core.owned.used b
  · exact absurd hraw (Nat.ne_of_gt hr)
  · exact (halike 0).stored (h.core.table (hclean 0))
  · rw [hdin]
    exact (halike j).stored (h.stored j hj (hclean j))

/-- The root directory as `make_fs` sets it up. -/
def newRoot (x : Inode) : Inode := { x.initData with type := itypeDir, nlinks := 1 }

/-- The root directory is made in memory. -/
theorem TableInv.makeRoot (h : TableInv [] s) :
    TableInv [1] (s.setIno 1 (newRoot (s.ino 1))) ∧
      ∀ j p, (s.setIno 1 (newRoot (s.ino 1))).byte j p = s.byte j p := by
  have hrange : (newRoot (s.ino 1)).InRange :=
    ⟨Nat.two_pow_pos _, (by decide : 1 < 2 ^ 16), Nat.two_pow_pos _, (by decide : 2 < 2 ^ 8)⟩
  obtain ⟨hinv₂, hbyte₂, -⟩ := h.insert (n := 1) (by decide) List.not_mem_nil (by decide)
  have hset : (s.setIno 1 (s.ino 1).initData).setIno 1 (newRoot (s.ino 1)) =
      s.setIno 1 (newRoot (s.ino 1)) := by
    simp only [Store.setIno, Function.update_idem]
  obtain ⟨hinv₃, hbyte₃, -⟩ := hinv₂.setMeta (x := newRoot (s.ino 1)) List.mem_cons_self
    (by rw [Store.setIno_self, newRoot]) (by rw [Store.setIno_self, newRoot]) hrange rfl rfl
  rw [hset] at hinv₃ hbyte₃
  exact ⟨hinv₃, fun j p => (hbyte₃ j p).trans (hbyte₂ j p)⟩

/-- What `mount` finds after `make_fs`. -/
structure New (s : Fs) : Prop where
  table : TableInv [1] s
  pos : ∀ i, Inode.new.SamePos (s.ino i)
  valid : ∀ i, (s.ino i).valid = false
  type : (s.dinode 0).type = itypeNextFreeInode
  head : (s.dinode 0).size = 2
  fresh : ∀ m, 2 ≤ m → s.dinode m = Dinode.decode fun _ => 0
  blank : ∀ i, i ≠ 0 → (s.ino i).Blank
  size : ∀ i, i ≠ 0 → (s.ino i).size = 0
  root : (s.ino 1).type = itypeDir

theorem makeFs_spec {nblocks : Nat} {disk : Nat → Bytes} {junk : Dinode} (hfit : Fits nblocks)
    (h : makeFs nblocks disk junk = .ok s) : New (mount s) := by
  rw [makeFs, if_neg (Nat.not_lt.mpr hfit.min)] at h
  obtain ⟨s₁, h₁, h⟩ := bind_ok h
  obtain ⟨s₂, h₂, h⟩ := bind_ok h
  obtain ⟨hinv₀, hbyte₀⟩ : TableInv [] (format nblocks disk) ∧ _ := format_inv hfit
  -- the head of the free list
  obtain ⟨htab₁, -, -⟩ := writeDinode_spec hinv₀.core (by decide) h₁
  obtain ⟨hhead, hd₁⟩ := writeDinode_dinode hinv₀.core (by decide) h₁
  have hinv₁ := hinv₀.tab htab₁ fun i hi => absurd hi List.not_mem_nil
  -- the root directory
  let root : Inode := newRoot (s₁.ino 1)
  obtain ⟨hinv₃, hbyte₃⟩ := hinv₁.makeRoot
  have hd₃ : ∀ m, dinode (s₁.setIno 1 root) m = s₁.dinode m :=
    fun m => dinode_congr fun k _ => hbyte₃ 0 _
  -- the flushes
  obtain ⟨hinv₄, hkeep₄, hclean₄, -, hino₄, hd₄⟩ := flush_spec hinv₃ (by decide) h₂
  obtain ⟨hinv₅, hclean₅, hino₅, hd₅⟩ := flush_zero_spec hinv₄ h
  have hdin : ∀ m, m ≠ 1 → s.dinode m = s₁.dinode m := fun m hm =>
    (hd₅ m).trans ((hd₄ m fun hl => hm (List.mem_singleton.mp hl)).trans (hd₃ m))
  have hino : ∀ j, j ≠ 0 → j ≠ 1 → s.ino j = Inode.absent := by
    intro j h0 h1
    rw [hino₅ j h0, hino₄ j h0 h1, Store.setIno_of_ne h1, htab₁.ino j h0, format,
      Store.setIno_of_ne h0]
  have hroot : root.Alike (s.ino 1) := by
    rw [hino₅ 1 (by decide)]
    have := hkeep₄.alike 1 (by decide)
    rwa [Store.setIno_self] at this
  have hclean : ∀ i, ¬((s.ino i).valid = true ∧ (s.ino i).dirty = true) := by
    intro i
    rcases eq_or_ne i 0 with rfl | h0
    · exact hclean₅
    rcases eq_or_ne i 1 with rfl | h1
    · rw [hino₅ 1 h0]
      exact hclean₄
    · rw [hino i h0 h1]
      exact fun hvd => Bool.noConfusion hvd.1
  obtain ⟨hinv, halike, hbyte⟩ := mount_spec hinv₅ hclean
  have hdm : ∀ m, (mount s).dinode m = s.dinode m := fun m => dinode_congr fun k _ => hbyte 0 _
  have hzero : (mount s).dinode 0 = Dinode.decode (Dinode.encode _) :=
    (hdm 0).trans ((hdin 0 (by decide)).trans hhead)
  have hother : ∀ j, j ≠ 0 → ((mount s).ino j).Blank ∧ ((mount s).ino j).size = 0 := by
    intro j h0
    rcases eq_or_ne j 1 with rfl | h1
    · have hr := hroot.trans (halike 1)
      exact ⟨hr.blank ⟨fun _ _ => rfl, rfl⟩, hr.size⟩
    · have ha := halike j
      rw [hino j h0 h1] at ha
      exact ⟨ha.blank ⟨fun _ _ => rfl, rfl⟩, ha.size⟩
  refine ⟨hinv, fun i => ⟨rfl, rfl, rfl⟩, fun _ => rfl, ?_, ?_, fun m hm => ?_,
    fun i hi => (hother i hi).1, fun i hi => (hother i hi).2, (hroot.trans (halike 1)).type⟩
  · rw [hzero, Dinode.decode_type]
    exact (by decide : 8 < 2 ^ 8)
  · rw [hzero, Dinode.decode_size]
    exact (by decide : 2 < 2 ^ 32)
  · rw [hdm, hdin m (by omega), hd₁ m (by omega)]
    exact Dinode.decode_congr fun k _ => hbyte₀ 0 _

end Fs

end CoroCore.Nfs
