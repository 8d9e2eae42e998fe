import Xv6.Fs.InodeMoves

set_option autoImplicit false

/-! # References, locks and copies of cached inodes

`Inv` says of every entry what `EntryView.Ok` says of one, and that no two entries in use are for
one inode.

`iput` gives up `icache.lock` after it has seen that it drops the last reference, and frees the
inode after that. The invariant needs that no `iget` and no `ialloc` gets hold of the inode in
between (`Calm`), and the processes can break that: an `iget` then has a reference to an inode that
is freed (`iget_while_freeing`). In the file system the entry `..` of a removed directory is a name
for such an inode. An `ialloc` may take the inode before the entry is invalid, which then is a valid
copy of what the inode was (`ialloc_while_freeing`). -/

namespace Xv6

open Transition Function

namespace InodeSys

variable {v : FsBuild} {P : Type} [DecidableEq P] {a : InodeAct v P} {s s' : InodeSys v P} {p : P}
  {e : Fin ninode}

structure Inv [Fintype P] (s : InodeSys v P) : Prop where
  ok : ∀ e, (s.view e).Ok
  unique : ∀ e e', 0 < (s.entry e).ref → 0 < (s.entry e').ref →
    (s.entry e).key = (s.entry e').key → e = e'

section

variable [Fintype P]

/-- The inode on the disk that an entry in use is for stays, becomes the copy or was free, where the
action takes no inode that is being freed. -/
theorem Holds.disk_calm (h : Holds s) (hcalm : Calm a s) (hs : s.step a = .ok s')
    (hkey : (s'.entry e).key = (s.entry e).key) (hpos : 0 < (s.entry e).ref) :
    (s'.view e).disk = (s.view e).disk ∨ (s'.view e).disk = (s'.view e).entry.node ∨
      (s.view e).disk.type = 0 ∧ (s.view e).Unfreed := by
  simp only [view, hkey]
  rcases step_disk hs with hd | ⟨p, e1, x, hx, hnode, hd⟩ | ⟨k, type, hz, hfree, hd⟩
  · exact .inl (by rw [hd])
  · have hpos1 : 0 < (s.entry e1).ref := by
      rcases hx with ⟨hpc, hlock, -⟩ | ⟨hpc, -⟩ | ⟨-, hpc, -⟩
      · exact (h.of_idle hpc hlock).2
      · exact (h.of_iput hpc).2
      · exact (h.of_iput hpc).2
    by_cases hk : (s.entry e).key = (s.entry e1).key
    · obtain rfl := h.unique e e1 hpos hpos1 hk
      exact .inr (.inl (by rw [hd, update_self, hnode]))
    · exact .inl (by rw [hd, update_of_ne hk])
  · by_cases hk : (s.entry e).key = k
    · subst hk
      exact .inr (.inr ⟨hz, unfreed_of_not_freeing (hfree hcalm)⟩)
    · exact .inl (by rw [hd, update_of_ne hk])

theorem Inv.step (h : Inv s) (hholds : Holds s) (hcalm : Calm a s) (hs : s.step a = .ok s') :
    Inv s' := by
  obtain ⟨e0, ⟨hmoves, hother⟩, hgain⟩ := step_worksOn hs
  refine ⟨fun e => ?_, (hholds.step hs).unique⟩
  by_cases hne : e = e0
  · subst hne
    refine (h.ok e).moves (hholds.held e) hmoves ⟨hgain hcalm, fun hpos => ?_⟩
    refine hholds.disk_calm hcalm hs ?_ hpos
    rcases hmoves.key (hholds.held e) with ⟨hkey, -⟩ | ⟨hzero, -⟩
    · exact hkey
    · exact absurd hzero (ne_of_gt hpos)
  · obtain ⟨x, hx⟩ := hother e hne
    have hentry : s'.entry e = s.entry e := congrArg EntryView.entry hx
    rw [hx]
    refine (h.ok e).setDisk (hholds.held e) fun hpos => ?_
    have hdisk := hholds.disk_calm hcalm hs (congrArg CacheEntry.key hentry) hpos
    rwa [hx] at hdisk

/-- An inode becomes free only by the last step of an `iput` that drops its last reference. -/
theorem Inv.zeroed (h : Inv s) (hholds : Holds s) (hs : s.step a = .ok s') {k : ℕ × ℕ}
    (hk : (s.disk k).type ≠ 0) (hk' : (s'.disk k).type = 0) :
    ∃ p e, a = .run p ∧ (s.entry e).key = k ∧ (s.entry e).node.nlink = 0 ∧ (s.entry e).ref = 1 ∧
      s.refs p e = 1 := by
  have hupdate : ∀ {k0 : ℕ × ℕ} {x : Dinode v}, s'.disk = update s.disk k0 x → k = k0 ∧
      x.type = 0 := by
    intro k0 x hd
    rw [hd] at hk'
    by_cases hkk : k = k0
    · subst hkk
      rw [update_self] at hk'
      exact ⟨rfl, hk'⟩
    · rw [update_of_ne hkk] at hk'
      exact absurd hk' hk
  rcases step_disk hs with hd | ⟨p, e, x, hx, -, hd⟩ | ⟨k0, type, hz, -, hd⟩
  · exact absurd (hd ▸ hk') hk
  · rcases hx with ⟨hpc, hlock, rfl⟩ | ⟨hpc, rfl⟩ | ⟨ha, hpc, -⟩
    · exact absurd (hupdate hd).2 (hholds.typed_of_lock hlock (hholds.of_idle hpc hlock).1
        (by simp [hpc]))
    · obtain ⟨hlock, -, hvalid, -⟩ := (h.ok e).place p _ (on_iput.2 hpc)
      exact absurd (hupdate hd).2 (hholds.typed_of_lock hlock hvalid (by simp [hpc]))
    · obtain ⟨hlock, hone, -, hnlink⟩ := (h.ok e).place p _ (on_iput.2 hpc)
      refine ⟨p, e, ha, (hupdate hd).1.symm, hnlink, hone, ?_⟩
      have hpos : 0 < s.refs p e := (h.ok e).ref p hlock
      have hle : s.refs p e ≤ (s.entry e).ref := (hholds.held e).refs_le p
      have hone : (s.entry e).ref = 1 := hone
      omega
  · exact absurd ((hupdate hd).1 ▸ hz) hk

/-! ## The cache in every state -/

/-- The discipline of the cache. An entry is in use while its `ref` is positive. -/
structure Disciplined (s : InodeSys v P) : Prop where
  unique : ∀ e e', 0 < (s.entry e).ref → 0 < (s.entry e').ref →
    (s.entry e).key = (s.entry e').key → e = e'
  counted : ∀ e, (s.entry e).ref = ((∑ p, s.refs p e : ℕ) : Int)
  busy : ∀ e, (s.entry e).busy = true ↔ ∃ p, s.locks p e = true
  oneHolder : ∀ e p q, s.locks p e = true → s.locks q e = true → p = q
  agrees : ∀ e, 0 < (s.entry e).ref → (s.entry e).valid = true → s.dirty e = false →
    (s.entry e).node = s.disk (s.entry e).key
  zeroed : ∀ a s', s.step a = .ok s' → ∀ k, (s.disk k).type ≠ 0 → (s'.disk k).type = 0 →
    ∃ p e, a = .run p ∧ (s.entry e).key = k ∧ (s.entry e).node.nlink = 0 ∧ (s.entry e).ref = 1 ∧
      s.refs p e = 1
  noPanic : ∀ a, s.step a ≠ .error .iputBusy ∧ s.step a ≠ .error .iunlock ∧ s.step a ≠ .error .ilock

variable {x : InodeStop}

omit [Fintype P] in
theorem iget_stop {dev inum : ℕ} (hs : s.iget p dev inum = .error x) : x = .igetNoInodes := by
  unfold iget at hs
  split at hs
  · cases hs
  · split at hs <;> cases hs
    rfl

omit [Fintype P] in
theorem run_stop (hs : s.run p = .error x) :
    x = .blocked ∨ x = .igetNoInodes ∨ x = .ilockNoType ∨ x = .iallocNoInodes := by
  unfold InodeSys.run at hs
  split at hs
  · cases hs
    simp
  · split_ifs at hs
    cases hs
    simp
  · split_ifs at hs
    cases hs
    simp
  · cases hs
  · cases hs
  · cases hs
  · cases hs
  · split_ifs at hs
    cases hs
    simp
  · next dev inum _ =>
      cases hget : s.iget p dev inum with
      | error y =>
        rw [hget] at hs
        cases hs
        simp [iget_stop hget]
      | ok s1 =>
        rw [hget] at hs
        cases hs

/-- Where the rules for references and locks are kept, the checks of `ilock`, `iunlock` and `iput`
    pass. -/
theorem Inv.stop (h : Inv s) (hholds : Holds s) (hs : s.step a = .error x) :
    x = .blocked ∨ x = .igetNoInodes ∨ x = .ilockNoType ∨ x = .iallocNoInodes := by
  cases a with
  | iget p dev inum =>
    simp only [InodeSys.step] at hs
    split_ifs at hs
    · simp [iget_stop hs]
    · cases hs
      simp
  | idup p e | modify p e x | iupdate p e | give p q e | ialloc p dev type =>
    simp only [InodeSys.step] at hs
    split_ifs at hs
    cases hs
    simp
  | ilock p e =>
    simp only [InodeSys.step] at hs
    split_ifs at hs with hg href
    · have hpos : 0 < (s.entry e).ref := (hholds.held e).pos hg.2.1
      omega
    · cases hs
      simp
  | iunlock p e =>
    simp only [InodeSys.step] at hs
    split_ifs at hs with hg hcheck
    · have hbusy : (s.entry e).busy = true := (h.ok e).busy.2 ⟨p, hg.2⟩
      have hpos : 0 < (s.entry e).ref := (hholds.of_idle hg.1 hg.2).2
      rcases hcheck with hfree | hlow
      · cases hbusy.symm.trans hfree
      · omega
    · cases hs
      simp
  | iput p e =>
    simp only [InodeSys.step] at hs
    split_ifs at hs with hg hfrees hbusy
    · -- the process that has made the entry busy would have the only reference, which is that of `p`
      obtain ⟨q, hlock⟩ := (h.ok e).busy.1 hbusy
      obtain rfl : q = p := (hholds.held e).alone hfrees.1 ((h.ok e).ref q hlock) hg.2.1
      have htwo := hg.2.2 hlock
      have hle : s.refs q e ≤ (s.entry e).ref := (hholds.held e).refs_le q
      have hone : (s.entry e).ref = 1 := hfrees.1
      omega
    · cases hs
      simp
  | run p => exact run_stop hs

theorem Inv.disciplined (h : Inv s) (hholds : Holds s) : Disciplined s where
  unique := h.unique
  counted e := (h.ok e).counted
  busy e := (h.ok e).busy
  oneHolder e p q := (h.ok e).excl p q
  agrees e := (h.ok e).agrees
  zeroed _ _ hs _ := h.zeroed hholds hs
  noPanic a := by
    refine ⟨fun hs => ?_, fun hs => ?_, fun hs => ?_⟩ <;> simpa using h.stop hholds hs

omit [DecidableEq P] in
theorem inv_init (n : ℕ) (disk : ℕ × ℕ → Dinode v) : Inv (init n disk : InodeSys v P) := by
  refine ⟨fun e => ⟨?_, ?_, nofun, nofun, nofun, nofun, nofun, nofun⟩, fun e e' he => ?_⟩
  · simp [view, init]
  · simp [view, init]
  · simp [init] at he

/-- In a run in which no `iget` and no `ialloc` takes an inode while `iput` frees it, the cache
keeps its discipline. -/
theorem cache_disciplined (n : ℕ) (disk : ℕ × ℕ → Dinode v) (s : InodeSys v P)
    (h : Reachable step (· = init n disk) Calm s) : Disciplined s := by
  have hinv : Inv s ∧ Holds s := by
    refine h.invariant (P := fun s => Inv s ∧ Holds s) ?_ fun a s s' hs hcalm hstep =>
      ⟨hs.1.step hs.2 hcalm hstep, hs.2.step hstep⟩
    rintro _ rfl
    exact ⟨inv_init n disk, holds_init n disk⟩
  exact hinv.1.disciplined hinv.2

end

/-! ## Runs of two processes -/

/-- A disk with one file that has one link, the inode 1 of the device 1. -/
def oneFile : ℕ × ℕ → Dinode .p5 :=
  update (fun _ => .blank 0) (1, 1) { Dinode.blank 2 with nlink := 1 }

/-- A process locks the inode, takes its link and drops its reference to it. -/
def unlinkRun : List (InodeAct .p5 Bool) :=
  [.iget false 1 1, .ilock false 0, .run false, .run false, .modify false 0 (.blank 2),
    .iupdate false 0, .iunlock false 0, .run false, .iput false 0]

/-- The inode is freed. -/
theorem cache_disciplined_freed : ∃ s : InodeSys .p5 Bool,
    Reachable step (· = init 8 oneFile) Calm s ∧ (s.disk (1, 1)).type = 0 ∧ Disciplined s := by
  let acts := unlinkRun ++ [.run false, .run false, .run false]
  obtain ⟨s, hreach, htype⟩ := reachable_any step (· = init 8 oneFile) Calm acts rfl
    (fun s => (s.disk (1, 1)).type = 0) (by decide +kernel)
  exact ⟨s, hreach, htype, cache_disciplined 8 oneFile s hreach⟩

/-- Another process gets a reference to the inode before it is freed. -/
theorem iget_while_freeing : ¬∀ s : InodeSys .p5 Bool,
    Reachable step (· = init 8 oneFile) (fun _ _ => True) s → Disciplined s := by
  intro h
  let acts := unlinkRun ++ [.iget true 1 1, .run false]
  obtain ⟨s, hreach, href, hkey, htype, hstep⟩ :=
    reachable_any step (· = init 8 oneFile) (fun _ _ => True) acts rfl
    (fun s => (s.entry 0).ref = 2 ∧ (s.entry 0).key = (1, 1) ∧ (s.disk (1, 1)).type ≠ 0 ∧
      ((s.step (.run false)).toOption.any fun s' => (s'.disk (1, 1)).type = 0) = true)
      (by decide +kernel)
  have hd := h s hreach
  cases hs' : s.step (.run false) with
  | error x =>
    rw [hs'] at hstep
    cases hstep
  | ok s' =>
    rw [hs'] at hstep
    have hfree : (s'.disk (1, 1)).type = 0 := by simpa [Except.toOption] using hstep
    obtain ⟨p, e, -, hk, -, hone, -⟩ := hd.zeroed _ s' hs' (1, 1) htype hfree
    obtain rfl : e = 0 := hd.unique e 0 (by omega) (by omega) (hk.trans hkey.symm)
    omega

/-- `ialloc` takes the inode before the entry for it is invalid. -/
theorem ialloc_while_freeing : ∃ s : InodeSys .p5 Bool,
    Reachable step (· = init 8 oneFile) (fun _ _ => True) s ∧ 0 < (s.entry 0).ref ∧
      (s.entry 0).valid = true ∧ s.dirty 0 = false ∧
      (s.entry 0).node.type = 0 ∧ (s.disk (s.entry 0).key).type = 1 := by
  let acts := unlinkRun ++ [.run false, .run false, .ialloc true 1 1, .run true]
  exact reachable_any step (· = init 8 oneFile) (fun _ _ => True) acts rfl
    (fun s => 0 < (s.entry 0).ref ∧ (s.entry 0).valid = true ∧ s.dirty 0 = false ∧
      (s.entry 0).node.type = 0 ∧ (s.disk (s.entry 0).key).type = 1) (by decide +kernel)

end InodeSys

end Xv6
