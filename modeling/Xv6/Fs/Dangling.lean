import Xv6.Fs.LinkCount

set_option autoImplicit false

/-! # Dangling directory entries

A directory that has been removed while it is a current directory keeps its entry `..`, but its
parent no longer counts it. As long as `unlink` does not remove such a parent, every entry that a
process can reach names an allocated inode, and `ilock` never finds an inode without a type.

If the parent is removed (`parent_removed`) it is freed at once, and the next `chdir("..")`
panics. -/

namespace Xv6

open Transition Function Stoppable

/-- The inodes that the entries lead to from the root. -/
inductive FromRoot (t : Itable) : ℕ → Prop
  | root : FromRoot t rootino
  | entry {d : ℕ} {de : Dirent} : FromRoot t d → (t d).type = .dir → de ∈ (t d).entries →
      de.inum ≠ 0 → FromRoot t de.inum

namespace DirFs

/-- Entries of directories that the root leads to, or that are current directories, name allocated
    inodes. -/
def NoDangling (s : DirFs) : Prop :=
  ∀ d, (s.inode d).type = .dir → FromRoot s.inode d ∨ (∃ p, (s.proc p).cwd = some d) →
    ∀ de ∈ (s.inode d).entries, de.inum ≠ 0 → (s.inode de.inum).type ≠ .free

/-- `i` is not the parent of a current directory that has been removed. -/
def NotAbandoned (s : DirFs) (i : ℕ) : Prop :=
  ∀ p c, (s.proc p).cwd = some c → ¬(s.inode c).Live → (s.inode c).parent ≠ i

instance (s : DirFs) : DecidablePred (NotAbandoned s) := fun i =>
  inferInstanceAs (Decidable (∀ p, ∀ c ∈ (s.proc p).cwd, ¬(s.inode c).Live → (s.inode c).parent ≠ i))

/-- As `EntriesOk`, and no parent of a removed current directory is removed. -/
def RemovalsOk (a : Fin nproc × FsCall) (s : DirFs) : Prop := CallOk NotAbandoned a s

instance (a : Fin nproc × FsCall) (s : DirFs) : Decidable (RemovalsOk a s) :=
  inferInstanceAs (Decidable (CallOk _ a s))

/-! ## Anchored directories -/

theorem anchored_of_fromRoot {n : ℕ} {t : Itable} (h : TreeOk n t) {d : ℕ} (hd : FromRoot t d) :
    Anchored t d := by
  induction hd with
  | root => exact h.walkable.root
  | entry _ hdir hde hne ih => exact h.walkable.next _ ih hdir _ hde hne

variable {s : DirFs}

theorem noDangling_of_anchored (h : FsOk s) (hcwds : CwdsAnchored s) : NoDangling s := by
  intro d hdir hd de hde hne
  have hanchored : Anchored s.inode d := by
    rcases hd with hd | ⟨p, hp⟩
    · exact anchored_of_fromRoot h.tree hd
    · exact hcwds p d hp
  exact (h.tree.anchored_of_mem hanchored hdir hde hne).1

variable {a : Fin nproc × FsCall}

theorem CwdsAnchored.step {s s' : DirFs} (hc : CwdsAnchored s) (h : FsOk s)
    (hok : RemovalsOk a s) (hs : DirFs.step a s = .ok s') : CwdsAnchored s' := by
  have o := (step_yields h NotAbandoned a).1 s' hs
  intro q c hq
  have halloc : (s'.inode c).type ≠ .free := (o.cache c).owned_alloc (owned_of_cwd hq)
  rcases o.cwd q c hq with ⟨p, hp⟩ | ⟨hfreed, p, cwd, path, name, hp, hr⟩
  · obtain ⟨t, hedit, hfreed⟩ := o.table hok
    exact hfreed.anchored (h.tree.anchored_of_edit hedit (hc p c hp) fun i hi => hi p c hp) halloc
  · -- the new current directory has been walked to
    exact hfreed.anchored (h.tree.walkable.resolve (hc p cwd hp) hr) halloc

theorem anchored_of_reachable (h : Reachable step Boots RemovalsOk s) :
    FsOk s ∧ CwdsAnchored s := by
  refine h.invariant (P := fun s => FsOk s ∧ CwdsAnchored s) ?_
    fun a s s' hs hok hstep => ⟨hs.1.step hok hstep, hs.2.step hs.1 hok hstep⟩
  rintro _ ⟨n, t, p, hcons, rfl⟩
  refine ⟨hcons.fsOk p, fun q c hq => ?_⟩
  rw [boot_cwd] at hq
  split_ifs at hq
  cases hq
  exact hcons.tree.walkable.root

/-! ## No dangling entries -/

theorem no_dangling (h : Reachable step Boots RemovalsOk s) :
    NoDangling s ∧ ∀ a, step a s ≠ .error .ilockNoType := by
  obtain ⟨hs, hcwds⟩ := anchored_of_reachable h
  refine ⟨noDangling_of_anchored hs hcwds, fun a ha => ?_⟩
  exact (step_yields hs NotAbandoned a).2 _ ha rfl hcwds

/-- `mkdir d`, `chdir d`, `unlink ../d`: the process is in a removed directory. -/
def leftRun : List (Fin nproc × FsCall) :=
  [(0, .mkdir [0x64]), (0, .chdir [0x64]), (0, .unlink [0x2e, 0x2e, 0x2f, 0x64])]

set_option maxRecDepth 100000 in
theorem no_dangling_removed : ∃ s, Reachable step Boots RemovalsOk s ∧
    (s.proc 0).cwd = some 2 ∧ ¬(s.inode 2).Live ∧
    NoDangling s ∧ ∀ a, step a s ≠ .error .ilockNoType := by
  obtain ⟨s, hreach, hcwd, hlive⟩ := reachable_any step Boots RemovalsOk leftRun
    (boots_rootOnly 0) (fun s => (s.proc 0).cwd = some 2 ∧ ¬(s.inode 2).Live) (by decide +kernel)
  exact ⟨s, hreach, hcwd, hlive, no_dangling hreach⟩

/-- `mkdir a`, `mkdir a/b`, `chdir a/b`, `unlink ../b`, `unlink ../../a`. -/
def abandonedRun : List (Fin nproc × FsCall) :=
  [(0, .mkdir [0x61]), (0, .mkdir [0x61, 0x2f, 0x62]), (0, .chdir [0x61, 0x2f, 0x62]),
    (0, .unlink [0x2e, 0x2e, 0x2f, 0x62]),
    (0, .unlink [0x2e, 0x2e, 0x2f, 0x2e, 0x2e, 0x2f, 0x61])]

/-- Whether a call stops with `ilock: no type`. -/
def stopsNoType (a : Fin nproc × FsCall) (s : DirFs) : Bool :=
  match step a s with
  | .error .ilockNoType => true
  | _ => false

theorem step_of_stopsNoType (h : stopsNoType a s = true) :
    step a s = .error .ilockNoType := by
  unfold stopsNoType at h
  split at h
  · next heq => exact heq
  · cases h

set_option maxRecDepth 100000 in
theorem parent_removed : ∃ s, Reachable step Boots (fun _ _ => True) s ∧
    ¬NoDangling s ∧ step (0, .chdir dotdot) s = .error .ilockNoType := by
  obtain ⟨s, hreach, hcwd, hdir, hentry, hfree, hstop⟩ := reachable_any step Boots
    (fun _ _ => True) abandonedRun (boots_rootOnly 0)
    (fun s => (s.proc 0).cwd = some 3 ∧ (s.inode 3).type = .dir ∧
      ⟨2, dotdot⟩ ∈ (s.inode 3).entries ∧
      (s.inode 2).type = .free ∧ stopsNoType (0, .chdir dotdot) s = true)
    (by decide +kernel)
  refine ⟨s, hreach, fun h => ?_, step_of_stopsNoType hstop⟩
  exact h 3 hdir (.inr ⟨0, hcwd⟩) _ hentry (by decide) hfree

end DirFs

end Xv6
