import Xv6.Fs.OpenFiles
import Xv6.Lib.Transition

set_option autoImplicit false

/-! # Runs of system calls

`FsOk` is the invariant between two calls. Every call keeps it under `CallOk`: a new entry goes to a
directory that has a name itself, and no link count grows past what a `short` holds. -/

namespace Xv6

open Function Stoppable

namespace DirFs

structure FsOk (s : DirFs) : Prop where
  tree : TreeOk s.ninodes s.inode
  cache : CacheOk s []
  files : FileOk s []
  idle : Idle s
  /-- Every inode has a number that fits into an entry. -/
  small : s.ninodes ≤ 2 ^ 16

/-! ## One call -/

/-- The condition on a call made in the directory `cwd`: on what its paths name in the state before
    it. Only `removable` directories are removed. -/
def CallCond (removable : ℕ → Prop) (t : Itable) (cwd : ℕ) : FsCall → Prop
  | .openPath path omode => OpenOk t cwd path omode
  | .mkdir path => EntryOk t cwd path .dir
  | .mknod path _ _ => EntryOk t cwd path .dev
  | .link old new => EntryOk t cwd new .file ∧ CountOk t cwd old
  | .unlink path => RemoveOk removable t cwd path
  | .chdir _ | .close _ | .exit | .fork _ => True

instance (removable : ℕ → Prop) [DecidablePred removable] (t : Itable) (cwd : ℕ) :
    DecidablePred (CallCond removable t cwd)
  | .openPath path omode => inferInstanceAs (Decidable (OpenOk t cwd path omode))
  | .mkdir path => inferInstanceAs (Decidable (EntryOk t cwd path .dir))
  | .mknod path _ _ => inferInstanceAs (Decidable (EntryOk t cwd path .dev))
  | .link old new => inferInstanceAs (Decidable (EntryOk t cwd new .file ∧ CountOk t cwd old))
  | .unlink path => inferInstanceAs (Decidable (RemoveOk removable t cwd path))
  | .chdir _ | .close _ | .exit | .fork _ => .isTrue trivial

def CallOk (removable : DirFs → ℕ → Prop) (a : Fin nproc × FsCall) (s : DirFs) : Prop :=
  ∀ cwd, (s.proc a.1).cwd = some cwd → CallCond (removable s) s.inode cwd a.2

instance (removable : DirFs → ℕ → Prop) [∀ s, DecidablePred (removable s)] (a : Fin nproc × FsCall)
    (s : DirFs) : Decidable (CallOk removable a s) :=
  inferInstanceAs (Decidable (∀ cwd ∈ (s.proc a.1).cwd, CallCond (removable s) s.inode cwd a.2))

/-- The current directories of all processes have a live parent. -/
def CwdsAnchored (s : DirFs) : Prop := ∀ p c, (s.proc p).cwd = some c → Anchored s.inode c

theorem Outcome.imp {s s' : DirFs} {ok ok' : Prop} {removable : ℕ → Prop}
    (h : Outcome s ok removable s') (himp : ok' → ok) : Outcome s ok' removable s' :=
  { h with table := fun hok => h.table (himp hok) }

theorem step_yields {s : DirFs} (h : FsOk s) (removable : DirFs → ℕ → Prop)
    (a : Fin nproc × FsCall) :
    Yields (NoType (CwdsAnchored s)) (Outcome s (CallOk removable a s) (removable s))
    (step a s) := by
  obtain ⟨p, call⟩ := a
  rw [step]
  cases hp : (s.proc p).cwd with
  | none => exact .ok ((Edited.of_same .refl h.cache).outcome h.files h.idle)
  | some cwd =>
    have hown := owned_of_cwd hp
    have href := h.cache.ref_pos_of_owned hown
    have hi : CwdsAnchored s → Anchored s.inode cwd := fun hsafe => hsafe p cwd hp
    cases call with
    | openPath path omode =>
      exact ((sysOpen_yields h.tree h.small h.cache h.files h.idle hp hi).post
        fun r hr => hr.imp fun hok => hok cwd hp).map
    | mkdir path =>
      exact ((sysCreate_yields (allows_noType s 2) (allowsNew_noType s _) h.tree h.small h.cache href hi
        (by decide)).post fun r hr => (hr.2.1.outcome h.files h.idle).imp fun hok => hok cwd hp).map
    | mknod path major minor =>
      exact ((sysCreate_yields (allows_noType s 2) (allowsNew_noType s _) h.tree h.small h.cache href hi
        (by decide)).post fun r hr => (hr.2.1.outcome h.files h.idle).imp fun hok => hok cwd hp).map
    | link old new =>
      exact ((sysLink_yields (allows_noType s 3) (fun _ => nofun) h.tree h.small h.cache hown hi).post
        fun r hr => (hr.2.1.outcome h.files h.idle).imp fun hok => hok cwd hp).map
    | unlink path =>
      exact ((sysUnlink_yields h.tree h.cache href hi).post
        fun r hr => (hr.1.outcome h.files h.idle).imp fun hok => hok cwd hp).map
    | chdir path =>
      exact ((sysChdir_yields h.tree h.cache h.files h.idle hp hi).post
        fun r hr => hr.1.imp fun _ => trivial).map
    | close fd =>
      exact ((sysClose_yields h.cache h.files h.idle (by simp [hp])).post
        fun r hr => hr.imp fun _ => trivial).map
    | exit => exact (exit_yields h.cache h.files h.idle hp).post fun r hr => hr.imp fun _ => trivial
    | fork np =>
      cases hnp : (s.proc np).cwd with
      | some c =>
        simp only [hnp, Option.isSome_some, if_true]
        exact .ok ((Edited.of_same .refl h.cache).outcome h.files h.idle)
      | none =>
        simp only [hnp, Option.isSome_none, Bool.false_eq_true, if_false]
        exact (fork_yields h.cache h.files h.idle hp hnp).post fun r hr => hr.imp fun _ => trivial

theorem FsOk.step {s s' : DirFs} (h : FsOk s) {removable : DirFs → ℕ → Prop}
    {a : Fin nproc × FsCall}
    (hok : CallOk removable a s) (hs : DirFs.step a s = .ok s') : FsOk s' := by
  have o := (step_yields h removable a).1 s' hs
  obtain ⟨t, hedit, hfreed⟩ := o.table hok
  refine ⟨?_, o.cache, o.files, o.idle, o.ninodes ▸ h.small⟩
  rw [o.ninodes]
  exact hfreed.treeOk (hedit.treeOk h.tree)

/-! ## Images -/

/-- A consistent image: exact link counts, and no inode without a name. -/
structure Consistent (n : ℕ) (t : Itable) : Prop where
  tree : TreeOk n t
  named : ∀ i, (t i).type ≠ .free → (t i).nlink ≠ 0
  small : n ≤ 2 ^ 16

/-- The state after `userinit`: the process `p` is in the root directory. -/
def boot (n : ℕ) (t : Itable) (p : Fin nproc) : DirFs where
  ninodes := n
  inode := t
  ref := update (fun _ => 0) rootino 1
  valid := fun _ => false
  file := fun _ => ⟨.none, 0, false, false, 0, 0⟩
  proc := update (fun _ => ⟨fun _ => none, none⟩) p ⟨fun _ => none, some rootino⟩

def Boots (s : DirFs) : Prop := ∃ n t p, Consistent n t ∧ s = boot n t p

theorem boot_cwd (n : ℕ) (t : Itable) (p q : Fin nproc) :
    ((boot n t p).proc q).cwd = if q = p then some rootino else none := by
  by_cases hq : q = p
  · simp [boot, hq]
  · simp [boot, hq]

theorem boot_ofile (n : ℕ) (t : Itable) (p q : Fin nproc) (fd : Fin nofile) :
    ((boot n t p).proc q).ofile fd = none := by
  by_cases hq : q = p
  · simp [boot, hq]
  · simp [boot, hq]

theorem boot_owned (n : ℕ) (t : Itable) (p : Fin nproc) (i : ℕ) :
    (boot n t p).owned i = if i = rootino then 1 else 0 := by
  have hopens : (boot n t p).opens i = 0 :=
    Finset.sum_eq_zero fun f _ => if_neg fun hopen => absurd hopen.1 (by simp [boot])
  have hcwds : (boot n t p).cwds i = if i = rootino then 1 else 0 := by
    have hone : ∀ q, (if ((boot n t p).proc q).cwd = some i then 1 else 0) =
        if p = q then (if i = rootino then 1 else 0) else 0 := by
      intro q
      rw [boot_cwd]
      by_cases hq : q = p
      · simp [hq, eq_comm]
      · simp [hq, Ne.symm hq]
    simp only [cwds, hone]
    rw [Finset.sum_ite_eq, if_pos (Finset.mem_univ p)]
  rw [owned, hopens, hcwds, Nat.add_zero]

theorem Consistent.fsOk {n : ℕ} {t : Itable} (h : Consistent n t) (p : Fin nproc) :
    FsOk (boot n t p) where
  tree := h.tree
  cache := by
    intro i
    rw [boot_owned]
    by_cases hi : i = rootino
    · subst hi
      exact ⟨by simp [boot], fun _ => h.tree.root.ne_free, fun hv => (by cases hv),
        fun ha hn => absurd hn (h.named _ ha)⟩
    · refine ⟨by simp [boot, hi], fun hown => ?_, fun hv => (by cases hv),
        fun ha hn => absurd hn (h.named _ ha)⟩
      rw [if_neg hi] at hown
      omega
  files := by
    refine ⟨fun f => ?_, fun f _ => rfl⟩
    have hfds : (boot n t p).fds f = 0 :=
      Finset.sum_eq_zero fun q _ => Finset.sum_eq_zero fun fd _ => if_neg (by simp [boot_ofile])
    rw [hfds]
    rfl
  idle := fun q _ fd => boot_ofile n t p q fd
  small := h.small

end DirFs

end Xv6
