import Xv6.Fs.Syscalls
import Xv6.Fs.LinkCount

set_option autoImplicit false

/-! # Calls that fail

A system call on paths that returns -1 leaves directories, inodes, reference counts, descriptors,
current directories and the count of transactions as they were, with one exception: `open` with
`O_CREATE` makes the file first and takes the entry of the file table and the descriptor after that.
Where one of them is missing the call returns -1, and the new file stays
(`failed_unchanged_iff`). -/

namespace Xv6

open Transition Function Stoppable

namespace DirFs

variable {s : DirFs} {safe : Prop}

/-! ## `open` -/

/-- There is a free entry in the file table and a free descriptor of the process. -/
def Room (s : DirFs) (p : Fin nproc) : Prop :=
  (∃ f, (s.file f).ref = 0) ∧ ∃ fd, (s.proc p).ofile fd = none

theorem filealloc_none (h : s.filealloc = none) (f : Fin nfile) : (s.file f).ref ≠ 0 := by
  rw [filealloc] at h
  split at h
  · next hfind => simpa using List.find?_eq_none.1 hfind f (List.mem_finRange f)
  · cases h

variable {p : Fin nproc} {f : Fin nfile}

theorem fdalloc_none (h : s.fdalloc p f = none) (fd : Fin nofile) :
    (s.proc p).ofile fd ≠ none := by
  rw [fdalloc] at h
  split at h
  · next hfind => simpa using List.find?_eq_none.1 hfind fd (List.mem_finRange fd)
  · cases h

theorem filealloc_ref {s' : DirFs} (h : s.filealloc = some (f, s')) :
    (s.file f).ref = 0 ∧ s' = s.setFile f { s.file f with ref := 1 } := by
  rw [filealloc] at h
  split at h
  · cases h
  · next g hfind =>
      cases h
      exact ⟨by simpa using List.find?_some hfind, rfl⟩

/-- Closing a file that was just allocated undoes the allocation. -/
theorem fileclose_filealloc {s' : DirFs} (h : s.filealloc = some (f, s'))
    (hclosed : (s.file f).ref = 0 → (s.file f).type = .none) : s'.fileclose f = .ok s := by
  obtain ⟨hzero, rfl⟩ := filealloc_ref h
  have htype := hclosed hzero
  have hback : { s.file f with ref := 0, type := .none } = s.file f := by
    cases hf : s.file f with
    | mk type ref readable writable ip off =>
      rw [hf] at hzero htype
      dsimp only at hzero htype
      rw [hzero, htype]
  have hset : ∀ x, (s.setFile f x).setFile f (s.file f) = s := fun x => by simp [setFile]
  have hslot : (s.setFile f { s.file f with ref := 1 }).file f = { s.file f with ref := 1 } :=
    update_self ..
  simp only [fileclose, hslot]
  rw [if_neg (by decide), if_neg (by decide), htype]
  show Except.ok ((s.setFile f _).setFile f { s.file f with ref := 0, type := .none }) = _
  rw [hback, hset]

/-- What `open` returns and leaves; `new` says that it makes a file. -/
structure Opened (s : DirFs) (p : Fin nproc) (new : Prop) (r : Int × DirFs) : Prop where
  cache : r.1 = -1 → CacheOk r.2 []
  room : new → (r.1 = -1 ↔ ¬Room s p)
  same : r.1 = -1 → ¬new → SameTree s r.2
  made : r.1 = -1 → new → r.2.inode ≠ s.inode

/-- There is no room for the new file: it is given back, but it stays. -/
theorem Created.noRoom {ok new : Prop} {s1 : DirFs} {ip : ℕ}
    (h : Created s ok new (some ip, s1)) (hs : CacheOk s []) (hroom : ¬Room s p) :
    Opened s p new (-1, s1.iput ip) where
  cache := fun _ => iput_cache h.cache
  room := fun _ => iff_of_true rfl hroom
  same := fun _ hnew => by
    have hsame := h.same hnew
    exact hsame.trans (iput_same h.cache (hs.kept.congr hsame)).1
  made := fun _ hnew heq => by
    obtain ⟨i, hi, hfree, hnlink⟩ := h.made hnew
    obtain rfl : ip = i := Option.some.inj hi
    have hkeep : (s1.iput ip).inode = s1.inode := (iput_inode h.cache fun _ hzero => by
      cases hnlink.symm.trans hzero).1
    have halloc := h.alloc ip rfl
    rw [← hkeep, heq] at halloc
    exact halloc hfree

theorem sysOpen_opened {cwd : ℕ} {path : List Byte} {omode : Word}
    (ht : TreeOk s.ninodes s.inode) (hn : s.ninodes ≤ 2 ^ 16) (hs : CacheOk s [])
    (hfiles : FileOk s []) (hp : (s.proc p).cwd = some cwd) (hi : safe → Anchored s.inode cwd) :
    Yields (NoType safe) (Opened s p (omode &&& oCreate ≠ 0 ∧ Creates s.inode cwd path))
      (s.sysOpen p cwd path omode) := by
  rw [sysOpen]
  refine (openInode_yields ht hn hs (hs.ref_pos_of_owned (owned_of_cwd hp)) hi).bind ?_
  rintro ⟨r, s1⟩ hr
  cases r with
  | none =>
    have hnew : ¬(omode &&& oCreate ≠ 0 ∧ Creates s.inode cwd path) := fun hnew => by
      obtain ⟨ip, hip, -⟩ := hr.made hnew
      cases hip
    exact .ok ⟨fun _ => hr.cache, fun h => absurd h hnew, fun _ _ => hr.failed,
      fun _ h => absurd h hnew⟩
  | some ip =>
    have hfile : s1.file = s.file := hr.file
    have hproc : s1.proc = s.proc := hr.proc
    dsimp only
    cases hfa : s1.filealloc with
    | none =>
      refine .ok (hr.noRoom hs ?_)
      rintro ⟨⟨f, hf⟩, -⟩
      exact filealloc_none hfa f (hfile ▸ hf)
    | some x =>
      obtain ⟨f, s2⟩ := x
      obtain ⟨hzero, hs2⟩ := filealloc_ref hfa
      dsimp only
      cases hfd : s2.fdalloc p f with
      | none =>
        refine Yields.bind_eq (fileclose_filealloc hfa fun hz => ?_) (.ok (hr.noRoom hs ?_))
        · rw [hfile] at hz ⊢
          exact hfiles.closed f hz
        · rintro ⟨-, fd, hfree⟩
          refine fdalloc_none hfd fd ?_
          rw [hs2, ← hfree, ← hproc]
          rfl
      | some y =>
        obtain ⟨fd, s3⟩ := y
        obtain ⟨hfree, -⟩ := fdalloc_some hfd
        have hroom : Room s p := by
          refine ⟨⟨f, by rw [← hfile, hzero]⟩, fd, ?_⟩
          rw [← hproc, ← hfree, hs2]
          rfl
        have hne : ((fd.val : ℕ) : Int) ≠ -1 := by omega
        exact .ok ⟨fun h => absurd h hne, fun _ => iff_of_false hne (not_not.2 hroom),
          fun h => absurd h hne, fun h => absurd h hne⟩

/-! ## The other calls -/

/-- Where the call returns -1, it has given back all references and changed nothing else. -/
def Refuses (s : DirFs) (x : Except DirPanic (Int × DirFs)) : Prop :=
  ∀ r, x = .ok r → r.1 = -1 → CacheOk r.2 [] ∧ SameTree s r.2

section

variable {p : Fin nproc} {cwd : ℕ} (h : FsOk s) (hp : (s.proc p).cwd = some cwd)

include h hp

theorem sysCreate_refuses (path : List Byte) {type : Ftype} (htype : type ≠ .free)
    (major minor : BitVec 16) :
    Refuses s (s.sysCreate cwd path type major minor) := fun r hr hfail =>
  have hy := (@sysCreate_yields s False (fun _ => True) (NoType False) cwd path type major minor
    (allows_noType s 2)
    (allowsNew_noType s _) h.tree h.small h.cache (h.cache.ref_pos_of_owned
      (owned_of_cwd hp)) nofun htype).1 r hr
  ⟨hy.2.1.cache, hy.2.2 hfail⟩

theorem sysLink_refuses (old new : List Byte) : Refuses s (s.sysLink cwd old new) :=
  fun r hr hfail =>
  have hy := (@sysLink_yields s False (fun _ => True) (NoType False) cwd old new (allows_noType s 3)
    (fun _ => nofun) h.tree h.small h.cache (owned_of_cwd hp) nofun).1 r hr
  ⟨hy.2.1.cache, hy.2.2 hfail⟩

theorem sysUnlink_refuses (path : List Byte) : Refuses s (s.sysUnlink cwd path) := fun r hr hfail =>
  have hy := (@sysUnlink_yields s False (fun _ => True) cwd path h.tree h.cache
    (h.cache.ref_pos_of_owned (owned_of_cwd hp)) nofun).1 r hr
  ⟨hy.1.cache, hy.2 hfail⟩

theorem sysChdir_refuses (path : List Byte) : Refuses s (s.sysChdir p cwd path) := fun r hr hfail =>
  have hy := (@sysChdir_yields s False (fun _ => True) cwd path p h.tree h.cache h.files h.idle hp
    nofun).1 r hr
  ⟨hy.1.cache, hy.2 hfail⟩

end

end DirFs

namespace LogFs

/-! ## All calls -/

inductive PathCall
  | openPath (path : Option (List Byte)) (omode : Option Word)
  | link (old new : Option (List Byte))
  | unlink (path : Option (List Byte))
  | mkdir (path : Option (List Byte))
  | mknod (path : Option (List Byte)) (major minor : Option Word)
  | chdir (path : Option (List Byte))
  | chmod (path : Option (List Byte)) (mode : Option Word)
  | chown (path : Option (List Byte)) (uid : Option Word)
  | chgrp (path : Option (List Byte)) (gid : Option Word)

/-- A call by the process `p`, whose current directory is `cwd`. -/
def call (s : LogFs) (p : Fin nproc) (cwd : ℕ) : PathCall → Except DirPanic (Int × LogFs)
  | .openPath path omode => s.sysOpen p cwd path omode
  | .link old new => s.sysLink cwd old new
  | .unlink path => s.sysUnlink cwd path
  | .mkdir path => s.sysMkdir cwd path
  | .mknod path major minor => s.sysMknod cwd path major minor
  | .chdir path => s.sysChdir p cwd path
  | .chmod path mode => s.sysChmod cwd path mode
  | .chown path uid => s.sysChown cwd path uid
  | .chgrp path gid => s.sysChgrp cwd path gid

/-- All that a call may change except the flags of cached inodes. -/
structure Unchanged (s s' : LogFs) : Prop where
  inode : s'.fs.inode = s.fs.inode
  ref : s'.fs.ref = s.fs.ref
  file : s'.fs.file = s.fs.file
  proc : s'.fs.proc = s.fs.proc
  outstanding : s'.outstanding = s.outstanding

theorem Unchanged.refl (s : LogFs) : Unchanged s s := ⟨rfl, rfl, rfl, rfl, rfl⟩

/-- The counts of references follow from what processes own. -/
theorem unchanged_of_same {fs fs' : DirFs} (n : Int) (hs : DirFs.CacheOk fs [])
    (hs' : DirFs.CacheOk fs' []) (h : DirFs.SameTree fs fs') : Unchanged ⟨fs, n⟩ ⟨fs', n⟩ := by
  refine ⟨h.inode, funext fun i => ?_, h.file, h.proc, rfl⟩
  rw [(hs i).ref_eq, (hs' i).ref_eq, DirFs.owned_congr h.file h.proc]

/-- Well formed, with no other call in progress. -/
structure Quiet (s : LogFs) : Prop where
  ok : DirFs.FsOk s.fs
  outstanding : s.outstanding = 0

/-- An `open` that makes a file has room for it. -/
def RoomOk (s : DirFs) (p : Fin nproc) (cwd : ℕ) : PathCall → Prop
  | .openPath (some path) (some omode) =>
    omode &&& DirFs.oCreate ≠ 0 → Creates s.inode cwd path → DirFs.Room s p
  | _ => True

variable {s : LogFs} {p : Fin nproc} {cwd : ℕ} {s' : LogFs} {r : Int}

/-- The call of `DirFs` refuses, and the transaction has been ended. -/
theorem Quiet.unchanged_of_map (h : Quiet s) {x : Except DirPanic (Int × DirFs)}
    (hx : DirFs.Refuses s.fs x) (hs' : x.map (back s.outstanding) = .ok (r, s')) (hr : r = -1) :
    Unchanged s s' := by
  cases hxr : x with
  | error e =>
    rw [hxr] at hs'
    cases hs'
  | ok y =>
    rw [hxr] at hs'
    cases hs'
    obtain ⟨hcache, hsame⟩ := hx y hxr hr
    exact unchanged_of_same s.outstanding h.ok.cache hcache hsame

/-- `chmod`, `chown` and `chgrp` change nothing before they have the inode. -/
theorem setAttr_unchanged {max : Int} {set : Word → Dnode → Dnode} {path : Option (List Byte)}
    {arg : Option Word} (h : Quiet s) (hp : (s.fs.proc p).cwd = some cwd)
    (hs' : setAttr max set s cwd path arg = .ok (r, s')) (hr : r = -1) : Unchanged s s' := by
  have hdone : s.beginOp.endOp = s := beginOp_endOp s.fs s.outstanding
  unfold setAttr at hs'
  dsimp only at hs'
  split at hs'
  · split at hs'
    · cases hs'
      rw [hdone]
      exact .refl s
    · next path arg _ =>
        have hy : Yields (DirFs.NoType False) _ (s.fs.namei cwd path) :=
          DirFs.namei_yields (DirFs.allows_noType s.fs _) path
            (fun _ => h.ok.tree.walkable) h.ok.cache
            (h.ok.cache.ref_pos_of_owned (DirFs.owned_of_cwd hp)) nofun
        obtain ⟨⟨x, s1⟩, hx, hs'⟩ := of_bind hs'
        cases hnamei : s.fs.namei cwd path with
        | error e =>
          rw [run, show s.beginOp.fs = s.fs from rfl, hnamei] at hx
          cases hx
        | ok y =>
          rw [run, show s.beginOp.fs = s.fs from rfl, hnamei] at hx
          cases hx
          obtain ⟨-, hsame, hcache⟩ := hy.1 y hnamei
          dsimp only at hs'
          cases hy1 : y.1 with
          | none =>
            rw [hy1] at hs' hcache
            cases hs'
            have := unchanged_of_same s.outstanding h.ok.cache hcache hsame
            simpa [beginOp, endOp] using this
          | some ip =>
            rw [hy1] at hs'
            obtain ⟨s2, -, hs'⟩ := of_bind hs'
            cases hs'
            cases hr
  · cases hs'
    rw [hdone]
    exact .refl s

theorem createPath_unchanged {path : List Byte} {type : Ftype} {major minor : BitVec 16}
    (h : Quiet s) (hp : (s.fs.proc p).cwd = some cwd) (htype : type ≠ .free)
    (hs' : s.beginOp.createPath cwd path type major minor = .ok (r, s')) (hr : r = -1) :
    Unchanged s s' := by
  rw [beginOp, createPath_eq] at hs'
  exact h.unchanged_of_map (DirFs.sysCreate_refuses h.ok hp path htype major minor) hs' hr

theorem sysOpen_unchanged_iff (h : Quiet s) (hp : (s.fs.proc p).cwd = some cwd) (path : List Byte)
    (omode : Word) (hs' : s.sysOpen p cwd (some path) (some omode) = .ok (r, s')) :
    (r = -1 → Unchanged s s') ↔ RoomOk s.fs p cwd (.openPath (some path) (some omode)) := by
  rw [sysOpen_eq] at hs'
  cases hx : s.fs.sysOpen p cwd path omode with
  | error e =>
    rw [hx] at hs'
    cases hs'
  | ok y =>
    rw [hx] at hs'
    cases hs'
    have hopened :=
      (@DirFs.sysOpen_opened s.fs False p cwd path omode h.ok.tree h.ok.small h.ok.cache
      h.ok.files hp nofun).1 y hx
    constructor
    · intro hsame hmode hnew
      by_contra hroom
      have hr := (hopened.room ⟨hmode, hnew⟩).2 hroom
      exact hopened.made hr ⟨hmode, hnew⟩ (hsame hr).inode
    · intro hroom hr
      have hnot : ¬(omode &&& DirFs.oCreate ≠ 0 ∧ Creates s.fs.inode cwd path) := fun hnew =>
        (hopened.room hnew).1 hr (hroom hnew.1 hnew.2)
      exact unchanged_of_same s.outstanding h.ok.cache (hopened.cache hr) (hopened.same hr hnot)

/-- A call that returns -1 has changed nothing, unless it is an `open` that makes a file without
    room for it. -/
theorem failed_unchanged_iff (s : LogFs) (h : Quiet s) (p : Fin nproc) (cwd : ℕ)
    (hp : (s.fs.proc p).cwd = some cwd) (c : PathCall) (r : Int) (s' : LogFs)
    (hs' : s.call p cwd c = .ok (r, s')) : (r = -1 → Unchanged s s') ↔ RoomOk s.fs p cwd c := by
  have hdone : s.beginOp.endOp = s := beginOp_endOp s.fs s.outstanding
  cases c with
  | openPath path omode =>
    match path, omode, hs' with
    | some path, some omode, hs' => exact sysOpen_unchanged_iff h hp path omode hs'
    | none, _, hs' | some _, none, hs' =>
      cases hs'
      exact iff_of_true (fun _ => .refl s) trivial
  | link old new =>
    refine iff_of_true (fun hr => ?_) trivial
    match old, new, hs' with
    | some old, some new, hs' =>
      rw [call, sysLink_eq] at hs'
      exact h.unchanged_of_map (DirFs.sysLink_refuses h.ok hp old new) hs' hr
    | none, _, hs' | some _, none, hs' =>
      cases hs'
      exact .refl s
  | unlink path =>
    refine iff_of_true (fun hr => ?_) trivial
    match path, hs' with
    | some path, hs' =>
      rw [call, sysUnlink_eq] at hs'
      exact h.unchanged_of_map (DirFs.sysUnlink_refuses h.ok hp path) hs' hr
    | none, hs' =>
      cases hs'
      exact .refl s
  | mkdir path =>
    refine iff_of_true (fun hr => ?_) trivial
    match path, hs' with
    | some path, hs' => exact createPath_unchanged h hp (by decide) hs' hr
    | none, hs' =>
      obtain rfl : s.beginOp.endOp = s' := by cases hs'; rfl
      exact hdone.symm ▸ .refl s
  | mknod path major minor =>
    refine iff_of_true (fun hr => ?_) trivial
    match path, major, minor, hs' with
    | some path, some major, some minor, hs' => exact createPath_unchanged h hp (by decide) hs' hr
    | none, _, _, hs' | some _, none, _, hs' | some _, some _, none, hs' =>
      obtain rfl : s.beginOp.endOp = s' := by cases hs'; rfl
      exact hdone.symm ▸ .refl s
  | chdir path =>
    refine iff_of_true (fun hr => ?_) trivial
    match path, hs' with
    | some path, hs' =>
      rw [call, sysChdir_eq] at hs'
      exact h.unchanged_of_map (DirFs.sysChdir_refuses h.ok hp path) hs' hr
    | none, hs' =>
      obtain rfl : s.beginOp.endOp = s' := by cases hs'; rfl
      exact hdone.symm ▸ .refl s
  | chmod path mode =>
    rw [call, sysChmod] at hs'
    exact iff_of_true (setAttr_unchanged h hp hs') trivial
  | chown path uid =>
    rw [call, sysChown] at hs'
    exact iff_of_true (setAttr_unchanged h hp hs') trivial
  | chgrp path gid =>
    rw [call, sysChgrp] at hs'
    exact iff_of_true (setAttr_unchanged h hp hs') trivial

/-- `link` of `/f` to `/g`, which is there: the link count of `/f` goes up and down again. -/
theorem failed_unchanged_linked : ∃ s s' : LogFs, (s.fs.inode 2).nlink = 1 ∧
    s.call 0 rootino (.link (some [0x2f, 0x66]) (some [0x2f, 0x67])) = .ok (-1, s') ∧
    Unchanged s s' := by
  obtain ⟨fs, hreach, hcwd, hlinks, hcall⟩ := reachable_any DirFs.step DirFs.Boots DirFs.EntriesOk
    [(0, .openPath [0x2f, 0x66] DirFs.oCreate), (0, .openPath [0x2f, 0x67] DirFs.oCreate)]
    (DirFs.boots_rootOnly 0)
    (fun fs => (fs.proc 0).cwd = some rootino ∧ (fs.inode 2).nlink = 1 ∧
      ((⟨fs, 0⟩ : LogFs).call 0 rootino (.link (some [0x2f, 0x66])
        (some [0x2f, 0x67]))).toOption.any (fun r => decide (r.1 = -1)) = true)
    (by decide +kernel)
  obtain ⟨⟨r, s'⟩, hs', rfl⟩ := exists_ok _ hcall
  refine ⟨⟨fs, 0⟩, s', hlinks, hs', ?_⟩
  exact (failed_unchanged_iff ⟨fs, 0⟩ ⟨DirFs.fsOk_of_reachable hreach, rfl⟩ 0 rootino hcwd _ _ s'
    hs').2 trivial rfl

/-- A process with all descriptors on the root directory opens `/f` with `O_CREATE`. -/
theorem open_leaves_file : ∃ s s' : LogFs, Quiet s ∧ (s.fs.proc 0).cwd = some rootino ∧
    s.call 0 rootino (.openPath (some [0x2f, 0x66]) (some DirFs.oCreate)) = .ok (-1, s') ∧
    ¬Unchanged s s' := by
  obtain ⟨fs, hreach, hcwd, hfree, hcall⟩ := reachable_any DirFs.step DirFs.Boots DirFs.EntriesOk
    (List.replicate nofile (0, .openPath [0x2f] 0)) (DirFs.boots_rootOnly 0)
    (fun fs => (fs.proc 0).cwd = some rootino ∧ (fs.inode 2).type = .free ∧
      ((⟨fs, 0⟩ : LogFs).call 0 rootino (.openPath (some [0x2f, 0x66])
        (some DirFs.oCreate))).toOption.any
        (fun r => decide (r.1 = -1 ∧ (r.2.fs.inode 2).type = .file)) = true) (by decide +kernel)
  have hquiet : Quiet ⟨fs, 0⟩ := ⟨DirFs.fsOk_of_reachable hreach, rfl⟩
  obtain ⟨⟨r, s'⟩, hx, rfl, hfile⟩ := exists_ok _ hcall
  refine ⟨⟨fs, 0⟩, s', hquiet, hcwd, hx, fun hsame => ?_⟩
  rw [hsame.inode, hfree] at hfile
  cases hfile

end LogFs

end Xv6
