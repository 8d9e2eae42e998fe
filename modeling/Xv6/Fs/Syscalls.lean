import Xv6.Fs.Calls

set_option autoImplicit false

/-! # Whole system calls on paths (`sysfile.c`)

The calls of `DirFs` with what stands around them: the fetching of the arguments, which can fail,
and the transaction, which every exit of a call has to end itself. `outstanding` is
`log.outstanding`. The calls are made while no other call is in progress; `begin_op` does not wait
then, and what `end_op` commits changes nothing that a call reads.

Each call leaves the count of transactions as it was, and otherwise does what its `DirFs` model does
(`sysOpen_eq`, `sysLink_eq`, `sysUnlink_eq`, `sysCreate_eq`, `sysChdir_eq`). -/

namespace Xv6

open Stoppable

structure LogFs where
  fs : DirFs
  outstanding : Int

namespace LogFs

variable (s : LogFs)

def beginOp : LogFs := { s with outstanding := s.outstanding + 1 }

def endOp : LogFs := { s with outstanding := s.outstanding - 1 }

/-- A part of a call that neither begins nor ends a transaction. -/
def on (f : DirFs → DirFs) : LogFs := { s with fs := f s.fs }

def exec (f : DirFs → Except DirPanic DirFs) : Except DirPanic LogFs :=
  (f s.fs).map fun fs => { s with fs }

def run {α : Type} (f : DirFs → Except DirPanic (α × DirFs)) : Except DirPanic (α × LogFs) :=
  (f s.fs).map fun r => (r.1, { s with fs := r.2 })

/-! ## The calls

An argument is `none` where `argstr` or `argint` fails. -/

variable (p : Fin nproc)

/-- `open` once it has the locked inode `ip`. -/
def openFile (ip : ℕ) (omode : Word) : Except DirPanic (Int × LogFs) :=
  match s.fs.filealloc with
  | none => return (-1, (s.on (·.iput ip)).endOp)
  | some (f, fs) =>
    let s := { s with fs }
    match s.fs.fdalloc p f with
    | none => do
        let s ← s.exec (·.fileclose f)
        return (-1, (s.on (·.iput ip)).endOp)
    | some (fd, fs) =>
      let s := { s with fs }.endOp
      return (fd.val, s.on (·.setFile f
        { s.fs.file f with
          type := .inode
          ip := ip
          off := 0
          readable := omode &&& DirFs.oWronly = 0
          writable := omode &&& DirFs.oWronly ≠ 0 || omode &&& DirFs.oRdwr ≠ 0 }))

def sysOpen (cwd : ℕ) (path : Option (List Byte)) (omode : Option Word) :
    Except DirPanic (Int × LogFs) :=
  match path, omode with
  | some path, some omode => do
      let s := s.beginOp
      if omode &&& DirFs.oCreate ≠ 0 then
        let (r, s) ← s.run (·.create cwd path .file 0 0)
        match r with
        | none => return (-1, s.endOp)
        | some ip => s.openFile p ip omode
      else
        let (r, s) ← s.run (·.namei cwd path)
        match r with
        | none => return (-1, s.endOp)
        | some ip =>
          let s ← s.exec (·.ilock ip)
          if (s.fs.inode ip).type = .dir ∧ omode ≠ 0 then return (-1, (s.on (·.iput ip)).endOp)
          s.openFile p ip omode
  | _, _ => return (-1, s)

variable (cwd : ℕ)

/-- What `mkdir` and `mknod` do once they have their arguments and a transaction. -/
def createPath (path : List Byte) (type : Ftype) (major minor : BitVec 16) :
    Except DirPanic (Int × LogFs) := do
  let (r, s) ← s.run (·.create cwd path type major minor)
  match r with
  | none => return (-1, s.endOp)
  | some ip => return (0, (s.on (·.iput ip)).endOp)

variable (path : Option (List Byte))

def sysMkdir : Except DirPanic (Int × LogFs) :=
  let s := s.beginOp
  match path with
  | none => return (-1, s.endOp)
  | some path => s.createPath cwd path .dir 0 0

def sysMknod (major minor : Option Word) :
    Except DirPanic (Int × LogFs) :=
  let s := s.beginOp
  match path, major, minor with
  | some path, some major, some minor => s.createPath cwd path .dev (major.setWidth 16)
      (minor.setWidth 16)
  | _, _, _ => return (-1, s.endOp)

def linkBad (ip : ℕ) : Except DirPanic (Int × LogFs) := do
  let s ← s.exec (·.ilock ip)
  let s := s.on fun fs => fs.setInode ip { fs.inode ip with nlink := (fs.inode ip).nlink - 1 }
  return (-1, (s.on (·.iput ip)).endOp)

def sysLink (old new : Option (List Byte)) : Except DirPanic (Int × LogFs) :=
  match old, new with
  | some old, some new => do
      let s := s.beginOp
      let (r, s) ← s.run (·.namei cwd old)
      match r with
      | none => return (-1, s.endOp)
      | some ip =>
        let s ← s.exec (·.ilock ip)
        if (s.fs.inode ip).type = .dir then return (-1, (s.on (·.iput ip)).endOp)
        let s := s.on fun fs => fs.setInode ip { fs.inode ip with nlink := (fs.inode ip).nlink + 1 }
        let (r, s) ← s.run (·.nameiparent cwd new)
        match r with
        | none => s.linkBad ip
        | some (dp, name) =>
          let s ← s.exec (·.ilock dp)
          let (ok, s) ← s.run (·.dirlink dp name ip)
          if ok then return (0, ((s.on (·.iput dp)).on (·.iput ip)).endOp)
          else (s.on (·.iput dp)).linkBad ip
  | _, _ => return (-1, s)

def sysUnlink : Except DirPanic (Int × LogFs) :=
  match path with
  | none => return (-1, s)
  | some path => do
      let s := s.beginOp
      let (r, s) ← s.run (·.nameiparent cwd path)
      match r with
      | none => return (-1, s.endOp)
      | some (dp, name) =>
        let s ← s.exec (·.ilock dp)
        if name = dot ∨ name = dotdot then return (-1, (s.on (·.iput dp)).endOp)
        let (found, s) ← s.run (·.dirlookup dp name)
        match found with
        | none => return (-1, (s.on (·.iput dp)).endOp)
        | some (ip, off) =>
          let s ← s.exec (·.ilock ip)
          if (s.fs.inode ip).nlink.toInt < 1 then throw .unlinkNlink
          else if (s.fs.inode ip).type = .dir ∧ isdirempty (s.fs.inode ip) = false then
            return (-1, ((s.on (·.iput ip)).on (·.iput dp)).endOp)
          else return (0, (s.on (·.unlinkEntry dp ip off)).endOp)

def sysChdir (cwd : ℕ) (path : Option (List Byte)) :
    Except DirPanic (Int × LogFs) := do
  let s := s.beginOp
  match path with
  | none => return (-1, s.endOp)
  | some path =>
    let (r, s) ← s.run (·.namei cwd path)
    match r with
    | none => return (-1, s.endOp)
    | some ip =>
      let s ← s.exec (·.ilock ip)
      if (s.fs.inode ip).type ≠ .dir then return (-1, (s.on (·.iput ip)).endOp)
      return (0, (s.on (·.iput cwd)).endOp.on (·.setCwd p (some ip)))

/-- `chmod`, `chown` and `chgrp`: a number from zero to `max` is put into the inode at `path`. -/
def setAttr (max : Int) (set : Word → Dnode → Dnode) (s : LogFs) (cwd : ℕ)
    (path : Option (List Byte)) (arg : Option Word) : Except DirPanic (Int × LogFs) :=
  let s := s.beginOp
  match path, arg with
  | some path, some arg =>
    if arg.toInt < 0 ∨ max < arg.toInt then return (-1, s.endOp)
    else do
      let (r, s) ← s.run (·.namei cwd path)
      match r with
      | none => return (-1, s.endOp)
      | some ip =>
        let s ← s.exec (·.ilock ip)
        let s := s.on fun fs => fs.setInode ip (set arg (fs.inode ip))
        return (0, (s.on (·.iput ip)).endOp)
  | _, _ => return (-1, s.endOp)

/-- The bound is written `1777` in the source, in decimal. -/
def sysChmod : LogFs → ℕ → Option (List Byte) → Option Word → Except DirPanic (Int × LogFs) :=
  setAttr 1777 fun mode ip => { ip with mode }

def sysChown : LogFs → ℕ → Option (List Byte) → Option Word → Except DirPanic (Int × LogFs) :=
  setAttr 32767 fun uid ip => { ip with uid := uid.setWidth 16 }

def sysChgrp : LogFs → ℕ → Option (List Byte) → Option Word → Except DirPanic (Int × LogFs) :=
  setAttr 32767 fun gid ip => { ip with gid := gid.setWidth 16 }

/-! ## The transactions -/

/-- The result of a call of `DirFs`, with the count of transactions. -/
def back (n : Int) (r : Int × DirFs) : Int × LogFs := (r.1, ⟨r.2, n⟩)

@[simp] theorem beginOp_endOp (fs : DirFs) (n : Int) : (⟨fs, n + 1⟩ : LogFs).endOp = ⟨fs, n⟩ := by
  simp [endOp]

theorem openFile_eq (fs : DirFs) (n : Int) (p : Fin nproc) (ip : ℕ) (omode : Word) :
    (⟨fs, n + 1⟩ : LogFs).openFile p ip omode = .map (back n)
      (match fs.filealloc with
      | none => .ok (-1, fs.iput ip)
      | some (f, fs) =>
        match fs.fdalloc p f with
        | none => do
            let fs ← fs.fileclose f
            return (-1, fs.iput ip)
        | some (fd, fs) =>
          .ok (fd.val, fs.setFile f
            { fs.file f with
              type := .inode
              ip := ip
              off := 0
              readable := omode &&& DirFs.oWronly = 0
              writable := omode &&& DirFs.oWronly ≠ 0 || omode &&& DirFs.oRdwr ≠ 0 })) := by
  unfold openFile
  cases fs.filealloc with
  | none => simp [on, back, Except.map, pure, Except.pure]
  | some x =>
    dsimp only
    cases x.2.fdalloc p x.1 with
    | none =>
      refine map_bind rfl fun fs _ => ?_
      simp [on, back, Except.map, pure, Except.pure]
    | some y => simp [on, back, Except.map, pure, Except.pure]

theorem sysOpen_eq (cwd : ℕ) (path : List Byte) (omode : Word) :
    s.sysOpen p cwd (some path) (some omode) =
      (s.fs.sysOpen p cwd path omode).map (back s.outstanding) := by
  obtain ⟨fs, n⟩ := s
  simp only [sysOpen, DirFs.sysOpen, DirFs.openInode, beginOp]
  by_cases hmode : omode &&& DirFs.oCreate ≠ 0
  · rw [if_pos hmode, if_pos hmode]
    refine map_bind rfl ?_
    rintro ⟨r, fs⟩ -
    cases r with
    | none => simp [back, Except.map, pure, Except.pure]
    | some ip => exact openFile_eq fs n p ip omode
  · rw [if_neg hmode, if_neg hmode, bind_assoc]
    refine map_bind rfl ?_
    rintro ⟨r, fs⟩ -
    cases r with
    | none => simp [back, Except.map, bind, Except.bind, pure, Except.pure]
    | some ip =>
      dsimp only
      rw [bind_assoc]
      refine map_bind rfl ?_
      intro fs _
      dsimp only
      split
      · simp [on, back, Except.map, bind, Except.bind, pure, Except.pure]
      · exact openFile_eq fs n p ip omode

theorem createPath_eq (fs : DirFs) (n : Int) (cwd : ℕ) (path : List Byte) (type : Ftype)
    (major minor : BitVec 16) :
    (⟨fs, n + 1⟩ : LogFs).createPath cwd path type major minor =
      (fs.sysCreate cwd path type major minor).map (back n) := by
  refine map_bind rfl ?_
  rintro ⟨r, fs⟩ -
  cases r with
  | none => simp [back, Except.map, pure, Except.pure]
  | some ip => simp [on, back, Except.map, pure, Except.pure]

theorem linkBad_eq (fs : DirFs) (n : Int) (ip : ℕ) :
    (⟨fs, n + 1⟩ : LogFs).linkBad ip = (fs.linkBad ip).map (back n) := by
  refine map_bind rfl ?_
  intro fs _
  simp [on, back, Except.map, pure, Except.pure]

theorem sysLink_eq (old new : List Byte) :
    s.sysLink cwd (some old) (some new) = (s.fs.sysLink cwd old new).map (back s.outstanding) := by
  obtain ⟨fs, n⟩ := s
  simp only [sysLink, DirFs.sysLink, beginOp]
  refine map_bind rfl ?_
  rintro ⟨r, fs⟩ -
  cases r with
  | none => simp [back, Except.map, pure, Except.pure]
  | some ip =>
    refine map_bind rfl ?_
    intro fs _
    dsimp only
    split
    · simp [on, back, Except.map, pure, Except.pure]
    · refine map_bind rfl ?_
      rintro ⟨r, fs⟩ -
      cases r with
      | none => exact linkBad_eq fs n ip
      | some x =>
        refine map_bind rfl ?_
        intro fs _
        refine map_bind rfl ?_
        rintro ⟨ok, fs⟩ -
        cases ok with
        | true => simp [on, back, Except.map, pure, Except.pure]
        | false => exact linkBad_eq (fs.iput x.1) n ip

theorem sysUnlink_eq (path : List Byte) :
    s.sysUnlink cwd (some path) = (s.fs.sysUnlink cwd path).map (back s.outstanding) := by
  obtain ⟨fs, n⟩ := s
  simp only [sysUnlink, DirFs.sysUnlink, beginOp]
  refine map_bind rfl ?_
  rintro ⟨r, fs⟩ -
  cases r with
  | none => simp [back, Except.map, pure, Except.pure]
  | some x =>
    refine map_bind rfl ?_
    intro fs _
    dsimp only
    split
    · simp [on, back, Except.map, pure, Except.pure]
    · refine map_bind rfl ?_
      rintro ⟨found, fs⟩ -
      cases found with
      | none => simp [on, back, Except.map, pure, Except.pure]
      | some y =>
        refine map_bind rfl ?_
        intro fs _
        dsimp only
        split
        · rfl
        · split <;> simp [on, back, Except.map, pure, Except.pure]

theorem sysChdir_eq (cwd : ℕ) (path : List Byte) :
    s.sysChdir p cwd (some path) = (s.fs.sysChdir p cwd path).map (back s.outstanding) := by
  obtain ⟨fs, n⟩ := s
  simp only [sysChdir, DirFs.sysChdir, beginOp]
  refine map_bind rfl ?_
  rintro ⟨r, fs⟩ -
  cases r with
  | none => simp [back, Except.map, pure, Except.pure]
  | some ip =>
    refine map_bind rfl ?_
    intro fs _
    dsimp only
    split <;> simp [on, back, Except.map, pure, Except.pure]

end LogFs

end Xv6
