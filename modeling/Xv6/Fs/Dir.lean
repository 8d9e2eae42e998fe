import Xv6.Fs.Inode
import Mathlib.Data.List.Basic

set_option autoImplicit false

/-! # Directories and the calls that change them (`fs.c`, `sysfile.c`, `file.c`)

One system call at a time, seen at the level of directory entries: the content of a directory is the
list of its `struct dirent`, and the content of other files is what `itrunc` throws away. An inode
has one record here, because every change of a cached inode is followed by `iupdate` before the
inode is unlocked, and `ilock` reads the same record back. The cache keeps `ref` and `I_VALID`; an
entry of the cache is in use when its `ref` is positive. `I_BUSY` is clear between calls and is left
out, like the number of free blocks, which only stops the machine when there are none.

The pieces of a path are cut off by `skipelem` before the walk of `namex` starts and not during it;
`pathElems_eq` says that they are the same pieces. -/

namespace Xv6

open Function

/-- `DIRSIZ`. -/
abbrev dirsiz : ℕ := 14

/-- `sizeof(struct dirent)`. -/
abbrev direntSize : ℕ := 16

/-- The entries of a directory of `MAXFILE` blocks. -/
def maxDirents : ℕ := FsBuild.p5.maxFile * bsize / direntSize

/-- `ROOTINO`. -/
abbrev rootino : ℕ := 1

/-- What `strncmp` sees of a name in an entry: its bytes up to the first zero, at most `DIRSIZ`. -/
abbrev Name := List Byte

def dot : Name := [0x2e]

def dotdot : Name := [0x2e, 0x2e]

structure Dirent where
  inum : ℕ
  name : Name
  deriving DecidableEq, Repr

/-- The types of an inode; a free inode has type zero. -/
inductive Ftype
  | free
  | dir
  | file
  | dev
  deriving DecidableEq, Repr

/-- An inode, with the entries of a directory or the bytes of a file as its content. -/
structure Dnode where
  type : Ftype
  major : BitVec 16
  minor : BitVec 16
  nlink : BitVec 16
  uid : BitVec 16
  gid : BitVec 16
  mode : Word
  entries : List Dirent
  data : List Byte
  deriving DecidableEq, Repr

inductive FdType
  | none
  | inode
  deriving DecidableEq, Repr

/-- `struct file`; pipes are left out. -/
structure FileSlot where
  type : FdType
  ref : Int
  readable : Bool
  writable : Bool
  ip : ℕ
  off : ℕ

/-- The files of a process. A process that has exited has no current directory. -/
structure ProcFiles where
  ofile : Fin nofile → Option (Fin nfile)
  cwd : Option ℕ

structure DirFs where
  ninodes : ℕ
  inode : ℕ → Dnode
  ref : ℕ → Int
  valid : ℕ → Bool
  file : Fin nfile → FileSlot
  proc : Fin nproc → ProcFiles

inductive DirPanic
  | igetNoInodes
  | ilock
  | ilockNoType
  | dirlookupNotDir
  | iallocNoInodes
  | unlinkNlink
  | dirlink
  | createDots
  | createDirlink
  | filedup
  | fileclose
  deriving DecidableEq, Repr

/-! ## Paths -/

def isSlash (c : Byte) : Bool := c == 0x2f

/-- The next element of a path and what follows it. -/
def skipelem (path : List Byte) : Option (Name × List Byte) :=
  let path := path.dropWhile isSlash
  if path = [] then none
  else
    some ((path.takeWhile (!isSlash ·)).take dirsiz,
      (path.dropWhile (!isSlash ·)).dropWhile isSlash)

/-- What the loop of `namex` gets from `skipelem`, at most `n` elements. -/
def elemsUpTo : ℕ → List Byte → List Name
  | 0, _ => []
  | n + 1, path =>
    match skipelem path with
    | none => []
    | some (name, path) => name :: elemsUpTo n path

def pathElems (path : List Byte) : List Name := elemsUpTo path.length path

theorem skipelem_length {path rest : List Byte} {name : Name}
    (h : skipelem path = some (name, rest)) :
    rest.length < path.length := by
  simp only [skipelem] at h
  split_ifs at h with hne
  obtain ⟨-, rfl⟩ := Prod.mk.inj (Option.some.inj h)
  obtain ⟨c, cs, hcs⟩ := List.exists_cons_of_ne_nil hne
  have hslash := List.head_dropWhile_not isSlash hne
  have hdrop := (List.dropWhile_sublist isSlash (l := path)).length_le
  have hrest :=
    ((List.dropWhile_sublist isSlash).trans (List.dropWhile_sublist (!isSlash ·) (l := cs))).length_le
  grind [List.dropWhile_cons]

theorem elemsUpTo_eq {n m : ℕ} {path : List Byte} (hn : path.length ≤ n) (hm : path.length ≤ m) :
    elemsUpTo n path = elemsUpTo m path := by
  induction n generalizing m path with
  | zero => cases m <;> grind [elemsUpTo, → skipelem_length]
  | succ n ih => cases m <;> grind [elemsUpTo, → skipelem_length]

/-- The elements are what calling `skipelem` again and again cuts off. -/
theorem pathElems_eq (path : List Byte) :
    pathElems path =
      match skipelem path with
      | none => []
      | some (name, rest) => name :: pathElems rest := by
  cases hlen : path.length with
  | zero => grind [pathElems, elemsUpTo, → skipelem_length]
  | succ n => grind [pathElems, elemsUpTo, elemsUpTo_eq, → skipelem_length]

/-! ## Directory contents -/

def Dirent.isFree (de : Dirent) : Bool := de.inum = 0

/-- The offset of the entry that `dirlookup` stops at. -/
def findEntry (name : Name) (entries : List Dirent) : Option ℕ :=
  entries.findIdx? fun de => de.inum ≠ 0 ∧ de.name = name

/-- The entry goes to the first free place, or to the end. -/
def putEntry (new : Dirent) : List Dirent → List Dirent
  | [] => [new]
  | de :: entries => if de.isFree then new :: entries else de :: putEntry new entries

/-- The entry that is written to is one of the first `maxDirents`. -/
def HasRoom (entries : List Dirent) : Prop := entries.findIdx Dirent.isFree < maxDirents

instance (entries : List Dirent) : Decidable (HasRoom entries) :=
  inferInstanceAs (Decidable (_ < _))

def isdirempty (ip : Dnode) : Bool := (ip.entries.drop 2).all Dirent.isFree

namespace DirFs

variable (s : DirFs)

def setInode (i : ℕ) (ip : Dnode) : DirFs :=
  { s with inode := update s.inode i ip }

def setFile (f : Fin nfile) (x : FileSlot) : DirFs :=
  { s with file := update s.file f x }

variable (p : Fin nproc)

def setProc (x : ProcFiles) : DirFs :=
  { s with proc := update s.proc p x }

def setOfile (fd : Fin nofile) (f : Option (Fin nfile)) : DirFs :=
  s.setProc p { s.proc p with ofile := update (s.proc p).ofile fd f }

def setCwd (i : Option ℕ) : DirFs :=
  s.setProc p { s.proc p with cwd := i }

/-! ## The inode cache -/

def cached : ℕ := (List.range s.ninodes).countP fun i => 0 < s.ref i

def iget (i : ℕ) : Except DirPanic DirFs :=
  if 0 < s.ref i then .ok { s with ref := update s.ref i (s.ref i + 1) }
  else if ninode ≤ s.cached then .error .igetNoInodes
  else
    .ok { s with
      ref := update s.ref i 1
      valid := update s.valid i false }

def idup (i : ℕ) : DirFs := { s with ref := update s.ref i (s.ref i + 1) }

def ilock (i : ℕ) : Except DirPanic DirFs :=
  if s.ref i < 1 then .error .ilock
  else if s.valid i then .ok s
  else if (s.inode i).type = .free then .error .ilockNoType
  else .ok { s with valid := update s.valid i true }

/-- `itrunc` and the clearing of the type. -/
def ifree (i : ℕ) : DirFs :=
  { s.setInode i { s.inode i with type := .free, entries := [], data := [] } with
    valid := update s.valid i false }

def iput (i : ℕ) : DirFs :=
  let s := if s.ref i = 1 ∧ s.valid i ∧ (s.inode i).nlink = 0 then s.ifree i else s
  { s with ref := update s.ref i (s.ref i - 1) }

/-- The new inode, of which nothing but the type is set. -/
def ialloc (type : Ftype) : Except DirPanic (ℕ × DirFs) :=
  match (List.range' 1 (s.ninodes - 1)).find? fun i => (s.inode i).type = .free with
  | none => .error .iallocNoInodes
  | some i => do
      let s ← (s.setInode i ⟨type, 0, 0, 0, 0, 0, 0, [], []⟩).iget i
      return (i, s)

/-! ## Lookup -/

/-- The inode that an entry of `dp` names and the offset of the entry. -/
def dirlookup (dp : ℕ) (name : Name) : Except DirPanic (Option (ℕ × ℕ) × DirFs) :=
  if (s.inode dp).type ≠ .dir then .error .dirlookupNotDir
  else
    match findEntry name (s.inode dp).entries with
    | none => .ok (none, s)
    | some off => do
        let i := ((s.inode dp).entries.getD off ⟨0, []⟩).inum
        let s ← s.iget i
        return (some (i, off), s)

/-- Whether the name was new; `de.inum` has 16 bits. `writei` does not make a file longer than
    `MAXFILE` blocks. -/
def dirlink (dp : ℕ) (name : Name) (i : ℕ) : Except DirPanic (Bool × DirFs) := do
  let (found, s) ← s.dirlookup dp name
  match found with
  | some (ip, _) => return (false, s.iput ip)
  | none =>
    let entries := putEntry ⟨i % 2 ^ 16, name⟩ (s.inode dp).entries
    if HasRoom (s.inode dp).entries then return (true, s.setInode dp { s.inode dp with entries })
    else throw .dirlink

/-- The loop of `namex`, at the inode `i`. The result for a parent carries the last element. -/
def namexLoop (parent : Bool) : List Name → ℕ → DirFs → Except DirPanic (Option (ℕ × Name) × DirFs)
  | [], i, s => if parent then .ok (none, s.iput i) else .ok (some (i, []), s)
  | name :: path, i, s => do
      let s ← s.ilock i
      if (s.inode i).type ≠ .dir then return (none, s.iput i)
      if parent ∧ path = [] then return (some (i, name), s)
      let (next, s) ← s.dirlookup i name
      match next with
      | none => return (none, s.iput i)
      | some (next, _) => namexLoop parent path next (s.iput i)

variable (cwd : ℕ)

variable (path : List Byte)

def namex (parent : Bool) :
    Except DirPanic (Option (ℕ × Name) × DirFs) := do
  if path.head?.any isSlash then
    let s ← s.iget rootino
    namexLoop parent (pathElems path) rootino s
  else namexLoop parent (pathElems path) cwd (s.idup cwd)

def namei : Except DirPanic (Option ℕ × DirFs) := do
  let (r, s) ← s.namex cwd path false
  return (r.map Prod.fst, s)

def nameiparent :
    Except DirPanic (Option (ℕ × Name) × DirFs) :=
  s.namex cwd path true

/-! ## Open files -/

def filealloc : Option (Fin nfile × DirFs) :=
  match (List.finRange nfile).find? fun f => (s.file f).ref = 0 with
  | none => none
  | some f => some (f, s.setFile f { s.file f with ref := 1 })

def filedup (f : Fin nfile) : Except DirPanic DirFs :=
  if (s.file f).ref < 1 then .error .filedup
  else .ok (s.setFile f { s.file f with ref := (s.file f).ref + 1 })

def fileclose (f : Fin nfile) : Except DirPanic DirFs :=
  let ff := s.file f
  if ff.ref < 1 then .error .fileclose
  else if 0 < ff.ref - 1 then .ok (s.setFile f { ff with ref := ff.ref - 1 })
  else
    let s := s.setFile f { ff with ref := 0, type := .none }
    match ff.type with
    | .none => .ok s
    | .inode => .ok (s.iput ff.ip)

def fdalloc (f : Fin nfile) : Option (Fin nofile × DirFs) :=
  match (List.finRange nofile).find? fun fd => ((s.proc p).ofile fd).isNone with
  | none => none
  | some fd => some (fd, s.setOfile p fd (some f))

/-! ## System calls

Each is made by the process `p`, whose current directory is `cwd`. -/

/-- `dirlink` where the source stops with `e` if it fails. -/
def dirlinkOr (e : DirPanic) (s : DirFs) (dp : ℕ) (name : Name) (i : ℕ) :
    Except DirPanic DirFs := do
  let (ok, s) ← s.dirlink dp name i
  if ok then return s else throw e

/-- For a directory, the entries `.` and `..` of the new inode `ip`, made in `dp`. -/
def createDots (type : Ftype) (dp ip : ℕ) : Except DirPanic DirFs :=
  if type = .dir then do
    let s := s.setInode dp { s.inode dp with nlink := (s.inode dp).nlink + 1 }
    let s ← s.dirlinkOr .createDots ip dot ip
    s.dirlinkOr .createDots ip dotdot dp
  else .ok s

/-- The part of `create` after the name has not been found in `dp`. -/
def createNew (dp : ℕ) (name : Name) (type : Ftype) (major minor : BitVec 16) :
    Except DirPanic (Option ℕ × DirFs) := do
  let (ip, s) ← s.ialloc type
  let s ← s.ilock ip
  let s := s.setInode ip { s.inode ip with major, minor, nlink := 1 }
  let s ← s.createDots type dp ip
  let s ← s.dirlinkOr .createDirlink dp name ip
  return (some ip, s.iput dp)

def create (type : Ftype) (major minor : BitVec 16) :
    Except DirPanic (Option ℕ × DirFs) := do
  let (r, s) ← s.nameiparent cwd path
  match r with
  | none => return (none, s)
  | some (dp, name) =>
    let s ← s.ilock dp
    let (found, s) ← s.dirlookup dp name
    match found with
    | some (ip, _) =>
      let s ← (s.iput dp).ilock ip
      if type = .file ∧ (s.inode ip).type = .file then return (some ip, s)
      else return (none, s.iput ip)
    | none => s.createNew dp name type major minor

/-- `O_WRONLY`, `O_RDWR` and `O_CREATE`. -/
def oWronly : Word := 0x001
def oRdwr : Word := 0x002
def oCreate : Word := 0x200

/-- The inode to open, locked, or nothing. -/
def openInode (omode : Word) :
    Except DirPanic (Option ℕ × DirFs) := do
  if omode &&& oCreate ≠ 0 then s.create cwd path .file 0 0
  else
    let (r, s) ← s.namei cwd path
    match r with
    | none => return (none, s)
    | some ip =>
      let s ← s.ilock ip
      if (s.inode ip).type = .dir ∧ omode ≠ 0 then return (none, s.iput ip)
      return (some ip, s)

def sysOpen (cwd : ℕ) (path : List Byte) (omode : Word) :
    Except DirPanic (Int × DirFs) := do
  let (r, s) ← s.openInode cwd path omode
  match r with
  | none => return (-1, s)
  | some ip =>
    match s.filealloc with
    | none => return (-1, s.iput ip)
    | some (f, s) =>
      match s.fdalloc p f with
      | none =>
        let s ← s.fileclose f
        return (-1, s.iput ip)
      | some (fd, s) =>
        return (fd.val, s.setFile f
          { s.file f with
            type := .inode
            ip := ip
            off := 0
            readable := omode &&& oWronly = 0
            writable := omode &&& oWronly ≠ 0 || omode &&& oRdwr ≠ 0 })

/-- What `mkdir` and `mknod` do with the inode from `create`. -/
def sysCreate (type : Ftype) (major minor : BitVec 16) :
    Except DirPanic (Int × DirFs) := do
  let (r, s) ← s.create cwd path type major minor
  match r with
  | none => return (-1, s)
  | some ip => return (0, s.iput ip)

def sysMkdir : Except DirPanic (Int × DirFs) :=
  s.sysCreate cwd path .dir 0 0

/-- `major` and `minor` are cut to 16 bits by the call of `create`. -/
def sysMknod (major minor : Word) :
    Except DirPanic (Int × DirFs) :=
  s.sysCreate cwd path .dev (major.setWidth 16) (minor.setWidth 16)

/-- The label `bad` of `sys_link`. -/
def linkBad (ip : ℕ) : Except DirPanic (Int × DirFs) := do
  let s ← s.ilock ip
  let s := s.setInode ip { s.inode ip with nlink := (s.inode ip).nlink - 1 }
  return (-1, s.iput ip)

/-- There is one device, so `dp->dev != ip->dev` is left out. -/
def sysLink (old new : List Byte) : Except DirPanic (Int × DirFs) := do
  let (r, s) ← s.namei cwd old
  match r with
  | none => return (-1, s)
  | some ip =>
    let s ← s.ilock ip
    if (s.inode ip).type = .dir then return (-1, s.iput ip)
    let s := s.setInode ip { s.inode ip with nlink := (s.inode ip).nlink + 1 }
    let (r, s) ← s.nameiparent cwd new
    match r with
    | none => s.linkBad ip
    | some (dp, name) =>
      let s ← s.ilock dp
      let (ok, s) ← s.dirlink dp name ip
      if ok then return (0, (s.iput dp).iput ip)
      else (s.iput dp).linkBad ip

/-- `unlink` after its checks: the entry at `off` of `dp`, which names `ip`, is cleared. -/
def unlinkEntry (dp ip off : ℕ) : DirFs :=
  let s := s.setInode dp { s.inode dp with entries := (s.inode dp).entries.set off ⟨0, []⟩ }
  let s :=
    if (s.inode ip).type = .dir then
      s.setInode dp { s.inode dp with nlink := (s.inode dp).nlink - 1 }
    else s
  let s := s.iput dp
  let s := s.setInode ip { s.inode ip with nlink := (s.inode ip).nlink - 1 }
  s.iput ip

def sysUnlink : Except DirPanic (Int × DirFs) := do
  let (r, s) ← s.nameiparent cwd path
  match r with
  | none => return (-1, s)
  | some (dp, name) =>
    let s ← s.ilock dp
    if name = dot ∨ name = dotdot then return (-1, s.iput dp)
    let (found, s) ← s.dirlookup dp name
    match found with
    | none => return (-1, s.iput dp)
    | some (ip, off) =>
      let s ← s.ilock ip
      if (s.inode ip).nlink.toInt < 1 then throw .unlinkNlink
      else if (s.inode ip).type = .dir ∧ isdirempty (s.inode ip) = false then
        return (-1, (s.iput ip).iput dp)
      else return (0, s.unlinkEntry dp ip off)

def sysChdir (cwd : ℕ) (path : List Byte) :
    Except DirPanic (Int × DirFs) := do
  let (r, s) ← s.namei cwd path
  match r with
  | none => return (-1, s)
  | some ip =>
    let s ← s.ilock ip
    if (s.inode ip).type ≠ .dir then return (-1, s.iput ip)
    return (0, (s.iput cwd).setCwd p (some ip))

def sysClose (fd : Fin nofile) : Except DirPanic (Int × DirFs) :=
  match (s.proc p).ofile fd with
  | none => .ok (-1, s)
  | some f => do
      let s ← (s.setOfile p fd none).fileclose f
      return (0, s)

/-- The loop over the open files in `exit`. -/
def closeAll (p : Fin nproc) : List (Fin nofile) → DirFs → Except DirPanic DirFs
  | [], s => .ok s
  | fd :: fds, s =>
    match (s.proc p).ofile fd with
    | none => closeAll p fds s
    | some f => do
        let s ← s.fileclose f
        closeAll p fds (s.setOfile p fd none)

/-- What `exit` does with the files of the process. -/
def exit (cwd : ℕ) : Except DirPanic DirFs := do
  let s ← closeAll p (List.finRange nofile) s
  return (s.iput cwd).setCwd p none

/-- The loop over the open files in `fork`, for the child `np`. -/
def dupAll (p np : Fin nproc) : List (Fin nofile) → DirFs → Except DirPanic DirFs
  | [], s => .ok s
  | fd :: fds, s =>
    match (s.proc p).ofile fd with
    | none => dupAll p np fds s
    | some f => do
        let s ← s.filedup f
        dupAll p np fds (s.setOfile np fd (some f))

/-- What `fork` does with the files of the process; `np` is the new process. -/
def fork (p np : Fin nproc) (cwd : ℕ) : Except DirPanic DirFs := do
  let s ← dupAll p np (List.finRange nofile) s
  return (s.idup cwd).setCwd np (some cwd)

end DirFs

/-! ## Runs -/

inductive FsCall
  | openPath (path : List Byte) (omode : Word)
  | mkdir (path : List Byte)
  | mknod (path : List Byte) (major minor : Word)
  | link (old new : List Byte)
  | unlink (path : List Byte)
  | chdir (path : List Byte)
  | close (fd : Fin nofile)
  | exit
  | fork (np : Fin nproc)

namespace DirFs

/-- A call by a process, taken as a whole. A process without a current directory makes no calls, and
    `fork` takes a place in the process table that is not in use. -/
def step (a : Fin nproc × FsCall) (s : DirFs) : Except DirPanic DirFs :=
  match (s.proc a.1).cwd with
  | none => .ok s
  | some cwd =>
    match a.2 with
    | .openPath path omode => Prod.snd <$> s.sysOpen a.1 cwd path omode
    | .mkdir path => Prod.snd <$> s.sysMkdir cwd path
    | .mknod path major minor => Prod.snd <$> s.sysMknod cwd path major minor
    | .link old new => Prod.snd <$> s.sysLink cwd old new
    | .unlink path => Prod.snd <$> s.sysUnlink cwd path
    | .chdir path => Prod.snd <$> s.sysChdir a.1 cwd path
    | .close fd => Prod.snd <$> s.sysClose a.1 fd
    | .exit => s.exit a.1 cwd
    | .fork np => if (s.proc np).cwd.isSome then .ok s else s.fork a.1 np cwd

end DirFs

end Xv6
