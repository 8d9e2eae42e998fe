import Xv6.Param
import Xv6.Lib.Transition
import Mathlib.Data.Fintype.Basic

set_option autoImplicit false

/-! # The file table and the descriptors (`file.c`, `sysfile.c`, `pipe.c`)

Whole calls of `open`, `dup`, `close`, `pipe`, `fork` and `exit` by the processes `P`, one after the
other. What the calls read of the rest of the kernel is an argument: the inode that `sys_open` finds
or creates, whether `kalloc` has a page, the process that `allocproc` gives to `fork`. Of a pipe
only its two ends are looked at here.

Beside the program's state the model numbers the opened files (each success of `open`, each end of a
pipe) and the pipes, and records what each opened file stands for and the final actions: the `iput`
or the `pipeclose` of an opened file, and the `kfree` of the page of a pipe. -/

namespace Xv6

open Function

/-- The `type` of a `struct file`, with its `pipe` or `ip`. -/
inductive FdKind
  | none
  | pipe (q : ℕ)
  | inode (i : ℕ)
  deriving DecidableEq, Repr

/-- `struct file`; `id` is the number of the opened file that it stands for. -/
structure OFile where
  type : FdKind
  ref : Int
  readable : Bool
  writable : Bool
  id : ℕ
  deriving DecidableEq, Repr

structure PipeEnds where
  readopen : Bool
  writeopen : Bool
  deriving DecidableEq, Repr

namespace PipeEnds

def isOpen (e : PipeEnds) (writable : Bool) : Bool := if writable then e.writeopen else e.readopen

def shut (e : PipeEnds) (writable : Bool) : PipeEnds :=
  if writable then { e with writeopen := false } else { e with readopen := false }

end PipeEnds

inductive FileEvent
  | iput (id i : ℕ)
  | pipeclose (id q : ℕ) (writable : Bool)
  | kfree (q : ℕ)
  deriving DecidableEq, Repr

structure OpenSys (P : Type) where
  file : Fin nfile → OFile
  ofile : P → Fin nofile → Option (Fin nfile)
  /-- The processes that are not `UNUSED` and have not exited. -/
  alive : P → Bool
  /-- The pipes whose page is not freed. -/
  pipe : ℕ → Option PipeEnds
  pipes : ℕ
  opened : ℕ
  /-- Each opened file as it was when it was opened. -/
  stands : ℕ → OFile
  history : List FileEvent

inductive OpenStop
  | filedup
  | fileclose
  /-- `pipeclose` of a page that has been freed. -/
  | usedAfterFree
  | disabled
  deriving DecidableEq, Repr

namespace OpenSys

variable {P : Type} [DecidableEq P]

def setFile (f : Fin nfile) (x : OFile) (s : OpenSys P) : OpenSys P :=
  { s with file := update s.file f x }

variable (p : P)

def setOfile (fd : Fin nofile) (f : Option (Fin nfile)) (s : OpenSys P) : OpenSys P :=
  { s with ofile := update s.ofile p (update (s.ofile p) fd f) }

def setAlive (b : Bool) (s : OpenSys P) : OpenSys P :=
  { s with alive := update s.alive p b }

def event (e : FileEvent) (s : OpenSys P) : OpenSys P := { s with history := s.history ++ [e] }

/-! ## `file.c` and `pipe.c` -/

/-- The type of the entry is left as it is. -/
def filealloc (s : OpenSys P) : Option (Fin nfile × OpenSys P) :=
  match (List.finRange nfile).find? fun f => (s.file f).ref = 0 with
  | none => none
  | some f => some (f, s.setFile f { s.file f with ref := 1 })

def filedup (f : Fin nfile) (s : OpenSys P) : Except OpenStop (OpenSys P) :=
  if (s.file f).ref < 1 then .error .filedup
  else .ok (s.setFile f { s.file f with ref := (s.file f).ref + 1 })

def pipeclose (q : ℕ) (writable : Bool) (s : OpenSys P) : Except OpenStop (OpenSys P) :=
  match s.pipe q with
  | none => .error .usedAfterFree
  | some e =>
    let e := e.shut writable
    if e.readopen = false ∧ e.writeopen = false then
      .ok ({ s with pipe := update s.pipe q none }.event (.kfree q))
    else .ok { s with pipe := update s.pipe q (some e) }

/-- What `fileclose` does for the last reference to a file. -/
def finish (ff : OFile) (s : OpenSys P) : Except OpenStop (OpenSys P) :=
  match ff.type with
  | .none => .ok s
  | .pipe q => (s.event (.pipeclose ff.id q ff.writable)).pipeclose q ff.writable
  | .inode i => .ok (s.event (.iput ff.id i))

def fileclose (f : Fin nfile) (s : OpenSys P) : Except OpenStop (OpenSys P) :=
  let ff := s.file f
  if ff.ref < 1 then .error .fileclose
  else if 0 < ff.ref - 1 then .ok (s.setFile f { ff with ref := ff.ref - 1 })
  else finish ff (s.setFile f { ff with ref := 0, type := .none })

/-- The file becomes the next opened file. -/
def become (f : Fin nfile) (type : FdKind) (readable writable : Bool) (s : OpenSys P) : OpenSys P :=
  let x := { s.file f with type, readable, writable, id := s.opened }
  { s.setFile f x with opened := s.opened + 1, stands := update s.stands s.opened x }

/-- A new page becomes a pipe with the ends `f0` and `f1`. -/
def pipeOf (f0 f1 : Fin nfile) (s : OpenSys P) : OpenSys P :=
  ({ s with
    pipe := update s.pipe s.pipes (some { readopen := true, writeopen := true })
    pipes := s.pipes + 1 }.become f0 (.pipe s.pipes) true false).become
      f1 (.pipe s.pipes) false true

/-- `pipealloc`, where `kalloc` has a page or not. -/
def pipealloc (page : Bool) (s : OpenSys P) :
    Except OpenStop (Option (Fin nfile × Fin nfile) × OpenSys P) :=
  match s.filealloc with
  | none => .ok (none, s)
  | some (f0, s) =>
    match s.filealloc with
    | none => do
        let s ← s.fileclose f0
        return (none, s)
    | some (f1, s) =>
      if page then .ok (some (f0, f1), s.pipeOf f0 f1)
      else do
        let s ← s.fileclose f0
        let s ← s.fileclose f1
        return (none, s)

/-! ## System calls -/

/-- `argfd`: the descriptor and its file. -/
def argfd (fd : Int) (s : OpenSys P) : Option (Fin nofile × Fin nfile) :=
  if h : 0 ≤ fd ∧ fd < nofile then
    (s.ofile p ⟨fd.toNat, by omega⟩).map fun f => (⟨fd.toNat, by omega⟩, f)
  else none

def fdalloc (f : Fin nfile) (s : OpenSys P) : Option (Fin nofile × OpenSys P) :=
  match (List.finRange nofile).find? fun fd => (s.ofile p fd).isNone with
  | none => none
  | some fd => some (fd, s.setOfile p fd (some f))

/-- `sys_open` from the call of `filealloc` on. -/
def openFound (i : ℕ) (readable writable : Bool) (s : OpenSys P) :
    Except OpenStop (Int × OpenSys P) :=
  match s.filealloc with
  | none => .ok (-1, s)
  | some (f, s) =>
    match s.fdalloc p f with
    | none => do
        let s ← s.fileclose f
        return (-1, s)
    | some (fd, s) => .ok (fd.val, s.become f (.inode i) readable writable)

/-- `sys_open`, where the inode that is found or created, if any, is `ip`. -/
def sysOpen (ip : Option ℕ) (readable writable : Bool) (s : OpenSys P) :
    Except OpenStop (Int × OpenSys P) :=
  match ip with
  | none => .ok (-1, s)
  | some i => s.openFound p i readable writable

def sysDup (fd : Int) (s : OpenSys P) : Except OpenStop (Int × OpenSys P) :=
  match s.argfd p fd with
  | none => .ok (-1, s)
  | some (_, f) =>
    match s.fdalloc p f with
    | none => .ok (-1, s)
    | some (fd, s) => do
        let s ← s.filedup f
        return (fd.val, s)

def sysClose (fd : Int) (s : OpenSys P) : Except OpenStop (Int × OpenSys P) :=
  match s.argfd p fd with
  | none => .ok (-1, s)
  | some (fd, f) => do
      let s ← (s.setOfile p fd none).fileclose f
      return (0, s)

/-- `sys_pipe` with the files of a new pipe. -/
def pipeFds (rf wf : Fin nfile) (s : OpenSys P) : Except OpenStop (Int × OpenSys P) :=
  match s.fdalloc p rf with
  | none => do
      let s ← s.fileclose rf
      let s ← s.fileclose wf
      return (-1, s)
  | some (fd0, s) =>
    match s.fdalloc p wf with
    | none => do
        let s ← (s.setOfile p fd0 none).fileclose rf
        let s ← s.fileclose wf
        return (-1, s)
    | some (_, s) => .ok (0, s)

/-- `sys_pipe`, where the argument is a good address or not. -/
def sysPipe (addr page : Bool) (s : OpenSys P) : Except OpenStop (Int × OpenSys P) :=
  if addr then do
    let (files, s) ← s.pipealloc page
    match files with
    | none => return (-1, s)
    | some (rf, wf) => s.pipeFds p rf wf
  else .ok (-1, s)

/-- The loop of `fork` over the descriptors. -/
def dupAll (p child : P) : List (Fin nofile) → OpenSys P → Except OpenStop (OpenSys P)
  | [], s => .ok s
  | fd :: fds, s =>
    match s.ofile p fd with
    | none => dupAll p child fds s
    | some f => do
        let s ← s.filedup f
        dupAll p child fds (s.setOfile child fd (some f))

/-- `fork`, where `allocproc` and `copyuvm` give `child`, if they do not fail. -/
def fork (child : Option P) (s : OpenSys P) : Except OpenStop (Int × OpenSys P) :=
  match child with
  | none => .ok (-1, s)
  | some c => do
      let s ← dupAll p c (List.finRange nofile) s
      return (0, s.setAlive c true)

/-- The loop of `exit` over the descriptors. -/
def closeAll (p : P) : List (Fin nofile) → OpenSys P → Except OpenStop (OpenSys P)
  | [], s => .ok s
  | fd :: fds, s =>
    match s.ofile p fd with
    | none => closeAll p fds s
    | some f => do
        let s ← s.fileclose f
        closeAll p fds (s.setOfile p fd none)

def exit (s : OpenSys P) : Except OpenStop (Int × OpenSys P) := do
  let s ← closeAll p (List.finRange nofile) s
  return (0, s.setAlive p false)

end OpenSys

inductive OpenCall (P : Type)
  | opens (ip : Option ℕ) (readable writable : Bool)
  | dup (fd : Int)
  | close (fd : Int)
  | pipe (addr page : Bool)
  | fork (child : Option P)
  | exit
  deriving DecidableEq, Repr

namespace OpenSys

variable {P : Type} [DecidableEq P]

/-- The call and what it returns. `allocproc` gives a process that is not in use. -/
def call (p : P) (c : OpenCall P) (s : OpenSys P) : Except OpenStop (Int × OpenSys P) :=
  if s.alive p = false then .error .disabled
  else
    match c with
    | .opens ip readable writable => s.sysOpen p ip readable writable
    | .dup fd => s.sysDup p fd
    | .close fd => s.sysClose p fd
    | .pipe addr page => s.sysPipe p addr page
    | .fork child => if child.any s.alive then .error .disabled else s.fork p child
    | .exit => s.exit p

/-- One call of one process. -/
def step (a : P × OpenCall P) (s : OpenSys P) : Except OpenStop (OpenSys P) :=
  Prod.snd <$> s.call a.1 a.2

/-- After boot, with the first process. -/
def init (p : P) : OpenSys P where
  file _ := { type := .none, ref := 0, readable := false, writable := false, id := 0 }
  stands _ := { type := .none, ref := 0, readable := false, writable := false, id := 0 }
  ofile _ _ := none
  alive := update (fun _ => false) p true
  pipe _ := none
  pipes := 0
  opened := 0
  history := []

end OpenSys

end Xv6
