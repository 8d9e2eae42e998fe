import Xv6.Param
import Xv6.Lib.Ring
import Xv6.Lib.Transition
import Mathlib.Data.Fintype.Basic

set_option autoImplicit false

/-! # Pipes (`pipe.c`)

One pipe and the processes `P` that use it. A process calls `pipewrite`, `piperead` or, when the
last descriptor of an end goes away, `pipeclose`. An action is the `acquire` of `p->lock`, or one
pass of a loop under the lock; actions of different processes interleave freely, and a process may
be killed at any moment. `sleep` releases the lock and puts the process on a channel in one step,
and the process takes the lock again after a `wakeup` of the channel.

`pipeclose` is called by `fileclose` for the last reference to the end's `struct file`. A process
inside `pipewrite` or `piperead` has a descriptor of that end, so no such call is in progress then
and none begins afterwards (`held`). -/

namespace Xv6

open Function

abbrev pipeSize : ℕ := 512

structure Pipe where
  data : Fin pipeSize → Byte
  nread : Word
  nwrite : Word
  readopen : Bool
  writeopen : Bool

namespace Pipe

/-- What `pipealloc` leaves in the page it got. -/
def alloc (data : Fin pipeSize → Byte) : Pipe :=
  { data := data, nread := 0, nwrite := 0, readopen := true, writeopen := true }

def full (q : Pipe) : Bool := q.nwrite == q.nread + BitVec.ofNat 32 pipeSize

def empty (q : Pipe) : Bool := q.nread == q.nwrite

/-- `p->data[p->nwrite++ % PIPESIZE] = b`. -/
def store (b : Byte) (q : Pipe) : Pipe :=
  { q with data := update q.data (Ring.cell q.nwrite) b, nwrite := q.nwrite + 1 }

/-- `p->data[p->nread++ % PIPESIZE]`. -/
def take (q : Pipe) : Byte × Pipe := (q.data (Ring.cell q.nread), { q with nread := q.nread + 1 })

/-- Whether an end is open: the write end for `true`, the read end for `false`. -/
def isOpen (q : Pipe) (writable : Bool) : Bool := if writable then q.writeopen else q.readopen

def shut (writable : Bool) (q : Pipe) : Pipe :=
  if writable then { q with writeopen := false } else { q with readopen := false }

/-- The bytes that are stored and not yet read. -/
def buffered (q : Pipe) : List Byte := Ring.contents q.data q.nread q.nwrite

end Pipe

/-- The channels that processes sleep on. -/
inductive PipeChan
  | nread
  | nwrite
  deriving DecidableEq, Repr

/-- The channel that is woken when an end is closed. -/
def PipeChan.ofEnd (writable : Bool) : PipeChan := if writable then .nread else .nwrite

/-- A call and how far it has come. -/
inductive PipeCall
  /-- `pipewrite`, with `i` bytes stored. -/
  | write (addr : List Byte) (n : Int) (i : ℕ)
  /-- `piperead` before its loop that copies. -/
  | read (n : Int)
  /-- `piperead` in that loop, with the bytes that are in `addr`. -/
  | copy (n : Int) (addr : List Byte)
  | close (writable : Bool)
  deriving DecidableEq, Repr

/-- The end that the call uses; a process in `pipeclose` has no descriptor any more. -/
def PipeCall.uses : PipeCall → Option Bool
  | .write .. => some true
  | .read _ | .copy .. => some false
  | .close _ => none

inductive PipePc
  | idle
  /-- Before the `acquire` at the beginning of the call, or at the end of `sleep`. -/
  | acquire (c : PipeCall)
  | holds (c : PipeCall)
  | sleeping (chan : PipeChan) (c : PipeCall)
  deriving DecidableEq, Repr

def PipePc.call : PipePc → Option PipeCall
  | .idle => none
  | .acquire c | .holds c | .sleeping _ c => some c

/-- A process that sleeps on the channel goes on to take the lock. -/
def PipePc.woken (chan : PipeChan) : PipePc → PipePc
  | .sleeping ch c => if ch = chan then .acquire c else .sleeping ch c
  | pc => pc

/-- What the calls do, in the order in which they do it. -/
inductive PipeEvent (P : Type)
  /-- `pipewrite` stores a byte. -/
  | stored (p : P) (b : Byte)
  /-- `pipewrite` for `n` bytes returns `r`. -/
  | wrote (p : P) (n r : Int)
  /-- `piperead` for `n` bytes returns how many bytes it has put into `addr`. -/
  | got (p : P) (n : Int) (addr : List Byte)
  /-- `piperead` returns -1. -/
  | gaveUp (p : P) (n : Int)
  deriving DecidableEq, Repr

structure PipeSys (P : Type) where
  /-- The page of the pipe; none after `kfree`. -/
  page : Option Pipe
  lock : Option P
  /-- Whether a descriptor of the end is left. -/
  held : Bool → Bool
  pc : P → PipePc
  killed : P → Bool
  history : List (PipeEvent P)

inductive PipeStop
  | disabled
  | usedAfterFree
  deriving DecidableEq, Repr

inductive PipeAct (P : Type)
  | pipewrite (p : P) (addr : List Byte) (n : Int)
  | piperead (p : P) (n : Int)
  | pipeclose (p : P) (writable : Bool)
  | acquire (p : P)
  /-- The next pass of the process that holds the lock. -/
  | run (p : P)
  | kill (p : P)
  deriving DecidableEq, Repr

namespace PipeSys

variable {P : Type} [DecidableEq P]

variable (p : P)

def goto (c : PipePc) (s : PipeSys P) : PipeSys P := { s with pc := update s.pc p c }

def event (e : PipeEvent P) (s : PipeSys P) : PipeSys P := { s with history := s.history ++ [e] }

def release (s : PipeSys P) : PipeSys P := { s with lock := none }

def setPage (q : Pipe) (s : PipeSys P) : PipeSys P := { s with page := some q }

def wakeup (chan : PipeChan) (s : PipeSys P) : PipeSys P :=
  { s with pc := fun p => (s.pc p).woken chan }

def sleep (chan : PipeChan) (c : PipeCall) (s : PipeSys P) : PipeSys P :=
  (s.goto p (.sleeping chan c)).release

/-- `release` and the return of the call. -/
def ret (e : PipeEvent P) (s : PipeSys P) : PipeSys P := ((s.goto p .idle).release).event e

/-- One pass of the loop of `pipewrite`. -/
def pipewrite (addr : List Byte) (n : Int) (i : ℕ) (q : Pipe) (s : PipeSys P) : PipeSys P :=
  if (i : Int) < n then
    if q.full then
      if q.readopen = false ∨ s.killed p = true then s.ret p (.wrote p n (-1))
      else (s.wakeup .nread).sleep p .nwrite (.write addr n i)
    else
      ((s.setPage (q.store (addr.getD i 0))).event (.stored p (addr.getD i 0))).goto p
        (.holds (.write addr n (i + 1)))
  else (s.wakeup .nread).ret p (.wrote p n n)

/-- One pass of the loop of `piperead` that waits. -/
def piperead (n : Int) (q : Pipe) (s : PipeSys P) : PipeSys P :=
  if q.empty = true ∧ q.writeopen = true then
    if s.killed p then s.ret p (.gaveUp p n) else s.sleep p .nread (.read n)
  else s.goto p (.holds (.copy n []))

/-- One pass of the loop of `piperead` that copies. -/
def pipecopy (n : Int) (addr : List Byte) (q : Pipe) (s : PipeSys P) : PipeSys P :=
  if (addr.length : Int) < n ∧ q.empty = false then
    (s.setPage q.take.2).goto p (.holds (.copy n (addr ++ [q.take.1])))
  else (s.wakeup .nwrite).ret p (.got p n addr)

/-- `pipeclose` under the lock. The page is freed after the second end is closed. -/
def pipeclose (writable : Bool) (q : Pipe) (s : PipeSys P) : PipeSys P :=
  let q := q.shut writable
  let s := s.wakeup (.ofEnd writable)
  let s := (s.goto p .idle).release
  if q.readopen = false ∧ q.writeopen = false then { s with page := none } else s.setPage q

/-- One pass of the process that holds the lock. -/
def run (q : Pipe) (s : PipeSys P) : PipeCall → PipeSys P
  | .write addr n i => s.pipewrite p addr n i q
  | .read n => s.piperead p n q
  | .copy n addr => s.pipecopy p n addr q
  | .close writable => s.pipeclose p writable q

/-- No process is in a call on the end. -/
def Unused [Fintype P] (writable : Bool) (s : PipeSys P) : Prop :=
  ∀ p, (s.pc p).call.bind PipeCall.uses ≠ some writable

instance [Fintype P] (writable : Bool) (s : PipeSys P) : Decidable (Unused writable s) :=
  inferInstanceAs (Decidable (∀ _, _))

def step [Fintype P] (a : PipeAct P) (s : PipeSys P) : Except PipeStop (PipeSys P) :=
  match a with
  | .pipewrite p addr n =>
    if s.pc p = .idle ∧ s.held true = true then .ok (s.goto p (.acquire (.write addr n 0)))
    else .error .disabled
  | .piperead p n =>
    if s.pc p = .idle ∧ s.held false = true then .ok (s.goto p (.acquire (.read n)))
    else .error .disabled
  | .pipeclose p writable =>
    if s.pc p = .idle ∧ s.held writable = true ∧ s.Unused writable then
      .ok ({ s with held := update s.held writable false }.goto p (.acquire (.close writable)))
    else .error .disabled
  | .acquire p =>
    match s.pc p, s.page with
    | .acquire _, none => .error .usedAfterFree
    | .acquire c, some _ =>
      if s.lock = none then .ok ({ s with lock := some p }.goto p (.holds c))
      else .error .disabled
    | _, _ => .error .disabled
  | .run p =>
    match s.pc p, s.page with
    | .holds _, none => .error .usedAfterFree
    | .holds c, some q => .ok (s.run p q c)
    | _, _ => .error .disabled
  | .kill p =>
    -- `kill` also wakes the process.
    match s.pc p with
    | .sleeping _ c => .ok ({ s with killed := update s.killed p true }.goto p (.acquire c))
    | _ => .ok { s with killed := update s.killed p true }

/-- After `pipealloc`. -/
def init (data : Fin pipeSize → Byte) : PipeSys P where
  page := some (.alloc data)
  lock := none
  held _ := true
  pc _ := .idle
  killed _ := false
  history := []

end PipeSys

end Xv6
