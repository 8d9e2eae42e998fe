import Xv6.Fs.BufCache
import Xv6.Lib.Chain

set_option autoImplicit false

/-! # The disk driver (`ide.c`)

`idequeue` and the `qnext` fields of the buffers make up the queue of requests, and the controller
works on one command at a time. An action is one section under `idelock`: `iderw` queues its buffer,
starts the disk if there is nothing else to do, and goes to sleep; `ideintr` completes the request
at the head and starts the next one; a process in `iderw` that is woken looks at the flags again. It
may be woken at any time, since buffers are also channels of `bget`. The controller raises one
interrupt for each command: when it is done, with the data stored on the disk for a write, and ready
to be read, unless there was an error, for a read.

`iderw` is called for a buffer that the caller holds, so no second call for it can begin before the
first one returns, and nobody else changes it. The holder may do anything with it before and after
(`hold`). Buffers that are used at the same time are for different blocks, which is what `bget` sees
to.

`call` is the number of the call that waits for a buffer. `arrivals` are the requests of all calls
so far, with what the buffer held at the time, and `served` the buffers that `ideintr` has
completed. -/

namespace Xv6

open Function LinkedList

/-- What a call of `iderw` asks for. -/
structure IdeRequest where
  buf : Fin nbuf
  write : Bool
  key : Word × Word
  data : Block

/-- What the controller has been told to do. -/
inductive IdeCommand
  | read (key : Word × Word)
  | write (key : Word × Word) (data : Block)

/-- The drive that `idestart` selects, and the block. -/
def CachedBuf.place (x : CachedBuf) : Word × Word := (x.dev &&& 1, x.blockno)

/-- `(b->flags & (B_VALID|B_DIRTY)) == B_VALID`. -/
def CachedBuf.done (x : CachedBuf) : Bool := x.valid && !x.dirty

/-- The request of `iderw(b)`. -/
def CachedBuf.request (b : Fin nbuf) (x : CachedBuf) : IdeRequest := ⟨b, x.dirty, x.place, x.data⟩

/-- What `idestart` sends. -/
def CachedBuf.command (x : CachedBuf) : IdeCommand :=
  if x.dirty then .write x.place x.data else .read x.place

structure Ide where
  havedisk1 : Bool
  buf : Fin nbuf → CachedBuf
  idequeue : Option (Fin nbuf)
  qnext : Fin nbuf → Option (Fin nbuf)
  active : Option IdeCommand
  disk : Word × Word → Block
  call : Fin nbuf → Option ℕ
  arrivals : List IdeRequest
  served : List (Fin nbuf)

inductive IdeAct
  | hold (b : Fin nbuf) (x : CachedBuf)
  | iderw (b : Fin nbuf)
  | wake (b : Fin nbuf)
  | ideintr (error : Bool)

inductive IdeStop
  /-- Not possible now. -/
  | blocked
  | notBusy
  | nothingToDo
  | noDisk1
  | incorrectBlockno
  | hang
  deriving DecidableEq, Repr

namespace Ide

def idestart (b : Fin nbuf) (s : Ide) : Except IdeStop Ide :=
  if fsSize ≤ (s.buf b).blockno.toNat then .error .incorrectBlockno
  else .ok { s with active := some (s.buf b).command }

/-- `*pp = b`, where `pp` is `&idequeue` or the `qnext` of `t`. -/
def link (pp : Option (Fin nbuf)) (b : Fin nbuf) (s : Ide) : Ide :=
  match pp with
  | none => { s with idequeue := some b }
  | some t => { s with qnext := update s.qnext t (some b) }

/-- The test of the loop around `sleep`: return, or sleep again. -/
def look (b : Fin nbuf) (s : Ide) : Ide :=
  if (s.buf b).done then { s with call := update s.call b none } else s

/-- Append `b` to `idequeue`. -/
def enqueue (b : Fin nbuf) (s : Ide) : Except IdeStop Ide := do
  let s := { s with
    call := update s.call b (some s.arrivals.length)
    arrivals := s.arrivals ++ [(s.buf b).request b]
    qnext := update s.qnext b none }
  let pp ← lastNode s.qnext .hang nbuf none s.idequeue
  .ok (s.link pp b)

def iderw (b : Fin nbuf) (s : Ide) : Except IdeStop Ide :=
  if (s.buf b).busy = false then .error .notBusy
  else if (s.buf b).done then .error .nothingToDo
  else if (s.buf b).dev ≠ 0 ∧ s.havedisk1 = false then .error .noDisk1
  else do
    let s ← s.enqueue b
    let s ← if s.idequeue = some b then s.idestart b else .ok s
    .ok (s.look b)

/-- What the controller has done when it raises the interrupt. -/
def complete (c : IdeCommand) (s : Ide) : Ide :=
  match c with
  | .read _ => { s with active := none }
  | .write key data => { s with active := none, disk := update s.disk key data }

/-- `insl`: the data that the controller has got. -/
def received (c : IdeCommand) (s : Ide) : Block :=
  match c with
  | .read key | .write key _ => s.disk key

/-- Take `b` off the queue, read the data if needed, and set the flags. -/
def pop (error : Bool) (c : IdeCommand) (b : Fin nbuf) (s : Ide) : Ide :=
  let x := s.buf b
  let data := if !x.dirty && !error then s.received c else x.data
  { s with
    idequeue := s.qnext b
    buf := update s.buf b { x with data := data, valid := true, dirty := false }
    served := s.served ++ [b] }

def ideintr (error : Bool) (s : Ide) : Except IdeStop Ide :=
  match s.active with
  | none => .error .blocked
  | some c =>
    let s := s.complete c
    match s.idequeue with
    | none => .ok s
    | some b =>
      let s := s.pop error c b
      match s.idequeue with
      | none => .ok s
      | some b' => s.idestart b'

def step (a : IdeAct) (s : Ide) : Except IdeStop Ide :=
  match a with
  | .hold b x => if s.call b = none then .ok { s with buf := update s.buf b x } else .error .blocked
  | .iderw b => if s.call b = none then s.iderw b else .error .blocked
  | .wake b => if s.call b = none then .error .blocked else .ok (s.look b)
  | .ideintr error => s.ideintr error

/-- An idle disk. -/
def Init (s : Ide) : Prop :=
  s.idequeue = none ∧ s.active = none ∧ (∀ b, s.call b = none) ∧ s.arrivals = [] ∧ s.served = []

/-- Buffers used at the same time are for different blocks. -/
def Apart (a : IdeAct) (s : Ide) : Prop :=
  match a with
  | .iderw b => ∀ b', s.call b' ≠ none → (s.buf b').place ≠ (s.buf b).place
  | _ => True

end Ide

end Xv6
