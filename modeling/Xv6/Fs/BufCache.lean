import Xv6.Fs.Bio
import Xv6.Lib.CircList
import Xv6.Lib.Transition

set_option autoImplicit false

/-! # The buffer cache under concurrency (`bio.c`, `ide.c`)

Any number of processes call `bread`, change the data of the buffers they hold, and call
`log_write`, `bwrite` and `brelse`. An action is one pass through a critical section: `bget` looks
for its block under `bcache.lock`, `iderw` queues a request under `idelock`, `ideintr` completes the
request at the head of the queue and starts the next one. A process that waits, for a busy buffer or
for the disk, is one whose action cannot be taken; when it is woken it looks again. The disk
completes each request without error. Of `log_write` this is the part that touches the buffer: it
sets `B_DIRTY`.

The processes keep to the rules of `bio.c`: a buffer is used by the process that got it from
`bread`, and not after `brelse`. `holds` records who that is. `changed` is set while the data of a
buffer has changed since it was last read or given to the disk, and `left` is what the last holder
of a block has left in it. -/

namespace Xv6

open Function

/-- A device the disk driver knows. The buffers that have not been used yet are on device -1. -/
def RealDev (dev : Word) : Prop := dev = 0 ∨ dev = 1

instance (dev : Word) : Decidable (RealDev dev) := inferInstanceAs (Decidable (_ ∨ _))

/-- `struct buf`, with the flags `B_BUSY`, `B_VALID` and `B_DIRTY`. -/
structure CachedBuf where
  dev : Word
  blockno : Word
  busy : Bool
  valid : Bool
  dirty : Bool
  data : Block

def CachedBuf.key (x : CachedBuf) : Word × Word := (x.dev, x.blockno)

/-- Where a process stands that is in `bread` or `bwrite`. -/
inductive BioPc
  | idle
  | bget (dev : Word) (blockno : Word)
  /-- `bget` has returned. -/
  | got (b : Fin nbuf)
  /-- Waiting in `iderw`, for `bread` and for `bwrite`. -/
  | read (b : Fin nbuf)
  | write (b : Fin nbuf)
  deriving DecidableEq, Repr

structure BioSys (P : Type) where
  havedisk1 : Bool
  /-- The `prev` and `next` of the buffers and of `bcache.head`. -/
  links : CircList (Fin nbuf)
  buf : Fin nbuf → CachedBuf
  idequeue : List (Fin nbuf)
  disk : Word × Word → Block
  pc : P → BioPc
  /-- The arguments of the last `bread` of each process. -/
  args : P → Word × Word
  holds : P → Fin nbuf → Bool
  changed : Fin nbuf → Bool
  left : Word × Word → Block

inductive BioAct (P : Type)
  | bread (p : P) (dev : Word) (blockno : Word)
  | modify (p : P) (b : Fin nbuf) (data : Block)
  | logWrite (p : P) (b : Fin nbuf)
  | bwrite (p : P) (b : Fin nbuf)
  | brelse (p : P) (b : Fin nbuf)
  | run (p : P)
  | ideintr

inductive BioStop
  /-- Not possible now: the process waits, or the rules forbid the action. -/
  | blocked
  | bgetNoBuffers
  | bwrite
  | brelse
  | iderwNotBusy
  | iderwNothingToDo
  | iderwNoDisk1
  | incorrectBlockno
  deriving DecidableEq, Repr

namespace BioSys

variable {P : Type} [DecidableEq P]

def setBuf (b : Fin nbuf) (x : CachedBuf) (s : BioSys P) : BioSys P :=
  { s with buf := update s.buf b x }

def modifyBuf (b : Fin nbuf) (f : CachedBuf → CachedBuf) (s : BioSys P) : BioSys P :=
  s.setBuf b (f (s.buf b))

def setDisk (k : Word × Word) (x : Block) (s : BioSys P) : BioSys P :=
  { s with disk := update s.disk k x }

variable (p : P)

def setHolds (b : Fin nbuf) (h : Bool) (s : BioSys P) : BioSys P :=
  { s with holds := update s.holds p (update (s.holds p) b h) }

def setChanged (b : Fin nbuf) (c : Bool) (s : BioSys P) : BioSys P :=
  { s with changed := update s.changed b c }

def setLeft (k : Word × Word) (x : Block) (s : BioSys P) : BioSys P :=
  { s with left := update s.left k x }

def goto (c : BioPc) (s : BioSys P) : BioSys P :=
  { s with pc := update s.pc p c }

/-! ## `ide.c` -/

/-- `idestart`: a dirty buffer is sent to the disk. -/
def idestart (b : Fin nbuf) (s : BioSys P) : Except BioStop (BioSys P) :=
  if fsSize ≤ (s.buf b).blockno.toNat then .error .incorrectBlockno
  else if (s.buf b).dirty then .ok (s.setDisk (s.buf b).key (s.buf b).data)
  else .ok s

/-- `iderw` up to the wait for the disk, where the process is at `c`. -/
def iderw (b : Fin nbuf) (c : BioPc) (s : BioSys P) : Except BioStop (BioSys P) :=
  if (s.buf b).busy = false then .error .iderwNotBusy
  else if (s.buf b).valid = true ∧ (s.buf b).dirty = false then .error .iderwNothingToDo
  else if (s.buf b).dev ≠ 0 ∧ s.havedisk1 = false then .error .iderwNoDisk1
  else
    let s := { s with idequeue := s.idequeue ++ [b] }.goto p c
    if s.idequeue = [b] then s.idestart b else .ok s

/-- What a buffer is once its request is completed, where the disk has `block`. -/
def completed (block : Block) (x : CachedBuf) : CachedBuf :=
  { x with valid := true, dirty := false, data := if x.dirty then x.data else block }

def ideintr (s : BioSys P) : Except BioStop (BioSys P) :=
  match s.idequeue with
  | [] => .ok s
  | b :: queue =>
    let s := { s.modifyBuf b (completed (s.disk (s.buf b).key)) with idequeue := queue }
    match queue with
    | [] => .ok s
    | c :: _ => s.idestart c

/-! ## `bio.c` -/

/-- The buffer that `bget` finds for a block. -/
def findBuf (dev : Word) (blockno : Word) (s : BioSys P) : Option (Fin nbuf) :=
  CircList.search s.links.next (fun b => (s.buf b).dev = dev ∧
    (s.buf b).blockno = blockno) (nbuf + 1) (s.links.next none)

/-- The buffer that `bget` recycles. -/
def freeBuf (s : BioSys P) : Option (Fin nbuf) :=
  CircList.search s.links.prev (fun b => (s.buf b).busy = false ∧
    (s.buf b).dirty = false) (nbuf + 1) (s.links.prev none)

/-- `bget` returns the buffer, changed by `f`, to `p`. -/
def take (b : Fin nbuf) (f : CachedBuf → CachedBuf) (s : BioSys P) : BioSys P :=
  ((s.modifyBuf b f).setHolds p b true).goto p (.got b)

def bget (dev : Word) (blockno : Word) (s : BioSys P) : Except BioStop (BioSys P) :=
  match s.findBuf dev blockno with
  | some b => if (s.buf b).busy then .error .blocked else .ok (s.take p b ({ · with busy := true }))
  | none =>
    match s.freeBuf with
    | some b => .ok (s.take p b (⟨dev, blockno, true, false, false, ·.data⟩))
    | none => .error .bgetNoBuffers

def bwrite (b : Fin nbuf) (s : BioSys P) : Except BioStop (BioSys P) :=
  if (s.buf b).busy = false then .error .bwrite
  else ((s.modifyBuf b ({ · with dirty := true })).setChanged b false).iderw p b (.write b)

def brelse (b : Fin nbuf) (s : BioSys P) : Except BioStop (BioSys P) :=
  if (s.buf b).busy = false then .error .brelse
  else
    let s := { s with links := (s.links.unlink b).pushFront b }
    .ok (((s.modifyBuf b ({ · with busy := false })).setHolds p b false).setLeft (s.buf b).key
      (s.buf b).data)

/-- `bread` up to its call of `bget`. -/
def bread (dev blockno : Word) (s : BioSys P) : BioSys P :=
  { s with args := update s.args p (dev, blockno) }.goto p (.bget dev blockno)

/-- The next action of the call that the process is in. -/
def run (s : BioSys P) : Except BioStop (BioSys P) :=
  match s.pc p with
  | .idle => .error .blocked
  | .bget dev blockno => s.bget p dev blockno
  | .got b => if (s.buf b).valid then .ok (s.goto p .idle) else s.iderw p b (.read b)
  | .read b | .write b =>
    if (s.buf b).valid = true ∧ (s.buf b).dirty = false then .ok (s.goto p .idle)
      else .error .blocked

def step (a : BioAct P) (s : BioSys P) : Except BioStop (BioSys P) :=
  match a with
  | .bread p dev blockno =>
    if s.pc p = .idle ∧ RealDev dev then .ok (s.bread p dev blockno) else .error .blocked
  | .modify p b data =>
    if s.pc p = .idle ∧ s.holds p b = true then
      .ok ((s.modifyBuf b ({ · with data := data })).setChanged b true)
    else .error .blocked
  | .logWrite p b =>
    if s.pc p = .idle ∧ s.holds p b = true then .ok (s.modifyBuf b ({ · with dirty := true }))
    else .error .blocked
  | .bwrite p b => if s.pc p = .idle ∧ s.holds p b = true then s.bwrite p b else .error .blocked
  | .brelse p b => if s.pc p = .idle ∧ s.holds p b = true then s.brelse p b else .error .blocked
  | .run p => s.run p
  | .ideintr => s.ideintr

/-! ## Boot -/

/-- The list that `binit` makes. -/
def binit : CircList (Fin nbuf) := (List.finRange nbuf).foldl CircList.pushFront .empty

/-- The cache after `binit`, over the contents of the disks. -/
def init (havedisk1 : Bool) (disk : Word × Word → Block) : BioSys P where
  havedisk1 := havedisk1
  links := binit
  buf _ := ⟨-1, 0, false, false, false, fun _ => 0⟩
  idequeue := []
  disk := disk
  pc _ := .idle
  args _ := (0, 0)
  holds _ _ := false
  changed _ := false
  left := disk

end BioSys

end Xv6
