import Xv6.Fs.BufCache
import Xv6.Fs.Log

set_option autoImplicit false

/-! # The log on the buffer cache (`log.c`)

Here `commit` works on the buffers themselves: `write_log`, `write_head` and `install_trans` call
`bread`, `bwrite` and `brelse` like everybody else, next to operations between `begin_op` and
`end_op`, which change buffers and log them, and to processes outside of any operation, which only
read. An action is one action of the buffer cache, one critical section of `log.lock`, one of the
checks that `log_write` makes before it takes the lock, or one statement of `commit`. The file
system is on one device, `ROOTDEV`. -/

namespace Xv6

open Function

/-- `log.dev`. -/
abbrev rootDev : Word := 1

/-- The body of the loops of `write_log` and of `install_trans`. Both read the log block and then
    the block it is a copy of. -/
inductive CopyPc
  | readLog
  | readHome (l : Fin nbuf)
  | move (l h : Fin nbuf)
  | write (l h : Fin nbuf)
  | relseSrc (l h : Fin nbuf)
  | relseDst (l h : Fin nbuf)
  deriving DecidableEq, Repr

/-- `write_head`. -/
inductive HeadPc
  | read
  | fill (b : Fin nbuf)
  | write (b : Fin nbuf)
  | relse (b : Fin nbuf)
  deriving DecidableEq, Repr

/-- `commit`, and `end_op` after it. -/
inductive BufCommitPc
  | test
  /-- `write_log`, or `install_trans` if `home`. -/
  | copy (home : Bool) (tail : ℕ) (c : CopyPc)
  /-- The first `write_head`, or the second one if `erase`. -/
  | head (erase : Bool) (c : HeadPc)
  | clear
  | done
  deriving DecidableEq, Repr

inductive OpPc
  | outside
  | inOp
  /-- In `log_write`, past the check for the size. -/
  | sizeOk (b : Fin nbuf)
  /-- In `log_write`, past both checks. -/
  | checked (b : Fin nbuf)
  | commit (c : BufCommitPc)
  deriving DecidableEq, Repr

def OpPc.inProgress : OpPc → Bool
  | .inOp | .sizeOk _ | .checked _ => true
  | .outside | .commit _ => false

structure BufLog (P : Type) where
  bio : BioSys P
  log : Log
  op : P → OpPc
  /-- The blocks that the operation of each process has logged. -/
  blocks : P → List Word

inductive BufLogAct (P : Type)
  /-- An action of the buffer cache; `log_write` and `bwrite` are not called this way. -/
  | bio (a : BioAct P)
  | beginOp (p : P)
  | logWrite (p : P) (b : Fin nbuf)
  | check (p : P)
  | append (p : P)
  | endOp (p : P)
  | commit (p : P)

inductive BufLogStop
  | bio (e : BioStop)
  | panic (e : LogPanic)
  | disabled
  deriving DecidableEq, Repr

/-- The buffer that `bread` returns to the process with the process's next action. -/
def BioSys.returned {P : Type} (p : P) (s : BioSys P) : Option (Fin nbuf) :=
  match s.pc p with
  | .got b => if (s.buf b).valid then some b else none
  | .read b => if (s.buf b).valid = true ∧ (s.buf b).dirty = false then some b else none
  | .idle | .bget .. | .write _ => none

/-- `commit` goes on with the buffer that `bread` has returned. -/
def OpPc.feed (b : Fin nbuf) : OpPc → OpPc
  | .commit (.copy home tail .readLog) => .commit (.copy home tail (.readHome b))
  | .commit (.copy home tail (.readHome l)) => .commit (.copy home tail (.move l b))
  | .commit (.head erase .read) => .commit (.head erase (.fill b))
  | c => c

namespace BufLog

variable {P : Type} [DecidableEq P]

def goto (p : P) (c : OpPc) (s : BufLog P) : BufLog P := { s with op := update s.op p c }

/-- An action of the buffer cache, after which the process is at `c`. -/
def call (a : BioAct P) (p : P) (c : OpPc) (s : BufLog P) : Except BufLogStop (BufLog P) :=
  match BioSys.step a s.bio with
  | .ok bio => .ok ({ s with bio := bio }.goto p c)
  | .error e => .error (.bio e)

/-- The buffers that a copy goes from and to. -/
def source (home : Bool) (l h : Fin nbuf) : Fin nbuf := if home then l else h
def target (home : Bool) (l h : Fin nbuf) : Fin nbuf := if home then h else l

/-- The body of the loops of `write_log` and of `install_trans`. -/
def copyStep (p : P) (home : Bool) (tail : ℕ) (s : BufLog P) : CopyPc → Except BufLogStop (BufLog P)
  | .readLog =>
    match s.log.lh[tail]? with
    | some _ =>
      s.call (.bread p rootDev (BitVec.ofNat 32 (s.log.start + tail + 1))) p
        (.commit (.copy home tail .readLog))
    | none => .ok (s.goto p (.commit (if home then .clear else .head false .read)))
  | .readHome l =>
    match s.log.lh[tail]? with
    | some w => s.call (.bread p rootDev w) p (.commit (.copy home tail (.readHome l)))
    | none => .error .disabled
  | .move l h =>
    s.call (.modify p (target home l h) (s.bio.buf (source home l h)).data) p
      (.commit (.copy home tail (.write l h)))
  | .write l h => s.call (.bwrite p (target home l h)) p (.commit (.copy home tail (.relseSrc l h)))
  | .relseSrc l h => s.call (.brelse p (source home l h)) p
      (.commit (.copy home tail (.relseDst l h)))
  | .relseDst l h => s.call (.brelse p (target home l h)) p
      (.commit (.copy home (tail + 1) .readLog))

def headStep (p : P) (erase : Bool) (s : BufLog P) : HeadPc → Except BufLogStop (BufLog P)
  | .read => s.call (.bread p rootDev (BitVec.ofNat 32 s.log.start)) p (.commit (.head erase .read))
  | .fill b =>
    s.call (.modify p b (encodeHead s.log.lh (s.bio.buf b).data)) p
      (.commit (.head erase (.write b)))
  | .write b => s.call (.bwrite p b) p (.commit (.head erase (.relse b)))
  | .relse b => s.call (.brelse p b) p (.commit (if erase then .done else .copy true 0 .readLog))

def commitStep (p : P) (s : BufLog P) : BufCommitPc → Except BufLogStop (BufLog P)
  | .test => .ok (s.goto p (.commit (if 0 < s.log.lh.length then .copy false 0 .readLog else .done)))
  | .copy home tail c => s.copyStep p home tail c
  | .head erase c => s.headStep p erase c
  | .clear => .ok ({ s with log := { s.log with lh := [] } }.goto p (.commit (.head true .read)))
  | .done => .ok ({ s with log := s.log.endCommit }.goto p .outside)

/-- Whether a process that is not in `commit` may take the action: outside of an operation it only
    reads. -/
def mayCall (s : BufLog P) : BioAct P → Bool
  | .bread p _ _ | .brelse p _ => s.op p = .outside ∨ s.op p = .inOp
  | .modify p _ _ => s.op p = .inOp
  | .logWrite .. | .bwrite .. => false
  | .run _ | .ideintr => true

/-- An action of the buffer cache; a `bread` that returns hands its buffer to `commit`. -/
def bioStep (a : BioAct P) (s : BufLog P) : Except BufLogStop (BufLog P) :=
  if s.mayCall a then
    match BioSys.step a s.bio with
    | .error e => .error (.bio e)
    | .ok bio =>
      match a with
      | .run p =>
        match s.bio.returned p with
        | some b => .ok ({ s with bio := bio }.goto p ((s.op p).feed b))
        | none => .ok { s with bio := bio }
      | _ => .ok { s with bio := bio }
  else .error .disabled

def step (a : BufLogAct P) (s : BufLog P) : Except BufLogStop (BufLog P) :=
  match a with
  | .bio a => s.bioStep a
  | .beginOp p =>
    if s.op p = .outside ∧ s.bio.pc p = .idle ∧ s.log.mayBegin = true then
      .ok ({ s with log := s.log.beginOp, blocks := update s.blocks p [] }.goto p .inOp)
    else .error .disabled
  | .logWrite p b =>
    if s.op p = .inOp ∧ s.bio.pc p = .idle ∧ s.bio.holds p b = true ∧
      (s.bio.buf b).dev = rootDev then
      match s.log.checkSize with
      | .ok _ => .ok (s.goto p (.sizeOk b))
      | .error e => .error (.panic e)
    else .error .disabled
  | .check p =>
    match s.op p with
    | .sizeOk b =>
      match s.log.checkOutstanding with
      | .ok _ => .ok (s.goto p (.checked b))
      | .error e => .error (.panic e)
    | _ => .error .disabled
  | .append p =>
    match s.op p with
    | .checked b =>
      let w := (s.bio.buf b).blockno
      { s with
        log := s.log.append w
        blocks := update s.blocks p (w :: s.blocks p) }.call (.logWrite p b) p .inOp
    | _ => .error .disabled
  | .endOp p =>
    if s.op p = .inOp ∧ s.bio.pc p = .idle then
      match s.log.endOp with
      | .ok (true, l) => .ok ({ s with log := l }.goto p (.commit .test))
      | .ok (false, l) => .ok ({ s with log := l }.goto p .outside)
      | .error e => .error (.panic e)
    else .error .disabled
  | .commit p =>
    match s.op p with
    | .commit c => if s.bio.pc p = .idle then s.commitStep p c else .error .disabled
    | _ => .error .disabled

/-- The log is empty and no block is cached. -/
def init (start size : ℕ) (havedisk1 : Bool) (disk : Word × Word → Block) : BufLog P where
  bio := .init havedisk1 disk
  log := .init start size
  op _ := .outside
  blocks _ := []

end BufLog

end Xv6
