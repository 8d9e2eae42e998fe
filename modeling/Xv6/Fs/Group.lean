import Xv6.Fs.Log
import Xv6.Lib.Transition
import Mathlib.Data.Fintype.Basic

set_option autoImplicit false

/-! # Concurrent operations on the log

Any number of processes bracket their `log_write`s by `begin_op` and `end_op`. An action is one
critical section of `log.lock`, one of the two checks that `log_write` makes before it takes the
lock, or one step of `commit`, which runs without the lock; actions of different processes
interleave freely. A process inside `begin_op` may make another pass of its loop at any time, as
after a spurious wakeup.

Of the disk only the order of the writes matters here: `write_log` copies one block after the other,
`write_head` makes them durable, `install_trans` brings them home, and the header is erased.

Beside the program's state the model records which operation called `log_write` for which block and
which call of `commit` wrote them (`written`, `durable`). -/

namespace Xv6

open Function

/-- Where a process stands inside `commit`, or after it in `end_op`. -/
inductive CommitPc
  | test
  /-- In `write_log`, with the blocks it has copied. -/
  | writeLog (copied : List Word)
  | writeHead (copied : List Word)
  | installTrans (tail : ℕ)
  | clear
  | eraseHead
  | done
  deriving DecidableEq, Repr

/-- Where a process stands in its operation. -/
inductive LogPc
  | outside
  | beginOp
  | inOp
  /-- In `log_write`, past the check for the size. -/
  | sizeOk (w : Word)
  /-- In `log_write`, past both checks. -/
  | checked (w : Word)
  | commit (c : CommitPc)
  deriving DecidableEq, Repr

/-- Whether the process is between the return of `begin_op` and its `end_op`. -/
def LogPc.inProgress : LogPc → Bool
  | .inOp | .sizeOk _ | .checked _ => true
  | .outside | .beginOp | .commit _ => false

/-- Whether the process runs `commit`, or has not yet reported that it is over. -/
def LogPc.commits : LogPc → Bool
  | .commit _ => true
  | .outside | .beginOp | .inOp | .sizeOk _ | .checked _ => false

/-- What one call of `commit` made durable: the blocks it copied to the log, the blocks its header
    lists, and the `log_write`s since the call before it, each with its operation. -/
structure Durable where
  slots : List Word
  head : List Word
  writes : List (ℕ × Word)
  deriving DecidableEq, Repr

/-- The log and the processes `P` that use it. -/
structure Group (P : Type) where
  log : Log
  pc : P → LogPc
  /-- The number of the operation that each process is in, or was in last. -/
  op : P → ℕ
  /-- How many operations have begun, and how many had when a header was last written. -/
  ops : ℕ
  settled : ℕ
  /-- The `log_write`s since a header was last written. -/
  written : List (ℕ × Word)
  durable : List Durable

inductive GroupStop
  | panic (e : LogPanic)
  | disabled
  deriving DecidableEq, Repr

inductive GroupAct (P : Type)
  /-- Call `begin_op`. -/
  | call (p : P)
  /-- One pass of the loop of `begin_op`. -/
  | beginOp (p : P)
  /-- Call `log_write` and make its first check. -/
  | logWrite (p : P) (w : Word)
  /-- The second check of `log_write`. -/
  | check (p : P)
  /-- The section of `log_write` under the lock. -/
  | append (p : P)
  /-- The first section of `end_op`. -/
  | endOp (p : P)
  /-- The next step of `commit` or of `end_op` after it. -/
  | commit (p : P)
  deriving DecidableEq, Repr

namespace Group

variable {P : Type} [DecidableEq P]

def goto (p : P) (c : LogPc) (s : Group P) : Group P := { s with pc := update s.pc p c }

@[simp] theorem goto_pc_self (p : P) (c : LogPc) (s : Group P) : (goto p c s).pc p = c :=
  update_self ..

theorem goto_pc (p q : P) (c : LogPc) (s : Group P) :
    (goto p c s).pc q = if q = p then c else s.pc q :=
  update_apply ..

/-- One step of a process inside `commit`. -/
def commitStep (p : P) (s : Group P) : CommitPc → Group P
  | .test =>
    if 0 < s.log.lh.length then goto p (.commit (.writeLog [])) s else goto p (.commit .done) s
  | .writeLog copied =>
    match s.log.lh[copied.length]? with
    | some w => goto p (.commit (.writeLog (copied ++ [w]))) s
    | none => goto p (.commit (.writeHead copied)) s
  | .writeHead copied =>
    goto p (.commit (.installTrans 0))
      { s with
        durable := s.durable ++ [{ slots := copied, head := s.log.lh, writes := s.written }]
        written := []
        settled := s.ops }
  | .installTrans tail =>
    if tail < s.log.lh.length then goto p (.commit (.installTrans (tail + 1))) s
    else goto p (.commit .clear) s
  | .clear => goto p (.commit .eraseHead) { s with log := { s.log with lh := [] } }
  | .eraseHead => goto p (.commit .done) s
  | .done => goto p .outside { s with log := s.log.endCommit }

/-- One action; a process can take it only where its program has it. -/
def step (a : GroupAct P) (s : Group P) : Except GroupStop (Group P) :=
  match a with
  | .call p =>
    match s.pc p with
    | .outside => .ok (goto p .beginOp s)
    | _ => .error .disabled
  | .beginOp p =>
    match s.pc p with
    | .beginOp =>
      if s.log.mayBegin then
        .ok (goto p .inOp
          { s with
            log := s.log.beginOp
            op := update s.op p s.ops
            ops := s.ops + 1 })
      else .ok s
    | _ => .error .disabled
  | .logWrite p w =>
    match s.pc p with
    | .inOp =>
      match s.log.checkSize with
      | .ok _ => .ok (goto p (.sizeOk w) s)
      | .error e => .error (.panic e)
    | _ => .error .disabled
  | .check p =>
    match s.pc p with
    | .sizeOk w =>
      match s.log.checkOutstanding with
      | .ok _ => .ok (goto p (.checked w) s)
      | .error e => .error (.panic e)
    | _ => .error .disabled
  | .append p =>
    match s.pc p with
    | .checked w =>
      .ok (goto p .inOp
        { s with log := s.log.append w, written := s.written ++ [(s.op p, w)] })
    | _ => .error .disabled
  | .endOp p =>
    match s.pc p with
    | .inOp =>
      match s.log.endOp with
      | .ok (true, l) => .ok (goto p (.commit .test) { s with log := l })
      | .ok (false, l) => .ok (goto p .outside { s with log := l })
      | .error e => .error (.panic e)
    | _ => .error .disabled
  | .commit p =>
    match s.pc p with
    | .commit c => .ok (commitStep p s c)
    | _ => .error .disabled

/-- No operation has begun yet. -/
def init (start size : ℕ) : Group P where
  log := Log.init start size
  pc _ := .outside
  op _ := 0
  ops := 0
  settled := 0
  written := []
  durable := []

/-- What an action can do, with the conditions under which it does it. -/
inductive Effect (s : Group P) : GroupAct P → Group P → Prop
  | call {p : P} (hpc : s.pc p = .outside) : Effect s (.call p) (goto p .beginOp s)
  | begins {p : P} (hpc : s.pc p = .beginOp) (hmay : s.log.mayBegin = true) :
      Effect s (.beginOp p) (goto p .inOp
        { s with log := s.log.beginOp, op := update s.op p s.ops, ops := s.ops + 1 })
  | waits {p : P} (hpc : s.pc p = .beginOp) : Effect s (.beginOp p) s
  | sizeOk {p : P} {w : Word} (hpc : s.pc p = .inOp) (hsize : s.log.checkSize = .ok ()) :
      Effect s (.logWrite p w) (goto p (.sizeOk w) s)
  | checked {p : P} {w : Word} (hpc : s.pc p = .sizeOk w) :
      Effect s (.check p) (goto p (.checked w) s)
  | appends {p : P} {w : Word} (hpc : s.pc p = .checked w) :
      Effect s (.append p) (goto p .inOp
        { s with log := s.log.append w, written := s.written ++ [(s.op p, w)] })
  | lastEnds {p : P} (hpc : s.pc p = .inOp) (hcomm : s.log.committing = false)
      (hlast : s.log.outstanding = 1) :
      Effect s (.endOp p) (goto p (.commit .test)
        { s with log := { s.log with outstanding := 0, committing := true } })
  | ends {p : P} (hpc : s.pc p = .inOp) (hcomm : s.log.committing = false)
      (hmore : s.log.outstanding ≠ 1) :
      Effect s (.endOp p) (goto p .outside
        { s with log := { s.log with outstanding := s.log.outstanding - 1 } })
  | commits {p : P} {c : CommitPc} (hpc : s.pc p = .commit c) :
      Effect s (.commit p) (commitStep p s c)

theorem step_effect {a : GroupAct P} {s s' : Group P} (h : step a s = .ok s') : Effect s a s' := by
  cases a with
  | call p =>
    simp only [step] at h
    split at h
    · next hpc => cases h; exact .call hpc
    · cases h
  | beginOp p =>
    simp only [step] at h
    split at h
    · next hpc =>
        split_ifs at h with hmay
        · cases h; exact .begins hpc hmay
        · cases h; exact .waits hpc
    · cases h
  | logWrite p w =>
    simp only [step] at h
    split at h
    · next hpc =>
        split at h
        · next hsize => cases h; exact .sizeOk hpc hsize
        · cases h
    · cases h
  | check p =>
    simp only [step] at h
    split at h
    · next hpc =>
        split at h
        · cases h; exact .checked hpc
        · cases h
    · cases h
  | append p =>
    simp only [step] at h
    split at h
    · next hpc => cases h; exact .appends hpc
    · cases h
  | endOp p =>
    simp only [step] at h
    split at h
    · next hpc =>
        simp only [Log.endOp] at h
        by_cases hcomm : s.log.committing = true
        · rw [if_pos hcomm] at h
          cases h
        · rw [if_neg hcomm] at h
          by_cases hlast : s.log.outstanding = 1
          · rw [if_pos (by omega), hlast] at h
            cases h
            exact .lastEnds hpc (Bool.eq_false_of_not_eq_true hcomm) hlast
          · rw [if_neg (by omega)] at h
            cases h
            exact .ends hpc (Bool.eq_false_of_not_eq_true hcomm) hlast
    · cases h
  | commit p =>
    simp only [step] at h
    split at h
    · next hpc => cases h; exact .commits hpc
    · cases h

/-- Where a process can stop the kernel, and why. -/
inductive Panics (s : Group P) : GroupAct P → LogPanic → Prop
  | tooBig {p : P} {w : Word} (hpc : s.pc p = .inOp)
      (hsize : logSize ≤ s.log.lh.length ∨ (s.log.size : Int) - 1 ≤ s.log.lh.length) :
      Panics s (.logWrite p w) .tooBig
  | outside {p : P} {w : Word} (hpc : s.pc p = .sizeOk w) (hout : s.log.outstanding < 1) :
      Panics s (.check p) .outside
  | committing {p : P} (hpc : s.pc p = .inOp) (hcomm : s.log.committing = true) :
      Panics s (.endOp p) .committing

theorem step_panics {a : GroupAct P} {s : Group P} {e : LogPanic}
    (h : step a s = .error (.panic e)) : Panics s a e := by
  cases a with
  | call p =>
    simp only [step] at h
    split at h <;> cases h
  | beginOp p =>
    simp only [step] at h
    split at h
    · split_ifs at h
    · cases h
  | logWrite p w =>
    simp only [step, Log.checkSize] at h
    split at h
    · next hpc =>
        split_ifs at h with hsize
        · cases h
          exact .tooBig hpc hsize
    · cases h
  | check p =>
    simp only [step, Log.checkOutstanding] at h
    split at h
    · next hpc =>
        split_ifs at h with hout
        · cases h
          exact .outside hpc hout
    · cases h
  | append p =>
    simp only [step] at h
    split at h <;> cases h
  | endOp p =>
    simp only [step, Log.endOp] at h
    split at h
    · next hpc =>
        split_ifs at h with hcomm
        · cases h
          exact .committing hpc hcomm
    · cases h
  | commit p =>
    simp only [step] at h
    split at h <;> cases h

end Group

end Xv6
