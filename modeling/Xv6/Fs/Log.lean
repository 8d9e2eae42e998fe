import Xv6.Fs.Bio

set_option autoImplicit false

/-! # The log (`log.c`)

The on-disk log is a header block, which holds a count and that many block numbers, followed by the
logged blocks. In memory `struct logheader` is the list of block numbers logged so far; only its
first `n` entries are ever read.

Each function follows its source function with the calls to the buffer cache in the same order. What
`read_head` would do with a count that its array has no room for is not modelled: it stops
(`LogPanic.outOfBounds`). -/

namespace Xv6

/-- The stops of the kernel in `log.c`. -/
inductive LogPanic
  | tooBig
  | outside
  | committing
  | outOfBounds
  deriving DecidableEq, Repr

/-- `struct log`. -/
structure Log where
  start : ℕ
  size : ℕ
  outstanding : Int
  committing : Bool
  lh : List Word
  deriving DecidableEq, Repr

/-! ## The header block -/

/-- The `i`-th word of a block. -/
def Block.word (blk : Block) (i : ℕ) : Word := blk (Fin.ofNat _ i)

/-- The header that `write_head` leaves in a block that held `old`. -/
def encodeHead (lh : List Word) (old : Block) : Block := fun i =>
  if i.val = 0 then BitVec.ofNat 32 lh.length
  else match lh[i.val - 1]? with
    | some w => w
    | none => old i

/-- The header that `read_head` reads, if its array can hold it. -/
def decodeHead (blk : Block) : Option (List Word) :=
  let n := (Block.word blk 0).toInt.toNat
  if n ≤ logSize then some ((List.range n).map (fun i => Block.word blk (i + 1))) else none

namespace Log

/-- The log as `initlog` sets it up, once the log on the disk has been recovered. -/
def init (start size : ℕ) : Log :=
  { start, size, outstanding := 0, committing := false, lh := [] }

/-! ## Commit -/

/-- `write_log`, from the log block `tail` on. -/
def writeLog (start : ℕ) : ℕ → List Word → Dev → Dev
  | _, [], d => d
  | tail, w :: lh, d =>
    let (_, d) := Dev.bread (start + tail + 1) d
    let (data, d) := Dev.bread w.toNat d
    writeLog start (tail + 1) lh (Dev.bwrite (start + tail + 1) data d)

/-- `install_trans`, from the log block `tail` on. -/
def installTrans (start : ℕ) : ℕ → List Word → Dev → Dev
  | _, [], d => d
  | tail, w :: lh, d =>
    let (data, d) := Dev.bread (start + tail + 1) d
    let (_, d) := Dev.bread w.toNat d
    installTrans start (tail + 1) lh (Dev.bwrite w.toNat data d)

/-- `write_head`. -/
def writeHead (start : ℕ) (lh : List Word) (d : Dev) : Dev :=
  let (buf, d) := Dev.bread start d
  Dev.bwrite start (encodeHead lh buf) d

variable (l : Log)

def commit (d : Dev) : Log × Dev :=
  if 0 < l.lh.length then
    let d := writeLog l.start 0 l.lh d
    let d := writeHead l.start l.lh d
    let d := installTrans l.start 0 l.lh d
    ({ l with lh := [] }, writeHead l.start [] d)
  else (l, d)

/-! ## Recovery -/

/-- `read_head`. -/
def readHead (start : ℕ) (d : Dev) : Except LogPanic (List Word × Dev) :=
  let (buf, d) := Dev.bread start d
  match decodeHead buf with
  | some lh => .ok (lh, d)
  | none => .error .outOfBounds

/-- `recover_from_log`. -/
def recoverFromLog (start : ℕ) (d : Dev) : Except LogPanic Dev := do
  let (lh, d) ← readHead start d
  let d := installTrans start 0 lh d
  .ok (writeHead start [] d)

/-! ## `log_write`, `begin_op` and `end_op` -/

/-- The first check of `log_write`, made before `log.lock` is taken. -/
def checkSize : Except LogPanic Unit :=
  if logSize ≤ l.lh.length ∨ (l.size : Int) - 1 ≤ l.lh.length then .error .tooBig else .ok ()

/-- The second check of `log_write`, also made before `log.lock` is taken. -/
def checkOutstanding : Except LogPanic Unit :=
  if l.outstanding < 1 then .error .outside else .ok ()

/-- The search for the block number in `log.lh`, with absorption. -/
def absorb (w : Word) : List Word → List Word
  | [] => [w]
  | x :: lh => if x = w then w :: lh else x :: absorb w lh

variable {lh : List Word}

theorem mem_absorb {w x : Word} : x ∈ absorb w lh ↔ x = w ∨ x ∈ lh := by
  fun_induction absorb w lh with
  | case1 => simp
  | case2 lh => simp
  | case3 y lh hne ih =>
    simp only [List.mem_cons, ih]
    exact or_left_comm

theorem length_absorb_le (w : Word) (lh : List Word) : (absorb w lh).length ≤ lh.length + 1 := by
  fun_induction absorb w lh with
  | case1 => simp
  | case2 lh => simp
  | case3 y lh hne ih => simpa using ih

theorem length_absorb_of_mem {w : Word} (h : w ∈ lh) :
    (absorb w lh).length = lh.length := by
  fun_induction absorb w lh with
  | case1 => cases h
  | case2 lh => rfl
  | case3 y lh hne ih =>
    rcases List.mem_cons.1 h with rfl | hmem
    · exact absurd rfl hne
    · simp [ih hmem]

theorem nodup_absorb {w : Word} (h : lh.Nodup) : (absorb w lh).Nodup := by
  fun_induction absorb w lh with
  | case1 => simp
  | case2 lh => exact h
  | case3 y lh hne ih =>
    obtain ⟨hy, hlh⟩ := List.nodup_cons.1 h
    refine List.nodup_cons.2 ⟨?_, ih hlh⟩
    rw [mem_absorb]
    rintro (rfl | hmem)
    · exact hne rfl
    · exact hy hmem

/-- The part of `log_write` under `log.lock`. -/
def append (w : Word) (l : Log) : Log := { l with lh := absorb w l.lh }

/-- `log_write` of block `w`, run without interruption. -/
def logWrite (w : Word) (l : Log) : Except LogPanic Log := do
  checkSize l
  checkOutstanding l
  .ok (append w l)

/-- The test that `begin_op` repeats: whether the operation may start. -/
def mayBegin : Bool :=
  !l.committing && decide (l.lh.length + (l.outstanding + 1) * maxOpBlocks ≤ logSize)

/-- `begin_op` once the test has passed. -/
def beginOp : Log := { l with outstanding := l.outstanding + 1 }

/-- `end_op` up to the release of `log.lock`: whether this operation must commit. -/
def endOp : Except LogPanic (Bool × Log) :=
  let l := { l with outstanding := l.outstanding - 1 }
  if l.committing then .error .committing
  else if l.outstanding = 0 then .ok (true, { l with committing := true })
  else .ok (false, l)

/-- `end_op` after `commit` has returned. -/
def endCommit : Log := { l with committing := false }

end Log

end Xv6
