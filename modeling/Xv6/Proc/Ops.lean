import Xv6.Proc.Table

set_option autoImplicit false

/-! # The critical sections of `proc.c`

Each definition is one section that the kernel runs under `ptable.lock`, for both builds of the
source: `Build.table` finds processes by scanning `ptable.proc`, `Build.p3p4` (`CS333_P3P4`) by
walking the state lists. Where the source has two bodies for one function (`exit`, `wait`,
`wakeup1`, `kill`) the model has two as well; where it has one body with an `#ifdef` inside, so has
the model.

The calls that a section makes before it takes the lock or after it drops it (closing files, copying
the address space, freeing the kernel stack) do not touch the table and are left out. `fork` is cut
at its lock operations and at its stores to the child that happen without the lock. -/

namespace Xv6

open LinkedList

/-- Which `#ifdef CS333_P3P4` branches are compiled. -/
inductive Build
  | table | p3p4
  deriving DecidableEq, Repr

namespace PTable

/-! ## List bookkeeping shared by the transitions -/

variable (b : Build)

/-- Under `CS333_P3P4`: move `p` from one list to another, then `assertState`. -/
def relist (l l' : ListId) (p : Slot) (st : ProcState) (s : PTable) :
    Except Panic PTable :=
  match b with
  | .table => .ok s
  | .p3p4 => do
      let s ← transfer l l' p s
      assertState p st s
      .ok s

/-- Remove `p` from `l` and append it to `ready[p->priority]`. -/
def transferReady (l : ListId) (p : Slot) (s : PTable) : Except Panic PTable := do
  let s ← removeOrPanic l p s
  let r ← readyAt (s.proc p).priority
  addOrPanic r p s

/-- `relist` to the ready list of `p`'s priority. -/
def relistReady (l : ListId) (p : Slot) (s : PTable) : Except Panic PTable :=
  match b with
  | .table => .ok s
  | .p3p4 => do
      let s ← transferReady l p s
      assertState p .runnable s
      .ok s

/-- `for(p = l; p; p = p->next) body(p)` over the current members of a list. -/
def forList (l : ListId) (body : Slot → PTable → Except Panic PTable) (s : PTable) :
    Except Panic PTable :=
  walk next body .hang fuel (s.pLists l).head s

/-- The first member of a list that passes a test. -/
def findList (l : ListId) (test : Proc → Bool) (s : PTable) : Except Panic (Option Slot) :=
  search s.next (fun p => test (s.proc p)) .hang fuel (s.pLists l).head

/-- The first hit in a sequence of lists. -/
def findLists (ls : List ListId) (test : Proc → Bool) (s : PTable) :
    Except Panic (Option Slot) :=
  match ls with
  | [] => .ok none
  | l :: ls => do
      match ← findList l test s with
      | some p => .ok (some p)
      | none => findLists ls test s

/-- `ready[0]`, ..., `ready[MAXPRIO]`. -/
def readyLists : List ListId := (List.finRange (maxPrio + 1)).map .ready

/-- The lists that `exit` and `wait` search for children, besides `zombie`. -/
def childLists : List ListId := readyLists ++ [.sleep, .embryo, .running]

/-- `BUDGET*(priority+1)`. -/
def fullBudget (priority : ℕ) : Word := budget * BitVec.ofNat 32 (priority + 1)

/-- Charge the ticks since the last dispatch to the budget; an exhausted budget demotes. -/
def charge (ticks : Word) (pr : Proc) : Proc :=
  let left := pr.budget - (ticks - pr.cpuTicksIn)
  if left.toInt ≤ 0 then
    let priority := if pr.priority < maxPrio then pr.priority + 1 else pr.priority
    { pr with priority := priority, budget := fullBudget priority }
  else { pr with budget := left }

/-! ## `wakeup1` -/

variable (chan : Chan)

/-- `wakeup1`, table scan. -/
def wakeup1Table (s : PTable) : PTable :=
  (List.finRange nproc).foldl (fun s p =>
    if (s.proc p).state = .sleeping ∧ (s.proc p).chan = chan then s.setState p .runnable else s) s

variable (p : Slot)

/-- One turn of the `while(p)` loop of `wakeup1` (`CS333_P3P4`). -/
def wakeup1Body (s : PTable) : Except Panic PTable :=
  if (s.proc p).chan = chan then relistReady .p3p4 .sleep p (s.setState p .runnable) else .ok s

/-- `wakeup1` (`CS333_P3P4`). -/
def wakeup1List (s : PTable) : Except Panic PTable :=
  forList .sleep (wakeup1Body chan) s

def wakeup1 (s : PTable) : Except Panic PTable :=
  match b with
  | .table => .ok (wakeup1Table chan s)
  | .p3p4 => wakeup1List chan s

/-! ## Process creation -/

/-- The slot `allocproc` takes. -/
def findUnused (s : PTable) : Option Slot :=
  match b with
  | .table => (List.finRange nproc).find? (fun p => (s.proc p).state = .unused)
  | .p3p4 => (s.pLists .free).head

/-- The fields `allocproc` initialises. -/
def allocFields (pid ticks : Word) (pr : Proc) : Proc :=
  { pr with
    pid := pid, startTicks := ticks, uid := 0, gid := 0, cpuTicksIn := 0, cpuTicksTotal := 0,
    priority := 0, budget := budget }

/-- `allocproc` up to the release of the lock: the new `EMBRYO`, or none if the table is full. -/
def allocproc (s : PTable) : Except Panic (Option Slot × PTable) :=
  match findUnused b s with
  | none => .ok (none, s)
  | some p => do
      let s ← relist b .free .embryo p .embryo (s.setState p .embryo)
      let s := s.modify p (allocFields s.nextpid s.ticks)
      .ok (some p, { s with nextpid := s.nextpid + 1 })

/-- The way back when the kernel stack (`allocproc`) or the address space (`fork`) cannot be had. -/
def rollback (np : Slot) (s : PTable) : Except Panic PTable :=
  relist b .embryo .free np .unused (s.setState np .unused)

/-- `fork`: the stores to the child made before the lock is taken. -/
def forkCopy (q np : Slot) (s : PTable) : PTable :=
  s.modify np (fun pr => { pr with
    sz := (s.proc q).sz, parent := some q, name := (s.proc q).name })

/-- `fork`: the section that makes the child `RUNNABLE`. -/
def forkPublish (np : Slot) (s : PTable) : Except Panic PTable :=
  relistReady b .embryo np (s.setState np .runnable)

/-- `np->uid = proc->uid`, after the lock has been released. -/
def forkUid (q np : Slot) (s : PTable) : PTable :=
  s.modify np (fun pr => { pr with uid := (s.proc q).uid })

/-- `np->gid = proc->gid`, after the lock has been released. -/
def forkGid (q np : Slot) (s : PTable) : PTable :=
  s.modify np (fun pr => { pr with gid := (s.proc q).gid })

/-- `userinit`. The kernel stack and the page table of the first process must be available. -/
def userinit (ticks : Word) : Except Panic PTable := do
  let s ← match b with
    | .table => .ok (zero ticks)
    | .p3p4 => do
        let s ← initFreeList (initProcessLists (zero ticks))
        .ok { s with promoteAtTime := s.ticks + ticksToPromote }
  match ← allocproc b s with
  | (none, _) => .error .nullDeref
  | (some p, s) => do
      let s := { s with initproc := some p }
      let s := s.modify p (fun pr => { pr with sz := 4096, name := "initcode", state := .runnable })
      let s ← relistReady b .embryo p s
      .ok (s.modify p (fun pr => { pr with uid := 0, gid := 0 }))

/-! ## Giving up the CPU -/

/-- Charge the time slice (`CS333_P3P4`). -/
def chargeIn (ticks : Word) (pr : Proc) : Proc :=
  match b with
  | .table => pr
  | .p3p4 => charge ticks pr

variable (q : Slot)

/-- `yield` up to `sched`. The results of the two list calls are not looked at. -/
def yield (s : PTable) : Except Panic PTable :=
  let s := s.modify q (fun pr => chargeIn b s.ticks { pr with state := .runnable })
  match b with
  | .table => .ok s
  | .p3p4 => do
      let (_, s) ← stateListRemove .running q s
      let r ← readyAt (s.proc q).priority
      let (_, s) ← stateListAdd r q s
      assertState q .runnable s
      .ok s

/-- `sleep` up to `sched`. -/
def sleep (q : Slot) (s : PTable) : Except Panic PTable :=
  relist b .running .sleep q .sleeping
    (s.modify q (fun pr => chargeIn b s.ticks { pr with chan := chan, state := .sleeping }))

/-- The rest of `sleep`, run when the process is dispatched again. -/
def sleepReturn (s : PTable) : PTable :=
  s.modify q (fun pr => { pr with chan := .null })

/-! ## `exit` and `wait` -/

/-- Hand `p` to init if it is a child of `q`. -/
def reparent (q p : Slot) (s : PTable) : PTable :=
  if (s.proc p).parent = some q then s.modify p (fun pr => { pr with parent := s.initproc }) else s

/-- Pass abandoned children to init, table scan. -/
def abandonTable (s : PTable) : PTable :=
  (List.finRange nproc).foldl (fun s p =>
    if (s.proc p).parent = some q then
      let s := reparent q p s
      if (s.proc p).state = .zombie then wakeup1Table (.ofPtr s.initproc) s else s
    else s) s

/-- Pass abandoned children to init (`CS333_P3P4`): one loop over each list named here. -/
def abandonList (s : PTable) : Except Panic PTable :=
  childLists.foldlM (fun s l => forList l (fun p s => .ok (reparent q p s)) s) s

/-- `exit` up to `sched`, from the point where the files are closed. -/
def exit (s : PTable) : Except Panic PTable :=
  if s.initproc = some q then .error .initExiting
  else do
    let s ← wakeup1 b (.ofPtr (s.proc q).parent) s
    let s ← match b with
      | .table => .ok (abandonTable q s)
      | .p3p4 => abandonList q s
    relist b .running .zombie q .zombie (s.setState q .zombie)

/-- How one pass of the loop in `wait` ends. -/
inductive WaitResult
  | reaped (pid : Word)
  | noChildren
  | sleeps
  deriving DecidableEq, Repr

/-- The fields `wait` clears. -/
def reapFields (pr : Proc) : Proc :=
  { pr with pid := 0, parent := none, name := "", killed := false }

/-- Free the slot of the zombie `p`. -/
def reap (s : PTable) : Except Panic PTable := do
  let s ← relist b .zombie .free p .unused (s.setState p .unused)
  .ok (s.modify p reapFields)

/-- The zombie child that `wait` reaps. -/
def findZombie (s : PTable) : Except Panic (Option Slot) :=
  match b with
  | .table => .ok ((List.finRange nproc).find? (fun p =>
    (s.proc p).parent = some q ∧ (s.proc p).state = .zombie))
  | .p3p4 => findList .zombie (fun pr => pr.parent = some q) s

/-- Whether `wait` finds a child that is not a zombie. -/
def haveKids (s : PTable) : Except Panic Bool :=
  match b with
  | .table => .ok ((List.finRange nproc).any (fun p => (s.proc p).parent = some q))
  | .p3p4 => do
      let p ← findLists childLists (fun pr => pr.parent = some q) s
      .ok p.isSome

/-- One pass of the loop in `wait`. -/
def wait (s : PTable) : Except Panic (WaitResult × PTable) := do
  match ← findZombie b q s with
  | some p => do
      let s' ← reap b p s
      .ok (.reaped (s.proc p).pid, s')
  | none => do
      let kids ← haveKids b q s
      if !kids || (s.proc q).killed then .ok (.noChildren, s)
      else do
        let s ← sleep b (.proc q) q s
        .ok (.sleeps, s)

/-! ## `kill` and the priorities -/

/-- `p->killed = 1`. -/
def setKilled (s : PTable) : PTable := s.modify p (fun pr => { pr with killed := true })

/-- `kill`, table scan. -/
def killTable (pid : Word) (s : PTable) : Int × PTable :=
  match (List.finRange nproc).find? (fun p => (s.proc p).pid = pid) with
  | none => (-1, s)
  | some p =>
    let s := setKilled p s
    (0, if (s.proc p).state = .sleeping then s.setState p .runnable else s)

/-- The lists whose processes `kill` marks without waking them. -/
def awakeLists : List ListId := readyLists ++ [.running, .embryo, .zombie]

/-- `kill` (`CS333_P3P4`). -/
def killList (pid : Word) (s : PTable) : Except Panic (Int × PTable) := do
  match ← findLists awakeLists (fun pr => pr.pid = pid) s with
  | some p => .ok (0, setKilled p s)
  | none =>
    match ← findList .sleep (fun pr => pr.pid = pid) s with
    | none => .ok (-1, s)
    | some p => do
        let s ← transferReady .sleep p s
        let s := s.setState p .runnable
        assertState p .runnable s
        .ok (0, setKilled p s)

def kill (pid : Word) (s : PTable) : Except Panic (Int × PTable) :=
  match b with
  | .table => .ok (killTable pid s)
  | .p3p4 => killList pid s

/-- `priority -= 1` on a `uint`. -/
def decr (priority : ℕ) : ℕ := (priority + (2 ^ 32 - 1)) % 2 ^ 32

/-- Refill the budget of `p` for its priority. -/
def refill (s : PTable) : PTable :=
  s.modify p (fun pr => { pr with budget := fullBudget pr.priority })

/-- Move the `RUNNABLE` process `p` to the list of the priority that `f` computes. -/
def reprioritize (f : ℕ → ℕ) (p : Slot) (s : PTable) : Except Panic PTable := do
  let l ← readyAt (s.proc p).priority
  let s ← removeOrPanic l p s
  let s := s.modify p (fun pr => { pr with priority := f pr.priority })
  let l ← readyAt (s.proc p).priority
  addOrPanic l p s

/-- `setpriority` (`CS333_P3P4`). The range check accepts one value more than there are lists. -/
def setpriority (pid priority : Int) (s : PTable) : Except Panic (Int × PTable) :=
  if pid < 0 ∨ priority < 0 ∨ priority > maxPrio + 1 then .ok (-1, s)
  else do
    let isPid : Proc → Bool := fun pr => pr.pid = BitVec.ofInt 32 pid
    match ← findLists readyLists (fun pr => isPid pr ∧ priority ≠ pr.priority) s with
    | some p => do
        let s ← reprioritize (fun _ => priority.toNat) p s
        .ok (0, refill p s)
    | none =>
      match ← findLists [.sleep, .running] isPid s with
      | some p =>
        .ok (0, refill p (s.modify p (fun pr => { pr with priority := priority.toNat })))
      | none => .ok (-1, s)

/-- The body of the loop of `promoteAll` over `ready[i]`. -/
def promoteReady (i : Prio) (p : Slot) (s : PTable) : Except Panic PTable := do
  let s ← if 0 < i.val then reprioritize decr p s else .ok s
  .ok (refill p s)

/-- The body of the loops of `promoteAll` over `sleep` and `running`. -/
def promoteInPlace (s : PTable) : Except Panic PTable :=
  .ok (refill p (s.modify p (fun pr =>
    { pr with priority := if 0 < pr.priority then pr.priority - 1 else pr.priority })))

def promoteAll (s : PTable) : Except Panic PTable := do
  let s ← (List.finRange (maxPrio + 1)).foldlM
    (fun s i => forList (.ready i) (promoteReady i) s) s
  let s ← forList .sleep promoteInPlace s
  forList .running promoteInPlace s

/-! ## The scheduler -/

/-- The head of a scheduling pass: promote everybody if it is time (`CS333_P3P4`). -/
def promoteIfDue (s : PTable) : Except Panic PTable :=
  if s.promoteAtTime ≤ s.ticks then do
    let s ← promoteAll s
    .ok { s with promoteAtTime := s.ticks + ticksToPromote }
  else .ok s

/-- Where the loops of `scheduler` stand: in `ready[i]`, or in the scan of the table. -/
inductive Cursor
  | ready (i : Prio)
  | table
  deriving DecidableEq, Repr

/-- Switch to `p`, found at `cur`. -/
def dispatch (cur : Cursor) (p : Slot) (s : PTable) : Except Panic PTable := do
  let s := s.setState p .running
  let s ← match cur with
    | .table => .ok s
    | .ready i => relist .p3p4 (.ready i) .running p .running s
  .ok (s.modify p (fun pr => { pr with cpuTicksIn := s.ticks }))

/-- Back from `swtch`: account the time slice. -/
def accountSlice (s : PTable) : PTable :=
  s.modify p (fun pr => { pr with
    cpuTicksTotal := pr.cpuTicksTotal + (s.ticks - pr.cpuTicksIn) })

end PTable

end Xv6
