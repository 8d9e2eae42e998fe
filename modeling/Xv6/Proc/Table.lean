import Xv6.Param
import Xv6.Lib.Chain

set_option autoImplicit false

/-! # The process table and its state lists (`proc.h`, `proc.c`)

`ptable` is an array of `nproc` process slots. In the `CS333_P3P4` build every slot is also a node
of one of twelve singly linked lists that share the slot's `next` field: one list per process state,
and for `RUNNABLE` one per priority. A list is a head and a tail pointer in `pLists`.

A `struct proc *` is an `Option Slot`; null is `none`. Of `struct proc` the model keeps every field
that scheduling, process creation and termination read or write; the address space, the kernel stack
and the open files are left out, and whether an allocation for them succeeds is an input.

`stateListAdd` and `stateListRemove` follow the pointer assignments of the source one by one. In
particular removing the head of a list leaves both the tail pointer and the removed node's `next` as
they were. A `while` loop over a list that has become cyclic never ends; with fuel for more nodes
than there are slots, running out of fuel means exactly that, and the loop reports `Panic.hang`. -/

namespace Xv6

open Function LinkedList

/-! ## Data -/

/-- `enum procstate`. -/
inductive ProcState
  | unused | embryo | sleeping | runnable | running | zombie
  deriving DecidableEq, Repr

/-- An entry of `ptable.proc`. -/
abbrev Slot := Fin nproc

/-- A scheduling priority that indexes the `ready` array. -/
abbrev Prio := Fin (maxPrio + 1)

/-- A `void *chan`: null, the address of a process slot (used by `wait`), or any other address. -/
inductive Chan
  | null
  | proc (p : Slot)
  | addr (n : ℕ)
  deriving DecidableEq, Repr

/-- `wakeup1((void *)p)` for a process pointer `p`. -/
def Chan.ofPtr : Option Slot → Chan
  | none => .null
  | some p => .proc p

/-- `struct proc`. -/
structure Proc where
  state : ProcState := .unused
  pid : Word := 0
  parent : Option Slot := none
  chan : Chan := .null
  killed : Bool := false
  sz : Word := 0
  name : String := ""
  startTicks : Word := 0
  uid : Word := 0
  gid : Word := 0
  cpuTicksTotal : Word := 0
  cpuTicksIn : Word := 0
  next : Option Slot := none
  budget : Word := 0
  priority : ℕ := 0
  deriving DecidableEq, Repr

/-- The lists of `struct StateLists`. -/
inductive ListId
  | ready (i : Prio)
  | free | sleep | zombie | running | embryo
  deriving DecidableEq, Repr

/-- A list's head and tail pointers. -/
structure Ends where
  head : Option Slot := none
  tail : Option Slot := none
  deriving DecidableEq, Repr

/-- `ptable` with the globals of `proc.c`, and the tick counter. -/
structure PTable where
  proc : Slot → Proc
  pLists : ListId → Ends
  promoteAtTime : Word
  initproc : Option Slot
  nextpid : Word
  ticks : Word

/-- The stops of the kernel that the process code can reach: its panics, an access through a null
    pointer or outside an array, and a loop that never ends. -/
inductive Panic
  | removing (l : ListId)
  | adding (l : ListId)
  | assertState
  | initExiting
  | nullDeref
  | outOfBounds
  | hang
  deriving DecidableEq, Repr

namespace PTable

/-! ## Field updates -/

variable (s : PTable)

/-- Assign to fields of slot `p`. -/
def modify (p : Slot) (f : Proc → Proc) : PTable :=
  { s with proc := update s.proc p (f (s.proc p)) }

/-- The `next` fields as a link function. -/
def next (p : Slot) : Option Slot := (s.proc p).next

def setNext (p : Slot) (v : Option Slot) : PTable :=
  s.modify p (fun pr => { pr with next := v })

variable (l : ListId)

def setHead (v : Option Slot) : PTable :=
  { s with pLists := update s.pLists l { s.pLists l with head := v } }

def setTail (v : Option Slot) : PTable :=
  { s with pLists := update s.pLists l { s.pLists l with tail := v } }

def setState (p : Slot) (st : ProcState) : PTable :=
  s.modify p (fun pr => { pr with state := st })

/-! ## List primitives -/

/-- Enough steps for every list without a cycle. -/
abbrev fuel : ℕ := nproc

/-- `stateListAdd(&l.head, &l.tail, p)`. -/
def stateListAdd (p : Slot) (s : PTable) : Except Panic (Int × PTable) :=
  match (s.pLists l).head with
  | none => .ok (0, ((s.setHead l (some p)).setTail l (some p)).setNext p none)
  | some _ =>
    match (s.pLists l).tail with
    | none => .error .nullDeref
    | some t =>
      -- `*tail = (*tail)->next` reads back the link just stored, which is `p`
      .ok (0, ((s.setNext t (some p)).setTail l (some p)).setNext p none)

/-- The `while(current)` loop of `stateListRemove`: the final `previous` and `current`. -/
def findPrevious (next : Slot → Option Slot) (p : Slot) :
    ℕ → Option Slot → Option Slot → Except Panic (Option Slot × Option Slot)
  | _, previous, none => .ok (previous, none)
  | 0, _, some _ => .error .hang
  | fuel + 1, previous, some current =>
    if current = p then .ok (previous, some current)
    else findPrevious next p fuel (some current) (next current)

/-- `stateListRemove(&l.head, &l.tail, p)`. -/
def stateListRemove (p : Slot) (s : PTable) : Except Panic (Int × PTable) :=
  match (s.pLists l).head, (s.pLists l).tail with
  | none, _ => .ok (-1, s)
  | some _, none => .ok (-1, s)
  | some h, some t =>
    -- the head case touches neither the tail nor `p->next`
    if h = p then .ok (0, s.setHead l (s.next h))
    else do
      let (previous, current) ← findPrevious s.next p fuel none (some h)
      match current, previous with
      | none, _ => .ok (-1, s)
      | some _, none => .error .nullDeref
      | some c, some q =>
        let s := if c = t then (s.setTail l (some q)).setNext q none
                 else s.setNext q (s.next c)
        .ok (0, s.setNext p none)

/-- `if(stateListRemove(..)) panic("error removing from ..")`. -/
def removeOrPanic (p : Slot) (s : PTable) : Except Panic PTable := do
  let (r, s) ← stateListRemove l p s
  if r ≠ 0 then .error (.removing l) else .ok s

/-- `if(stateListAdd(..)) panic("error adding to ..")`. -/
def addOrPanic (p : Slot) (s : PTable) : Except Panic PTable := do
  let (r, s) ← stateListAdd l p s
  if r ≠ 0 then .error (.adding l) else .ok s

/-- `assertState(p, state)`. -/
def assertState (p : Slot) (st : ProcState) (s : PTable) : Except Panic Unit :=
  if (s.proc p).state = st then .ok () else .error .assertState

/-- `ready[i]` for an index read from memory. -/
def readyAt (i : ℕ) : Except Panic ListId :=
  if h : i < maxPrio + 1 then .ok (.ready ⟨i, h⟩) else .error .outOfBounds

/-- Move `p` between two lists, both calls checked: the pattern of nearly every transition. -/
def transfer (a b : ListId) (p : Slot) (s : PTable) : Except Panic PTable := do
  let s ← removeOrPanic a p s
  addOrPanic b p s

/-! ## Initialisation -/

/-- The zero-initialised table. -/
def zero (ticks : Word) : PTable where
  proc := fun _ => {}
  pLists := fun _ => {}
  promoteAtTime := 0
  initproc := none
  nextpid := 1
  ticks := ticks

def initProcessLists : PTable := { s with pLists := fun _ => {} }

def initFreeList : Except Panic PTable :=
  (List.finRange nproc).foldlM (fun s p => do
    let (_, s) ← stateListAdd .free p (s.setState p .unused)
    .ok s) s

end PTable

end Xv6
