import Xv6.Proc.Ops
import Xv6.Lib.Transition
import Xv6.Lib.Stoppable

set_option autoImplicit false

/-! # Processes and schedulers on many CPUs

The state of the whole machine is the process table, the point each process has reached inside the
kernel (`Kont`), and what each CPU is doing (`CpuState`). An action is one critical section of one
CPU, or one store that the kernel makes without holding `ptable.lock`; actions of different CPUs
interleave freely.

`lock` is the CPU that holds `ptable.lock` *between* actions. Only the scheduler does that: its loop
keeps the lock from `acquire` to the dispatch of a process, which releases it, and gets it back with
the process that calls `sched`. So `exit`, `sleep` and `yield` leave the lock with the scheduler of
their CPU, which goes on with `p = p->next` (`CpuState.back`).

A failed `fork` or `allocproc` undoes its work in one section (`forkFail`), as `fork` does when the
address space cannot be copied.

Where a process goes on inside the kernel after `sleep` returns is left open, except in `wait`,
which makes another pass. Any process may call any section at any time it is not inside `fork` or
`wait`; `wakeup` and `kill` need no process at all (a timer interrupt calls `wakeup` on an idle
CPU). -/

namespace Xv6

open Transition PTable

/-- Where a process stands inside the kernel. -/
inductive Kont
  | run
  | sleep
  | wait
  /-- `fork` has `np` from `allocproc` and has not yet stored `np->parent`. -/
  | forkAlloc (np : Slot)
  /-- `fork` is about to take the lock to make `np` runnable. -/
  | forkReady (np : Slot)
  /-- `fork` has released the lock; `np->uid` and `np->gid` are still to be stored. -/
  | forkUid (np : Slot)
  | forkGid (np : Slot)
  deriving DecidableEq, Repr

/-- What a CPU is doing. -/
inductive CpuState
  | idle
  /-- At the test of the scheduler's inner loop, with the loop variable `p`. -/
  | loop (cur : Cursor) (p : Option Slot)
  /-- Switched to the process `p`. -/
  | run (cur : Cursor) (p : Slot)
  /-- Just switched back from `p`. -/
  | back (cur : Cursor) (p : Slot)
  deriving DecidableEq, Repr

structure Sys where
  pt : PTable
  kont : Slot → Kont
  cpu : ℕ → CpuState
  lock : Option ℕ

inductive Act
  | tick
  | schedEnter (c : ℕ)
  | schedStep (c : ℕ)
  | forkAlloc (c : ℕ)
  | forkFail (c : ℕ)
  | forkCopy (c : ℕ)
  | forkPublish (c : ℕ)
  | forkUid (c : ℕ)
  | forkGid (c : ℕ)
  | exit (c : ℕ)
  | wait (c : ℕ)
  | yield (c : ℕ)
  | sleep (c : ℕ) (chan : Chan)
  | wakeup (chan : Chan)
  | kill (pid : Word)
  | setpriority (pid priority : Int)
  | setuid (c : ℕ) (uid : Int)
  | setgid (c : ℕ) (gid : Int)
  | execSetuid (c : ℕ) (uid : BitVec 16)
  deriving DecidableEq, Repr

/-- Why an action has no next state: it cannot be taken here, or the kernel stops. -/
inductive Halt
  | disabled
  | panic (e : Panic)
  deriving DecidableEq, Repr

/-- Run a section of the process code. -/
def runSection {α : Type} (x : Except Panic α) : Except Halt α := x.mapError .panic

namespace Sys

variable (s : Sys)

def setKont (q : Slot) (k : Kont) : Sys := { s with kont := Function.update s.kont q k }

def setCpu (c : ℕ) (x : CpuState) : Sys := { s with cpu := Function.update s.cpu c x }

/-- `sched()`: CPU `c` switches from `q` back to its scheduler, which now holds the lock. -/
def sched (c : ℕ) (cur : Cursor) (q : Slot) : Sys :=
  { s.setCpu c (.back cur q) with lock := some c }

/-- The slot after `p` in the table. -/
def slotAfter (p : Slot) : Option Slot :=
  if h : p.val + 1 < nproc then some ⟨p.val + 1, h⟩ else none

/-- The step of the loop at `cur`: `p = p->next`, or `p++`. -/
def advance (cur : Cursor) (p : Slot) : Option Slot :=
  match cur with
  | .ready _ => s.pt.next p
  | .table => slotAfter p

/-- The first value of the loop variable at `cur`. -/
def first (cur : Cursor) : Option Slot :=
  match cur with
  | .ready i => (s.pt.pLists (.ready i)).head
  | .table => some 0

/-- The process goes on where it called `sched`. -/
def resume (p : Slot) : Sys :=
  match s.kont p with
  | .sleep => { s with pt := sleepReturn p s.pt }.setKont p .run
  | .wait => { s with pt := sleepReturn p s.pt }
  | _ => s

variable (b : Build)

/-- `scheduler`: take the lock and start the loops. -/
def schedEnter (c : ℕ) (s : Sys) : Except Halt Sys :=
  if s.lock = none ∧ s.cpu c = .idle then
    match b with
    | .table => .ok { s.setCpu c (.loop .table (s.first .table)) with lock := some c }
    | .p3p4 => do
        let pt ← runSection (promoteIfDue s.pt)
        let s := { s with pt := pt }
        .ok { s.setCpu c (.loop (.ready 0) (s.first (.ready 0))) with lock := some c }
  else .error .disabled

/-- `release(&ptable.lock)` after the loops. -/
def schedLeave (c : ℕ) (s : Sys) : Sys := { s.setCpu c .idle with lock := none }

/-- The scheduler of CPU `c` switches to `p`, which releases the lock. -/
def schedSwitch (c : ℕ) (cur : Cursor) (p : Slot) (s : Sys) : Except Halt Sys := do
  let pt ← runSection (dispatch cur p s.pt)
  let s := resume { s with pt := pt } p
  .ok { s.setCpu c (.run cur p) with lock := none }

/-- One step of the scheduler of CPU `c` while it holds the lock. -/
def schedStep (c : ℕ) (s : Sys) : Except Halt Sys :=
  if s.lock = some c then
    match s.cpu c with
    | .loop (.ready i) none =>
      if h : i.val + 1 < maxPrio + 1 then
        .ok (s.setCpu c (.loop (.ready ⟨i.val + 1, h⟩) (s.first (.ready ⟨i.val + 1, h⟩))))
      else .ok (s.schedLeave c)
    | .loop .table none => .ok (s.schedLeave c)
    | .loop (.ready i) (some p) => s.schedSwitch c (.ready i) p
    | .loop .table (some p) =>
      if (s.pt.proc p).state = .runnable then s.schedSwitch c .table p
      else .ok (s.setCpu c (.loop .table (slotAfter p)))
    | .back cur p =>
      let s := { s with pt := accountSlice p s.pt }
      .ok (s.setCpu c (.loop cur (s.advance cur p)))
    | _ => .error .disabled
  else .error .disabled

/-- Let the process running on CPU `c` act. -/
def asProc (c : ℕ) (f : Cursor → Slot → Except Halt Sys) : Except Halt Sys :=
  match s.cpu c with
  | .run cur q => f cur q
  | _ => .error .disabled

/-- Continue only if `P` holds. -/
def guarded (P : Prop) [Decidable P] (x : Except Halt Sys) : Except Halt Sys :=
  if P then x else .error .disabled

/-- Act on the child that the `fork` of `q` is working on, at the point `k` selects. -/
def onChild (q : Slot) (k : Kont → Option Slot) (f : Slot → Except Halt Sys) :
    Except Halt Sys :=
  match k (s.kont q) with
  | some np => f np
  | none => .error .disabled

def Kont.atAlloc : Kont → Option Slot | .forkAlloc np => some np | _ => none
def Kont.atReady : Kont → Option Slot | .forkReady np => some np | _ => none
def Kont.atUid : Kont → Option Slot | .forkUid np => some np | _ => none
def Kont.atGid : Kont → Option Slot | .forkGid np => some np | _ => none

/-- `sys_setuid` and `sys_setgid` accept 0..32767. -/
def validId (id : Int) : Prop := 0 ≤ id ∧ id ≤ 32767

instance (id : Int) : Decidable (validId id) := inferInstanceAs (Decidable (_ ∧ _))

/-- One action of the machine. -/
def step (a : Act) (s : Sys) : Except Halt Sys :=
  match a with
  | .tick => .ok { s with pt := { s.pt with ticks := s.pt.ticks + 1 } }
  | .schedEnter c => s.schedEnter b c
  | .schedStep c => s.schedStep c
  | .forkAlloc c => s.asProc c fun _ q => guarded (s.lock = none ∧ s.kont q = .run) do
      let (np, pt) ← runSection (allocproc b s.pt)
      match np with
      | none => .ok { s with pt := pt }
      | some np => .ok ({ s with pt := pt }.setKont q (.forkAlloc np))
  | .forkFail c => s.asProc c fun _ q => guarded (s.lock = none) <|
      s.onChild q Kont.atAlloc fun np => do
        let pt ← runSection (rollback b np s.pt)
        .ok ({ s with pt := pt }.setKont q .run)
  | .forkCopy c => s.asProc c fun _ q => s.onChild q Kont.atAlloc fun np =>
    .ok ({ s with pt := forkCopy q np s.pt }.setKont q (.forkReady np))
  | .forkPublish c => s.asProc c fun _ q => guarded (s.lock = none) <|
      s.onChild q Kont.atReady fun np => do
        let pt ← runSection (forkPublish b np s.pt)
        .ok ({ s with pt := pt }.setKont q (.forkUid np))
  | .forkUid c => s.asProc c fun _ q => s.onChild q Kont.atUid fun np =>
    .ok ({ s with pt := forkUid q np s.pt }.setKont q (.forkGid np))
  | .forkGid c => s.asProc c fun _ q => s.onChild q Kont.atGid fun np =>
    .ok ({ s with pt := forkGid q np s.pt }.setKont q .run)
  | .exit c => s.asProc c fun cur q => guarded (s.lock = none ∧ s.kont q = .run) do
      let pt ← runSection (exit b q s.pt)
      .ok ({ s with pt := pt }.sched c cur q)
  | .wait c => s.asProc c fun cur q =>
    guarded (s.lock = none ∧ (s.kont q = .run ∨ s.kont q = .wait)) do
      let (r, pt) ← runSection (wait b q s.pt)
      let s := { s with pt := pt }
      if r = .sleeps then .ok ((s.setKont q .wait).sched c cur q) else .ok (s.setKont q .run)
  | .yield c => s.asProc c fun cur q => guarded (s.lock = none) do
      let pt ← runSection (yield b q s.pt)
      .ok ({ s with pt := pt }.sched c cur q)
  | .sleep c chan => s.asProc c fun cur q => guarded (s.lock = none ∧ s.kont q = .run) do
      let pt ← runSection (sleep b chan q s.pt)
      .ok (({ s with pt := pt }.setKont q .sleep).sched c cur q)
  | .wakeup chan => guarded (s.lock = none) do
      let pt ← runSection (wakeup1 b chan s.pt)
      .ok { s with pt := pt }
  | .kill pid => guarded (s.lock = none) do
      let (_, pt) ← runSection (kill b pid s.pt)
      .ok { s with pt := pt }
  | .setpriority pid priority => guarded (b = .p3p4 ∧ s.lock = none) do
      let (_, pt) ← runSection (setpriority pid priority s.pt)
      .ok { s with pt := pt }
  | .setuid c uid => s.asProc c fun _ q => guarded (s.kont q = .run ∧ validId uid) <|
      .ok { s with pt := s.pt.modify q (fun pr => { pr with uid := BitVec.ofInt 32 uid }) }
  | .setgid c gid => s.asProc c fun _ q => guarded (s.kont q = .run ∧ validId gid) <|
      .ok { s with pt := s.pt.modify q (fun pr => { pr with gid := BitVec.ofInt 32 gid }) }
  | .execSetuid c uid => s.asProc c fun _ q => guarded (s.kont q = .run) <|
      .ok { s with pt := s.pt.modify q (fun pr => { pr with uid := uid.setWidth 32 }) }

theorem asProc_run {s : Sys} {c : ℕ} {cur : Cursor} {q : Slot} (hc : s.cpu c = .run cur q)
    (f : Cursor → Slot → Except Halt Sys) : s.asProc c f = f cur q := by
  simp only [asProc, hc]

variable {k : Kont → Option Slot}

theorem onChild_some {s : Sys} {q np : Slot} (hk : k (s.kont q) = some np)
    (f : Slot → Except Halt Sys) : s.onChild q k f = f np := by
  simp only [onChild, hk]

/-! ### What an action leads to, if it is possible -/

section Leads

open Stoppable

variable {Q : Sys → Prop} {s : Sys} {c : ℕ}

theorem yields_asProc {f : Cursor → Slot → Except Halt Sys}
    (hf : ∀ cur q, s.cpu c = .run cur q → Yields (fun _ => True) Q (f cur q)) :
    Yields (fun _ => True) Q (s.asProc c f) := by
  unfold asProc
  split
  · next cur q hc => exact hf cur q hc
  · exact .error trivial

theorem yields_guarded {C : Prop} [Decidable C] {x : Except Halt Sys}
    (hx : C → Yields (fun _ => True) Q x) : Yields (fun _ => True) Q (guarded C x) := by
  unfold guarded
  split
  · next hC => exact hx hC
  · exact .error trivial

theorem yields_onChild {q : Slot} {f : Slot → Except Halt Sys}
    (hf : ∀ np, k (s.kont q) = some np → Yields (fun _ => True) Q (f np)) :
    Yields (fun _ => True) Q (s.onChild q k f) := by
  unfold onChild
  split
  · next np hk => exact hf np hk
  · exact .error trivial

theorem yields_section {α : Type} {y : Except Panic α} {f : α → Except Halt Sys}
    (hf : ∀ v, y = .ok v → Yields (fun _ => True) Q (f v)) :
    Yields (fun _ => True) Q (runSection y >>= f) := by
  cases y with
  | error e => exact .error trivial
  | ok v => exact hf v rfl

variable {C : Slot → Prop} [∀ q, Decidable (C q)] {α : Type} {y : Slot → Except Panic α}

/-- A process takes the lock and runs `y`. -/
theorem yields_locked {f : Cursor → Slot → α → Except Halt Sys}
    (hf : ∀ cur q, s.cpu c = .run cur q → C q → ∀ v, y q = .ok v →
      Yields (fun _ => True) Q (f cur q v)) :
    Yields (fun _ => True) Q (s.asProc c fun cur q => guarded (C q) (runSection (y q) >>= f cur q)) :=
  yields_asProc fun cur q hc => yields_guarded fun hC => yields_section (hf cur q hc hC)

/-- A process stores into its own slot. -/
theorem yields_own {f : Slot → Sys} (hf : ∀ cur q, s.cpu c = .run cur q → C q → Q (f q)) :
    Yields (fun _ => True) Q (s.asProc c fun _ q => guarded (C q) (.ok (f q))) :=
  yields_asProc fun cur q hc => yields_guarded fun hC => .ok (hf cur q hc hC)

/-- A process that forks stores into the slot of its child. -/
theorem yields_child {f : Slot → Slot → Sys}
    (hf : ∀ cur q np, s.cpu c = .run cur q → k (s.kont q) = some np → Q (f q np)) :
    Yields (fun _ => True) Q (s.asProc c fun _ q => s.onChild q k fun np => .ok (f q np)) :=
  yields_asProc fun cur q hc => yields_onChild fun np hk => .ok (hf cur q np hc hk)

/-- A process that forks takes the lock and runs `y` on its child. -/
theorem yields_lockedChild {C : Prop} [Decidable C] {f : Slot → Slot → α → Except Halt Sys}
    (hf : ∀ cur q np, s.cpu c = .run cur q → C → k (s.kont q) = some np → ∀ v, y np = .ok v →
      Yields (fun _ => True) Q (f q np v)) :
    Yields (fun _ => True) Q (s.asProc c fun _ q => guarded C <|
      s.onChild q k fun np => runSection (y np) >>= f q np) :=
  yields_asProc fun cur q hc => yields_guarded fun hC => yields_onChild fun np hk =>
    yields_section (hf cur q np hc hC hk)

end Leads

/-- The machine when `main` has called `userinit` and the CPUs enter `scheduler`. -/
def boot (pt : PTable) : Sys where
  pt := pt
  kont := fun _ => .run
  cpu := fun _ => .idle
  lock := none

def Init (s : Sys) : Prop := ∃ ticks pt, userinit b ticks = .ok pt ∧ s = boot pt

/-- `setpriority` is only called with a priority that has a list. -/
def PrioOk (a : Act) (_ : Sys) : Prop :=
  match a with
  | .setpriority _ priority => 0 ≤ priority ∧ priority ≤ maxPrio
  | _ => True

instance (a : Act) (s : Sys) : Decidable (PrioOk a s) :=
  match a with
  | .setpriority _ _ => inferInstanceAs (Decidable (_ ∧ _))
  | .tick | .schedEnter _ | .schedStep _ | .forkAlloc _ | .forkFail _ | .forkCopy _
  | .forkPublish _ | .forkUid _ | .forkGid _ | .exit _ | .wait _ | .yield _ | .sleep _ _
  | .wakeup _ | .kill _ | .setuid _ _ | .setgid _ _ | .execSetuid _ _ => isTrue trivial

/-- CPU 0 switches to the first process it finds, and the process forks. -/
def switchAndFork : List Act :=
  [.schedEnter 0, .schedStep 0, .forkAlloc 0, .forkCopy 0, .forkPublish 0, .forkUid 0, .forkGid 0]

/-- The state after a list of actions from the first state of the machine. -/
def replay (as : List Act) : Option Sys :=
  match userinit b 0 with
  | .ok pt => execOk (step b) (fun a s => decide (PrioOk a s)) as (boot pt)
  | .error _ => none

theorem replay_reachable {b : Build} {as : List Act} {s : Sys} (h : replay b as = some s) :
    Reachable (step b) (Init b) PrioOk s := by
  unfold replay at h
  split at h
  · next pt hpt =>
      exact Reachable.execOk (fun _ _ hok => of_decide_eq_true hok) as (boot pt) s
        (.init ⟨0, pt, hpt, rfl⟩) h
  · exact absurd h (by simp)

/-- What a replayed run shows of its last state. -/
theorem replay_any (as : List Act) (P : Sys → Prop) [DecidablePred P]
    (h : (replay b as).any (fun s => decide (P s)) = true) : ∃ s, replay b as = some s ∧ P s := by
  cases hs : replay b as with
  | none => simp [hs] at h
  | some s => exact ⟨s, rfl, by simpa [hs] using h⟩

/-- The same with other conditions on the actions. -/
theorem reachable_any (ok : Act → Sys → Prop) [∀ a s, Decidable (ok a s)] (as : List Act)
    (P : Sys → Prop) [DecidablePred P] (h : (match userinit b 0 with
      | .ok pt => (execOk (step b) (fun a s => decide (ok a s)) as (boot pt)).any
          (fun s => decide (P s))
      | .error _ => false) = true) : ∃ s, Reachable (step b) (Init b) ok s ∧ P s := by
  split at h
  · next pt hpt =>
      exact Transition.reachable_any (step b) (Init b) ok as ⟨0, pt, hpt, rfl⟩ P h
  · exact absurd h (by simp)

end Sys

end Xv6
