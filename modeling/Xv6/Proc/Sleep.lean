import Xv6.Lib.Transition

set_option autoImplicit false

/-! # `sleep` and `wakeup` (`proc.c`, the default build)

Processes that wait for a condition by `while(!cond) sleep(chan, lk)` and processes that make it
true and call `wakeup(chan)`, both under the lock `lk`. `lk` is `ptable.lock` or another lock; under
`ptable.lock` a waker calls `wakeup1`. An action is one lock operation or the code between two of
them, so actions of different processes interleave as their lock operations do.

`sched` passes `ptable.lock` on to the scheduler, which releases it or passes it on to a runnable
process. A scheduler may also take and release the lock at any time, and so stands for every other
use of it, such as `yield`. `kill` may wake a sleeper that nobody else has woken. A process that has
found the condition true may make it false again before it releases `lk`.

`sections` counts the wakers' sections that are complete, and `seen` is its value when a process
last found the condition false. `wakeup1` scans the table under `ptable.lock`, which guards all that
it reads and writes, and is one action. -/

namespace Xv6

open Transition Function

/-- The two locks: `lk`, where it is not `ptable.lock`, and `ptable.lock`. -/
inductive KLock
  | lk
  | ptable
  deriving DecidableEq, Repr

inductive LockHolder (P : Type)
  | proc (p : P)
  | scheduler
  deriving DecidableEq, Repr

inductive SleepState
  | running
  | runnable
  | sleeping
  deriving DecidableEq, Repr

/-- Where a process stands in the loop around `sleep`. -/
inductive SleeperPc
  /-- The `acquire` of `lk` before the loop, or at the end of `sleep`. -/
  | acquire
  | test
  | acquirePtable
  | releaseLk
  /-- The assignments to `proc->chan` and `proc->state`. -/
  | mark
  | sched
  | asleep
  /-- The clearing of `proc->chan` after `sched`. -/
  | tidy
  | releasePtable
  /-- After the loop. -/
  | leave
  deriving DecidableEq, Repr

/-- Where a process stands that makes the condition true. -/
inductive WakerPc
  | acquire
  | setCond
  | acquirePtable
  | wakeup1
  | releasePtable
  | releaseLk
  deriving DecidableEq, Repr

inductive SleepPc
  | outside
  | sleeper (c : SleeperPc)
  | waker (c : WakerPc)
  deriving DecidableEq, Repr

structure SleepSys (P : Type) where
  held : KLock → Option (LockHolder P)
  cond : Bool
  state : P → SleepState
  /-- Whether `p->chan` is the channel. -/
  chan : P → Bool
  pc : P → SleepPc
  sections : ℕ
  seen : P → ℕ

inductive SleepAct (P : Type)
  | enter (p : P)
  | wake (p : P)
  | run (p : P)
  /-- Leave with the condition made true or false. -/
  | leave (p : P) (cond : Bool)
  | dispatch (p : P)
  | lockScheduler
  | unlockScheduler
  | kill (p : P)
  deriving DecidableEq, Repr

namespace SleepSys

variable {P : Type} [DecidableEq P]

def goto (p : P) (c : SleepPc) (s : SleepSys P) : SleepSys P := { s with pc := update s.pc p c }

def setHeld (k : KLock) (h : Option (LockHolder P)) (s : SleepSys P) : SleepSys P :=
  { s with held := update s.held k h }

def setState (p : P) (x : SleepState) (s : SleepSys P) : SleepSys P :=
  { s with state := update s.state p x }

def setChan (p : P) (b : Bool) (s : SleepSys P) : SleepSys P :=
  { s with chan := update s.chan p b }

def setCond (b : Bool) (s : SleepSys P) : SleepSys P := { s with cond := b }

/-- Process `p` has found the condition false. -/
def note (p : P) (s : SleepSys P) : SleepSys P := { s with seen := update s.seen p s.sections }

/-- A waker's section is complete. -/
def complete (s : SleepSys P) : SleepSys P := { s with sections := s.sections + 1 }

/-- `acquire`, when the lock is free. -/
def acquire (k : KLock) (p : P) (c : SleepPc) (s : SleepSys P) : Option (SleepSys P) :=
  if s.held k = none then some ((s.setHeld k (some (.proc p))).goto p c) else none

def release (k : KLock) (p : P) (c : SleepPc) (s : SleepSys P) : SleepSys P :=
  (s.setHeld k none).goto p c

def wakeup1 (s : SleepSys P) : SleepSys P :=
  { s with state := fun p => if s.state p = .sleeping ∧ s.chan p = true then .runnable else s.state p }

/-- The next action of a process in the loop around `sleep(chan, l)`. -/
def runSleeper (l : KLock) (p : P) (s : SleepSys P) : SleeperPc → Option (SleepSys P)
  | .acquire => s.acquire l p (.sleeper .test)
  | .test =>
    if s.cond then some (s.goto p (.sleeper .leave))
    else some ((s.note p).goto p (.sleeper (if l = KLock.ptable then .mark else .acquirePtable)))
  | .acquirePtable => s.acquire KLock.ptable p (.sleeper .releaseLk)
  | .releaseLk => some (s.release .lk p (.sleeper .mark))
  | .mark => some (((s.setChan p true).setState p .sleeping).goto p (.sleeper .sched))
  | .sched => some ((s.setHeld .ptable (some .scheduler)).goto p (.sleeper .asleep))
  | .tidy => some ((s.setChan p false).goto p (.sleeper (if l = KLock.ptable then .test else .releasePtable)))
  | .releasePtable => some (s.release .ptable p (.sleeper .acquire))
  | .asleep | .leave => none

/-- The next action of a waker. -/
def runWaker (l : KLock) (p : P) (s : SleepSys P) : WakerPc → Option (SleepSys P)
  | .acquire => s.acquire l p (.waker .setCond)
  | .setCond =>
    some ((s.setCond true).goto p (.waker (if l = KLock.ptable then .wakeup1 else .acquirePtable)))
  | .acquirePtable => s.acquire KLock.ptable p (.waker .wakeup1)
  | .wakeup1 => some (s.wakeup1.goto p (.waker (if l = KLock.ptable then .releaseLk else .releasePtable)))
  | .releasePtable => some (s.release .ptable p (.waker .releaseLk))
  | .releaseLk => some (s.complete.release l p .outside)

/-- One action, where the lock of the loop is `l`. -/
def next (l : KLock) (a : SleepAct P) (s : SleepSys P) : Option (SleepSys P) :=
  match a with
  | .enter p => if s.pc p = .outside then some (s.goto p (.sleeper .acquire)) else none
  | .wake p => if s.pc p = .outside then some (s.goto p (.waker .acquire)) else none
  | .run p =>
    match s.pc p with
    | .outside => none
    | .sleeper c => s.runSleeper l p c
    | .waker c => s.runWaker l p c
  | .leave p cond =>
    if s.pc p = .sleeper .leave then some ((s.setCond cond).release l p .outside) else none
  | .dispatch p =>
    if s.held .ptable = some .scheduler ∧ s.state p = .runnable ∧ s.pc p = .sleeper .asleep then
      some (((s.setState p .running).setHeld .ptable (some (.proc p))).goto p (.sleeper .tidy))
    else none
  | .lockScheduler =>
    if s.held .ptable = none then some (s.setHeld .ptable (some .scheduler)) else none
  | .unlockScheduler =>
    if s.held .ptable = some .scheduler then some (s.setHeld .ptable none) else none
  | .kill p =>
    if s.held .ptable = none ∧ s.state p = .sleeping then some (s.setState p .runnable) else none

/-- An action that cannot be taken stops. -/
def step (l : KLock) (a : SleepAct P) (s : SleepSys P) : Except Unit (SleepSys P) :=
  match s.next l a with
  | some s' => .ok s'
  | none => .error ()

def init (cond : Bool) : SleepSys P where
  held _ := none
  cond := cond
  state _ := .running
  chan _ := false
  pc _ := .outside
  sections := 0
  seen _ := 0

/-! ## Who holds which lock -/

end SleepSys

namespace SleepPc

/-- The locks that a process holds there, where the lock of the loop is `l`. -/
@[simp] def holds (l : KLock) : SleepPc → KLock → Bool
  | .sleeper .test, k | .sleeper .leave, k | .sleeper .acquirePtable, k => k = l
  | .sleeper .releaseLk, k => k = l ∨ k = .ptable
  | .sleeper .mark, k | .sleeper .sched, k | .sleeper .tidy, k | .sleeper .releasePtable,
      k => k = .ptable
  | .waker .setCond, k | .waker .acquirePtable, k | .waker .releaseLk, k => k = l
  | .waker .wakeup1, k | .waker .releasePtable, k => k = l ∨ k = .ptable
  | .outside, _ | .sleeper .acquire, _ | .sleeper .asleep, _ | .waker .acquire, _ => false

/-- The places that there are only with a lock beside `ptable.lock`. -/
@[simp] def apart : SleepPc → Bool
  | .sleeper .acquirePtable | .sleeper .releaseLk | .sleeper .releasePtable => true
  | .waker .acquirePtable | .waker .releasePtable => true
  | _ => false

/-- The process has found the condition false and is on its way to sleep. -/
def pending : SleepPc → Bool
  | .sleeper .acquirePtable | .sleeper .releaseLk | .sleeper .mark => true
  | _ => false

/-- The process may be asleep. -/
def dormant : SleepPc → Bool
  | .sleeper .sched | .sleeper .asleep => true
  | _ => false

/-- The process has woken the sleepers and its section is not complete. -/
def hasWoken : SleepPc → Bool
  | .waker .releasePtable | .waker .releaseLk => true
  | _ => false

/-- A waker has the lock of the loop until its section is complete. -/
theorem holds_of_hasWoken {l : KLock} {c : SleepPc} (hc : c.hasWoken = true) :
    c.holds l l = true := by
  cases c with
  | outside | sleeper c => simp [hasWoken] at hc
  | waker c => cases c <;> simp_all [hasWoken, holds]

/-- On the way to sleep a process has the lock of the loop or `ptable.lock`. -/
theorem holds_of_pending {l : KLock} {c : SleepPc} (hc : c.pending = true) :
    c.holds l l = true ∨ c.holds l .ptable = true := by
  cases c with
  | outside | waker c => simp [pending] at hc
  | sleeper c => cases c <;> simp_all [pending, holds]

end SleepPc

namespace SleepSys

variable {P : Type} {l : KLock} {s s1 : SleepSys P}

structure Locked (l : KLock) (s : SleepSys P) : Prop where
  guarded : ∀ p k, (s.pc p).holds l k = true → s.held k = some (.proc p)
  apart : ∀ p, (s.pc p).apart = true → l = .lk

variable {s' : SleepSys P} {p : P} {k : KLock}

/-- Two processes do not hold the same lock. -/
theorem Locked.excl (h : Locked l s) {q : P} (hp : (s.pc p).holds l k = true)
    (hq : (s.pc q).holds l k = true) : p = q := by
  have := (h.guarded p k hp).symm.trans (h.guarded q k hq)
  simpa using this

theorem Locked.no_waker (h : Locked l s) (hp : (s.pc p).holds l l = true)
    (hpw : (s.pc p).hasWoken = false) (w : P) : (s.pc w).hasWoken = false := by
  by_contra hw
  have hw : (s.pc w).hasWoken = true := by simpa using hw
  obtain rfl : w = p := h.excl (SleepPc.holds_of_hasWoken hw) hp
  exact Bool.false_ne_true (hpw.symm.trans hw)

variable {x : Option (LockHolder P)}

/-- A lock that no process has changes hands. -/
theorem Locked.setHeld (h : Locked l s)
    (hk : ∀ q, (s.pc q).holds l k = false) : Locked l (s.setHeld k x) := by
  refine ⟨fun p j hp => ?_, h.apart⟩
  have hjk : j ≠ k := by
    rintro rfl
    exact Bool.false_ne_true ((hk p).symm.trans hp)
  exact (update_of_ne hjk ..).trans (h.guarded p j hp)

theorem Locked.unheld (h : Locked l s) (hk : ∀ q, s.held k ≠ some (.proc q)) (q : P) :
    (s.pc q).holds l k = false := by
  by_contra hq
  exact hk q (h.guarded q k (by simpa using hq))

section Locks

variable {c : SleepPc} [DecidableEq P]

omit s in
theorem goto_pc (s : SleepSys P) (p q : P) (c : SleepPc) :
    q = p ∧ (s.goto p c).pc q = c ∨ q ≠ p ∧ (s.goto p c).pc q = s.pc q := by
  by_cases hqp : q = p
  · exact .inl ⟨hqp, hqp ▸ update_self ..⟩
  · exact .inr ⟨hqp, update_of_ne hqp ..⟩

section

variable (h : Locked l s)

include h

/-- Process `p` moves to a place whose locks it has. -/
theorem Locked.goto (hp : ∀ k, c.holds l k = true → s.held k = some (.proc p))
    (hapart : c.apart = true → l = .lk := by simp) : Locked l (s.goto p c) := by
  refine ⟨fun q k hq => ?_, fun q hq => ?_⟩
  · rcases goto_pc s p q c with ⟨rfl, hpc⟩ | ⟨-, hpc⟩
    · exact hp k (hpc ▸ hq)
    · exact h.guarded q k (hpc ▸ hq)
  · rcases goto_pc s p q c with ⟨-, hpc⟩ | ⟨-, hpc⟩
    · exact hapart (hpc ▸ hq)
    · exact h.apart q (hpc ▸ hq)

theorem Locked.stays (hp : ∀ j, c.holds l j = true → (s.pc p).holds l j = true)
    (hapart : c.apart = true → l = .lk := by simp) : Locked l (s.goto p c) :=
  h.goto (fun k hk => h.guarded p k (hp k hk)) hapart

theorem Locked.acquire (hs' : s.acquire k p c = some s')
    (hp : ∀ j, c.holds l j = true → j = k ∨ (s.pc p).holds l j = true)
    (hapart : c.apart = true → l = .lk := by simp) : Locked l s' := by
  unfold SleepSys.acquire at hs'
  split_ifs at hs' with hfree
  cases hs'
  have hset : Locked l (s.setHeld k (some (.proc p))) :=
    h.setHeld (h.unheld fun q => by simp [hfree])
  refine hset.goto (fun j hj => ?_) hapart
  by_cases hjk : j = k
  · subst hjk
    exact update_self ..
  · rcases hp j hj with hc | hc
    · exact absurd hc hjk
    · exact (update_of_ne hjk ..).trans (h.guarded p j hc)

/-- Process `p` gives the lock `k` away as it moves. -/
theorem Locked.gives (hk : (s.pc p).holds l k = true)
    (hp : ∀ j, c.holds l j = true → j ≠ k ∧ (s.pc p).holds l j = true)
    (hapart : c.apart = true → l = .lk := by simp) : Locked l ((s.setHeld k x).goto p c) := by
  have hmoved : Locked l (s.goto p c) := h.stays (fun j hj => (hp j hj).2) hapart
  refine hmoved.setHeld fun q => ?_
  by_contra hq
  have hq : ((s.goto p c).pc q).holds l k = true := by simpa using hq
  rcases goto_pc s p q c with ⟨-, hpc⟩ | ⟨hqp, hpc⟩
  · exact (hp k (hpc ▸ hq)).1 rfl
  · exact hqp (h.excl (hpc ▸ hq) hk)

theorem Locked.runSleeper {c : SleeperPc}
    (hpc : s.pc p = .sleeper c) (hs' : s.runSleeper l p c = some s') : Locked l s' := by
  have hlk : (SleepPc.sleeper c).apart = true → l = .lk := fun ha => h.apart p (hpc ▸ ha)
  have hne : l ≠ .ptable → l = .lk := by cases l <;> simp
  cases c with
  | acquire =>
    exact h.acquire hs' (fun j hj => .inl (by simpa using hj))
  | test =>
    simp only [SleepSys.runSleeper] at hs'
    have hn : Locked l (s.note p) := ⟨h.guarded, h.apart⟩
    have hpcn : (s.note p).pc p = .sleeper .test := hpc
    split_ifs at hs' with hcond hl <;> cases hs'
    · exact h.stays (by simp [hpc])
    · exact hn.stays (by simp [hpcn, hl])
    · exact hn.stays (by simp [hpcn]) fun _ => hne hl
  | acquirePtable =>
    refine h.acquire hs' (fun j hj => ?_) fun _ => hlk rfl
    have hj : j = l ∨ j = .ptable := by simpa using hj
    exact hj.symm.imp_right fun hj => by simp [hpc, hj]
  | releaseLk =>
    cases hs'
    have hl := hlk rfl
    exact h.gives (by simp [hpc, hl]) (by simp [hpc])
  | mark =>
    cases hs'
    have hm : Locked l ((s.setChan p true).setState p .sleeping) := ⟨h.guarded, h.apart⟩
    exact hm.stays (by simp [hpc, setState, setChan])
  | sched =>
    cases hs'
    exact h.gives (by simp [hpc]) (by simp)
  | asleep | leave => cases hs'
  | tidy =>
    simp only [SleepSys.runSleeper] at hs'
    have hn : Locked l (s.setChan p false) := ⟨h.guarded, h.apart⟩
    have hpcn : (s.setChan p false).pc p = .sleeper .tidy := hpc
    split_ifs at hs' with hl <;> cases hs'
    · exact hn.stays (by simp [hpcn, hl])
    · exact hn.stays (by simp [hpcn]) fun _ => hne hl
  | releasePtable =>
    cases hs'
    exact h.gives (by simp [hpc]) (by simp)

theorem Locked.runWaker {c : WakerPc}
    (hpc : s.pc p = .waker c) (hs' : s.runWaker l p c = some s') : Locked l s' := by
  have hlk : (SleepPc.waker c).apart = true → l = .lk := fun ha => h.apart p (hpc ▸ ha)
  have hne : l ≠ .ptable → l = .lk := by cases l <;> simp
  cases c with
  | acquire =>
    exact h.acquire hs' (fun j hj => .inl (by simpa using hj))
  | setCond =>
    simp only [SleepSys.runWaker] at hs'
    have hn : Locked l (s.setCond true) := ⟨h.guarded, h.apart⟩
    have hpcn : (s.setCond true).pc p = .waker .setCond := hpc
    split_ifs at hs' with hl <;> cases hs'
    · exact hn.stays (by simp [hpcn, hl])
    · exact hn.stays (by simp [hpcn]) fun _ => hne hl
  | acquirePtable =>
    refine h.acquire hs' (fun j hj => ?_)
    have hj : j = l ∨ j = .ptable := by simpa using hj
    exact hj.symm.imp_right fun hj => by simp [hpc, hj]
  | wakeup1 =>
    simp only [SleepSys.runWaker] at hs'
    have hn : Locked l s.wakeup1 := ⟨h.guarded, h.apart⟩
    have hpcn : s.wakeup1.pc p = .waker .wakeup1 := hpc
    split_ifs at hs' with hl <;> cases hs'
    · exact hn.stays (by simp [hpcn, hl])
    · exact hn.stays (by simp [hpcn]) fun _ => hne hl
  | releasePtable =>
    cases hs'
    exact h.gives (by simp [hpc]) (by simp [hpc, hlk rfl])
  | releaseLk =>
    cases hs'
    have hn : Locked l s.complete := ⟨h.guarded, h.apart⟩
    exact hn.gives (by simp [complete, hpc]) (by simp)

theorem Locked.next {a : SleepAct P} (hs' : s.next l a = some s') : Locked l s' := by
  cases a with
  | enter p | wake p =>
    simp only [SleepSys.next] at hs'
    split_ifs at hs'
    cases hs'
    exact h.stays (by simp)
  | run p =>
    simp only [SleepSys.next] at hs'
    split at hs'
    · cases hs'
    · next c hpc => exact h.runSleeper hpc hs'
    · next c hpc => exact h.runWaker hpc hs'
  | leave p cond =>
    simp only [SleepSys.next] at hs'
    split_ifs at hs' with hpc
    cases hs'
    have hn : Locked l (s.setCond cond) := ⟨h.guarded, h.apart⟩
    exact hn.gives (by simp [setCond, hpc]) (by simp)
  | dispatch p =>
    simp only [SleepSys.next] at hs'
    split_ifs at hs' with hc
    cases hs'
    have hn : Locked l (s.setState p .running) := ⟨h.guarded, h.apart⟩
    have hset : Locked l ((s.setState p .running).setHeld .ptable (some (.proc p))) :=
      hn.setHeld (h.unheld fun q => by simp [hc.1])
    refine hset.goto (fun k hk => ?_)
    obtain rfl : k = .ptable := by simpa using hk
    simp [SleepSys.setHeld]
  | lockScheduler | unlockScheduler =>
    simp only [SleepSys.next] at hs'
    split_ifs at hs' with hc
    cases hs'
    exact h.setHeld (h.unheld fun q => by simp [hc])
  | kill p =>
    simp only [SleepSys.next] at hs'
    split_ifs at hs' with hc
    cases hs'
    exact ⟨h.guarded, h.apart⟩

end

end Locks

/-! ## No wakeup is lost -/

/-- The process has found the condition false and sleeps or is on its way to sleep. -/
def Waits (s : SleepSys P) (p : P) : Prop := (s.pc p).pending = true ∨ s.state p = .sleeping

/-- No section is complete since a process that waits found the condition false. -/
structure Fresh (s : SleepSys P) : Prop where
  onChan : ∀ p, s.state p = .sleeping → s.chan p = true
  place : ∀ p, s.state p = .sleeping → (s.pc p).dormant = true
  fresh : ∀ p, s.Waits p → s.seen p = s.sections
  woken : ∀ w p, (s.pc w).hasWoken = true → ¬ s.Waits p

theorem Fresh.of_none (h : ∀ p, ¬ s.Waits p) : Fresh s :=
  ⟨fun p hp => absurd (.inr hp) (h p), fun p hp => absurd (.inr hp) (h p),
    fun p hp => absurd hp (h p), fun _ p _ => h p⟩

theorem Fresh.awake (h : Fresh s) (hp : (s.pc p).dormant = false) : s.state p ≠ .sleeping :=
  fun hs =>
  Bool.false_ne_true (hp.symm.trans (h.place p hs))

theorem Fresh.no_waker (h : Fresh s) (hp : s.Waits p) (w : P) : (s.pc w).hasWoken = false := by
  by_contra hw
  exact h.woken w p (by simpa using hw) hp

theorem Fresh.setHeld (h : Fresh s) : Fresh (s.setHeld k x) :=
  ⟨h.onChan, h.place, h.fresh, h.woken⟩

/-- Some processes are woken. -/
theorem Fresh.wakes (h : Fresh s) {state : P → SleepState}
    (hstate : ∀ p, state p = .sleeping → s.state p = .sleeping) :
    Fresh { s with state := state } where
  onChan p hp := h.onChan p (hstate p hp)
  place p hp := h.place p (hstate p hp)
  fresh p hp := h.fresh p (hp.imp_right (hstate p))
  woken w p hw hp := h.woken w p hw (hp.imp_right (hstate p))

variable {c : SleepPc} [DecidableEq P]

section

variable (h : Fresh s)

include h

/-- Process `p` moves, and neither begins to wait nor has woken anybody. -/
theorem Fresh.goto
    (hd : s.state p = .sleeping → c.dormant = true) (hc : c.pending = true →
      (s.pc p).pending = true)
    (hw : c.hasWoken = true → (s.pc p).hasWoken = true) : Fresh (s.goto p c) := by
  have hwaits : ∀ q, (s.goto p c).Waits q → s.Waits q := by
    refine fun q hq => hq.imp_left fun hq => ?_
    rcases goto_pc s p q c with ⟨rfl, hpc⟩ | ⟨-, hpc⟩
    · exact hc (hpc ▸ hq)
    · exact hpc ▸ hq
  refine ⟨h.onChan, fun q hq => ?_, fun q hq => h.fresh q (hwaits q hq), fun w q hwk hq => ?_⟩
  · rcases goto_pc s p q c with ⟨rfl, hpc⟩ | ⟨-, hpc⟩
    · rw [hpc]
      exact hd hq
    · exact hpc ▸ h.place q hq
  · rcases goto_pc s p w c with ⟨rfl, hpc⟩ | ⟨-, hpc⟩
    · exact h.woken w q (hw (hpc ▸ hwk)) (hwaits q hq)
    · exact h.woken w q (hpc ▸ hwk) (hwaits q hq)

theorem Fresh.acquire (hs' : s.acquire k p c = some s') (hd : (s.pc p).dormant = false)
    (hc : c.pending = true → (s.pc p).pending = true) (hw : c.hasWoken = true →
      (s.pc p).hasWoken = true) :
    Fresh s' := by
  unfold SleepSys.acquire at hs'
  split_ifs at hs' with hfree
  cases hs'
  exact h.setHeld.goto (fun hs => absurd hs (h.awake hd)) hc hw

/-- Process `p` begins to wait while no waker is at work. -/
theorem Fresh.waits (hd : s.state p ≠ .sleeping)
    (hseen : s.seen p = s.sections) (hc : c.hasWoken = false)
    (hnone : ∀ w, (s.pc w).hasWoken = false) :
    Fresh (s.goto p c) := by
  refine ⟨h.onChan, fun q hq => ?_, fun q hq => ?_, fun w q hw => ?_⟩
  · rcases goto_pc s p q c with ⟨rfl, -⟩ | ⟨-, hpc⟩
    · exact absurd hq hd
    · exact hpc ▸ h.place q hq
  · rcases goto_pc s p q c with ⟨rfl, -⟩ | ⟨-, hpc⟩
    · exact hseen
    · exact h.fresh q (hq.imp_left fun hpend => hpc ▸ hpend)
  · rcases goto_pc s p w c with ⟨-, hpc⟩ | ⟨-, hpc⟩
    · simp [hpc, hc] at hw
    · simp [hpc, hnone w] at hw

theorem Fresh.note (p : P) : Fresh (s.note p) := by
  refine ⟨h.onChan, h.place, fun q hq => ?_, h.woken⟩
  by_cases hqp : q = p
  · subst hqp
    exact update_self ..
  · exact (update_of_ne hqp ..).trans (h.fresh q hq)

theorem Fresh.setState (p : P) {x : SleepState} (hx : x ≠ .sleeping) :
    Fresh (s.setState p x) := by
  refine h.wakes fun q hq => ?_
  by_cases hqp : q = p
  · subst hqp
    exact absurd ((update_self ..).symm.trans hq) hx
  · exact (update_of_ne hqp ..).symm.trans hq

/-- Process `p` goes to sleep while no waker is at work. -/
theorem Fresh.sleeps (hd : (s.pc p).dormant = true)
    (hseen : s.seen p = s.sections) (hnone : ∀ w, (s.pc w).hasWoken = false) :
    Fresh ((s.setChan p true).setState p .sleeping) := by
  have hstate : ∀ q, q ≠ p → update s.state p .sleeping q = .sleeping → s.state q = .sleeping :=
    fun q hq hs => (update_of_ne hq ..).symm.trans hs
  refine ⟨fun q hq => ?_, fun q hq => ?_, fun q hq => ?_, fun w q hw => ?_⟩
  · by_cases hqp : q = p
    · subst hqp
      exact update_self ..
    · exact (update_of_ne hqp ..).trans (h.onChan q (hstate q hqp hq))
  · by_cases hqp : q = p
    · exact hqp ▸ hd
    · exact h.place q (hstate q hqp hq)
  · by_cases hqp : q = p
    · exact hqp ▸ hseen
    · exact h.fresh q (hq.imp_right (hstate q hqp))
  · exact absurd hw (by simp [SleepSys.setState, setChan, hnone w])

theorem Fresh.runSleeper (hl : Locked l s) {c : SleeperPc}
     (hpc : s.pc p = .sleeper c) (hs' : s.runSleeper l p c = some s') : Fresh s' := by
  have awake : (SleepPc.sleeper c).dormant = false → s.state p ≠ .sleeping :=
    fun hc => h.awake (hpc ▸ hc)
  cases c with
  | acquire => exact h.acquire hs' (by rw [hpc]; rfl) nofun nofun
  | test =>
    simp only [SleepSys.runSleeper] at hs'
    split_ifs at hs' with hcond hptable
    · cases hs'
      exact h.goto (fun hs => absurd hs (awake rfl)) nofun nofun
    all_goals
      cases hs'
      -- `p` has the lock of the loop, so no waker is inside its section.
      have hnone : ∀ w, (s.pc w).hasWoken = false :=
        hl.no_waker (p := p) (by simp [hpc]) (by rw [hpc]; rfl)
      exact (h.note p).waits (awake rfl) (update_self ..) rfl hnone
  | acquirePtable => exact h.acquire hs' (by rw [hpc]; rfl) (fun _ => by rw [hpc]; rfl) nofun
  | releaseLk =>
    cases hs'
    exact h.setHeld.goto (fun hs => absurd hs (awake rfl)) (fun _ => by
      simp [SleepSys.setHeld, hpc]; rfl) nofun
  | mark =>
    cases hs'
    have hp : s.Waits p := .inl (by rw [hpc]; rfl)
    have hg : Fresh (s.goto p (.sleeper .sched)) := h.goto (fun _ => rfl) nofun nofun
    refine hg.sleeps (by simp [SleepSys.goto, SleepPc.dormant]) (h.fresh p hp) fun w => ?_
    rcases goto_pc s p w (.sleeper .sched) with ⟨-, hw⟩ | ⟨-, hw⟩
    · rw [hw]
      rfl
    · exact hw ▸ h.no_waker hp w
  | sched =>
    cases hs'
    exact h.setHeld.goto (fun _ => rfl) nofun nofun
  | asleep | leave => cases hs'
  | tidy =>
    have hn : Fresh (s.setChan p false) := by
      refine ⟨fun q hq => ?_, h.place, h.fresh, h.woken⟩
      have hqp : q ≠ p := fun he => awake rfl (he ▸ hq)
      exact (update_of_ne hqp ..).trans (h.onChan q hq)
    simp only [SleepSys.runSleeper] at hs'
    split_ifs at hs' <;> cases hs' <;> exact hn.goto (fun hs => absurd hs (awake rfl)) nofun nofun
  | releasePtable =>
    cases hs'
    exact h.setHeld.goto (fun hs => absurd hs (awake rfl)) nofun nofun

/-- `wakeup1` leaves nobody asleep on the channel, and nobody is on the way there: for that a
process needs one of the two locks, which the waker has. -/
theorem Fresh.wakeup1 (hl : Locked l s) {w : P} {c : WakerPc}
    (hpc : s.pc w = .waker .wakeup1) : Fresh (s.wakeup1.goto w (.waker c)) := by
  refine .of_none fun q hq => ?_
  rcases hq with hq | hq
  · rcases goto_pc s.wakeup1 w q (.waker c) with ⟨-, hq'⟩ | ⟨hqw, hq'⟩
    · simp [hq', SleepPc.pending] at hq
    · rcases SleepPc.holds_of_pending (l := l) (hq' ▸ hq) with hk | hk
      · exact hqw (hl.excl hk (by simp [hpc]))
      · exact hqw (hl.excl hk (by simp [hpc]))
  · have hq : (if s.state q = .sleeping ∧ s.chan q = true then .runnable else s.state q) = SleepState.sleeping := hq
    split_ifs at hq with hs
    exact hs ⟨hq, h.onChan q hq⟩

theorem Fresh.runWaker (hl : Locked l s) {c : WakerPc}
    (hpc : s.pc p = .waker c) (hs' : s.runWaker l p c = some s') : Fresh s' := by
  have awake : s.state p ≠ .sleeping := h.awake (by rw [hpc]; rfl)
  cases c with
  | acquire | acquirePtable => exact h.acquire hs' (by rw [hpc]; rfl) nofun nofun
  | setCond =>
    have hn : Fresh (s.setCond true) := ⟨h.onChan, h.place, h.fresh, h.woken⟩
    simp only [SleepSys.runWaker] at hs'
    split_ifs at hs' <;> cases hs' <;> exact hn.goto (fun hs => absurd hs awake) nofun nofun
  | wakeup1 =>
    simp only [SleepSys.runWaker] at hs'
    split_ifs at hs' <;> cases hs' <;> exact h.wakeup1 hl hpc
  | releasePtable =>
    cases hs'
    exact h.setHeld.goto (fun hs => absurd hs awake) nofun fun _ => by
      rw [show (s.setHeld _ _).pc p = s.pc p from rfl, hpc]
      rfl
  | releaseLk =>
    cases hs'
    refine .of_none fun q hq => h.woken p q (by rw [hpc]; rfl) ?_
    refine hq.imp_left fun hpend => ?_
    rcases goto_pc (s.complete.setHeld l none) p q .outside with ⟨-, hq'⟩ | ⟨-, hq'⟩
    · exact absurd (hq' ▸ hpend) nofun
    · exact hq' ▸ hpend

theorem Fresh.next (hl : Locked l s) {a : SleepAct P} (hs' : s.next l a = some s') : Fresh s' := by
  cases a with
  | enter p | wake p =>
    simp only [SleepSys.next] at hs'
    split_ifs at hs' with hpc
    cases hs'
    exact h.goto (fun hs => absurd hs (h.awake (by rw [hpc]; rfl))) nofun nofun
  | run p =>
    simp only [SleepSys.next] at hs'
    split at hs'
    · cases hs'
    · next c hpc => exact h.runSleeper hl hpc hs'
    · next c hpc => exact h.runWaker hl hpc hs'
  | leave p cond =>
    simp only [SleepSys.next] at hs'
    split_ifs at hs' with hpc
    cases hs'
    have hn : Fresh (s.setCond cond) := ⟨h.onChan, h.place, h.fresh, h.woken⟩
    exact hn.setHeld.goto (fun hs => absurd hs (h.awake (by rw [hpc]; rfl))) nofun nofun
  | dispatch p =>
    simp only [SleepSys.next] at hs'
    split_ifs at hs' with hc
    cases hs'
    have hn : Fresh ((s.setState p .running).setHeld .ptable (some (.proc p))) :=
      (h.setState p (by simp)).setHeld
    refine hn.goto (fun hs => ?_) nofun nofun
    exact absurd ((update_self ..).symm.trans hs) nofun
  | lockScheduler | unlockScheduler =>
    simp only [SleepSys.next] at hs'
    split_ifs at hs'
    cases hs'
    exact h.setHeld
  | kill p =>
    simp only [SleepSys.next] at hs'
    split_ifs at hs'
    cases hs'
    exact h.setState p (by simp)

end

theorem next_of_step {a : SleepAct P} (h : s.step l a = .ok s') :
    s.next l a = some s' := by
  unfold step at h
  split at h
  · next hs =>
    cases h
    exact hs
  · cases h

/-- What holds in every state that the processes can reach. -/
theorem reachable_fresh {cond : Bool}
    (h : Reachable (step l) (· = init cond) (fun _ _ => True) s) : Locked l s ∧ Fresh s := by
  refine h.invariant (P := fun s => Locked l s ∧ Fresh s) ?_ ?_
  · rintro _ rfl
    exact ⟨⟨nofun, nofun⟩, .of_none fun p hp => by simp [Waits, init, SleepPc.pending] at hp⟩
  · intro s a s' ⟨hl, hf⟩ _ hs
    exact ⟨hl.next (next_of_step hs), hf.next hl (next_of_step hs)⟩

/-- In no interleaving is a wakeup lost: where both locks are free, a process that is still asleep
on the channel has found the condition false after the last section of a waker that is complete. -/
theorem no_lost_wakeup (l : KLock) (cond : Bool) (s : SleepSys P)
    (h : Reachable (step l) (· = init cond) (fun _ _ => True) s) (p : P) :
    ¬ (s.held l = none ∧ s.held .ptable = none ∧ s.state p = .sleeping ∧ s.chan p = true ∧
      s.seen p < s.sections) := by
  rintro ⟨-, -, hsleep, -, hlt⟩
  have hfresh : s.seen p = s.sections := (reachable_fresh h).2.fresh p (.inr hsleep)
  omega

/-- A process goes to sleep, and a waker's section completes after that. -/
theorem no_lost_wakeup_once : ∃ s : SleepSys Bool,
    Reachable (step .lk) (· = init false) (fun _ _ => True) s ∧ s.held .lk = none ∧
    s.held .ptable = none ∧ s.seen false < s.sections ∧
    ¬ (s.state false = .sleeping ∧ s.chan false = true) := by
  let acts : List (SleepAct Bool) :=
    .enter false :: List.replicate 6 (.run false) ++
      .unlockScheduler :: .wake true :: List.replicate 6 (.run true)
  obtain ⟨s, hr, hlk, hptable, hlt⟩ :=
    reachable_any (step KLock.lk) (· = init false) (fun _ _ => True) acts rfl
      (fun s => s.held .lk = none ∧ s.held .ptable = none ∧ s.seen false < s.sections)
      (by decide +kernel)
  refine ⟨s, hr, hlk, hptable, hlt, ?_⟩
  rintro ⟨hsleep, hchan⟩
  exact no_lost_wakeup .lk false s hr false ⟨hlk, hptable, hsleep, hchan, hlt⟩

end SleepSys

end Xv6
