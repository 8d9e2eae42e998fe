import Xv6.Proc.Machine

set_option autoImplicit false

/-! # The life cycle of processes

`Life` is what is left of the machine when scheduling is forgotten: the state, the parent and the
credentials of every slot, the point each process has reached inside the kernel, and which process
each CPU runs. Its steps say what an action may do to that, without saying how the kernel finds the
slots it acts on; where the two builds of the source differ (which sleepers are woken, which
children are handed to init) the step leaves the choice open.

Both builds are shown elsewhere to take only steps of this machine. `LifeInv` is what holds of all
its runs: an `EMBRYO` belongs to the one `fork` that is making it, a child whose `fork` has not
returned is not reaped, and init stays alive. -/

namespace Xv6

/-- A state in which a process can still act. -/
def ProcState.alive (st : ProcState) : Prop := st = .sleeping ∨ st = .runnable ∨ st = .running

/-- A state of a process that `fork` or `userinit` has made visible. -/
def ProcState.born (st : ProcState) : Prop := st ≠ .unused ∧ st ≠ .embryo

@[ext] structure Life where
  state : Slot → ProcState
  parent : Slot → Option Slot
  uid : Slot → Word
  gid : Slot → Word
  kont : Slot → Kont
  running : ℕ → Option Slot
  initproc : Option Slot

namespace Life

open Function (update)

/-- The processes in `W` made runnable. -/
def wake (W : Finset Slot) (s : Life) : Life :=
  { s with state := fun p => if p ∈ W then .runnable else s.state p }

/-- The processes in `R` handed to init. -/
def adopt (R : Finset Slot) (s : Life) : Life :=
  { s with parent := fun p => if p ∈ R then s.initproc else s.parent p }

/-- The process of CPU `c` stops running in state `st`. -/
def stop (c : ℕ) (q : Slot) (st : ProcState) (s : Life) : Life :=
  { s with state := update s.state q st, running := update s.running c none }

def setKont (q : Slot) (k : Kont) (s : Life) : Life := { s with kont := update s.kont q k }

/-- Where a process goes on when it is dispatched. -/
def resumed : Kont → Kont
  | .sleep => .run
  | k => k

/-- Actions that may leave everything here as it is, or only wake processes. -/
def quiet : Act → Prop
  | .tick | .schedEnter _ | .schedStep _ | .forkAlloc _ | .wakeup _ | .kill _ | .setpriority _ _ =>
    True
  | _ => False

/-- The steps of the life cycle. -/
inductive Step : Act → Life → Life → Prop
  /-- Scheduling, a call that fails, a `kill` of a process that is not asleep. -/
  | idle {a : Act} (ha : quiet a) (s : Life) : Step a s s
  | wake {a : Act} (ha : quiet a) {s : Life} (W : Finset Slot)
      (hW : ∀ p ∈ W, s.state p = .sleeping) : Step a s (s.wake W)
  | switch {s : Life} {c : ℕ} {p : Slot} (hc : s.running c = none) (hp : s.state p = .runnable) :
      Step (.schedStep c) s
        { s with
          state := update s.state p .running, running := update s.running c (some p),
          kont := update s.kont p (resumed (s.kont p)) }
  | forkAlloc {s : Life} {c : ℕ} {q np : Slot} (hc : s.running c = some q)
      (hq : s.kont q = .run) (hnp : s.state np = .unused) :
      Step (.forkAlloc c) s
        { s with
          state := update s.state np .embryo, uid := update s.uid np 0, gid := update s.gid np 0,
          kont := update s.kont q (.forkAlloc np) }
  | forkFail {s : Life} {c : ℕ} {q np : Slot} (hc : s.running c = some q)
      (hq : s.kont q = .forkAlloc np) :
      Step (.forkFail c) s ({ s with state := update s.state np .unused }.setKont q .run)
  | forkCopy {s : Life} {c : ℕ} {q np : Slot} (hc : s.running c = some q)
      (hq : s.kont q = .forkAlloc np) :
      Step (.forkCopy c) s ({ s with parent := update s.parent np (some q) }.setKont q
        (.forkReady np))
  | forkPublish {s : Life} {c : ℕ} {q np : Slot} (hc : s.running c = some q)
      (hq : s.kont q = .forkReady np) :
      Step (.forkPublish c) s ({ s with state := update s.state np .runnable }.setKont q
        (.forkUid np))
  | forkUid {s : Life} {c : ℕ} {q np : Slot} (hc : s.running c = some q)
      (hq : s.kont q = .forkUid np) :
      Step (.forkUid c) s ({ s with uid := update s.uid np (s.uid q) }.setKont q (.forkGid np))
  | forkGid {s : Life} {c : ℕ} {q np : Slot} (hc : s.running c = some q)
      (hq : s.kont q = .forkGid np) :
      Step (.forkGid c) s ({ s with gid := update s.gid np (s.gid q) }.setKont q .run)
  /-- `exit` hands at least the live children to init. -/
  | exit {s : Life} {c : ℕ} {q : Slot} (W R : Finset Slot) (hc : s.running c = some q)
      (hq : s.kont q = .run) (hinit : s.initproc ≠ some q) (hW : ∀ p ∈ W, s.state p = .sleeping)
      (hR : ∀ p ∈ R, s.parent p = some q)
      (hlive : ∀ p, s.parent p = some q → s.state p ≠ .unused → s.state p ≠ .zombie → p ∈ R) :
      Step (.exit c) s (((s.wake W).adopt R).stop c q .zombie)
  | reap {s : Life} {c : ℕ} {q p : Slot} (hc : s.running c = some q)
      (hq : s.kont q = .run ∨ s.kont q = .wait) (hp : s.state p = .zombie)
      (hpar : s.parent p = some q) :
      Step (.wait c) s
        ({ s with
          state := update s.state p .unused, parent := update s.parent p none }.setKont q .run)
  | waitReturn {s : Life} {c : ℕ} {q : Slot} (hc : s.running c = some q)
      (hq : s.kont q = .run ∨ s.kont q = .wait) : Step (.wait c) s (s.setKont q .run)
  | waitSleep {s : Life} {c : ℕ} {q : Slot} (hc : s.running c = some q)
      (hq : s.kont q = .run ∨ s.kont q = .wait) :
      Step (.wait c) s ((s.stop c q .sleeping).setKont q .wait)
  | yield {s : Life} {c : ℕ} {q : Slot} (hc : s.running c = some q) :
      Step (.yield c) s (s.stop c q .runnable)
  | sleep {s : Life} {c : ℕ} {q : Slot} (chan : Chan) (hc : s.running c = some q)
      (hq : s.kont q = .run) : Step (.sleep c chan) s ((s.stop c q .sleeping).setKont q .sleep)
  | setuid {s : Life} {c : ℕ} {q : Slot} (v : Int) (hc : s.running c = some q)
      (hq : s.kont q = .run) :
      Step (.setuid c v) s { s with uid := update s.uid q (BitVec.ofInt 32 v) }
  | setgid {s : Life} {c : ℕ} {q : Slot} (v : Int) (hc : s.running c = some q)
      (hq : s.kont q = .run) :
      Step (.setgid c v) s { s with gid := update s.gid q (BitVec.ofInt 32 v) }
  | execSetuid {s : Life} {c : ℕ} {q : Slot} (v : BitVec 16) (hc : s.running c = some q)
      (hq : s.kont q = .run) :
      Step (.execSetuid c v) s { s with uid := update s.uid q (v.setWidth 32) }

/-- What holds in every state of the life-cycle machine. -/
structure LifeInv (s : Life) : Prop where
  running_state : ∀ c p, s.running c = some p → s.state p = .running
  running_inj : ∀ c c' p, s.running c = some p → s.running c' = some p → c = c'
  /-- A process that is inside a call can still act. -/
  busy_alive : ∀ q, s.kont q ≠ .run → (s.state q).alive
  alloc : ∀ q np, s.kont q = .forkAlloc np → s.state np = .embryo ∧ s.parent np = none
  alloc_inj : ∀ q q' np, s.kont q = .forkAlloc np → s.kont q' = .forkAlloc np → q = q'
  ready : ∀ q np, s.kont q = .forkReady np → s.state np = .embryo ∧ s.parent np = some q
  store : ∀ q np, s.kont q = .forkUid np ∨ s.kont q = .forkGid np →
    (s.state np).born ∧ s.parent np = some q
  unused_parent : ∀ p, s.state p = .unused → s.parent p = none
  init_alive : ∃ i, s.initproc = some i ∧ (s.state i).alive

namespace LifeInv

variable {s s' : Life} {a : Act} {c : ℕ} {q np p : Slot}

/-! ### The parts that steps are made of -/

theorem wake (h : LifeInv s) {W : Finset Slot} (hW : ∀ p ∈ W, s.state p = .sleeping) :
    LifeInv (s.wake W) := by
  obtain ⟨i, hi, halive⟩ := h.init_alive
  constructor <;> simp only [Life.wake]
  case init_alive => exact ⟨i, hi, by split <;> simp_all [ProcState.alive]⟩
  all_goals grind [LifeInv, ProcState.alive, ProcState.born]

/-- Children of a process that is not inside a call can be handed over. -/
theorem adopt (h : LifeInv s) {R : Finset Slot} (hq : s.kont q = .run)
    (hR : ∀ p ∈ R, s.parent p = some q) : LifeInv (s.adopt R) := by
  obtain ⟨i, hi, halive⟩ := h.init_alive
  constructor <;> simp only [Life.adopt]
  case init_alive => exact ⟨i, hi, halive⟩
  all_goals grind [LifeInv]

/-- A running process may stop in any state that it can act from, or for good. -/
theorem stop (h : LifeInv s) {st : ProcState} (hc : s.running c = some q) (hborn : st.born)
    (hst : st.alive ∨ s.kont q = .run ∧ s.initproc ≠ some q) : LifeInv (s.stop c q st) := by
  obtain ⟨i, hi, halive⟩ := h.init_alive
  have hrun := h.running_state c q hc
  constructor <;> simp only [Life.stop]
  case init_alive => exact ⟨i, hi, by grind⟩
  all_goals grind [LifeInv, ProcState.alive, ProcState.born]

/-- A process enters or leaves a call other than `fork`. -/
theorem setKont (h : LifeInv s) {k : Kont} (hk : k = .run ∨ k = .sleep ∨ k = .wait)
    (hq : k ≠ .run → (s.state q).alive) : LifeInv (s.setKont q k) := by
  obtain ⟨i, hi, halive⟩ := h.init_alive
  constructor <;> simp only [Life.setKont]
  case init_alive => exact ⟨i, hi, halive⟩
  all_goals grind [LifeInv]

theorem cred (h : LifeInv s) (uid gid : Slot → Word) :
    LifeInv { s with uid := uid, gid := gid } :=
  ⟨h.running_state, h.running_inj, h.busy_alive, h.alloc, h.alloc_inj, h.ready, h.store,
    h.unused_parent, h.init_alive⟩

/-! ### Dispatch and `fork` -/

section

variable (h : LifeInv s)

include h

theorem switch (hp : s.state p = .runnable) :
    LifeInv { s with
      state := update s.state p .running, running := update s.running c (some p),
      kont := update s.kont p (resumed (s.kont p)) } := by
  obtain ⟨i, hi, halive⟩ := h.init_alive
  -- `resumed` only forgets a `sleep`, so no fork changes hands
  have hfork : ∀ k : Kont, resumed k ≠ .run → resumed k = k := by
    intro k hk
    cases k <;> simp_all [resumed]
  constructor
  case init_alive => exact ⟨i, hi, by grind [ProcState.alive]⟩
  all_goals grind [LifeInv, ProcState.alive, ProcState.born]

theorem forkAlloc (hc : s.running c = some q) (hnp : s.state np = .unused) :
    LifeInv { s with
      state := update s.state np .embryo, uid := update s.uid np 0, gid := update s.gid np 0,
      kont := update s.kont q (.forkAlloc np) } := by
  obtain ⟨i, hi, halive⟩ := h.init_alive
  have hrun := h.running_state c q hc
  have hpar := h.unused_parent np hnp
  constructor
  case init_alive => exact ⟨i, hi, by grind [ProcState.alive]⟩
  all_goals grind [LifeInv, ProcState.alive, ProcState.born]

theorem forkFail (hq : s.kont q = .forkAlloc np) :
    LifeInv ({ s with state := update s.state np .unused }.setKont q .run) := by
  obtain ⟨i, hi, halive⟩ := h.init_alive
  obtain ⟨hst, hpar⟩ := h.alloc q np hq
  constructor <;> simp only [Life.setKont]
  case init_alive => exact ⟨i, hi, by grind [ProcState.alive]⟩
  all_goals grind [LifeInv, ProcState.alive, ProcState.born]

theorem forkCopy (hq : s.kont q = .forkAlloc np) :
    LifeInv ({ s with parent := update s.parent np (some q) }.setKont q (.forkReady np)) := by
  obtain ⟨i, hi, halive⟩ := h.init_alive
  obtain ⟨hst, hpar⟩ := h.alloc q np hq
  have hq' := h.busy_alive q (by rw [hq]; simp)
  constructor <;> simp only [Life.setKont]
  case init_alive => exact ⟨i, hi, halive⟩
  all_goals grind [LifeInv, ProcState.born]

theorem forkPublish (hq : s.kont q = .forkReady np) :
    LifeInv ({ s with state := update s.state np .runnable }.setKont q (.forkUid np)) := by
  obtain ⟨i, hi, halive⟩ := h.init_alive
  obtain ⟨hst, hpar⟩ := h.ready q np hq
  have hq' := h.busy_alive q (by rw [hq]; simp)
  constructor <;> simp only [Life.setKont]
  case init_alive => exact ⟨i, hi, by grind [ProcState.alive]⟩
  all_goals grind [LifeInv, ProcState.alive, ProcState.born]

theorem forkStored (hq : s.kont q = .forkUid np) :
    LifeInv (s.setKont q (.forkGid np)) := by
  obtain ⟨i, hi, halive⟩ := h.init_alive
  have hq' := h.busy_alive q (by rw [hq]; simp)
  constructor <;> simp only [Life.setKont]
  case init_alive => exact ⟨i, hi, halive⟩
  all_goals grind [LifeInv]

theorem reap (hq : s.kont q = .run ∨ s.kont q = .wait) (hp : s.state p = .zombie)
    (hpar : s.parent p = some q) :
    LifeInv { s with state := update s.state p .unused, parent := update s.parent p none } := by
  obtain ⟨i, hi, halive⟩ := h.init_alive
  constructor
  case init_alive => exact ⟨i, hi, by grind [ProcState.alive]⟩
  all_goals grind [LifeInv, ProcState.alive, ProcState.born]

/-- Every step keeps the invariant. -/
theorem step (hs : Step a s s') : LifeInv s' := by
  cases hs with
  | idle => exact h
  | wake _ W hW => exact h.wake hW
  | switch hc hp => exact h.switch hp
  | forkAlloc hc hq hnp => exact h.forkAlloc hc hnp
  | forkFail hc hq => exact h.forkFail hq
  | forkCopy hc hq => exact h.forkCopy hq
  | forkPublish hc hq => exact h.forkPublish hq
  | forkUid hc hq => exact (h.cred _ s.gid).forkStored hq
  | forkGid hc hq => exact (h.cred s.uid _).setKont (Or.inl rfl) (fun hk => absurd rfl hk)
  | exit W R hc hq hinit hW hR hlive =>
    exact ((h.wake hW).adopt hq hR).stop hc (by simp [ProcState.born]) (Or.inr ⟨hq, hinit⟩)
  | reap hc hq hp hpar => exact (h.reap hq hp hpar).setKont (Or.inl rfl) (fun hk => absurd rfl hk)
  | waitReturn hc hq => exact h.setKont (Or.inl rfl) (fun hk => absurd rfl hk)
  | waitSleep hc hq =>
    refine (h.stop hc ?_ ?_).setKont (Or.inr (Or.inr rfl)) (fun _ => ?_)
    all_goals simp [ProcState.born, ProcState.alive, Life.stop]
  | yield hc => exact h.stop hc (by simp [ProcState.born]) (Or.inl (by simp [ProcState.alive]))
  | sleep chan hc hq =>
    refine (h.stop hc ?_ ?_).setKont (Or.inr (Or.inl rfl)) (fun _ => ?_)
    all_goals simp [ProcState.born, ProcState.alive, Life.stop]
  | setuid v hc hq => exact h.cred _ s.gid
  | setgid v hc hq => exact h.cred s.uid _
  | execSetuid v hc hq => exact h.cred _ s.gid

end

end LifeInv

end Life

end Xv6
