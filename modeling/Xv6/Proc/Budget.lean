import Xv6.Proc.Levels

set_option autoImplicit false

/-! # Budgets (`CS333_P3P4`)

A process pays for its time slices from its budget when it gives up the CPU in `yield` or `sleep`.
When nothing is left it goes down one level and gets the full budget of that level. `allocproc`,
`setpriority` and `promoteAll` set the budget too, also while the process runs.

`BudgetStep` says what one action can do to the priority and the budget of one process. An `Account`
keeps the books of a run: the budget a process was last given, and the ticks it has been charged
since. -/

namespace Xv6

open Transition Function PTable Stoppable

/-! ## What an action does to one process -/

/-- A process that ran does not any more, and is still there. -/
def Proc.GaveUp (pr pr' : Proc) : Prop :=
  pr.state = .running ∧ (pr'.state = .runnable ∨ pr'.state = .sleeping)

instance (pr pr' : Proc) : Decidable (pr.GaveUp pr') := inferInstanceAs (Decidable (_ ∧ _))

/-- A change of state that neither gives up the CPU nor takes a slot into use. -/
def ProcState.Quiet (st st' : ProcState) : Prop :=
  (st = .running → st' ≠ .runnable ∧ st' ≠ .sleeping) ∧ (st = .unused → st' = .unused)

instance (st st' : ProcState) : Decidable (st.Quiet st') := inferInstanceAs (Decidable (_ ∧ _))

theorem ProcState.Quiet.refl (st : ProcState) : st.Quiet st := by
  cases st <;> decide

/-- Neither priority nor budget of a process have been written. -/
structure Proc.Kept (pr pr' : Proc) : Prop where
  quiet : pr.state.Quiet pr'.state
  priority : pr'.priority = pr.priority
  budget : pr'.budget = pr.budget

variable {pr pr' : Proc}

theorem Proc.Kept.of_state (st st' : ProcState) (h : pr.state = st) (h' : pr'.state = st')
    (hquiet : st.Quiet st') (hprio : pr'.priority = pr.priority)
    (hbudget : pr'.budget = pr.budget) : pr.Kept pr' :=
  ⟨h.symm ▸ h'.symm ▸ hquiet, hprio, hbudget⟩

theorem Proc.Kept.not_gaveUp (h : pr.Kept pr') : ¬pr.GaveUp pr' := by
  rintro ⟨hrun, hup⟩
  obtain ⟨h1, h2⟩ := h.quiet.1 hrun
  exact hup.elim h1 h2

/-- Other fields have been written. -/
def Proc.Stored (pr pr' : Proc) : Prop :=
  pr'.state = pr.state ∧ pr'.priority = pr.priority ∧ pr'.budget = pr.budget

namespace PTable

variable {s pt : PTable}

/-- The same of all processes. -/
def KeptAll (s pt : PTable) : Prop := ∀ p, (s.proc p).Kept (pt.proc p)

namespace KeptAll

theorem refl (s : PTable) : KeptAll s s := fun _ => ⟨.refl _, rfl, rfl⟩

theorem of_core {X : PTable} (h : KeptAll s X) (hcore : pt.core = X.core) : KeptAll s pt := by
  intro p
  obtain ⟨hquiet, hprio, hbudget⟩ := h p
  refine ⟨?_, (priority_of_core hcore p).trans hprio,
    (field_of_core hcore Proc.budget (fun _ _ => rfl) p).trans hbudget⟩
  rwa [state_of_core hcore]

/-- An assignment that is not giving up the CPU. -/
theorem modify (s : PTable) (q : Slot) {f : Proc → Proc} (hf : (s.proc q).Kept (f (s.proc q))) :
    KeptAll s (s.modify q f) := by
  intro p
  by_cases hp : p = q
  · subst hp
    rwa [modify_proc, update_self]
  · rw [modify_proc, update_of_ne hp]
    exact refl s p

/-- A store that has nothing to do with scheduling. -/
theorem store (h : KeptAll s pt) (q : Slot) (f : Proc → Proc) (hf : ∀ pr : Proc, pr.Stored (f pr)) :
    KeptAll s (pt.modify q f) := by
  intro p
  by_cases hp : p = q
  · subst hp
    obtain ⟨hquiet, hp1, hb1⟩ := h p
    obtain ⟨hstate, hprio, hbudget⟩ := hf (pt.proc p)
    rw [modify_proc, update_self]
    exact ⟨hstate ▸ hquiet, hprio.trans hp1, hbudget.trans hb1⟩
  · rw [modify_proc, update_of_ne hp]
    exact h p

theorem setUid (s : PTable) (q : Slot) (v : Word) :
    KeptAll s (s.modify q fun pr => { pr with uid := v }) :=
  (refl s).store q _ fun _ => ⟨rfl, rfl, rfl⟩

theorem setGid (s : PTable) (q : Slot) (v : Word) :
    KeptAll s (s.modify q fun pr => { pr with gid := v }) :=
  (refl s).store q _ fun _ => ⟨rfl, rfl, rfl⟩

end KeptAll

end PTable

namespace Sys

variable {a : Act} {s s' : Sys} {c : ℕ} {cur : Cursor} {p q : Slot}

/-- What an action can do to the priority and the budget of the process in slot `p`, which is `pr`
    after it. -/
inductive BudgetStep (a : Act) (s : Sys) (p : Slot) (pr : Proc) : Prop
  | kept (h : (s.pt.proc p).Kept pr)
  /-- `allocproc` -/
  | fresh (hst : (s.pt.proc p).state = .unused) (hprio : pr.priority = 0)
      (hbudget : pr.budget = budget)
  /-- `yield` or `sleep`, on its own or in `wait` -/
  | charged (c : ℕ) (cur : Cursor) (hc : s.cpu c = .run cur p)
      (ha : a = .yield c ∨ (∃ chan, a = .sleep c chan) ∨ a = .wait c)
      (hup : (s.pt.proc p).GaveUp pr)
      (hprio : pr.priority = (charge s.pt.ticks (s.pt.proc p)).priority)
      (hbudget : pr.budget = (charge s.pt.ticks (s.pt.proc p)).budget)
  /-- `promoteAll` -/
  | promoted (hst : pr.state = (s.pt.proc p).state)
      (hprio : pr.priority = (s.pt.proc p).priority - 1)
      (hbudget : pr.budget = fullBudget pr.priority)
  /-- `setpriority` -/
  | set (pid priority : Int) (ha : a = .setpriority pid priority) (hpid : HasPid pid p s.pt)
      (hst : pr.state = (s.pt.proc p).state) (hprio : pr.priority ≤ maxPrio)
      (hbudget : pr.budget = fullBudget pr.priority)

/-- The result of an action, slot by slot. -/
def BudgetSteps (a : Act) (s s' : Sys) : Prop := ∀ p, BudgetStep a s p (s'.pt.proc p)

theorem BudgetSteps.of_kept (h : KeptAll s.pt s'.pt) : BudgetSteps a s s' := fun p => .kept (h p)

/-- What is charged depends on the budget, the priority and the time of dispatch only. -/
theorem charge_congr {t : Word} (hprio : pr'.priority = pr.priority)
    (hbudget : pr'.budget = pr.budget) (hin : pr'.cpuTicksIn = pr.cpuTicksIn) :
    (charge t pr').priority = (charge t pr).priority ∧
    (charge t pr').budget = (charge t pr).budget := by
  simp only [charge, hprio, hbudget, hin]
  constructor <;> split <;> rfl

/-- A section that gives up the CPU. -/
theorem BudgetSteps.of_charge {g : Proc → Proc} (hc : s.cpu c = .run cur q)
    (ha : a = .yield c ∨ (∃ chan, a = .sleep c chan) ∨ a = .wait c)
    (hrun : (s.pt.proc q).state = .running)
    (hstate : (g (s.pt.proc q)).state = .runnable ∨ (g (s.pt.proc q)).state = .sleeping)
    (hprio : (g (s.pt.proc q)).priority = (s.pt.proc q).priority)
    (hbudget : (g (s.pt.proc q)).budget = (s.pt.proc q).budget)
    (hin : (g (s.pt.proc q)).cpuTicksIn = (s.pt.proc q).cpuTicksIn)
    (hcore : s'.pt.core = (s.pt.modify q fun pr => chargeIn .p3p4 s.pt.ticks (g pr)).core) :
    BudgetSteps a s s' := by
  intro p
  have hprio' := priority_of_core hcore p
  have hbudget' := field_of_core hcore Proc.budget (fun _ _ => rfl) p
  have hstate' := state_of_core hcore p
  by_cases hp : p = q
  · subst hp
    rw [modify_proc, update_self] at hprio' hbudget' hstate'
    obtain ⟨hsame, hsame'⟩ := charge_congr (t := s.pt.ticks) hprio hbudget hin
    refine .charged c cur hc ha ⟨hrun, ?_⟩ (hprio'.trans hsame) (hbudget'.trans hsame')
    rw [hstate', chargeIn, charge_state]
    exact hstate
  · rw [modify_proc, update_of_ne hp] at hprio' hbudget' hstate'
    exact .kept ⟨hstate' ▸ .refl _, hprio', hbudget'⟩

/-! ## One lemma for each action -/

theorem schedEnter_budget (h : SysInv .p3p4 s) (hs : s.schedEnter .p3p4 c = .ok s') :
    BudgetSteps a s s' := by
  unfold schedEnter at hs
  split_ifs at hs
  obtain ⟨pt, hpt, hs⟩ := of_bind hs
  obtain rfl := Except.ok.inj hs
  obtain ⟨L, hinv⟩ := h.tab
  unfold promoteIfDue at hpt
  split at hpt
  · obtain ⟨t, L', heq, _, hcore, _⟩ := promoteAll_eq hinv
    rw [heq] at hpt
    obtain rfl := Except.ok.inj hpt
    intro p
    have hprio := priority_of_core hcore p
    have hbudget := field_of_core hcore Proc.budget (fun _ _ => rfl) p
    have hstate := state_of_core hcore p
    rw [modifyAll_proc promote (turns_nodup hinv)] at hprio hbudget hstate
    split at hprio
    · next hturn =>
      rw [if_pos hturn] at hbudget hstate
      exact .promoted hstate hprio (hbudget.trans (congrArg fullBudget hprio.symm))
    · next hturn =>
      rw [if_neg hturn] at hbudget hstate
      exact .kept ⟨hstate ▸ .refl _, hprio, hbudget⟩
  · obtain rfl := Except.ok.inj hpt
    exact .of_kept (.refl _)

theorem resume_kept {t : PTable} (h : KeptAll t s.pt) (p : Slot) : KeptAll t (s.resume p).pt := by
  have hret : KeptAll t (sleepReturn p s.pt) :=
    h.store p (fun pr => { pr with chan := .null }) fun _ => ⟨rfl, rfl, rfl⟩
  unfold resume
  split
  · exact hret
  · exact hret
  · exact h

theorem schedStep_budget (h : SysInv .p3p4 s) (hs : s.schedStep c = .ok s') :
    KeptAll s.pt s'.pt := by
  unfold schedStep at hs
  split at hs
  case isFalse => cases hs
  case isTrue =>
    split at hs
    · split at hs <;> obtain rfl := Except.ok.inj hs <;> exact .refl _
    · obtain rfl := Except.ok.inj hs
      exact .refl _
    · next i p hc =>
      obtain ⟨pt, hpt, hs⟩ := of_bind hs
      obtain rfl := Except.ok.inj hs
      obtain ⟨L, hinv⟩ := h.tab
      have hready := h.loop c i p hc
      obtain ⟨t, L', heq, _, hcore⟩ := dispatch_spec hinv hready
      rw [heq] at hpt
      obtain rfl := Except.ok.inj hpt
      refine resume_kept (s := { s with pt := t }) ?_ p
      refine KeptAll.of_core (KeptAll.modify s.pt p ?_) hcore
      exact .of_state .runnable .running (home_eq_ready.1 hready).1 rfl (by decide) rfl rfl
    · next p hc => exact absurd (h.cursor c .table (by rw [hc]; rfl)) (by simp [Cursor.fits])
    · next cur p hc =>
      obtain rfl := Except.ok.inj hs
      refine (KeptAll.refl s.pt).store p (fun pr => { pr with
        cpuTicksTotal := pr.cpuTicksTotal + (s.pt.ticks - pr.cpuTicksIn) }) fun _ => ⟨rfl, rfl, rfl⟩
    · cases hs

variable {pt : PTable}

theorem forkAlloc_budget (h : SysInv .p3p4 s) {np : Option Slot}
    (hpt : allocproc .p3p4 s.pt = .ok (np, pt)) (hs : s'.pt = pt) : BudgetSteps a s s' := by
  obtain ⟨L, hinv⟩ := h.tab
  cases hL : L .free with
  | nil =>
    rw [allocproc_none hinv hL] at hpt
    cases hpt
    exact .of_kept (hs ▸ .refl _)
  | cons q rest =>
    obtain ⟨t, heq, _, hcore⟩ := allocproc_some hinv hL
    rw [heq] at hpt
    cases hpt
    have hfree : (s.pt.proc q).state = .unused := by
      rw [← home_eq_free]
      exact (hinv.mem_iff q _).1 (by rw [hL]; exact List.mem_cons_self)
    intro p
    have hprio := priority_of_core hcore p
    have hbudget := field_of_core hcore Proc.budget (fun _ _ => rfl) p
    have hstate := state_of_core hcore p
    rw [hs]
    by_cases hp : p = q
    · subst hp
      simp only [allocated, modify_proc, update_self] at hprio hbudget
      exact .fresh hfree hprio hbudget
    · simp only [allocated, modify_proc, update_of_ne hp] at hprio hbudget hstate
      exact .kept ⟨hstate ▸ .refl _, hprio, hbudget⟩

/-- A section that changes the state of one slot. -/
theorem keptAll_setState {t pt : PTable} {q : Slot} {st st' : ProcState}
    (hcore : pt.core = (t.setState q st').core)
    (hst : (t.proc q).state = st) (hquiet : st.Quiet st') : KeptAll t pt :=
  (KeptAll.modify t q (.of_state st st' hst rfl hquiet rfl rfl)).of_core hcore

variable {L : ListId → List Slot}

theorem wakeOne_kept {t : PTable} (hinv : Inv t L) (chan : Chan) :
    KeptAll t (wakeOne (firstSleeper L chan t) t) := by
  cases hf : firstSleeper L chan t with
  | none => exact .refl t
  | some q =>
    exact keptAll_setState rfl (firstSleeper_state hinv hf).1 (by decide)

theorem exit_kept (h : SysInv .p3p4 s) (hrun : (s.pt.proc q).state = .running)
    (hpt : PTable.exit .p3p4 q s.pt = .ok pt) : KeptAll s.pt pt := by
  by_cases hinit : s.pt.initproc = some q
  · simp [PTable.exit, hinit] at hpt
  · obtain ⟨L, hinv⟩ := h.tab
    obtain ⟨t, L', heq, _, hcore, _⟩ := exit_spec hinv hrun hinit
    rw [heq] at hpt
    obtain rfl := Except.ok.inj hpt
    refine KeptAll.of_core (fun p => ?_) hcore
    have hwake := wakeOne_kept hinv (.ofPtr (s.pt.proc q).parent) p
    unfold exited
    generalize wakeOne (firstSleeper L (.ofPtr (s.pt.proc q).parent) s.pt) s.pt = w at hwake ⊢
    have hadopt : (s.pt.proc p).Kept ((abandonLive q w).proc p) := by
      have hlive : ∀ pr, (reparentLive q w.initproc pr).priority = pr.priority ∧
          (reparentLive q w.initproc pr).budget = pr.budget := by
        intro pr
        unfold reparentLive
        split <;> exact ⟨rfl, rfl⟩
      refine ⟨?_, (hlive _).1.trans hwake.priority, (hlive _).2.trans hwake.budget⟩
      rw [show ((abandonLive q w).proc p).state = (w.proc p).state from reparentLive_state ..]
      exact hwake.quiet
    by_cases hp : p = q
    · subst hp
      rw [PTable.setState, modify_proc, update_self]
      exact .of_state .running .zombie hrun rfl (by decide) hadopt.priority hadopt.budget
    · rw [PTable.setState, modify_proc, update_of_ne hp]
      exact hadopt

theorem setpriority_budget (h : SysInv .p3p4 s) {pid priority r : Int} (h0 : 0 ≤ priority)
    (h1 : priority ≤ maxPrio) (hpt : setpriority pid priority s.pt = .ok (r, pt))
    (hs : s'.pt = pt) :
    BudgetSteps (.setpriority pid priority) s s' := by
  obtain ⟨L, hinv⟩ := h.tab
  have hset : ∀ q n t, HasPid pid q s.pt → n ≤ maxPrio →
    t.core = (s.pt.modify q (setLevel n)).core → s'.pt = t →
      BudgetSteps (.setpriority pid priority) s s' := by
    intro q n t hpid hn hcore hs p
    have hprio := priority_of_core hcore p
    have hbudget := field_of_core hcore Proc.budget (fun _ _ => rfl) p
    have hstate := state_of_core hcore p
    rw [hs]
    by_cases hp : p = q
    · subst hp
      rw [modify_proc, update_self] at hprio hbudget hstate
      refine .set pid priority rfl hpid hstate (hprio.le.trans hn) ?_
      rw [hbudget, hprio]
      rfl
    · rw [modify_proc, update_of_ne hp] at hprio hbudget hstate
      exact .kept ⟨hstate ▸ .refl _, hprio, hbudget⟩
  have hcases := setpriority_eq hinv pid priority
  rw [hpt] at hcases
  cases hcases with
  | refused => exact .of_kept (hs ▸ .refl _)
  | moved q i j t hpid _ hst _ _ _ _ hcore =>
    exact hset q j.val _ ⟨Or.inl hst, hpid⟩ (Nat.le_of_lt_succ j.isLt) hcore hs
  | set q hpid _ hst => exact hset q _ _ ⟨Or.inr hst, hpid⟩ (by omega) rfl hs
  | missed => exact .of_kept (hs ▸ .refl _)

theorem kill_kept {t pt : PTable} (hinv : Inv t L) {pid : Word} {r : Int}
    (hpt : kill .p3p4 pid t = .ok (r, pt)) : KeptAll t pt := by
  obtain ⟨_, _, _, heq, _, rfl | ⟨q, hcore⟩⟩ := kill_spec hinv pid
  · rw [heq] at hpt
    cases hpt
    exact .refl _
  · rw [heq] at hpt
    cases hpt
    have hquiet : ∀ st : ProcState, st.Quiet (if st = .sleeping then .runnable else st) := by
      intro st
      cases st <;> decide
    exact KeptAll.of_core (KeptAll.modify t q ⟨hquiet _, rfl, rfl⟩) hcore

/-- What an action does to the priorities and the budgets. -/
theorem step_budget (h : SysInv .p3p4 s) (hok : PrioOk a s) :
    Yields (fun _ => True) (BudgetSteps a s) (s.step .p3p4 a) := by
  cases a with
  | tick => exact .ok (.of_kept (.refl _))
  | schedEnter c => exact .of_ok fun s' hs => schedEnter_budget h hs
  | schedStep c => exact .of_ok fun s' hs => .of_kept (schedStep_budget h hs)
  | forkAlloc c =>
    refine yields_locked fun cur q hc _ v hv => ?_
    obtain ⟨np, pt⟩ := v
    cases np <;> exact .ok (forkAlloc_budget h hv rfl)
  | forkFail c =>
    refine yields_lockedChild fun cur q np hc _ hk pt hpt => .ok (.of_kept ?_)
    obtain ⟨L, hinv⟩ := h.tab
    obtain ⟨t, heq, _, hcore⟩ := rollback_spec hinv (h.life.alloc q np (atAlloc_eq hk)).1
    rw [heq] at hpt
    obtain rfl := Except.ok.inj hpt
    exact keptAll_setState hcore (h.life.alloc q np (atAlloc_eq hk)).1 (by decide)
  | forkPublish c =>
    refine yields_lockedChild fun cur q np hc _ hk pt hpt => .ok (.of_kept ?_)
    obtain ⟨L, hinv⟩ := h.tab
    have hemb : (s.pt.proc np).state = .embryo := (h.life.ready q np (atReady_eq hk)).1
    obtain ⟨t, heq, _, hcore⟩ := forkPublish_spec hinv hemb
    rw [heq] at hpt
    obtain rfl := Except.ok.inj hpt
    exact keptAll_setState hcore hemb (by decide)
  | forkCopy c =>
    exact yields_child fun _ q np _ _ =>
      .of_kept ((KeptAll.refl s.pt).store np (fun pr =>
        { pr with sz := (s.pt.proc q).sz, parent := some q, name := (s.pt.proc q).name })
        fun _ => ⟨rfl, rfl, rfl⟩)
  | forkUid c =>
    exact yields_child fun _ q np _ _ => (.of_kept (KeptAll.setUid s.pt np _))
  | forkGid c =>
    exact yields_child fun _ q np _ _ => (.of_kept (KeptAll.setGid s.pt np _))
  | setuid c v | execSetuid c v =>
    exact yields_own fun _ q _ _ => (.of_kept (KeptAll.setUid s.pt q _))
  | setgid c v =>
    exact yields_own fun _ q _ _ => (.of_kept (KeptAll.setGid s.pt q _))
  | exit c =>
    exact yields_locked fun cur q hc _ pt hpt => .ok (.of_kept (exit_kept h (h.running hc) hpt))
  | wait c =>
    refine yields_locked fun cur q hc _ v hv => ?_
    obtain ⟨L, hinv⟩ := h.tab
    obtain ⟨p, t, L', heq, _, hz, _, hcore⟩ | heq | ⟨t, L', heq, _, hcore, _⟩ :=
      wait_cases hinv (h.running hc)
    · rw [heq] at hv
      obtain rfl := Except.ok.inj hv
      refine .ok (.of_kept (KeptAll.of_core (KeptAll.modify s.pt p ?_) hcore))
      exact .of_state .zombie .unused hz rfl (by decide) rfl rfl
    · rw [heq] at hv
      obtain rfl := Except.ok.inj hv
      exact .ok (.of_kept (.refl _))
    · rw [heq] at hv
      obtain rfl := Except.ok.inj hv
      exact .ok (.of_charge hc (Or.inr (Or.inr rfl)) (h.running hc) (Or.inr rfl) rfl rfl rfl hcore)
  | yield c =>
    refine yields_locked fun cur q hc _ pt hpt => .ok ?_
    obtain ⟨L, hinv⟩ := h.tab
    obtain ⟨t, L', heq, _, hcore, _⟩ := yield_spec hinv (h.running hc)
    rw [heq] at hpt
    obtain rfl := Except.ok.inj hpt
    exact .of_charge hc (Or.inl rfl) (h.running hc) (Or.inl rfl) rfl rfl rfl hcore
  | sleep c chan =>
    refine yields_locked fun cur q hc _ pt hpt => .ok ?_
    obtain ⟨L, hinv⟩ := h.tab
    obtain ⟨t, heq, _, hcore, _⟩ := sleep_spec hinv (h.running hc) chan
    rw [heq] at hpt
    obtain rfl := Except.ok.inj hpt
    exact .of_charge hc (Or.inr (Or.inl ⟨chan, rfl⟩)) (h.running hc) (Or.inr rfl) rfl rfl rfl hcore
  | wakeup chan =>
    refine yields_guarded fun _ => yields_section fun pt hpt => .ok (.of_kept ?_)
    obtain ⟨L, hinv⟩ := h.tab
    obtain ⟨t, L', heq, _, hcore⟩ := wakeup1_core hinv chan
    rw [heq] at hpt
    obtain rfl := Except.ok.inj hpt
    exact (wakeOne_kept hinv chan).of_core hcore
  | kill pid =>
    refine yields_guarded fun _ => yields_section fun v hv => .ok (.of_kept ?_)
    obtain ⟨L, hinv⟩ := h.tab
    exact kill_kept hinv hv
  | setpriority pid priority =>
    refine yields_guarded fun _ => yields_section fun v hv => .ok ?_
    exact setpriority_budget h hok.1 hok.2 hv rfl

/-! ## The books -/

/-- The budget that a process was last given, and the ticks it has been charged since. -/
structure Account where
  granted : ℕ
  charged : ℕ

/-- The ticks since process `p` was dispatched. -/
def slice (p : Slot) (s : Sys) : Word := s.pt.ticks - (s.pt.proc p).cpuTicksIn

/-- The books for process `p`, which is `pr` after an action. It is charged its time slice if it
    gives up the CPU. If its budget is not what this leaves, or its priority has changed, then it
    has been given a new one. -/
def Account.after (p : Slot) (s : Sys) (pr : Proc) (k : Account) : Account :=
  let t := if (s.pt.proc p).GaveUp pr then s.slice p else 0
  if pr.budget = (s.pt.proc p).budget - t ∧ pr.priority = (s.pt.proc p).priority then
    ⟨k.granted, k.charged + t.toNat⟩
  else ⟨pr.budget.toNat, 0⟩

/-- The machine with its books. -/
structure Ledger where
  sys : Sys
  account : Slot → Account

namespace Ledger

def step (a : Act) (l : Ledger) : Except Halt Ledger := do
  let s ← l.sys.step .p3p4 a
  .ok ⟨s, fun p => (l.account p).after p l.sys (s.pt.proc p)⟩

def Init (l : Ledger) : Prop :=
  Sys.Init .p3p4 l.sys ∧ l.account = fun p => ⟨(l.sys.pt.proc p).budget.toNat, 0⟩

end Ledger

/-- The time slice that an action ends is shorter than 2^31 ticks. -/
def SliceOk (a : Act) (s : Sys) : Prop :=
  ∀ c cur p, s.cpu c = .run cur p → (a = .yield c ∨ (∃ chan, a = .sleep c chan) ∨ a = .wait c) →
    (s.slice p).toNat < 2 ^ 31

/-- Priorities have a list, and no time slice lasts 2^31 ticks. -/
def Ledger.Ok (a : Act) (l : Ledger) : Prop := PrioOk a l.sys ∧ SliceOk a l.sys

/-- The budget of a process and its account agree. -/
def Balanced (pr : Proc) (k : Account) : Prop :=
  pr.priority ≤ maxPrio ∧
    (pr.state = .unused ∧ pr.budget = 0 ∨
      k.granted = budget.toNat * (pr.priority + 1) ∧ k.charged < k.granted ∧
        pr.budget.toNat = k.granted - k.charged)

theorem budget_toNat : budget.toNat = 100 := rfl

theorem fullBudget_toNat {n : ℕ} (hn : n ≤ maxPrio) :
    (fullBudget n).toNat = budget.toNat * (n + 1) := by
  have hn' : n ≤ 6 := hn
  rw [fullBudget, BitVec.toNat_mul, BitVec.toNat_ofNat, budget_toNat]
  omega

/-- A new budget, whether it is seen in the books or not. -/
theorem Balanced.given {k : Account} (h : Balanced pr k) (hprio : pr'.priority ≤ maxPrio)
    (hbudget : pr'.budget = fullBudget pr'.priority) :
    Balanced pr' (if pr'.budget = pr.budget ∧ pr'.priority = pr.priority then k else ⟨pr'.budget.toNat, 0⟩) := by
  have hfull := fullBudget_toNat hprio
  rw [← hbudget, budget_toNat] at hfull
  refine ⟨hprio, Or.inr ?_⟩
  split
  · next hsame =>
    obtain ⟨-, ⟨-, hzero⟩ | hok⟩ := h
    · rw [hsame.1, hzero] at hfull
      simp at hfull
    · rwa [hsame.1, hsame.2]
  · rw [budget_toNat]
    exact ⟨hfull, by show 0 < pr'.budget.toNat; omega, rfl⟩

/-- The difference that `yield` computes, where neither operand is large. -/
theorem sub_toInt {x t : Word} (hx : x.toNat < 2 ^ 31) (ht : t.toNat < 2 ^ 31) :
    (x - t).toInt = (x.toNat : Int) - t.toNat := by
  rw [BitVec.toInt_eq_toNat_cond, BitVec.toNat_sub]
  have := x.isLt
  split <;> omega

/-- What `charge` does in terms of the books. -/
theorem Balanced.charge_cases {pr : Proc} {k : Account} {ticks : Word} (h : Balanced pr k)
    (hst : pr.state = .running) (hslice : (ticks - pr.cpuTicksIn).toNat < 2 ^ 31) :
    (k.granted ≤ k.charged + (ticks - pr.cpuTicksIn).toNat ∧
      (charge ticks pr).priority = (if pr.priority < maxPrio then pr.priority + 1 else pr.priority) ∧
      (charge ticks pr).budget = fullBudget (charge ticks pr).priority ∧
      (charge ticks pr).budget ≠ pr.budget - (ticks - pr.cpuTicksIn)) ∨
    (k.charged + (ticks - pr.cpuTicksIn).toNat < k.granted ∧
      (charge ticks pr).priority = pr.priority ∧
      (charge ticks pr).budget = pr.budget - (ticks - pr.cpuTicksIn)) := by
  obtain ⟨hprio, ⟨hunused, -⟩ | ⟨hgranted, hcharged, hbudget⟩⟩ := h
  · rw [hst] at hunused
    cases hunused
  rw [budget_toNat] at hgranted
  have hprio' : pr.priority ≤ 6 := hprio
  have hleft := sub_toInt (x := pr.budget) (by omega) hslice
  by_cases hle : (pr.budget - (ticks - pr.cpuTicksIn)).toInt ≤ 0
  · have hcharge : charge ticks pr = setLevel (if pr.priority < maxPrio then pr.priority + 1 else pr.priority) pr :=
      if_pos hle
    rw [hcharge]
    refine Or.inl ⟨by omega, rfl, rfl, fun he => ?_⟩
    have hpos := fullBudget_toNat (n := if pr.priority < maxPrio then pr.priority + 1 else pr.priority) (by
      split <;> omega)
    rw [show fullBudget _ = _ from he, budget_toNat] at hpos
    rw [BitVec.toInt_eq_toNat_cond] at hle
    split at hle
    · omega
    · split at hpos <;> omega
  · have hcharge : charge ticks pr = { pr with budget := pr.budget - (ticks - pr.cpuTicksIn) } :=
      if_neg hle
    rw [hcharge]
    exact Or.inr ⟨by omega, rfl, rfl⟩

variable {l : Ledger}

theorem Balanced.step {p : Slot} {pr : Proc} (h : Balanced (l.sys.pt.proc p) (l.account p))
    (hslice : SliceOk a l.sys) (hstep : BudgetStep a l.sys p pr) :
    Balanced pr ((l.account p).after p l.sys pr) := by
  -- Without a charge the books show a new budget or nothing.
  have hgiven : ¬(l.sys.pt.proc p).GaveUp pr → pr.priority ≤ maxPrio →
    pr.budget = fullBudget pr.priority →
      Balanced pr ((l.account p).after p l.sys pr) := by
    intro hno hprio hbudget
    have := h.given hprio hbudget
    simpa [Account.after, hno] using this
  have hquiet : pr.state = (l.sys.pt.proc p).state → ¬(l.sys.pt.proc p).GaveUp pr := by
    rintro hst ⟨hrun, hup⟩
    rw [hst, hrun] at hup
    simp at hup
  cases hstep with
  | kept hkept =>
    have hafter : (l.account p).after p l.sys pr = l.account p := by
      simp [Account.after, hkept.not_gaveUp, hkept.priority, hkept.budget]
    rw [hafter]
    refine ⟨hkept.priority.le.trans h.1, ?_⟩
    rw [hkept.priority, hkept.budget]
    exact h.2.imp (fun hun => ⟨hkept.quiet.2 hun.1, hun.2⟩) id
  | fresh hst hprio hbudget =>
    refine hgiven (fun hup => ?_) (by omega) ?_
    · rw [Proc.GaveUp, hst] at hup
      cases hup.1
    · rw [hprio, hbudget]
      rfl
  | promoted hst hprio hbudget => exact hgiven (hquiet hst) (by have := h.1; omega) hbudget
  | set pid priority _ _ hst hprio hbudget => exact hgiven (hquiet hst) hprio hbudget
  | charged c cur hc ha hup hprio hbudget =>
    have hcases := h.charge_cases hup.1 (hslice c cur p hc ha)
    rw [← hprio, ← hbudget] at hcases
    have hle : pr.priority ≤ maxPrio := hprio ▸ charge_priority_le h.1
    unfold Account.after
    rw [if_pos hup]
    obtain ⟨-, -, hfull, hne⟩ | ⟨hless, hsame, hleft⟩ := hcases
    · rw [if_neg fun hand => hne hand.1]
      have hnat := fullBudget_toNat hle
      rw [← hfull] at hnat
      refine ⟨hle, Or.inr ⟨hnat, ?_, rfl⟩⟩
      show 0 < pr.budget.toNat
      rw [hnat, budget_toNat]
      omega
    · rw [if_pos ⟨hleft, hsame⟩]
      obtain ⟨-, ⟨hunused, -⟩ | ⟨hgranted, hcharged, hnat⟩⟩ := h
      · rw [hup.1] at hunused
        cases hunused
      have hsub : pr.budget.toNat =
          (l.account p).granted - ((l.account p).charged + (l.sys.slice p).toNat) := by
        rw [hleft, BitVec.toNat_sub_of_le]
        · rw [hnat, slice]
          omega
        · rw [BitVec.le_def, hnat]
          omega
      rw [← hsame] at hgranted
      exact ⟨hle, Or.inr ⟨hgranted, hless, hsub⟩⟩

/-! ## Whole runs -/

/-- The first table: one process with the budget of level 0. -/
theorem userinit_level {ticks : Word} (h : userinit .p3p4 ticks = .ok pt) (p : Slot) :
    (pt.proc p).priority = 0 ∧
      ((pt.proc p).state = .unused ∧ (pt.proc p).budget = 0 ∨ (pt.proc p).budget = budget) := by
  obtain ⟨s, hs, -, hcore⟩ := userinit_p3p4 ticks
  rw [h] at hs
  obtain rfl := Except.ok.inj hs
  rw [priority_of_core hcore, state_of_core hcore, field_of_core hcore Proc.budget fun _ _ => rfl]
  by_cases hp : p = 0
  · subst hp
    exact ⟨rfl, Or.inr rfl⟩
  · have hzero : (booted ticks 0).proc p = {} := by
      simp [booted, allocated, zero, hp]
    rw [show ({ booted ticks 0 with promoteAtTime := ticks + ticksToPromote } : PTable).proc p =
      {} from hzero]
    exact ⟨rfl, Or.inl ⟨rfl, rfl⟩⟩

theorem Ledger.reachable_sys (h : Reachable Ledger.step Ledger.Init Ledger.Ok l) :
    Reachable (Sys.step .p3p4) (Sys.Init .p3p4) PrioOk l.sys := by
  induction h with
  | init hinit => exact .init hinit.1
  | step _ hok hstep ih =>
    obtain ⟨s', hs, he⟩ := of_bind hstep
    obtain rfl := Except.ok.inj he
    exact .step ih hok.1 hs

theorem Ledger.balanced (h : Reachable Ledger.step Ledger.Init Ledger.Ok l) (p : Slot) :
    Balanced (l.sys.pt.proc p) (l.account p) := by
  induction h with
  | init hinit =>
    obtain ⟨⟨ticks, pt, hpt, hs⟩, hbooks⟩ := hinit
    rw [hbooks, hs]
    obtain ⟨hprio, hbudget⟩ := userinit_level hpt p
    show Balanced (pt.proc p) ⟨(pt.proc p).budget.toNat, 0⟩
    refine ⟨hprio.le.trans (Nat.zero_le _), hbudget.imp id fun hb => ?_⟩
    rw [hb, hprio]
    exact ⟨rfl, by decide, rfl⟩
  | step hreach hok hstep ih =>
    obtain ⟨s', hs, he⟩ := of_bind hstep
    obtain rfl := Except.ok.inj he
    have hinv := reachable_inv (Ledger.reachable_sys hreach)
    exact ih.step hok.2 ((step_budget hinv hok.1).1 s' hs p)

/-- A process that is ready or sleeps has a priority in range and something left of the budget of
    its level. And unless by `setpriority`, its priority number only goes up when it gives up the
    CPU, by one, and has been charged all of the budget it was last given. -/
theorem budget_sound (l : Ledger) (h : Reachable Ledger.step Ledger.Init Ledger.Ok l) :
    (∀ p, (l.sys.pt.proc p).state = .runnable ∨ (l.sys.pt.proc p).state = .sleeping →
      (l.sys.pt.proc p).priority ≤ maxPrio ∧ 1 ≤ (l.sys.pt.proc p).budget.toInt ∧
        (l.sys.pt.proc p).budget.toInt ≤ budget.toInt * ((l.sys.pt.proc p).priority + 1)) ∧
    ∀ a l', Ledger.Ok a l → l.step a = .ok l' → ∀ p,
      (l.sys.pt.proc p).priority < (l'.sys.pt.proc p).priority →
        (∃ pid priority, a = .setpriority pid priority ∧ HasPid pid p l.sys.pt) ∨
        ((∃ c cur, l.sys.cpu c = .run cur p ∧ (a = .yield c ∨ (∃ chan, a = .sleep c chan) ∨ a = .wait c)) ∧
          (l'.sys.pt.proc p).priority = (l.sys.pt.proc p).priority + 1 ∧
          (l.account p).granted ≤ (l.account p).charged + (l.sys.slice p).toNat) := by
  refine ⟨fun p hst => ?_, fun a l' hok hstep p hup => ?_⟩
  · obtain ⟨hprio, ⟨hunused, -⟩ | ⟨hgranted, hcharged, hnat⟩⟩ := Ledger.balanced h p
    · rw [hunused] at hst
      simp at hst
    · have hprio' : (l.sys.pt.proc p).priority ≤ 6 := hprio
      rw [budget_toNat] at hgranted
      have hint : (l.sys.pt.proc p).budget.toInt = (l.sys.pt.proc p).budget.toNat := by
        rw [BitVec.toInt_eq_toNat_cond, if_pos (by omega)]
      rw [hint, show budget.toInt = 100 from rfl]
      exact ⟨hprio, by omega, by omega⟩
  · obtain ⟨s', hs, he⟩ := of_bind hstep
    obtain rfl := Except.ok.inj he
    replace hup : (l.sys.pt.proc p).priority < (s'.pt.proc p).priority := hup
    have hinv := reachable_inv (Ledger.reachable_sys h)
    have hbal := Ledger.balanced h p
    obtain hkept | ⟨-, hprio, -⟩ | ⟨c, cur, hc, ha, hgave, hprio, -⟩ | ⟨-, hprio, -⟩ | ⟨pid,
      priority, ha, hpid, -⟩ :=
      (step_budget hinv hok.1).1 s' hs p
    · exact absurd hkept.priority hup.ne'
    · omega
    · obtain ⟨hspent, hlevel, -⟩ | ⟨-, hsame, -⟩ := hbal.charge_cases hgave.1 (hok.2 c cur p hc ha)
      · refine Or.inr ⟨⟨c, cur, hc, ha⟩, ?_, hspent⟩
        rw [← hprio] at hlevel
        split at hlevel
        · exact hlevel
        · exact absurd hlevel hup.ne'
      · exact absurd (hprio.trans hsame) hup.ne'
    · omega
    · exact Or.inl ⟨pid, priority, ha, hpid⟩

/-- `SliceOk` as a test. -/
def sliceOk (a : Act) (s : Sys) : Bool :=
  match a with
  | .yield c | .sleep c _ | .wait c =>
    match s.cpu c with
    | .run _ p => (s.slice p).toNat < 2 ^ 31
    | _ => true
  | _ => true

theorem sliceOk_sound {a : Act} {s : Sys} (h : sliceOk a s = true) : SliceOk a s := by
  intro c cur p hc ha
  rcases ha with rfl | ⟨chan, rfl⟩ | rfl <;> simpa [sliceOk, hc] using h

/-- The books can be kept of any run. -/
theorem Ledger.exists_reachable {s : Sys}
    (h : Reachable (Sys.step .p3p4) (Sys.Init .p3p4) (fun a s => PrioOk a s ∧ sliceOk a s = true) s) :
    ∃ k, Reachable Ledger.step Ledger.Init Ledger.Ok ⟨s, k⟩ := by
  induction h with
  | @init s hinit => exact ⟨fun p => ⟨(s.pt.proc p).budget.toNat, 0⟩, .init ⟨hinit, rfl⟩⟩
  | @step s s' a _ hok hstep ih =>
    obtain ⟨k, hreach⟩ := ih
    refine ⟨fun p => (k p).after p s (s'.pt.proc p), .step hreach ⟨hok.1, sliceOk_sound hok.2⟩ ?_⟩
    rw [Ledger.step, hstep]
    rfl

/-- The first process runs for 30 ticks and for 75. -/
def twoSlices : List Act :=
  [.schedEnter 0, .schedStep 0] ++ List.replicate 30 .tick ++ [.yield 0] ++
    List.replicate 8 (.schedStep 0) ++ [.schedEnter 0, .schedStep 0] ++ List.replicate 75 .tick

set_option maxRecDepth 100000 in
/-- It has used its 100 ticks then, and goes down when it sleeps. -/
theorem budget_sound_demoted :
    ∃ l l', Reachable Ledger.step Ledger.Init Ledger.Ok l ∧ l.step (.sleep 0 (.addr 7)) = .ok l' ∧
      (l'.sys.pt.proc 0).priority = 1 ∧
      (l.account 0).granted ≤ (l.account 0).charged + (l.sys.slice 0).toNat := by
  obtain ⟨s, hrun, hok, hzero, hsleep⟩ :=
    reachable_any .p3p4 (fun a s => PrioOk a s ∧ sliceOk a s = true) twoSlices
    (fun s => sliceOk (.sleep 0 (.addr 7)) s = true ∧ (s.pt.proc 0).priority = 0 ∧
      (s.step .p3p4 (.sleep 0 (.addr 7))).toOption.any fun s' =>
        decide ((s'.pt.proc 0).priority = 1))
    (by decide +kernel)
  obtain ⟨s', hs', hone⟩ := exists_ok (fun s' : Sys => (s'.pt.proc 0).priority = 1) hsleep
  obtain ⟨k, hreach⟩ := Ledger.exists_reachable hrun
  have hstep : Ledger.step (.sleep 0 (.addr 7)) ⟨s, k⟩ = .ok ⟨s',
      fun p => (k p).after p s (s'.pt.proc p)⟩ := by
    rw [Ledger.step, hs']
    rfl
  obtain ⟨pid, priority, ha, -⟩ | ⟨-, -, hspent⟩ :=
    (budget_sound _ hreach).2 (.sleep 0 (.addr 7)) _ ⟨trivial, sliceOk_sound hok⟩ hstep 0
      (show (s.pt.proc 0).priority < (s'.pt.proc 0).priority by omega)
  · cases ha
  · exact ⟨_, _, hreach, hstep, hone, hspent⟩

end Sys

end Xv6
