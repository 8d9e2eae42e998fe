import Xv6.Proc.Refine

set_option autoImplicit false

/-! # Whom `kill` reaches (table scan)

`kill` compares `pid` with every slot of the table, and a slot that is `UNUSED` still has one: 0
after `wait` and before its first use, the number of a process that never came to be after a failed
`fork`. Nothing resets `killed` when such a slot is handed out again, so a process may be killed
before it is born.

`trap` also stores to `killed`, without the lock, when the running process has faulted. The rollback
of `allocproc` and `fork` stores `UNUSED` without the lock too. `KillAct` adds both to the actions
of the machine. -/

namespace Xv6

open Transition PTable Stoppable

/-- An action of the machine, or a store made without the lock that it leaves out. -/
inductive KillAct
  | act (a : Act)
  /-- `trap`: `proc->killed = 1`. -/
  | fault (c : ℕ)
  /-- `p->state = UNUSED` when `kalloc` or `copyuvm` has failed, at any time. -/
  | unalloc (c : ℕ)
  deriving DecidableEq, Repr

namespace PTable

variable {s s' : PTable} {p : Slot}

/-- No process that is still to come has been killed. -/
def UnusedClean (s : PTable) : Prop := ∀ p, (s.proc p).state = .unused → (s.proc p).killed = false

/-- The slot that `kill(pid)` comes to is not `UNUSED`. -/
def PidLive (pid : Word) (s : PTable) : Prop :=
  ∀ p, (s.proc p).state = .unused → (s.proc p).pid = pid → ∃ q < p, (s.proc q).pid = pid

instance (pid : Word) (s : PTable) : Decidable (PidLive pid s) :=
  inferInstanceAs (Decidable (∀ p, (s.proc p).state = .unused → (s.proc p).pid = pid →
    ∃ q < p, (s.proc q).pid = pid))

/-- `kill(pid)` returns 0 exactly if a process that is not `UNUSED` has that pid, and then it kills
    such a process and does nothing else. -/
def KillCorrect (pid : Word) (s : PTable) : Prop :=
  ((killTable pid s).1 = 0 ↔ ∃ p, (s.proc p).state ≠ .unused ∧ (s.proc p).pid = pid) ∧
    ((killTable pid s).1 = 0 → ∃ p, (s.proc p).state ≠ .unused ∧ (s.proc p).pid = pid ∧
      (killTable pid s).2 = s.modify p killProc) ∧
    ((killTable pid s).1 ≠ 0 → (killTable pid s).2 = s)

/-! ## One call of `kill` -/

/-- The effect of `kill` on the first slot that has the pid. -/
theorem killTable_cases (pid : Word) (s : PTable) :
    (killTable pid s = (-1, s) ∧ ∀ p, (s.proc p).pid ≠ pid) ∨
      ∃ p, killTable pid s = (0, s.modify p killProc) ∧ (s.proc p).pid = pid ∧
        ∀ q < p, (s.proc q).pid ≠ pid := by
  unfold killTable
  split
  · next hnone =>
      refine .inl ⟨rfl, fun p => ?_⟩
      simpa using List.find?_eq_none.1 hnone p (List.mem_finRange p)
  · next p hsome =>
      obtain ⟨hp, i, hi, hip, hbefore⟩ := List.find?_eq_some_iff_getElem.1 hsome
      have hpi : i = p.val := by rw [← hip]; simp
      refine .inr ⟨p, congrArg (Prod.mk 0) (setKilled_wake p s), of_decide_eq_true hp,
        fun q hq => ?_⟩
      have hne := hbefore q.val (by rw [hpi]; exact hq)
      simpa using hne

theorem UnusedClean.modify_iff (h : UnusedClean s) (p : Slot) (f : Proc → Proc) :
    UnusedClean (s.modify p f) ↔ ((f (s.proc p)).state = .unused →
      (f (s.proc p)).killed = false) := by
  constructor
  · intro h' hst
    simpa using h' p (by simpa using hst)
  · intro hp x hx
    by_cases hxp : x = p
    · subst hxp
      simpa using hp (by simpa using hx)
    · simpa [hxp] using h x (by simpa [hxp] using hx)

/-- Killing an `UNUSED` slot is what spoils it. -/
theorem unusedClean_killed_iff (h : UnusedClean s) (p : Slot) :
    UnusedClean (s.modify p killProc) ↔ (s.proc p).state ≠ .unused := by
  rw [h.modify_iff]
  by_cases hst : (s.proc p).state = .sleeping
  · simp [killProc, hst]
  · simp [killProc, hst]

theorem pidLive_iff {pid : Word} (hp : (s.proc p).pid = pid)
    (hfirst : ∀ q < p, (s.proc q).pid ≠ pid) :
    PidLive pid s ↔ (s.proc p).state ≠ .unused := by
  constructor
  · intro h hst
    obtain ⟨q, hq, hpid⟩ := h p hst hp
    exact hfirst q hq hpid
  · intro hst x hx hpid
    refine ⟨p, lt_of_le_of_ne (not_lt.1 fun hlt => hfirst x hlt hpid) ?_, hp⟩
    rintro rfl
    exact hst hx

theorem unusedClean_kill_iff (h : UnusedClean s) (pid : Word) :
    UnusedClean (killTable pid s).2 ↔ PidLive pid s := by
  rcases killTable_cases pid s with ⟨heq, hnone⟩ | ⟨p, heq, hp, hfirst⟩
  · rw [heq]
    exact iff_of_true h fun p _ hp => absurd hp (hnone p)
  · rw [heq, pidLive_iff hp hfirst]
    exact unusedClean_killed_iff h p

theorem killCorrect_iff (h : UnusedClean s) (pid : Word) : KillCorrect pid s ↔ PidLive pid s := by
  rcases killTable_cases pid s with ⟨heq, hnone⟩ | ⟨p, heq, hp, hfirst⟩
  · refine iff_of_true ?_ fun p _ hp => absurd hp (hnone p)
    simp [KillCorrect, heq, hnone]
  · rw [pidLive_iff hp hfirst]
    unfold KillCorrect
    rw [heq]
    constructor
    · rintro ⟨-, hkill, -⟩ hst
      obtain ⟨q, hq, -, hmod⟩ := hkill rfl
      -- the slot that was hit is `UNUSED`, so it is another one, and that one was clean
      have hclean : UnusedClean (s.modify q killProc) := (unusedClean_killed_iff h q).2 hq
      rw [← hmod] at hclean
      exact (unusedClean_killed_iff h p).1 hclean hst
    · intro hst
      exact ⟨iff_of_true rfl ⟨p, hst, hp⟩, fun _ => ⟨p, hst, hp, rfl⟩, fun hne => absurd rfl hne⟩

/-! ## The other sections -/

/-- No slot becomes `UNUSED`, and those that stay so are not killed. -/
structure Tame (s s' : PTable) : Prop where
  unused : ∀ p, (s'.proc p).state = .unused →
    (s.proc p).state = .unused ∧ (s'.proc p).killed = (s.proc p).killed

theorem Tame.refl (s : PTable) : Tame s s := ⟨fun _ hp => ⟨hp, rfl⟩⟩

theorem Tame.trans {s'' : PTable} (h : Tame s s') (h' : Tame s' s'') : Tame s s'' := by
  refine ⟨fun p hp => ?_⟩
  obtain ⟨hp', hk'⟩ := h'.unused p hp
  obtain ⟨hp, hk⟩ := h.unused p hp'
  exact ⟨hp, hk'.trans hk⟩

theorem Tame.clean (h : Tame s s') (hs : UnusedClean s) : UnusedClean s' := by
  intro p hp
  obtain ⟨hu, hk⟩ := h.unused p hp
  exact hk.trans (hs p hu)

theorem Tame.modify (s : PTable) (p : Slot) {f : Proc → Proc} (hf : (f (s.proc p)).state = .unused →
      (s.proc p).state = .unused ∧ (f (s.proc p)).killed = (s.proc p).killed) :
    Tame s (s.modify p f) := by
  refine ⟨fun x hx => ?_⟩
  by_cases hxp : x = p
  · subst hxp
    simpa using hf (by simpa using hx)
  · exact ⟨by simpa [hxp] using hx, by simp [hxp]⟩

/-- An assignment to other fields. -/
theorem Tame.fields (s : PTable) (p : Slot) {f : Proc → Proc} (hst : ∀ pr, (f pr).state = pr.state)
    (hk : ∀ pr, (f pr).killed = pr.killed) : Tame s (s.modify p f) :=
  .modify s p fun h => ⟨(hst _).symm.trans h, hk _⟩

theorem Tame.setState (s : PTable) (p : Slot) {st : ProcState} (hst : st ≠ .unused) :
    Tame s (s.setState p st) := .modify s p fun h => absurd h hst

theorem Tame.foldl {α : Type} {f : PTable → α → PTable} (hf : ∀ s a, Tame s (f s a)) (l : List α) :
    ∀ s, Tame s (l.foldl f s) := by
  induction l with
  | nil => exact .refl
  | cons a l ih => exact fun s => (hf s a).trans (ih (f s a))

theorem tame_forkCopy (q np : Slot) (s : PTable) : Tame s (forkCopy q np s) :=
  .fields s np (fun _ => rfl) (fun _ => rfl)

theorem tame_setUid (p : Slot) (v : Word) (s : PTable) :
    Tame s (s.modify p ({ · with uid := v })) :=
  .fields s p (fun _ => rfl) (fun _ => rfl)

theorem tame_setGid (p : Slot) (v : Word) (s : PTable) :
    Tame s (s.modify p ({ · with gid := v })) :=
  .fields s p (fun _ => rfl) (fun _ => rfl)

theorem tame_accountSlice (p : Slot) (s : PTable) : Tame s (accountSlice p s) :=
  .fields s p (fun _ => rfl) (fun _ => rfl)

theorem tame_sleepReturn (p : Slot) (s : PTable) : Tame s (sleepReturn p s) :=
  .fields s p (fun _ => rfl) (fun _ => rfl)

theorem tame_setKilled {q : Slot} (hq : (s.proc q).state ≠ .unused) : Tame s (setKilled q s) :=
  .modify s q fun h => absurd h hq

theorem tame_yield (q : Slot) (s : PTable) :
    Tame s (s.modify q (fun pr => chargeIn .table s.ticks { pr with state := .runnable })) :=
  .modify s q fun h => absurd h (by simp [chargeIn])

theorem tame_sleep (q : Slot) (chan : Chan) (s : PTable) :
    Tame s (s.modify q (fun pr => chargeIn .table s.ticks { pr with chan := chan, state := .sleeping })) :=
  .modify s q fun h => absurd h (by simp [chargeIn])

theorem tame_wakeup1Table (chan : Chan) (s : PTable) : Tame s (wakeup1Table chan s) := by
  refine .foldl (fun s p => ?_) _ s
  split
  · exact .setState s p (by decide)
  · exact .refl s

theorem tame_abandonTable (q : Slot) (s : PTable) : Tame s (abandonTable q s) := by
  refine .foldl (fun s p => ?_) _ s
  have hre : Tame s (reparent q p s) := by
    unfold reparent
    split
    · exact .fields s p (fun _ => rfl) (fun _ => rfl)
    · exact .refl s
  dsimp only
  split
  · split
    · exact hre.trans (tame_wakeup1Table _ _)
    · exact hre
  · exact .refl s

theorem tame_dispatch {p : Slot} {s' : PTable} (h : dispatch .table p s = .ok s') : Tame s s' := by
  obtain rfl : ((s.setState p .running).modify p fun pr => { pr with cpuTicksIn := s.ticks }) =
    s' :=
    Except.ok.inj h
  exact (Tame.setState s p (by decide)).trans (.fields _ p (fun _ => rfl) (fun _ => rfl))

theorem tame_allocproc {r : Option Slot} (h : allocproc .table s = .ok (r, s')) : Tame s s' := by
  unfold allocproc at h
  split at h
  · cases h
    exact .refl s
  · next p _ =>
      cases h
      have hst : Tame s (s.setState p .embryo) := .setState s p (by decide)
      have hfields : Tame (s.setState p .embryo)
          ((s.setState p .embryo).modify p (allocFields s.nextpid s.ticks)) :=
        .fields _ p (fun _ => rfl) (fun _ => rfl)
      exact hst.trans ⟨hfields.unused⟩

theorem tame_wakeup1 {chan : Chan} (h : wakeup1 .table chan s = .ok s') : Tame s s' := by
  obtain rfl : wakeup1Table chan s = s' := Except.ok.inj h
  exact tame_wakeup1Table chan s

/-- The table that `userinit` leaves. -/
theorem clean_userinit {ticks : Word} (h : userinit .table ticks = .ok s) : UnusedClean s := by
  have hzero : UnusedClean (zero ticks) := fun _ _ => rfl
  unfold userinit at h
  cases ha : allocproc .table (zero ticks) with
  | error e =>
    simp only [bind, Except.bind, ha] at h
    cases h
  | ok v =>
    obtain ⟨np, t⟩ := v
    have ht : UnusedClean t := (tame_allocproc ha).clean hzero
    simp only [bind, Except.bind, ha] at h
    cases np with
    | none => cases h
    | some p =>
      cases h
      intro x hx
      by_cases hxp : x = p
      · subst hxp
        simp at hx
      · simpa [hxp] using ht x (by simpa [hxp] using hx)

theorem tame_exit {q : Slot} (h : exit .table q s = .ok s') : Tame s s' := by
  unfold exit at h
  split_ifs at h
  cases h
  have hzombie : ∀ t : PTable, Tame t (t.setState q .zombie) := fun t => .setState t q (by decide)
  exact ((tame_wakeup1Table _ s).trans (tame_abandonTable q _)).trans (hzombie _)

/-- `wait` frees a slot and clears it. -/
theorem clean_wait {q : Slot} {r : WaitResult} (hs : UnusedClean s)
    (h : wait .table q s = .ok (r, s')) :
    UnusedClean s' := by
  unfold wait findZombie at h
  cases hf : (List.finRange nproc).find?
      (fun p => (s.proc p).parent = some q ∧ (s.proc p).state = .zombie) with
  | some p =>
    rw [hf] at h
    cases h
    intro x hx
    by_cases hxp : x = p
    · subst hxp
      simp [reapFields]
    · simpa [hxp, PTable.setState] using hs x (by simpa [hxp, PTable.setState] using hx)
  | none =>
    rw [hf] at h
    simp only [haveKids, bind, Except.bind] at h
    split at h
    · cases h
      exact hs
    · cases h
      exact (tame_sleep q _ s).clean hs

/-- The slot that `allocproc` hands out has not been killed. -/
theorem allocproc_clean (hs : UnusedClean s) {p : Slot}
    (h : allocproc .table s = .ok (some p, s')) :
    (s'.proc p).killed = false := by
  unfold allocproc at h
  split at h
  · cases h
  · next p' hp =>
      cases h
      have hst : (s.proc p).state = .unused := by simpa using List.find?_some hp
      simpa [PTable.setState, allocFields] using hs p hst

end PTable

namespace Sys

variable {s s' : Sys} {a : KillAct} {c : ℕ}

/-- One step of the machine, the stores without the lock included. -/
def killStep (a : KillAct) (s : Sys) : Except Halt Sys :=
  match a with
  | .act a => s.step .table a
  | .fault c => s.asProc c fun _ q => .ok { s with pt := setKilled q s.pt }
  | .unalloc c => s.asProc c fun _ q => s.onChild q Kont.atAlloc fun np =>
    .ok ({ s with pt := s.pt.setState np .unused }.setKont q .run)

/-- `kill` is not called with a pid that it finds in an `UNUSED` slot first, and `fork` does not
    fail when its child has been killed. -/
def KillOk (a : KillAct) (s : Sys) : Prop :=
  match a with
  | .act (.kill pid) => PidLive pid s.pt
  | .act (.forkFail c) | .unalloc c => ∀ cur q np, s.cpu c = .run cur q → s.kont q = .forkAlloc np →
      (s.pt.proc np).killed = false
  | _ => True

/-! ## Runs -/

/-- In this build the loops of `scheduler` are over the table, whatever the table holds. -/
theorem SchedInv.of_table (h : SchedInv .table s) (pt : PTable) (kont : Slot → Kont) :
    SchedInv .table ⟨pt, kont, s.cpu, s.lock⟩ where
  tab := trivial
  cursor := h.cursor
  held := h.held
  loop c i p hc :=
    absurd (h.cursor c (.ready i) (by rw [show s.cpu c = _ from hc]; rfl)) (by simp [Cursor.fits])
  back c i p hc :=
    absurd (h.cursor c (.ready i) (by rw [show s.cpu c = _ from hc]; rfl)) (by simp [Cursor.fits])

theorem killStep_inv (h : SysInv .table s) :
    Yields (fun _ => True) (SysInv .table) (s.killStep a) := by
  cases a with
  | act a =>
    refine .of_ok fun s' hs => ?_
    -- this build has no `setpriority`
    have hok : PrioOk a s := by
      cases a with
      | setpriority pid priority => simp [killStep, step, guarded] at hs
      | _ => trivial
    exact (step_inv h hok hs).1
  | fault c =>
    refine yields_asProc fun cur q hc => .ok ⟨h.of_table _ s.kont, ?_⟩
    have hlife : Sys.life { s with pt := setKilled q s.pt } = s.life := by
      rw [setKilled, life_modify]
      simp [life]
    exact hlife ▸ h.life
  | unalloc c =>
    refine yields_child fun cur q np hc hk => ⟨h.of_table _ _, ?_⟩
    have hfail := h.life.forkFail (atAlloc_eq hk)
    have hlife := life_setState s.pt (Function.update s.kont q .run) s.cpu s.lock np .unused
    exact hlife ▸ hfail

theorem unusedClean_setUnused_iff {t : PTable} (h : UnusedClean t) (np : Slot) :
    UnusedClean (t.setState np .unused) ↔ (t.proc np).killed = false := by
  rw [PTable.setState, h.modify_iff]
  simp

/-- `fork` gives back the slot `np`. -/
theorem unusedClean_fail_iff (hclean : UnusedClean s.pt) {cur : Cursor} {q np : Slot}
    (hc : s.cpu c = .run cur q) (hk : s.kont q = .forkAlloc np) :
    UnusedClean (s.pt.setState np .unused) ↔ ∀ cur q np, s.cpu c = .run cur q →
      s.kont q = .forkAlloc np → (s.pt.proc np).killed = false := by
  rw [unusedClean_setUnused_iff hclean]
  constructor
  · intro hkilled cur' q' np' hc' hk'
    rw [hc] at hc'
    cases hc'
    rw [hk] at hk'
    cases hk'
    exact hkilled
  · exact fun hall => hall cur q np hc hk

theorem resume_tame (s : Sys) (p : Slot) : Tame s.pt (s.resume p).pt := by
  have hret : Tame s.pt (sleepReturn p s.pt) := tame_sleepReturn p s.pt
  unfold resume
  split
  · exact hret
  · exact hret
  · exact .refl _

theorem switch_tame {p : Slot} :
    Yields (fun _ => True) (fun s' => Tame s.pt s'.pt) (s.schedSwitch c .table p) := by
  refine yields_section fun pt hpt => .ok ?_
  exact (tame_dispatch hpt).trans (resume_tame { s with pt := pt } p)

theorem schedStep_tame (hinv : SysInv .table s) :
    Yields (fun _ => True) (fun s' => Tame s.pt s'.pt) (s.schedStep c) := by
  unfold Sys.schedStep
  split
  case isFalse => exact .error trivial
  case isTrue =>
    split
    · next i hc => exact absurd (hinv.cursor c (.ready i) (by rw [hc]; rfl)) (by simp [Cursor.fits])
    · exact .ok (.refl _)
    · next i p hc =>
      exact absurd (hinv.cursor c (.ready i) (by rw [hc]; rfl)) (by simp [Cursor.fits])
    · split
      · exact switch_tame
      · exact .ok (.refl _)
    · next cur p hc => exact .ok (tame_accountSlice p s.pt)
    · exact .error trivial

/-- An action spoils an `UNUSED` slot exactly if it is not one of `KillOk`. -/
theorem killStep_clean_iff (hinv : SysInv .table s) (hclean : UnusedClean s.pt) :
    Yields (fun _ => True) (fun s' => UnusedClean s'.pt ↔ KillOk a s) (s.killStep a) := by
  have htame : ∀ {pt}, Tame s.pt pt → (UnusedClean pt ↔ True) :=
    fun h => iff_true_intro (h.clean hclean)
  cases a with
  | fault c =>
    refine yields_asProc fun cur q hc => .ok (htame (tame_setKilled ?_))
    rw [hinv.running hc]
    decide
  | unalloc c =>
    exact yields_child fun cur q np hc hk => (unusedClean_fail_iff hclean hc (atAlloc_eq hk))
  | act a =>
    cases a with
    | kill pid =>
      refine yields_guarded fun _ => yields_section fun v hv => ?_
      obtain rfl := Except.ok.inj hv
      exact .ok (unusedClean_kill_iff hclean pid)
    | forkFail c =>
      refine yields_lockedChild fun cur q np hc _ hk pt hpt => ?_
      obtain rfl := Except.ok.inj hpt
      exact .ok (unusedClean_fail_iff hclean hc (atAlloc_eq hk))
    | tick => exact .ok (iff_true_intro hclean)
    | schedEnter c =>
      refine .of_ok fun s' hs => htame ?_
      simp only [killStep, step, schedEnter] at hs
      split_ifs at hs
      cases hs
      exact .refl _
    | schedStep c => exact (schedStep_tame hinv).post fun _ => htame
    | forkAlloc c =>
      refine yields_locked fun _ _ _ _ v hv => ?_
      obtain ⟨np, pt⟩ := v
      cases np <;> exact .ok (htame (tame_allocproc hv))
    | forkCopy c =>
      exact yields_child fun _ _ _ _ _ => (htame (tame_forkCopy _ _ s.pt))
    | forkUid c =>
      exact yields_child fun _ _ _ _ _ => (htame (tame_setUid _ _ s.pt))
    | forkGid c =>
      exact yields_child fun _ _ _ _ _ => (htame (tame_setGid _ _ s.pt))
    | setuid c v | execSetuid c v =>
      exact yields_own fun _ _ _ _ => (htame (tame_setUid _ _ s.pt))
    | setgid c v =>
      exact yields_own fun _ _ _ _ => (htame (tame_setGid _ _ s.pt))
    | forkPublish c =>
      refine yields_lockedChild fun _ _ np _ _ _ pt hpt => ?_
      obtain rfl := Except.ok.inj hpt
      exact .ok (htame (.setState _ np (by decide)))
    | exit c =>
      exact yields_locked fun _ _ _ _ _ hpt => .ok (htame (tame_exit hpt))
    | wait c =>
      refine yields_locked fun _ _ _ _ v hv => ?_
      have hclean' : UnusedClean v.2 := clean_wait hclean hv
      dsimp only
      split
      · exact .ok (iff_true_intro hclean')
      · exact .ok (iff_true_intro hclean')
    | yield c =>
      refine yields_locked fun _ q _ _ pt hpt => ?_
      obtain rfl := Except.ok.inj hpt
      exact .ok (htame (tame_yield q s.pt))
    | sleep c chan =>
      refine yields_locked fun _ q _ _ pt hpt => ?_
      obtain rfl := Except.ok.inj hpt
      exact .ok (htame (tame_sleep q chan s.pt))
    | wakeup chan =>
      exact yields_guarded fun _ => yields_section fun _ hpt =>
        .ok (htame (tame_wakeup1 hpt))
    | setpriority pid priority =>
      refine .of_ok fun s' hs => ?_
      simp [killStep, step, guarded] at hs

/-! ## Whole runs -/

/-- What is claimed of a call in the state `s`. -/
def KillStepCorrect (a : KillAct) (s : Sys) : Prop :=
  match a with
  | .act (.kill pid) => KillCorrect pid s.pt
  | .act (.forkAlloc _) => ∀ p pt, allocproc .table s.pt = .ok (some p, pt) →
      (pt.proc p).killed = false
  | _ => True

theorem killStep_correct (hclean : UnusedClean s.pt) (hok : KillOk a s) : KillStepCorrect a s := by
  unfold KillStepCorrect
  split
  · next pid => exact (killCorrect_iff hclean pid).2 hok
  · exact fun p pt h => allocproc_clean hclean h
  · trivial

theorem Init.clean (h : Init .table s) : UnusedClean s.pt := by
  obtain ⟨ticks, pt, hpt, rfl⟩ := h
  exact clean_userinit hpt

/-- In every run of the machine: no `UNUSED` slot is ever killed, every `kill` is right and every
    slot that `allocproc` hands out is clean, if and only if all steps of the run are as in
    `KillOk`. In every state of such a run a further `kill(pid)` is right if and only if `pid` is
    not first found in an `UNUSED` slot. -/
theorem kill_live (s0 : Sys) (r : List (KillAct × Sys)) (hinit : Init .table s0)
    (hrun : Run killStep s0 r) :
    (((∀ x ∈ r, UnusedClean x.2.pt) ∧ StepsMeet KillStepCorrect s0 r) ↔
      StepsMeet KillOk s0 r) ∧
    (StepsMeet KillOk s0 r → ∀ x ∈ r, ∀ pid, KillCorrect pid x.2.pt ↔ PidLive pid x.2.pt) := by
  have hfree : StepsMeet (fun _ _ => True) s0 r := .of_forall (fun _ _ _ => trivial) s0
  have hiff := Run.always_iff (I := SysInv .table) (P := fun s => UnusedClean s.pt) (C := KillOk)
    (fun a s s' h _ hs => (killStep_inv h).1 s' hs)
    (fun a s s' h _ hclean hs => (killStep_clean_iff h hclean).1 s' hs)
    r s0 hrun hfree hinit.inv hinit.clean
  refine ⟨⟨fun h => hiff.1 h.1, fun hok => ⟨hiff.2 hok, ?_⟩⟩, fun hok x hx pid => ?_⟩
  · exact hok.imp_of_always (P := fun s => UnusedClean s.pt)
      (fun a s hP hC => killStep_correct hP hC) hinit.clean (hiff.2 hok)
  · exact killCorrect_iff (hiff.2 hok x hx) pid

/-- Init forks a child and kills it. -/
def childKilled : List KillAct :=
  [.act (.schedEnter 0), .act (.schedStep 0), .act (.forkAlloc 0), .act (.forkCopy 0),
    .act (.forkPublish 0), .act (.forkUid 0), .act (.forkGid 0), .act (.kill 2), .fault 0]

/-- `KillOk` of the actions of `childKilled`. -/
def killOkB (a : KillAct) (s : Sys) : Bool :=
  match a with
  | .act (.kill pid) => decide (PidLive pid s.pt)
  | .act (.forkFail _) | .unalloc _ => false
  | _ => true

theorem killOk_of_killOkB {a : KillAct} {s : Sys} (h : killOkB a s = true) : KillOk a s := by
  unfold killOkB at h
  unfold KillOk
  split
  · next pid => exact of_decide_eq_true h
  · cases h
  · cases h
  · trivial

set_option maxRecDepth 100000 in
theorem kill_live_childKilled :
    ∃ s0 r, Init .table s0 ∧ Run killStep s0 r ∧ r.map Prod.fst = childKilled ∧
      (∀ x ∈ r, UnusedClean x.2.pt) ∧ StepsMeet KillStepCorrect s0 r ∧
      ∀ x ∈ r, ∀ pid, KillCorrect pid x.2.pt ↔ PidLive pid x.2.pt := by
  obtain ⟨pt, hpt⟩ : ∃ pt, userinit .table 0 = .ok pt := ⟨_, rfl⟩
  have hinit : Init .table (boot pt) := ⟨0, pt, hpt, rfl⟩
  have hexec : (execOk killStep killOkB childKilled (boot pt)).isSome = true := by
    obtain rfl := Except.ok.inj hpt
    decide +kernel
  obtain ⟨s, hs⟩ := Option.isSome_iff_exists.1 hexec
  obtain ⟨r, hrun, hmeet, hmap⟩ := exists_run childKilled (boot pt) s hs
  have hok : StepsMeet KillOk (boot pt) r :=
    hmeet.imp_of_always (P := fun _ => True) (fun a s _ h => killOk_of_killOkB h) trivial
      (fun _ _ => trivial)
  have hlive := kill_live (boot pt) r hinit hrun
  exact ⟨boot pt, r, hinit, hrun, hmap, (hlive.1.2 hok).1, (hlive.1.2 hok).2, hlive.2 hok⟩

/-- `kill(0)` before the first `fork`. -/
def unbornKilled : List KillAct :=
  [.act (.kill 0), .act (.schedEnter 0), .act (.schedStep 0), .act (.forkAlloc 0)]

set_option maxRecDepth 100000 in
/-- No process has pid 0, and yet `kill(0)` returns 0; the child that init forks next is born
    killed. -/
theorem kill_unborn :
    ∃ s0 s, Init .table s0 ∧ (killTable 0 s0.pt).1 = 0 ∧
      (∀ p, (s0.pt.proc p).state ≠ .unused → (s0.pt.proc p).pid ≠ 0) ∧ ¬KillCorrect 0 s0.pt ∧
      execOk killStep (fun _ _ => true) unbornKilled s0 = some s ∧
      s.kont 0 = .forkAlloc 1 ∧ (s.pt.proc 1).killed = true := by
  obtain ⟨pt, hpt⟩ : ∃ pt, userinit .table 0 = .ok pt := ⟨_, rfl⟩
  have hinit : Init .table (boot pt) := ⟨0, pt, hpt, rfl⟩
  obtain ⟨hkill, hlive⟩ : (killTable 0 pt).1 = 0 ∧
      ∀ p, (pt.proc p).state ≠ .unused → (pt.proc p).pid ≠ 0 := by
    obtain rfl := Except.ok.inj hpt
    decide +kernel
  obtain ⟨s, hs, hborn⟩ := execOk_any killStep (fun _ _ => true) unbornKilled (boot pt)
    (fun s => s.kont 0 = .forkAlloc 1 ∧ (s.pt.proc 1).killed = true) (by
      obtain rfl := Except.ok.inj hpt
      decide +kernel)
  refine ⟨boot pt, s, hinit, hkill, hlive, fun hcorrect => ?_, hs, hborn⟩
  obtain ⟨p, hst, hpid⟩ := hcorrect.1.1 hkill
  exact hlive p hst hpid

end Sys

end Xv6
