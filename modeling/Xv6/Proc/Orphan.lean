import Xv6.Proc.Refine

set_option autoImplicit false

/-! # Orphans: what `exit` does with the children of the exiting process

The table scan in `exit` hands every child to init. The `CS333_P3P4` body walks the ready lists and
the sleep, embryo and running lists, but not the zombie list: a child that is already a zombie keeps
a parent that is about to become one itself, and nobody will reap it.

Without such a child `exit` does its job, and along runs in which this never happens every process
has a living parent, apart from init and from the child of a `fork` that has not stored
`np->parent` yet. -/

namespace Xv6

open Transition Function PTable Life

namespace Life

variable {s s' : Life} {a : Act}

/-- Every process but init has a parent that can still act, or is being made by a `fork`. -/
def Parented (s : Life) : Prop :=
  ∀ p, s.state p ≠ .unused → s.initproc ≠ some p →
    (∃ r, s.parent p = some r ∧ (s.state r).alive) ∨ ∃ q, s.kont q = .forkAlloc p

/-- The process that exits has no zombie child. -/
def NoZombieChild (a : Act) (s : Life) : Prop :=
  match a with
  | .exit c => ∀ q p, s.running c = some q → s.parent p = some q → s.state p ≠ .zombie
  | _ => True

/-- A step that keeps the living alive and what the processes still in use have. -/
theorem Parented.of_same (h : Parented s) (hinit : s'.initproc = s.initproc)
    (hunused : ∀ p, s'.state p ≠ .unused → s.state p ≠ .unused)
    (halive : ∀ p, (s.state p).alive → (s'.state p).alive)
    (hparent : ∀ p r, s'.state p ≠ .unused → s.parent p = some r → s'.parent p = some r)
    (hkont : ∀ q p, s'.state p ≠ .unused → s.kont q = .forkAlloc p → s'.kont q = .forkAlloc p) :
    Parented s' := by
  intro p hp hi
  rcases h p (hunused p hp) (by rwa [hinit] at hi) with ⟨r, hr, hra⟩ | ⟨q, hq⟩
  · exact Or.inl ⟨r, hparent p r hp hr, halive r hra⟩
  · exact Or.inr ⟨q, hkont q p hp hq⟩

theorem Parented.forkAlloc (h : Parented s) {q np : Slot} (hq : s.kont q = .run)
    (hnp : s.state np = .unused) :
    Parented { s with
      state := update s.state np .embryo, uid := update s.uid np 0,
      gid := update s.gid np 0, kont := update s.kont q (.forkAlloc np) } := by
  intro p hp hi
  by_cases hpn : p = np
  · exact Or.inr ⟨q, by simp [hpn]⟩
  · rcases h p (by simpa [hpn] using hp) hi with ⟨r, hr, hra⟩ | ⟨q', hq'⟩
    · refine Or.inl ⟨r, hr, ?_⟩
      have hrn : r ≠ np := by
        rintro rfl
        simp [hnp, ProcState.alive] at hra
      simpa [hrn] using hra
    · have hne : q' ≠ q := by
        rintro rfl
        simp [hq] at hq'
      exact Or.inr ⟨q', by simpa [hne] using hq'⟩

theorem Parented.forkCopy (h : Parented s) {q np : Slot} (hq : s.kont q = .forkAlloc np)
    (hqa : (s.state q).alive) :
    Parented ({ s with parent := update s.parent np (some q) }.setKont q
      (.forkReady np)) := by
  intro p hp hi
  by_cases hpn : p = np
  · exact Or.inl ⟨q, by simp [Life.setKont, hpn], hqa⟩
  · rcases h p hp hi with ⟨r, hr, hra⟩ | ⟨q', hq'⟩
    · exact Or.inl ⟨r, by simpa [Life.setKont, hpn] using hr, hra⟩
    · have hne : q' ≠ q := by
        rintro rfl
        rw [hq] at hq'
        exact hpn (Kont.forkAlloc.inj hq').symm
      exact Or.inr ⟨q', by simpa [Life.setKont, hne] using hq'⟩

/-- Without a zombie child, `exit` leaves no process behind. -/
theorem Parented.exit (hinv : LifeInv s) (h : Parented s) {c : ℕ} {q : Slot} {W R : Finset Slot}
    (hc : s.running c = some q) (hinit : s.initproc ≠ some q) (hW : ∀ p ∈ W, s.state p = .sleeping)
    (hlive : ∀ p, s.parent p = some q → s.state p ≠ .unused → s.state p ≠ .zombie → p ∈ R)
    (hok : ∀ p, s.parent p = some q → s.state p ≠ .zombie) :
    Parented (((s.wake W).adopt R).stop c q .zombie) := by
  obtain ⟨i, hi, hia⟩ := hinv.init_alive
  have hiq : i ≠ q := by
    rintro rfl
    exact hinit hi
  have hrun := hinv.running_state c q hc
  -- whoever could act before and is not the exiting process still can
  have halive : ∀ r, r ≠ q → (s.state r).alive →
      ((((s.wake W).adopt R).stop c q .zombie).state r).alive := by
    intro r hr hra
    simp only [stop, Life.adopt, Life.wake, update_of_ne hr]
    split
    · simp [ProcState.alive]
    · exact hra
  intro p hp hpi
  by_cases hpR : p ∈ R
  · refine Or.inl ⟨i, ?_, halive i hiq hia⟩
    simp [stop, Life.adopt, Life.wake, hpR, hi]
  · have hpu : s.state p ≠ .unused := by
      intro hu
      have hpq : p ≠ q := by
        rintro rfl
        rw [hrun] at hu
        exact absurd hu (by simp)
      have hpW : p ∉ W := fun hw => by
        have := hW p hw
        rw [hu] at this
        exact absurd this (by simp)
      exact hp (by simp [stop, Life.adopt, Life.wake, hpq, hpW, hu])
    rcases h p hpu hpi with ⟨r, hr, hra⟩ | hfork
    · have hrq : r ≠ q := by
        rintro rfl
        exact hpR (hlive p hr hpu (hok p hr))
      exact Or.inl ⟨r, by simpa [stop, Life.adopt, Life.wake, hpR] using hr, halive r hrq hra⟩
    · exact Or.inr hfork

theorem Parented.step (hinv : LifeInv s) (h : Parented s) (hs : Step a s s')
    (hok : NoZombieChild a s) : Parented s' := by
  cases hs with
  | idle => exact h
  | wake _ W hW =>
    refine h.of_same rfl ?_ ?_ (fun _ _ _ hr => hr) (fun _ _ _ hk => hk)
    all_goals intro p hp; simp only [Life.wake] at hp ⊢; grind [ProcState.alive]
  | switch hc hp =>
    refine h.of_same rfl ?_ ?_ (fun _ _ _ hr => hr) ?_
    all_goals grind [ProcState.alive, resumed]
  | forkAlloc hc hq hnp => exact h.forkAlloc hq hnp
  | forkFail hc hq =>
    obtain ⟨hst, _⟩ := hinv.alloc _ _ hq
    refine h.of_same rfl ?_ ?_ (fun _ _ _ hr => hr) ?_
    all_goals simp only [Life.setKont]; grind [ProcState.alive]
  | forkCopy hc hq => exact h.forkCopy hq (by simp [hinv.running_state _ _ hc, ProcState.alive])
  | forkPublish hc hq =>
    obtain ⟨hst, _⟩ := hinv.ready _ _ hq
    refine h.of_same rfl ?_ ?_ (fun _ _ _ hr => hr) ?_
    all_goals simp only [Life.setKont]; grind [ProcState.alive]
  | forkUid hc hq | forkGid hc hq =>
    refine h.of_same rfl (fun _ hp => hp) (fun _ hp => hp) (fun _ _ _ hr => hr) ?_
    simp only [Life.setKont]; grind
  | exit W R hc hq hinit hW hR hlive =>
    exact h.exit hinv hc hinit hW hlive (fun p hp => hok _ p hc hp)
  | reap hc hq hp hpar =>
    refine h.of_same rfl ?_ ?_ ?_ ?_
    all_goals simp only [Life.setKont]; grind [ProcState.alive]
  | waitReturn hc hq =>
    refine h.of_same rfl (fun _ hp => hp) (fun _ hp => hp) (fun _ _ _ hr => hr) ?_
    simp only [Life.setKont]; grind
  | waitSleep hc hq | yield hc | sleep chan hc hq =>
    have hrun := hinv.running_state _ _ hc
    refine h.of_same rfl ?_ ?_ (fun _ _ _ hr => hr) ?_
    all_goals simp only [Life.setKont, stop]; grind [ProcState.alive]
  | setuid v hc hq => exact h
  | setgid v hc hq => exact h
  | execSetuid v hc hq => exact h

end Life

namespace Sys

variable {b : Build} {s s' : Sys} {c : ℕ} {cur : Cursor} {q : Slot}

/-- What `exit` by `q` owes: nobody in use has `q` as parent any more, and init, if it sleeps in
    `wait`, is woken for the zombies it inherits. -/
structure ExitOk (q : Slot) (s s' : Sys) : Prop where
  handed : ∀ p, (s'.pt.proc p).state ≠ .unused → (s'.pt.proc p).parent ≠ some q
  woken : (∃ p, (s.pt.proc p).state = .zombie ∧ (s.pt.proc p).parent = some q) →
    ∀ i, s.pt.initproc = some i → (s.pt.proc i).state = .sleeping → s.kont i = .wait →
      (s'.pt.proc i).state = .runnable

/-- The process that exits has no zombie child. -/
def NoZombieChild (a : Act) (s : Sys) : Prop :=
  match a with
  | .exit c => ∀ cur q p, s.cpu c = .run cur q → (s.pt.proc p).parent = some q →
      (s.pt.proc p).state ≠ .zombie
  | _ => True

theorem NoZombieChild.life {a : Act} (h : NoZombieChild a s) : Life.NoZombieChild a s.life := by
  cases a with
  | exit c =>
    intro q p hc hp
    obtain ⟨cur, hcur⟩ : ∃ cur, s.cpu c = .run cur q := by
      simp only [Sys.life] at hc
      cases hcpu : s.cpu c <;> simp_all [CpuState.running]
    exact h cur q p hcur hp
  | _ => trivial

/-- The section behind an `exit` that succeeds. -/
theorem exit_step (hc : s.cpu c = .run cur q) (hs : step b (.exit c) s = .ok s') :
    s.pt.initproc ≠ some q ∧ ∃ pt, PTable.exit b q s.pt = .ok pt ∧ s'.pt = pt := by
  simp only [step, asProc, hc, guarded] at hs
  split at hs
  · cases hpt : PTable.exit b q s.pt with
    | error e => simp [hpt, runSection, Except.mapError, bind, Except.bind] at hs
    | ok pt =>
      simp only [hpt, runSection, Except.mapError, bind, Except.bind, Except.ok.injEq] at hs
      refine ⟨fun hinit => ?_, pt, rfl, by rw [← hs]; rfl⟩
      simp [PTable.exit, hinit] at hpt
  · exact absurd hs (by simp)

/-- A zombie child stays behind. -/
theorem exit_leaves_zombie (h : SysInv .p3p4 s) (hc : s.cpu c = .run cur q)
    (hs : step .p3p4 (.exit c) s = .ok s') {p : Slot} (hp : (s.pt.proc p).state = .zombie)
    (hpar : (s.pt.proc p).parent = some q) :
    (s'.pt.proc p).state = .zombie ∧ (s'.pt.proc p).parent = some q := by
  obtain ⟨hinit, pt, hpt, rfl⟩ := exit_step hc hs
  obtain ⟨L, hL⟩ := h.tab
  obtain ⟨pt', L', hpt', _, hcore, _⟩ := exit_spec hL (h.running hc) hinit
  obtain rfl := Except.ok.inj (hpt.symm.trans hpt')
  have hpq : p ≠ q := by
    rintro rfl
    rw [h.running hc] at hp
    exact absurd hp (by simp)
  have hw : (wakeOne (firstSleeper L (.ofPtr (s.pt.proc q).parent) s.pt) s.pt).proc p =
      s.pt.proc p := by
    cases hf : firstSleeper L (.ofPtr (s.pt.proc q).parent) s.pt with
    | none => rfl
    | some x =>
      have hx : p ≠ x := by
        rintro rfl
        rw [(firstSleeper_state hL hf).1] at hp
        exact absurd hp (by simp)
      simp [wakeOne, setState, hx]
  refine ⟨?_, ?_⟩
  · rw [state_of_core hcore]
    simp [exited, setState, hpq, abandonLive, mapProc, hw, hp]
  · rw [field_of_core hcore Proc.parent (fun _ _ => rfl)]
    simp [exited, setState, hpq, abandonLive, mapProc, hw, reparentLive, ProcState.live, hp, hpar]

/-- Without a zombie child nobody keeps `q` as parent. -/
theorem exit_hands_over (h : SysInv b s) (hc : s.cpu c = .run cur q)
    (hs : step b (.exit c) s = .ok s')
    (hz : ∀ p, (s.pt.proc p).parent = some q → (s.pt.proc p).state ≠ .zombie) (p : Slot) :
    (s'.pt.proc p).parent ≠ some q := by
  have hstep := (step_inv (a := .exit c) h trivial hs).2
  have hlife : s'.life.parent p ≠ some q := by
    generalize s'.life = t at hstep
    cases hstep with
    | idle ha => exact absurd ha (fun h => h)
    | wake ha => exact absurd ha (fun h => h)
    | exit W R hc' hkont hinit hW hR hlive =>
      obtain rfl := Option.some.inj ((life_running hc).symm.trans hc')
      simp only [stop, Life.adopt, Life.wake]
      split
      · exact hinit
      · next hpR =>
          intro hpar
          refine hpR (hlive p hpar (fun hu => ?_) (hz p hpar))
          rw [h.life.unused_parent p hu] at hpar
          exact absurd hpar (by simp)
  exact hlife

theorem exitOk_iff (h : SysInv .p3p4 s) (hc : s.cpu c = .run cur q)
    (hs : step .p3p4 (.exit c) s = .ok s') :
    ExitOk q s s' ↔ ∀ p, (s.pt.proc p).parent = some q → (s.pt.proc p).state ≠ .zombie := by
  constructor
  · intro hok p hpar hp
    obtain ⟨hp', hpar'⟩ := exit_leaves_zombie h hc hs hp hpar
    exact hok.handed p (by rw [hp']; simp) hpar'
  · intro hz
    exact ⟨fun p _ => exit_hands_over h hc hs hz p, fun ⟨p, hp, hpar⟩ => absurd hp (hz p hpar)⟩

/-- The actions are in range, and a process that exits has no zombie child. -/
def Tidy (a : Act) (s : Sys) : Prop := PrioOk a s ∧ NoZombieChild a s

theorem tidy_inv (h : Reachable (step .p3p4) (Init .p3p4) Tidy s) :
    SysInv .p3p4 s ∧ Parented s.life := by
  refine h.invariant (P := fun s => SysInv .p3p4 s ∧ Parented s.life)
    (fun s hinit => ⟨hinit.inv, ?_⟩) (fun a s s' hinv hok hs => ?_)
  · obtain ⟨ticks, pt, hpt, rfl⟩ := hinit
    obtain ⟨p, pt', hpt', _, hident⟩ := userinit_sim .p3p4 ticks
    obtain rfl := Except.ok.inj (hpt.symm.trans hpt')
    intro x hx hxi
    -- the only slot in use is init's
    have hst : (pt.proc x).state = ((booted ticks p).proc x).state := by
      have hx := congrArg Proc.state (hident.proc x)
      exact hx
    have hip : pt.initproc = some p := hident.initproc
    have hxp : x ≠ p := by
      rintro rfl
      exact hxi hip
    refine absurd ?_ hx
    exact hst.trans (by simp [booted, allocated, zero, hxp])
  · obtain ⟨hinv', hstep⟩ := step_inv hinv.1 hok.1 hs
    exact ⟨hinv', hinv.2.step hinv.1.life hstep hok.2.life⟩

/-- When `exit` does what it owes, and what that is worth. In every reachable state of the
    `CS333_P3P4` build an `exit` leaves nobody behind if and only if the process has no zombie
    child; and along the runs in which no process with a zombie child exits, every process but init
    has a parent that is neither `ZOMBIE` nor `UNUSED`, in every state in which no `fork` stands
    between `allocproc` and its store to `np->parent`, and in no other. -/
theorem exit_orphans_iff (s : Sys) :
    (Reachable (step .p3p4) (Init .p3p4) PrioOk s →
      ∀ s' c cur q, s.cpu c = .run cur q → step .p3p4 (.exit c) s = .ok s' →
      (ExitOk q s s' ↔
        ∀ p, (s.pt.proc p).parent = some q → (s.pt.proc p).state ≠ .zombie)) ∧
    (Reachable (step .p3p4) (Init .p3p4) Tidy s →
      ((∀ p, (s.pt.proc p).state ≠ .unused → s.pt.initproc ≠ some p →
          ∃ r, (s.pt.proc p).parent = some r ∧
            (s.pt.proc r).state ≠ .zombie ∧ (s.pt.proc r).state ≠ .unused) ↔
        ∀ q np, s.kont q ≠ .forkAlloc np)) := by
  refine ⟨fun h s' c cur q hc hs => exitOk_iff (reachable_inv h) hc hs, fun h => ?_⟩
  obtain ⟨hinv, hpar⟩ := tidy_inv h
  constructor
  · intro hall q np hq
    obtain ⟨hst, hnone⟩ := hinv.life.alloc q np hq
    obtain ⟨i, hi, hia⟩ := hinv.life.init_alive
    have hne : s.pt.initproc ≠ some np := by
      intro he
      obtain rfl := Option.some.inj (hi.symm.trans he)
      rw [hst] at hia
      simp [ProcState.alive] at hia
    obtain ⟨r, hr, _⟩ := hall np (by rw [show (s.pt.proc np).state = _ from hst]; simp) hne
    rw [show (s.pt.proc np).parent = none from hnone] at hr
    exact absurd hr (by simp)
  · intro hno p hp hpi
    rcases hpar p hp hpi with ⟨r, hr, hra⟩ | ⟨q, hq⟩
    · refine ⟨r, hr, ?_, ?_⟩
      · intro hz
        rw [show s.life.state r = _ from hz] at hra
        simp [ProcState.alive] at hra
      · intro hu
        rw [show s.life.state r = _ from hu] at hra
        simp [ProcState.alive] at hra
    · exact absurd hq (hno q p)

/-- Init forks a child and waits for it. The child runs on CPU 0 and forks a grandchild. -/
def childForks : List Act :=
  switchAndFork ++ [.wait 0] ++ List.replicate 8 (.schedStep 0) ++ switchAndFork

set_option maxRecDepth 100000 in
/-- The child exits while the grandchild is ready to run: init becomes its parent, and every process
    but init has one that is neither `ZOMBIE` nor `UNUSED`. -/
theorem exit_orphans_childForks :
    ∃ s s', s.cpu 0 = .run (.ready 0) 1 ∧ (s.pt.proc 2).state = .runnable ∧
      (s.pt.proc 2).parent = some 1 ∧ step .p3p4 (.exit 0) s = .ok s' ∧ ExitOk 1 s s' ∧
      (s'.pt.proc 2).parent = some 0 ∧
      ∀ p, (s'.pt.proc p).state ≠ .unused → s'.pt.initproc ≠ some p →
        ∃ r, (s'.pt.proc p).parent = some r ∧
          (s'.pt.proc r).state ≠ .zombie ∧ (s'.pt.proc r).state ≠ .unused := by
  obtain ⟨s, hs, hc, h2, hpar, hz, hok⟩ := reachable_any .p3p4
    (fun a s => PrioOk a s ∧ a ∈ childForks) childForks
    (fun s => s.cpu 0 = .run (.ready 0) 1 ∧ (s.pt.proc 2).state = .runnable ∧
      (s.pt.proc 2).parent = some 1 ∧
      (∀ p, (s.pt.proc p).parent = some 1 → (s.pt.proc p).state ≠ .zombie) ∧
      (step .p3p4 (.exit 0) s).toOption.any (fun s' => decide
        ((s'.pt.proc 2).parent = some 0 ∧ ∀ q np, s'.kont q ≠ .forkAlloc np)) = true)
    (by decide +kernel)
  obtain ⟨s', hstep, hpar', hkont⟩ := Stoppable.exists_ok _ hok
  -- nobody has exited so far
  have htidy : Reachable (step .p3p4) (Init .p3p4) Tidy s := hs.mono fun a _ h => by
    refine ⟨h.1, ?_⟩
    cases a with
    | exit c => exact absurd h.2 (by simp [childForks, switchAndFork])
    | _ => trivial
  have hexit : Tidy (.exit 0) s := by
    refine ⟨trivial, fun cur q p hq => ?_⟩
    obtain ⟨-, rfl⟩ := CpuState.run.inj (hc.symm.trans hq)
    exact hz p
  refine ⟨s, s', hc, h2, hpar, hstep, ?_, hpar', ?_⟩
  · exact ((exit_orphans_iff s).1 (hs.mono fun _ _ h => h.1) s' 0 (.ready 0) 1 hc hstep).2 hz
  · exact ((exit_orphans_iff s').2 (.step htidy hexit hstep)).2 hkont

/-- The grandchild runs on CPU 1 and exits before the child does. -/
def grandchildExits : List Act :=
  childForks ++ [.schedEnter 1, .schedStep 1, .exit 1] ++ List.replicate 8 (.schedStep 1)

set_option maxRecDepth 100000 in
/-- The child exits with a zombie child of its own, which keeps it as parent. -/
theorem exit_leaves_grandchild :
    ∃ s s', replay .p3p4 grandchildExits = some s ∧ s.cpu 0 = .run (.ready 0) 1 ∧
      step .p3p4 (.exit 0) s = .ok s' ∧ ¬ExitOk 1 s s' ∧ s'.pt.initproc ≠ some 2 ∧
      (s'.pt.proc 2).state = .zombie ∧ (s'.pt.proc 2).parent = some 1 ∧
      (s'.pt.proc 1).state = .zombie := by
  obtain ⟨s, hs, hc, hz, hok⟩ := replay_any .p3p4 grandchildExits
    (fun s => s.cpu 0 = .run (.ready 0) 1 ∧ s.pt.initproc = some 0 ∧
      (step .p3p4 (.exit 0) s).toOption.map (fun s' => (s'.pt.initproc, (s'.pt.proc 2).state,
        (s'.pt.proc 2).parent, (s'.pt.proc 1).state)) =
        some (some 0, .zombie, some 1, .zombie))
    (by decide +kernel)
  cases hstep : step .p3p4 (.exit 0) s with
  | error e => simp [hstep, Except.toOption] at hok
  | ok s' =>
    simp only [hstep, Except.toOption, Option.map_some, Option.some.injEq, Prod.mk.injEq] at hok
    obtain ⟨hinit, h2, hpar, h1⟩ := hok
    refine ⟨s, s', hs, hc, hstep, fun hexit => ?_, by rw [hinit]; decide, h2, hpar, h1⟩
    exact hexit.handed 2 (by rw [h2]; simp) hpar

end Sys

end Xv6
