import Xv6.Lib.Timesheet
import Xv6.Proc.Refine
import Xv6.Sys.Getprocs

set_option autoImplicit false

/-! # CPU time

`scheduler` notes the time before it switches to a process, and adds what has passed to
`cpu_ticks_total` when the process has switched back. In between the process may have become a
zombie, and the clock goes on all the time.

`TimeStep` says what an action does to the times of the processes. It is a step of a time sheet
(`Sheet`): the process that a CPU runs, or has just switched back from, is the one at that machine.
Times are numbers of 32 bits and may start anywhere; in a run of fewer than 2^32 ticks their
differences are right. -/

namespace Xv6

open Transition Function PTable Stoppable

/-! ## What an action does to the times -/

/-- The process whose time slice has begun on a CPU and is not yet accounted. -/
def CpuState.holder : CpuState → Option Slot
  | .run _ p | .back _ p => some p
  | _ => none

/-- A process keeps its times, and a free slot stays free. -/
structure Proc.Timed (pr pr' : Proc) : Prop where
  unused : pr.state = .unused → pr'.state = .unused
  startTicks : pr'.startTicks = pr.startTicks
  cpuTicksIn : pr'.cpuTicksIn = pr.cpuTicksIn
  cpuTicksTotal : pr'.cpuTicksTotal = pr.cpuTicksTotal

namespace PTable

/-- All processes but those in `S` keep their times, and no time passes. -/
structure TimedBut (S : Set Slot) (s s' : PTable) : Prop where
  ticks : s'.ticks = s.ticks
  proc : ∀ p ∉ S, (s.proc p).Timed (s'.proc p)

namespace TimedBut

variable {S : Set Slot} {s s' t : PTable}

theorem refl (S : Set Slot) (s : PTable) : TimedBut S s s := ⟨rfl, fun _ _ => ⟨id, rfl, rfl, rfl⟩⟩

theorem of_ident (h : TimedBut S s s') (hident : SameIdent s' t) : TimedBut S s t := by
  refine ⟨hident.ticks.trans h.ticks, fun p hp => ?_⟩
  obtain ⟨hunused, hstart, hin, htotal⟩ := h.proc p hp
  exact ⟨fun hu => (hident.field Proc.state (fun _ => rfl) p).trans (hunused hu),
    (hident.field Proc.startTicks (fun _ => rfl) p).trans hstart,
    (hident.field Proc.cpuTicksIn (fun _ => rfl) p).trans hin,
    (hident.field Proc.cpuTicksTotal (fun _ => rfl) p).trans htotal⟩

theorem modify (h : TimedBut S s t) (q : Slot) (f : Proc → Proc) (hf : q ∉ S →
      (t.proc q).Timed (f (t.proc q))) :
    TimedBut S s (t.modify q f) := by
  refine ⟨h.ticks, fun p hp => ?_⟩
  by_cases hpq : p = q
  · subst hpq
    obtain ⟨hunused, hstart, hin, htotal⟩ := h.proc p hp
    obtain ⟨hunused', hstart', hin', htotal'⟩ := hf hp
    rw [modify_proc, update_self]
    exact ⟨fun hu => hunused' (hunused hu), hstart'.trans hstart, hin'.trans hin,
      htotal'.trans htotal⟩
  · rw [modify_proc, update_of_ne hpq]
    exact h.proc p hp

/-- A process that is there changes its state. -/
theorem setState (h : TimedBut S s t) (q : Slot) (st : ProcState)
    (hq : (t.proc q).state ≠ .unused) :
    TimedBut S s (t.setState q st) :=
  h.modify q _ fun _ => ⟨fun hu => absurd hu hq, rfl, rfl, rfl⟩

theorem wakeAll {W : Finset Slot} (h : TimedBut S s t)
    (hW : ∀ p ∈ W, (t.proc p).state = .sleeping) :
    TimedBut S s (wakeAll W t) := by
  refine ⟨h.ticks, fun p hp => ?_⟩
  obtain ⟨hunused, hstart, hin, htotal⟩ := h.proc p hp
  by_cases hpW : p ∈ W
  · have hne : (s.proc p).state ≠ .unused := by
      intro hu
      have := hunused hu
      rw [hW p hpW] at this
      cases this
    simp only [PTable.wakeAll, if_pos hpW]
    exact ⟨fun hu => absurd hu hne, hstart, hin, htotal⟩
  · simp only [PTable.wakeAll, if_neg hpW]
    exact ⟨hunused, hstart, hin, htotal⟩

theorem adoptAll (h : TimedBut S s t) (R : Finset Slot) : TimedBut S s (adoptAll R t) := by
  refine ⟨h.ticks, fun p hp => ?_⟩
  obtain ⟨hunused, hstart, hin, htotal⟩ := h.proc p hp
  simp only [PTable.adoptAll]
  split <;> exact ⟨hunused, hstart, hin, htotal⟩

end TimedBut

end PTable

namespace Sys

variable {b : Build} {a : Act} {s s' : Sys} {c : ℕ} {cur : Cursor} {p q : Slot}

/-- No CPU has begun a time slice of `p` that is not accounted. -/
def OffCpu (s : Sys) (p : Slot) : Prop := ∀ c, (s.cpu c).holder ≠ some p

/-- What an action can do to the times. -/
inductive TimeStep (a : Act) (s s' : Sys) : Prop
  | tick (ha : a = .tick) (hs : s' = { s with pt := { s.pt with ticks := s.pt.ticks + 1 } })
  | quiet (ha : a ≠ .tick) (hpt : TimedBut ∅ s.pt s'.pt) (hcpu : ∀ c,
      (s'.cpu c).holder = (s.cpu c).holder)
  /-- `allocproc` -/
  | alloc (np : Slot) (ha : a ≠ .tick) (hfree : (s.pt.proc np).state = .unused) (hoff : s.OffCpu np)
      (hpt : TimedBut {np} s.pt s'.pt) (hstart : (s'.pt.proc np).startTicks = s.pt.ticks)
      (htotal : (s'.pt.proc np).cpuTicksTotal = 0)
      (hcpu : ∀ c, (s'.cpu c).holder = (s.cpu c).holder)
  /-- The scheduler of CPU `c` switches to `p`. -/
  | enter (c : ℕ) (p : Slot) (ha : a = .schedStep c) (hc : (s.cpu c).holder = none)
      (hoff : s.OffCpu p)
      (hused : (s.pt.proc p).state ≠ .unused) (hrun : (s'.pt.proc p).state = .running)
      (hpt : TimedBut {p} s.pt s'.pt)
      (hin : (s'.pt.proc p).cpuTicksIn = s.pt.ticks)
      (hstart : (s'.pt.proc p).startTicks = (s.pt.proc p).startTicks)
      (htotal : (s'.pt.proc p).cpuTicksTotal = (s.pt.proc p).cpuTicksTotal)
      (hcpu : ∀ c', (s'.cpu c').holder = if c' = c then some p else (s.cpu c').holder)
  /-- The scheduler of CPU `c` goes on after `p` has switched back. -/
  | leave (c : ℕ) (p : Slot) (ha : a = .schedStep c) (hc : (s.cpu c).holder = some p)
      (hpt : TimedBut {p} s.pt s'.pt) (hstate : (s'.pt.proc p).state = (s.pt.proc p).state)
      (hstart : (s'.pt.proc p).startTicks = (s.pt.proc p).startTicks)
      (htotal : (s'.pt.proc p).cpuTicksTotal =
        (s.pt.proc p).cpuTicksTotal + (s.pt.ticks - (s.pt.proc p).cpuTicksIn))
      (hcpu : ∀ c', (s'.cpu c').holder = if c' = c then none else (s.cpu c').holder)

/-- Only a process that runs, or the one the scheduler has just got back, is on a CPU. -/
theorem SysInv.holder (h : SysInv b s) (hc : (s.cpu c).holder = some p) :
    (s.pt.proc p).state = .running ∨ s.lock = some c := by
  cases hcpu : s.cpu c with
  | idle | loop => simp [hcpu, CpuState.holder] at hc
  | run cur q =>
    rw [hcpu] at hc
    obtain rfl := Option.some.inj hc
    exact Or.inl (h.running hcpu)
  | back cur q => exact Or.inr (h.held c (by rw [hcpu]; trivial))

/-- Whoever does not run is off the CPU when the lock is free. -/
theorem SysInv.offCpu (h : SysInv b s) (hlock : s.lock = none)
    (hp : (s.pt.proc p).state ≠ .running) :
    s.OffCpu p := by
  intro c hc
  obtain hrun | hheld := h.holder hc
  · exact hp hrun
  · rw [hlock] at hheld
    cases hheld

theorem holder_setCpu {x : CpuState} (hx : x.holder = (s.cpu c).holder) (c' : ℕ) :
    ((s.setCpu c x).cpu c').holder = (s.cpu c').holder := by
  show (update s.cpu c x c').holder = _
  by_cases hcc : c' = c
  · subst hcc
    rw [update_self, hx]
  · rw [update_of_ne hcc]

theorem holder_sched {s0 : Sys} (hcpu : s.cpu = s0.cpu) (hc : s0.cpu c = .run cur q) (c' : ℕ) :
    ((s.sched c cur q).cpu c').holder = (s0.cpu c').holder := by
  rw [← hcpu] at hc ⊢
  exact holder_setCpu (x := .back cur q) (by rw [hc]; rfl) c'

/-- A section that leaves the times alone. -/
theorem TimeStep.of_ident {t : PTable} (ha : a ≠ .tick) (h : TimedBut ∅ s.pt t)
    (hident : SameIdent t s'.pt)
    (hcpu : ∀ c, (s'.cpu c).holder = (s.cpu c).holder) : TimeStep a s s' :=
  .quiet ha (h.of_ident hident) hcpu

/-- A store to fields other than the times. -/
theorem TimeStep.store (ha : a ≠ .tick) (q : Slot) (f : Proc → Proc)
    (hf : ∀ pr : Proc, pr.Timed (f pr))
    (hpt : s'.pt = s.pt.modify q f) (hcpu : s'.cpu = s.cpu) : TimeStep a s s' := by
  refine .quiet ha ?_ fun c => by rw [hcpu]
  rw [hpt]
  exact (TimedBut.refl ∅ s.pt).modify q f fun _ => hf _

theorem schedEnter_times (h : SysInv b s) :
    Yields (fun _ => True) (TimeStep (.schedEnter c) s) (s.step b (.schedEnter c)) := by
  refine .of_ok fun s' hs => ?_
  simp only [step, schedEnter] at hs
  split at hs
  case isFalse => cases hs
  case isTrue hen =>
    cases b with
    | table =>
      obtain rfl := Except.ok.inj hs
      refine .quiet (by simp) (.refl _ _) fun c' => holder_setCpu ?_ c'
      rw [hen.2]
      rfl
    | p3p4 =>
      obtain ⟨L, hinv⟩ := h.tab
      obtain ⟨pt, L', heq, -, hident⟩ := promoteIfDue_spec hinv
      rw [heq] at hs
      obtain rfl := Except.ok.inj hs
      refine .of_ident (by simp) (.refl _ _) hident fun c' =>
        holder_setCpu (s := { s with pt := pt }) ?_ c'
      show none = (s.cpu c).holder
      rw [hen.2]
      rfl

/-- The times of a table do not depend on the channels. -/
theorem resume_times {S : Set Slot} {t : PTable} (h : TimedBut S t s.pt) (p : Slot) :
    TimedBut S t (s.resume p).pt ∧ (s.resume p).cpu = s.cpu ∧
      ∀ q, ((s.resume p).pt.proc q).state = (s.pt.proc q).state ∧
        ((s.resume p).pt.proc q).cpuTicksIn = (s.pt.proc q).cpuTicksIn ∧
        ((s.resume p).pt.proc q).startTicks = (s.pt.proc q).startTicks ∧
        ((s.resume p).pt.proc q).cpuTicksTotal = (s.pt.proc q).cpuTicksTotal := by
  have hret : TimedBut S t (sleepReturn p s.pt) := h.modify p _ fun _ => ⟨id, rfl, rfl, rfl⟩
  have hfields : ∀ q, ((sleepReturn p s.pt).proc q).state = (s.pt.proc q).state ∧
      ((sleepReturn p s.pt).proc q).cpuTicksIn = (s.pt.proc q).cpuTicksIn ∧
      ((sleepReturn p s.pt).proc q).startTicks = (s.pt.proc q).startTicks ∧
      ((sleepReturn p s.pt).proc q).cpuTicksTotal = (s.pt.proc q).cpuTicksTotal := by
    intro q
    by_cases hq : q = p
    · subst hq
      rw [sleepReturn, modify_proc, update_self]
      exact ⟨rfl, rfl, rfl, rfl⟩
    · rw [sleepReturn, modify_proc, update_of_ne hq]
      exact ⟨rfl, rfl, rfl, rfl⟩
  unfold resume
  split
  · exact ⟨hret, rfl, hfields⟩
  · exact ⟨hret, rfl, hfields⟩
  · exact ⟨h, rfl, fun _ => ⟨rfl, rfl, rfl, rfl⟩⟩

theorem schedSwitch_times (h : SysInv b s) (hlock : s.lock = some c)
    (hc : s.cpu c = .loop cur (some p)) (hp : (s.pt.proc p).state = .runnable) :
    Yields (fun _ => True) (TimeStep (.schedStep c) s) (s.schedSwitch c cur p) := by
  have hcur : Cursor.fits b cur := h.cursor c cur (by rw [hc]; rfl)
  obtain ⟨pt, heq, -, hident⟩ := dispatch_sim h.tab hcur (p := p) fun i hi =>
    h.loop c i p (by rw [hc, hi])
  rw [schedSwitch, heq]
  refine .ok ?_
  have hbut : TimedBut {p} s.pt pt :=
    TimedBut.of_ident ((TimedBut.refl _ s.pt).modify p _ fun hne => absurd rfl hne) hident
  have hproc : (dispatched p s.pt).proc p =
      { s.pt.proc p with state := .running, cpuTicksIn := s.pt.ticks } := by
    rw [dispatched, modify_proc, update_self]
  have hstate := hident.field Proc.state (fun _ => rfl) p
  have hin := hident.field Proc.cpuTicksIn (fun _ => rfl) p
  have hstart := hident.field Proc.startTicks (fun _ => rfl) p
  have htotal := hident.field Proc.cpuTicksTotal (fun _ => rfl) p
  rw [hproc] at hstate hin hstart htotal
  obtain ⟨hbut', hcpu, hfields⟩ := resume_times (s := { s with pt := pt }) hbut p
  obtain ⟨hstate', hin', hstart', htotal'⟩ := hfields p
  refine .enter c p rfl (by rw [hc]; rfl) (fun c' hc' => ?_) (by rw [hp]; simp)
    (hstate'.trans hstate) hbut'
    (hin'.trans hin) (hstart'.trans hstart) (htotal'.trans htotal) fun c' => ?_
  · obtain hrun | hheld := h.holder hc'
    · rw [hp] at hrun
      cases hrun
    · obtain rfl : c = c' := Option.some.inj (hlock.symm.trans hheld)
      rw [hc] at hc'
      cases hc'
  · show (update (resume _ p).cpu c (.run cur p) c').holder = _
    rw [hcpu]
    by_cases hcc : c' = c
    · rw [if_pos hcc, hcc, update_self]
      rfl
    · rw [if_neg hcc, update_of_ne hcc]

theorem accountSlice_self (p : Slot) (t : PTable) :
    ((accountSlice p t).proc p).state = (t.proc p).state ∧
      ((accountSlice p t).proc p).startTicks = (t.proc p).startTicks ∧
      ((accountSlice p t).proc p).cpuTicksTotal =
        (t.proc p).cpuTicksTotal + (t.ticks - (t.proc p).cpuTicksIn) := by
  rw [accountSlice, modify_proc, update_self]
  exact ⟨rfl, rfl, rfl⟩

theorem schedStep_times (h : SysInv b s) :
    Yields (fun _ => True) (TimeStep (.schedStep c) s) (s.step b (.schedStep c)) := by
  simp only [step, Sys.schedStep]
  split
  case isFalse => exact .error trivial
  case isTrue hlock =>
    -- The loop variable moves.
    have hmove : ∀ {cur : Cursor} {p : Option Slot} {x : CpuState} {lock : Option ℕ},
      s.cpu c = .loop cur p →
        x.holder = none → TimeStep (.schedStep c) s { s.setCpu c x with lock := lock } := by
      intro cur p x lock hc hx
      refine .quiet (by simp) (.refl _ _) fun c' => holder_setCpu ?_ c'
      rw [hx, hc]
      rfl
    split
    · next i hc => split <;> exact .ok (hmove hc rfl)
    · next hc => exact .ok (hmove hc rfl)
    · next i p hc => exact schedSwitch_times h hlock hc (home_eq_ready.1 (h.loop c i p hc)).1
    · next p hc =>
      split
      · next hp => exact schedSwitch_times h hlock hc hp
      · exact .ok (hmove hc rfl)
    · next cur p hc =>
      have hbut : TimedBut {p} s.pt (accountSlice p s.pt) :=
        (TimedBut.refl _ s.pt).modify p _ fun hne => absurd rfl hne
      obtain ⟨hstate, hstart, htotal⟩ := accountSlice_self p s.pt
      refine .ok (.leave c p rfl (by rw [hc]; rfl) hbut hstate hstart htotal fun c' => ?_)
      by_cases hcc : c' = c
      · rw [if_pos hcc, hcc]
        exact congrArg CpuState.holder (update_self c _ s.cpu)
      · rw [if_neg hcc]
        exact congrArg CpuState.holder (update_of_ne hcc _ s.cpu)
    · exact .error trivial

theorem forkAlloc_times (h : SysInv b s) :
    Yields (fun _ => True) (TimeStep (.forkAlloc c) s) (s.step b (.forkAlloc c)) := by
  refine yields_asProc fun cur q hc => yields_guarded fun hen => ?_
  obtain heq | ⟨np, pt, heq, -, hfree, hident⟩ := allocproc_sim h.tab
  · rw [heq]
    exact .ok (.quiet (by simp) (.refl _ _) fun _ => rfl)
  · rw [heq]
    have hbut : TimedBut {np} s.pt (allocated np s.pt) := by
      obtain ⟨hticks, hproc⟩ := (TimedBut.refl {np} s.pt).modify np
        (fun pr => allocFields s.pt.nextpid s.pt.ticks { pr with state := .embryo }) fun hne =>
          absurd rfl hne
      exact ⟨hticks, hproc⟩
    have hstart := hident.field Proc.startTicks (fun _ => rfl) np
    have htotal := hident.field Proc.cpuTicksTotal (fun _ => rfl) np
    simp only [allocated, modify_proc, update_self] at hstart htotal
    have hoff : s.OffCpu np := h.offCpu hen.1 (by rw [hfree]; simp)
    exact .ok (.alloc np (by simp) hfree hoff (hbut.of_ident hident) hstart htotal fun _ => rfl)

theorem step_times (h : SysInv b s) (hok : PrioOk a s) :
    Yields (fun _ => True) (TimeStep a s) (s.step b a) := by
  have hsleep : ∀ {q : Slot} (chan : Chan), (s.pt.proc q).state = .running →
      TimedBut ∅ s.pt (s.pt.modify q fun pr => { pr with chan := chan, state := .sleeping }) := by
    intro q chan hrun
    refine (TimedBut.refl _ s.pt).modify q _ fun _ => ⟨fun hu => ?_, rfl, rfl, rfl⟩
    rw [hrun] at hu
    cases hu
  cases a with
  | tick => exact .ok (.tick rfl rfl)
  | schedEnter c => exact schedEnter_times h
  | schedStep c => exact schedStep_times h
  | forkAlloc c => exact forkAlloc_times h
  | forkFail c =>
    refine yields_asProc fun cur q hc => yields_guarded fun _ => yields_onChild fun np hk => ?_
    have hemb : (s.pt.proc np).state = .embryo := (h.life.alloc q np (atAlloc_eq hk)).1
    obtain ⟨pt, heq, -, hident⟩ := rollback_sim h.tab hemb
    rw [heq]
    exact .ok (.of_ident (by simp) ((TimedBut.refl _ _).setState np _ (by rw [hemb]; simp)) hident
      fun _ => rfl)
  | forkPublish c =>
    refine yields_asProc fun cur q hc => yields_guarded fun _ => yields_onChild fun np hk => ?_
    have hemb : (s.pt.proc np).state = .embryo := (h.life.ready q np (atReady_eq hk)).1
    obtain ⟨pt, heq, -, hident⟩ := forkPublish_sim h.tab hemb
    rw [heq]
    exact .ok (.of_ident (by simp) ((TimedBut.refl _ _).setState np _ (by rw [hemb]; simp)) hident
      fun _ => rfl)
  | forkCopy c =>
    exact yields_child fun _ q np _ _ => (.store (by simp) np (fun pr => { pr with
        sz := (s.pt.proc q).sz, parent := some q, name :=
          (s.pt.proc q).name }) (fun _ => ⟨id, rfl, rfl, rfl⟩) rfl rfl)
  | forkUid c =>
    exact yields_child fun _ q np _ _ =>
      (.store (by simp) np (fun pr => { pr with uid := (s.pt.proc q).uid })
        (fun _ => ⟨id, rfl, rfl, rfl⟩) rfl rfl)
  | forkGid c =>
    exact yields_child fun _ q np _ _ =>
      (.store (by simp) np (fun pr => { pr with gid := (s.pt.proc q).gid })
        (fun _ => ⟨id, rfl, rfl, rfl⟩) rfl rfl)
  | setuid c v =>
    exact yields_own fun _ q _ _ =>
      (.store (by simp) q (fun pr => { pr with uid := BitVec.ofInt 32 v })
        (fun _ => ⟨id, rfl, rfl, rfl⟩) rfl rfl)
  | setgid c v =>
    exact yields_own fun _ q _ _ =>
      (.store (by simp) q (fun pr => { pr with gid := BitVec.ofInt 32 v })
        (fun _ => ⟨id, rfl, rfl, rfl⟩) rfl rfl)
  | execSetuid c v =>
    exact yields_own fun _ q _ _ => (.store (by simp) q (fun pr => { pr with uid := v.setWidth 32 })
        (fun _ => ⟨id, rfl, rfl, rfl⟩) rfl rfl)
  | exit c =>
    refine yields_asProc fun cur q hc => yields_guarded fun _ => ?_
    by_cases hinit : s.pt.initproc = some q
    · rw [show PTable.exit b q s.pt = .error .initExiting by simp [PTable.exit, hinit]]
      exact .error trivial
    · obtain ⟨W, R, pt, heq, -, hW, -, -, hident, -⟩ := exit_sim h.tab (h.running hc) hinit
      rw [heq]
      have hq : ((adoptAll R (wakeAll W s.pt)).proc q).state ≠ .unused := by
        rw [adoptAll_state, wakeAll_state, h.running hc]
        split <;> simp
      exact .ok (.of_ident (by simp) ((((TimedBut.refl _ _).wakeAll hW).adoptAll R).setState q _ hq) hident
        (holder_sched rfl hc))
  | wait c =>
    refine yields_asProc fun cur q hc => yields_guarded fun _ => ?_
    obtain ⟨p, pid, pt, heq, -, hz, -, hident⟩ | heq | ⟨pt, heq, -, hident, -⟩ :=
      wait_sim h.tab (h.running hc)
    · rw [heq]
      refine .ok (.of_ident (by simp) (t := reaped p s.pt) ?_ hident fun _ => rfl)
      exact (TimedBut.refl _ _).modify p _ fun _ => ⟨fun _ => rfl, rfl, rfl, rfl⟩
    · rw [heq]
      exact .ok (.quiet (by simp) (.refl _ _) fun _ => rfl)
    · rw [heq]
      exact .ok (.of_ident (by simp) (hsleep _ (h.running hc)) hident (holder_sched rfl hc))
  | yield c =>
    refine yields_asProc fun cur q hc => yields_guarded fun _ => ?_
    obtain ⟨pt, heq, -, hident, -⟩ := yield_sim h.tab (h.running hc)
    rw [heq]
    have hused : (s.pt.proc q).state ≠ .unused := by
      rw [h.running hc]
      simp
    exact .ok (.of_ident (by simp) ((TimedBut.refl _ _).setState q _ hused) hident
      (holder_sched rfl hc))
  | sleep c chan =>
    refine yields_asProc fun cur q hc => yields_guarded fun _ => ?_
    obtain ⟨pt, heq, -, hident, -⟩ := sleep_sim h.tab (h.running hc) chan
    rw [heq]
    exact .ok (.of_ident (by simp) (hsleep chan (h.running hc)) hident (holder_sched rfl hc))
  | wakeup chan =>
    refine yields_guarded fun _ => ?_
    obtain ⟨W, pt, heq, -, hW, hident⟩ := wakeup1_sim h.tab chan
    rw [heq]
    exact .ok (.of_ident (by simp) ((TimedBut.refl _ _).wakeAll fun p hp => (mem_sleepers.1 (hW hp)).1)
      hident fun _ => rfl)
  | kill pid =>
    refine yields_guarded fun _ => ?_
    obtain ⟨r, pt, heq, -, rfl | ⟨p, hident⟩⟩ := kill_sim h.tab pid
    · rw [heq]
      exact .ok (.quiet (by simp) (.refl _ _) fun _ => rfl)
    · rw [heq]
      refine .ok (.of_ident (by simp) ((TimedBut.refl _ _).modify p _ fun _ => ⟨fun hu => ?_, rfl, rfl, rfl⟩)
        hident fun _ => rfl)
      simp [killProc, hu]
  | setpriority pid priority =>
    refine yields_guarded fun hen => ?_
    obtain ⟨rfl, -⟩ := hen
    obtain ⟨L, hinv⟩ := h.tab
    obtain ⟨r, pt, L', heq, -, hident⟩ := setpriority_spec hinv pid hok.1 hok.2
    rw [heq]
    exact .ok (.of_ident (by simp) (.refl _ _) hident fun _ => rfl)

/-- `setpriority` is not there in the other build. -/
theorem step_prioOk (hs : s.step b a = .ok s') (hok : b = .p3p4 → PrioOk a s) : PrioOk a s := by
  cases b with
  | p3p4 => exact hok rfl
  | table =>
    cases a with
    | setpriority pid priority => simp [step, guarded] at hs
    | _ => trivial

end Sys

/-! ## The clock -/

/-- The CPU that an action is one of. -/
def Act.cpu : Act → Option ℕ
  | .schedEnter c | .schedStep c | .forkAlloc c | .forkFail c | .forkCopy c | .forkPublish c
  | .forkUid c | .forkGid c | .exit c | .wait c | .yield c | .sleep c _ | .setuid c _
  | .setgid c _ | .execSetuid c _ => some c
  | .tick | .wakeup _ | .kill _ | .setpriority _ _ => none

/-- The machine, and the ticks since it was booted. -/
structure Clocked where
  sys : Sys
  now : ℕ

namespace Clocked

open Sys

variable {b : Build} {n : ℕ} {a : Act} {m m' : Clocked} {p : Slot}

def step (b : Build) (a : Act) (m : Clocked) : Except Halt Clocked := do
  let s ← m.sys.step b a
  .ok ⟨s, if a = .tick then m.now + 1 else m.now⟩

def Init (b : Build) (m : Clocked) : Prop := Sys.Init b m.sys ∧ m.now = 0

/-- There are `n` CPUs, and the clock does not come round. In the `CS333_P3P4` build `setpriority`
    is only called with a priority that has a list. -/
def Ok (b : Build) (n : ℕ) (a : Act) (m : Clocked) : Prop :=
  (∀ c ∈ a.cpu, c < n) ∧ (a = .tick → m.now + 1 < 2 ^ 32) ∧ (b = .p3p4 → PrioOk a m.sys)

/-- The runs of `n` CPUs from `m` on in which `P` holds of the process in slot `p`, the last state
    apart. -/
abbrev While (b : Build) (n : ℕ) (p : Slot) (P : ProcState → Prop) (m : Clocked) : Clocked → Prop :=
  Reachable (step b) (· = m) fun a m => Ok b n a m ∧ P (m.sys.pt.proc p).state

/-- The times of the machine are those on the sheet, as numbers of 32 bits that start at `t0`. -/
structure Books (t0 : Word) (m : Clocked) (t : Sheet Slot (Fin n)) : Prop where
  sound : t.Sound
  now : t.now = m.now
  now_lt : m.now < 2 ^ 32
  ticks : m.sys.pt.ticks = t0 + .ofNat 32 m.now
  started : ∀ p, (m.sys.pt.proc p).state ≠ .unused →
    (m.sys.pt.proc p).startTicks = t0 + .ofNat 32 (t.started p)
  entered : ∀ c p, t.holder c = some p → (m.sys.pt.proc p).cpuTicksIn = t0 + .ofNat 32 (t.entered p)
  total : ∀ p, (m.sys.pt.proc p).cpuTicksTotal.toNat = t.total p
  holder : ∀ c, t.holder c = (m.sys.cpu c).holder

theorem elapsed_toNat (t0 : Word) {x y : ℕ} (hxy : x ≤ y) (hy : y < 2 ^ 32) :
    (t0 + .ofNat 32 y - (t0 + .ofNat 32 x)).toNat = y - x := by
  have := t0.isLt
  rw [BitVec.toNat_sub, BitVec.toNat_add, BitVec.toNat_add, BitVec.toNat_ofNat, BitVec.toNat_ofNat]
  omega

namespace Books

variable {t0 : Word} {t : Sheet Slot (Fin n)} {s' : Sys}

section

variable (h : Books t0 m t)

include h

/-- A process is charged for a time slice what the sheet says. -/
theorem slice {c : Fin n} (hc : t.holder c = some p) :
    ((m.sys.pt.proc p).cpuTicksTotal + (m.sys.pt.ticks - (m.sys.pt.proc p).cpuTicksIn)).toNat =
      t.total p + (t.now - t.entered p) := by
  obtain ⟨hbefore, hle⟩ := h.sound.entered c p hc
  have hnow := h.now
  have hlt := h.now_lt
  rw [h.entered c p hc, h.ticks, BitVec.toNat_add, h.total, elapsed_toNat t0 (by omega) hlt]
  omega

/-- What is kept by a step for all processes that it does not concern. -/
theorem quiet (hpt : TimedBut ∅ m.sys.pt s'.pt)
    (hcpu : ∀ c, (s'.cpu c).holder = (m.sys.cpu c).holder) : Books t0 ⟨s', m.now⟩ t where
  sound := h.sound
  now := h.now
  now_lt := h.now_lt
  ticks := hpt.ticks.trans h.ticks
  started p hp := by
    have hproc := hpt.proc p (Set.notMem_empty p)
    exact hproc.startTicks.trans (h.started p fun hu => hp (hproc.unused hu))
  entered c p hc := (hpt.proc p (Set.notMem_empty p)).cpuTicksIn.trans (h.entered c p hc)
  total p := (congrArg BitVec.toNat (hpt.proc p (Set.notMem_empty p)).cpuTicksTotal).trans
    (h.total p)
  holder c := (h.holder c).trans (hcpu c).symm

theorem tick (hlt : m.now + 1 < 2 ^ 32) :
    Books t0 ⟨{ m.sys with pt := { m.sys.pt with ticks := m.sys.pt.ticks + 1 } },
      m.now + 1⟩ t.tick where
  sound := h.sound.tick
  now := congrArg (· + 1) h.now
  now_lt := hlt
  ticks := by
    show m.sys.pt.ticks + 1 = t0 + .ofNat 32 (m.now + 1)
    rw [h.ticks, BitVec.ofNat_add, ← BitVec.add_assoc]
    rfl
  started := h.started
  entered := h.entered
  total := h.total
  holder := h.holder

theorem alloc {np : Slot} (hoff : m.sys.OffCpu np) (hpt : TimedBut {np} m.sys.pt s'.pt)
    (hstart : (s'.pt.proc np).startTicks = m.sys.pt.ticks)
    (htotal : (s'.pt.proc np).cpuTicksTotal = 0)
    (hcpu : ∀ c, (s'.cpu c).holder = (m.sys.cpu c).holder) : Books t0 ⟨s', m.now⟩ (t.start np) where
  sound := h.sound.start fun c hc => hoff c ((h.holder c).symm.trans hc)
  now := h.now
  now_lt := h.now_lt
  ticks := hpt.ticks.trans h.ticks
  started p hp := by
    show (s'.pt.proc p).startTicks = t0 + .ofNat 32 (update t.started np t.now p)
    by_cases hnp : p = np
    · subst hnp
      rw [update_self, hstart, h.now, h.ticks]
    · have hproc := hpt.proc p hnp
      rw [update_of_ne hnp, hproc.startTicks]
      exact h.started p fun hu => hp (hproc.unused hu)
  entered c p hc := by
    have hnp : p ≠ np := fun he => hoff c ((h.holder c).symm.trans (he ▸ hc))
    exact (hpt.proc p hnp).cpuTicksIn.trans (h.entered c p hc)
  total p := by
    show (s'.pt.proc p).cpuTicksTotal.toNat = update t.total np 0 p
    by_cases hnp : p = np
    · subst hnp
      rw [update_self, htotal]
      rfl
    · rw [update_of_ne hnp, (hpt.proc p hnp).cpuTicksTotal]
      exact h.total p
  holder c := (h.holder c).trans (hcpu c).symm

theorem enter {c : Fin n} (hc : (m.sys.cpu c).holder = none) (hoff : m.sys.OffCpu p)
    (hused : (m.sys.pt.proc p).state ≠ .unused) (hpt : TimedBut {p} m.sys.pt s'.pt)
    (hin : (s'.pt.proc p).cpuTicksIn = m.sys.pt.ticks)
    (hstart : (s'.pt.proc p).startTicks = (m.sys.pt.proc p).startTicks)
    (htotal : (s'.pt.proc p).cpuTicksTotal = (m.sys.pt.proc p).cpuTicksTotal)
    (hcpu : ∀ c', (s'.cpu c').holder = if c' = c then some p else (m.sys.cpu c').holder) :
    Books t0 ⟨s', m.now⟩ (t.enter c p) where
  sound := h.sound.enter ((h.holder c).trans hc) fun c hc => hoff c ((h.holder c).symm.trans hc)
  now := h.now
  now_lt := h.now_lt
  ticks := hpt.ticks.trans h.ticks
  started q hq := by
    by_cases hqp : q = p
    · subst hqp
      exact hstart.trans (h.started q hused)
    · have hproc := hpt.proc q hqp
      exact hproc.startTicks.trans (h.started q fun hu => hq (hproc.unused hu))
  entered c' q hc' := by
    show (s'.pt.proc q).cpuTicksIn = t0 + .ofNat 32 (update t.entered p t.now q)
    by_cases hqp : q = p
    · subst hqp
      rw [update_self, hin, h.now, h.ticks]
    · have hcc : c' ≠ c := by
        rintro rfl
        rw [show (t.enter c' p).holder c' = some p from update_self ..] at hc'
        exact hqp (Option.some.inj hc').symm
      rw [show (t.enter c p).holder c' = t.holder c' from update_of_ne hcc ..] at hc'
      rw [update_of_ne hqp, (hpt.proc q hqp).cpuTicksIn]
      exact h.entered c' q hc'
  total q := by
    by_cases hqp : q = p
    · subst hqp
      exact (congrArg BitVec.toNat htotal).trans (h.total q)
    · exact (congrArg BitVec.toNat (hpt.proc q hqp).cpuTicksTotal).trans (h.total q)
  holder c' := by
    show update t.holder c (some p) c' = (s'.cpu c').holder
    rw [hcpu]
    by_cases hcc : c' = c
    · rw [if_pos (congrArg Fin.val hcc), hcc, update_self]
    · rw [if_neg fun he => hcc (Fin.ext he), update_of_ne hcc]
      exact h.holder c'

theorem leave {c : Fin n} (hc : (m.sys.cpu c).holder = some p) (hpt : TimedBut {p} m.sys.pt s'.pt)
    (hstate : (s'.pt.proc p).state = (m.sys.pt.proc p).state)
    (hstart : (s'.pt.proc p).startTicks = (m.sys.pt.proc p).startTicks)
    (htotal : (s'.pt.proc p).cpuTicksTotal =
      (m.sys.pt.proc p).cpuTicksTotal + (m.sys.pt.ticks - (m.sys.pt.proc p).cpuTicksIn))
    (hcpu : ∀ c', (s'.cpu c').holder = if c' = c then none else (m.sys.cpu c').holder) :
    Books t0 ⟨s', m.now⟩ (t.leave c p) where
  sound := h.sound.leave ((h.holder c).trans hc)
  now := h.now
  now_lt := h.now_lt
  ticks := hpt.ticks.trans h.ticks
  started q hq := by
    by_cases hqp : q = p
    · subst hqp
      exact hstart.trans (h.started q fun hu => hq (hstate.trans hu))
    · have hproc := hpt.proc q hqp
      exact hproc.startTicks.trans (h.started q fun hu => hq (hproc.unused hu))
  entered c' q hc' := by
    replace hc' : update t.holder c none c' = some q := hc'
    have hcc : c' ≠ c := by
      rintro rfl
      rw [update_self] at hc'
      cases hc'
    rw [update_of_ne hcc] at hc'
    have hqp : q ≠ p := fun he => hcc (h.sound.single c' c p (he ▸ hc') ((h.holder c).trans hc))
    exact (hpt.proc q hqp).cpuTicksIn.trans (h.entered c' q hc')
  total q := by
    show (s'.pt.proc q).cpuTicksTotal.toNat = update t.total p (t.total p + (t.now - t.entered p)) q
    by_cases hqp : q = p
    · subst hqp
      rw [update_self, htotal]
      exact h.slice ((h.holder c).trans hc)
    · rw [update_of_ne hqp, (hpt.proc q hqp).cpuTicksTotal]
      exact h.total q
  holder c' := by
    show update t.holder c none c' = (s'.cpu c').holder
    rw [hcpu]
    by_cases hcc : c' = c
    · rw [if_pos (congrArg Fin.val hcc), hcc, update_self]
    · rw [if_neg fun he => hcc (Fin.ext he), update_of_ne hcc]
      exact h.holder c'

/-- The books can be kept. -/
theorem step (hok : Ok b n a m) (hs : TimeStep a m.sys s') :
    ∃ t' : Sheet Slot (Fin n), Books t0 ⟨s', if a = .tick then m.now + 1 else m.now⟩ t' := by
  cases hs with
  | tick ha hs =>
    subst ha hs
    exact ⟨_, h.tick (hok.2.1 rfl)⟩
  | quiet ha hpt hcpu =>
    rw [if_neg ha]
    exact ⟨_, h.quiet hpt hcpu⟩
  | alloc np ha hfree hoff hpt hstart htotal hcpu =>
    rw [if_neg ha]
    exact ⟨_, h.alloc hoff hpt hstart htotal hcpu⟩
  | enter c p ha hc hoff hused hrun hpt hin hstart htotal hcpu =>
    subst ha
    have hlt : c < n := hok.1 c rfl
    rw [if_neg (by simp)]
    exact ⟨_, h.enter (c := ⟨c, hlt⟩) hc hoff hused hpt hin hstart htotal hcpu⟩
  | leave c p ha hc hpt hstate hstart htotal hcpu =>
    subst ha
    have hlt : c < n := hok.1 c rfl
    rw [if_neg (by simp)]
    exact ⟨_, h.leave (c := ⟨c, hlt⟩) hc hpt hstate hstart htotal hcpu⟩

end

end Books

/-- What is known of every reachable state. -/
structure Inv (b : Build) (n : ℕ) (m : Clocked) : Prop where
  sys : SysInv b m.sys
  books : ∃ t0, ∃ t : Sheet Slot (Fin n), Books t0 m t

theorem Init.inv (n : ℕ) (h : Init b m) : Inv b n m := by
  obtain ⟨s, now⟩ := m
  obtain ⟨hinit, rfl⟩ : Sys.Init b s ∧ now = 0 := h
  refine ⟨hinit.inv, ?_⟩
  obtain ⟨t0, pt, hpt, rfl⟩ := hinit
  obtain ⟨q, pt', hpt', -, hident⟩ := userinit_sim b t0
  rw [hpt] at hpt'
  obtain rfl := Except.ok.inj hpt'
  have hbooted : ∀ p, ((booted t0 q).proc p).cpuTicksTotal = 0 ∧
      (((booted t0 q).proc p).state ≠ .unused → ((booted t0 q).proc p).startTicks = t0) := by
    intro p
    by_cases hp : p = q
    · subst hp
      simp [booted, allocated, allocFields, zero]
    · simp [booted, allocated, zero, hp]
  refine ⟨t0, .blank, Sheet.sound_blank, rfl, Nat.two_pow_pos 32, ?_, fun p hp => ?_,
    (fun _ _ hc => by cases hc), fun p => ?_, fun c => rfl⟩
  · exact hident.ticks.trans (BitVec.add_zero t0).symm
  · rw [show (boot pt).pt = pt from rfl] at hp ⊢
    rw [hident.field Proc.state fun _ => rfl] at hp
    rw [hident.field Proc.startTicks fun _ => rfl, (hbooted p).2 hp]
    exact (BitVec.add_zero t0).symm
  · show (pt.proc p).cpuTicksTotal.toNat = 0
    rw [hident.field Proc.cpuTicksTotal fun _ => rfl, (hbooted p).1]
    rfl

/-- What one action does. -/
theorem Inv.step (h : Inv b n m) (hok : Ok b n a m) (hs : m.step b a = .ok m') :
    Inv b n m' ∧ TimeStep a m.sys m'.sys := by
  obtain ⟨s', hs', he⟩ := of_bind hs
  obtain rfl := Except.ok.inj he
  have hprio := step_prioOk hs' hok.2.2
  obtain ⟨t0, t, hbooks⟩ := h.books
  have htime := (step_times h.sys hprio).1 s' hs'
  exact ⟨⟨(step_inv h.sys hprio hs').1, t0, hbooks.step hok htime⟩, htime⟩

theorem reachable_inv (h : Reachable (step b) (Init b) (Ok b n) m) : Inv b n m :=
  h.invariant (fun _ => Init.inv n) fun _ _ _ hinv hok hs => (hinv.step hok hs).1

section

variable (h : Inv b n m)

include h

/-- Nobody has been booked for longer than it has been there, at any later time before the clock
    comes round. -/
theorem Inv.total_le {d : ℕ} (hd : m.now + d < 2 ^ 32) (hp : (m.sys.pt.proc p).state ≠ .unused) :
    (m.sys.pt.proc p).cpuTicksTotal ≤ m.sys.pt.ticks + .ofNat 32 d - (m.sys.pt.proc p).startTicks := by
  obtain ⟨t0, t, hbooks⟩ := h.books
  have htotal := hbooks.sound.total p
  rw [hbooks.now] at htotal
  rw [BitVec.le_def, hbooks.total, hbooks.started p hp, hbooks.ticks, BitVec.add_assoc,
    ← BitVec.ofNat_add, elapsed_toNat t0 (by omega) hd]
  omega

theorem Inv.sum_le : ∑ p, (m.sys.pt.proc p).cpuTicksTotal.toNat ≤ n * m.now := by
  obtain ⟨t0, t, hbooks⟩ := h.books
  have hsum := hbooks.sound.sum
  rw [Fintype.card_fin, hbooks.now, Finset.sum_congr rfl fun p _ => (hbooks.total p).symm] at hsum
  omega

/-- As long as a slot is in use its total does not go down. -/
theorem Inv.step_total (hok : Ok b n a m) (hs : m.step b a = .ok m')
    (hp : (m.sys.pt.proc p).state ≠ .unused) :
    (m.sys.pt.proc p).cpuTicksTotal.toNat ≤ (m'.sys.pt.proc p).cpuTicksTotal.toNat := by
  have htime := (h.step hok hs).2
  cases htime with
  | tick _ hs => rw [hs]
  | quiet _ hpt _ => rw [(hpt.proc p (Set.notMem_empty p)).cpuTicksTotal]
  | alloc np _ hfree _ hpt =>
    have hne : p ≠ np := fun he => hp (he ▸ hfree)
    rw [(hpt.proc p hne).cpuTicksTotal]
  | enter c q _ _ _ _ _ hpt _ _ htotal =>
    by_cases hpq : p = q
    · rw [hpq, htotal]
    · rw [(hpt.proc p hpq).cpuTicksTotal]
  | leave c q ha hc hpt _ _ htotal =>
    by_cases hpq : p = q
    · subst hpq ha
      obtain ⟨t0, t, hbooks⟩ := h.books
      have hslice := hbooks.slice (c := ⟨c, hok.1 c rfl⟩) ((hbooks.holder _).trans hc)
      rw [htotal, hslice, hbooks.total]
      omega
    · rw [(hpt.proc p hpq).cpuTicksTotal]

/-- The total of a process that is off the CPU stays, and it stays off the CPU unless it is
    dispatched. -/
theorem Inv.step_offCpu (hok : Ok b n a m) (hs : m.step b a = .ok m')
    (hp : (m.sys.pt.proc p).state ≠ .unused) (hoff : m.sys.OffCpu p) :
    (m'.sys.pt.proc p).cpuTicksTotal = (m.sys.pt.proc p).cpuTicksTotal ∧
      ((m'.sys.pt.proc p).state = .running ∨ m'.sys.OffCpu p) := by
  have htime := (h.step hok hs).2
  cases htime with
  | tick _ hs =>
    rw [hs]
    exact ⟨rfl, Or.inr hoff⟩
  | quiet _ hpt hcpu =>
    exact ⟨(hpt.proc p (Set.notMem_empty p)).cpuTicksTotal, Or.inr fun c => (hcpu c).symm ▸ hoff c⟩
  | alloc np _ hfree _ hpt _ _ hcpu =>
    have hne : p ≠ np := fun he => hp (he ▸ hfree)
    exact ⟨(hpt.proc p hne).cpuTicksTotal, Or.inr fun c => (hcpu c).symm ▸ hoff c⟩
  | enter c q _ _ _ _ hrun hpt _ _ htotal hcpu =>
    by_cases hpq : p = q
    · subst hpq
      exact ⟨htotal, Or.inl hrun⟩
    · refine ⟨(hpt.proc p hpq).cpuTicksTotal, Or.inr fun c' hc' => ?_⟩
      rw [hcpu] at hc'
      split at hc'
      · exact hpq (Option.some.inj hc').symm
      · exact hoff c' hc'
  | leave c q _ hc hpt _ _ _ hcpu =>
    have hpq : p ≠ q := fun he => hoff c (he ▸ hc)
    refine ⟨(hpt.proc p hpq).cpuTicksTotal, Or.inr fun c' hc' => ?_⟩
    rw [hcpu] at hc'
    split_ifs at hc'
    exact hoff c' hc'

theorem Inv.run {P : ProcState → Prop} (hrun : While b n p P m m') : Inv b n m' :=
  hrun.invariant (fun _ he => he ▸ h) fun _ _ _ hinv hok hs => (hinv.step hok.1 hs).1

theorem Inv.run_total (hrun : While b n p (· ≠ .unused) m m') :
    (m.sys.pt.proc p).cpuTicksTotal.toNat ≤ (m'.sys.pt.proc p).cpuTicksTotal.toNat := by
  induction hrun with
  | init he => rw [he]
  | step hrest hok hs ih =>
    exact ih.trans ((h.run (P := (· ≠ .unused)) hrest).step_total hok.1 hs hok.2)

theorem Inv.run_offCpu (hoff : m.sys.OffCpu p)
    (hrun : While b n p (fun st => st ≠ .unused ∧ st ≠ .running) m m') :
    (m'.sys.pt.proc p).cpuTicksTotal = (m.sys.pt.proc p).cpuTicksTotal ∧
      ((m'.sys.pt.proc p).state = .running ∨ m'.sys.OffCpu p) := by
  induction hrun with
  | init he =>
    rw [he]
    exact ⟨rfl, Or.inr hoff⟩
  | step hrest hok hs ih =>
    obtain ⟨htotal, hst⟩ := ih
    have hinv := h.run (P := fun st => st ≠ .unused ∧ st ≠ .running) hrest
    obtain ⟨htotal', hst'⟩ := hinv.step_offCpu hok.1 hs hok.2.1 (hst.resolve_left hok.2.2)
    exact ⟨htotal'.trans htotal, hst'⟩

end

end Clocked

/-- The table `d` ticks later. -/
def PTable.later (s : PTable) (d : ℕ) : PTable := { s with ticks := s.ticks + .ofNat 32 d }

theorem PTable.mem_getprocs {s : PTable} {max : Int} {u : Uproc} (h : u ∈ s.getprocs max) :
    ∃ p, reported (s.proc p) = true ∧ u = s.uproc p := by
  have hloop : ∀ (ps : List Slot) (i : ℕ), u ∈ getprocsLoop s max ps i →
      ∃ p, reported (s.proc p) = true ∧ u = s.uproc p := by
    intro ps
    induction ps with
    | nil =>
      intro i hu
      cases hu
    | cons p ps ih =>
      intro i hu
      unfold getprocsLoop at hu
      split at hu
      · cases hu
      split at hu
      · next hp =>
        obtain rfl | hu := List.mem_cons.1 hu
        · exact ⟨p, hp, rfl⟩
        · exact ih _ hu
      · exact ih _ hu
  exact hloop _ _ h

namespace Clocked

/-- In a run of fewer than 2^32 ticks on `n` CPUs nobody is reported with more CPU time than has
    passed since it was made, also where the clock goes on while `getprocs` runs. As long as a
    process is there its time does not go down, and if it neither runs nor is dispatched it stays
    the same. All together have used no more than `n` CPUs have. -/
theorem accounting_sound (b : Build) (n : ℕ) (m : Clocked)
    (h : Reachable (step b) (Init b) (Ok b n) m) :
    (∀ (max : Int) (d : ℕ), m.now + d < 2 ^ 32 →
      ∀ u ∈ (m.sys.pt.later d).getprocs max, u.cpuTotalTicks ≤ u.elapsedTicks) ∧
    (∀ p m', While b n p (· ≠ .unused) m m' →
      (m.sys.pt.uproc p).cpuTotalTicks.toNat ≤ (m'.sys.pt.uproc p).cpuTotalTicks.toNat) ∧
    (∀ p m', m.sys.lock = none → (m.sys.pt.proc p).state ≠ .running →
      While b n p (fun st => st ≠ .unused ∧ st ≠ .running) m m' →
        (m'.sys.pt.uproc p).cpuTotalTicks = (m.sys.pt.uproc p).cpuTotalTicks) ∧
    ∑ p, (m.sys.pt.uproc p).cpuTotalTicks.toNat ≤ n * m.now := by
  have hinv := reachable_inv h
  refine ⟨fun max d hd u hu => ?_, fun p m' hrun => hinv.run_total hrun,
    fun p m' hlock hp hrun => ?_, hinv.sum_le⟩
  · obtain ⟨p, hp, rfl⟩ := mem_getprocs hu
    have hused : (m.sys.pt.proc p).state ≠ .unused := by
      have hrep := of_decide_eq_true hp
      exact hrep.1
    exact hinv.total_le hd hused
  · exact (hinv.run_offCpu (hinv.sys.offCpu hlock hp) hrun).1

instance (b : Build) (n : ℕ) (a : Act) (m : Clocked) : Decidable (Ok b n a m) :=
  inferInstanceAs (Decidable (_ ∧ _ ∧ _))

/-- The first process runs for three ticks, and its child is dispatched by another CPU in the
    meantime. -/
def forkThenYield : List Act :=
  [.schedEnter 0, .schedStep 0, .tick, .tick, .forkAlloc 0, .forkCopy 0, .forkPublish 0,
    .schedEnter 1, .schedStep 1, .schedStep 1, .tick, .yield 0, .schedStep 0]

theorem accounting_sound_twoCpus :
    ∃ m, Reachable (step .table) (Init .table) (Ok .table 2) m ∧ m.now = 3 ∧
      (m.sys.pt.uproc 0).cpuTotalTicks = 3 ∧
      ∑ p, (m.sys.pt.uproc p).cpuTotalTicks.toNat ≤ 2 * 3 := by
  obtain ⟨pt, hpt, hboot⟩ := exists_ok (x := userinit .table 0) (fun pt =>
    (execOk (step .table) (fun a m => decide (Ok .table 2 a m)) forkThenYield ⟨Sys.boot pt, 0⟩).any
      (fun m => decide (m.now = 3 ∧ (m.sys.pt.uproc 0).cpuTotalTicks = 3)) = true)
      (by decide +kernel)
  obtain ⟨m, hm, hnow, htotal⟩ := execOk_any _ _ _ _ _ hboot
  have hreach : Reachable (step .table) (Init .table) (Ok .table 2) m :=
    Reachable.execOk (fun _ _ hok => of_decide_eq_true hok) _ _ m
      (.init ⟨⟨0, pt, hpt, rfl⟩, rfl⟩) hm
  have hsum := (accounting_sound .table 2 m hreach).2.2.2
  rw [hnow] at hsum
  exact ⟨m, hreach, hnow, htotal, hsum⟩

end Clocked

end Xv6
