import Xv6.Proc.Sim
import Xv6.Proc.Priority
import Xv6.Proc.Life

set_option autoImplicit false

/-! # Both builds refine the life cycle

`Sys.life` forgets scheduling. `step_outcome` says all there is to say about one action of either
build in a state that satisfies `SysInv`: it is disabled, or init calls `exit`, or it leads to a
state that satisfies `SysInv` again and is a step of the life cycle. In particular no other panic
happens.

The scheduler's part of the invariant rests on the lock. Whoever is in the loop of `scheduler` holds
`ptable.lock`, so only stores made without the lock can happen meanwhile, and those change neither a
list nor a state. -/

namespace Xv6

open Function PTable Life

/-- The process a CPU runs. -/
def CpuState.running : CpuState → Option Slot
  | .run _ p => some p
  | _ => none

/-- Where the loops of the scheduler stand or will go on. -/
def CpuState.cursor : CpuState → Option Cursor
  | .idle => none
  | .loop cur _ | .run cur _ | .back cur _ => some cur

/-- In the loops of `scheduler`. -/
def CpuState.scheduling : CpuState → Prop
  | .loop _ _ | .back _ _ => True
  | _ => False

namespace Sys

variable {b : Build} {a : Act} {s : Sys} {c : ℕ} {cur : Cursor} {q np : Slot} {pt : PTable}

/-- The machine without scheduling. -/
def life (s : Sys) : Life where
  state := fun p => (s.pt.proc p).state
  parent := fun p => (s.pt.proc p).parent
  uid := fun p => (s.pt.proc p).uid
  gid := fun p => (s.pt.proc p).gid
  kont := s.kont
  running := fun c => (s.cpu c).running
  initproc := s.pt.initproc

/-! ## How `life` follows the updates -/

/-- `life` sees a table only up to `SameIdent`. -/
theorem life_congr {X : PTable} (h : SameIdent X pt) (kont : Slot → Kont) (cpu : ℕ → CpuState)
    (lock lock' : Option ℕ) :
    (⟨pt, kont, cpu, lock⟩ : Sys).life = (⟨X, kont, cpu, lock'⟩ : Sys).life := by
  ext1
  · exact funext (h.field Proc.state fun _ => rfl)
  · exact funext (h.field Proc.parent fun _ => rfl)
  · exact funext (h.field Proc.uid fun _ => rfl)
  · exact funext (h.field Proc.gid fun _ => rfl)
  · rfl
  · rfl
  · exact h.initproc

theorem update_proj {α : Type} (s : PTable) (p : Slot) (f : Proc → Proc) (g : Proc → α) :
    (fun x => g ((s.modify p f).proc x)) =
      update (fun x => g (s.proc x)) p (g (f (s.proc p))) := by
  funext x
  by_cases hx : x = p
  · subst hx; simp
  · simp [hx]

section

variable (t : PTable) (kont : Slot → Kont) (cpu : ℕ → CpuState) (lock : Option ℕ) (p : Slot)

theorem life_modify (f : Proc → Proc) :
    (⟨t.modify p f, kont, cpu, lock⟩ : Sys).life =
      { (⟨t, kont, cpu, lock⟩ : Sys).life with
        state := update (fun x => (t.proc x).state) p (f (t.proc p)).state
        parent := update (fun x => (t.proc x).parent) p (f (t.proc p)).parent
        uid := update (fun x => (t.proc x).uid) p (f (t.proc p)).uid
        gid := update (fun x => (t.proc x).gid) p (f (t.proc p)).gid } := by
  ext1
  · exact update_proj t p f Proc.state
  · exact update_proj t p f Proc.parent
  · exact update_proj t p f Proc.uid
  · exact update_proj t p f Proc.gid
  · rfl
  · rfl
  · rfl

theorem life_setState (st : ProcState) :
    (⟨t.setState p st, kont, cpu, lock⟩ : Sys).life =
      { (⟨t, kont, cpu, lock⟩ : Sys).life with
        state := update (fun x => (t.proc x).state) p st } := by
  rw [setState, life_modify]
  simp [life]

theorem life_allocated :
    (⟨allocated p t, kont, cpu, lock⟩ : Sys).life =
      { (⟨t, kont, cpu, lock⟩ : Sys).life with
        state := update (fun x => (t.proc x).state) p .embryo
        uid := update (fun x => (t.proc x).uid) p 0
        gid := update (fun x => (t.proc x).gid) p 0 } := by
  have hmod := life_modify t kont cpu lock p
    (fun pr => allocFields t.nextpid t.ticks { pr with state := .embryo })
  refine Eq.trans ?_ (hmod.trans ?_)
  · rfl
  · simp [life, allocFields]

end

/-! ## The invariant -/

/-- What holds of the table and the schedulers in every state. -/
structure SchedInv (b : Build) (s : Sys) : Prop where
  tab : TabInv b s.pt
  cursor : ∀ c cur, (s.cpu c).cursor = some cur → Cursor.fits b cur
  held : ∀ c, (s.cpu c).scheduling → s.lock = some c
  /-- The loop variable of a scheduler is on the list that its loop runs over. -/
  loop : ∀ c i p, s.cpu c = .loop (.ready i) (some p) → home (s.pt.proc p) = some (.ready i)
  /-- A process that has given up the CPU is the last of its list. -/
  back : ∀ c i p, s.cpu c = .back (.ready i) p → s.pt.next p = none

/-- What holds in every reachable state. -/
structure SysInv (b : Build) (s : Sys) : Prop extends SchedInv b s where
  life : LifeInv s.life

/-- With the lock free nobody is in the loops of `scheduler`. -/
theorem SchedInv.not_scheduling (h : SchedInv b s) (hlock : s.lock = none) (c : ℕ) :
    ¬(s.cpu c).scheduling := by
  intro hc
  have := h.held c hc
  rw [hlock] at this
  exact absurd this (by simp)

/-- A section that the lock protects and that switches no CPU. -/
theorem SchedInv.of_section (h : SchedInv b s) (hlock : s.lock = none) (htab : TabInv b pt)
    (kont : Slot → Kont) : SchedInv b ⟨pt, kont, s.cpu, s.lock⟩ where
  tab := htab
  cursor := h.cursor
  held := h.held
  loop c i p hc := absurd (by rw [show s.cpu c = _ from hc]; trivial) (h.not_scheduling hlock c)
  back c i p hc := absurd (by rw [show s.cpu c = _ from hc]; trivial) (h.not_scheduling hlock c)

/-- A section that ends in `sched()`. -/
theorem SchedInv.of_sched (h : SchedInv b s) (hlock : s.lock = none) (htab : TabInv b pt)
    (hc : s.cpu c = .run cur q) (hun : Unlinked b q pt) (kont : Slot → Kont) :
    SchedInv b ((⟨pt, kont, s.cpu, s.lock⟩ : Sys).sched c cur q) where
  tab := htab
  cursor c' cur' hcur := by
    by_cases hcc : c' = c
    · subst hcc
      simp only [sched, setCpu, update_self, CpuState.cursor, Option.some.injEq] at hcur
      subst hcur
      exact h.cursor c' cur (by rw [hc]; rfl)
    · exact h.cursor c' cur' (by simpa [sched, setCpu, hcc] using hcur)
  held c' hs := by
    by_cases hcc : c' = c
    · subst hcc; rfl
    · exact absurd (by simpa [sched, setCpu, hcc] using hs) (h.not_scheduling hlock c')
  loop c' i p hloop := by
    by_cases hcc : c' = c
    · subst hcc
      simp [sched, setCpu] at hloop
    · have hl : s.cpu c' = .loop (.ready i) (some p) := by simpa [sched, setCpu, hcc] using hloop
      exact absurd (by rw [hl]; trivial) (h.not_scheduling hlock c')
  back c' i p hback := by
    by_cases hcc : c' = c
    · subst hcc
      simp only [sched, setCpu, update_self, CpuState.back.injEq] at hback
      obtain ⟨rfl, rfl⟩ := hback
      exact hun (h.cursor c' (.ready i) (by rw [hc]; rfl))
    · have hl : s.cpu c' = .back (.ready i) p := by simpa [sched, setCpu, hcc] using hback
      exact absurd (by rw [hl]; trivial) (h.not_scheduling hlock c')

/-- A store made without the lock. -/
theorem SchedInv.of_store (h : SchedInv b s) (hk : Keeps s.pt pt) (kont : Slot → Kont) :
    SchedInv b ⟨pt, kont, s.cpu, s.lock⟩ where
  tab := h.tab.of_keeps hk
  cursor := h.cursor
  held := h.held
  loop c i p hc := (hk.home p).trans (h.loop c i p hc)
  back c i p hc := by
    rw [hk.next]
    exact h.back c i p hc

/-! ## Outcomes of an action -/

/-- An action is not possible, or init exits, or it is a step of the life cycle. -/
def Outcome (b : Build) (a : Act) (s : Sys) : Except Halt Sys → Prop
  | .ok s' => SchedInv b s' ∧ Life.Step a s.life s'.life
  | .error .disabled => True
  | .error (.panic e) => e = .initExiting

theorem Outcome.asProc {f : Cursor → Slot → Except Halt Sys}
    (hf : ∀ cur q, s.cpu c = .run cur q → Outcome b a s (f cur q)) :
    Outcome b a s (s.asProc c f) := by
  unfold Sys.asProc
  split
  · next cur q hc => exact hf cur q hc
  · trivial

theorem Outcome.guarded {P : Prop} [Decidable P] {x : Except Halt Sys}
    (hx : P → Outcome b a s x) : Outcome b a s (guarded P x) := by
  unfold Sys.guarded
  split
  · next hP => exact hx hP
  · trivial

theorem Outcome.onChild {k : Kont → Option Slot} {f : Slot → Except Halt Sys}
    (hf : ∀ np, k (s.kont q) = some np → Outcome b a s (f np)) :
    Outcome b a s (s.onChild q k f) := by
  unfold Sys.onChild
  split
  · next np hk => exact hf np hk
  · trivial

theorem life_running (hc : s.cpu c = .run cur q) : s.life.running c = some q := by
  simp [life, hc, CpuState.running]

theorem SysInv.running (h : SysInv b s) (hc : s.cpu c = .run cur q) :
    (s.pt.proc q).state = .running :=
  h.life.running_state c q (life_running hc)

variable {k : Kont}

theorem atAlloc_eq (h : Kont.atAlloc k = some np) : k = .forkAlloc np := by
  cases k <;> simp_all [Kont.atAlloc]

theorem atReady_eq (h : Kont.atReady k = some np) : k = .forkReady np := by
  cases k <;> simp_all [Kont.atReady]

theorem atUid_eq (h : Kont.atUid k = some np) : k = .forkUid np := by
  cases k <;> simp_all [Kont.atUid]

theorem atGid_eq (h : Kont.atGid k = some np) : k = .forkGid np := by
  cases k <;> simp_all [Kont.atGid]

/-! ## `fork` -/

section

variable (h : SysInv b s)

include h

theorem forkAlloc_outcome (c : ℕ) :
    Outcome b (.forkAlloc c) s (s.step b (.forkAlloc c)) := by
  refine Outcome.asProc fun cur q hc => Outcome.guarded fun ⟨hlock, hkont⟩ => ?_
  rcases allocproc_sim h.tab with heq | ⟨np, pt, heq, htab, hnp, hident⟩
  · rw [heq]
    exact ⟨h.toSchedInv, .idle (a := .forkAlloc c) trivial s.life⟩
  · rw [heq]
    refine ⟨h.of_section hlock htab _, ?_⟩
    convert Step.forkAlloc (s := s.life) (life_running hc) hkont hnp using 1
    exact (life_congr hident _ _ _ s.lock).trans (life_allocated _ _ _ _ _)

theorem forkFail_outcome (c : ℕ) :
    Outcome b (.forkFail c) s (s.step b (.forkFail c)) := by
  refine Outcome.asProc fun cur q hc => Outcome.guarded fun hlock => Outcome.onChild fun np hk => ?_
  have hkont : s.kont q = .forkAlloc np := atAlloc_eq hk
  obtain ⟨pt, heq, htab, hident⟩ := rollback_sim h.tab (h.life.alloc q np hkont).1
  rw [heq]
  refine ⟨h.of_section hlock htab _, ?_⟩
  convert Step.forkFail (s := s.life) (life_running hc) hkont using 1
  exact (life_congr hident _ _ _ s.lock).trans (life_setState _ _ _ _ _ _)

theorem forkCopy_outcome (c : ℕ) :
    Outcome b (.forkCopy c) s (s.step b (.forkCopy c)) := by
  refine Outcome.asProc fun cur q hc => Outcome.onChild fun np hk => ?_
  have hkont : s.kont q = .forkAlloc np := atAlloc_eq hk
  refine ⟨h.of_store (forkCopy_keeps q np s.pt) _, ?_⟩
  convert Step.forkCopy (s := s.life) (life_running hc) hkont using 1
  simp only [PTable.forkCopy, Sys.setKont, life_modify]
  simp [life, Life.setKont]

theorem forkPublish_outcome (c : ℕ) :
    Outcome b (.forkPublish c) s (s.step b (.forkPublish c)) := by
  refine Outcome.asProc fun cur q hc => Outcome.guarded fun hlock => Outcome.onChild fun np hk => ?_
  have hkont : s.kont q = .forkReady np := atReady_eq hk
  obtain ⟨pt, heq, htab, hident⟩ := forkPublish_sim h.tab (h.life.ready q np hkont).1
  rw [heq]
  refine ⟨h.of_section hlock htab _, ?_⟩
  convert Step.forkPublish (s := s.life) (life_running hc) hkont using 1
  exact (life_congr hident _ _ _ s.lock).trans (life_setState _ _ _ _ _ _)

theorem forkUid_outcome (c : ℕ) :
    Outcome b (.forkUid c) s (s.step b (.forkUid c)) := by
  refine Outcome.asProc fun cur q hc => Outcome.onChild fun np hk => ?_
  have hkont : s.kont q = .forkUid np := atUid_eq hk
  refine ⟨h.of_store (forkUid_keeps q np s.pt) _, ?_⟩
  convert Step.forkUid (s := s.life) (life_running hc) hkont using 1
  simp only [PTable.forkUid, Sys.setKont, life_modify]
  simp [life, Life.setKont]

theorem forkGid_outcome (c : ℕ) :
    Outcome b (.forkGid c) s (s.step b (.forkGid c)) := by
  refine Outcome.asProc fun cur q hc => Outcome.onChild fun np hk => ?_
  have hkont : s.kont q = .forkGid np := atGid_eq hk
  refine ⟨h.of_store (forkGid_keeps q np s.pt) _, ?_⟩
  convert Step.forkGid (s := s.life) (life_running hc) hkont using 1
  simp only [PTable.forkGid, Sys.setKont, life_modify]
  simp [life, Life.setKont]

end

/-! ## Credentials -/

theorem setuid_outcome (h : SysInv b s) (c : ℕ) (v : Int) :
    Outcome b (.setuid c v) s (s.step b (.setuid c v)) := by
  refine Outcome.asProc fun cur q hc => Outcome.guarded fun ⟨hkont, _⟩ => ?_
  refine ⟨h.of_store (.modify s.pt q (fun _ => by rfl) (fun _ => by rfl) (fun _ => by rfl)) s.kont,
    ?_⟩
  convert Step.setuid (s := s.life) v (life_running hc) hkont using 1
  rw [life_modify]
  simp [life]

theorem setgid_outcome (h : SysInv b s) (c : ℕ) (v : Int) :
    Outcome b (.setgid c v) s (s.step b (.setgid c v)) := by
  refine Outcome.asProc fun cur q hc => Outcome.guarded fun ⟨hkont, _⟩ => ?_
  refine ⟨h.of_store (.modify s.pt q (fun _ => by rfl) (fun _ => by rfl) (fun _ => by rfl)) s.kont,
    ?_⟩
  convert Step.setgid (s := s.life) v (life_running hc) hkont using 1
  rw [life_modify]
  simp [life]

theorem execSetuid_outcome (h : SysInv b s) (c : ℕ) (v : BitVec 16) :
    Outcome b (.execSetuid c v) s (s.step b (.execSetuid c v)) := by
  refine Outcome.asProc fun cur q hc => Outcome.guarded fun hkont => ?_
  refine ⟨h.of_store (.modify s.pt q (fun _ => by rfl) (fun _ => by rfl) (fun _ => by rfl)) s.kont,
    ?_⟩
  convert Step.execSetuid (s := s.life) v (life_running hc) hkont using 1
  rw [life_modify]
  simp [life]

/-! ## Giving up the CPU -/

theorem life_sched (s : Sys) (c : ℕ) (cur : Cursor) (q : Slot) :
    (s.sched c cur q).life = { s.life with running := update s.life.running c none } := by
  ext1
  case running =>
    funext c'
    by_cases hc : c' = c
    · subst hc; simp [life, sched, setCpu, CpuState.running]
    · simp [life, sched, setCpu, hc]
  all_goals rfl

theorem yield_outcome (h : SysInv b s) (c : ℕ) :
    Outcome b (.yield c) s (s.step b (.yield c)) := by
  refine Outcome.asProc fun cur q hc => Outcome.guarded fun hlock => ?_
  obtain ⟨pt, heq, htab, hident, hun⟩ := yield_sim h.tab (h.running hc)
  rw [heq]
  refine ⟨h.of_sched hlock htab hc hun s.kont, ?_⟩
  convert Step.yield (s := s.life) (life_running hc) using 1
  rw [life_sched, life_congr hident _ _ _ s.lock, life_setState]
  rfl

theorem life_sleeping (t : PTable) (kont : Slot → Kont) (cpu : ℕ → CpuState) (lock : Option ℕ)
    (q : Slot) (chan : Chan) :
    (⟨t.modify q (fun pr => { pr with chan := chan, state := .sleeping }), kont, cpu, lock⟩ :
      Sys).life = { (⟨t, kont, cpu, lock⟩ : Sys).life with
        state := update (fun x => (t.proc x).state) q .sleeping } := by
  rw [life_modify]
  simp [life]

theorem sleep_outcome (h : SysInv b s) (c : ℕ) (chan : Chan) :
    Outcome b (.sleep c chan) s (s.step b (.sleep c chan)) := by
  refine Outcome.asProc fun cur q hc => Outcome.guarded fun ⟨hlock, hkont⟩ => ?_
  obtain ⟨pt, heq, htab, hident, hun⟩ := sleep_sim h.tab (h.running hc) chan
  rw [heq]
  refine ⟨h.of_sched hlock htab hc hun _, ?_⟩
  convert Step.sleep (s := s.life) chan (life_running hc) hkont using 1
  simp only [setKont]
  rw [life_sched, life_congr hident _ _ _ s.lock, life_sleeping]
  rfl

theorem wait_outcome (h : SysInv b s) (c : ℕ) :
    Outcome b (.wait c) s (s.step b (.wait c)) := by
  refine Outcome.asProc fun cur q hc => Outcome.guarded fun ⟨hlock, hkont⟩ => ?_
  rcases wait_sim h.tab (h.running hc) with ⟨p, pid, pt, heq, htab, hst, hpar, hident⟩ | heq |
    ⟨pt, heq, htab, hident, hun⟩
  · rw [heq]
    refine ⟨h.of_section hlock htab _, ?_⟩
    convert Step.reap (s := s.life) (life_running hc) hkont hst hpar using 1
    simp only [setKont]
    rw [life_congr hident _ _ _ s.lock, reaped, life_modify]
    simp [life, Life.setKont, reapFields]
  · rw [heq]
    exact ⟨h.of_section hlock h.tab _, Step.waitReturn (s := s.life) (life_running hc) hkont⟩
  · rw [heq]
    refine ⟨h.of_sched hlock htab hc hun _, ?_⟩
    convert Step.waitSleep (s := s.life) (life_running hc) hkont using 1
    simp only [setKont]
    rw [life_sched, life_congr hident _ _ _ s.lock, life_sleeping]
    rfl

theorem life_exited (t : PTable) (kont : Slot → Kont) (cpu : ℕ → CpuState) (lock : Option ℕ)
    (q : Slot) (W R : Finset Slot) :
    (⟨(adoptAll R (wakeAll W t)).setState q .zombie, kont, cpu, lock⟩ : Sys).life =
      let s := ((⟨t, kont, cpu, lock⟩ : Sys).life.wake W).adopt R
      { s with state := update s.state q .zombie } := by
  rw [life_setState]
  ext1
  · simp only [adoptAll_state, wakeAll_state]
    rfl
  · funext p
    simp [life, Life.adopt, Life.wake]
  · funext p
    by_cases hR : p ∈ R <;> by_cases hW : p ∈ W <;>
      simp [life, Life.adopt, Life.wake, adoptAll, wakeAll, hR, hW]
  · funext p
    by_cases hR : p ∈ R <;> by_cases hW : p ∈ W <;>
      simp [life, Life.adopt, Life.wake, adoptAll, wakeAll, hR, hW]
  · rfl
  · rfl
  · rfl

theorem exit_outcome (h : SysInv b s) (c : ℕ) :
    Outcome b (.exit c) s (s.step b (.exit c)) := by
  refine Outcome.asProc fun cur q hc => Outcome.guarded fun ⟨hlock, hkont⟩ => ?_
  by_cases hinit : s.pt.initproc = some q
  · have heq : PTable.exit b q s.pt = .error .initExiting := by simp [PTable.exit, hinit]
    rw [heq]
    rfl
  · obtain ⟨W, R, pt, heq, htab, hW, hR, hlive, hident, hun⟩ :=
      exit_sim h.tab (h.running hc) hinit
    rw [heq]
    refine ⟨h.of_sched hlock htab hc hun s.kont, ?_⟩
    convert Step.exit (s := s.life) W R (life_running hc) hkont hinit hW hR
      (fun p hp hu hz => hlive p ⟨hu, hz⟩ hp) using 1
    rw [life_sched, life_congr hident _ _ _ s.lock, life_exited]
    rfl

/-! ## Waking -/

theorem life_wakeAll (t : PTable) (kont : Slot → Kont) (cpu : ℕ → CpuState) (lock : Option ℕ)
    (W : Finset Slot) :
    (⟨wakeAll W t, kont, cpu, lock⟩ : Sys).life = (⟨t, kont, cpu, lock⟩ : Sys).life.wake W := by
  ext1
  · funext p
    simp [life, Life.wake]
  · funext p
    simp [life, Life.wake]
  · funext p
    by_cases hW : p ∈ W <;> simp [life, Life.wake, wakeAll, hW]
  · funext p
    by_cases hW : p ∈ W <;> simp [life, Life.wake, wakeAll, hW]
  · rfl
  · rfl
  · rfl

theorem wakeup_outcome (h : SysInv b s) (chan : Chan) :
    Outcome b (.wakeup chan) s (s.step b (.wakeup chan)) := by
  refine Outcome.guarded fun hlock => ?_
  obtain ⟨W, pt, heq, htab, hW, hident⟩ := wakeup1_sim h.tab chan
  rw [heq]
  refine ⟨h.of_section hlock htab s.kont, ?_⟩
  convert Step.wake (a := .wakeup chan) trivial (s := s.life) W
    (fun p hp => (mem_sleepers.1 (hW hp)).1) using 1
  exact (life_congr hident _ _ _ s.lock).trans (life_wakeAll _ _ _ _ _)

theorem kill_outcome (h : SysInv b s) (pid : Word) :
    Outcome b (.kill pid) s (s.step b (.kill pid)) := by
  refine Outcome.guarded fun hlock => ?_
  obtain ⟨r, pt, heq, htab, heff⟩ := kill_sim h.tab pid
  rw [heq]
  refine ⟨h.of_section hlock htab s.kont, ?_⟩
  rcases heff with rfl | ⟨p, hident⟩
  · exact Step.idle (a := .kill pid) trivial s.life
  · by_cases hst : (s.pt.proc p).state = .sleeping
    · convert Step.wake (a := .kill pid) trivial (s := s.life) {p}
        (fun x hx => by rw [Finset.mem_singleton.1 hx]; exact hst) using 1
      refine (life_congr hident _ _ _ s.lock).trans ?_
      rw [life_modify]
      ext1
      case state =>
        funext x
        by_cases hx : x = p
        · subst hx; simp [life, Life.wake, killProc, hst]
        · simp [life, Life.wake, hx]
      all_goals simp [life, Life.wake, killProc]
    · convert Step.idle (a := .kill pid) trivial s.life using 1
      refine (life_congr hident _ _ _ s.lock).trans ?_
      rw [life_modify]
      simp [life, killProc, hst]

theorem setpriority_outcome (h : SysInv b s) {pid priority : Int} (h0 : 0 ≤ priority)
    (h1 : priority ≤ maxPrio) :
    Outcome b (.setpriority pid priority) s (s.step b (.setpriority pid priority)) := by
  refine Outcome.guarded fun ⟨hb, hlock⟩ => ?_
  subst hb
  obtain ⟨L, hinv⟩ := h.tab
  obtain ⟨r, pt, L', heq, hinv', hident⟩ := setpriority_spec hinv pid h0 h1
  rw [heq]
  refine ⟨h.of_section hlock (b := .p3p4) ⟨L', hinv'⟩ s.kont, ?_⟩
  convert Step.idle (a := .setpriority pid priority) trivial s.life using 1
  exact life_congr hident _ _ _ s.lock

/-! ## The scheduler -/

theorem tick_outcome (h : SysInv b s) : Outcome b .tick s (s.step b .tick) := by
  have hk : Keeps s.pt { s.pt with ticks := s.pt.ticks + 1 } :=
    ⟨rfl, rfl, fun _ => rfl, fun _ => rfl⟩
  exact ⟨h.of_store hk s.kont, Step.idle (a := .tick) trivial s.life⟩

/-- The loop variable that a scheduler starts a list with is on that list. -/
theorem home_of_first (h : TabInv b s.pt) (hb : b = .p3p4) {i : Prio} {p : Slot}
    (hp : s.first (.ready i) = some p) : home (s.pt.proc p) = some (.ready i) := by
  subst hb
  obtain ⟨L, hinv⟩ := h
  rw [← hinv.mem_iff]
  have hhead : (L (.ready i)).head? = some p := by rw [← hinv.head_eq]; exact hp
  exact List.mem_of_mem_head? hhead

/-- One CPU moves on inside `scheduler`, holding the lock. -/
theorem SchedInv.of_loop {p : Option Slot} (htab : TabInv b pt)
    (hcursor : ∀ c' cur', c' ≠ c → (s.cpu c').cursor = some cur' → Cursor.fits b cur')
    (hcur : Cursor.fits b cur) (hothers : ∀ c', c' ≠ c → ¬(s.cpu c').scheduling)
    (hp : ∀ i x, cur = .ready i → p = some x → home (pt.proc x) = some (.ready i))
    (kont : Slot → Kont) :
    SchedInv b ⟨pt, kont, update s.cpu c (.loop cur p), some c⟩ where
  tab := htab
  cursor c' cur' hc := by
    by_cases hcc : c' = c
    · subst hcc
      simp only [update_self, CpuState.cursor, Option.some.injEq] at hc
      exact hc ▸ hcur
    · exact hcursor c' cur' hcc (by simpa [hcc] using hc)
  held c' hs := by
    by_cases hcc : c' = c
    · rw [hcc]
    · exact absurd (by simpa [hcc] using hs) (hothers c' hcc)
  loop c' i x hc := by
    by_cases hcc : c' = c
    · subst hcc
      simp only [update_self, CpuState.loop.injEq] at hc
      exact hp i x hc.1 hc.2
    · have hl : s.cpu c' = .loop (.ready i) (some x) := by simpa [hcc] using hc
      exact absurd (by rw [hl]; trivial) (hothers c' hcc)
  back c' i x hc := by
    by_cases hcc : c' = c
    · subst hcc
      simp at hc
    · have hl : s.cpu c' = .back (.ready i) x := by simpa [hcc] using hc
      exact absurd (by rw [hl]; trivial) (hothers c' hcc)

/-- Only one CPU is in the loops of `scheduler`. -/
theorem SchedInv.others (h : SchedInv b s) (hlock : s.lock = some c) :
    ∀ c', c' ≠ c → ¬(s.cpu c').scheduling := by
  intro c' hne hs
  have := h.held c' hs
  rw [hlock] at this
  exact hne (Option.some.inj this).symm

theorem life_setCpu_quiet (s : Sys) (c : ℕ) {x : CpuState} (hx : x.running = none)
    (hc : (s.cpu c).running = none) (lock : Option ℕ) :
    (⟨s.pt, s.kont, update s.cpu c x, lock⟩ : Sys).life = s.life := by
  ext1
  case running =>
    funext c'
    by_cases hcc : c' = c
    · subst hcc; simp [life, hx, hc]
    · simp [life, hcc]
  all_goals rfl

theorem schedEnter_outcome (h : SysInv b s) (c : ℕ) :
    Outcome b (.schedEnter c) s (s.step b (.schedEnter c)) := by
  simp only [step, Sys.schedEnter]
  split
  · next hen =>
      obtain ⟨hlock, hidle⟩ := hen
      have hquiet : (s.cpu c).running = none := by rw [hidle]; rfl
      cases b with
      | table =>
        refine ⟨SchedInv.of_loop h.tab (fun c' cur' _ => h.cursor c' cur')
          (show Cursor.fits .table .table from rfl) (fun c' _ => h.not_scheduling hlock c')
          (fun i x hi => by simp at hi) s.kont, ?_⟩
        convert Step.idle (a := .schedEnter c) trivial s.life using 1
        exact life_setCpu_quiet s c rfl hquiet _
      | p3p4 =>
        obtain ⟨L, hinv⟩ := h.tab
        obtain ⟨pt, L', heq, hinv', hident⟩ := promoteIfDue_spec hinv
        rw [heq]
        have htab : TabInv .p3p4 pt := ⟨L', hinv'⟩
        refine ⟨SchedInv.of_loop (s := s) htab (fun c' cur' _ => h.cursor c' cur')
          (show Cursor.fits .p3p4 (.ready 0) from rfl) (fun c' _ => h.not_scheduling hlock c')
          (fun i x hi hx => ?_) s.kont, ?_⟩
        · cases hi
          exact home_of_first (s := { s with pt := pt }) htab rfl hx
        · convert Step.idle (a := .schedEnter c) trivial s.life using 1
          exact (life_congr hident _ _ _ s.lock).trans (life_setCpu_quiet s c rfl hquiet _)
  · trivial

/-- The scheduler of CPU `c` lets go of the lock. -/
theorem SchedInv.of_release (h : SchedInv b s) (hlock : s.lock = some c) (htab : TabInv b pt)
    {x : CpuState} (hx : ¬x.scheduling) (hcur : ∀ cur, x.cursor = some cur → Cursor.fits b cur)
    (kont : Slot → Kont) : SchedInv b ⟨pt, kont, update s.cpu c x, none⟩ := by
  have hnone : ∀ c', ¬(update s.cpu c x c').scheduling := by
    intro c'
    by_cases hcc : c' = c
    · subst hcc
      simpa using hx
    · simpa [hcc] using h.others hlock c' hcc
  refine ⟨htab, fun c' cur' hc => ?_, fun c' hs => absurd hs (hnone c'), fun c' i p hc => ?_,
    fun c' i p hc => ?_⟩
  · by_cases hcc : c' = c
    · subst hcc
      exact hcur cur' (by simpa using hc)
    · exact h.cursor c' cur' (by simpa [hcc] using hc)
  · exact absurd (by rw [show update s.cpu c x c' = _ from hc]; trivial) (hnone c')
  · exact absurd (by rw [show update s.cpu c x c' = _ from hc]; trivial) (hnone c')

/-- `resume` as a store to `p->chan` and a step in the process's own code. -/
theorem resume_eq (s : Sys) (p : Slot) :
    ∃ pt, resume s p = ⟨pt, update s.kont p (resumed (s.kont p)), s.cpu, s.lock⟩ ∧
      Keeps s.pt pt ∧ (∀ kont cpu lock,
        (⟨pt, kont, cpu, lock⟩ : Sys).life = (⟨s.pt, kont, cpu, lock⟩ : Sys).life) := by
  have hlife : ∀ kont cpu lock, (⟨sleepReturn p s.pt, kont, cpu, lock⟩ : Sys).life =
      (⟨s.pt, kont, cpu, lock⟩ : Sys).life := by
    intro kont cpu lock
    rw [sleepReturn, life_modify]
    simp [life]
  have hkeep : Keeps s.pt s.pt := ⟨rfl, rfl, fun _ => rfl, fun _ => rfl⟩
  unfold resume
  split
  · next hk => exact ⟨sleepReturn p s.pt, by rw [hk]; rfl, sleepReturn_keeps p s.pt, hlife⟩
  · next hk =>
      refine ⟨sleepReturn p s.pt, ?_, sleepReturn_keeps p s.pt, hlife⟩
      have hkont : update s.kont p (resumed (s.kont p)) = s.kont := by
        rw [hk]
        exact update_eq_iff.2 ⟨hk.symm, fun _ _ => rfl⟩
      rw [hkont]
  · next hsleep hwait =>
      refine ⟨s.pt, ?_, hkeep, fun _ _ _ => rfl⟩
      have hkont : resumed (s.kont p) = s.kont p := by
        cases hk : s.kont p <;> simp_all [resumed]
      rw [hkont, update_eq_self]

theorem schedSwitch_outcome (h : SysInv b s) (hlock : s.lock = some c)
    {p : Slot} (hc : s.cpu c = .loop cur (some p)) (hp : (s.pt.proc p).state = .runnable) :
    Outcome b (.schedStep c) s (s.schedSwitch c cur p) := by
  have hcur : Cursor.fits b cur := h.cursor c cur (by rw [hc]; rfl)
  obtain ⟨pt, heq, htab, hident⟩ := dispatch_sim h.tab hcur (p := p)
    (fun i hi => h.loop c i p (by rw [hc, hi]))
  obtain ⟨pt', hres, hkeep, hlife⟩ := resume_eq { s with pt := pt } p
  unfold schedSwitch
  rw [heq]
  simp only [runSection, Except.mapError, bind, Except.bind]
  rw [hres]
  refine ⟨h.of_release hlock (htab.of_keeps hkeep) (x := .run cur p) (fun hs => hs)
    (fun cur' hcur' => Option.some.inj hcur' ▸ hcur) _, ?_⟩
  have hrun : s.life.running c = none := by simp [life, hc, CpuState.running]
  convert Step.switch (s := s.life) hrun hp using 1
  refine (hlife _ _ _).trans ((life_congr hident _ _ _ s.lock).trans ?_)
  rw [dispatched, life_modify]
  ext1
  case running =>
    funext c'
    by_cases hcc : c' = c
    · subst hcc; simp [life, setCpu, CpuState.running]
    · simp [life, setCpu, hcc]
  all_goals simp [life, setCpu]

theorem schedStep_outcome (h : SysInv b s) (c : ℕ) :
    Outcome b (.schedStep c) s (s.step b (.schedStep c)) := by
  simp only [step, Sys.schedStep]
  split
  case isFalse => trivial
  case isTrue hlock =>
    have hidle := Step.idle (a := .schedStep c) trivial s.life
    -- moving the loop variable is not seen in the life cycle
    have hmove : ∀ {cur cur' : Cursor} {p p' : Option Slot}, s.cpu c = .loop cur p →
        Cursor.fits b cur' →
        (∀ i x, cur' = .ready i → p' = some x → home (s.pt.proc x) = some (.ready i)) →
        Outcome b (.schedStep c) s (.ok (s.setCpu c (.loop cur' p'))) := by
      intro cur cur' p p' hc hcur' hp'
      have hinv := SchedInv.of_loop (s := s) (c := c) h.tab (fun c' cur' _ => h.cursor c' cur')
        hcur' (h.others hlock) hp' s.kont
      rw [← hlock] at hinv
      refine ⟨hinv, ?_⟩
      convert hidle using 1
      exact life_setCpu_quiet s c rfl (by rw [hc]; rfl) _
    have hleave : ∀ {cur : Cursor} {p : Option Slot}, s.cpu c = .loop cur p →
        Outcome b (.schedStep c) s (.ok (s.schedLeave c)) := by
      intro cur p hc
      refine ⟨h.of_release hlock h.tab (x := .idle) (fun hs => hs) (fun cur' hcur' => by
        simp [CpuState.cursor] at hcur') s.kont, ?_⟩
      convert hidle using 1
      exact life_setCpu_quiet s c rfl (by rw [hc]; rfl) _
    split
    · next i hc =>
        have hcur : Cursor.fits b (.ready i) := h.cursor c _ (by rw [hc]; rfl)
        split
        · exact hmove hc hcur (fun j x hj hx => by
            cases hj
            exact home_of_first h.tab hcur hx)
        · exact hleave hc
    · next hc => exact hleave hc
    · next i p hc =>
        exact schedSwitch_outcome h hlock hc (home_eq_ready.1 (h.loop c i p hc)).1
    · next p hc =>
        split
        · next hp => exact schedSwitch_outcome h hlock hc hp
        · exact hmove hc (h.cursor c _ (by rw [hc]; rfl)) (fun i x hi => by simp at hi)
    · next cur p hc =>
        have hcur : Cursor.fits b cur := h.cursor c cur (by rw [hc]; rfl)
        have hk := accountSlice_keeps p s.pt
        have hinv := SchedInv.of_loop (s := s) (c := c) (h.tab.of_keeps hk)
          (p := advance { s with pt := accountSlice p s.pt } cur p)
          (fun c' cur' _ => h.cursor c' cur') hcur (h.others hlock) (fun i x hi hx => ?_) s.kont
        · rw [← hlock] at hinv
          refine ⟨hinv, ?_⟩
          convert hidle using 1
          refine (life_setCpu_quiet { s with pt := accountSlice p s.pt } c rfl
            (by rw [show s.cpu c = _ from hc]; rfl) _).trans ?_
          rw [accountSlice, life_modify]
          simp [life]
        · -- after `sched` the loop variable has become null
          subst hi
          have hn := h.back c i p hc
          rw [← hk.next] at hn
          simp only [advance] at hx
          rw [hn] at hx
          exact absurd hx (by simp)
    · trivial

/-! ## Every action, every reachable state -/

/-- One action from a state with the invariant. -/
theorem step_outcome (h : SysInv b s) (hok : PrioOk a s) : Outcome b a s (s.step b a) := by
  cases a with
  | tick => exact tick_outcome h
  | schedEnter c => exact schedEnter_outcome h c
  | schedStep c => exact schedStep_outcome h c
  | forkAlloc c => exact forkAlloc_outcome h c
  | forkFail c => exact forkFail_outcome h c
  | forkCopy c => exact forkCopy_outcome h c
  | forkPublish c => exact forkPublish_outcome h c
  | forkUid c => exact forkUid_outcome h c
  | forkGid c => exact forkGid_outcome h c
  | exit c => exact exit_outcome h c
  | wait c => exact wait_outcome h c
  | yield c => exact yield_outcome h c
  | sleep c chan => exact sleep_outcome h c chan
  | wakeup chan => exact wakeup_outcome h chan
  | kill pid => exact kill_outcome h pid
  | setpriority pid priority => exact setpriority_outcome h hok.1 hok.2
  | setuid c uid => exact setuid_outcome h c uid
  | setgid c gid => exact setgid_outcome h c gid
  | execSetuid c uid => exact execSetuid_outcome h c uid

theorem step_inv {s' : Sys} (h : SysInv b s) (hok : PrioOk a s) (hs : s.step b a = .ok s') :
    SysInv b s' ∧ Life.Step a s.life s'.life := by
  have hout := step_outcome h hok
  rw [hs] at hout
  exact ⟨⟨hout.1, h.life.step hout.2⟩, hout.2⟩

theorem booted_life (ticks : Word) (p : Slot) : LifeInv (boot (booted ticks p)).life := by
  have hst : ∀ x, (boot (booted ticks p)).life.state x = if x = p then .runnable else .unused := by
    intro x
    by_cases hx : x = p
    · subst hx; simp [life, boot, booted]
    · simp [life, boot, booted, allocated, zero, hx]
  have hpar : ∀ x, (boot (booted ticks p)).life.parent x = none := by
    intro x
    by_cases hx : x = p
    · subst hx; simp [life, boot, booted, allocated, allocFields, zero]
    · simp [life, boot, booted, allocated, zero, hx]
  have hkont : ∀ x, (boot (booted ticks p)).life.kont x = .run := fun _ => rfl
  have hrun : ∀ c, (boot (booted ticks p)).life.running c = none := fun _ => rfl
  constructor
  case init_alive => exact ⟨p, rfl, by simp [hst, ProcState.alive]⟩
  all_goals simp [hkont, hrun, hpar]

theorem Init.inv (h : Init b s) : SysInv b s := by
  obtain ⟨ticks, pt, hpt, rfl⟩ := h
  obtain ⟨p, pt', hpt', htab, hident⟩ := userinit_sim b ticks
  rw [hpt] at hpt'
  obtain rfl := Except.ok.inj hpt'
  refine ⟨⟨htab, ?_, ?_, ?_, ?_⟩, ?_⟩
  · intro c cur hc
    simp [boot, CpuState.cursor] at hc
  · intro c hc
    exact absurd hc (fun h => h)
  · intro c i x hc
    simp [boot] at hc
  · intro c i x hc
    simp [boot] at hc
  · have hlife := life_congr hident (fun _ => .run) (fun _ => .idle) none none
    rw [show (boot pt).life = _ from hlife]
    exact booted_life ticks p

/-- Every reachable state of either build satisfies the invariant. -/
theorem reachable_inv (h : Transition.Reachable (step b) (Init b) PrioOk s) : SysInv b s :=
  h.invariant (fun _ => Init.inv) (fun _ _ _ hinv hok hs => (step_inv hinv hok hs).1)

/-- In every reachable state of either build an action is a step of the life cycle, or disabled, or
    init exits. -/
theorem refines_life (h : Transition.Reachable (step b) (Init b) PrioOk s) (hok : PrioOk a s) :
    LifeInv s.life ∧ ((∃ s', s.step b a = .ok s' ∧ Life.Step a s.life s'.life) ∨
      s.step b a = .error .disabled ∨ s.step b a = .error (.panic .initExiting)) := by
  have hinv := reachable_inv h
  have hout := step_outcome hinv hok
  refine ⟨hinv.life, ?_⟩
  unfold Outcome at hout
  split at hout
  · next s' hs => exact .inl ⟨s', hs, hout.2⟩
  · next hs => exact .inr (.inl hs)
  · next hs => exact .inr (.inr (hout ▸ hs))

/-- Init has called `fork`. -/
theorem refines_life_fork : ∃ s s' : Sys, s.kont 0 = .forkAlloc 1 ∧
    s.step .table (.forkCopy 0) = .ok s' ∧ Life.Step (.forkCopy 0) s.life s'.life := by
  obtain ⟨s, hs, hkont, hok⟩ := replay_any .table [.schedEnter 0, .schedStep 0, .forkAlloc 0]
    (fun s => s.kont 0 = .forkAlloc 1 ∧ (s.step .table (.forkCopy 0)).isOk = true)
    (by decide +kernel)
  obtain ⟨-, ⟨s', hstep⟩ | hstep | hstep⟩ :=
    refines_life (replay_reachable hs) (a := .forkCopy 0) trivial
  · exact ⟨s, s', hkont, hstep⟩
  all_goals simp [hstep, Except.isOk, Except.toBool] at hok

end Sys

end Xv6
