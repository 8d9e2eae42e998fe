import Xv6.Proc.Refine
import Mathlib.Order.WellFounded

set_option autoImplicit false

/-! # Is the scheduler a strict priority scheduler? (`CS333_P3P4`)

`scheduler` scans `ready[0]` to `ready[MAXPRIO]` and runs the head of the first list that is not
empty. When that process gives up the CPU the scan goes on behind it. The process is then the last
of its list, so that the loop variable is null and the scan comes to the next list, whatever has
been put on the lists that it has passed. A dispatch at the beginning of a scan is therefore strict,
and a later one is strict if the lists up to the one of the process that has come back are empty
(`scheduler_strict`). -/

namespace Xv6

open Transition Function PTable Stoppable

namespace Sys

/-- `ready[i]` is empty. -/
def NoneReady (s : Sys) (i : Prio) : Prop := (s.pt.pLists (.ready i)).head = none

/-- `p` is the head of `ready[i]`, and all lists of higher priority are empty. -/
def StrictAt (s : Sys) (i : Prio) (p : Slot) : Prop :=
  (s.pt.pLists (.ready i)).head = some p ∧ ∀ j < i, s.NoneReady j

/-- Whenever a scheduler is about to move a process from `ready[i]` to running, it is the first of
    the highest priority. -/
def DispatchesStrictly (s : Sys) : Prop :=
  ∀ c i p, s.cpu c = .loop (.ready i) (some p) → s.StrictAt i p

/-- No process is ready up to priority `i`, or none beyond it. -/
def Split (s : Sys) (i : Prio) : Prop := (∀ j ≤ i, s.NoneReady j) ∨ ∀ j, i < j → s.NoneReady j

/-- When a process comes back to the scheduler that ran it at priority `i`, the scan has nothing
    left to run, or it has left nothing behind. -/
def ReturnOk (a : Act) (s : Sys) : Prop :=
  match a with
  | .schedStep c => ∀ i q, s.cpu c = .back (.ready i) q → s.Split i
  | _ => True

instance (s : Sys) (i : Prio) : Decidable (s.NoneReady i) := inferInstanceAs (Decidable (_ = none))
instance (s : Sys) (i : Prio) : Decidable (s.Split i) := inferInstanceAs (Decidable (_ ∨ _))
instance (a : Act) (s : Sys) : Decidable (ReturnOk a s) :=
  match a with
  | .schedStep c => inferInstanceAs (Decidable (∀ i q, s.cpu c = .back (.ready i) q → s.Split i))
  | .tick | .schedEnter _ | .forkAlloc _ | .forkFail _ | .forkCopy _ | .forkPublish _ | .forkUid _
  | .forkGid _ | .exit _ | .wait _ | .yield _ | .sleep _ _ | .wakeup _ | .kill _ | .setpriority _ _
  | .setuid _ _ | .setgid _ _ | .execSetuid _ _ => isTrue trivial

variable {s s' : Sys} {a : Act} {c : ℕ}

/-- What holds of the loops of a scheduler along the way. -/
structure ScanInv (s : Sys) : Prop where
  atProc : ∀ c i p, s.cpu c = .loop (.ready i) (some p) → s.StrictAt i p
  atEnd : ∀ c i, s.cpu c = .loop (.ready i) none → s.Split i

/-! ## The actions other than the scheduler's -/

/-- From `s` to `s'` no scan starts, and no list changes during one. -/
def Calm (s s' : Sys) : Prop :=
  (∀ c cur p, s'.cpu c = .loop cur p → s.cpu c = .loop cur p) ∧
    (s.lock ≠ none → s'.pt.pLists = s.pt.pLists)

/-- A section that needs the lock. -/
theorem Calm.of_free (hlock : s.lock = none)
    (hcpu : ∀ c cur p, s'.cpu c = .loop cur p → s.cpu c = .loop cur p) : Calm s s' :=
  ⟨hcpu, fun hne => absurd hlock hne⟩

/-- A store made without the lock. -/
theorem Calm.store (hcpu : s'.cpu = s.cpu) (hlists : s'.pt.pLists = s.pt.pLists) : Calm s s' :=
  ⟨fun _ _ _ hc => hcpu ▸ hc, fun _ => hlists⟩

theorem sched_loop {t : Sys} {cur cur' : Cursor} {q : Slot} {c' : ℕ} {p : Option Slot}
    (h : (t.sched c cur q).cpu c' = .loop cur' p) : t.cpu c' = .loop cur' p := by
  by_cases hc : c' = c
  · subst hc
    simp [sched, setCpu] at h
  · simpa [sched, setCpu, hc] using h

theorem step_calm {b : Build} (ha : ∀ c, a ≠ .schedEnter c ∧ a ≠ .schedStep c) :
    Yields (fun _ => True) (Calm s) (s.step b a) := by
  cases a with
  | schedEnter c => exact absurd rfl (ha c).1
  | schedStep c => exact absurd rfl (ha c).2
  | tick => exact .ok (.store rfl rfl)
  | forkCopy c | forkUid c | forkGid c =>
    exact yields_child fun _ _ _ _ _ => (.store rfl rfl)
  | setuid c v | setgid c v | execSetuid c v =>
    exact yields_own fun _ _ _ _ => (.store rfl rfl)
  | forkAlloc c =>
    refine yields_locked fun _ _ _ hg v _ => ?_
    obtain ⟨np, pt⟩ := v
    cases np <;> exact .ok (.of_free hg.1 fun _ _ _ h => h)
  | forkFail c | forkPublish c =>
    exact yields_lockedChild fun _ _ _ _ hlock _ _ _ =>
        .ok (.of_free hlock fun _ _ _ h => h)
  | exit c | sleep c chan =>
    exact yields_locked fun _ _ _ hg _ _ =>
        .ok (.of_free hg.1 fun _ _ _ h => sched_loop h)
  | yield c =>
    exact yields_locked fun _ _ _ hlock _ _ =>
        .ok (.of_free hlock fun _ _ _ h => sched_loop h)
  | wait c =>
    refine yields_locked fun _ _ _ hg v _ => ?_
    dsimp only
    split
    · exact .ok (.of_free hg.1 fun _ _ _ h => sched_loop h)
    · exact .ok (.of_free hg.1 fun _ _ _ h => h)
  | wakeup chan | kill pid =>
    exact yields_guarded fun hlock => yields_section fun _ _ =>
      .ok (.of_free hlock fun _ _ _ h => h)
  | setpriority pid priority =>
    exact yields_guarded fun hg => yields_section fun _ _ =>
      .ok (.of_free hg.2 fun _ _ _ h => h)

/-! ## The scan -/

/-- With the same lists the same dispatches are strict. -/
theorem ScanInv.of_calm (hinv : SysInv .p3p4 s) (h : ScanInv s) (hcalm : Calm s s') :
    ScanInv s' := by
  obtain ⟨hcpu, hlists⟩ := hcalm
  have hheld : ∀ {c cur p}, s.cpu c = .loop cur p → s'.pt.pLists = s.pt.pLists := by
    intro c cur p hc
    have hlock := hinv.held c (by rw [hc]; trivial)
    exact hlists (by simp [hlock])
  constructor
  · intro c i p hc
    have hc' := hcpu c _ _ hc
    simpa only [StrictAt, NoneReady, hheld hc'] using h.atProc c i p hc'
  · intro c i hc
    have hc' := hcpu c _ _ hc
    simpa only [Split, NoneReady, hheld hc'] using h.atEnd c i hc'

/-- Only CPU `c` scans, and what it has come to is as it should be. -/
theorem ScanInv.of_loop {cur : Cursor} {x : Option Slot}
    (hothers : ∀ c', c' ≠ c → ¬(s'.cpu c').scheduling) (hc : s'.cpu c = .loop cur x)
    (hsome : ∀ i p, cur = .ready i → x = some p → s'.StrictAt i p)
    (hnone : ∀ i, cur = .ready i → x = none → s'.Split i) : ScanInv s' := by
  have honly : ∀ {c' cur' p}, s'.cpu c' = .loop cur' p → cur' = cur ∧ p = x := by
    intro c' cur' p h
    by_cases hcc : c' = c
    · rw [hcc, hc] at h
      injection h with h1 h2
      exact ⟨h1.symm, h2.symm⟩
    · exact absurd (by rw [h]; trivial) (hothers c' hcc)
  constructor
  · intro c' i p h
    obtain ⟨h1, h2⟩ := honly h
    exact hsome i p h1.symm h2.symm
  · intro c' i h
    obtain ⟨h1, h2⟩ := honly h
    exact hnone i h1.symm h2.symm

theorem ScanInv.of_free (hfree : ∀ c, ¬(s'.cpu c).scheduling) : ScanInv s' where
  atProc c i p h := absurd (by rw [h]; trivial) (hfree c)
  atEnd c i h := absurd (by rw [h]; trivial) (hfree c)

variable {i : Prio}

/-- At the head of `ready[i]`, with nothing ready before it. -/
theorem strict_or_split (hbefore : ∀ j < i, s.NoneReady j) :
    (∀ p, s.first (.ready i) = some p → s.StrictAt i p) ∧
      (s.first (.ready i) = none → s.Split i) := by
  refine ⟨fun p hp => ⟨hp, hbefore⟩, fun hn => .inl fun j hj => ?_⟩
  rcases lt_or_eq_of_le hj with hlt | rfl
  · exact hbefore j hlt
  · exact hn

/-- What a scheduler does with the lock. -/
theorem schedStep_cases (h : SysInv .p3p4 s) (hs : s.schedStep c = .ok s') : s.lock = some c ∧
    ((∃ i j : Prio, i.val + 1 = j.val ∧ s.cpu c = .loop (.ready i) none ∧
        s' = s.setCpu c (.loop (.ready j) (s.first (.ready j)))) ∨
      (∃ i q, s.cpu c = .back (.ready i) q ∧
        s' = { s with pt := accountSlice q s.pt }.setCpu c (.loop (.ready i) none)) ∨
      s'.lock = none) := by
  have hfits : ∀ cur, (s.cpu c).cursor = some cur → Cursor.fits .p3p4 cur := h.cursor c
  unfold Sys.schedStep at hs
  split at hs
  case isFalse => cases hs
  case isTrue hlock =>
    refine ⟨hlock, ?_⟩
    split at hs
    · next i hc =>
        split at hs
        · cases hs
          exact .inl ⟨i, _, rfl, hc, rfl⟩
        · cases hs
          exact .inr (.inr rfl)
    · cases hs
      exact .inr (.inr rfl)
    · next i p hc =>
        refine .inr (.inr ?_)
        unfold schedSwitch at hs
        cases hd : dispatch (.ready i) p s.pt with
        | error e => rw [hd] at hs; cases hs
        | ok pt => rw [hd] at hs; cases hs; rfl
    · next p hc => exact absurd (hfits .table (by rw [hc]; rfl)) (by simp [Cursor.fits])
    · next cur q hc =>
        cases cur with
        | table => exact absurd (hfits .table (by rw [hc]; rfl)) (by simp [Cursor.fits])
        | ready i =>
          cases hs
          have hnext : (accountSlice q s.pt).next q = none :=
            (accountSlice_keeps q s.pt).next ▸ h.back c i q hc
          refine .inr (.inl ⟨i, q, hc, ?_⟩)
          simp only [advance, hnext]
    · cases hs

theorem schedStep_scan (hinv : SysInv .p3p4 s) (h : ScanInv s) (hok : ReturnOk (.schedStep c) s)
    (hs : s.schedStep c = .ok s') : ScanInv s' := by
  have hinv' : SysInv .p3p4 s' := (step_inv (a := .schedStep c) hinv trivial hs).1
  obtain ⟨hlock, ⟨i, j, hij, hc, rfl⟩ | ⟨i, q, hc, rfl⟩ | hfree⟩ := schedStep_cases hinv hs
  · have hij' : ∀ l, l < j → l ≤ i := fun l hl => Fin.le_def.2 (by have := Fin.lt_def.1 hl; omega)
    have hnext : i < j := Fin.lt_def.2 (by omega)
    refine .of_loop (c := c) (hinv'.others hlock) (update_self _ _ _) ?_ ?_
    · intro i' p hi hp
      cases hi
      rcases h.atEnd c i hc with hlow | hhigh
      · exact (strict_or_split fun l hl => hlow l (hij' l hl)).1 p hp
      · exact absurd ((hhigh j hnext).symm.trans hp) (by simp)
    · intro i' hi hn
      cases hi
      rcases h.atEnd c i hc with hlow | hhigh
      · exact (strict_or_split fun l hl => hlow l (hij' l hl)).2 hn
      · exact .inr fun l hl => hhigh l (hnext.trans hl)
  · refine .of_loop (c := c) (hinv'.others hlock) (update_self _ _ _) ?_ ?_
    · intro i' p _ hp
      cases hp
    · intro i' hi _
      cases hi
      exact hok i q hc
  · exact .of_free fun c' => hinv'.not_scheduling hfree c'

theorem schedEnter_scan (hinv' : SysInv .p3p4 s') (hs : s.schedEnter .p3p4 c = .ok s') :
    ScanInv s' := by
  unfold Sys.schedEnter at hs
  split at hs
  case isFalse => cases hs
  case isTrue =>
    cases hp : promoteIfDue s.pt with
    | error e => rw [hp] at hs; cases hs
    | ok pt =>
      rw [hp] at hs
      cases hs
      have hbefore : ∀ j < (0 : Prio), NoneReady { s with pt := pt } j :=
        fun j hj => absurd hj (Fin.not_lt_zero j)
      refine .of_loop (c := c) (hinv'.others rfl) (update_self _ _ _) ?_ ?_
      · intro i p hi hx
        cases hi
        exact (strict_or_split hbefore).1 p hx
      · intro i hi hx
        cases hi
        exact (strict_or_split hbefore).2 hx

/-- One action, whoever takes it. -/
theorem step_scan (hinv : SysInv .p3p4 s) (h : ScanInv s) (hok : ReturnOk a s)
    (hs : s.step .p3p4 a = .ok s') : ScanInv s' := by
  by_cases ha : ∀ c, a ≠ .schedEnter c ∧ a ≠ .schedStep c
  · exact h.of_calm hinv ((step_calm ha).1 s' hs)
  · obtain ⟨c, hc⟩ := not_forall.1 ha
    rcases not_and_or.1 hc with hc | hc
    · rw [not_not.1 hc] at hs
      exact schedEnter_scan (step_inv (a := .schedEnter c) hinv trivial hs).1 hs
    · rw [not_not.1 hc] at hs hok
      exact schedStep_scan hinv h hok hs

theorem reachable_scan
    (h : Reachable (step .p3p4) (Init .p3p4) (fun a s => PrioOk a s ∧ ReturnOk a s) s) :
    SysInv .p3p4 s ∧ ScanInv s := by
  refine Reachable.invariant (P := fun s => SysInv .p3p4 s ∧
    ScanInv s) (fun s hinit => ?_) (fun a s s' hs hok hstep => ?_) h
  · refine ⟨hinit.inv, .of_free fun c => hinit.inv.not_scheduling ?_ c⟩
    obtain ⟨_, _, _, rfl⟩ := hinit
    rfl
  · exact ⟨(step_inv hs.1 hok.1 hstep).1, step_scan hs.1 hs.2 hok.2 hstep⟩

/-! ## The rest of a scan -/

/-- What CPU `c` comes to while its scheduler keeps the lock. -/
def ScansTo (c : ℕ) : Sys → Sys → Prop := Relation.ReflTransGen fun s s' => s.schedStep c = .ok s'

/-- After a process has come back, the scan goes on strictly if the lists are as `Split` says. -/
theorem scansTo_strict (hinv : SysInv .p3p4 s) {q : Slot}
    (hc : s.cpu c = .back (.ready i) q) (hsplit : s.Split i) (h : ScansTo c s s') :
    s'.DispatchesStrictly := by
  have hlock : s.lock = some c := hinv.held c (by rw [hc]; trivial)
  have hstart : ∀ c' cur p, s.cpu c' ≠ .loop cur p := by
    intro c' cur p hloop
    have hheld := hinv.held c' (by rw [hloop]; trivial)
    obtain rfl : c = c' := Option.some.inj (hlock.symm.trans hheld)
    rw [hc] at hloop
    cases hloop
  -- only the first step of the scan is one of `ReturnOk`
  have hrun : SysInv .p3p4 s' ∧ ScanInv s' ∧ ReturnOk (.schedStep c) s' := by
    induction h with
    | refl =>
      refine ⟨hinv, ⟨fun c' i p hl => absurd hl (hstart c' _ _),
        fun c' i hl => absurd hl (hstart c' _ _)⟩, fun i' q' hc' => ?_⟩
      rw [hc] at hc'
      cases hc'
      exact hsplit
    | tail _ hs ih =>
      obtain ⟨hinv1, hscan1, hok1⟩ := ih
      have hinv2 := (step_inv (a := .schedStep c) hinv1 trivial hs).1
      refine ⟨hinv2, schedStep_scan hinv1 hscan1 hok1 hs, fun i' q' hc' => ?_⟩
      have hheld := hinv2.held c (by rw [hc']; trivial)
      obtain ⟨_, ⟨_, _, _, _, rfl⟩ | ⟨_, _, _, rfl⟩ | hfree⟩ := schedStep_cases hinv1 hs
      · simp [setCpu] at hc'
      · simp [setCpu] at hc'
      · rw [hfree] at hheld
        cases hheld
  exact hrun.2.1.atProc

theorem schedStep_next {i j : Prio} (hij : i.val + 1 = j.val) (hlock : s.lock = some c)
    (hc : s.cpu c = .loop (.ready i) none) :
    s.schedStep c = .ok (s.setCpu c (.loop (.ready j) (s.first (.ready j)))) := by
  have hlt : i.val + 1 < maxPrio + 1 := hij ▸ j.isLt
  obtain rfl : (⟨i.val + 1, hlt⟩ : Prio) = j := Fin.ext hij
  simp only [schedStep, hlock, hc, hlt, ↓reduceIte, ↓reduceDIte]

/-- The scan passes over empty lists. -/
theorem scansTo_next (hlock : s.lock = some c) (hc : s.cpu c = .loop (.ready i) none) :
    ∀ (n : ℕ) (j : Prio), i.val + 1 + n = j.val → (∀ l, i < l → l < j → s.NoneReady l) →
      ScansTo c s (s.setCpu c (.loop (.ready j) (s.first (.ready j)))) := by
  intro n
  induction n with
  | zero => exact fun j hj _ => .single (schedStep_next hj hlock hc)
  | succ n ih =>
    intro j hj hempty
    -- the list before `j`
    have hj' : j.val - 1 < maxPrio + 1 := by omega
    have hij : i < ⟨j.val - 1, hj'⟩ := Fin.lt_def.2 (by simp only; omega)
    have hjj : (⟨j.val - 1, hj'⟩ : Prio) < j := Fin.lt_def.2 (by simp only; omega)
    have hto := ih ⟨j.val - 1, hj'⟩ (by simp only; omega)
      (fun l hil hl => hempty l hil (hl.trans hjj))
    refine hto.tail ?_
    have hnone : s.first (.ready ⟨j.val - 1, hj'⟩) = none := hempty _ hij hjj
    rw [hnone]
    have hstep := schedStep_next (s := s.setCpu c (.loop (.ready ⟨j.val - 1, hj'⟩) none)) (c := c)
      (i := ⟨j.val - 1, hj'⟩) (j := j) (by simp only; omega) hlock (update_self _ _ _)
    rw [hstep]
    simp only [setCpu, update_idem]
    rfl

theorem split_of_scansTo (hinv : SysInv .p3p4 s) {q : Slot}
    (hc : s.cpu c = .back (.ready i) q) (h : ∀ s', ScansTo c s s' → s'.DispatchesStrictly) :
    s.Split i := by
  have hlock : s.lock = some c := hinv.held c (by rw [hc]; trivial)
  refine or_iff_not_imp_right.2 fun hhigh => ?_
  -- the first list behind `i` that has a process
  obtain ⟨j, ⟨hij, hj⟩, hmin⟩ := WellFounded.has_min wellFounded_lt {j : Prio | i < j ∧
    ¬s.NoneReady j} (by
    obtain ⟨j, hj⟩ := not_forall.1 hhigh
    exact ⟨j, Classical.not_imp.1 hj⟩)
  obtain ⟨p, hp⟩ := Option.ne_none_iff_exists'.1 hj
  set t := { s with pt := accountSlice q s.pt }.setCpu c (.loop (.ready i) none) with ht
  have hback : s.schedStep c = .ok t := by
    have hnext : (accountSlice q s.pt).next q = none :=
      (accountSlice_keeps q s.pt).next ▸ hinv.back c i q hc
    simp only [schedStep, hlock, hc, ↓reduceIte, advance, hnext, ht]
  have hrest := scansTo_next (s := t) (c := c) hlock (update_self _ _ _)
    (j.val - (i.val + 1)) j (by have := Fin.lt_def.1 hij; omega)
    (fun l hil hl => by_contra fun hne => hmin l ⟨hil, hne⟩ hl)
  have hstrict := h _ (.head hback hrest) c j p (by
    rw [show t.first (.ready j) = some p from hp]
    exact update_self _ _ _)
  exact fun l hl => hstrict.2 l (lt_of_le_of_lt hl hij)

/-- In every run in which a process comes back to its scheduler only when no list up to its own has
    a process or none behind it has, all dispatches are strict. In every reachable state this is
    also what decides whether the rest of a scan is strict. -/
theorem scheduler_strict (s : Sys) :
    (Reachable (step .p3p4) (Init .p3p4) (fun a s => PrioOk a s ∧ ReturnOk a s) s →
      s.DispatchesStrictly) ∧ (Reachable (step .p3p4) (Init .p3p4) PrioOk s →
      ∀ c i q, s.cpu c = .back (.ready i) q →
        ((∀ s', ScansTo c s s' → s'.DispatchesStrictly) ↔ s.Split i)) := by
  constructor
  · intro h
    exact (reachable_scan h).2.atProc
  · intro h c i q hc
    have hinv := reachable_inv h
    constructor
    · exact split_of_scansTo hinv hc
    · exact fun hsplit s' hs' => scansTo_strict hinv hc hsplit hs'

/-- Init forks a child and lowers the priority of the child. -/
def childLowered : List Act := switchAndFork ++ [.setpriority 2 1]

set_option maxRecDepth 100000 in
/-- Init sleeps, and the scan goes on to `ready[1]` and dispatches the child. -/
theorem scheduler_strict_initSleeps :
    ∃ s s' s'', s.cpu 0 = .back (.ready 0) 0 ∧ s.Split 0 ∧
      (∀ t, ScansTo 0 s t → t.DispatchesStrictly) ∧ ScansTo 0 s s' ∧
      s'.cpu 0 = .loop (.ready 1) (some 1) ∧ s'.StrictAt 1 1 ∧
      s'.schedStep 0 = .ok s'' ∧ s''.cpu 0 = .run (.ready 1) 1 := by
  obtain ⟨s, hs, hback, hsplit, hscan⟩ := reachable_any .p3p4 (fun a s => PrioOk a s ∧ ReturnOk a s)
    (childLowered ++ [.sleep 0 (.addr 0)])
    (fun s => s.cpu 0 = .back (.ready 0) 0 ∧ s.Split 0 ∧
      (s.schedStep 0).toOption.any (fun s1 => decide (ReturnOk (.schedStep 0) s1 ∧
        (s1.schedStep 0).toOption.any (fun s' => decide (s'.cpu 0 = .loop (.ready 1) (some 1) ∧
          (s'.schedStep 0).toOption.any (fun s'' => decide
            (s''.cpu 0 = .run (.ready 1) 1)) = true)) = true)) = true)
    (by decide +kernel)
  obtain ⟨s1, hs1, hret1, hscan1⟩ := Stoppable.exists_ok _ hscan
  obtain ⟨s', hs', hloop, hdisp⟩ := Stoppable.exists_ok _ hscan1
  obtain ⟨s'', hs'', hrun⟩ := Stoppable.exists_ok _ hdisp
  have hret : ReturnOk (.schedStep 0) s := by
    intro i q hq
    obtain ⟨hi, -⟩ := CpuState.back.inj (hback.symm.trans hq)
    obtain rfl := Cursor.ready.inj hi
    exact hsplit
  have hreach1 : Reachable (step .p3p4) _ _ s1 := .step (a := .schedStep 0) hs ⟨trivial, hret⟩ hs1
  have hreach' : Reachable (step .p3p4) _ _ s' :=
    .step (a := .schedStep 0) hreach1 ⟨trivial, hret1⟩ hs'
  refine ⟨s, s', s'', hback, hsplit, ?_, .tail (.single hs1) hs', hloop, ?_, hs'', hrun⟩
  · exact ((scheduler_strict s).2 (hs.mono fun _ _ h => h.1) 0 0 0 hback).2 hsplit
  · exact (scheduler_strict s').1 hreach' 0 1 1 hloop

/-- Init gives up the CPU, and the scan goes on. -/
def childPassed : List Act := childLowered ++ [.yield 0, .schedStep 0, .schedStep 0]

set_option maxRecDepth 100000 in
/-- The scheduler comes to `ready[1]` and moves the child to running, while init waits on
    `ready[0]`. -/
theorem scheduler_passes_init :
    ∃ s s', Reachable (step .p3p4) (Init .p3p4) PrioOk s ∧
      s.cpu 0 = .loop (.ready 1) (some 1) ∧ (s.pt.pLists (.ready 0)).head = some 0 ∧
      step .p3p4 (.schedStep 0) s = .ok s' ∧ s'.cpu 0 = .run (.ready 1) 1 ∧
      (s'.pt.proc 1).state = .running ∧ ¬s.DispatchesStrictly := by
  obtain ⟨s, hs, hcpu, hhead, hdisp⟩ := replay_any .p3p4 childPassed
    (fun s => s.cpu 0 = .loop (.ready 1) (some 1) ∧ (s.pt.pLists (.ready 0)).head = some 0 ∧
      (step .p3p4 (.schedStep 0) s).toOption.any (fun s' =>
        decide (s'.cpu 0 = .run (.ready 1) 1 ∧ (s'.pt.proc 1).state = .running)) = true)
    (by decide +kernel)
  cases hstep : step .p3p4 (.schedStep 0) s with
  | error e => simp [hstep, Except.toOption] at hdisp
  | ok s' =>
    obtain ⟨hrun, hstate⟩ : s'.cpu 0 = .run (.ready 1) 1 ∧ (s'.pt.proc 1).state = .running := by
      simpa [hstep, Except.toOption] using hdisp
    refine ⟨s, s', replay_reachable hs, hcpu, hhead, hstep, hrun, hstate, fun hstrict => ?_⟩
    have hnone := (hstrict 0 1 1 hcpu).2 0 (by decide)
    exact absurd (hnone.symm.trans hhead) (by simp)

end Sys

end Xv6
