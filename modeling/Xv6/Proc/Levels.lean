import Xv6.Proc.StateLists

set_option autoImplicit false

/-! # Promotion and `setpriority` (`CS333_P3P4`)

`promoteAll` is to move everybody up one level. It does so for all processes that sleep or run, but
of those that are ready only for the first at each level.

`setpriority` is to give a priority in `0..MAXPRIO` to a process that is `RUNNABLE`, `SLEEPING` or
`RUNNING`. It also accepts `MAXPRIO+1`, for which there is no list, and it refuses a ready process
the priority it has. As long as it is not called with `MAXPRIO+1` for a process that is there, no
list index is ever out of range. -/

namespace Xv6

open Transition Function LinkedList

namespace PTable

variable {s s' : PTable} {L L' : ListId → List Slot}

/-! ## `promoteAll` -/

/-- Everybody who is ready, sleeps or runs is one level up, once, with a full budget, and on the
    list of that level; all others are as they were. -/
structure PromotedAll (s s' : PTable) : Prop where
  lists : ∃ L', Inv s' L'
  up : ∀ p, ProcState.active (s.proc p).state →
    { s'.proc p with next := none } = { promote (s.proc p) with next := none }
  others : ∀ p, ¬ProcState.active (s.proc p).state → s'.proc p = s.proc p

/-- No two processes are ready at the same level, the first level apart. -/
def OnePerLevel (s : PTable) : Prop :=
  ∀ p q, (s.proc p).state = .runnable → (s.proc q).state = .runnable →
    (s.proc p).priority = (s.proc q).priority → 0 < (s.proc p).priority → p = q

variable {p : Slot}

theorem mem_turn_zero (h : Inv s L) (hp : (s.proc p).state = .runnable)
    (hzero : (s.proc p).priority = 0) :
    p ∈ turn L (prioOf h p) := by
  rw [turn, if_pos (show (prioOf h p).val = 0 from hzero)]
  exact (h.mem_iff p _).2 (home_eq_ready.2 ⟨hp, rfl⟩)

/-- Who is at the head of a list has its turn. -/
theorem mem_turn_head {i : Prio} {ps : List Slot} (hL : L (.ready i) = p :: ps) : p ∈ turn L i := by
  unfold turn
  split
  · rw [hL]
    exact List.mem_cons_self
  · rw [hL]
    exact List.mem_singleton_self p

/-- Above level 0 nobody else has. -/
theorem head_of_mem_turn {i : Prio} (hi : 0 < i.val) {q : Slot} {qs : List Slot}
    (hL : L (.ready i) = q :: qs) (hp : p ∈ turn L i) : p = q := by
  rw [turn, if_neg (by omega), hL] at hp
  exact List.mem_singleton.1 hp

theorem mem_turns (h : Inv s L) :
    p ∈ turns L ↔ ((s.proc p).state = .runnable ∧ p ∈ turn L (prioOf h p)) ∨
    (s.proc p).state = .sleeping ∨
      (s.proc p).state = .running := by
  simp only [turns, List.mem_append, List.mem_flatMap, List.mem_finRange, true_and, h.mem_iff,
    home_eq_sleep, home_eq_running]
  refine or_congr ⟨?_, ?_⟩ Iff.rfl
  · rintro ⟨i, hi⟩
    obtain ⟨hst, hpr⟩ := home_eq_ready.1 ((h.mem_iff p _).1 ((turn_sublist L i).subset hi))
    have hi' : prioOf h p = i := Fin.ext hpr
    exact ⟨hst, hi' ▸ hi⟩
  · rintro ⟨-, hp⟩
    exact ⟨_, hp⟩

/-- A loop comes to everybody if there is one process at each level. -/
theorem mem_turns_of_onePerLevel (h : Inv s L) (hone : OnePerLevel s)
    (hp : ProcState.active (s.proc p).state) : p ∈ turns L := by
  rw [mem_turns h]
  obtain hrun | hother := hp
  · refine Or.inl ⟨hrun, ?_⟩
    by_cases hzero : (s.proc p).priority = 0
    · exact mem_turn_zero h hrun hzero
    · have hmem : p ∈ L (.ready (prioOf h p)) := (h.mem_iff p _).2 (home_eq_ready.2 ⟨hrun, rfl⟩)
      cases hL : L (.ready (prioOf h p)) with
      | nil =>
        rw [hL] at hmem
        cases hmem
      | cons q qs =>
        have hq : home (s.proc q) = some (.ready (prioOf h p)) :=
          (h.mem_iff q _).1 (by rw [hL]; exact List.mem_cons_self)
        obtain ⟨hqrun, hqprio⟩ := home_eq_ready.1 hq
        obtain rfl := hone p q hrun hqrun hqprio.symm (Nat.pos_of_ne_zero hzero)
        exact mem_turn_head hL
  · exact Or.inr hother

/-- And else it misses somebody. -/
theorem exists_missed (h : Inv s L) {q : Slot} (hp : (s.proc p).state = .runnable)
    (hq : (s.proc q).state = .runnable)
    (heq : (s.proc p).priority = (s.proc q).priority) (hpos : 0 < (s.proc p).priority)
    (hne : p ≠ q) :
    ∃ x, (s.proc x).state = .runnable ∧ 0 < (s.proc x).priority ∧ x ∉ turns L := by
  have hpq : prioOf h p = prioOf h q := Fin.ext heq
  have hmem : p ∈ L (.ready (prioOf h p)) := (h.mem_iff p _).2 (home_eq_ready.2 ⟨hp, rfl⟩)
  cases hL : L (.ready (prioOf h p)) with
  | nil =>
    rw [hL] at hmem
    cases hmem
  | cons y ys =>
    by_cases hpy : p = y
    · have hposq : 0 < (s.proc q).priority := heq ▸ hpos
      refine ⟨q, hq, hposq, fun hmem => ?_⟩
      obtain ⟨-, hturn⟩ | hother := (mem_turns h).1 hmem
      · exact hne (hpy.trans (head_of_mem_turn hposq (hpq ▸ hL) hturn).symm)
      · simp [hq] at hother
    · refine ⟨p, hp, hpos, fun hmem => ?_⟩
      obtain ⟨-, hturn⟩ | hother := (mem_turns h).1 hmem
      · exact hpy (head_of_mem_turn hpos hL hturn)
      · simp [hp] at hother

/-- The fields of a slot but for its link. -/
theorem proc_of_core (h : s'.core = s.core) (p : Slot) :
    { s'.proc p with next := none } = { s.proc p with next := none } :=
  congrFun (congrArg PTable.proc h) p

/-- Two tables that have the same list have the same links along it. -/
theorem next_of_list (h : Inv s L) (h' : Inv s' L') {l : ListId} (hl : L' l = L l) (hp : p ∈ L l) :
    s'.next p = s.next p := by
  have hc := h.rep.chain l
  have hc' := h'.rep.chain l
  rw [hl] at hc'
  exact hc'.next_eq hc p hp

/-- A process that neither is ready nor sleeps nor runs is on a list that no loop touches. -/
theorem home_of_not_active {pr : Proc} (h : ¬ProcState.active pr.state) :
    ∃ l, home pr = some l ∧ ∀ j, l ≠ .ready j := by
  unfold home
  cases hst : pr.state with
  | unused => exact ⟨.free, rfl, by simp⟩
  | embryo => exact ⟨.embryo, rfl, by simp⟩
  | zombie => exact ⟨.zombie, rfl, by simp⟩
  | runnable => exact absurd (Or.inl hst) h
  | sleeping => exact absurd (Or.inr (Or.inl hst)) h
  | running => exact absurd (Or.inr (Or.inr hst)) h

/-- `promoteAll` promotes everybody if and only if no two processes are ready at the same level
    above 0: of several it promotes the first. -/
theorem promoteAll_promotes_iff (h : Inv s L) :
    ∃ s', promoteAll s = .ok s' ∧ (PromotedAll s s' ↔ OnePerLevel s) := by
  obtain ⟨s', L', heq, hinv, hcore, hlists⟩ := promoteAll_eq h
  have hproc (p : Slot) : { s'.proc p with next := none } =
      if p ∈ turns L then { promote (s.proc p) with next := none }
        else { s.proc p with next := none } := by
    rw [proc_of_core hcore, modifyAll_proc promote (turns_nodup h)]
    split <;> rfl
  refine ⟨s', heq, ⟨fun hall => ?_, fun hone => ⟨⟨L', hinv⟩, fun p hp => ?_, fun p hp => ?_⟩⟩⟩
  · intro p q hp hq hprio hpos
    by_contra hne
    obtain ⟨x, hx, hxpos, hmissed⟩ := exists_missed h hp hq hprio hpos hne
    have hup := hall.up x (Or.inl hx)
    rw [hproc, if_neg hmissed] at hup
    have hsame : (s.proc x).priority = (s.proc x).priority - 1 := congrArg Proc.priority hup
    omega
  · rw [hproc, if_pos (mem_turns_of_onePerLevel h hone hp)]
  · have hmissed : p ∉ turns L := by
      intro hmem
      obtain ⟨hrun, -⟩ | hother := (mem_turns h).1 hmem
      · exact hp (Or.inl hrun)
      · exact hp (Or.inr hother)
    have hfields := hproc p
    rw [if_neg hmissed] at hfields
    obtain ⟨l, hhome, hl⟩ := home_of_not_active hp
    have hnext : (s'.proc p).next = (s.proc p).next :=
      next_of_list h hinv (hlists l hl) ((h.mem_iff p l).2 hhome)
    calc s'.proc p = { ({ s'.proc p with next := none } : Proc) with next := (s'.proc p).next } :=
      rfl
      _ = { ({ s.proc p with next := none } : Proc) with next := (s.proc p).next } := by
        rw [hfields, hnext]
      _ = s.proc p := rfl

/-- The first process, ready at level 3. -/
theorem promoteAll_promotes_init :
    ∃ s L s', Inv s L ∧ (s.proc 0).state = .runnable ∧ (s.proc 0).priority = 3 ∧
    promoteAll s = .ok s' ∧
      PromotedAll s s' := by
  obtain ⟨s, hreplay, hst, hprio, hrest⟩ := Sys.replay_any .p3p4 [.setpriority 1 3]
    (fun s => (s.pt.proc 0).state = .runnable ∧ (s.pt.proc 0).priority = 3 ∧
      ∀ p, p ≠ 0 → (s.pt.proc p).state = .unused) (by decide +kernel)
  obtain ⟨L, hinv⟩ := (Sys.reachable_inv (Sys.replay_reachable hreplay)).tab
  obtain ⟨s', heq, hiff⟩ := promoteAll_promotes_iff hinv
  refine ⟨s.pt, L, s', hinv, hst, hprio, heq, hiff.2 fun p q hp hq _ _ => ?_⟩
  have hzero : ∀ x, (s.pt.proc x).state = .runnable → x = 0 := by
    intro x hx
    by_contra hne
    rw [hrest x hne] at hx
    cases hx
  rw [hzero p hp, hzero q hq]

/-- The first process forks and both are put at level 1. -/
def twoAtLevel : List Act :=
  [.schedEnter 0, .schedStep 0, .forkAlloc 0, .forkCopy 0, .forkPublish 0, .yield 0] ++
    List.replicate 8 (.schedStep 0) ++ [.setpriority 1 1, .setpriority 2 1]

set_option maxRecDepth 100000 in
/-- Only the first of the two is promoted; the other keeps its level. -/
theorem promoteAll_misses_second :
    ∃ s L s', Inv s L ∧ (∀ p, p = 0 ∨ p = 1 → (s.proc p).state = .runnable ∧
      (s.proc p).priority = 1) ∧
      promoteAll s = .ok s' ∧ (s'.proc 0).priority = 0 ∧ (s'.proc 1).priority = 1 ∧
      ¬PromotedAll s s' := by
  obtain ⟨s, hreplay, hready, hpromote⟩ := Sys.replay_any .p3p4 twoAtLevel
    (fun s => (∀ p, p = 0 ∨ p = 1 → (s.pt.proc p).state = .runnable ∧ (s.pt.proc p).priority = 1) ∧
      (promoteAll s.pt).toOption.any fun s' => decide ((s'.proc 0).priority = 0 ∧
        (s'.proc 1).priority = 1))
    (by decide +kernel)
  obtain ⟨L, hinv⟩ := (Sys.reachable_inv (Sys.replay_reachable hreplay)).tab
  obtain ⟨s', heq, hfirst, hsecond⟩ := Stoppable.exists_ok
    (fun s' : PTable => (s'.proc 0).priority = 0 ∧ (s'.proc 1).priority = 1) hpromote
  refine ⟨s.pt, L, s', hinv, hready, heq, hfirst, hsecond, fun hall => ?_⟩
  obtain ⟨hst, hprio⟩ := hready 1 (Or.inr rfl)
  have hup : (s'.proc 1).priority = (s.pt.proc 1).priority - 1 :=
    congrArg Proc.priority (hall.up 1 (Or.inl hst))
  omega

/-! ## `setpriority` -/

/-- A process that is ready, sleeps or runs has the pid. -/
def HasPid (pid : Int) (p : Slot) (s : PTable) : Prop :=
  ProcState.active (s.proc p).state ∧ (s.proc p).pid = BitVec.ofInt 32 pid

instance (pid : Int) (p : Slot) (s : PTable) : Decidable (HasPid pid p s) :=
  inferInstanceAs (Decidable (_ ∧ _))

/-- What `setpriority` is to return, and to do. -/
def SetsPriority (pid priority : Int) (s : PTable) (L : ListId → List Slot) :
    Except Panic (Int × PTable) → Prop
  | .error _ => False
  | .ok (r, s') =>
    (r = 0 ↔ (0 ≤ priority ∧ priority ≤ maxPrio) ∧ ∃ p, HasPid pid p s) ∧
    (r = 0 → ∃ p L', HasPid pid p s ∧ s'.core = (s.modify p (setLevel priority.toNat)).core ∧
      Inv s' L' ∧ ∀ l, (L' l).erase p = (L l).erase p) ∧
    (r ≠ 0 → r = -1 ∧ s' = s)

/-- Where a process has the pid, a priority in range is not the one that all such processes are
    ready at, and a priority out of range is not the one that passes the check. The pid is not
    negative, as it can be after 2^31 calls of `fork`. -/
def SetOk (pid priority : Int) (s : PTable) : Prop :=
  (∃ p, HasPid pid p s) →
    if 0 ≤ priority ∧ priority ≤ maxPrio then
      0 ≤ pid ∧ ∃ p, HasPid pid p s ∧ ¬((s.proc p).state = .runnable ∧
        priority = (s.proc p).priority)
    else pid < 0 ∨ priority ≠ maxPrio + 1

instance (pid priority : Int) (s : PTable) : Decidable (SetOk pid priority s) :=
  inferInstanceAs (Decidable (_ → _))

/-- A process that moves keeps the order of all others. -/
theorem move_erase (h : Inv s L) {i j : Prio} (hne : i ≠ j) (hp : home (s.proc p) = some (.ready i))
    (l : ListId) : (move L (.ready i) (.ready j) p l).erase p = (L l).erase p := by
  have hnd : (L (.ready i)).Nodup := (h.rep.chain _).nodup
  have hpj : p ∉ L (.ready j) := by
    intro hmem
    have := (h.mem_iff p _).1 hmem
    rw [hp] at this
    exact hne (ListId.ready.inj (Option.some.inj this))
  unfold move
  by_cases hj : l = .ready j
  · subst hj
    rw [update_self, List.erase_append_right _ hpj, List.erase_of_not_mem hpj]
    simp
  · rw [update_of_ne hj]
    by_cases hi : l = .ready i
    · subst hi
      rw [update_self, List.erase_of_not_mem hnd.not_mem_erase]
    · rw [update_of_ne hi]

/-- Where -1 is returned. -/
theorem setsPriority_failed (pid priority : Int) (s : PTable) (L : ListId → List Slot) :
    SetsPriority pid priority s L (.ok (-1, s)) ↔
    ((∃ p, HasPid pid p s) → ¬(0 ≤ priority ∧ priority ≤ maxPrio)) := by
  constructor
  · intro hset hpid hrange
    exact absurd (hset.1.2 ⟨hrange, hpid⟩) (by decide)
  · intro hno
    refine ⟨⟨fun h0 => absurd h0 (by decide), fun hyes => absurd hyes.1 (hno hyes.2)⟩,
      fun h0 => absurd h0 (by decide), fun _ => ⟨rfl, rfl⟩⟩

theorem setsPriority_iff (h : Inv s L) (pid priority : Int) :
    SetsPriority pid priority s L (setpriority pid priority s) ↔ SetOk pid priority s := by
  have hcases := setpriority_eq h pid priority
  generalize setpriority pid priority s = x at hcases
  cases hcases with
  | refused hbad =>
    rw [setsPriority_failed]
    refine forall_congr' fun hpid => ?_
    split
    · next hrange =>
      refine iff_of_false (fun hno => hno hrange) fun hok => ?_
      omega
    · next hrange =>
      refine iff_of_true hrange ?_
      omega
  | moved p i j s' hpid h0 hst hold hnew hne hinv hcore =>
    have hp : HasPid pid p s := ⟨Or.inl hst, hpid⟩
    have hrange : 0 ≤ priority ∧ priority ≤ maxPrio := by omega
    refine iff_of_true ⟨iff_of_true rfl ⟨hrange, p, hp⟩, fun _ => ?_,
      fun hr => absurd rfl hr⟩ fun _ => ?_
    · refine ⟨p, _, hp, ?_, hinv, move_erase h hne (home_eq_ready.2 ⟨hst, hold⟩)⟩
      rw [hcore, hnew, Int.toNat_natCast]
    · rw [if_pos hrange]
      refine ⟨h0, p, hp, fun hsame => hne (Fin.ext ?_)⟩
      omega
  | outside p hpid h0 hst hnew =>
    refine iff_of_false id fun hok => ?_
    have := hok ⟨p, Or.inl hst, hpid⟩
    rw [if_neg (by omega)] at this
    omega
  | set p hpid h0 hst h1 h2 =>
    have hp : HasPid pid p s := ⟨Or.inr hst, hpid⟩
    have hne : (s.proc p).state ≠ .runnable := by
      intro he
      rw [he] at hst
      simp at hst
    by_cases hle : priority ≤ maxPrio
    · refine iff_of_true ⟨iff_of_true rfl ⟨⟨h1, hle⟩, p, hp⟩, fun _ => ?_,
        fun hr => absurd rfl hr⟩ fun _ => ?_
      · refine ⟨p, L, hp, rfl, h.modify p ?_ (home_priority hne _ _) ?_, fun _ => rfl⟩
        · exact fun _ => rfl
        · show priority.toNat ≤ maxPrio
          omega
      · rw [if_pos ⟨h1, hle⟩]
        exact ⟨h0, p, hp, fun hsame => hne hsame.1⟩
    · refine iff_of_false (fun hset => hle (hset.1.1 rfl).1.2) fun hok => ?_
      have := hok ⟨p, hp⟩
      rw [if_neg (by omega)] at this
      omega
  | missed h0 h1 h2 hnone =>
    rw [setsPriority_failed]
    refine forall_congr' fun hpid => ?_
    split
    · next hrange =>
      refine iff_of_false (fun hno => hno hrange) ?_
      rintro ⟨-, p, hp, hother⟩
      exact hother (hnone p hp.1 hp.2)
    · next hrange =>
      refine iff_of_true hrange (Or.inr fun he => ?_)
      -- Every ready process has a priority in range.
      obtain ⟨p, hp⟩ := hpid
      have hprio := (hnone p hp.1 hp.2).2
      have := h.prio p
      omega

/-- A call that the contract holds for and that is not in range changes nothing. -/
theorem setpriority_idle (h : Inv s L) {pid priority : Int} (hok : SetOk pid priority s)
    (hrange : ¬(0 ≤ priority ∧ priority ≤ maxPrio)) : setpriority pid priority s = .ok (-1, s) := by
  have hset := (setsPriority_iff h pid priority).2 hok
  generalize setpriority pid priority s = x at hset ⊢
  match x with
  | .error _ => exact hset.elim
  | .ok (r, s') =>
    obtain ⟨rfl, rfl⟩ := hset.2.2 fun hr => hrange (hset.1.1 hr).1
    rfl

end PTable

namespace Sys

open PTable

/-- `setpriority` is only called where its contract holds. -/
def SetpriorityOk (a : Act) (s : Sys) : Prop :=
  match a with
  | .setpriority pid priority => SetOk pid priority s.pt
  | _ => True

instance (a : Act) (s : Sys) : Decidable (SetpriorityOk a s) :=
  match a with
  | .setpriority pid priority => inferInstanceAs (Decidable (SetOk pid priority s.pt))
  | .tick | .schedEnter _ | .schedStep _ | .forkAlloc _ | .forkFail _ | .forkCopy _
  | .forkPublish _ | .forkUid _ | .forkGid _ | .exit _ | .wait _ | .yield _ | .sleep _ _
  | .wakeup _ | .kill _ | .setuid _ _ | .setgid _ _ | .execSetuid _ _ => isTrue trivial

/-- An action in such a run, in or out of range. -/
theorem SetpriorityOk.cases {a : Act} {s : Sys} {L : ListId → List Slot} (hok : SetpriorityOk a s)
    (h : Inv s.pt L) :
    PrioOk a s ∨ ∃ pid priority, a = .setpriority pid priority ∧
    setpriority pid priority s.pt = .ok (-1, s.pt) := by
  cases a with
  | setpriority pid priority =>
    by_cases hrange : 0 ≤ priority ∧ priority ≤ maxPrio
    · exact Or.inl hrange
    · exact Or.inr ⟨pid, priority, rfl, setpriority_idle h hok hrange⟩
  | _ => exact Or.inl trivial

theorem step_setpriority_idle {s : Sys} {pid priority : Int}
    (h : setpriority pid priority s.pt = .ok (-1, s.pt)) :
    s.step .p3p4 (.setpriority pid priority) = .ok s ∨
    s.step .p3p4 (.setpriority pid priority) = .error .disabled := by
  by_cases hlock : s.lock = none
  · refine Or.inl ?_
    simp only [step, guarded]
    rw [if_pos ⟨trivial, hlock⟩, h]
    rfl
  · refine Or.inr ?_
    simp only [step, guarded]
    rw [if_neg fun hen => hlock hen.2]

theorem reachable_prioOk {s : Sys} (h : Reachable (step .p3p4) (Init .p3p4) SetpriorityOk s) :
    Reachable (step .p3p4) (Init .p3p4) PrioOk s := by
  induction h with
  | init hinit => exact .init hinit
  | step _ hok hstep ih =>
    obtain ⟨L, hinv⟩ := (reachable_inv ih).tab
    obtain hprio | ⟨pid, priority, rfl, hidle⟩ := hok.cases hinv
    · exact .step ih hprio hstep
    · obtain he | he := step_setpriority_idle hidle
      · rw [show Sys.step _ _ _ = _ from he] at hstep
        exact Except.ok.inj hstep ▸ ih
      · rw [show Sys.step _ _ _ = _ from he] at hstep
        cases hstep

/-- `setpriority` keeps its contract if and only if it is not called for a process that is there
    with `MAXPRIO+1`, nor for one that is ready with the priority it has, nor with a negative pid.
    In runs without such calls no list index is out of range. -/
theorem setpriority_contract (s : Sys) (h : Reachable (step .p3p4) (Init .p3p4) SetpriorityOk s) :
    (∃ L, Inv s.pt L ∧ ∀ pid priority,
      SetsPriority pid priority s.pt L (setpriority pid priority s.pt) ↔ SetOk pid priority s.pt) ∧
    ∀ a, SetpriorityOk a s → s.step .p3p4 a ≠ .error (.panic .outOfBounds) := by
  have hreach := reachable_prioOk h
  obtain ⟨L, hinv⟩ := (reachable_inv hreach).tab
  refine ⟨⟨L, hinv, setsPriority_iff hinv⟩, fun a hok hstep => ?_⟩
  obtain hprio | ⟨pid, priority, rfl, hidle⟩ := hok.cases hinv
  · obtain ⟨_, _, _, hpanic⟩ := stateLists_sound s hreach
    cases hpanic a _ hprio hstep
  · obtain he | he := step_setpriority_idle hidle
    · rw [he] at hstep
      cases hstep
    · rw [he] at hstep
      cases hstep

/-- The first process, ready, is given a lower priority. -/
theorem setpriority_contract_init :
    ∃ s L, Reachable (step .p3p4) (Init .p3p4) SetpriorityOk s ∧ (s.pt.proc 0).pid = 1 ∧
      SetOk 1 6 s.pt ∧ SetsPriority 1 6 s.pt L (setpriority 1 6 s.pt) := by
  obtain ⟨s, hreach, hpid, hok⟩ := reachable_any .p3p4 SetpriorityOk []
    (fun s => (s.pt.proc 0).pid = 1 ∧ SetOk 1 6 s.pt) (by decide +kernel)
  obtain ⟨⟨L, _, hiff⟩, _⟩ := setpriority_contract s hreach
  exact ⟨s, L, hreach, hpid, hok, (hiff 1 6).2 hok⟩

/-- Both slips. The running first process may have priority 7, and then gives up the CPU to a list
    that there is not; and where it is ready at level 0, it is not found for this level. -/
theorem setpriority_slips :
    (∃ s, Reachable (step .p3p4) (Init .p3p4) SetpriorityOk s ∧
      ∃ pt, setpriority 1 7 s.pt = .ok (0, pt) ∧ (∀ L, ¬SetsPriority 1 7 s.pt L (.ok (0, pt))) ∧
        yield .p3p4 0 pt = .error .outOfBounds) ∧
    ∃ s, Reachable (step .p3p4) (Init .p3p4) SetpriorityOk s ∧ HasPid 1 0 s.pt ∧
      ∃ pt, setpriority 1 0 s.pt = .ok (-1, pt) ∧ ∀ L, ¬SetsPriority 1 0 s.pt L (.ok (-1, pt)) := by
  constructor
  · obtain ⟨s, hreach, hpt⟩ := reachable_any .p3p4 SetpriorityOk [.schedEnter 0, .schedStep 0]
      (fun s => (setpriority 1 7 s.pt).toOption.any fun a =>
        decide (a.1 = 0 ∧ Stoppable.stop (yield .p3p4 0 a.2) = some .outOfBounds))
          (by decide +kernel)
    obtain ⟨⟨_, pt⟩, hset, rfl, hyield⟩ := Stoppable.exists_ok
      (fun a : Int × PTable => a.1 = 0 ∧ Stoppable.stop (yield .p3p4 0 a.2) = some .outOfBounds) hpt
    refine ⟨s, hreach, pt, hset, fun L hsets => ?_, Stoppable.eq_error_of_stop hyield⟩
    exact absurd (hsets.1.1 rfl).1.2 (by decide)
  · obtain ⟨s, hreach, hpid, hpt⟩ := reachable_any .p3p4 SetpriorityOk []
      (fun s => HasPid 1 0 s.pt ∧ (setpriority 1 0 s.pt).toOption.any fun a => decide (a.1 = -1))
      (by decide +kernel)
    obtain ⟨⟨_, pt⟩, hset, rfl⟩ := Stoppable.exists_ok (fun a : Int × PTable => a.1 = -1) hpt
    refine ⟨s, hreach, hpid, pt, hset, fun L hsets => ?_⟩
    exact absurd (hsets.1.2 ⟨by decide, 0, hpid⟩) (by decide)

end Sys

end Xv6
