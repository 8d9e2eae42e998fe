import Xv6.Proc.Refine

set_option autoImplicit false

/-! # The two bodies of `wait`

Without `CS333_P3P4` one pass of `wait` goes through the whole table; with it the pass searches the
zombie list, and then the lists of the live states for any child. `Waits` says what a pass is to do,
without an order in which the slots are looked at, and both bodies do that. So they reap, return or
sleep in the same tables; if there are several zombie children, they may choose different ones.

The table scan also counts a child in a slot that is `UNUSED`, which is on none of the lists that
the other body searches. That free slots have no parent is therefore needed. -/

namespace Xv6

open LinkedList

namespace PTable

variable {s : PTable} {L : ListId → List Slot} {q p : Slot}

/-- Free slots are nobody's children. -/
def FreeOrphans (s : PTable) : Prop := ∀ p, (s.proc p).state = .unused → (s.proc p).parent = none

instance (s : PTable) : Decidable (FreeOrphans s) := inferInstanceAs (Decidable (∀ _, _ → _))

/-- A child that `wait` can reap. -/
structure ZombieChild (s : PTable) (q p : Slot) : Prop where
  state : (s.proc p).state = .zombie
  parent : (s.proc p).parent = some q

/-- What one pass of `wait` is to do. -/
inductive Waits (s : PTable) (q : Slot) : WaitResult → Prop
  | reap {p : Slot} (hp : ZombieChild s q p) : Waits s q (.reaped (s.proc p).pid)
  | noChildren (hzombie : ∀ p, ¬ZombieChild s q p)
      (hno : (∀ p, (s.proc p).parent ≠ some q) ∨ (s.proc q).killed = true) : Waits s q .noChildren
  | sleep (hzombie : ∀ p, ¬ZombieChild s q p) {p : Slot} (hp : (s.proc p).parent = some q)
      (hkilled : (s.proc q).killed = false) : Waits s q .sleeps

/-- Both reap, both return -1 or both sleep. -/
def WaitResult.Alike : WaitResult → WaitResult → Prop
  | .reaped _, .reaped _ => True
  | .noChildren, .noChildren => True
  | .sleeps, .sleeps => True
  | _, _ => False

/-- What is to be done is determined but for the child. -/
theorem Waits.alike {r r' : WaitResult} (h : Waits s q r) (h' : Waits s q r') :
    WaitResult.Alike r r' := by
  cases h with
  | reap hp =>
    cases h' with
    | reap => trivial
    | noChildren hzombie => exact absurd hp (hzombie _)
    | sleep hzombie => exact absurd hp (hzombie _)
  | noChildren hzombie hno =>
    cases h' with
    | reap hp => exact absurd hp (hzombie _)
    | noChildren => trivial
    | sleep _ hp hkilled =>
      rcases hno with hno | hno
      · exact absurd hp (hno _)
      · rw [hkilled] at hno
        cases hno
  | sleep hzombie hp hkilled =>
    cases h' with
    | reap hp' => exact absurd hp' (hzombie _)
    | noChildren _ hno =>
      rcases hno with hno | hno
      · exact absurd hp (hno _)
      · rw [hkilled] at hno
        cases hno
    | sleep => trivial

/-! ## The table scan -/

theorem wait_table_waits (s : PTable) (q : Slot) :
    ∃ r s', wait .table q s = .ok (r, s') ∧ Waits s q r := by
  unfold wait
  simp only [findZombie, bind, Except.bind]
  cases hf : (List.finRange nproc).find?
      (fun p => decide ((s.proc p).parent = some q ∧ (s.proc p).state = .zombie)) with
  | some p =>
    have hp : (s.proc p).parent = some q ∧ (s.proc p).state = .zombie := by
      simpa using List.find?_some hf
    exact ⟨_, _, rfl, .reap ⟨hp.2, hp.1⟩⟩
  | none =>
    have hzombie : ∀ p, ¬ZombieChild s q p := by
      intro p hp
      have := List.find?_eq_none.1 hf p (List.mem_finRange p)
      exact this (by simp [hp.state, hp.parent])
    simp only [haveKids]
    split
    · next hno =>
        refine ⟨_, _, rfl, .noChildren hzombie ?_⟩
        simpa using hno
    · next hkids =>
        simp only [Bool.or_eq_true, Bool.not_eq_true', not_or, Bool.not_eq_false, List.any_eq_true,
          decide_eq_true_eq, Bool.not_eq_true] at hkids
        obtain ⟨⟨p, -, hp⟩, hkilled⟩ := hkids
        exact ⟨_, _, rfl, .sleep hzombie hp hkilled⟩

/-! ## The lists -/

/-- The child `p` has been reaped: its slot is reset and is now at the end of the free list, and
nothing else about any process has changed. -/
structure Reaps (s : PTable) (L : ListId → List Slot) (q p : Slot) (s' : PTable) : Prop where
  child : ZombieChild s q p
  reset : (s'.proc p).state = .unused ∧ (s'.proc p).pid = 0 ∧ (s'.proc p).parent = none ∧
    (s'.proc p).name = "" ∧ (s'.proc p).killed = false
  lists : Inv s' (move L .zombie .free p)
  others : ∀ x, x ≠ p → { s'.proc x with next := none } = { s.proc x with next := none }

theorem reaps_of_core {s' : PTable} (hp : ZombieChild s q p)
    (hinv : Inv s' (move L .zombie .free p))
    (hcore : s'.core = (reaped p s).core) : Reaps s L q p s' := by
  have hproc : ∀ x, ({ s'.proc x with next := none } : Proc) =
      { (reaped p s).proc x with next := none } :=
    fun x => congrFun (congrArg PTable.proc hcore) x
  refine ⟨hp, ?_, hinv, fun x hx => ?_⟩
  · have hreset := hproc p
    simp only [reaped, reapFields, modify, Function.update_self, Proc.mk.injEq] at hreset
    exact ⟨hreset.1, hreset.2.1, hreset.2.2.1, hreset.2.2.2.2.2.2.1, hreset.2.2.2.2.1⟩
  · rw [hproc x]
    simp [reaped, hx]

theorem wait_list_waits (h : Inv s L) (hfree : FreeOrphans s) (hq : (s.proc q).state = .running) :
    ∃ r s', wait .p3p4 q s = .ok (r, s') ∧ Waits s q r ∧
      ∀ pid, r = .reaped pid → ∃ p, pid = (s.proc p).pid ∧ Reaps s L q p s' := by
  unfold wait
  simp only [findZombie, findList_eq h]
  cases hz : (L .zombie).find? (fun p => decide ((s.proc p).parent = some q)) with
  | some p =>
    have hstate : (s.proc p).state = .zombie := by
      rw [← home_eq_zombie]
      exact (h.mem_iff p .zombie).1 (List.mem_of_find?_eq_some hz)
    have hp : ZombieChild s q p := ⟨hstate, by simpa using List.find?_some hz⟩
    obtain ⟨s', hreap, hinv, hcore⟩ := reap_spec h hstate
    refine ⟨.reaped (s.proc p).pid, s', by simp [hreap, bind, Except.bind], .reap hp,
      fun pid hpid => ?_⟩
    cases hpid
    exact ⟨p, rfl, reaps_of_core hp hinv hcore⟩
  | none =>
    have hzombie : ∀ p, ¬ZombieChild s q p := by
      intro p hp
      have hmem : p ∈ L .zombie := (h.mem_iff p .zombie).2 (home_eq_zombie.2 hp.state)
      exact List.find?_eq_none.1 hz p hmem (by simp [hp.parent])
    -- a child is not free, and no zombie either
    have hlive : ∀ p, (s.proc p).parent = some q → p ∈ childLists.flatMap L := by
      intro p hp
      refine (mem_childLists h p).2 ⟨fun hunused => ?_, fun hstate => hzombie p ⟨hstate, hp⟩⟩
      rw [hfree p hunused] at hp
      cases hp
    simp only [haveKids, findLists_eq h, bind, Except.bind]
    cases hkids : (childLists.flatMap L).find? (fun p => decide ((s.proc p).parent = some q)) with
    | none =>
      refine ⟨.noChildren, s, rfl, .noChildren hzombie (.inl fun p hp => ?_), by simp⟩
      exact List.find?_eq_none.1 hkids p (hlive p hp) (by simp [hp])
    | some p =>
      cases hkilled : (s.proc q).killed with
      | true => exact ⟨.noChildren, s, rfl, .noChildren hzombie (.inr hkilled), by simp⟩
      | false =>
        obtain ⟨s', hsleep, -⟩ := sleep_spec h hq (.proc q)
        have hp : (s.proc p).parent = some q := by simpa using List.find?_some hkids
        exact ⟨.sleeps, s', by simp [hsleep], .sleep hzombie hp hkilled, by simp⟩

/-- Init forks a child, which runs on a second CPU and exits. -/
def childExits : List Act := Sys.switchAndFork ++ [.schedEnter 1, .schedStep 1, .exit 1]

end PTable

end Xv6
