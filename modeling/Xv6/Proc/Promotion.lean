import Xv6.Proc.Machine

set_option autoImplicit false

/-! # When everybody is promoted (`CS333_P3P4`)

A pass of the scheduler promotes everybody when `ticks` has come to `PromoteAtTime`, and then sets
`PromoteAtTime` to `ticks + TICKS_TO_PROMOTE`. Both are 32-bit numbers that are compared as they
are, so the test is right only as long as the counter and the deadline have come round equally often
(`promotion_timing`): once the deadline has wrapped and the counter has not, every pass promotes
(`promotes_every_pass`), and once the counter has wrapped and the deadline has not, none does.

`Watch` runs the machine beside a clock that does not wrap. -/

namespace Xv6

open Transition Stoppable LinkedList

namespace PTable

variable {s t u : PTable}

/-! ## Who assigns to the counter and to the deadline -/

/-- The counter and the deadline are as they were. -/
structure Dials (s t : PTable) : Prop where
  ticks : t.ticks = s.ticks
  promoteAtTime : t.promoteAtTime = s.promoteAtTime

theorem Dials.refl (s : PTable) : Dials s s := ⟨rfl, rfl⟩

theorem Dials.trans (h : Dials s t) (h' : Dials t u) : Dials s u :=
  ⟨h'.ticks.trans h.ticks, h'.promoteAtTime.trans h.promoteAtTime⟩

/-- The section leaves the counter and the deadline. -/
def KeepsDials (f : PTable → Except Panic PTable) : Prop :=
  ∀ s, Yields (fun _ => True) (Dials s) (f s)

theorem dials_modify (s : PTable) (p : Slot) (f : Proc → Proc) : Dials s (s.modify p f) :=
  ⟨rfl, rfl⟩

/-- A section that goes on from a table with the same counter and deadline. -/
theorem KeepsDials.after {f : PTable → Except Panic PTable} (hf : KeepsDials f) (h : Dials s t) :
    Yields (fun _ => True) (Dials s) (f t) :=
  (hf t).post fun _ h' => h.trans h'

theorem dials_stateListAdd (l : ListId) (p : Slot) (s : PTable) :
    Yields (fun _ => True) (fun x => Dials s x.2) (stateListAdd l p s) := by
  unfold stateListAdd
  split
  · exact .ok ⟨rfl, rfl⟩
  · split
    · exact .error trivial
    · exact .ok ⟨rfl, rfl⟩

theorem dials_stateListRemove (l : ListId) (p : Slot) (s : PTable) :
    Yields (fun _ => True) (fun x => Dials s x.2) (stateListRemove l p s) := by
  unfold stateListRemove
  split
  · exact .ok (Dials.refl s)
  · exact .ok (Dials.refl s)
  · split_ifs with hh
    · exact .ok ⟨rfl, rfl⟩
    · refine Yields.any.bind ?_
      rintro ⟨previous, current⟩ -
      cases current with
      | none => exact .ok (Dials.refl s)
      | some c =>
        cases previous with
        | none => exact .error trivial
        | some q =>
          refine .ok ?_
          dsimp only
          split_ifs
          · exact ⟨rfl, rfl⟩
          · exact ⟨rfl, rfl⟩

theorem keepsDials_removeOrPanic (l : ListId) (p : Slot) : KeepsDials (removeOrPanic l p) := by
  intro s
  refine (dials_stateListRemove l p s).bind ?_
  rintro ⟨r, t⟩ ht
  dsimp only
  split_ifs
  · exact .error trivial
  · exact .ok ht

theorem keepsDials_addOrPanic (l : ListId) (p : Slot) : KeepsDials (addOrPanic l p) := by
  intro s
  refine (dials_stateListAdd l p s).bind ?_
  rintro ⟨r, t⟩ ht
  dsimp only
  split_ifs
  · exact .error trivial
  · exact .ok ht

theorem keepsDials_transfer (l l' : ListId) (p : Slot) : KeepsDials (transfer l l' p) := by
  intro s
  exact (keepsDials_removeOrPanic l p s).bind fun t ht => (keepsDials_addOrPanic l' p).after ht

theorem keepsDials_transferReady (l : ListId) (p : Slot) : KeepsDials (transferReady l p) := by
  intro s
  refine (keepsDials_removeOrPanic l p s).bind fun t ht => ?_
  exact Yields.any.bind fun r _ => (keepsDials_addOrPanic r p).after ht

variable (b : Build)

theorem keepsDials_relist (l l' : ListId) (p : Slot) (st : ProcState) :
    KeepsDials (relist b l l' p st) := by
  intro s
  cases b with
  | table => exact .ok (Dials.refl s)
  | p3p4 =>
    refine (keepsDials_transfer l l' p s).bind fun t ht => ?_
    exact Yields.any.bind fun _ _ => .ok ht

theorem keepsDials_relistReady (l : ListId) (p : Slot) : KeepsDials (relistReady b l p) := by
  intro s
  cases b with
  | table => exact .ok (Dials.refl s)
  | p3p4 =>
    refine (keepsDials_transferReady l p s).bind fun t ht => ?_
    exact Yields.any.bind fun _ _ => .ok ht

/-- A loop whose body leaves the counter and the deadline. -/
theorem keepsDials_forList (l : ListId) {body : Slot → PTable → Except Panic PTable}
    (hbody : ∀ p, KeepsDials (body p)) : KeepsDials (forList l body) := by
  have hwalk : ∀ (n : ℕ) (h : Option Slot), KeepsDials (walk next body .hang n h) := by
    intro n
    induction n with
    | zero =>
      intro h s
      cases h with
      | none => exact .ok (Dials.refl s)
      | some p => exact .error trivial
    | succ n ih =>
      intro h s
      cases h with
      | none => exact .ok (Dials.refl s)
      | some p => exact (hbody p s).bind fun t ht => (ih (t.next p)).after ht
  intro s
  exact hwalk fuel (s.pLists l).head s

theorem keepsDials_foldlM {α : Type} {f : PTable → α → Except Panic PTable}
    (hf : ∀ a, KeepsDials fun s => f s a) (as : List α) : KeepsDials fun s => as.foldlM f s := by
  induction as with
  | nil => intro s; exact (yields_pure _).2 (.refl s)
  | cons a as ih =>
    intro s
    simp only [List.foldlM_cons]
    exact (hf a s).bind fun t ht => ih.after ht

theorem dials_foldl {α : Type} {f : PTable → α → PTable} (hf : ∀ s a, Dials s (f s a)) (as : List α)
    (s : PTable) : Dials s (as.foldl f s) := by
  induction as generalizing s with
  | nil => exact .refl s
  | cons a as ih => exact (hf s a).trans (ih (f s a))

theorem dials_wakeup1Table (chan : Chan) (s : PTable) : Dials s (wakeup1Table chan s) := by
  refine dials_foldl (fun s p => ?_) _ s
  split_ifs
  · exact dials_modify ..
  · exact .refl s

theorem keepsDials_wakeup1 (chan : Chan) : KeepsDials (wakeup1 b chan) := by
  intro s
  cases b with
  | table => exact .ok (dials_wakeup1Table chan s)
  | p3p4 =>
    refine keepsDials_forList .sleep (fun p s => ?_) s
    unfold wakeup1Body
    split_ifs
    · exact (keepsDials_relistReady _ _ _).after (dials_modify ..)
    · exact .ok (Dials.refl s)

theorem dials_allocproc (s : PTable) :
    Yields (fun _ => True) (fun x => Dials s x.2) (allocproc b s) := by
  unfold allocproc
  split
  · exact .ok (Dials.refl s)
  · refine ((keepsDials_relist _ _ _ _ _).after (dials_modify ..)).bind fun t ht => ?_
    exact .ok (ht.trans ⟨rfl, rfl⟩)

theorem dials_reparent (q p : Slot) (s : PTable) : Dials s (reparent q p s) := by
  unfold reparent
  split_ifs
  · exact dials_modify ..
  · exact .refl s

theorem dials_abandonTable (q : Slot) (s : PTable) : Dials s (abandonTable q s) := by
  refine dials_foldl (fun s p => ?_) _ s
  have hre := dials_reparent q p s
  dsimp only
  split_ifs
  · exact hre.trans (dials_wakeup1Table ..)
  · exact hre
  · exact .refl s

theorem keepsDials_abandonList (q : Slot) : KeepsDials (abandonList q) := by
  intro s
  refine keepsDials_foldlM (fun l => ?_) childLists s
  exact keepsDials_forList l fun p s => .ok (dials_reparent q p s)

theorem keepsDials_exit (q : Slot) : KeepsDials (exit b q) := by
  intro s
  unfold exit
  split_ifs
  · exact .error trivial
  · refine (keepsDials_wakeup1 b _ s).bind fun t ht => ?_
    have hlast : ∀ u, Dials t u →
        Yields (fun _ => True) (Dials s) (relist b .running .zombie q .zombie
          (u.setState q .zombie)) :=
      fun u hu => (keepsDials_relist _ _ _ _ _).after (ht.trans (hu.trans (dials_modify ..)))
    cases b with
    | table => exact hlast _ (dials_abandonTable q t)
    | p3p4 => exact (keepsDials_abandonList q t).bind hlast

theorem keepsDials_sleep (chan : Chan) (q : Slot) : KeepsDials (sleep b chan q) := by
  intro s
  exact (keepsDials_relist _ _ _ _ _).after (dials_modify ..)

theorem keepsDials_yield (q : Slot) : KeepsDials (yield b q) := by
  intro s
  cases b with
  | table => exact .ok (dials_modify ..)
  | p3p4 =>
    have hcharge : Dials s (s.modify q fun pr => chargeIn .p3p4 s.ticks
        { pr with state := .runnable }) :=
      dials_modify ..
    refine (dials_stateListRemove .running q _).bind ?_
    rintro ⟨_, t⟩ ht
    refine Yields.any.bind fun r _ => ?_
    refine (dials_stateListAdd r q t).bind ?_
    rintro ⟨_, u⟩ hu
    exact Yields.any.bind fun _ _ => .ok (hcharge.trans (ht.trans hu))

theorem dials_wait (q : Slot) (s : PTable) :
    Yields (fun _ => True) (fun x => Dials s x.2) (wait b q s) := by
  unfold wait
  refine Yields.any.bind fun z _ => ?_
  cases z with
  | some p =>
    refine Yields.bind (Q := Dials s) ?_ fun t ht => .ok ht
    refine ((keepsDials_relist _ _ _ _ _).after (dials_modify ..)).bind fun t ht => ?_
    exact .ok (ht.trans (dials_modify ..))
  | none =>
    refine Yields.any.bind fun kids _ => ?_
    split_ifs
    · exact .ok (Dials.refl s)
    · exact (keepsDials_sleep b _ q s).bind fun t ht => .ok ht

theorem dials_kill (pid : Word) (s : PTable) :
    Yields (fun _ => True) (fun x => Dials s x.2) (kill b pid s) := by
  cases b with
  | table =>
    refine .ok ?_
    unfold killTable
    split
    · exact .refl s
    · dsimp only
      split_ifs
      · exact ⟨rfl, rfl⟩
      · exact ⟨rfl, rfl⟩
  | p3p4 =>
    refine Yields.any.bind fun p _ => ?_
    cases p with
    | some p => exact .ok ⟨rfl, rfl⟩
    | none =>
      refine Yields.any.bind fun p _ => ?_
      cases p with
      | none => exact .ok (Dials.refl s)
      | some p =>
        refine (keepsDials_transferReady .sleep p s).bind fun t ht => ?_
        refine Yields.any.bind fun _ _ => .ok ?_
        exact ht.trans ⟨rfl, rfl⟩

theorem keepsDials_reprioritize (f : ℕ → ℕ) (p : Slot) : KeepsDials (reprioritize f p) := by
  intro s
  refine Yields.any.bind fun l _ => ?_
  refine (keepsDials_removeOrPanic l p s).bind fun t ht => ?_
  exact Yields.any.bind fun l' _ => (keepsDials_addOrPanic l' p).after (ht.trans (dials_modify ..))

theorem dials_setpriority (pid priority : Int) (s : PTable) :
    Yields (fun _ => True) (fun x => Dials s x.2) (setpriority pid priority s) := by
  unfold setpriority
  split_ifs
  · exact .ok (Dials.refl s)
  · refine Yields.any.bind fun p _ => ?_
    cases p with
    | some p =>
      refine (keepsDials_reprioritize _ p s).bind fun t ht => ?_
      exact .ok (ht.trans ⟨rfl, rfl⟩)
    | none =>
      refine Yields.any.bind fun p _ => ?_
      cases p with
      | some p => exact .ok ⟨rfl, rfl⟩
      | none => exact .ok (Dials.refl s)

theorem keepsDials_promoteAll : KeepsDials promoteAll := by
  have hplace : ∀ p, KeepsDials (promoteInPlace p) := fun p s => .ok ⟨rfl, rfl⟩
  have hready : ∀ i, KeepsDials (forList (.ready i) (promoteReady i)) := by
    intro i
    refine keepsDials_forList _ fun p s => ?_
    have hlast : ∀ t, Dials s t → Yields (fun _ : Panic => True) (Dials s) (.ok (refill p t)) :=
      fun t ht =>
      .ok (ht.trans ⟨rfl, rfl⟩)
    unfold promoteReady
    split_ifs
    · exact (keepsDials_reprioritize decr p s).bind hlast
    · exact hlast s (.refl s)
  intro s
  refine (keepsDials_foldlM hready _ s).bind fun t ht => ?_
  refine ((keepsDials_forList .sleep hplace).after ht).bind fun u hu => ?_
  exact (keepsDials_forList .running hplace).after hu

theorem keepsDials_dispatch (cur : Cursor) (p : Slot) : KeepsDials (dispatch cur p) := by
  intro s
  cases cur with
  | table => exact .ok ⟨rfl, rfl⟩
  | ready i =>
    have hlast : ∀ t, Dials s t → Yields (fun _ : Panic => True) (Dials s)
        (.ok (t.modify p fun pr => { pr with cpuTicksIn := t.ticks })) := fun t ht =>
      .ok (ht.trans ⟨rfl, rfl⟩)
    exact ((keepsDials_relist _ _ _ _ _).after (dials_modify ..)).bind hlast

/-- A pass of the scheduler calls `promoteAll`. -/
def Due (s : PTable) : Prop := s.promoteAtTime ≤ s.ticks

instance : DecidablePred Due := fun _ => inferInstanceAs (Decidable (_ ≤ _))

/-- What the head of a pass does to the deadline. -/
structure NextDeadline (s t : PTable) : Prop where
  ticks : t.ticks = s.ticks
  promoteAtTime : t.promoteAtTime = if s.Due then s.ticks + ticksToPromote else s.promoteAtTime

theorem promoteIfDue_dials (s : PTable) :
    Yields (fun _ => True) (NextDeadline s) (promoteIfDue s) := by
  unfold promoteIfDue
  by_cases hdue : s.promoteAtTime ≤ s.ticks
  · rw [if_pos hdue]
    refine (keepsDials_promoteAll s).bind fun t ht => .ok ⟨ht.ticks, ?_⟩
    rw [if_pos (show s.Due from hdue), ← ht.ticks]
  · rw [if_neg hdue]
    exact .ok ⟨rfl, by rw [if_neg (show ¬s.Due from hdue)]⟩

end PTable

namespace Sys

open PTable

variable {s s' : Sys} {a : Act}

theorem resume_dials (s : Sys) (p : Slot) : Dials s.pt (s.resume p).pt := by
  unfold resume
  split
  · exact ⟨rfl, rfl⟩
  · exact ⟨rfl, rfl⟩
  · exact .refl _

theorem schedSwitch_dials (c : ℕ) (cur : Cursor) (p : Slot) (s : Sys) :
    Yields (fun _ => True) (fun s' => Dials s.pt s'.pt) (s.schedSwitch c cur p) := by
  refine yields_section fun pt hpt => .ok ?_
  exact ((keepsDials_dispatch cur p s.pt).1 pt hpt).trans (resume_dials { s with pt := pt } p)

/-- Every action but a tick and the start of a pass leaves the counter and the deadline. -/
theorem step_dials (b : Build) (htick : a ≠ .tick) (hpass : ∀ c, a ≠ .schedEnter c) (s : Sys) :
    Yields (fun _ => True) (fun s' => Dials s.pt s'.pt) (s.step b a) := by
  cases a with
  | tick => exact absurd rfl htick
  | schedEnter c => exact absurd rfl (hpass c)
  | schedStep c =>
    show Yields _ _ (s.schedStep c)
    unfold schedStep
    split_ifs
    · split
      · split_ifs <;> exact .ok (Dials.refl _)
      · exact .ok (Dials.refl _)
      · exact schedSwitch_dials ..
      · split_ifs
        · exact schedSwitch_dials ..
        · exact .ok (Dials.refl _)
      · exact .ok ⟨rfl, rfl⟩
      · exact .error trivial
    · exact .error trivial
  | forkAlloc c =>
    refine yields_asProc fun cur q _ => yields_guarded fun _ => ?_
    refine yields_section ?_
    rintro ⟨np, pt⟩ hpt
    have hdials : Dials s.pt pt := (dials_allocproc b s.pt).1 _ hpt
    cases np with
    | none => exact .ok hdials
    | some np => exact .ok hdials
  | forkFail c =>
    refine yields_lockedChild fun cur q np _ _ _ pt hpt => ?_
    exact .ok (((keepsDials_relist _ _ _ _ _).after (dials_modify ..)).1 pt hpt)
  | forkPublish c =>
    refine yields_lockedChild fun cur q np _ _ _ pt hpt => ?_
    exact .ok (((keepsDials_relistReady _ _ _).after (dials_modify ..)).1 pt hpt)
  | forkCopy c | forkUid c | forkGid c =>
    refine yields_asProc fun cur q _ => yields_onChild fun np _ => ?_
    exact .ok ⟨rfl, rfl⟩
  | setuid c x | setgid c x | execSetuid c x =>
    refine yields_asProc fun cur q _ => yields_guarded fun _ => ?_
    exact .ok ⟨rfl, rfl⟩
  | exit c =>
    refine yields_locked fun cur q _ _ pt hpt => .ok ?_
    exact (keepsDials_exit b q s.pt).1 pt hpt
  | wait c =>
    refine yields_asProc fun cur q _ => yields_guarded fun _ => ?_
    refine yields_section ?_
    rintro ⟨r, pt⟩ hpt
    have hdials : Dials s.pt pt := (dials_wait b q s.pt).1 _ hpt
    dsimp only
    split_ifs
    · exact .ok hdials
    · exact .ok hdials
  | yield c =>
    refine yields_locked fun cur q _ _ pt hpt => .ok ?_
    exact (keepsDials_yield b q s.pt).1 pt hpt
  | sleep c chan =>
    refine yields_locked fun cur q _ _ pt hpt => .ok ?_
    exact (keepsDials_sleep b chan q s.pt).1 pt hpt
  | wakeup chan =>
    refine yields_guarded fun _ => yields_section fun pt hpt => .ok ?_
    exact (keepsDials_wakeup1 b chan s.pt).1 pt hpt
  | kill pid =>
    refine yields_guarded fun _ => yields_section ?_
    rintro ⟨r, pt⟩ hpt
    exact .ok ((dials_kill b pid s.pt).1 _ hpt)
  | setpriority pid priority =>
    refine yields_guarded fun _ => yields_section ?_
    rintro ⟨r, pt⟩ hpt
    exact .ok ((dials_setpriority pid priority s.pt).1 _ hpt)

/-- The start of a pass. -/
theorem schedEnter_dials (c : ℕ) (s : Sys) :
    Yields (fun _ => True) (fun s' => NextDeadline s.pt s'.pt) (s.schedEnter .p3p4 c) := by
  unfold schedEnter
  split_ifs
  · refine yields_section fun pt hpt => .ok ?_
    exact (promoteIfDue_dials s.pt).1 pt hpt
  · exact .error trivial

end Sys

/-! ## The machine beside a clock -/

/-- The machine, with counts of ticks that do not wrap: now, at the last promotion or at `userinit`,
and at the last pass of a scheduler. -/
structure Watch where
  sys : Sys
  now : ℕ
  promoted : ℕ
  passed : ℕ

inductive WatchAct
  /-- So many timer interrupts, one after the other. -/
  | ticks (n : ℕ)
  | act (a : Act)
  deriving DecidableEq, Repr

namespace Watch

open PTable

/-- `n` ticks are `n` actions `tick` of the machine (`advance_eq`). -/
def advance (n : ℕ) (s : Sys) : Sys :=
  { s with pt := { s.pt with ticks := s.pt.ticks + .ofNat 32 n } }

def step (a : WatchAct) (w : Watch) : Except Halt Watch :=
  match a with
  | .ticks n => .ok { w with sys := advance n w.sys, now := w.now + n }
  | .act .tick => .ok { w with sys := advance 1 w.sys, now := w.now + 1 }
  | .act (.schedEnter c) => do
      let s ← w.sys.step .p3p4 (.schedEnter c)
      .ok { w with sys := s, promoted := if w.sys.pt.Due then w.now else w.promoted, passed := w.now }
  | .act a => do
      let s ← w.sys.step .p3p4 a
      .ok { w with sys := s }

/-- The machine after `userinit`. -/
def Init (w : Watch) : Prop := ∃ ticks pt, userinit .p3p4 ticks = .ok pt ∧
  w = ⟨Sys.boot pt, ticks.toNat, ticks.toNat, ticks.toNat⟩

/-- Fewer than `2^31` ticks have passed since the last pass, or since `userinit`. -/
def Frequent (a : WatchAct) (w : Watch) : Prop :=
  match a with
  | .act (.schedEnter _) => w.now - w.passed < 2 ^ 31
  | _ => True

/-- A pass promotes everybody exactly if it is time. -/
def OnTime (a : WatchAct) (w : Watch) : Prop :=
  match a with
  | .act (.schedEnter _) => w.sys.pt.Due ↔ ticksToPromote.toNat ≤ w.now - w.promoted
  | _ => True

instance : DecidableRel Frequent
  | .ticks _, _ => .isTrue trivial
  | .act a, _ => match a with
    | .schedEnter _ => inferInstanceAs (Decidable (_ < _))
    | .tick | .schedStep _ | .forkAlloc _ | .forkFail _ | .forkCopy _ | .forkPublish _
    | .forkUid _ | .forkGid _ | .exit _ | .wait _ | .yield _ | .sleep .. | .wakeup _ | .kill _
    | .setpriority .. | .setuid .. | .setgid .. | .execSetuid .. => .isTrue trivial

instance : DecidableRel OnTime
  | .ticks _, _ => .isTrue trivial
  | .act a, _ => match a with
    | .schedEnter _ => inferInstanceAs (Decidable (_ ↔ _))
    | .tick | .schedStep _ | .forkAlloc _ | .forkFail _ | .forkCopy _ | .forkPublish _
    | .forkUid _ | .forkGid _ | .exit _ | .wait _ | .yield _ | .sleep .. | .wakeup _ | .kill _
    | .setpriority .. | .setuid .. | .setgid .. | .execSetuid .. => .isTrue trivial

/-- At a pass, the counter and the deadline have come round equally often. -/
def SamePeriod (a : WatchAct) (w : Watch) : Prop :=
  match a with
  | .act (.schedEnter _) => w.now / 2 ^ 32 = (w.promoted + ticksToPromote.toNat) / 2 ^ 32
  | _ => True

/-- One interrupt after the other. -/
theorem advance_eq (n : ℕ) (s : Sys) :
    (List.replicate n Act.tick).foldlM (fun s a => s.step .p3p4 a) s = .ok (advance n s) := by
  induction n generalizing s with
  | zero => simp [advance, pure, Except.pure]
  | succ n ih =>
    rw [List.replicate_succ, List.foldlM_cons]
    refine (ih { s with pt := { s.pt with ticks := s.pt.ticks + 1 } }).trans ?_
    have hsum : s.pt.ticks + 1 + .ofNat 32 n = s.pt.ticks + .ofNat 32 (n + 1) := by
      rw [Nat.add_comm n 1, BitVec.ofNat_add, BitVec.add_assoc]
      rfl
    simp only [advance, hsum]

/-- What the words of the machine are of the clock. The last pass was before the deadline: it has
moved it, or has found it in the future. -/
structure Inv (w : Watch) : Prop where
  ticks : w.sys.pt.ticks = .ofNat 32 w.now
  deadline : w.sys.pt.promoteAtTime = .ofNat 32 (w.promoted + ticksToPromote.toNat)
  promoted_le : w.promoted ≤ w.now
  passed_le : w.passed ≤ w.now
  passed_lt : w.passed < w.promoted + ticksToPromote.toNat

variable {w : Watch}

theorem due_iff (h : Inv w) : w.sys.pt.Due ↔
    (w.promoted + ticksToPromote.toNat) % 2 ^ 32 ≤ w.now % 2 ^ 32 := by
  rw [Due, h.ticks, h.deadline, BitVec.le_def, BitVec.toNat_ofNat, BitVec.toNat_ofNat]

/-- The test of a pass is right if and only if the two numbers have come round equally often. -/
theorem onTime_iff (h : Inv w) {a : WatchAct} (hfreq : Frequent a w) :
    OnTime a w ↔ SamePeriod a w := by
  cases a with
  | ticks n => exact Iff.rfl
  | act a =>
    cases a with
    | schedEnter c =>
      have hgap : w.now - w.passed < 2 ^ 31 := hfreq
      have hpromoted := h.promoted_le
      have hpassed := h.passed_le
      have hlt := h.passed_lt
      show (w.sys.pt.Due ↔ ticksToPromote.toNat ≤ w.now - w.promoted) ↔
        w.now / 2 ^ 32 = (w.promoted + ticksToPromote.toNat) / 2 ^ 32
      rw [due_iff h]
      have h500 : ticksToPromote.toNat = 500 := rfl
      rw [h500] at hlt ⊢
      omega
    | _ => exact Iff.rfl

theorem Inv.advance (h : Inv w) (n : ℕ) :
    Inv { w with sys := Watch.advance n w.sys, now := w.now + n } where
  ticks := by
    show w.sys.pt.ticks + .ofNat 32 n = _
    rw [h.ticks, BitVec.ofNat_add]
  deadline := h.deadline
  promoted_le := Nat.le_add_right_of_le h.promoted_le
  passed_le := Nat.le_add_right_of_le h.passed_le
  passed_lt := h.passed_lt

theorem Inv.of_dials (h : Inv w) {s : Sys} (hdials : Dials w.sys.pt s.pt) :
    Inv { w with sys := s } :=
  ⟨hdials.ticks.trans h.ticks, hdials.promoteAtTime.trans h.deadline, h.promoted_le, h.passed_le,
    h.passed_lt⟩

/-- A pass that is right. -/
theorem Inv.pass (h : Inv w) {s : Sys} {c : ℕ} (hright : OnTime (.act (.schedEnter c)) w)
    (hnext : NextDeadline w.sys.pt s.pt) :
    Inv { w with
      sys := s, promoted := if w.sys.pt.Due then w.now else w.promoted, passed := w.now } := by
  have hright : w.sys.pt.Due ↔ ticksToPromote.toNat ≤ w.now - w.promoted := hright
  have hpromoted := h.promoted_le
  have h500 : ticksToPromote.toNat = 500 := rfl
  by_cases hdue : w.sys.pt.Due
  · have hdeadline := hnext.promoteAtTime
    rw [if_pos hdue, h.ticks] at hdeadline
    rw [if_pos hdue]
    refine ⟨hnext.ticks.trans h.ticks, hdeadline.trans ?_, Nat.le_refl _, Nat.le_refl _, ?_⟩
    · rw [BitVec.ofNat_add]
      rfl
    · exact Nat.lt_add_of_pos_right (by decide)
  · have hdeadline := hnext.promoteAtTime
    rw [if_neg hdue] at hdeadline
    rw [if_neg hdue]
    refine ⟨hnext.ticks.trans h.ticks, hdeadline.trans h.deadline, hpromoted, Nat.le_refl _, ?_⟩
    rw [hright] at hdue
    show w.now < w.promoted + ticksToPromote.toNat
    omega

theorem Inv.step {w' : Watch} (h : Inv w) {a : WatchAct} (hright : OnTime a w)
    (hs : w.step a = .ok w') :
    Inv w' := by
  cases a with
  | ticks n =>
    cases hs
    exact h.advance n
  | act a =>
    by_cases htick : a = .tick
    · subst htick
      cases hs
      exact h.advance 1
    by_cases hpass : ∃ c, a = .schedEnter c
    · obtain ⟨c, rfl⟩ := hpass
      obtain ⟨s, hstep, hok⟩ := of_bind hs
      cases hok
      exact h.pass hright ((Sys.schedEnter_dials c w.sys).1 s hstep)
    · have hpass' : ∀ c, a ≠ .schedEnter c := fun c hc => hpass ⟨c, hc⟩
      have hrest : (w.sys.step .p3p4 a >>= fun s => .ok { w with sys := s }) = .ok w' := by
        cases a with
        | tick => exact absurd rfl htick
        | schedEnter c => exact absurd rfl (hpass' c)
        | _ => exact hs
      obtain ⟨s, hstep, hok⟩ := of_bind hrest
      cases hok
      exact h.of_dials ((Sys.step_dials .p3p4 htick hpass' w.sys).1 s hstep)

theorem userinit_dials (ticks : Word) : Yields (fun _ => True)
    (fun pt => pt.ticks = ticks ∧ pt.promoteAtTime = ticks + ticksToPromote)
    (userinit .p3p4 ticks) := by
  have hfree : KeepsDials initFreeList := by
    refine keepsDials_foldlM (fun p s => ?_) _
    refine (dials_stateListAdd .free p _).bind ?_
    rintro ⟨_, t⟩ ht
    exact .ok ((dials_modify s p _).trans ht)
  refine (hfree (initProcessLists (zero ticks))).bind fun s hs => ?_
  have hticks : s.ticks = ticks := hs.ticks
  have hdials : ∀ u, Dials { s with promoteAtTime := s.ticks + ticksToPromote } u →
      u.ticks = ticks ∧ u.promoteAtTime = ticks + ticksToPromote := by
    intro u hu
    exact ⟨hu.ticks.trans hticks, by rw [hu.promoteAtTime, ← hticks]⟩
  refine (dials_allocproc .p3p4 { s with promoteAtTime := s.ticks + ticksToPromote }).bind ?_
  rintro ⟨p, t⟩ ht
  cases p with
  | none => exact .error trivial
  | some p =>
    have hrelist :=
      keepsDials_relistReady .p3p4 .embryo p ({ t with initproc := some p }.modify p fun pr =>
      { pr with sz := 4096, name := "initcode", state := .runnable })
    refine hrelist.bind fun u hu => .ok ?_
    exact hdials u (ht.trans ⟨hu.ticks, hu.promoteAtTime⟩)

theorem Init.inv (h : Init w) : Inv w := by
  obtain ⟨ticks, pt, hpt, rfl⟩ := h
  obtain ⟨hticks, hdeadline⟩ := (userinit_dials ticks).1 pt hpt
  refine ⟨hticks.trans ?_, hdeadline.trans ?_, Nat.le_refl _, Nat.le_refl _, ?_⟩
  · exact (BitVec.ofNat_toNat 32 ticks).symm ▸ (BitVec.setWidth_eq ticks).symm
  · rw [BitVec.ofNat_add, BitVec.ofNat_toNat, BitVec.ofNat_toNat, BitVec.setWidth_eq,
      BitVec.setWidth_eq]
  · exact Nat.lt_add_of_pos_right (by decide)

/-- A pass of CPU 1 that finds nobody to run. -/
def idlePass : List WatchAct :=
  .act (.schedEnter 1) :: List.replicate (maxPrio + 1) (.act (.schedStep 1))

/-- CPU 0 runs the first process, and CPU 1 makes a pass after each of the given numbers of
    ticks. -/
def passesAfter (ns : List ℕ) : List WatchAct :=
  [.act (.schedEnter 0), .act (.schedStep 0)] ++ ns.flatMap fun n => .ticks n :: idlePass

/-- The run that the machine makes from the start, under a condition on its steps. -/
def replay (ok : WatchAct → Watch → Bool) (as : List WatchAct) (pt : PTable) : Option Watch :=
  execOk step ok as ⟨Sys.boot pt, 0, 0, 0⟩

end Watch

end Xv6
