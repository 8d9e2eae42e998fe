import Xv6.Proc.Spec
import Mathlib.Data.Finset.Option

set_option autoImplicit false

/-! # One effect per section, for both builds

The two builds find the slots they act on in different ways but assign to them alike. Each lemma
here gives the effect of a section as plain assignments to the table, up to `SameIdent`, for either
build. Where the builds do differ, in which sleepers `wakeup1` wakes and which children `exit` hands
to init, the effect names the set of slots and bounds it from both sides. -/

namespace Xv6

open Function LinkedList

namespace PTable

variable {b : Build} {s : PTable}

/-- What a build needs of the table between its sections. -/
def TabInv (b : Build) (s : PTable) : Prop :=
  match b with
  | .table => True
  | .p3p4 => ∃ L, Inv s L

variable (W : Finset Slot)

/-- The processes in `W` made runnable. -/
def wakeAll (s : PTable) : PTable :=
  { s with proc := fun p => if p ∈ W then { s.proc p with state := .runnable } else s.proc p }

variable (R : Finset Slot)

/-- The processes in `R` handed to init. -/
def adoptAll (s : PTable) : PTable :=
  { s with proc := fun p => if p ∈ R then { s.proc p with parent := s.initproc } else s.proc p }

@[simp] theorem wakeAll_state (s : PTable) (p : Slot) :
    ((wakeAll W s).proc p).state = if p ∈ W then .runnable else (s.proc p).state := by
  unfold wakeAll
  split <;> simp [*]

@[simp] theorem wakeAll_chan (s : PTable) (p : Slot) :
    ((wakeAll W s).proc p).chan = (s.proc p).chan := by
  by_cases h : p ∈ W <;> simp [wakeAll, h]

@[simp] theorem wakeAll_parent (s : PTable) (p : Slot) :
    ((wakeAll W s).proc p).parent = (s.proc p).parent := by
  by_cases h : p ∈ W <;> simp [wakeAll, h]

@[simp] theorem adoptAll_state (s : PTable) (p : Slot) :
    ((adoptAll R s).proc p).state = (s.proc p).state := by
  by_cases h : p ∈ R <;> simp [adoptAll, h]

@[simp] theorem adoptAll_chan (s : PTable) (p : Slot) :
    ((adoptAll R s).proc p).chan = (s.proc p).chan := by
  by_cases h : p ∈ R <;> simp [adoptAll, h]

@[simp] theorem adoptAll_parent (s : PTable) (p : Slot) :
    ((adoptAll R s).proc p).parent = if p ∈ R then s.initproc else (s.proc p).parent := by
  by_cases h : p ∈ R <;> simp [adoptAll, h]

@[simp] theorem wakeAll_initproc (s : PTable) :
    (wakeAll W s).initproc = s.initproc := rfl

@[simp] theorem adoptAll_initproc (s : PTable) :
    (adoptAll R s).initproc = s.initproc := rfl

/-! ## Process creation -/

theorem allocproc_sim (h : TabInv b s) :
    allocproc b s = .ok (none, s) ∨
    ∃ p s', allocproc b s = .ok (some p, s') ∧ TabInv b s' ∧ (s.proc p).state = .unused ∧
      SameIdent (allocated p s) s' := by
  cases b with
  | table =>
    cases hf : findUnused .table s with
    | none => exact Or.inl (by simp [allocproc, hf])
    | some p =>
      refine Or.inr ⟨p, allocated p s, ?_, trivial, ?_, .refl _⟩
      · simp only [allocproc, hf, relist, setState, bind, Except.bind, modify_modify]
        rfl
      · simpa using List.find?_some hf
  | p3p4 =>
    obtain ⟨L, hinv⟩ := h
    cases hL : L .free with
    | nil => exact Or.inl (allocproc_none hinv hL)
    | cons p rest =>
      obtain ⟨s', hs, hinv', hcore⟩ := allocproc_some hinv hL
      refine Or.inr ⟨p, s', hs, ⟨_, hinv'⟩, ?_, .of_core hcore⟩
      rw [← home_eq_free, ← hinv.mem_iff, hL]
      exact List.mem_cons_self

theorem rollback_sim (h : TabInv b s) {np : Slot} (hnp : (s.proc np).state = .embryo) :
    ∃ s', rollback b np s = .ok s' ∧ TabInv b s' ∧ SameIdent (s.setState np .unused) s' := by
  cases b with
  | table => exact ⟨_, rfl, trivial, .refl _⟩
  | p3p4 =>
    obtain ⟨L, hinv⟩ := h
    obtain ⟨s', hs, hinv', hcore⟩ := rollback_spec hinv hnp
    exact ⟨s', hs, ⟨_, hinv'⟩, .of_core hcore⟩

theorem forkPublish_sim (h : TabInv b s) {np : Slot} (hnp : (s.proc np).state = .embryo) :
    ∃ s', forkPublish b np s = .ok s' ∧ TabInv b s' ∧ SameIdent (s.setState np .runnable) s' := by
  cases b with
  | table => exact ⟨_, rfl, trivial, .refl _⟩
  | p3p4 =>
    obtain ⟨L, hinv⟩ := h
    obtain ⟨s', hs, hinv', hcore⟩ := forkPublish_spec hinv hnp
    exact ⟨s', hs, ⟨_, hinv'⟩, .of_core hcore⟩

/-! ## Stores that scheduling does not see -/

/-- Links, list ends, states and priorities are the same. -/
structure Keeps (s s' : PTable) : Prop where
  next : s'.next = s.next
  lists : s'.pLists = s.pLists
  state : ∀ p, (s'.proc p).state = (s.proc p).state
  priority : ∀ p, (s'.proc p).priority = (s.proc p).priority

theorem Keeps.modify (s : PTable) (p : Slot) {f : Proc → Proc}
    (hnext : ∀ pr, (f pr).next = pr.next) (hstate : ∀ pr, (f pr).state = pr.state)
    (hprio : ∀ pr, (f pr).priority = pr.priority) : Keeps s (s.modify p f) := by
  refine ⟨modify_next s p hnext, rfl, fun x => ?_, fun x => ?_⟩
  · by_cases hx : x = p
    · subst hx; simp [hstate]
    · simp [hx]
  · by_cases hx : x = p
    · subst hx; simp [hprio]
    · simp [hx]

theorem Keeps.home {s s' : PTable} (h : Keeps s s') (p : Slot) :
    PTable.home (s'.proc p) = PTable.home (s.proc p) :=
  home_congr (h.state p) (h.priority p)

theorem TabInv.of_keeps {s' : PTable} (h : TabInv b s) (hk : Keeps s s') : TabInv b s' := by
  cases b with
  | table => trivial
  | p3p4 =>
    obtain ⟨L, hinv⟩ := h
    refine ⟨L, ⟨?_, fun p => by rw [hk.priority]; exact hinv.prio p⟩⟩
    have hrep := hinv.rep
    unfold Rep heads tails at hrep ⊢
    simp only [hk.next, hk.lists, hk.home]
    exact hrep

theorem forkCopy_keeps (q np : Slot) (s : PTable) : Keeps s (forkCopy q np s) :=
  .modify s np (fun _ => rfl) (fun _ => rfl) (fun _ => rfl)

theorem forkUid_keeps (q np : Slot) (s : PTable) : Keeps s (forkUid q np s) :=
  .modify s np (fun _ => rfl) (fun _ => rfl) (fun _ => rfl)

theorem forkGid_keeps (q np : Slot) (s : PTable) : Keeps s (forkGid q np s) :=
  .modify s np (fun _ => rfl) (fun _ => rfl) (fun _ => rfl)

theorem accountSlice_keeps (p : Slot) (s : PTable) : Keeps s (accountSlice p s) :=
  .modify s p (fun _ => rfl) (fun _ => rfl) (fun _ => rfl)

theorem sleepReturn_keeps (p : Slot) (s : PTable) : Keeps s (sleepReturn p s) :=
  .modify s p (fun _ => rfl) (fun _ => rfl) (fun _ => rfl)

/-! ## Giving up the CPU -/

theorem ident_chargeIn (b : Build) (t : Word) (pr : Proc) : ident (chargeIn b t pr) = ident pr := by
  cases b with
  | table => rfl
  | p3p4 =>
    simp only [chargeIn, charge]
    split <;> rfl

theorem modify_congr_ident (s : PTable) (p : Slot) {f g : Proc → Proc}
    (h : ∀ pr, ident (f pr) = ident (g pr)) : SameIdent (s.modify p g) (s.modify p f) := by
  refine ⟨fun x => ?_, rfl, rfl, rfl⟩
  by_cases hx : x = p
  · subst hx; simp [h]
  · simp [hx]

/-- What the scheduler finds in `p->next` of a process that has just called `sched`. -/
def Unlinked (b : Build) (q : Slot) (s : PTable) : Prop := b = .p3p4 → s.next q = none

variable {q p : Slot}

theorem yield_sim (h : TabInv b s) (hq : (s.proc q).state = .running) :
    ∃ s', yield b q s = .ok s' ∧ TabInv b s' ∧ SameIdent (s.setState q .runnable) s' ∧
      Unlinked b q s' := by
  have hident : SameIdent (s.setState q .runnable) (yielded b q s) :=
    modify_congr_ident s q (fun pr => ident_chargeIn b s.ticks { pr with state := .runnable })
  cases b with
  | table => exact ⟨_, rfl, trivial, hident, fun h => by simp at h⟩
  | p3p4 =>
    obtain ⟨L, hinv⟩ := h
    obtain ⟨s', L', hs, hinv', hcore, hn⟩ := yield_spec hinv hq
    exact ⟨s', hs, ⟨L', hinv'⟩, hident.trans (.of_core hcore), fun _ => hn⟩

theorem sleep_sim (h : TabInv b s) (hq : (s.proc q).state = .running) (chan : Chan) :
    ∃ s', sleep b chan q s = .ok s' ∧ TabInv b s' ∧
      SameIdent (s.modify q (fun pr => { pr with chan := chan, state := .sleeping })) s' ∧
      Unlinked b q s' := by
  have hident : SameIdent (s.modify q (fun pr => { pr with chan := chan, state := .sleeping }))
      (slept b chan q s) :=
    modify_congr_ident s q
      (fun pr => ident_chargeIn b s.ticks { pr with chan := chan, state := .sleeping })
  cases b with
  | table => exact ⟨_, rfl, trivial, hident, fun h => by simp at h⟩
  | p3p4 =>
    obtain ⟨L, hinv⟩ := h
    obtain ⟨s', hs, hinv', hcore, hn⟩ := sleep_spec hinv hq chan
    exact ⟨s', hs, ⟨_, hinv'⟩, hident.trans (.of_core hcore), fun _ => hn⟩

/-! ## `wakeup1` -/

/-- The processes asleep on `chan`. -/
def sleepers (chan : Chan) (s : PTable) : Finset Slot :=
  Finset.univ.filter (fun p => (s.proc p).state = .sleeping ∧ (s.proc p).chan = chan)

theorem mem_sleepers {chan : Chan} :
    p ∈ sleepers chan s ↔ (s.proc p).state = .sleeping ∧ (s.proc p).chan = chan := by
  simp [sleepers]

/-- The scan of the table wakes all sleepers on the channel. -/
theorem wakeup1Table_eq (chan : Chan) (s : PTable) :
    wakeup1Table chan s = wakeAll (sleepers chan s) s := by
  have hfold : ∀ (ps : List Slot) (s : PTable),
      ps.foldl (fun s p => if (s.proc p).state = .sleeping ∧ (s.proc p).chan = chan then
        s.setState p .runnable else s) s =
      { s with proc := fun p =>
          if p ∈ ps ∧ (s.proc p).state = .sleeping ∧ (s.proc p).chan = chan then
            { s.proc p with state := .runnable } else s.proc p } := by
    intro ps
    induction ps with
    | nil => intro s; simp
    | cons x ps ih =>
      intro s
      rw [List.foldl_cons, ih]
      split
      · next hx =>
          simp only [setState, modify, mk.injEq, and_true]
          funext p
          by_cases hp : p = x
          · subst hp; simp [hx]
          · simp [hp]
      · next hx =>
          simp only [mk.injEq, and_true]
          funext p
          by_cases hp : p = x
          · subst hp; simp [hx]
          · simp [hp]
  unfold wakeup1Table wakeAll
  rw [hfold]
  simp [mem_sleepers]

theorem wakeOne_eq (o : Option Slot) (s : PTable) : wakeOne o s = wakeAll o.toFinset s := by
  cases o with
  | none => simp [wakeOne, wakeAll]
  | some p =>
    simp only [wakeOne, setState, modify, wakeAll, mk.injEq, and_true]
    funext x
    by_cases hx : x = p
    · subst hx; simp
    · simp [hx]

theorem wakeup1_sim (h : TabInv b s) (chan : Chan) :
    ∃ W s', wakeup1 b chan s = .ok s' ∧ TabInv b s' ∧ W ⊆ sleepers chan s ∧
      SameIdent (wakeAll W s) s' := by
  cases b with
  | table =>
    refine ⟨_, _, rfl, trivial, Finset.Subset.refl _, ?_⟩
    rw [wakeup1Table_eq]
    exact .refl _
  | p3p4 =>
    obtain ⟨L, hinv⟩ := h
    obtain ⟨s', L', hs, hinv', hcore⟩ := wakeup1_core hinv chan
    rw [wakeOne_eq] at hcore
    refine ⟨_, s', hs, ⟨L', hinv'⟩, fun p hp => ?_, .of_core hcore⟩
    rw [Option.mem_toFinset] at hp
    exact mem_sleepers.2 (firstSleeper_state hinv hp)

/-! ## `exit` -/

theorem wakeAll_wakeAll (W W' : Finset Slot) (s : PTable) :
    wakeAll W (wakeAll W' s) = wakeAll (W ∪ W') s := by
  simp only [wakeAll, mk.injEq, and_true]
  funext p
  by_cases h : p ∈ W <;> by_cases h' : p ∈ W' <;> simp [h, h']

theorem adoptAll_adoptAll (R R' : Finset Slot) (s : PTable) :
    adoptAll R (adoptAll R' s) = adoptAll (R ∪ R') s := by
  simp only [adoptAll, mk.injEq, and_true]
  funext p
  by_cases h : p ∈ R <;> by_cases h' : p ∈ R' <;> simp [h, h']

theorem wakeAll_adoptAll (W R : Finset Slot) (s : PTable) :
    wakeAll W (adoptAll R s) = adoptAll R (wakeAll W s) := by
  simp only [adoptAll, wakeAll, mk.injEq, and_true]
  funext p
  by_cases h : p ∈ W <;> by_cases h' : p ∈ R <;> simp [h, h']

theorem reparent_eq (h : (s.proc p).parent = some q) :
    reparent q p s = adoptAll {p} s := by
  simp only [reparent, h, if_true, modify, adoptAll, mk.injEq, and_true]
  funext x
  by_cases hx : x = p
  · subst hx; simp
  · simp [hx]

/-- The slots of `ps` that are children of `q`. -/
def childrenIn (ps : List Slot) (q : Slot) (s : PTable) : Finset Slot :=
  Finset.univ.filter (fun p => p ∈ ps ∧ (s.proc p).parent = some q)

/-- The scan of the table hands every child to init, and wakes sleepers of one channel at most. -/
theorem abandonTable_eq (q : Slot) (s : PTable) :
    ∃ W ⊆ sleepers (.ofPtr s.initproc) s,
      abandonTable q s = adoptAll (childrenIn (List.finRange nproc) q s) (wakeAll W s) := by
  suffices hfold : ∀ (ps : List Slot) (s : PTable), ps.Nodup →
      ∃ W ⊆ sleepers (.ofPtr s.initproc) s,
        ps.foldl (fun s p =>
          if (s.proc p).parent = some q then
            let s := reparent q p s
            if (s.proc p).state = .zombie then wakeup1Table (.ofPtr s.initproc) s else s
          else s) s = adoptAll (childrenIn ps q s) (wakeAll W s) from
    hfold _ s (List.nodup_finRange nproc)
  intro ps
  induction ps with
  | nil =>
    intro s _
    exact ⟨∅, by simp, by simp [adoptAll, wakeAll, childrenIn]⟩
  | cons x ps ih =>
    intro s hnd
    rw [List.nodup_cons] at hnd
    rw [List.foldl_cons]
    by_cases hx : (s.proc x).parent = some q
    · -- the turn for a child of `q`: adopt it, and wake init if it is a zombie
      have hturn : ∃ W0 ⊆ sleepers (.ofPtr s.initproc) s,
          (let s := reparent q x s
           if (s.proc x).state = .zombie then wakeup1Table (.ofPtr s.initproc) s else s) =
            adoptAll {x} (wakeAll W0 s) := by
        rw [reparent_eq hx]
        simp only
        split
        · refine ⟨_, Finset.Subset.refl _, ?_⟩
          rw [wakeup1Table_eq, wakeAll_adoptAll]
          congr 2
          ext p
          simp [mem_sleepers]
        · exact ⟨∅, by simp, by simp [wakeAll]⟩
      obtain ⟨W0, hW0, hturn⟩ := hturn
      simp only [if_pos hx]
      rw [hturn]
      obtain ⟨W1, hW1, heq⟩ := ih (adoptAll {x} (wakeAll W0 s)) hnd.2
      refine ⟨W1 ∪ W0, Finset.union_subset (fun p hp => ?_) hW0, ?_⟩
      · obtain ⟨hst, hch⟩ := mem_sleepers.1 (hW1 hp)
        rw [mem_sleepers]
        by_cases hpw : p ∈ W0
        · simp [hpw] at hst
        · exact ⟨by simpa [hpw] using hst, by simpa using hch⟩
      · rw [heq, wakeAll_adoptAll, wakeAll_wakeAll, adoptAll_adoptAll]
        congr 1
        ext p
        by_cases hp : p = x
        · subst hp; simp [childrenIn, hx]
        · simp [childrenIn, hp]
    · simp only [if_neg hx]
      obtain ⟨W, hW, heq⟩ := ih s hnd.2
      refine ⟨W, hW, heq.trans ?_⟩
      congr 1
      ext p
      by_cases hp : p = x
      · subst hp; simp [childrenIn, hx]
      · simp [childrenIn, hp]

theorem abandonLive_eq (q : Slot) (s : PTable) :
    abandonLive q s = adoptAll (Finset.univ.filter (fun p =>
      ProcState.live (s.proc p).state ∧ (s.proc p).parent = some q)) s := by
  simp only [abandonLive, mapProc, adoptAll, mk.injEq, and_true]
  funext p
  simp [reparentLive]

/-- `exit` wakes some sleepers, hands some of the children of `q` to init, among them all live ones,
    and leaves `q` a zombie. -/
theorem exit_sim (h : TabInv b s) (hq : (s.proc q).state = .running) (hinit : s.initproc ≠ some q) :
    ∃ W R s', exit b q s = .ok s' ∧ TabInv b s' ∧ (∀ p ∈ W, (s.proc p).state = .sleeping) ∧
      (∀ p ∈ R, (s.proc p).parent = some q) ∧
      (∀ p, ProcState.live (s.proc p).state → (s.proc p).parent = some q → p ∈ R) ∧
      SameIdent ((adoptAll R (wakeAll W s)).setState q .zombie) s' ∧ Unlinked b q s' := by
  cases b with
  | table =>
    let W0 := sleepers (.ofPtr (s.proc q).parent) s
    let R := childrenIn (List.finRange nproc) q (wakeAll W0 s)
    obtain ⟨W, hW, heq⟩ := abandonTable_eq q (wakeAll W0 s)
    rw [wakeAll_wakeAll] at heq
    refine ⟨W ∪ W0, R, (adoptAll R (wakeAll (W ∪ W0) s)).setState q .zombie, ?_, trivial,
      fun p hp => ?_, fun p hp => ?_, fun p _ hp => ?_, .refl _, fun h => by simp at h⟩
    · simp only [exit, if_neg hinit, wakeup1, relist, wakeup1Table_eq, bind, Except.bind]
      rw [heq]
    · rcases Finset.mem_union.1 hp with hp | hp
      · have hst := (mem_sleepers.1 (hW hp)).1
        rw [wakeAll_state] at hst
        split at hst
        · exact absurd hst (by simp)
        · exact hst
      · exact (mem_sleepers.1 hp).1
    · simpa [R, childrenIn] using hp
    · simpa [R, childrenIn] using hp
  | p3p4 =>
    obtain ⟨L, hinv⟩ := h
    obtain ⟨s', L', hs, hinv', hcore, hn⟩ := exit_spec hinv hq hinit
    rw [exited, wakeOne_eq, abandonLive_eq] at hcore
    refine ⟨_, _, s', hs, ⟨L', hinv'⟩, fun p hp => ?_, fun p hp => ?_, fun p hl hp => ?_,
      .of_core hcore, fun _ => hn⟩
    · exact (firstSleeper_state hinv (Option.mem_toFinset.1 hp)).1
    · simpa using (Finset.mem_filter.1 hp).2.2
    · rw [Finset.mem_filter]
      refine ⟨Finset.mem_univ p, ?_, by simpa using hp⟩
      rw [wakeAll_state]
      split
      · simp [ProcState.live]
      · exact hl

/-! ## `wait` and `kill` -/

theorem wait_sim (h : TabInv b s) (hq : (s.proc q).state = .running) :
    (∃ p pid s', wait b q s = .ok (.reaped pid, s') ∧ TabInv b s' ∧
      (s.proc p).state = .zombie ∧ (s.proc p).parent = some q ∧ SameIdent (reaped p s) s') ∨
    wait b q s = .ok (.noChildren, s) ∨ (∃ s', wait b q s = .ok (.sleeps, s') ∧ TabInv b s' ∧
      SameIdent (s.modify q (fun pr => { pr with chan := .proc q, state := .sleeping })) s' ∧
      Unlinked b q s') := by
  obtain ⟨s1, hs1, hinv1, hident, hun⟩ := sleep_sim h hq (.proc q)
  cases b with
  | table =>
    unfold wait
    simp only [findZombie, bind, Except.bind]
    split
    · next p hf =>
        have hp := List.find?_some hf
        simp only [Bool.decide_and, Bool.and_eq_true, decide_eq_true_eq] at hp
        refine Or.inl ⟨p, (s.proc p).pid, reaped p s, ?_, trivial, hp.2, hp.1, .refl _⟩
        simp [reap, relist, reaped, setState, modify_modify, bind, Except.bind]
    · refine Or.inr ?_
      simp only [haveKids]
      split
      · exact Or.inl rfl
      · exact Or.inr ⟨s1, by simp [hs1], trivial, hident, hun⟩
  | p3p4 =>
    obtain ⟨L, hinv⟩ := h
    rcases wait_cases hinv hq with ⟨p, s', L', hs, hinv', hst, hpar, hcore⟩ | hs |
      ⟨s', L', hs, hinv', hcore, hn⟩
    · exact Or.inl ⟨p, _, s', hs, ⟨L', hinv'⟩, hst, hpar, .of_core hcore⟩
    · exact Or.inr (Or.inl hs)
    · refine Or.inr (Or.inr ⟨s', hs, ⟨L', hinv'⟩, ?_, fun _ => hn⟩)
      exact (modify_congr_ident s q (fun pr => ident_chargeIn .p3p4 s.ticks
        { pr with chan := .proc q, state := .sleeping })).trans (.of_core hcore)

/-- `kill` marks the slot it has found and wakes the process if it sleeps. -/
theorem setKilled_wake (p : Slot) (s : PTable) :
    (if ((setKilled p s).proc p).state = .sleeping then (setKilled p s).setState p .runnable
      else setKilled p s) = s.modify p killProc := by
  by_cases hst : (s.proc p).state = .sleeping
  · simp [setKilled, setState, hst, modify, killProc]
  · simp [setKilled, hst, modify, killProc]

theorem kill_sim (h : TabInv b s) (pid : Word) :
    ∃ r s', kill b pid s = .ok (r, s') ∧ TabInv b s' ∧
      (s' = s ∨ ∃ p, SameIdent (s.modify p killProc) s') := by
  cases b with
  | table =>
    refine ⟨(killTable pid s).1, (killTable pid s).2, rfl, trivial, ?_⟩
    unfold killTable
    split
    · exact Or.inl rfl
    · next p _ =>
        refine Or.inr ⟨p, ?_⟩
        simp only [setKilled_wake]
        exact .refl _
  | p3p4 =>
    obtain ⟨L, hinv⟩ := h
    obtain ⟨r, s', L', hs, hinv', heff⟩ := kill_spec hinv pid
    refine ⟨r, s', hs, ⟨L', hinv'⟩, ?_⟩
    rcases heff with heq | ⟨p, hcore⟩
    · exact Or.inl heq
    · exact Or.inr ⟨p, .of_core hcore⟩

/-! ## Dispatch -/

/-- Whether the scheduler of a build has its loops there. -/
def Cursor.fits (b : Build) : Cursor → Prop
  | .ready _ => b = .p3p4
  | .table => b = .table

theorem dispatch_sim (h : TabInv b s) {cur : Cursor} (hcur : Cursor.fits b cur)
    (hready : ∀ i, cur = .ready i → home (s.proc p) = some (.ready i)) :
    ∃ s', dispatch cur p s = .ok s' ∧ TabInv b s' ∧ SameIdent (dispatched p s) s' := by
  cases cur with
  | table =>
    obtain rfl : b = .table := hcur
    refine ⟨dispatched p s, ?_, trivial, .refl _⟩
    simp [dispatch, dispatched, setState, modify_modify, bind, Except.bind]
  | ready i =>
    obtain rfl : b = .p3p4 := hcur
    obtain ⟨L, hinv⟩ := h
    obtain ⟨s', L', hs, hinv', hcore⟩ := dispatch_spec hinv (hready i rfl)
    exact ⟨s', hs, ⟨L', hinv'⟩, .of_core hcore⟩

/-! ## The first process -/

theorem setState_self {st : ProcState} (h : (s.proc p).state = st) :
    s.setState p st = s := by
  subst h
  simp [setState, modify]

theorem rep_zero (ticks : Word) : Rep (zero ticks) (fun _ => []) (fun _ => none) :=
  ⟨fun _ => ⟨rfl, fun h => absurd rfl h⟩, by simp⟩

theorem initFreeList_foldlM (ps : List Slot) : ∀ {s : PTable} {L : ListId → List Slot}
    {w : Slot → Option ListId}, Rep s L w → ps.Nodup → (∀ p ∈ ps, w p = none) →
    (∀ p, (s.proc p).state = .unused) → ∃ s', ps.foldlM (fun s p => do
        let (_, s) ← stateListAdd .free p (s.setState p .unused)
        .ok s) s = (.ok s' : Except Panic PTable) ∧
      Rep s' (update L .free (L .free ++ ps))
        (fun p => if p ∈ ps then some .free else w p) ∧ s'.core = s.core := by
  induction ps with
  | nil =>
    intro s L w h _ _ _
    exact ⟨s, rfl, by simpa using h, rfl⟩
  | cons x ps ih =>
    intro s L w h hnd hw hst
    rw [List.nodup_cons] at hnd
    obtain ⟨s1, hadd, hrep1, hcore1, _⟩ := stateListAdd_spec h .free (hw x List.mem_cons_self)
    have hw1 : ∀ p ∈ ps, update w x (some .free) p = none := by
      intro p hp
      have hne : p ≠ x := fun he => hnd.1 (he ▸ hp)
      simpa [hne] using hw p (List.mem_cons_of_mem _ hp)
    have hst1 : ∀ p, (s1.proc p).state = .unused := fun p => by
      rw [state_of_core hcore1]
      exact hst p
    obtain ⟨s2, hfold, hrep2, hcore2⟩ := ih hrep1 hnd.2 hw1 hst1
    refine ⟨s2, ?_, ?_, hcore2.trans hcore1⟩
    · simp only [List.foldlM_cons, setState_self (hst x), hadd, bind, Except.bind]
      exact hfold
    · convert hrep2 using 1
      · simp
      · funext p
        by_cases hp : p = x
        · subst hp; simp [hnd.1]
        · simp [hp]

/-- `initFreeList` puts every slot on the free list. -/
theorem initFreeList_spec (ticks : Word) :
    ∃ s L, initFreeList (initProcessLists (zero ticks)) = .ok s ∧ Inv s L ∧
      s.core = (zero ticks).core ∧ L .free = List.finRange nproc := by
  obtain ⟨s, hs, hrep, hcore⟩ := initFreeList_foldlM (List.finRange nproc) (rep_zero ticks)
    (List.nodup_finRange nproc) (fun _ _ => rfl) (fun _ => rfl)
  refine ⟨s, update (fun _ => []) .free ([] ++ List.finRange nproc), hs,
    ⟨?_, fun p => ?_⟩, hcore, by rw [update_self]; rfl⟩
  · convert hrep using 1
    funext p
    have hst : (s.proc p).state = .unused := state_of_core hcore p
    simp [hst]
  · have hpr : (s.proc p).priority = 0 := priority_of_core hcore p
    omega

/-- The table when the first process has been made. -/
def booted (ticks : Word) (p : Slot) : PTable :=
  { allocated p (zero ticks) with initproc := some p }.modify p
    (fun pr => { pr with sz := 4096, name := "initcode", state := .runnable, uid := 0, gid := 0 })

theorem core_allocated_congr {s s' : PTable} (h : s'.core = s.core) (p : Slot) :
    (allocated p s').core = (allocated p s).core := by
  have hmod := core_modify_congr h p
    (f := fun pr => allocFields s.nextpid s.ticks { pr with state := .embryo }) (fun _ _ => rfl)
  unfold allocated
  rw [nextpid_of_core h, ticks_of_core h]
  exact congrArg (fun t : PTable => { t with nextpid := s.nextpid + 1 }) hmod

/-- The first table of the `CS333_P3P4` build, where also the time of the first promotion is set. -/
theorem userinit_p3p4 (ticks : Word) :
    ∃ s, userinit .p3p4 ticks = .ok s ∧ TabInv .p3p4 s ∧
      s.core = { booted ticks 0 with promoteAtTime := ticks + ticksToPromote }.core := by
  obtain ⟨s0, L0, hinit, hinv0, hcore0, hfree⟩ := initFreeList_spec ticks
  let z : PTable := { zero ticks with promoteAtTime := ticks + ticksToPromote }
  let t0 : PTable := { s0 with promoteAtTime := s0.ticks + ticksToPromote }
  have hinvt0 : Inv t0 L0 := hinv0.congr rfl rfl
  have hcoret0 : t0.core = z.core := by
    show { s0.core with promoteAtTime := s0.ticks + ticksToPromote } = _
    rw [hcore0, ticks_of_core hcore0]
    rfl
  obtain ⟨rest, hfree0⟩ : ∃ rest, L0 .free = 0 :: rest :=
    ⟨_, by rw [hfree, List.finRange_succ]⟩
  obtain ⟨s1, halloc, hinv1, hcore1⟩ := allocproc_some hinvt0 hfree0
  have hcore1' : s1.core = (allocated 0 z).core := hcore1.trans (core_allocated_congr hcoret0 0)
  let t1 : PTable := { s1 with initproc := some 0 }
  have hinvt1 : Inv t1 (move L0 .free .embryo 0) := hinv1.congr rfl rfl
  have hcoret1 : t1.core = { allocated 0 z with initproc := some 0 }.core :=
    congrArg (fun t : PTable => { t with initproc := some 0 }) hcore1'
  have hst1 : (t1.proc 0).state = .embryo := by
    rw [state_of_core hcoret1]
    simp [allocated, allocFields]
  have hpr1 : (t1.proc 0).priority = 0 := by
    rw [priority_of_core hcoret1]
    simp [allocated, allocFields]
  let f : Proc → Proc := fun pr => { pr with sz := 4096, name := "initcode", state := .runnable }
  obtain ⟨s2, hrel, hinv2, hcore2, _⟩ := relistReady_spec hinvt1 (p := 0) (f := f)
    (l := .embryo) (i := 0) (fun _ => rfl) (by simpa using hst1)
    (by rw [home_eq_ready]; exact ⟨rfl, hpr1⟩) (by simp)
  let g : Proc → Proc := fun pr => { pr with uid := 0, gid := 0 }
  have hkeeps : Keeps s2 (s2.modify 0 g) :=
    .modify s2 0 (fun _ => rfl) (fun _ => rfl) (fun _ => rfl)
  have htab : TabInv .p3p4 s2 := ⟨_, hinv2⟩
  refine ⟨s2.modify 0 g, ?_, htab.of_keeps hkeeps, ?_⟩
  · have hu : userinit .p3p4 ticks = (do
        let s ← relistReady .p3p4 .embryo 0 (t1.modify 0 f)
        .ok (s.modify 0 g)) := by
      simp only [userinit, hinit, bind, Except.bind]
      rw [show allocproc .p3p4 { s0 with promoteAtTime := s0.ticks + ticksToPromote } =
        .ok (some 0, s1) from halloc]
    rw [hu, hrel]
    rfl
  · have hf := hcore2.trans (core_modify_congr hcoret1 0 (f := f) (fun _ _ => rfl))
    have hg := core_modify_congr hf 0 (f := g) (fun _ _ => rfl)
    rw [modify_modify] at hg
    exact hg

theorem userinit_sim (b : Build) (ticks : Word) :
    ∃ p s, userinit b ticks = .ok s ∧ TabInv b s ∧ SameIdent (booted ticks p) s := by
  cases b with
  | table =>
    have hfind : findUnused .table (zero ticks) = some 0 := rfl
    refine ⟨0, booted ticks 0, ?_, trivial, .refl _⟩
    simp [userinit, allocproc, hfind, relist, relistReady, setState, booted, allocated,
      modify, bind, Except.bind]
  | p3p4 =>
    obtain ⟨s, hs, htab, hcore⟩ := userinit_p3p4 ticks
    have hsame := SameIdent.of_core hcore
    exact ⟨0, s, hs, htab, hsame.proc, hsame.initproc, hsame.nextpid, hsame.ticks⟩

end PTable

end Xv6
