import Xv6.Proc.Inv

set_option autoImplicit false

/-! # What the sections do to the lists and to the table (`CS333_P3P4`)

One lemma per section: from a table with the state-list invariant the section does not panic, the
invariant holds again, and `core` gives the rest of its effect as plain assignments. The lists after
the section are given too where later results depend on the order of their members. -/

namespace Xv6

open LinkedList

namespace PTable

variable {s : PTable} {L : ListId → List Slot}

/-- The readiness level of a slot whose priority is in range. -/
def prioOf (h : Inv s L) (p : Slot) : Prio := ⟨(s.proc p).priority, Nat.lt_succ_of_le (h.prio p)⟩

/-! ## Process creation -/

/-- The table after `allocproc` has taken the slot `p`. -/
def allocated (p : Slot) (s : PTable) : PTable :=
  { s.modify p (fun pr => allocFields s.nextpid s.ticks { pr with state := .embryo }) with
    nextpid := s.nextpid + 1 }

theorem allocproc_none (h : Inv s L) (hL : L .free = []) :
    allocproc .p3p4 s = .ok (none, s) := by
  simp [allocproc, findUnused, h.head_eq, hL]

variable {p q : Slot}

theorem allocproc_some (h : Inv s L) {rest : List Slot} (hL : L .free = p :: rest) :
    ∃ s', allocproc .p3p4 s = .ok (some p, s') ∧ Inv s' (move L .free .embryo p) ∧
      s'.core = (allocated p s).core := by
  have hp : home (s.proc p) = some .free := (h.mem_iff p .free).1 (by rw [hL]; simp)
  obtain ⟨s1, hrel, hinv, hcore, _⟩ := relist_spec h p
    (fun pr => { pr with state := .embryo }) .free .embryo .embryo (fun _ => rfl) hp
    (by simp) (by simp) (h.prio p) rfl
  have hfree : findUnused .p3p4 s = some p := by simp [findUnused, h.head_eq, hL]
  refine ⟨{ s1.modify p (allocFields s1.nextpid s1.ticks) with nextpid := s1.nextpid + 1 },
    ?_, ?_, ?_⟩
  · simp [allocproc, hfree, setState, hrel, bind, Except.bind]
  · have hst : (s1.proc p).state = .embryo := by
      rw [state_of_core hcore]
      simp
    have hmod := hinv.modify p (f := allocFields s1.nextpid s1.ticks) (fun _ => rfl)
      (by simp [home, allocFields, hst]) (Nat.zero_le _)
    exact hmod.congr rfl rfl
  · have hn : s1.nextpid = s.nextpid := (nextpid_of_core hcore).trans rfl
    have ht : s1.ticks = s.ticks := (ticks_of_core hcore).trans rfl
    have hc := core_modify_congr hcore p (f := allocFields s.nextpid s.ticks) (fun _ _ => rfl)
    rw [modify_modify] at hc
    rw [hn, ht]
    unfold allocated
    unfold core at hc ⊢
    injection hc with h1 h2 h3 h4 h5 h6
    simp only [mk.injEq]
    exact ⟨h1, trivial, h3, h4, trivial, h6⟩

theorem rollback_spec (h : Inv s L) {np : Slot} (hnp : (s.proc np).state = .embryo) :
    ∃ s', rollback .p3p4 np s = .ok s' ∧ Inv s' (move L .embryo .free np) ∧
      s'.core = (s.setState np .unused).core := by
  obtain ⟨s', hrel, hinv, hcore, _⟩ := relist_spec h np
    (fun pr => { pr with state := .unused }) .embryo .free .unused
    (fun _ => rfl) (by simpa using hnp) (by simp) (by simp) (h.prio np) rfl
  exact ⟨s', hrel, hinv, hcore⟩

theorem forkPublish_spec (h : Inv s L) {np : Slot} (hnp : (s.proc np).state = .embryo) :
    ∃ s', forkPublish .p3p4 np s = .ok s' ∧
      Inv s' (move L .embryo (.ready (prioOf h np)) np) ∧
      s'.core = (s.setState np .runnable).core := by
  obtain ⟨s', hrel, hinv, hcore, _⟩ := relistReady_spec h (p := np)
    (f := fun pr => { pr with state := .runnable }) (l := .embryo) (i := prioOf h np)
    (fun _ => rfl) (by simpa using hnp) (by simp [prioOf]) (by simp)
  exact ⟨s', hrel, hinv, hcore⟩

/-! ## Giving up the CPU -/

@[simp] theorem charge_next (t : Word) (pr : Proc) : (charge t pr).next = pr.next := by
  simp only [charge]
  split <;> rfl

@[simp] theorem charge_state (t : Word) (pr : Proc) : (charge t pr).state = pr.state := by
  simp only [charge]
  split <;> rfl

theorem charge_priority_le {t : Word} {pr : Proc} (h : pr.priority ≤ maxPrio) :
    (charge t pr).priority ≤ maxPrio := by
  simp only [charge]
  split
  · show (if pr.priority < maxPrio then pr.priority + 1 else pr.priority) ≤ maxPrio
    split <;> omega
  · exact h

/-- The slot `q` after `yield`. -/
def yielded (b : Build) (q : Slot) (s : PTable) : PTable :=
  s.modify q (fun pr => chargeIn b s.ticks { pr with state := .runnable })

theorem yield_spec (h : Inv s L) (hq : (s.proc q).state = .running) :
    ∃ s' L', yield .p3p4 q s = .ok s' ∧ Inv s' L' ∧ s'.core = (yielded .p3p4 q s).core ∧
      s'.next q = none := by
  let f : Proc → Proc := fun pr => chargeIn .p3p4 s.ticks { pr with state := .runnable }
  have hf : ∀ pr, (f pr).next = pr.next := fun pr => charge_next ..
  have hfst : (f (s.proc q)).state = .runnable := charge_state ..
  have hfpr : (f (s.proc q)).priority ≤ maxPrio := charge_priority_le (h.prio q)
  let i : Prio := ⟨(f (s.proc q)).priority, Nat.lt_succ_of_le hfpr⟩
  obtain ⟨s1, hrm, hrep1, hcore1⟩ := stateListRemove_spec (h.rep.modify q hf) (l := .running)
    (p := q) (by simpa using hq)
  obtain ⟨s2, hadd, hrep2, hcore2, hn⟩ := stateListAdd_spec hrep1 (.ready i) (p := q) (by simp)
  have hcore : s2.core = (s.modify q f).core := hcore2.trans hcore1
  refine ⟨s2, move L .running (.ready i) q, ?_, ?_, hcore, hn⟩
  · have hpr : readyAt (s1.proc q).priority = .ok (.ready i) := by
      rw [priority_of_core hcore1]
      simpa [i] using readyAt_of_le hfpr
    have hst : (s2.proc q).state = .runnable := by
      rw [state_of_core hcore]
      simpa using hfst
    unfold yield
    rw [show s.modify q _ = s.modify q f from rfl]
    simp [hrm, hpr, hadd, assertState, hst, bind, Except.bind]
  · refine h.of_move ?_ hcore ?_ hfpr
    · simpa [move] using hrep2
    · rw [home_eq_ready]
      exact ⟨hfst, rfl⟩

/-- The slot `q` after `sleep(chan)`. -/
def slept (b : Build) (chan : Chan) (q : Slot) (s : PTable) : PTable :=
  s.modify q (fun pr => chargeIn b s.ticks { pr with chan := chan, state := .sleeping })

theorem sleep_spec (h : Inv s L) (hq : (s.proc q).state = .running) (chan : Chan) :
    ∃ s', sleep .p3p4 chan q s = .ok s' ∧ Inv s' (move L .running .sleep q) ∧
      s'.core = (slept .p3p4 chan q s).core ∧ s'.next q = none :=
  relist_spec h q _ .running .sleep .sleeping (fun pr => charge_next ..) (by simpa using hq)
    (by rw [home_eq_sleep]; exact charge_state ..) (by simp) (charge_priority_le (h.prio q))
    (charge_state ..)

/-! ## `wakeup1` -/

/-- A process that `wakeup1` has woken has no successor. -/
theorem wakeup1Body_next (h : Inv s L) {chan : Chan} (hp : p ∈ L .sleep)
    (hchan : (s.proc p).chan = chan) {s' : PTable} (hbody : wakeup1Body chan p s = .ok s') :
    s'.next p = none := by
  have hsl : (s.proc p).state = .sleeping := by
    rw [← home_eq_sleep]
    exact (h.mem_iff p .sleep).1 hp
  obtain ⟨s1, hrel, _, _, hn⟩ := relistReady_spec h (p := p)
    (f := fun pr => { pr with state := .runnable }) (l := .sleep) (i := prioOf h p)
    (fun _ => rfl) (by simpa using hsl) (by simp [prioOf]) (by simp)
  have heq : relistReady .p3p4 .sleep p (s.setState p .runnable) = .ok s' := by
    rw [← hbody]
    simp [wakeup1Body, hchan]
  rw [setState, hrel] at heq
  obtain rfl := Except.ok.inj heq
  exact hn

/-- The loop of `wakeup1` leaves the sleep list with the first process it wakes. -/
theorem wakeup1List_eq (h : Inv s L) (chan : Chan) :
    wakeup1List chan s =
      match (L .sleep).find? (fun p => (s.proc p).chan = chan) with
      | none => .ok s
      | some p => relistReady .p3p4 .sleep p (s.setState p .runnable) := by
  have hwalk := walk_eq_first PTable.next (wakeup1Body chan) Panic.hang
    (fun p => decide ((s.proc p).chan = chan)) s
    (fun p hp => if_neg (of_decide_eq_false hp)) fuel (s.pLists .sleep).head (L .sleep)
    (fun p hp htest s' hbody => wakeup1Body_next h hp (of_decide_eq_true htest) hbody)
    (h.rep.chain .sleep) (h.rep.length_le .sleep)
  unfold wakeup1List forList
  rw [hwalk]
  cases hfind : (L .sleep).find? (fun p => decide ((s.proc p).chan = chan)) with
  | none => rfl
  | some p =>
    have htest := List.find?_some hfind
    simp only [decide_eq_true_eq] at htest
    simp [wakeup1Body, htest]

/-- `wakeup1` wakes the first sleeper on `chan` in the order of the sleep list, if there is one. -/
theorem wakeup1List_spec (h : Inv s L) (chan : Chan) :
    ∃ s', wakeup1List chan s = .ok s' ∧
      match (L .sleep).find? (fun p => (s.proc p).chan = chan) with
      | none => s' = s
      | some p => Inv s' (move L .sleep (.ready (prioOf h p)) p) ∧
          s'.core = (s.setState p .runnable).core := by
  rw [wakeup1List_eq h chan]
  cases hfind : (L .sleep).find? (fun p => decide ((s.proc p).chan = chan)) with
  | none => exact ⟨s, rfl, rfl⟩
  | some p =>
    have hsl : home (s.proc p) = some .sleep :=
      (h.mem_iff p .sleep).1 (List.mem_of_find?_eq_some hfind)
    obtain ⟨s1, hrel, hinv, hcore, _⟩ := relistReady_spec h (p := p)
      (f := fun pr => { pr with state := .runnable }) (l := .sleep) (i := prioOf h p)
      (fun _ => rfl) hsl (by simp [prioOf]) (by simp)
    exact ⟨s1, hrel, hinv, hcore⟩

/-! ## `exit` -/

/-- The states whose lists `exit` and `wait` search for children. -/
def ProcState.live (st : ProcState) : Prop := st ≠ .unused ∧ st ≠ .zombie

instance (st : ProcState) : Decidable (ProcState.live st) := inferInstanceAs (Decidable (_ ∧ _))

theorem mem_childLists (h : Inv s L) (p : Slot) :
    p ∈ childLists.flatMap L ↔ ProcState.live (s.proc p).state := by
  simp only [List.mem_flatMap, h.mem_iff, childLists, readyLists, List.mem_append, List.mem_map,
    List.mem_cons, List.not_mem_nil, or_false, ProcState.live]
  constructor
  · rintro ⟨l, hl | hl, hhome⟩
    · obtain ⟨i, _, rfl⟩ := hl
      simp [(home_eq_ready.1 hhome).1]
    · rcases hl with rfl | rfl | rfl
      · simp [home_eq_sleep.1 hhome]
      · simp [home_eq_embryo.1 hhome]
      · simp [home_eq_running.1 hhome]
  · rintro ⟨hunused, hzombie⟩
    cases hst : (s.proc p).state with
    | unused => exact absurd hst hunused
    | zombie => exact absurd hst hzombie
    | embryo => exact ⟨.embryo, by simp, by simpa using hst⟩
    | sleeping => exact ⟨.sleep, by simp, by simpa using hst⟩
    | running => exact ⟨.running, by simp, by simpa using hst⟩
    | runnable =>
      refine ⟨.ready (prioOf h p), Or.inl ⟨_, List.mem_finRange _, rfl⟩, ?_⟩
      rw [home_eq_ready]
      exact ⟨hst, rfl⟩

/-- A live child of `q` is handed to `init`. -/
def reparentLive (q : Slot) (init : Option Slot) (pr : Proc) : Proc :=
  if ProcState.live pr.state ∧ pr.parent = some q then { pr with parent := init } else pr

/-- The live children of `q` handed to init. -/
def abandonLive (q : Slot) (s : PTable) : PTable := s.mapProc (reparentLive q s.initproc)

@[simp] theorem reparentLive_state (q : Slot) (init : Option Slot) (pr : Proc) :
    (reparentLive q init pr).state = pr.state := by
  unfold reparentLive
  split <;> rfl

theorem reparent_initproc (q p : Slot) (s : PTable) : (reparent q p s).initproc = s.initproc := by
  unfold reparent
  split <;> rfl

theorem foldl_reparent (q : Slot) (ps : List Slot) :
    ∀ s : PTable, ps.foldl (fun s p => reparent q p s) s =
      { s with proc := fun p =>
          if p ∈ ps ∧ (s.proc p).parent = some q then { s.proc p with parent := s.initproc }
          else s.proc p } := by
  induction ps with
  | nil => intro s; simp
  | cons x ps ih =>
    intro s
    rw [List.foldl_cons, ih, reparent_initproc]
    unfold reparent
    split
    · next hx =>
        simp only [modify, mk.injEq, and_true]
        funext p
        by_cases hp : p = x
        · subst hp
          by_cases hi : s.initproc = some q <;> simp [hx, hi]
        · simp [hp]
    · next hx =>
        simp only [mk.injEq, and_true]
        funext p
        by_cases hp : p = x
        · subst hp
          simp [hx]
        · simp [hp]

theorem reparent_next (q p : Slot) (s : PTable) : (reparent q p s).next = s.next := by
  unfold reparent
  split
  · funext x
    by_cases hx : x = p
    · subst hx; simp [next]
    · simp [next, hx]
  · rfl

theorem Inv.reparent (h : Inv s L) (q p : Slot) : Inv (reparent q p s) L := by
  unfold PTable.reparent
  split
  · exact h.modify p (fun _ => rfl) (home_congr rfl rfl) (h.prio p)
  · exact h

theorem Inv.foldl_reparent (h : Inv s L) (q : Slot) (ps : List Slot) :
    Inv (ps.foldl (fun s p => PTable.reparent q p s) s) L := by
  induction ps generalizing s with
  | nil => exact h
  | cons x ps ih => exact ih (h.reparent q x)

theorem foldlM_ok {α β ε : Type} (f : β → α → β) (xs : List α) (b : β) :
    xs.foldlM (fun b a => (.ok (f b a) : Except ε β)) b = .ok (xs.foldl f b) := by
  induction xs generalizing b with
  | nil => rfl
  | cons x xs ih => exact ih (f b x)

theorem abandonList_foldl (h : Inv s L) (q : Slot) (ls : List ListId) :
    ls.foldlM (fun s l => forList l (fun p s => .ok (PTable.reparent q p s)) s) s =
      (.ok ((ls.flatMap L).foldl (fun s p => PTable.reparent q p s) s) : Except Panic PTable) := by
  induction ls generalizing s with
  | nil => rfl
  | cons l ls ih =>
    rw [List.foldlM_cons, forList_eq_foldlM h l, foldlM_ok, List.flatMap_cons, List.foldl_append]
    · exact ih (h.foldl_reparent q (L l))
    · intro p s s' hs
      obtain rfl := Except.ok.inj hs
      exact reparent_next q p s

theorem abandonList_eq (h : Inv s L) (q : Slot) : abandonList q s = .ok (abandonLive q s) := by
  unfold abandonList
  rw [abandonList_foldl h, PTable.foldl_reparent]
  simp only [mem_childLists h]
  rfl

theorem Inv.abandonLive (h : Inv s L) (q : Slot) : Inv (abandonLive q s) L := by
  have hfold := h.foldl_reparent q (childLists.flatMap L)
  rw [PTable.foldl_reparent] at hfold
  simp only [mem_childLists h] at hfold
  exact hfold

theorem core_abandonLive_congr {s s' : PTable} (h : s'.core = s.core) (q : Slot) :
    (abandonLive q s').core = (abandonLive q s).core := by
  unfold abandonLive
  rw [initproc_of_core h]
  refine core_mapProc_congr h (fun pr v => ?_)
  unfold reparentLive
  split <;> rfl

/-- The sleeper that `wakeup1(chan)` wakes. -/
def firstSleeper (L : ListId → List Slot) (chan : Chan) (s : PTable) : Option Slot :=
  (L .sleep).find? (fun p => (s.proc p).chan = chan)

/-- Make at most one process runnable. -/
def wakeOne (o : Option Slot) (s : PTable) : PTable :=
  match o with
  | none => s
  | some p => s.setState p .runnable

theorem firstSleeper_state (h : Inv s L) {chan : Chan} (hp : firstSleeper L chan s = some p) :
    (s.proc p).state = .sleeping ∧ (s.proc p).chan = chan := by
  refine ⟨?_, ?_⟩
  · rw [← home_eq_sleep]
    exact (h.mem_iff p .sleep).1 (List.mem_of_find?_eq_some hp)
  · simpa using List.find?_some hp

theorem wakeup1_core (h : Inv s L) (chan : Chan) :
    ∃ s' L', wakeup1 .p3p4 chan s = .ok s' ∧ Inv s' L' ∧
      s'.core = (wakeOne (firstSleeper L chan s) s).core := by
  obtain ⟨s', hw, hspec⟩ := wakeup1List_spec h chan
  unfold firstSleeper
  cases hf : (L .sleep).find? (fun p => decide ((s.proc p).chan = chan)) with
  | none =>
    rw [hf] at hspec
    exact ⟨s', L, hw, by rw [hspec]; exact h, by rw [hspec]; rfl⟩
  | some p =>
    rw [hf] at hspec
    exact ⟨s', _, hw, hspec.1, hspec.2⟩

/-- The table after `exit` by `q`, where `o` is the process that `wakeup1(parent)` woke. -/
def exited (q : Slot) (o : Option Slot) (s : PTable) : PTable :=
  (abandonLive q (wakeOne o s)).setState q .zombie

theorem wakeOne_state_of_ne {o : Option Slot} (hq : o ≠ some q) :
    ((wakeOne o s).proc q).state = (s.proc q).state := by
  cases o with
  | none => rfl
  | some p =>
    have hne : q ≠ p := fun he => hq (by rw [he])
    simp [wakeOne, setState, hne]

theorem exit_spec (h : Inv s L) (hq : (s.proc q).state = .running) (hinit : s.initproc ≠ some q) :
    ∃ s' L', exit .p3p4 q s = .ok s' ∧ Inv s' L' ∧
      s'.core = (exited q (firstSleeper L (.ofPtr (s.proc q).parent) s) s).core ∧
      s'.next q = none := by
  obtain ⟨s1, L1, hw, hinv1, hcore1⟩ := wakeup1_core h (.ofPtr (s.proc q).parent)
  have hinv2 := hinv1.abandonLive q
  have hne : firstSleeper L (.ofPtr (s.proc q).parent) s ≠ some q := by
    intro he
    have := (firstSleeper_state h he).1
    rw [hq] at this
    exact absurd this (by simp)
  have hq2 : ((abandonLive q s1).proc q).state = .running := by
    have hs1 : (s1.proc q).state = .running := by
      rw [state_of_core hcore1, wakeOne_state_of_ne hne, hq]
    simpa [abandonLive, mapProc] using hs1
  obtain ⟨s', hrel, hinv', hcore', hn⟩ := relist_spec hinv2 q
    (fun pr => { pr with state := .zombie }) .running .zombie .zombie
    (fun _ => rfl) (by simpa using hq2) (by simp) (by simp) (hinv2.prio q) rfl
  refine ⟨s', _, ?_, hinv', ?_, hn⟩
  · simp [exit, hinit, hw, abandonList_eq hinv1, setState, hrel, bind, Except.bind]
  · rw [hcore']
    exact core_modify_congr (core_abandonLive_congr hcore1 q) q (fun _ _ => rfl)

/-! ## `wait` -/

/-- The slot `p` freed by `wait`. -/
def reaped (p : Slot) (s : PTable) : PTable :=
  s.modify p (fun pr => reapFields { pr with state := .unused })

theorem reap_spec (h : Inv s L) (hp : (s.proc p).state = .zombie) :
    ∃ s', reap .p3p4 p s = .ok s' ∧ Inv s' (move L .zombie .free p) ∧
      s'.core = (reaped p s).core := by
  obtain ⟨s1, hrel, hinv, hcore, _⟩ := relist_spec h p
    (fun pr => { pr with state := .unused }) .zombie .free .unused
    (fun _ => rfl) (by simpa using hp) (by simp) (by simp) (h.prio p) rfl
  refine ⟨s1.modify p reapFields, ?_, ?_, ?_⟩
  · simp [reap, setState, hrel, bind, Except.bind]
  · exact hinv.modify p (fun _ => rfl) (home_congr rfl rfl) (hinv.prio p)
  · have hc := core_modify_congr hcore p (f := reapFields) (fun _ _ => rfl)
    rwa [modify_modify] at hc

/-- One pass of `wait`: it reaps a zombie child, returns, or goes to sleep on its own slot. -/
theorem wait_cases (h : Inv s L) (hq : (s.proc q).state = .running) :
    (∃ p s' L', wait .p3p4 q s = .ok (.reaped (s.proc p).pid, s') ∧ Inv s' L' ∧
      (s.proc p).state = .zombie ∧ (s.proc p).parent = some q ∧ s'.core = (reaped p s).core) ∨
    wait .p3p4 q s = .ok (.noChildren, s) ∨
    (∃ s' L', wait .p3p4 q s = .ok (.sleeps, s') ∧ Inv s' L' ∧
      s'.core = (slept .p3p4 (.proc q) q s).core ∧ s'.next q = none) := by
  unfold wait
  simp only [findZombie, findList_eq h]
  cases hz : (L .zombie).find? (fun p => decide ((s.proc p).parent = some q)) with
  | some p =>
    have hst : (s.proc p).state = .zombie := by
      rw [← home_eq_zombie]
      exact (h.mem_iff p .zombie).1 (List.mem_of_find?_eq_some hz)
    have hpar : (s.proc p).parent = some q := by simpa using List.find?_some hz
    obtain ⟨s', hreap, hinv, hcore⟩ := reap_spec h hst
    refine Or.inl ⟨p, s', _, ?_, hinv, hst, hpar, hcore⟩
    simp [hreap, bind, Except.bind]
  | none =>
    refine Or.inr ?_
    simp only [haveKids, findLists_eq h, bind, Except.bind]
    split
    · exact Or.inl rfl
    · obtain ⟨s', hsleep, hinv, hcore, hn⟩ := sleep_spec h hq (.proc q)
      refine Or.inr ⟨s', _, ?_, hinv, hcore, hn⟩
      simp [hsleep]

/-! ## `kill` -/

/-- The slot `p` after `kill`. -/
def killProc (pr : Proc) : Proc :=
  { pr with killed := true, state := if pr.state = .sleeping then .runnable else pr.state }

/-- `kill` marks one process and wakes it if it sleeps, or finds none. -/
theorem kill_spec (h : Inv s L) (pid : Word) :
    ∃ r s' L', kill .p3p4 pid s = .ok (r, s') ∧ Inv s' L' ∧
      (s' = s ∨ ∃ p, s'.core = (s.modify p killProc).core) := by
  unfold kill killList
  simp only [findLists_eq h]
  cases hf : (awakeLists.flatMap L).find? (fun p => decide ((s.proc p).pid = pid)) with
  | some p =>
    refine ⟨0, setKilled p s, L, rfl, ?_, Or.inr ⟨p, ?_⟩⟩
    · exact h.modify p (fun _ => rfl) (home_congr rfl rfl) (h.prio p)
    · have hmem := List.mem_of_find?_eq_some hf
      have hst : (s.proc p).state ≠ .sleeping := by
        intro hsl
        have hhome : home (s.proc p) = some .sleep := by simpa using hsl
        simp [List.mem_flatMap, h.mem_iff, hhome, awakeLists, readyLists] at hmem
      have hkill : killProc (s.proc p) = { s.proc p with killed := true } := by
        simp [killProc, hst]
      simp [setKilled, modify, hkill]
  | none =>
    simp only [findList_eq h]
    cases hs : (L .sleep).find? (fun p => decide ((s.proc p).pid = pid)) with
    | none => exact ⟨-1, s, L, rfl, h, Or.inl rfl⟩
    | some p =>
      have hhome : home (s.proc p) = some .sleep :=
        (h.mem_iff p .sleep).1 (List.mem_of_find?_eq_some hs)
      have hsl : (s.proc p).state = .sleeping := by simpa using hhome
      obtain ⟨s1, htr, hrep, hcore, _⟩ := transferReady_spec h.rep (i := prioOf h p) hhome rfl
        (by simp)
      have hcore' : ((s1.setState p .runnable).modify p
          (fun pr => { pr with killed := true })).core = (s.modify p killProc).core := by
        have hc := core_modify_congr hcore p
          (f := fun pr => { pr with state := .runnable, killed := true }) (fun _ _ => rfl)
        rw [setState, modify_modify]
        rw [hc]
        have hkill : killProc (s.proc p) =
            { s.proc p with state := .runnable, killed := true } := by
          simp [killProc, hsl]
        simp [modify, hkill]
      refine ⟨0, setKilled p (s1.setState p .runnable), move L .sleep (.ready (prioOf h p)) p,
        ?_, ?_, Or.inr ⟨p, hcore'⟩⟩
      · simp [htr, assertState, setState, bind, Except.bind]
      · refine h.of_move ?_ hcore' ?_ (h.prio p)
        · have hrep1 := hrep.modify p (f := fun pr => { pr with state := .runnable })
            (fun _ => rfl)
          exact hrep1.modify p (f := fun pr => { pr with killed := true }) (fun _ => rfl)
        · rw [home_eq_ready]
          exact ⟨by simp [killProc, hsl], rfl⟩

/-! ## Dispatch -/

/-- The slot `p` switched to. -/
def dispatched (p : Slot) (s : PTable) : PTable :=
  s.modify p (fun pr => { pr with state := .running, cpuTicksIn := s.ticks })

theorem dispatch_spec (h : Inv s L) {i : Prio} (hp : home (s.proc p) = some (.ready i)) :
    ∃ s' L', dispatch (.ready i) p s = .ok s' ∧ Inv s' L' ∧ s'.core = (dispatched p s).core := by
  obtain ⟨s1, hrel, hinv, hcore, _⟩ := relist_spec h p
    (fun pr => { pr with state := .running })
      (.ready i) .running .running (fun _ => rfl) hp (by simp) (by simp) (h.prio p) rfl
  refine ⟨s1.modify p (fun pr => { pr with cpuTicksIn := s1.ticks }),
    move L (.ready i) .running p, ?_, ?_, ?_⟩
  · simp [dispatch, setState, hrel, bind, Except.bind]
  · exact hinv.modify p (fun _ => rfl) (home_congr rfl rfl) (hinv.prio p)
  · have ht : s1.ticks = s.ticks := (ticks_of_core hcore).trans rfl
    have hc := core_modify_congr hcore p
      (f := fun pr => { pr with cpuTicksIn := s.ticks }) (fun _ _ => rfl)
    rw [modify_modify] at hc
    rw [ht]
    exact hc

/-! ## Tables that differ in scheduling only -/

/-- A slot without the fields that only scheduling looks at. -/
def ident (pr : Proc) : Proc := { pr with next := none, priority := 0, budget := 0 }

/-- Nothing but links, lists, priorities and budgets differs. -/
structure SameIdent (s s' : PTable) : Prop where
  proc : ∀ p, ident (s'.proc p) = ident (s.proc p)
  initproc : s'.initproc = s.initproc
  nextpid : s'.nextpid = s.nextpid
  ticks : s'.ticks = s.ticks

namespace SameIdent

theorem refl (s : PTable) : SameIdent s s := ⟨fun _ => rfl, rfl, rfl, rfl⟩

theorem trans {s t u : PTable} (h : SameIdent s t) (h' : SameIdent t u) : SameIdent s u :=
  ⟨fun p => (h'.proc p).trans (h.proc p), h'.initproc.trans h.initproc,
    h'.nextpid.trans h.nextpid, h'.ticks.trans h.ticks⟩

theorem of_core {s s' : PTable} (h : s'.core = s.core) : SameIdent s s' :=
  ⟨field_of_core h ident (fun _ _ => rfl), initproc_of_core h, nextpid_of_core h, ticks_of_core h⟩

/-- Fields that have nothing to do with scheduling are the same. -/
theorem field {s t : PTable} (h : SameIdent s t) {α : Type} (g : Proc → α)
    (hg : ∀ pr, g (ident pr) = g pr) (p : Slot) :
    g (t.proc p) = g (s.proc p) := by
  rw [← hg, h.proc p, hg]

theorem modify (s : PTable) (p : Slot) {f : Proc → Proc} (hf : ∀ pr, ident (f pr) = ident pr) :
    SameIdent s (s.modify p f) := by
  refine ⟨fun x => ?_, rfl, rfl, rfl⟩
  by_cases hx : x = p
  · subst hx; simp [hf]
  · simp [hx]

end SameIdent

theorem modify_next (s : PTable) (p : Slot) {f : Proc → Proc} (hf : ∀ pr, (f pr).next = pr.next) :
    (s.modify p f).next = s.next := by
  funext x
  by_cases hx : x = p
  · subst hx; simp [next, hf]
  · simp [next, hx]

end PTable

end Xv6
