import Xv6.Proc.Lists

set_option autoImplicit false

/-! # The state-list invariant

`Inv s L` says that the pointers of the table spell the lists `L`, that every slot is on the list of
its state (`home`), and that no priority is out of range. It is what holds whenever `ptable.lock` is
free.

Inside a section a slot's state or priority is assigned first and the slot moved afterwards, or the
other way round. `Inv.of_move` closes both orders: what matters is that the slot ends on the list of
its final state. The lemmas `relist_spec` and `relistReady_spec` are the two forms the sections
use. -/

namespace Xv6

open Function LinkedList

namespace PTable

/-- The list that a slot belongs on. -/
def home (pr : Proc) : Option ListId :=
  match pr.state with
  | .unused => some .free
  | .embryo => some .embryo
  | .sleeping => some .sleep
  | .runnable => if h : pr.priority < maxPrio + 1 then some (.ready ⟨pr.priority, h⟩) else none
  | .running => some .running
  | .zombie => some .zombie

/-- Every slot is on the list of its state, and every priority has a list. -/
structure Inv (s : PTable) (L : ListId → List Slot) : Prop where
  rep : Rep s L (fun p => home (s.proc p))
  prio : ∀ p, (s.proc p).priority ≤ maxPrio

/-- The lists after `p` has left `l` and been appended to `l'`. -/
def move (L : ListId → List Slot) (l l' : ListId) (p : Slot) : ListId → List Slot :=
  update (update L l ((L l).erase p)) l' (L l' ++ [p])

variable {pr : Proc}

theorem home_congr {pr' : Proc} (hs : pr'.state = pr.state) (hp : pr'.priority = pr.priority) :
    home pr' = home pr := by
  unfold home
  rw [hs, hp]

/-! ### Where the members of each list come from -/

@[simp] theorem home_eq_free : home pr = some .free ↔ pr.state = .unused := by
  unfold home
  cases pr.state <;> simp

@[simp] theorem home_eq_embryo : home pr = some .embryo ↔ pr.state = .embryo := by
  unfold home
  cases pr.state <;> simp

@[simp] theorem home_eq_sleep : home pr = some .sleep ↔ pr.state = .sleeping := by
  unfold home
  cases pr.state <;> simp

@[simp] theorem home_eq_running : home pr = some .running ↔ pr.state = .running := by
  unfold home
  cases pr.state <;> simp

@[simp] theorem home_eq_zombie : home pr = some .zombie ↔ pr.state = .zombie := by
  unfold home
  cases pr.state <;> simp

@[simp] theorem home_eq_ready {i : Prio} :
    home pr = some (.ready i) ↔ pr.state = .runnable ∧ pr.priority = i.val := by
  unfold home
  cases pr.state <;> simp [Fin.ext_iff]
  · intro h
    have := i.isLt
    omega

theorem readyAt_of_le {i : ℕ} (h : i ≤ maxPrio) :
    readyAt i = .ok (.ready ⟨i, Nat.lt_succ_of_le h⟩) := by
  unfold readyAt
  rw [dif_pos (Nat.lt_succ_of_le h)]

namespace Inv

variable {s : PTable} {L : ListId → List Slot}

theorem mem_iff (h : Inv s L) (p : Slot) (l : ListId) : p ∈ L l ↔ home (s.proc p) = some l :=
  h.rep.mem_iff p l

theorem head_eq (h : Inv s L) (l : ListId) : (s.pLists l).head = (L l).head? :=
  (h.rep.chain l).head_eq

/-- The invariant is about the slots and the list ends only. -/
theorem congr {s' : PTable} (h : Inv s L) (hproc : s'.proc = s.proc)
    (hlists : s'.pLists = s.pLists) : Inv s' L := by
  obtain ⟨proc, pLists, _, _, _, _⟩ := s
  obtain ⟨_, _, _, _, _, _⟩ := s'
  simp only at hproc hlists
  subst hproc hlists
  exact ⟨h.rep, h.prio⟩

/-- Assignments that leave a slot on the list it is on. -/
theorem modify (h : Inv s L) (p : Slot) {f : Proc → Proc} (hnext : ∀ pr, (f pr).next = pr.next)
    (hhome : home (f (s.proc p)) = home (s.proc p))
    (hprio : (f (s.proc p)).priority ≤ maxPrio) : Inv (s.modify p f) L := by
  refine ⟨?_, fun x => ?_⟩
  · convert h.rep.modify p hnext using 2 with x
    by_cases hx : x = p
    · subst hx
      simpa using hhome
    · simp [hx]
  · by_cases hx : x = p
    · subst hx
      simpa using hprio
    · simpa [hx] using h.prio x

/-- A slot that is now on list `l'` and whose fields say so restores the invariant. -/
theorem of_move (h : Inv s L) {s' : PTable} {l l' : ListId} {p : Slot} {f : Proc → Proc}
    (hrep : Rep s' (move L l l' p) (update (fun q => home (s.proc q)) p (some l')))
    (hcore : s'.core = (s.modify p f).core) (hhome : home (f (s.proc p)) = some l')
    (hprio : (f (s.proc p)).priority ≤ maxPrio) : Inv s' (move L l l' p) := by
  have hstate := state_of_core hcore
  have hpr := priority_of_core hcore
  refine ⟨?_, fun x => ?_⟩
  · convert hrep using 2 with x
    rw [home_congr (hstate x) (hpr x)]
    by_cases hx : x = p
    · subst hx
      simpa using hhome
    · simp [hx]
  · rw [hpr x]
    by_cases hx : x = p
    · subst hx
      simpa using hprio
    · simpa [hx] using h.prio x

end Inv

/-! ## The moves the sections make -/

variable {L : ListId → List Slot} {s : PTable}

/-- A checked move from one list to another. -/
theorem relist_spec (h : Inv s L) (p : Slot)
    (f : Proc → Proc) (l l' : ListId) (st : ProcState) (hnext : ∀ pr, (f pr).next = pr.next)
    (hl : home (s.proc p) = some l) (hl' : home (f (s.proc p)) = some l') (hne : l' ≠ l)
    (hprio : (f (s.proc p)).priority ≤ maxPrio) (hst : (f (s.proc p)).state = st) :
    ∃ s', relist .p3p4 l l' p st (s.modify p f) = .ok s' ∧ Inv s' (move L l l' p) ∧
      s'.core = (s.modify p f).core ∧ s'.next p = none := by
  obtain ⟨s', htr, hrep, hcore, hn⟩ := transfer_spec (h.rep.modify p hnext) hne hl
  refine ⟨s', ?_, h.of_move hrep hcore hl' hprio, hcore, hn⟩
  have hstate : (s'.proc p).state = st := by
    rw [state_of_core hcore]
    simpa using hst
  simp [relist, htr, assertState, hstate, bind, Except.bind]

/-- Moving a slot to the ready list of its priority. -/
theorem transferReady_spec {w : Slot → Option ListId}
    (h : Rep s L w) {l : ListId} {p : Slot} {i : Prio} (hl : w p = some l)
    (hi : (s.proc p).priority = i.val) (hne : .ready i ≠ l) :
    ∃ s', transferReady l p s = .ok s' ∧
      Rep s' (move L l (.ready i) p) (update w p (some (.ready i))) ∧
      s'.core = s.core ∧ s'.next p = none := by
  obtain ⟨s1, hrm, hrep1, hcore1⟩ := stateListRemove_spec h hl
  obtain ⟨s2, hadd, hrep2, hcore2, hn⟩ := stateListAdd_spec hrep1 (.ready i) (p := p) (by simp)
  refine ⟨s2, ?_, ?_, hcore2.trans hcore1, hn⟩
  · have hpr : readyAt (s1.proc p).priority = .ok (.ready i) := by
      rw [priority_of_core hcore1, hi, readyAt_of_le (Nat.le_of_lt_succ i.isLt)]
    simp [transferReady, removeOrPanic, addOrPanic, hrm, hpr, hadd, bind, Except.bind]
  · simpa [move, hne] using hrep2

theorem relistReady_spec (h : Inv s L) {p : Slot}
    {f : Proc → Proc} {l : ListId} {i : Prio} (hnext : ∀ pr, (f pr).next = pr.next)
    (hl : home (s.proc p) = some l) (hl' : home (f (s.proc p)) = some (.ready i))
    (hne : .ready i ≠ l) :
    ∃ s', relistReady .p3p4 l p (s.modify p f) = .ok s' ∧ Inv s' (move L l (.ready i) p) ∧
      s'.core = (s.modify p f).core ∧ s'.next p = none := by
  obtain ⟨hst, hpr⟩ := home_eq_ready.1 hl'
  obtain ⟨s', htr, hrep, hcore, hn⟩ :=
    transferReady_spec (h.rep.modify p hnext) (i := i) hl (by simpa using hpr) hne
  refine ⟨s', ?_, h.of_move hrep hcore hl' ?_, hcore, hn⟩
  · have hstate : (s'.proc p).state = .runnable := by
      rw [state_of_core hcore]
      simpa using hst
    simp [relistReady, htr, assertState, hstate, bind, Except.bind]
  · rw [hpr]
    exact Nat.le_of_lt_succ i.isLt

/-! ## Traversals of a list -/

/-- A loop whose body only assigns to other fields is a fold over the members. -/
theorem forList_eq_foldlM (h : Inv s L) (l : ListId) {body : Slot → PTable → Except Panic PTable}
    (hbody : ∀ p s s', body p s = .ok s' → s'.next = s.next) :
    forList l body s = (L l).foldlM (fun s p => body p s) s :=
  walk_eq_foldlM hbody fuel _ s (L l) (h.rep.chain l) (h.rep.length_le l)

theorem findList_eq (h : Inv s L) (l : ListId) (test : Proc → Bool) :
    findList l test s = .ok ((L l).find? (fun p => test (s.proc p))) :=
  search_eq_find? fuel _ (L l) (h.rep.chain l) (h.rep.length_le l)

theorem findLists_eq (h : Inv s L) (ls : List ListId) (test : Proc → Bool) :
    findLists ls test s = .ok ((ls.flatMap L).find? (fun p => test (s.proc p))) := by
  induction ls with
  | nil => rfl
  | cons l ls ih =>
    rw [findLists, findList_eq h, List.flatMap_cons, List.find?_append]
    cases hf : (L l).find? (fun p => test (s.proc p)) with
    | some p => rfl
    | none => simpa [bind, Except.bind] using ih

end PTable

end Xv6
