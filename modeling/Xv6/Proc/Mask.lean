import Xv6.Proc.Refine

set_option autoImplicit false

/-! # Sections that do not see a store (`CS333_P3P4`)

`fork` stores `UNUSED` to the state of a process that is still on the embryo list, before it takes
the lock. No section of another CPU looks at that state: the list code reads links, list ends and
priorities only, and the states that are compared or assigned are those of the slots a section
moves, none of which is on the embryo list (`step_mask`).

`Oblivious G` collects what the list code needs to know of a store `G` that it does not see. -/

namespace Xv6

open PTable Stoppable

namespace PTable

/-- A change of the table that the list code does not see and that does not see the list code. -/
structure Oblivious (G : PTable → PTable) : Prop where
  next : ∀ s, (G s).next = s.next
  pLists : ∀ s, (G s).pLists = s.pLists
  priority : ∀ s p, ((G s).proc p).priority = (s.proc p).priority
  setNext : ∀ s p v, (G s).setNext p v = G (s.setNext p v)
  setHead : ∀ s l v, (G s).setHead l v = G (s.setHead l v)
  setTail : ∀ s l v, (G s).setTail l v = G (s.setTail l v)

section

variable {G : PTable → PTable} (hG : Oblivious G) (s : PTable)

include hG

theorem Oblivious.stateListAdd (l : ListId) (p : Slot) :
    stateListAdd l p (G s) = (PTable.stateListAdd l p s).map (Prod.map id G) := by
  unfold PTable.stateListAdd
  rw [hG.pLists]
  cases (s.pLists l).head with
  | none => simp [Except.map, hG.setHead, hG.setTail, hG.setNext]
  | some h =>
    cases (s.pLists l).tail with
    | none => rfl
    | some t => simp [Except.map, hG.setTail, hG.setNext]

theorem Oblivious.stateListRemove (l : ListId) (p : Slot) :
    stateListRemove l p (G s) = (PTable.stateListRemove l p s).map (Prod.map id G) := by
  unfold PTable.stateListRemove
  rw [hG.pLists, hG.next]
  cases (s.pLists l).head with
  | none => rfl
  | some h =>
    cases (s.pLists l).tail with
    | none => rfl
    | some t =>
      dsimp only
      split
      · simp [Except.map, hG.setHead]
      · refine map_bind (F := id) (by cases findPrevious s.next p fuel none (some h) <;> rfl) ?_
        rintro ⟨previous, current⟩ -
        cases current with
        | none => rfl
        | some c =>
          cases previous with
          | none => rfl
          | some q => by_cases hc : c = t <;> simp [Except.map, hc, hG.setTail, hG.setNext]

theorem Oblivious.removeOrPanic (l : ListId) (p : Slot) :
    removeOrPanic l p (G s) = (PTable.removeOrPanic l p s).map G := by
  refine map_bind (hG.stateListRemove s l p) ?_
  rintro ⟨r, t⟩ -
  by_cases hr : r = 0 <;> simp [Except.map, hr]

theorem Oblivious.addOrPanic (l : ListId) (p : Slot) :
    addOrPanic l p (G s) = (PTable.addOrPanic l p s).map G := by
  refine map_bind (hG.stateListAdd s l p) ?_
  rintro ⟨r, t⟩ -
  by_cases hr : r = 0 <;> simp [Except.map, hr]

theorem Oblivious.transfer (a b : ListId) (p : Slot) :
    transfer a b p (G s) = (PTable.transfer a b p s).map G :=
  map_bind (hG.removeOrPanic s a p) fun t _ => hG.addOrPanic t b p

theorem Oblivious.transferReady (l : ListId) (p : Slot) :
    transferReady l p (G s) = (PTable.transferReady l p s).map G := by
  refine map_bind (hG.removeOrPanic s l p) fun t _ => ?_
  rw [hG.priority]
  exact map_bind (F := id) (by cases readyAt (t.proc p).priority <;> rfl) fun r _ =>
    hG.addOrPanic t r p

theorem Oblivious.forList {body : Slot → PTable → Except Panic PTable}
    (hbody : ∀ p s, body p (G s) = (body p s).map G) (l : ListId) :
    forList l body (G s) = (PTable.forList l body s).map G := by
  unfold PTable.forList
  rw [hG.pLists]
  exact LinkedList.walk_map hG.next hbody fuel _ s

end

/-! ## The state of one slot -/

/-- The state of `np` is `UNUSED` already. -/
def mask (np : Slot) (s : PTable) : PTable := s.setState np .unused

variable {s : PTable} {L : ListId → List Slot} {np p q : Slot}

theorem mask_proc (np p : Slot) (s : PTable) :
    (mask np s).proc p = if p = np then { s.proc p with state := .unused } else s.proc p := by
  by_cases hp : p = np
  · subst hp
    simp [mask, setState]
  · simp [mask, setState, hp]

/-- `mask` changes nothing but states. -/
theorem mask_field {α : Type} (f : Proc → α) (hf : ∀ pr st, f { pr with state := st } = f pr)
    (np p : Slot) (s : PTable) : f ((mask np s).proc p) = f (s.proc p) := by
  rw [mask_proc]
  split
  · exact hf _ _
  · rfl

theorem mask_state (hp : p ≠ np) (s : PTable) : ((mask np s).proc p).state = (s.proc p).state := by
  rw [mask_proc, if_neg hp]

theorem mask_modify_ne (hp : p ≠ np) (s : PTable) (f : Proc → Proc) :
    (mask np s).modify p f = mask np (s.modify p f) := modify_comm hp.symm s _ f

theorem mask_setState (hp : p ≠ np) (s : PTable) (st : ProcState) :
    (mask np s).setState p st = mask np (s.setState p st) := mask_modify_ne hp s _

theorem mask_modify (np p : Slot) (s : PTable) {f : Proc → Proc}
    (hf : ∀ pr, f { pr with state := .unused } = { f pr with state := .unused }) :
    (mask np s).modify p f = mask np (s.modify p f) := by
  by_cases hp : p = np
  · subst hp
    simp [mask, setState, modify, hf]
  · exact mask_modify_ne hp s f

theorem mask_oblivious (np : Slot) : Oblivious (mask np) where
  next s := funext fun p => mask_field Proc.next (fun _ _ => rfl) np p s
  pLists _ := rfl
  priority s p := mask_field Proc.priority (fun _ _ => rfl) np p s
  setNext s p _ := mask_modify np p s fun _ => rfl
  setHead _ _ _ := rfl
  setTail _ _ _ := rfl

theorem findList_mask {test : Proc → Bool} (htest : ∀ pr st, test { pr with state := st } = test pr)
    (l : ListId) (np : Slot) (s : PTable) : findList l test (mask np s) = findList l test s := by
  unfold findList
  rw [(mask_oblivious np).next, (mask_oblivious np).pLists]
  simp only [mask_field test htest]

theorem findLists_mask {test : Proc → Bool}
    (htest : ∀ pr st, test { pr with state := st } = test pr)
    (ls : List ListId) (np : Slot) (s : PTable) :
    findLists ls test (mask np s) = findLists ls test s := by
  induction ls with
  | nil => rfl
  | cons l ls ih => rw [findLists, findLists, findList_mask htest, ih]

/-- A slot on a list other than the embryo list. -/
theorem ne_of_state {st : ProcState} (hnp : (s.proc np).state = .embryo)
    (hp : (s.proc p).state = st) (hst : st ≠ .embryo) : p ≠ np := by
  rintro rfl
  exact hst (hp.symm.trans hnp)

theorem assertState_mask (hp : p ≠ np) (st : ProcState) (s : PTable) :
    assertState p st (mask np s) = assertState p st s := by
  unfold assertState
  rw [mask_state hp]

theorem relist_mask (hp : p ≠ np) (b : Build) (l l' : ListId) (st : ProcState) (s : PTable) :
    relist b l l' p st (mask np s) = (relist b l l' p st s).map (mask np) := by
  cases b with
  | table => rfl
  | p3p4 =>
    refine map_bind ((mask_oblivious np).transfer s l l' p) fun t _ => ?_
    rw [assertState_mask hp]
    cases assertState p st t <;> rfl

theorem relistReady_mask (hp : p ≠ np) (b : Build) (l : ListId) (s : PTable) :
    relistReady b l p (mask np s) = (relistReady b l p s).map (mask np) := by
  cases b with
  | table => rfl
  | p3p4 =>
    refine map_bind ((mask_oblivious np).transferReady s l p) fun t _ => ?_
    rw [assertState_mask hp]
    cases assertState p .runnable t <;> rfl

/-! ## The sections -/

theorem allocproc_mask (h : Inv s L) (hnp : (s.proc np).state = .embryo) :
    allocproc .p3p4 (mask np s) = (allocproc .p3p4 s).map (Prod.map id (mask np)) := by
  have hfind : findUnused .p3p4 (mask np s) = findUnused .p3p4 s := rfl
  unfold allocproc
  rw [hfind]
  cases hf : findUnused .p3p4 s with
  | none => rfl
  | some p =>
    have hfree : (s.proc p).state = .unused := by
      rw [← home_eq_free, ← h.mem_iff]
      exact List.mem_of_mem_head? ((h.head_eq .free).symm.trans hf)
    have hp : p ≠ np := ne_of_state hnp hfree (by decide)
    dsimp only
    rw [mask_setState hp]
    refine map_bind (relist_mask hp _ _ _ _ _) fun t _ => ?_
    rw [mask_modify_ne hp]
    rfl

theorem forkPublish_mask (hp : p ≠ np) (s : PTable) :
    forkPublish .p3p4 p (mask np s) = (forkPublish .p3p4 p s).map (mask np) := by
  unfold forkPublish
  rw [mask_setState hp]
  exact relistReady_mask hp _ _ _

theorem rollback_mask (hp : p ≠ np) (s : PTable) :
    rollback .p3p4 p (mask np s) = (rollback .p3p4 p s).map (mask np) := by
  unfold rollback
  rw [mask_setState hp]
  exact relist_mask hp _ _ _ _ _

theorem forkCopy_mask (q p np : Slot) (s : PTable) :
    forkCopy q p (mask np s) = mask np (forkCopy q p s) := by
  unfold forkCopy
  rw [mask_field Proc.sz (fun _ _ => rfl), mask_field Proc.name (fun _ _ => rfl)]
  exact mask_modify np p s fun _ => rfl

theorem forkUid_mask (q p np : Slot) (s : PTable) :
    forkUid q p (mask np s) = mask np (forkUid q p s) := by
  unfold forkUid
  rw [mask_field Proc.uid (fun _ _ => rfl)]
  exact mask_modify np p s fun _ => rfl

theorem forkGid_mask (q p np : Slot) (s : PTable) :
    forkGid q p (mask np s) = mask np (forkGid q p s) := by
  unfold forkGid
  rw [mask_field Proc.gid (fun _ _ => rfl)]
  exact mask_modify np p s fun _ => rfl

theorem yield_mask (hq : q ≠ np) (s : PTable) :
    yield .p3p4 q (mask np s) = (yield .p3p4 q s).map (mask np) := by
  unfold yield
  dsimp only
  rw [mask_modify_ne hq]
  refine map_bind ((mask_oblivious np).stateListRemove _ .running q) fun v _ => ?_
  simp only [Prod.map_snd, (mask_oblivious np).priority]
  refine map_bind (F := id) (by cases readyAt (v.2.proc q).priority <;> rfl) fun r _ => ?_
  refine map_bind ((mask_oblivious np).stateListAdd _ r q) fun w _ => ?_
  simp only [Prod.map_snd, assertState_mask hq]
  cases assertState q .runnable w.2 <;> rfl

theorem sleep_mask (hq : q ≠ np) (chan : Chan) (s : PTable) :
    sleep .p3p4 chan q (mask np s) = (sleep .p3p4 chan q s).map (mask np) := by
  unfold sleep
  rw [mask_modify_ne hq]
  exact relist_mask hq _ _ _ _ _

theorem dispatch_mask (hp : p ≠ np) (cur : Cursor) (s : PTable) :
    dispatch cur p (mask np s) = (dispatch cur p s).map (mask np) := by
  have hstore : ∀ t : PTable, (Except.ok ((mask np t).modify p
      (fun pr => { pr with cpuTicksIn := (mask np t).ticks })) : Except Panic PTable) =
      (Except.ok (t.modify p (fun pr => { pr with cpuTicksIn := t.ticks }))).map (mask np) := by
    intro t
    rw [mask_modify_ne hp]
    rfl
  unfold dispatch
  dsimp only
  rw [mask_setState hp]
  cases cur with
  | table => exact hstore _
  | ready i => exact map_bind (relist_mask hp _ _ _ _ _) fun t _ => hstore t

theorem wakeup1_mask (h : Inv s L) (hnp : (s.proc np).state = .embryo) (chan : Chan) :
    wakeup1 .p3p4 chan (mask np s) = (wakeup1 .p3p4 chan s).map (mask np) := by
  have hchan : ∀ p, ((mask np s).proc p).chan = (s.proc p).chan := fun p =>
    mask_field Proc.chan (fun _ _ => rfl) np p s
  -- the loop runs over the sleep list, where it does not meet `np`
  have hbody : ∀ p ∈ L .sleep, wakeup1Body chan p (mask np s) =
      (wakeup1Body chan p s).map (mask np) := by
    intro p hp
    have hst : (s.proc p).state = .sleeping := by simpa using (h.mem_iff p .sleep).1 hp
    have hne : p ≠ np := ne_of_state hnp hst (by decide)
    unfold wakeup1Body
    rw [hchan]
    split
    · rw [mask_setState hne]
      exact relistReady_mask hne _ _ _
    · rfl
  have hwalk : ∀ t : PTable, (∀ p, (t.proc p).chan = (s.proc p).chan) → t.next = s.next →
      t.pLists = s.pLists → (∀ p ∈ L .sleep, (s.proc p).chan = chan →
        ∀ t', wakeup1Body chan p t = .ok t' → t'.next p = none) →
      wakeup1 .p3p4 chan t =
        ((L .sleep).find? fun p => (s.proc p).chan = chan).elim (.ok t) fun p =>
          wakeup1Body chan p t := by
    intro t hch hn hl hstop
    have hskip : ∀ p, decide ((s.proc p).chan = chan) = false → wakeup1Body chan p t = .ok t :=
      fun p hp => if_neg (by rw [hch]; exact of_decide_eq_false hp)
    have hchain := h.rep.chain .sleep
    rw [← hn, ← hl] at hchain
    refine (LinkedList.walk_eq_first PTable.next (wakeup1Body chan) Panic.hang
      (fun p => decide ((s.proc p).chan = chan)) t hskip fuel _ (L .sleep)
      (fun p hp htest => hstop p hp (of_decide_eq_true htest)) hchain
        (h.rep.length_le .sleep)).trans ?_
    cases (L .sleep).find? (fun p => decide ((s.proc p).chan = chan)) <;> rfl
  rw [hwalk s (fun _ => rfl) rfl rfl fun p hp hc t' => wakeup1Body_next h hp hc,
    hwalk (mask np s) hchan ((mask_oblivious np).next s) rfl fun p hp hc t' ht' => ?_]
  · cases hf : (L .sleep).find? (fun p => decide ((s.proc p).chan = chan)) with
    | none => rfl
    | some p => exact hbody p (List.mem_of_find?_eq_some hf)
  · rw [hbody p hp] at ht'
    cases hb : wakeup1Body chan p s with
    | error e =>
      rw [hb] at ht'
      cases ht'
    | ok t =>
      rw [hb] at ht'
      obtain rfl := Except.ok.inj ht'
      rw [(mask_oblivious np).next]
      exact wakeup1Body_next h hp hc hb

theorem reparent_mask (q p np : Slot) (s : PTable) :
    reparent q p (mask np s) = mask np (reparent q p s) := by
  unfold reparent
  rw [mask_field Proc.parent (fun _ _ => rfl)]
  split
  · exact mask_modify np p s fun _ => rfl
  · rfl

theorem abandonList_mask (q np : Slot) (s : PTable) :
    abandonList q (mask np s) = (abandonList q s).map (mask np) := by
  unfold abandonList
  induction childLists generalizing s with
  | nil => rfl
  | cons l ls ih =>
    rw [List.foldlM_cons, List.foldlM_cons]
    refine map_bind ((mask_oblivious np).forList s (fun p s => ?_) l) fun t _ => ih t
    rw [reparent_mask]
    rfl

theorem exit_mask (h : Inv s L) (hnp : (s.proc np).state = .embryo) (hq : q ≠ np) :
    exit .p3p4 q (mask np s) = (exit .p3p4 q s).map (mask np) := by
  unfold exit
  have hinit : (mask np s).initproc = s.initproc := rfl
  rw [hinit, mask_field Proc.parent (fun _ _ => rfl)]
  split
  · rfl
  · refine map_bind (wakeup1_mask h hnp _) fun t _ => ?_
    refine map_bind (abandonList_mask q np t) fun t' _ => ?_
    dsimp only
    rw [mask_setState hq]
    exact relist_mask hq _ _ _ _ _

theorem reap_mask (hp : p ≠ np) (s : PTable) :
    reap .p3p4 p (mask np s) = (reap .p3p4 p s).map (mask np) := by
  unfold reap
  rw [mask_setState hp]
  refine map_bind (relist_mask hp _ _ _ _ _) fun t _ => ?_
  rw [mask_modify_ne hp]
  rfl

theorem wait_mask (h : Inv s L) (hnp : (s.proc np).state = .embryo) (hq : q ≠ np) :
    wait .p3p4 q (mask np s) = (wait .p3p4 q s).map (Prod.map id (mask np)) := by
  have hzombie : findZombie .p3p4 q (mask np s) = findZombie .p3p4 q s := by
    unfold findZombie
    rw [findList_mask (fun _ _ => rfl)]
  have hkids : haveKids .p3p4 q (mask np s) = haveKids .p3p4 q s := by
    unfold haveKids
    rw [findLists_mask (fun _ _ => rfl)]
  unfold wait
  rw [hzombie]
  refine map_bind_same fun o ho => ?_
  cases o with
  | some p =>
    have hst : (s.proc p).state = .zombie := by
      rw [findZombie, findList_eq h] at ho
      rw [← home_eq_zombie, ← h.mem_iff]
      exact List.mem_of_find?_eq_some (Except.ok.inj ho)
    refine map_bind (reap_mask (ne_of_state hnp hst (by decide)) s) fun t _ => ?_
    rw [mask_field Proc.pid (fun _ _ => rfl)]
    rfl
  | none =>
    dsimp only
    rw [hkids]
    refine map_bind_same fun kids _ => ?_
    rw [mask_field Proc.killed (fun _ _ => rfl)]
    split
    · rfl
    · exact map_bind (sleep_mask hq _ s) fun t _ => rfl

theorem setKilled_mask (p np : Slot) (s : PTable) :
    setKilled p (mask np s) = mask np (setKilled p s) :=
  mask_modify np p s fun _ => rfl

theorem kill_mask (h : Inv s L) (hnp : (s.proc np).state = .embryo) (pid : Word) :
    kill .p3p4 pid (mask np s) = (kill .p3p4 pid s).map (Prod.map id (mask np)) := by
  unfold kill killList
  dsimp only
  rw [findLists_mask (fun _ _ => rfl), findList_mask (fun _ _ => rfl)]
  refine map_bind_same fun o _ => ?_
  cases o with
  | some p =>
    dsimp only
    rw [setKilled_mask]
    rfl
  | none =>
    refine map_bind_same fun o ho => ?_
    cases o with
    | none => rfl
    | some p =>
      have hsleep : (s.proc p).state = .sleeping := by
        rw [findList_eq h] at ho
        rw [← home_eq_sleep, ← h.mem_iff]
        exact List.mem_of_find?_eq_some (Except.ok.inj ho)
      have hp : p ≠ np := ne_of_state hnp hsleep (by decide)
      refine map_bind ((mask_oblivious np).transferReady s .sleep p) fun t _ => ?_
      rw [mask_setState hp, assertState_mask hp, setKilled_mask]
      exact map_bind_same fun _ _ => rfl

theorem reprioritize_mask (f : ℕ → ℕ) (p np : Slot) (s : PTable) :
    reprioritize f p (mask np s) = (reprioritize f p s).map (mask np) := by
  unfold reprioritize
  rw [(mask_oblivious np).priority]
  refine map_bind_same fun l _ => map_bind ((mask_oblivious np).removeOrPanic s l p) fun t _ => ?_
  dsimp only
  rw [mask_modify np p t (fun _ => rfl), (mask_oblivious np).priority]
  exact map_bind_same fun l' _ => (mask_oblivious np).addOrPanic _ l' p

theorem refill_mask (p np : Slot) (s : PTable) : refill p (mask np s) = mask np (refill p s) :=
  mask_modify np p s fun _ => rfl

theorem setpriority_mask (pid priority : Int) (np : Slot) (s : PTable) :
    setpriority pid priority (mask np s) =
      (setpriority pid priority s).map (Prod.map id (mask np)) := by
  unfold setpriority
  split
  · rfl
  · dsimp only
    rw [findLists_mask (fun _ _ => rfl), findLists_mask (fun _ _ => rfl)]
    refine map_bind_same fun o _ => ?_
    cases o with
    | some p =>
      refine map_bind (reprioritize_mask _ p np s) fun t _ => ?_
      rw [refill_mask]
      rfl
    | none =>
      refine map_bind_same fun o _ => ?_
      cases o with
      | none => rfl
      | some p =>
        dsimp only
        rw [mask_modify np p s (fun _ => rfl), refill_mask]
        rfl

theorem promoteAll_mask (np : Slot) (s : PTable) :
    promoteAll (mask np s) = (promoteAll s).map (mask np) := by
  have hready : ∀ (is : List Prio) (s : PTable),
      is.foldlM (fun s i => forList (.ready i) (promoteReady i) s) (mask np s) =
        (is.foldlM (fun s i => forList (.ready i) (promoteReady i) s) s).map (mask np) := by
    intro is
    induction is with
    | nil => exact fun s => rfl
    | cons i is ih =>
      intro s
      rw [List.foldlM_cons, List.foldlM_cons]
      refine map_bind ((mask_oblivious np).forList s (fun p s => ?_) (.ready i)) fun t _ => ih t
      unfold promoteReady
      split
      · refine map_bind (reprioritize_mask _ p np s) fun t _ => ?_
        dsimp only
        rw [refill_mask]
        rfl
      · show Except.ok (refill p (mask np s)) = _
        rw [refill_mask]
        rfl
  have hplace : ∀ p s, promoteInPlace p (mask np s) = (promoteInPlace p s).map (mask np) := by
    intro p s
    unfold promoteInPlace
    rw [mask_modify np p s (fun _ => rfl), refill_mask]
    rfl
  unfold promoteAll
  exact map_bind (hready _ s) fun t _ =>
    map_bind ((mask_oblivious np).forList t hplace .sleep) fun t' _ =>
      (mask_oblivious np).forList t' hplace .running

theorem promoteIfDue_mask (np : Slot) (s : PTable) :
    promoteIfDue (mask np s) = (promoteIfDue s).map (mask np) := by
  unfold promoteIfDue
  have hdue : (mask np s).promoteAtTime = s.promoteAtTime ∧ (mask np s).ticks = s.ticks :=
    ⟨rfl, rfl⟩
  rw [hdue.1, hdue.2]
  split
  · exact map_bind (promoteAll_mask np s) fun t _ => rfl
  · rfl

end PTable

namespace Sys

variable {s : Sys} {a : Act} {c : ℕ} {q np : Slot}

/-- The machine with `UNUSED` stored to the state of `np`. -/
def mask (np : Slot) (s : Sys) : Sys := { s with pt := s.pt.mask np }

theorem asProc_mask {f f' : Cursor → Slot → Except Halt Sys}
    (hf : ∀ cur q, s.cpu c = .run cur q → f' cur q = (f cur q).map (mask np)) :
    (s.mask np).asProc c f' = (s.asProc c f).map (mask np) := by
  unfold asProc
  rw [show (s.mask np).cpu c = s.cpu c from rfl]
  cases hc : s.cpu c with
  | run cur q => exact hf cur q hc
  | idle | loop _ _ | back _ _ => rfl

theorem guarded_mask {P : Prop} [Decidable P] {x x' : Except Halt Sys}
    (hx : P → x' = x.map (mask np)) : guarded P x' = (guarded P x).map (mask np) := by
  unfold guarded
  split
  · next hP => exact hx hP
  · rfl

theorem onChild_mask {k : Kont → Option Slot} {f f' : Slot → Except Halt Sys}
    (hf : ∀ x, k (s.kont q) = some x → f' x = (f x).map (mask np)) :
    (s.mask np).onChild q k f' = (s.onChild q k f).map (mask np) := by
  unfold onChild
  rw [show (s.mask np).kont q = s.kont q from rfl]
  cases hk : k (s.kont q) with
  | some x => exact hf x hk
  | none => rfl

theorem section_mask {α α' : Type} {F : α → α'} {y : Except Panic α} {y' : Except Panic α'}
    {f : α → Except Halt Sys} {f' : α' → Except Halt Sys} (hy : y' = y.map F)
    (hf : ∀ v, y = .ok v → f' (F v) = (f v).map (mask np)) :
    (runSection y' >>= f') = (runSection y >>= f).map (mask np) := by
  subst hy
  cases y with
  | error e => rfl
  | ok v => exact hf v rfl

theorem resume_mask (p np : Slot) (s : Sys) : (s.mask np).resume p = (s.resume p).mask np := by
  have hret : sleepReturn p (s.pt.mask np) = (sleepReturn p s.pt).mask np :=
    mask_modify np p _ fun _ => rfl
  have hkont : (s.mask np).kont p = s.kont p := rfl
  unfold resume
  rw [hkont]
  split
  · simp only [mask, setKont, hret]
  · simp only [mask, hret]
  · rfl

theorem schedEnter_mask (np : Slot) (c : ℕ) (s : Sys) :
    (s.mask np).schedEnter .p3p4 c = (s.schedEnter .p3p4 c).map (mask np) := by
  unfold Sys.schedEnter
  show (if s.lock = none ∧ s.cpu c = .idle then _ else _) = _
  split
  · exact section_mask (promoteIfDue_mask np s.pt) fun _ _ => rfl
  · rfl

theorem schedSwitch_mask {p : Slot} (hp : p ≠ np) (c : ℕ) (cur : Cursor) (s : Sys) :
    (s.mask np).schedSwitch c cur p = (s.schedSwitch c cur p).map (mask np) := by
  refine section_mask (dispatch_mask hp cur s.pt) fun pt _ => ?_
  have hres := resume_mask p np { s with pt := pt }
  simp only [mask] at hres ⊢
  rw [hres]
  rfl

theorem schedStep_mask (hinv : SysInv .p3p4 s) (hnp : (s.pt.proc np).state = .embryo) (c : ℕ) :
    (s.mask np).schedStep c = (s.schedStep c).map (mask np) := by
  have hlock : (s.mask np).lock = s.lock := rfl
  have hcpu : (s.mask np).cpu c = s.cpu c := rfl
  have hfits : ∀ cur, (s.cpu c).cursor = some cur → Cursor.fits .p3p4 cur := hinv.cursor c
  unfold Sys.schedStep
  rw [hlock, hcpu]
  split
  · split
    · split <;> rfl
    · rfl
    · next i p hc =>
        have hst : (s.pt.proc p).state = .runnable := (home_eq_ready.1 (hinv.loop c i p hc)).1
        exact schedSwitch_mask (ne_of_state hnp hst (by decide)) c _ s
    · next p hc => exact absurd (hfits .table (by rw [hc]; rfl)) (by simp [Cursor.fits])
    · next cur p hc =>
        cases cur with
        | table => exact absurd (hfits .table (by rw [hc]; rfl)) (by simp [Cursor.fits])
        | ready i =>
          have hacc : accountSlice p (s.pt.mask np) = (accountSlice p s.pt).mask np :=
            mask_modify np p s.pt fun _ => rfl
          have hnext := congrFun ((mask_oblivious np).next (accountSlice p s.pt)) p
          simp only [mask, hacc, advance, hnext]
          rfl
    · rfl
  · rfl

/-- The process `q`, which is in `fork`, does not go on there. -/
def Act.leaves (s : Sys) (q : Slot) : Act → Prop
  | .forkFail c | .forkCopy c => (s.cpu c).running ≠ some q
  | _ => True

theorem step_mask (hinv : SysInv .p3p4 s) (hk : s.kont q = .forkAlloc np) (ha : Act.leaves s q a) :
    (s.mask np).step .p3p4 a = (s.step .p3p4 a).map (mask np) := by
  have hnp : (s.pt.proc np).state = .embryo := (hinv.life.alloc q np hk).1
  obtain ⟨L, hL⟩ := hinv.tab
  have hrun : ∀ {c cur x}, s.cpu c = .run cur x → x ≠ np := fun hc =>
    ne_of_state hnp (hinv.running hc) (by decide)
  cases a with
  | tick => rfl
  | schedEnter c => exact schedEnter_mask np c s
  | schedStep c => exact schedStep_mask hinv hnp c
  | forkAlloc c =>
    refine asProc_mask fun _ x _ => guarded_mask fun _ => section_mask (allocproc_mask hL hnp) ?_
    rintro ⟨o, pt⟩ -
    cases o <;> rfl
  | forkFail c =>
    refine asProc_mask fun cur x hc => guarded_mask fun _ => onChild_mask fun y hy =>
      section_mask (rollback_mask ?_ s.pt) fun _ _ => rfl
    rintro rfl
    rw [hinv.life.alloc_inj x q y (atAlloc_eq hy) hk] at hc
    exact ha (by rw [hc]; rfl)
  | forkCopy c =>
    refine asProc_mask fun cur x hc => onChild_mask fun y hy => ?_
    simp only [mask, forkCopy_mask]
    rfl
  | forkPublish c =>
    refine asProc_mask fun cur x hc => guarded_mask fun _ => onChild_mask fun y hy =>
      section_mask (forkPublish_mask ?_ s.pt) fun _ _ => rfl
    rintro rfl
    have hpar := (hinv.life.ready x y (atReady_eq hy)).2
    rw [(hinv.life.alloc q y hk).2] at hpar
    cases hpar
  | forkUid c =>
    refine asProc_mask fun cur x hc => onChild_mask fun y hy => ?_
    simp only [mask, forkUid_mask]
    rfl
  | forkGid c =>
    refine asProc_mask fun cur x hc => onChild_mask fun y hy => ?_
    simp only [mask, forkGid_mask]
    rfl
  | exit c =>
    exact asProc_mask fun cur x hc => guarded_mask fun _ =>
      section_mask (exit_mask hL hnp (hrun hc)) fun _ _ => rfl
  | wait c =>
    refine asProc_mask fun cur x hc => guarded_mask fun _ =>
      section_mask (wait_mask hL hnp (hrun hc)) ?_
    rintro ⟨r, pt⟩ -
    simp only [Prod.map, id]
    split <;> rfl
  | yield c =>
    exact asProc_mask fun cur x hc => guarded_mask fun _ =>
      section_mask (yield_mask (hrun hc) s.pt) fun _ _ => rfl
  | sleep c chan =>
    exact asProc_mask fun cur x hc => guarded_mask fun _ =>
      section_mask (sleep_mask (hrun hc) chan s.pt) fun _ _ => rfl
  | wakeup chan =>
    exact guarded_mask fun _ => section_mask (wakeup1_mask hL hnp chan) fun _ _ => rfl
  | kill pid =>
    exact guarded_mask fun _ => section_mask (kill_mask hL hnp pid) fun _ _ => rfl
  | setpriority pid priority =>
    exact guarded_mask fun _ => section_mask (setpriority_mask pid priority np s.pt) fun _ _ => rfl
  | setuid c v | setgid c v | execSetuid c v =>
    refine asProc_mask fun cur x hc => guarded_mask fun _ => ?_
    simp only [mask, mask_modify_ne (hrun hc)]
    rfl

end Sys

end Xv6
