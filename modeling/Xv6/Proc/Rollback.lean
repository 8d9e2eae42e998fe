import Xv6.Proc.Mask
import Xv6.Proc.StateLists

set_option autoImplicit false

/-! # Giving back a process slot (`CS333_P3P4`)

When memory runs out, `allocproc` and `fork` undo the allocation of a slot: `EMBRYO` becomes
`UNUSED`, and the slot goes from the embryo list to the free list. `fork` stores the state without
the lock and does the rest under it. `allocproc` does everything without the lock. Here every load
and store of the table that is made without the lock is an action of its own (`Pc` says which is
next), so that sections of other CPUs come in between.

The rollback of `fork` is safe whatever happens meanwhile: no section sees the stored state
(`Sys.step_mask`). The rollback of `allocproc` is safe if no section comes in between. As long as
that holds, what is left of it would, run to its end, lead to a table with the invariant
(`Finishes`), and stores to other fields do not change that. -/

namespace Xv6

open Transition Function PTable Stoppable

/-! ## The accesses of the unlocked rollback -/

/-- The next access, with the values loaded so far. `rm..` is `stateListRemove(&embryo, &embryoTail,
    p)`, `add..` is `stateListAdd(&free, &freeTail, p)`. -/
inductive Pc
  /-- `*head == 0` -/
  | rmHead
  /-- `*tail == 0` -/
  | rmTail
  /-- `current = *head` and the comparison with `p` -/
  | rmCurrent
  /-- `*head = (*head)->next`: load `*head`, load the link, store -/
  | rmFirst
  | rmFirstNext (h : Slot)
  | rmFirstStore (v : Option Slot)
  /-- `while(current)`: load `current->next` -/
  | rmLoop (current : Slot)
  /-- `current == *tail` -/
  | rmFound (previous current : Slot)
  /-- `*tail = previous` -/
  | rmTailStore (previous : Slot)
  /-- `(*tail)->next = 0`: load `*tail`, store -/
  | rmTailLoad
  | rmTailNext (t : Slot)
  /-- `previous->next = current->next`: load, store -/
  | rmLink (previous current : Slot)
  | rmLinkStore (previous : Slot) (v : Option Slot)
  /-- `p->next = 0` -/
  | rmClear
  /-- `*head == 0` -/
  | addHead
  /-- `*head = p; *tail = p; p->next = 0` -/
  | addEmptyHead
  | addEmptyTail
  | addEmptyNext
  /-- `(*tail)->next = p`: load `*tail`, store -/
  | addTail
  | addLink (t : Slot)
  /-- `*tail = (*tail)->next`: load `*tail`, load the link, store -/
  | addTail'
  | addTailNext (t : Slot)
  | addTailStore (v : Option Slot)
  /-- `(*tail)->next = 0`: load `*tail`, store -/
  | addTail''
  | addClear (t : Slot)
  /-- `assertState(p, UNUSED)` -/
  | assert
  | done
  deriving DecidableEq, Repr

namespace PTable

/-- Dereference a pointer just loaded. -/
def deref (o : Option Slot) (k : Slot → Pc) (s : PTable) : Except Panic (Pc × PTable) :=
  match o with
  | some x => .ok (k x, s)
  | none => .error .nullDeref

/-- The loop test with `current` just loaded. -/
def loopTest (p : Slot) (previous : Slot) (current : Option Slot) (s : PTable) :
    Except Panic (Pc × PTable) :=
  match current with
  | none => .error (.removing .embryo)
  | some c => if c = p then .ok (.rmFound previous c, s) else .ok (.rmLoop c, s)

/-- One access of the rollback of `p` by `allocproc`. -/
def access (p : Slot) (pc : Pc) (s : PTable) : Except Panic (Pc × PTable) :=
  match pc with
  | .rmHead => if (s.pLists .embryo).head = none then .error (.removing .embryo)
      else .ok (.rmTail, s)
  | .rmTail => if (s.pLists .embryo).tail = none then .error (.removing .embryo)
      else .ok (.rmCurrent, s)
  | .rmCurrent =>
    match (s.pLists .embryo).head with
    -- emptied since the first load: the loop ends at once, and `p` has not been found
    | none => .error (.removing .embryo)
    | some h => if h = p then .ok (.rmFirst, s) else .ok (.rmLoop h, s)
  | .rmFirst => deref (s.pLists .embryo).head .rmFirstNext s
  | .rmFirstNext h => .ok (.rmFirstStore (s.next h), s)
  | .rmFirstStore v => .ok (.addHead, s.setHead .embryo v)
  | .rmLoop c => loopTest p c (s.next c) s
  | .rmFound q c => if (s.pLists .embryo).tail = some c then .ok (.rmTailStore q, s)
      else .ok (.rmLink q c, s)
  | .rmTailStore q => .ok (.rmTailLoad, s.setTail .embryo (some q))
  | .rmTailLoad => deref (s.pLists .embryo).tail .rmTailNext s
  | .rmTailNext t => .ok (.rmClear, s.setNext t none)
  | .rmLink q c => .ok (.rmLinkStore q (s.next c), s)
  | .rmLinkStore q v => .ok (.rmClear, s.setNext q v)
  | .rmClear => .ok (.addHead, s.setNext p none)
  | .addHead => if (s.pLists .free).head = none then .ok (.addEmptyHead, s) else .ok (.addTail, s)
  | .addEmptyHead => .ok (.addEmptyTail, s.setHead .free (some p))
  | .addEmptyTail => .ok (.addEmptyNext, s.setTail .free (some p))
  | .addEmptyNext => .ok (.assert, s.setNext p none)
  | .addTail => deref (s.pLists .free).tail .addLink s
  | .addLink t => .ok (.addTail', s.setNext t (some p))
  | .addTail' => deref (s.pLists .free).tail .addTailNext s
  | .addTailNext t => .ok (.addTailStore (s.next t), s)
  | .addTailStore v => .ok (.addTail'', s.setTail .free v)
  | .addTail'' => deref (s.pLists .free).tail .addClear s
  | .addClear t => .ok (.assert, s.setNext t none)
  | .assert => if (s.proc p).state = .unused then .ok (.done, s) else .error .assertState
  | .done => .ok (.done, s)

/-! ## The rest of a rollback that nobody disturbs -/

/-- From `pc` on the rollback leads from `s` to `t` if it goes on alone. -/
inductive Finishes (p : Slot) : Pc → PTable → PTable → Prop
  | done {s : PTable} : Finishes p .done s s
  | step {pc pc' : Pc} {s s' t : PTable} : pc ≠ .done → access p pc s = .ok (pc', s') →
      Finishes p pc' s' t → Finishes p pc s t

namespace Finishes

variable {p : Slot} {pc : Pc} {s t : PTable}

theorem next (h : Finishes p pc s t) (hpc : pc ≠ .done) :
    ∃ pc' s', access p pc s = .ok (pc', s') ∧ Finishes p pc' s' t := by
  cases h with
  | done => exact absurd rfl hpc
  | step _ hs ht => exact ⟨_, _, hs, ht⟩

/-- An access whose outcome is given. -/
theorem go {s : PTable} (pc' : Pc) (s' : PTable) (hs : access p pc s = .ok (pc', s'))
    (ht : Finishes p pc' s' t) (hpc : pc ≠ .done := by simp) : Finishes p pc s t := .step hpc hs ht

theorem eq_of_done (h : Finishes p .done s t) : t = s := by
  cases h with
  | done => rfl
  | step hpc _ _ => exact absurd rfl hpc

end Finishes

/-- A store that the list code does not see leaves the accesses as they are. -/
theorem Oblivious.access {G : PTable → PTable} (hG : Oblivious G)
    (hst : ∀ s p, ((G s).proc p).state = (s.proc p).state) (p : Slot) (pc : Pc) (s : PTable) :
    access p pc (G s) = (PTable.access p pc s).map (Prod.map id G) := by
  have hderef : ∀ o k (s : PTable), deref o k (G s) = (deref o k s).map (Prod.map id G) := by
    intro o k s
    cases o <;> rfl
  have hloop : ∀ q o (s : PTable), loopTest p q o (G s) = (loopTest p q o s).map (Prod.map id G) :=
    by
    intro q o s
    cases o with
    | none => rfl
    | some c => by_cases hc : c = p <;> simp [loopTest, hc, Except.map]
  cases pc with
  | rmHead | rmTail | rmFound q c | addHead =>
    simp only [PTable.access, hG.pLists]
    split <;> rfl
  | rmCurrent =>
    simp only [PTable.access, hG.pLists]
    cases (s.pLists .embryo).head with
    | none => rfl
    | some h => by_cases hp : h = p <;> simp [hp, Except.map]
  | rmFirst | rmTailLoad | addTail | addTail' | addTail'' =>
    simp only [PTable.access, hG.pLists, hderef]
  | rmLoop c => simp only [PTable.access, hG.next, hloop]
  | rmFirstNext h | rmLink q c | addTailNext t =>
    simp only [PTable.access, hG.next]
    rfl
  | rmFirstStore v | addEmptyHead =>
    simp only [PTable.access, hG.setHead]
    rfl
  | rmTailStore q | addEmptyTail | addTailStore v =>
    simp only [PTable.access, hG.setTail]
    rfl
  | rmTailNext t | rmLinkStore q v | rmClear | addEmptyNext | addLink t | addClear t =>
    simp only [PTable.access, hG.setNext]
    rfl
  | assert =>
    simp only [PTable.access, hst]
    split <;> rfl
  | done => rfl

theorem Finishes.of_oblivious {G : PTable → PTable} (hG : Oblivious G)
    (hst : ∀ s p, ((G s).proc p).state = (s.proc p).state) {p : Slot} {pc : Pc} {s t : PTable}
    (h : Finishes p pc s t) : Finishes p pc (G s) (G t) := by
  induction h with
  | done => exact .done
  | step hpc hs _ ih => exact .step hpc (by rw [hG.access hst, hs]; rfl) ih

/-! ## Alone, the accesses do what the section does -/

section

variable {p : Slot} {s s' t : PTable}

theorem finishes_assert (hst : (s.proc p).state = .unused) : Finishes p .assert s s :=
  .go .done s (by simp [access, hst]) .done

theorem finishes_add {r : Int} (h : stateListAdd .free p s = .ok (r, s'))
    (hst : (s'.proc p).state = .unused) : Finishes p .addHead s s' := by
  unfold stateListAdd at h
  split at h
  · next hhead =>
      cases h
      refine .go .addEmptyHead s (by simp [access, hhead]) ?_
      exact .go _ _ rfl (.go _ _ rfl (.go _ _ rfl (finishes_assert hst)))
  · next x hhead =>
      split at h
      · cases h
      · next y htail =>
          cases h
          refine .go .addTail s (by simp [access, hhead]) ?_
          refine .go (.addLink y) s (by simp [access, deref, htail]) (.go _ _ rfl ?_)
          -- the tail is still `y`, and its link is `p` now
          refine .go (.addTailNext y) (s.setNext y (some p)) ?_ ?_
          · show deref (s.pLists .free).tail _ _ = _
            rw [htail]
            rfl
          refine .go (.addTailStore (some p)) (s.setNext y (some p)) (by simp [access])
            (.go _ _ rfl ?_)
          refine .go (.addClear p) ((s.setNext y (some p)).setTail .free (some p)) ?_ ?_
          · simp [access, deref, PTable.setTail]
          · exact .go _ _ rfl (finishes_assert hst)

/-- The loop of `stateListRemove`. -/
theorem finishes_loop {q c : Slot} (hrest : Finishes p (.rmFound q c) s t) :
    ∀ n x, findPrevious s.next p n (some x) (s.next x) = .ok (some q, some c) →
      Finishes p (.rmLoop x) s t := by
  intro n
  induction n with
  | zero =>
    intro x h
    cases hx : s.next x <;> simp [hx, findPrevious] at h
  | succ n ih =>
    intro x h
    cases hx : s.next x with
    | none => simp [hx, findPrevious] at h
    | some y =>
      rw [hx, findPrevious] at h
      split at h
      · next hy =>
          cases h
          exact .go (.rmFound q c) s (by simp [access, hx, loopTest, hy]) hrest
      · next hy => exact .go (.rmLoop y) s (by simp [access, hx, loopTest, hy]) (ih y h)

/-- The member `c` of the embryo list is unlinked. -/
theorem finishes_unlink {q c y : Slot} (htail : (s.pLists .embryo).tail = some y)
    (hrest : Finishes p .addHead ((if c = y then (s.setTail .embryo (some q)).setNext q none
      else s.setNext q (s.next c)).setNext p none) t) : Finishes p (.rmFound q c) s t := by
  split at hrest
  · next hc =>
      refine .go (.rmTailStore q) s (by simp [access, htail, hc]) (.go _ _ rfl ?_)
      refine .go (.rmTailNext q) (s.setTail .embryo (some q))
        (by simp [access, deref, PTable.setTail]) ?_
      exact .go _ _ rfl (.go _ _ rfl hrest)
  · next hc =>
      have hne : ¬y = c := fun he => hc he.symm
      refine .go (.rmLink q c) s (by simp [access, htail, hne]) ?_
      exact .go _ _ rfl (.go _ _ rfl (.go _ _ rfl hrest))

theorem finishes_remove (h : stateListRemove .embryo p s = .ok (0, s'))
    (hrest : Finishes p .addHead s' t) : Finishes p .rmHead s t := by
  unfold stateListRemove at h
  split at h
  · cases h
  · cases h
  · next x y hhead htail =>
      refine .go .rmTail s (by simp [access, hhead]) (.go .rmCurrent s (by simp [access, htail]) ?_)
      split at h
      · next hx =>
          cases h
          refine .go .rmFirst s (by simp [access, hhead, hx]) ?_
          refine .go (.rmFirstNext x) s (by simp [access, deref, hhead]) ?_
          exact .go _ _ rfl (.go _ _ rfl hrest)
      · next hx =>
          refine .go (.rmLoop x) s (by simp [access, hhead, hx]) ?_
          obtain ⟨⟨previous, current⟩, hfind, h⟩ := of_bind h
          have hstep : findPrevious s.next p fuel none (some x) =
              findPrevious s.next p (fuel - 1) (some x) (s.next x) := if_neg hx
          rw [hstep] at hfind
          cases current with
          | none => cases h
          | some c =>
            cases previous with
            | none => cases h
            | some q =>
              obtain rfl := (Prod.mk.inj (Except.ok.inj h)).2
              exact finishes_loop (finishes_unlink htail hrest) _ x hfind

theorem finishes_relist (h : relist .p3p4 .embryo .free p .unused s = .ok t) :
    Finishes p .rmHead s t := by
  obtain ⟨t', htransfer, h⟩ := of_bind h
  obtain ⟨u, hassert, h⟩ := of_bind h
  obtain rfl := Except.ok.inj h
  obtain ⟨s1, hremove, hadd⟩ := of_bind htransfer
  obtain ⟨⟨r, s1'⟩, hrm, h⟩ := of_bind hremove
  obtain ⟨⟨r', s2⟩, had, h'⟩ := of_bind hadd
  have hst : (t'.proc p).state = .unused := by
    unfold assertState at hassert
    split_ifs at hassert with hst
    exact hst
  by_cases hr : r = 0
  · subst hr
    by_cases hr' : r' = 0
    · subst hr'
      cases h
      cases h'
      exact finishes_remove hrm (finishes_add had hst)
    · simp [hr'] at h'
  · simp [hr] at h

end

end PTable

/-! ## The machine -/

/-- Which rollback is under way, and how far it has come. -/
inductive Phase
  /-- `fork` has stored the state and has not yet taken the lock. -/
  | fork
  | alloc (pc : Pc)
  deriving DecidableEq, Repr

/-- The machine of `Sys`, and the process that gives back a slot, the slot, and the phase. -/
structure RollSys where
  sys : Sys
  roll : Option (Slot × Slot × Phase)

inductive RollAct
  | act (a : Act)
  /-- `copyuvm` has failed: `np->state = UNUSED`. -/
  | failFork (c : ℕ)
  /-- The section of `fork` that moves the slot to the free list. -/
  | endFork (c : ℕ)
  /-- `kalloc` has failed: `p->state = UNUSED`. -/
  | failAlloc (c : ℕ)
  /-- The next access of `allocproc`. -/
  | access (c : ℕ)
  deriving DecidableEq, Repr

/-- The actions that are stores made without the lock, and not sections. -/
def Act.isStore : Act → Bool
  | .tick | .forkCopy _ | .forkUid _ | .forkGid _ | .setuid _ _ | .setgid _ _ | .execSetuid _ _ =>
    true
  | _ => false

namespace RollSys

open Sys

instance (s : Sys) (q : Slot) (a : Act) : Decidable (Act.leaves s q a) :=
  match a with
  | .forkFail _ | .forkCopy _ => inferInstanceAs (Decidable (_ ≠ _))
  | .tick | .schedEnter _ | .schedStep _ | .forkAlloc _ | .forkPublish _ | .forkUid _ | .forkGid _
  | .exit _ | .wait _ | .yield _ | .sleep _ _ | .wakeup _ | .kill _ | .setpriority _ _ | .setuid _ _
  | .setgid _ _ | .execSetuid _ _ => isTrue trivial

/-- The first store of a rollback. -/
def start (ph : Phase) (c : ℕ) (r : RollSys) : Except Halt RollSys :=
  if r.roll = none ∧ r.sys.lock = none then
    match r.sys.cpu c with
    | .run _ q =>
      match Kont.atAlloc (r.sys.kont q) with
      | some np => .ok ⟨r.sys.mask np, some (q, np, ph)⟩
      | none => .error .disabled
    | _ => .error .disabled
  else .error .disabled

/-- The rollback is over, with the table `pt`. -/
def finish (q : Slot) (pt : PTable) (r : RollSys) : RollSys :=
  ⟨{ r.sys with pt := pt }.setKont q .run, none⟩

/-- One step. Nobody but the process itself goes on with what it does. -/
def step (a : RollAct) (r : RollSys) : Except Halt RollSys :=
  match a with
  | .act a =>
    match r.roll with
    | some (q, _, _) => if Act.leaves r.sys q a then (r.sys.step .p3p4 a).map (⟨·, r.roll⟩)
        else .error .disabled
    | none => (r.sys.step .p3p4 a).map (⟨·, none⟩)
  | .failFork c => r.start .fork c
  | .failAlloc c => r.start (.alloc .rmHead) c
  | .endFork c =>
    match r.roll with
    | some (q, np, .fork) =>
      if (r.sys.cpu c).running = some q ∧ r.sys.lock = none then do
        let pt ← runSection (relist .p3p4 .embryo .free np .unused r.sys.pt)
        .ok (r.finish q pt)
      else .error .disabled
    | _ => .error .disabled
  | .access c =>
    match r.roll with
    | some (q, np, .alloc pc) =>
      if (r.sys.cpu c).running = some q ∧ r.sys.lock = none then do
        let (pc', pt) ← runSection (PTable.access np pc r.sys.pt)
        if pc' = .done then .ok (r.finish q pt)
        else .ok ⟨{ r.sys with pt := pt }, some (q, np, .alloc pc')⟩
      else .error .disabled
    | _ => .error .disabled

def Init (r : RollSys) : Prop := Sys.Init .p3p4 r.sys ∧ r.roll = none

/-- `setpriority` is only called with a priority that has a list. -/
def PrioOk (a : RollAct) (r : RollSys) : Prop :=
  match a with
  | .act a => Sys.PrioOk a r.sys
  | _ => True

/-- No section runs between the first and the last access of a rollback by `allocproc`. -/
def Undisturbed (a : RollAct) (r : RollSys) : Prop :=
  match a, r.roll with
  | .act a, some (_, _, .alloc _) => a.isStore = true
  | _, _ => True

/-! ## The invariant -/

/-- What holds in a run that is not disturbed. -/
def RollInv (r : RollSys) : Prop :=
  match r.roll with
  | none => SysInv .p3p4 r.sys
  | some (q, np, .fork) => ∃ s, SysInv .p3p4 s ∧ s.kont q = .forkAlloc np ∧ r.sys = s.mask np
  | some (q, np, .alloc pc) => r.sys.kont q = .forkAlloc np ∧ pc ≠ .done ∧
      ∃ pt, Finishes np pc r.sys.pt pt ∧ SysInv .p3p4 (r.finish q pt).sys

/-! ### `fork` is left where it is -/

variable {a : Act} {q np : Slot}

/-- No action of another process takes `q` out of `fork`. -/
theorem kont_of_leaves {s s' : Life} (h : Life.Step a s s') (hk : s.kont q = .forkAlloc np)
    (ha : ∀ c, a = .forkFail c ∨ a = .forkCopy c → s.running c ≠ some q) :
    s'.kont q = .forkAlloc np := by
  have hother : ∀ {x : Slot} {k : Kont}, x ≠ q → (update s.kont x k) q = .forkAlloc np :=
    fun hx => by rw [update_of_ne hx.symm, hk]
  have hne : ∀ {x : Slot}, s.kont x ≠ .forkAlloc np → x ≠ q := by
    rintro x hx rfl
    exact hx hk
  cases h with
  | idle | wake | exit | yield | setuid | setgid | execSetuid => exact hk
  | switch hc hp =>
    next p =>
      by_cases hpq : p = q
      · subst hpq
        simp [hk, Life.resumed]
      · exact hother hpq
  | forkAlloc hc hq hnp => exact hother (hne (by simp [hq]))
  | forkFail hc hq | forkCopy hc hq =>
    refine hother ?_
    rintro rfl
    exact ha _ (by simp) hc
  | forkPublish hc hq | forkUid hc hq | forkGid hc hq => exact hother (hne (by simp [hq]))
  | reap hc hq hp hpar => exact hother (hne (by rcases hq with hq | hq <;> simp [hq]))
  | waitReturn hc hq | waitSleep hc hq =>
    exact hother (hne (by rcases hq with hq | hq <;> simp [hq]))
  | sleep chan hc hq => exact hother (hne (by simp [hq]))

theorem kont_step {s s' : Sys} (hinv : SysInv .p3p4 s) (hok : Sys.PrioOk a s)
    (hk : s.kont q = .forkAlloc np) (ha : Act.leaves s q a) (hs : s.step .p3p4 a = .ok s') :
    s'.kont q = .forkAlloc np := by
  refine kont_of_leaves (step_inv hinv hok hs).2 hk ?_
  rintro c (rfl | rfl)
  · exact ha
  · exact ha

/-! ### Stores made without the lock -/

variable {f : PTable → Proc → Proc}

/-- An assignment of values that the list code neither reads nor changes. -/
theorem oblivious_modify (y : Slot) (hcore : ∀ s s' : PTable, s'.core = s.core → f s' = f s)
    (hnext : ∀ s pr v, f s { pr with next := v } = { f s pr with next := v })
    (hprio : ∀ s pr, (f s pr).priority = pr.priority) : Oblivious fun s => s.modify y (f s) where
  next s := by
    refine modify_next s y fun pr => ?_
    have h := congrArg Proc.next (hnext s pr pr.next)
    exact h
  pLists _ := rfl
  priority s p := by
    by_cases hp : p = y
    · subst hp
      simp [hprio]
    · simp [hp]
  setNext s p v := by
    rw [hcore s _ (core_setNext s p v)]
    by_cases hp : p = y
    · subst hp
      unfold PTable.setNext
      rw [modify_modify, modify_modify]
      exact congrArg (s.modify p) (funext fun pr => (hnext s pr v).symm)
    · exact modify_comm (Ne.symm hp) s _ _
  setHead s l v := by rw [hcore s _ (core_setHead s l v)]; rfl
  setTail s l v := by rw [hcore s _ (core_setTail s l v)]; rfl

/-- What a store made without the lock does to the table. -/
structure Store (G : PTable → PTable) : Prop where
  oblivious : Oblivious G
  state : ∀ s p, ((G s).proc p).state = (s.proc p).state

theorem store_modify (y : Slot) (hcore : ∀ s s' : PTable, s'.core = s.core → f s' = f s)
    (hnext : ∀ s pr v, f s { pr with next := v } = { f s pr with next := v })
    (hprio : ∀ s pr, (f s pr).priority = pr.priority) (hstate : ∀ s pr, (f s pr).state = pr.state) :
    Store fun s => s.modify y (f s) where
  oblivious := oblivious_modify y hcore hnext hprio
  state s p := by
    by_cases hp : p = y
    · subst hp
      simp [hstate]
    · simp [hp]

theorem store_forkCopy (x y : Slot) : Store (forkCopy x y) :=
  store_modify y (fun s s' h => by
    rw [field_of_core h Proc.sz (fun _ _ => rfl), field_of_core h Proc.name (fun _ _ => rfl)])
    (fun _ _ _ => rfl) (fun _ _ => rfl) (fun _ _ => rfl)

theorem store_forkUid (x y : Slot) : Store (forkUid x y) :=
  store_modify y (fun s s' h => by rw [field_of_core h Proc.uid (fun _ _ => rfl)])
    (fun _ _ _ => rfl) (fun _ _ => rfl) (fun _ _ => rfl)

theorem store_forkGid (x y : Slot) : Store (forkGid x y) :=
  store_modify y (fun s s' h => by rw [field_of_core h Proc.gid (fun _ _ => rfl)])
    (fun _ _ _ => rfl) (fun _ _ => rfl) (fun _ _ => rfl)

theorem store_setUid (y : Slot) (v : Word) : Store fun s => s.modify y ({ · with uid := v }) :=
  store_modify y (fun _ _ _ => rfl) (fun _ _ _ => rfl) (fun _ _ => rfl) (fun _ _ => rfl)

theorem store_setGid (y : Slot) (v : Word) : Store fun s => s.modify y ({ · with gid := v }) :=
  store_modify y (fun _ _ _ => rfl) (fun _ _ _ => rfl) (fun _ _ => rfl) (fun _ _ => rfl)

theorem store_tick : Store fun s => { s with ticks := s.ticks + 1 } :=
  ⟨⟨fun _ => rfl, fun _ => rfl, fun _ _ => rfl, fun _ _ _ => rfl, fun _ _ _ => rfl, fun _ _ _ => rfl⟩,
    fun _ _ => rfl⟩

/-- `s1` is `s` after the store `G` by an action that is possible with any other table too. -/
def StoresTo (a : Act) (q : Slot) (s s1 : Sys) : Prop :=
  ∃ G, Store G ∧ s1.pt = G s.pt ∧ s1.cpu = s.cpu ∧ s1.kont q = s.kont q ∧
    ∀ t : PTable, Sys.step .p3p4 a ({ s with pt := t }.setKont q .run) =
      .ok ({ s1 with pt := G t }.setKont q .run)

theorem setKont_comm {x q : Slot} (hx : x ≠ q) (s : Sys) (k k' : Kont) :
    (s.setKont x k).setKont q k' = (s.setKont q k').setKont x k := by
  simp only [Sys.setKont]
  rw [update_comm hx]

section

variable {a : Act} {s : Sys} {q np : Slot} {c : ℕ}

/-- A store of `fork` to its child, after which it goes on at `k'`. -/
theorem storesTo_child (G : Slot → Slot → PTable → PTable) (k' : Slot → Kont) {cur : Cursor}
    {x y : Slot}
    {k : Kont → Option Slot} (hstep : ∀ t : Sys, t.step .p3p4 a =
      t.asProc c fun _ x => t.onChild x k fun y =>
      .ok ({ t with pt := G x y t.pt }.setKont x (k' y)))
    (hc : s.cpu c = .run cur x) (hy : k (s.kont x) = some y) (hx : x ≠ q) (hG : Store (G x y)) :
    StoresTo a q s ({ s with pt := G x y s.pt }.setKont x (k' y)) := by
  refine ⟨G x y, hG, rfl, rfl, update_of_ne hx.symm _ _, fun t => ?_⟩
  have hcF : ({ s with pt := t }.setKont q .run).cpu c = .run cur x := hc
  have hyF : k (({ s with pt := t }.setKont q .run).kont x) = some y := by
    have hkont : ({ s with pt := t }.setKont q .run).kont x = s.kont x := update_of_ne hx _ _
    rw [hkont, hy]
  rw [hstep, asProc_run hcF, onChild_some hyF]
  exact congrArg Except.ok (setKont_comm hx.symm { s with pt := G x y t } .run (k' y))

/-- A store of a process to its own slot. -/
theorem storesTo_self (G : Slot → PTable → PTable) (P : Sys → Slot → Prop)
    [∀ t x, Decidable (P t x)]
    {cur : Cursor} {x : Slot} (hstep : ∀ t : Sys, t.step .p3p4 a =
      t.asProc c fun _ x => guarded (P t x) (.ok { t with pt := G x t.pt }))
    (hc : s.cpu c = .run cur x) (hP : ∀ t, P ({ s with pt := t }.setKont q .run) x)
    (hG : Store (G x)) :
    StoresTo a q s { s with pt := G x s.pt } := by
  refine ⟨G x, hG, rfl, rfl, rfl, fun t => ?_⟩
  have hcF : ({ s with pt := t }.setKont q .run).cpu c = .run cur x := hc
  rw [hstep, asProc_run hcF, guarded, if_pos (hP t)]
  rfl

theorem step_store (ha : a.isStore = true) (hk : s.kont q = .forkAlloc np) (hl : Act.leaves s q a) :
    Yields (fun _ => True) (StoresTo a q s) (s.step .p3p4 a) := by
  have hne : ∀ {x : Slot}, s.kont x ≠ .forkAlloc np → x ≠ q := by
    rintro x hx rfl
    exact hx hk
  have hrun : ∀ {x : Slot} (t : PTable), s.kont x = .run →
      ({ s with pt := t }.setKont q .run).kont x = .run := by
    intro x t hx
    exact (update_of_ne (hne (by simp [hx])) _ _).trans hx
  cases a with
  | tick => exact .ok ⟨_, store_tick, rfl, rfl, rfl, fun _ => rfl⟩
  | forkCopy c =>
    refine yields_child fun cur x y hc hy => ?_
    have hx : x ≠ q := by
      rintro rfl
      exact hl (by rw [hc]; rfl)
    exact storesTo_child forkCopy .forkReady (fun _ => rfl) hc hy hx (store_forkCopy x y)
  | forkUid c =>
    refine yields_child fun cur x y hc hy => ?_
    exact storesTo_child forkUid .forkGid (fun _ => rfl) hc hy (hne (by simp [atUid_eq hy]))
      (store_forkUid x y)
  | forkGid c =>
    refine yields_child fun cur x y hc hy => ?_
    exact storesTo_child forkGid (fun _ => .run) (fun _ => rfl) hc hy (hne (by simp [atGid_eq hy]))
      (store_forkGid x y)
  | setuid c v =>
    refine yields_own fun cur x hc hg => ?_
    exact storesTo_self (fun x s => s.modify x ({ · with uid := BitVec.ofInt 32 v }))
      (fun t x => t.kont x = .run ∧ validId v) (fun _ => rfl) hc (fun t => ⟨hrun t hg.1, hg.2⟩)
      (store_setUid x _)
  | setgid c v =>
    refine yields_own fun cur x hc hg => ?_
    exact storesTo_self (fun x s => s.modify x ({ · with gid := BitVec.ofInt 32 v }))
      (fun t x => t.kont x = .run ∧ validId v) (fun _ => rfl) hc (fun t => ⟨hrun t hg.1, hg.2⟩)
      (store_setGid x _)
  | execSetuid c v =>
    refine yields_own fun cur x hc hg => ?_
    exact storesTo_self (fun x s => s.modify x ({ · with uid := v.setWidth 32 }))
      (fun t x => t.kont x = .run) (fun _ => rfl) hc (fun t => hrun t hg) (store_setUid x _)
  | _ => cases ha

end

/-! ### Every step -/

variable {r r' : RollSys}

theorem running_eq {x : CpuState} {q : Slot} (h : x.running = some q) : ∃ cur, x = .run cur q := by
  cases x <;> simp_all [CpuState.running]

variable {c : ℕ}

/-- Undone at once, the allocation of `np` leaves the machine in order. -/
theorem rolledBack_inv {s : Sys} {cur : Cursor} (hinv : SysInv .p3p4 s)
    (hlock : s.lock = none) (hc : s.cpu c = .run cur q) (hk : s.kont q = .forkAlloc np) :
    ∃ pt, rollback .p3p4 np s.pt = .ok pt ∧ SysInv .p3p4 ({ s with pt := pt }.setKont q .run) := by
  obtain ⟨pt, hpt, -, -⟩ := rollback_sim hinv.tab (hinv.life.alloc q np hk).1
  refine ⟨pt, hpt, (Sys.step_inv (a := .forkFail c) hinv trivial ?_).1⟩
  have hchild : Kont.atAlloc (s.kont q) = some np := by rw [hk]; rfl
  show s.asProc c _ = _
  rw [asProc_run hc, guarded, if_pos hlock, onChild_some hchild, hpt]
  rfl

/-- The first store, and what the rest will lead to. -/
theorem start_inv {ph : Phase} (h : RollInv r) (hph : ph = .fork ∨ ph = .alloc .rmHead) :
    Yields (fun _ => True) RollInv (r.start ph c) := by
  unfold start
  split
  case isFalse => exact .error trivial
  case isTrue hfree =>
    obtain ⟨hroll, hlock⟩ := hfree
    have hinv : SysInv .p3p4 r.sys := by
      unfold RollInv at h
      rw [hroll] at h
      exact h
    split
    · next cur q hc =>
        split
        · next np hk =>
            refine .ok ?_
            have hkont := atAlloc_eq hk
            rcases hph with rfl | rfl
            · exact ⟨r.sys, hinv, hkont, rfl⟩
            · obtain ⟨pt, hpt, hinv'⟩ := rolledBack_inv hinv hlock hc hkont
              exact ⟨hkont, by simp, pt, finishes_relist hpt, hinv'⟩
        · exact .error trivial
    · exact .error trivial

theorem leaves_congr {s s' : Sys} {q : Slot} (hcpu : s'.cpu = s.cpu)
    (h : Act.leaves s' q a) : Act.leaves s q a := by
  cases a <;> simp_all [Act.leaves]

theorem prioOk_congr {s : Sys} (s' : Sys) (h : Sys.PrioOk a s) : Sys.PrioOk a s' := by
  cases a <;> exact h

/-- An action that the rollback under way allows. -/
theorem act_ok {s : Sys} {roll : Option (Slot × Slot × Phase)}
    (h : step (.act a) ⟨s, roll⟩ = .ok r') :
    (∀ q np ph, roll = some (q, np, ph) → Act.leaves s q a) ∧
      ∃ s', s.step .p3p4 a = .ok s' ∧ r' = ⟨s', roll⟩ := by
  have hmap : ∀ {x : Except Halt Sys}, x.map (⟨·, roll⟩) = Except.ok r' →
      ∃ s', x = .ok s' ∧ r' = ⟨s', roll⟩ := by
    intro x hx
    cases x with
    | error e => cases hx
    | ok s' => exact ⟨s', rfl, (Except.ok.inj hx).symm⟩
  rcases roll with _ | ⟨q, np, ph⟩
  · exact ⟨fun q np ph h => (by cases h), hmap h⟩
  · by_cases hl : Act.leaves s q a
    · simp only [step, if_pos hl] at h
      refine ⟨fun q' np' ph' he => ?_, hmap h⟩
      cases he
      exact hl
    · simp only [step, if_neg hl] at h
      cases h

theorem act_inv (h : RollInv r) (hprio : PrioOk (.act a) r) (hstore : Undisturbed (.act a) r) :
    Yields (fun _ => True) RollInv (r.step (.act a)) := by
  refine .of_ok fun r' hr => ?_
  obtain ⟨s, roll⟩ := r
  obtain ⟨hleaves, s', hs, rfl⟩ := act_ok hr
  match roll with
  | none => exact (Sys.step_inv h hprio hs).1
  | some (q, np, .fork) =>
    obtain ⟨s0, hinv, hk, hmask⟩ := h
    obtain rfl : s = s0.mask np := hmask
    have hl := leaves_congr (s := s0) rfl (hleaves q np _ rfl)
    rw [step_mask hinv hk hl] at hs
    cases hs0 : s0.step .p3p4 a with
    | error e =>
      rw [hs0] at hs
      cases hs
    | ok s1 =>
      rw [hs0] at hs
      obtain rfl := Except.ok.inj hs
      have hprio0 : Sys.PrioOk a s0 := prioOk_congr (s := s0.mask np) s0 hprio
      exact ⟨s1, (Sys.step_inv hinv hprio0 hs0).1, kont_step hinv hprio0 hk hl hs0, rfl⟩
  | some (q, np, .alloc pc) =>
    obtain ⟨hk, hpc, pt, hfin, hinv⟩ := h
    obtain ⟨G, hG, hpt, -, hkont, hstep⟩ := (step_store hstore hk (hleaves q np _ rfl)).1 s' hs
    refine ⟨hkont.trans hk, hpc, G pt, ?_, ?_⟩
    · show Finishes np pc s'.pt (G pt)
      rw [hpt]
      exact hfin.of_oblivious hG.oblivious hG.state
    · exact (Sys.step_inv hinv (prioOk_congr (s := s) _ hprio) (hstep pt)).1

theorem endFork_inv (h : RollInv r) :
    Yields (fun e => e = .disabled) RollInv (r.step (.endFork c)) := by
  obtain ⟨s, roll⟩ := r
  match roll with
  | none => exact .error rfl
  | some (q, np, .alloc pc) => exact .error rfl
  | some (q, np, .fork) =>
    obtain ⟨s0, hinv, hk, hmask⟩ := h
    obtain rfl : s = s0.mask np := hmask
    simp only [step]
    split
    · next hen =>
        obtain ⟨cur, hc⟩ := running_eq hen.1
        obtain ⟨pt, hpt, hinv'⟩ := rolledBack_inv hinv hen.2 hc hk
        rw [show relist .p3p4 .embryo .free np .unused (s0.mask np).pt = .ok pt from hpt]
        exact .ok hinv'
    · exact .error rfl

theorem access_inv (h : RollInv r) :
    Yields (fun e => e = .disabled) RollInv (r.step (.access c)) := by
  obtain ⟨s, roll⟩ := r
  match roll with
  | none => exact .error rfl
  | some (q, np, .fork) => exact .error rfl
  | some (q, np, .alloc pc) =>
    obtain ⟨hk, hpc, pt, hfin, hinv⟩ := h
    obtain ⟨pc', pt', hacc, hfin'⟩ := hfin.next hpc
    simp only [step]
    split
    · rw [show PTable.access np pc s.pt = .ok (pc', pt') from hacc]
      show Yields _ _ (if pc' = .done then _ else _)
      split
      · next hdone =>
          subst hdone
          obtain rfl := hfin'.eq_of_done
          exact .ok hinv
      · next hdone => exact .ok ⟨hk, hdone, pt, hfin', hinv⟩
    · exact .error rfl

theorem step_inv {a : RollAct} (h : RollInv r) (hprio : PrioOk a r) (hok : Undisturbed a r) :
    Yields (fun _ => True) RollInv (r.step a) := by
  cases a with
  | act a => exact act_inv h hprio hok
  | failFork c => exact start_inv h (.inl rfl)
  | failAlloc c => exact start_inv h (.inr rfl)
  | endFork c => exact (endFork_inv h).mono (fun _ _ => trivial) fun _ h => h
  | access c => exact (access_inv h).mono (fun _ _ => trivial) fun _ h => h

theorem reachable_inv
    (h : Reachable step Init (fun a r => PrioOk a r ∧ Undisturbed a r) r) : RollInv r := by
  refine h.invariant (fun r hr => ?_) fun a r r' hr hok hs => (step_inv hr hok.1 hok.2).1 r' hs
  unfold RollInv
  rw [hr.2]
  exact hr.1.inv

/-- In every run in which no section comes between the accesses of a rollback by `allocproc`, and
    whatever comes into a rollback by `fork`: when no rollback is under way the lists are sound, and
    no rollback panics. -/
theorem rollback_safe (r : RollSys)
    (h : Reachable step Init (fun a r => PrioOk a r ∧ Undisturbed a r) r) :
    (r.roll = none → ∃ L, ListsSound r.sys.pt L) ∧
      ∀ c e, step (.access c) r ≠ .error (.panic e) ∧ step (.endFork c) r ≠ .error (.panic e) := by
  have hinv := reachable_inv h
  constructor
  · intro hroll
    unfold RollInv at hinv
    rw [hroll] at hinv
    obtain ⟨L, hL⟩ := hinv.tab
    exact ⟨L, listsSound_of_inv hL⟩
  · intro c e
    constructor
    · intro he
      cases (access_inv hinv).2 _ he
    · intro he
      cases (endFork_inv hinv).2 _ he

instance (a : RollAct) (r : RollSys) : Decidable (PrioOk a r) :=
  match a with
  | .act a => inferInstanceAs (Decidable (Sys.PrioOk a r.sys))
  | .failFork _ | .endFork _ | .failAlloc _ | .access _ => isTrue trivial

instance (a : RollAct) (r : RollSys) : Decidable (Undisturbed a r) :=
  match a, r with
  | .act _, ⟨_, some (_, _, .alloc _)⟩ => inferInstanceAs (Decidable (_ = true))
  | .act _, ⟨_, some (_, _, .fork)⟩ | .act _, ⟨_, none⟩ => isTrue trivial
  | .failFork _, _ | .endFork _, _ | .failAlloc _, _ | .access _, _ => isTrue trivial

/-- What a list of actions from the first state shows of its last state. -/
theorem reachable_any (ok : RollAct → RollSys → Prop) [∀ a r, Decidable (ok a r)]
    (as : List RollAct) (P : RollSys → Prop) [DecidablePred P] (h : (match userinit .p3p4 0 with
      | .ok pt => (execOk step (fun a r => decide (ok a r)) as ⟨boot pt, none⟩).any
          (fun r => decide (P r))
      | .error _ => false) = true) : ∃ r, Reachable step Init ok r ∧ P r := by
  split at h
  · next pt hpt =>
      obtain ⟨r, hr, hP⟩ := execOk_any _ _ as ⟨boot pt, none⟩ P h
      exact ⟨r, Reachable.execOk (fun _ _ hok => of_decide_eq_true hok) as ⟨boot pt, none⟩ r
        (.init ⟨⟨0, pt, hpt, rfl⟩, rfl⟩) hr, hP⟩
  · exact absurd h (by simp)

/-- Init runs on CPU 0 and its child on CPU 1, and init has got slot 2 for another child. -/
def twoForkers : List RollAct :=
  (switchAndFork ++ [Act.schedEnter 1, .schedStep 1, .forkAlloc 0]).map .act

/-- `copyuvm` fails for init while its child forks on CPU 1; then `kalloc` fails for init. -/
def bothFail : List RollAct :=
  twoForkers ++ [.failFork 0, .act (.forkAlloc 1), .endFork 0, .act (.forkAlloc 0), .failAlloc 0,
    .act .tick] ++ List.replicate 18 (.access 0)

set_option maxRecDepth 100000 in
theorem rollback_safe_bothFail : ∃ r : RollSys, r.roll = none ∧ (r.sys.pt.proc 3).state = .embryo ∧
    (r.sys.pt.proc 2).state = .unused ∧ ∃ L, ListsSound r.sys.pt L := by
  obtain ⟨r, hr, hroll, h3, h2⟩ := reachable_any (fun a r => PrioOk a r ∧ Undisturbed a r) bothFail
    (fun r => r.roll = none ∧ (r.sys.pt.proc 3).state = .embryo ∧ (r.sys.pt.proc 2).state = .unused)
    (by decide +kernel)
  exact ⟨r, hroll, h3, h2, (rollback_safe r hr).1 hroll⟩

/-- Between the load of the link of slot 2 and the store of it to the head of the embryo list, CPU 1
    appends slot 3 to that list. -/
def slotLost : List RollAct :=
  twoForkers ++ [.failAlloc 0] ++ List.replicate 5 (.access 0) ++ [.act (.forkAlloc 1)] ++
    List.replicate 10 (.access 0)

set_option maxRecDepth 100000 in
/-- The rollback ends, and slot 3 is on no list. -/
theorem rollback_loses_slot :
    ∃ r, Reachable step Init PrioOk r ∧ r.roll = none ∧ (r.sys.pt.proc 3).state = .embryo ∧
      (r.sys.pt.pLists .embryo).head = none ∧ ¬∃ L, ListsSound r.sys.pt L := by
  obtain ⟨r, hr, hroll, hst, hhead⟩ := reachable_any PrioOk slotLost
    (fun r => r.roll = none ∧ (r.sys.pt.proc 3).state = .embryo ∧
      (r.sys.pt.pLists .embryo).head = none)
    (by decide +kernel)
  refine ⟨r, hr, hroll, hst, hhead, ?_⟩
  rintro ⟨L, hL⟩
  have hmem : 3 ∈ L .embryo := (hL.home 3 .embryo).2 (by simpa using hst)
  have hchain := hL.chain .embryo
  rw [hhead] at hchain
  have hnil := hchain.head_eq
  rw [eq_comm, List.head?_eq_none_iff] at hnil
  rw [hnil] at hmem
  cases hmem

end RollSys

end Xv6
