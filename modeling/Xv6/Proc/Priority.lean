import Xv6.Proc.Spec
import Mathlib.Data.List.Flatten

set_option autoImplicit false

/-! # What `setpriority` and `promoteAll` do (`CS333_P3P4`)

Both move `RUNNABLE` processes between the ready lists and assign to `SLEEPING` and `RUNNING` ones
where they are. The moves of `promoteAll` are made by a loop that stands on the process it moves:
the process is appended to the list one level up, where its `next` is null, and so the loop over a
list ends with the first member that moves. `turn` says which members a loop comes to; the table
after `promoteAll` is `modifyAll promote` for these. -/

namespace Xv6

open LinkedList

namespace PTable

variable {s : PTable} {L : ListId → List Slot}

/-! ## The same assignment to many slots -/

/-- Assign to fields of the slots `ps`, one after the other. -/
def modifyAll (f : Proc → Proc) (ps : List Slot) (s : PTable) : PTable :=
  ps.foldl (fun s p => s.modify p f) s

theorem modifyAll_append (f : Proc → Proc) (ps qs : List Slot) (s : PTable) :
    modifyAll f (ps ++ qs) s = modifyAll f qs (modifyAll f ps s) :=
  List.foldl_append ..

variable {ps : List Slot}

theorem modifyAll_proc (f : Proc → Proc) (hps : ps.Nodup) (s : PTable) (x : Slot) :
    (modifyAll f ps s).proc x = if x ∈ ps then f (s.proc x) else s.proc x := by
  induction ps generalizing s with
  | nil => simp [modifyAll]
  | cons p ps ih =>
    obtain ⟨hp, hps⟩ := List.nodup_cons.1 hps
    have hcons : modifyAll f (p :: ps) s = modifyAll f ps (s.modify p f) := rfl
    rw [hcons, ih hps]
    by_cases hx : x = p
    · subst hx
      simp [hp]
    · simp [hx]

variable {f : Proc → Proc}

theorem core_modifyAll_congr {s s' : PTable} (h : s'.core = s.core)
    (hf : ∀ pr v, f { pr with next := v } = { f pr with next := v }) (ps : List Slot) :
    (modifyAll f ps s').core = (modifyAll f ps s).core := by
  induction ps generalizing s s' with
  | nil => exact h
  | cons p ps ih => exact ih (core_modify_congr h p hf)

theorem modifyAll_congr {g : Proc → Proc} (hps : ps.Nodup)
    (hfg : ∀ p ∈ ps, f (s.proc p) = g (s.proc p)) : modifyAll f ps s = modifyAll g ps s := by
  induction ps generalizing s with
  | nil => rfl
  | cons p ps ih =>
    obtain ⟨hp, hps⟩ := List.nodup_cons.1 hps
    have hhead : s.modify p f = s.modify p g := by
      simp only [modify, hfg p List.mem_cons_self]
    have htail : ∀ q ∈ ps, f ((s.modify p g).proc q) = g ((s.modify p g).proc q) := by
      intro q hq
      have hne : q ≠ p := fun he => hp (he ▸ hq)
      simpa [hne] using hfg q (List.mem_cons_of_mem p hq)
    show modifyAll f ps (s.modify p f) = modifyAll g ps (s.modify p g)
    rw [hhead, ih hps htail]

/-- Assignments that leave the members of a list on it. -/
theorem Inv.modifyAll (h : Inv s L) {l : ListId} (hnext : ∀ pr, (f pr).next = pr.next)
    (hhome : ∀ pr, home pr = some l → home (f pr) = some l)
    (hprio : ∀ pr, pr.priority ≤ maxPrio → (f pr).priority ≤ maxPrio) (hps : ∀ p ∈ ps, p ∈ L l) :
    Inv (modifyAll f ps s) L := by
  induction ps generalizing s with
  | nil => exact h
  | cons p ps ih =>
    have hp : home (s.proc p) = some l := (h.mem_iff p l).1 (hps p List.mem_cons_self)
    refine ih (h.modify p hnext ?_ (hprio _ (h.prio p))) fun q hq =>
      hps q (List.mem_cons_of_mem p hq)
    rw [hp]
    exact hhome _ hp

theorem modifyAll_ident (hf : ∀ pr, ident (f pr) = ident pr) (ps : List Slot) (s : PTable) :
    SameIdent s (modifyAll f ps s) := by
  induction ps generalizing s with
  | nil => exact .refl s
  | cons p ps ih => exact (SameIdent.modify s p hf).trans (ih (s.modify p f))

/-! ## Loops over a list -/

/-- A loop over `l` whose body assigns to the members without moving them. -/
theorem forList_inPlace (h : Inv s L) (l : ListId) (hnext : ∀ pr, (f pr).next = pr.next) :
    forList l (fun p s => .ok (s.modify p f)) s = .ok (modifyAll f (L l) s) := by
  rw [forList_eq_foldlM h l]
  · exact foldlM_ok (fun s p => s.modify p f) (L l) s
  · intro p s s' hs
    obtain rfl := Except.ok.inj hs
    exact modify_next s p hnext

/-- A loop over `l` whose body moves the members elsewhere ends with the first one. -/
theorem forList_moves (h : Inv s L) (l : ListId) {body : Slot → PTable → Except Panic PTable}
    (hbody : ∀ p ∈ L l, ∀ s', body p s = .ok s' → s'.next p = none) :
    forList l body s =
      match (L l).head? with
      | none => .ok s
      | some p => body p s := by
  have hwalk := walk_eq_first PTable.next body Panic.hang (fun _ => true) s
    (fun _ hp => absurd hp (by simp)) fuel (s.pLists l).head (L l) (fun p hp _ => hbody p hp)
    (h.rep.chain l) (h.rep.length_le l)
  have hhead : (L l).find? (fun _ => true) = (L l).head? := by
    cases L l <;> rfl
  unfold forList
  rw [hwalk, hhead]
  cases (L l).head? <;> rfl

/-! ## Moving between the ready lists -/

variable {p : Slot} {f : ℕ → ℕ}

/-- Moving a `RUNNABLE` process to another priority. -/
theorem reprioritize_spec (h : Inv s L) (hp : (s.proc p).state = .runnable) {i : Prio}
    (hf : f (s.proc p).priority = i.val) (hne : i ≠ prioOf h p) :
    ∃ s', reprioritize f p s = .ok s' ∧ Inv s' (move L (.ready (prioOf h p)) (.ready i) p) ∧
      s'.core = (s.modify p (fun pr => { pr with priority := f pr.priority })).core ∧
      s'.next p = none := by
  have hi : i.val ≤ maxPrio := Nat.le_of_lt_succ i.isLt
  have hhome : home (s.proc p) = some (.ready (prioOf h p)) := home_eq_ready.2 ⟨hp, rfl⟩
  obtain ⟨s1, hrm, hrep1, hcore1⟩ := stateListRemove_spec h.rep hhome
  have hpr1 : (s1.proc p).priority = (s.proc p).priority := priority_of_core hcore1 p
  let g : Proc → Proc := fun pr => { pr with priority := f pr.priority }
  obtain ⟨s2, hadd, hrep2, hcore2, hn⟩ := stateListAdd_spec
    (hrep1.modify p (f := g) (fun _ => rfl)) (.ready i) (p := p) (by simp)
  have hcore : s2.core = (s.modify p g).core :=
    hcore2.trans (core_modify_congr hcore1 p (fun _ _ => rfl))
  refine ⟨s2, ?_, ?_, hcore, hn⟩
  · have hold : readyAt (s.proc p).priority = .ok (.ready (prioOf h p)) := readyAt_of_le (h.prio p)
    have hnew : readyAt ((s1.modify p g).proc p).priority = .ok (.ready i) := by
      simpa [g, hpr1, hf] using readyAt_of_le hi
    show (do
      let l ← readyAt (s.proc p).priority
      let s ← removeOrPanic l p s
      let s := s.modify p g
      let l ← readyAt (s.proc p).priority
      addOrPanic l p s) = .ok s2
    simp only [hold, removeOrPanic, hrm, bind, Except.bind, ne_eq, not_true_eq_false, if_false,
      hnew, addOrPanic, hadd]
  · refine h.of_move ?_ hcore (home_eq_ready.2 ⟨hp, hf⟩) (hf.le.trans hi)
    have hij : (.ready i : ListId) ≠ .ready (prioOf h p) := fun he => hne (ListId.ready.inj he)
    simpa [move, hij] using hrep2

/-- There is no list for the new priority: `ready[f(priority)]` is outside of the array. -/
theorem reprioritize_outOfBounds (h : Inv s L) (hp : (s.proc p).state = .runnable)
    (hf : maxPrio < f (s.proc p).priority) : reprioritize f p s = .error .outOfBounds := by
  have hhome : home (s.proc p) = some (.ready (prioOf h p)) := home_eq_ready.2 ⟨hp, rfl⟩
  obtain ⟨s1, hrm, _, hcore1⟩ := stateListRemove_spec h.rep hhome
  have hold : readyAt (s.proc p).priority = .ok (.ready (prioOf h p)) := readyAt_of_le (h.prio p)
  have hnew : readyAt (f (s.proc p).priority) = .error .outOfBounds := dif_neg (by omega)
  have hpr1 : (s1.proc p).priority = (s.proc p).priority := priority_of_core hcore1 p
  simp [reprioritize, hold, removeOrPanic, hrm, bind, Except.bind, hpr1, hnew]

/-- The priority decides the list of `RUNNABLE` processes only. -/
theorem home_priority {pr : Proc} (h : pr.state ≠ .runnable) (n : ℕ) (b : Word) :
    home { pr with priority := n, budget := b } = home pr := by
  unfold home
  cases hs : pr.state <;> simp_all

/-! ## `setpriority` -/

/-- A process at priority `n` with its full budget. -/
def setLevel (n : ℕ) (pr : Proc) : Proc := { pr with priority := n, budget := fullBudget n }

/-- The processes that `setpriority` looks at. -/
def ProcState.active (st : ProcState) : Prop := st = .runnable ∨ st = .sleeping ∨ st = .running

instance (st : ProcState) : Decidable (ProcState.active st) := inferInstanceAs (Decidable (_ ∨ _))

/-- What `setpriority` returns, and what it does. -/
inductive SetPriority (pid priority : Int) (s : PTable) (L : ListId → List Slot) :
    Except Panic (Int × PTable) → Prop
  /-- An argument is out of range. -/
  | refused (h : pid < 0 ∨ priority < 0 ∨ priority > maxPrio + 1) :
      SetPriority pid priority s L (.ok (-1, s))
  /-- A `RUNNABLE` process moves. -/
  | moved (p : Slot) (i j : Prio) (s' : PTable) (hpid : (s.proc p).pid = BitVec.ofInt 32 pid)
      (h0 : 0 ≤ pid) (hstate : (s.proc p).state = .runnable)
      (hold : (s.proc p).priority = i.val) (hnew : priority = j.val) (hne : i ≠ j)
      (hinv : Inv s' (move L (.ready i) (.ready j) p))
      (hcore : s'.core = (s.modify p (setLevel j.val)).core) :
      SetPriority pid priority s L (.ok (0, s'))
  /-- A `RUNNABLE` process is to move to a list that there is not. -/
  | outside (p : Slot) (hpid : (s.proc p).pid = BitVec.ofInt 32 pid) (h0 : 0 ≤ pid)
      (hstate : (s.proc p).state = .runnable) (hnew : priority = maxPrio + 1) :
      SetPriority pid priority s L (.error .outOfBounds)
  /-- A `SLEEPING` or `RUNNING` process gets its priority, in range or not. -/
  | set (p : Slot) (hpid : (s.proc p).pid = BitVec.ofInt 32 pid) (h0 : 0 ≤ pid)
      (hstate : (s.proc p).state = .sleeping ∨ (s.proc p).state = .running) (h1 : 0 ≤ priority)
      (h2 : priority ≤ maxPrio + 1) :
      SetPriority pid priority s L (.ok (0, s.modify p (setLevel priority.toNat)))
  /-- Nobody is found but `RUNNABLE` processes that have this priority already. -/
  | missed (h0 : 0 ≤ pid) (h1 : 0 ≤ priority) (h2 : priority ≤ maxPrio + 1)
      (hnone : ∀ p, ProcState.active (s.proc p).state → (s.proc p).pid = BitVec.ofInt 32 pid →
        (s.proc p).state = .runnable ∧ priority = (s.proc p).priority) :
      SetPriority pid priority s L (.ok (-1, s))

theorem mem_readyLists (h : Inv s L) : p ∈ readyLists.flatMap L ↔ (s.proc p).state = .runnable := by
  simp only [List.mem_flatMap, readyLists, List.mem_map, h.mem_iff]
  constructor
  · rintro ⟨l, ⟨i, _, rfl⟩, hhome⟩
    exact (home_eq_ready.1 hhome).1
  · intro hst
    exact ⟨.ready (prioOf h p), ⟨_, List.mem_finRange _, rfl⟩, home_eq_ready.2 ⟨hst, rfl⟩⟩

theorem mem_sleepRunning (h : Inv s L) :
    p ∈ [ListId.sleep, .running].flatMap L ↔ (s.proc p).state = .sleeping ∨
    (s.proc p).state = .running := by
  simp [h.mem_iff]

/-- A refill after an assignment of the priority. -/
theorem refill_modify (f : ℕ → ℕ) (p : Slot) (s : PTable) :
    refill p (s.modify p (fun pr => { pr with priority := f pr.priority })) =
      s.modify p (fun pr => setLevel (f pr.priority) pr) :=
  modify_modify s p _ _

theorem refill_core {s' : PTable}
    (h : s'.core = (s.modify p (fun pr => { pr with priority := f pr.priority })).core) :
    (refill p s').core = (s.modify p (fun pr => setLevel (f pr.priority) pr)).core := by
  rw [← refill_modify]
  exact core_modify_congr h p fun _ _ => rfl

theorem refill_inv (h : Inv s L) (p : Slot) : Inv (refill p s) L :=
  h.modify p (fun _ => rfl) (home_congr rfl rfl) (h.prio p)

theorem setpriority_eq (h : Inv s L) (pid priority : Int) :
    SetPriority pid priority s L (setpriority pid priority s) := by
  unfold setpriority
  split
  · next hbad => exact .refused hbad
  · next hgood =>
    push Not at hgood
    obtain ⟨h0, h1, h2⟩ := hgood
    simp only [findLists_eq h, bind, Except.bind]
    split
    · next p hfind =>
      have hst : (s.proc p).state = .runnable :=
        (mem_readyLists h).1 (List.mem_of_find?_eq_some hfind)
      have htest := List.find?_some hfind
      simp only [ne_eq, Bool.decide_and, Bool.and_eq_true, decide_eq_true_eq] at htest
      obtain ⟨hpid, hne⟩ := htest
      by_cases hle : priority ≤ maxPrio
      · obtain ⟨j, hj⟩ : ∃ j : Prio, priority.toNat = j.val := ⟨⟨priority.toNat, by omega⟩, rfl⟩
        have hij : j ≠ prioOf h p := by
          rintro rfl
          have : (prioOf h p).val = (s.proc p).priority := rfl
          omega
        obtain ⟨s1, hmove, hinv, hcore, _⟩ :=
          reprioritize_spec h hst (f := fun _ => priority.toNat) hj hij
        rw [hmove]
        refine .moved p (prioOf h p) j _ hpid h0 hst rfl (by omega) hij.symm (refill_inv hinv p) ?_
        rw [refill_core (f := fun _ => priority.toNat) hcore, hj]
      · rw [reprioritize_outOfBounds h hst (f := fun _ => priority.toNat) (by omega)]
        exact .outside p hpid h0 hst (by omega)
    · next hnone =>
      split
      · next p hfind =>
        have hst := (mem_sleepRunning h).1 (List.mem_of_find?_eq_some hfind)
        have hpid := List.find?_some hfind
        simp only [decide_eq_true_eq] at hpid
        rw [refill_modify (fun _ => priority.toNat)]
        exact .set p hpid h0 hst h1 h2
      · next hnone' =>
        refine .missed h0 h1 h2 fun p hactive hpid => ?_
        obtain hrun | hsr := hactive
        · refine ⟨hrun, ?_⟩
          have := List.find?_eq_none.1 hnone p ((mem_readyLists h).2 hrun)
          simpa [hpid] using this
        · have := List.find?_eq_none.1 hnone' p ((mem_sleepRunning h).2 hsr)
          simp [hpid] at this

theorem setLevel_ident (n : ℕ) (pr : Proc) : ident (setLevel n pr) = ident pr := rfl

/-- `setpriority` with a priority that has a list. -/
theorem setpriority_spec (h : Inv s L) (pid : Int) {priority : Int} (h0 : 0 ≤ priority)
    (h1 : priority ≤ maxPrio) :
    ∃ r s' L', setpriority pid priority s = .ok (r, s') ∧ Inv s' L' ∧ SameIdent s s' := by
  have hcases := setpriority_eq h pid priority
  generalize setpriority pid priority s = x at hcases
  cases hcases with
  | refused => exact ⟨-1, s, L, rfl, h, .refl s⟩
  | moved p i j s' _ _ _ _ _ _ hinv hcore =>
    exact ⟨0, s', _, rfl, hinv, (SameIdent.modify s p (setLevel_ident j.val)).trans
      (.of_core hcore)⟩
  | outside p _ _ _ hnew => omega
  | set p _ _ hst =>
    have hne : (s.proc p).state ≠ .runnable := by
      rintro he
      rw [he] at hst
      simp at hst
    have hle : priority.toNat ≤ maxPrio := by omega
    refine ⟨0, _, L, rfl, h.modify p ?_ (home_priority hne _ _) hle, .modify s p (setLevel_ident _)⟩
    exact fun _ => rfl
  | missed => exact ⟨-1, s, L, rfl, h, .refl s⟩

/-! ## `promoteAll` -/

/-- A process one level up. -/
def promote (pr : Proc) : Proc := setLevel (pr.priority - 1) pr

theorem promote_next (pr : Proc) : (promote pr).next = pr.next := rfl

theorem promote_ident (pr : Proc) : ident (promote pr) = ident pr := rfl

theorem promote_core (pr : Proc) (v : Option Slot) :
    promote { pr with next := v } = { promote pr with next := v } := rfl

theorem promote_prio {pr : Proc} (h : pr.priority ≤ maxPrio) : (promote pr).priority ≤ maxPrio :=
  (Nat.sub_le ..).trans h

/-- The members of `ready[i]` that the loop of `promoteAll` comes to: all of `ready[0]`, where
    nobody moves, and the first of each other list. -/
def turn (L : ListId → List Slot) (i : Prio) : List Slot :=
  if i.val = 0 then L (.ready i) else (L (.ready i)).head?.toList

theorem turn_sublist (L : ListId → List Slot) (i : Prio) : (turn L i).Sublist (L (.ready i)) := by
  unfold turn
  split
  · exact .refl _
  · cases L (.ready i) with
    | nil => exact .slnil
    | cons x xs => simp

/-- The body of the loop at a member of `ready[i]`, `i > 0`. -/
theorem promoteReady_move (h : Inv s L) {i : Prio} (hi : 0 < i.val) (hp : p ∈ L (.ready i)) :
    ∃ s' j, promoteReady i p s = .ok s' ∧ j < i ∧ Inv s' (move L (.ready i) (.ready j) p) ∧
      s'.core = (s.modify p promote).core ∧ s'.next p = none := by
  obtain ⟨hst, hpr⟩ := home_eq_ready.1 ((h.mem_iff p _).1 hp)
  have hlt : i.val < 7 := i.isLt
  have hdecr : decr (s.proc p).priority = i.val - 1 := by
    unfold decr
    omega
  let j : Prio := ⟨i.val - 1, by omega⟩
  have hi' : prioOf h p = i := Fin.ext hpr
  have hji : j < i := Fin.lt_def.2 (show i.val - 1 < i.val by omega)
  obtain ⟨s1, hmove, hinv, hcore, hn⟩ :=
    reprioritize_spec h hst (f := decr) (i := j) hdecr (hi' ▸ hji.ne)
  rw [hi'] at hinv
  refine ⟨refill p s1, j, by simp [promoteReady, hi, hmove, bind, Except.bind], hji,
    refill_inv hinv p, ?_, ?_⟩
  · rw [refill_core hcore]
    have hlevel : setLevel (decr (s.proc p).priority) (s.proc p) = promote (s.proc p) := by
      rw [promote, hdecr, hpr]
    simp only [modify, hlevel]
  · rw [refill, modify_next s1 p]
    · exact hn
    · exact fun _ => rfl

/-- The loop of `promoteAll` over `ready[i]`. -/
theorem promoteReady_spec (h : Inv s L) (i : Prio) :
    ∃ s' L', forList (.ready i) (promoteReady i) s = .ok s' ∧ Inv s' L' ∧
      s'.core = (modifyAll promote (turn L i) s).core ∧ ∀ l, (∀ j ≤ i, l ≠ .ready j) →
      L' l = L l := by
  by_cases hi : 0 < i.val
  · rw [turn, if_neg (by omega), forList_moves h (.ready i)]
    · cases hhead : (L (.ready i)).head? with
      | none => exact ⟨s, L, rfl, h, rfl, fun _ _ => rfl⟩
      | some p =>
        obtain ⟨s', j, hbody, hj, hinv, hcore, _⟩ :=
          promoteReady_move h hi (List.mem_of_head? hhead)
        refine ⟨s', _, hbody, hinv, hcore, fun l hl => ?_⟩
        rw [move, Function.update_of_ne (hl j hj.le), Function.update_of_ne (hl i le_rfl)]
    · intro p hp s' hs
      obtain ⟨s1, _, hbody, _, _, _, hn⟩ := promoteReady_move h hi hp
      obtain rfl := Except.ok.inj (hs.symm.trans hbody)
      exact hn
  · have hbody : promoteReady i = fun p s =>
        .ok (s.modify p fun pr => { pr with budget := fullBudget pr.priority }) := by
      funext p s
      simp [promoteReady, hi, bind, Except.bind, refill]
    rw [hbody, turn, if_pos (by omega), forList_inPlace h (.ready i)]
    · refine ⟨_, L, rfl, ?_, ?_, fun _ _ => rfl⟩
      · refine h.modifyAll ?_ ?_ ?_ fun p hp => hp
        · exact fun _ => rfl
        · exact fun pr hpr => (home_congr rfl rfl).trans hpr
        · exact fun _ hpr => hpr
      · rw [modifyAll_congr (h.rep.chain _).nodup (g := promote)]
        intro p hp
        have hpr := (home_eq_ready.1 ((h.mem_iff p _).1 hp)).2
        have hzero : (s.proc p).priority = 0 := by omega
        simp [promote, setLevel, hzero]
    · exact fun _ => rfl

theorem promoteInPlace_eq : promoteInPlace = fun p s => .ok (s.modify p promote) := by
  funext p s
  have hpred (n : ℕ) : (if 0 < n then n - 1 else n) = n - 1 := by
    split <;> omega
  simp only [promoteInPlace, hpred]
  rw [refill_modify (fun n => n - 1)]
  rfl

/-- The loops of `promoteAll` over `sleep` and `running`. -/
theorem promoteInPlace_spec (h : Inv s L) {l : ListId} (hl : ∀ pr, home pr = some l →
      pr.state ≠ .runnable) :
    forList l promoteInPlace s = .ok (modifyAll promote (L l) s) ∧
    Inv (modifyAll promote (L l) s) L := by
  rw [promoteInPlace_eq]
  refine ⟨forList_inPlace h l promote_next,
    h.modifyAll promote_next ?_ (fun _ => promote_prio) fun p hp => hp⟩
  intro pr hpr
  exact (home_priority (hl pr hpr) _ _).trans hpr

/-- All the slots that `promoteAll` comes to. -/
def turns (L : ListId → List Slot) : List Slot :=
  (List.finRange (maxPrio + 1)).flatMap (turn L) ++ (L .sleep ++ L .running)

theorem promoteLevels_spec (h : Inv s L) {is : List Prio} (his : is.Pairwise (· < ·)) :
    ∃ s' L', is.foldlM (fun s i => forList (.ready i) (promoteReady i) s) s = .ok s' ∧ Inv s' L' ∧
      s'.core = (modifyAll promote (is.flatMap (turn L)) s).core ∧ ∀ l, (∀ j, l ≠ .ready j) →
      L' l = L l := by
  induction is generalizing s L with
  | nil => exact ⟨s, L, rfl, h, rfl, fun _ _ => rfl⟩
  | cons i is ih =>
    obtain ⟨hi, his⟩ := List.pairwise_cons.1 his
    obtain ⟨s1, L1, h1, hinv1, hcore1, hlists1⟩ := promoteReady_spec h i
    obtain ⟨s2, L2, h2, hinv2, hcore2, hlists2⟩ := ih hinv1 his
    -- The lists of the levels to come are as before.
    have hturn : is.flatMap (turn L1) = is.flatMap (turn L) := by
      refine List.flatMap_congr fun j hj => ?_
      have hlater : L1 (.ready j) = L (.ready j) := by
        refine hlists1 _ fun k hk he => ?_
        rw [ListId.ready.inj he] at hj
        exact absurd (hi k hj) (not_lt.2 hk)
      rw [turn, turn, hlater]
    refine ⟨s2, L2, by simp [h1, h2, bind, Except.bind], hinv2, ?_, fun l hl => ?_⟩
    · rw [hcore2, hturn, List.flatMap_cons, modifyAll_append]
      exact core_modifyAll_congr hcore1 promote_core _
    · rw [hlists2 l hl, hlists1 l fun j _ => hl j]

/-- `promoteAll` promotes the slots it comes to, and leaves the lists of the other states as they
    are. -/
theorem promoteAll_eq (h : Inv s L) :
    ∃ s' L', promoteAll s = .ok s' ∧ Inv s' L' ∧ s'.core = (modifyAll promote (turns L) s).core ∧
      ∀ l, (∀ j, l ≠ .ready j) → L' l = L l := by
  have hlevels : (List.finRange (maxPrio + 1)).Pairwise (· < ·) := List.pairwise_lt_finRange _
  obtain ⟨s1, L1, h1, hinv1, hcore1, hlists⟩ := promoteLevels_spec h hlevels
  obtain ⟨h2, hinv2⟩ := promoteInPlace_spec hinv1 (l := .sleep) fun _ hpr => by
    simp [home_eq_sleep.1 hpr]
  obtain ⟨h3, hinv3⟩ := promoteInPlace_spec hinv2 (l := .running) fun _ hpr => by
    simp [home_eq_running.1 hpr]
  refine ⟨_, L1, ?_, hinv3, ?_, hlists⟩
  · simp only [promoteAll, h1, h2, h3, bind, Except.bind]
  · rw [hlists .sleep (by simp), hlists .running (by simp), turns, modifyAll_append,
      ← modifyAll_append]
    exact core_modifyAll_congr hcore1 promote_core _

theorem promoteAll_spec (h : Inv s L) :
    ∃ s' L', promoteAll s = .ok s' ∧ Inv s' L' ∧ SameIdent s s' := by
  obtain ⟨s', L', heq, hinv, hcore, _⟩ := promoteAll_eq h
  exact ⟨s', L', heq, hinv, (modifyAll_ident promote_ident (turns L) s).trans (.of_core hcore)⟩

theorem promoteIfDue_spec (h : Inv s L) :
    ∃ s' L', promoteIfDue s = .ok s' ∧ Inv s' L' ∧ SameIdent s s' := by
  unfold promoteIfDue
  split
  · obtain ⟨s1, L1, h1, hinv, hsame⟩ := promoteAll_spec h
    refine ⟨{ s1 with promoteAtTime := s1.ticks + ticksToPromote }, L1, ?_, ?_, ?_⟩
    · rw [h1]
      rfl
    · exact hinv.congr rfl rfl
    · exact ⟨hsame.proc, hsame.initproc, hsame.nextpid, hsame.ticks⟩
  · exact ⟨s, L, rfl, h, .refl s⟩

/-! ### Whose turn it is -/

theorem turns_nodup (h : Inv s L) : (turns L).Nodup := by
  have hall : ((readyLists ++ [ListId.sleep, .running]).flatMap L).Nodup := by
    refine List.nodup_flatMap.2 ⟨fun l _ => (h.rep.chain l).nodup, ?_⟩
    have hne : (readyLists ++ [ListId.sleep, .running]).Pairwise (· ≠ ·) := by decide
    refine hne.imp fun hll p hp hp' => hll ?_
    exact Option.some.inj (((h.mem_iff p _).1 hp).symm.trans ((h.mem_iff p _).1 hp'))
  refine List.Nodup.sublist ?_ hall
  rw [List.flatMap_append, turns, readyLists, List.flatMap_map]
  refine List.Sublist.append ?_ (by simp)
  exact List.Sublist.flatMap_right _ fun i _ => turn_sublist L i

end PTable

end Xv6
