import Xv6.Proc.Ops

set_option autoImplicit false

/-! # The state lists as lists

`Rep s L w` relates the pointers of the table to one list of slots for each state list: `L l` are
the members of `l` in order, and `w p` is the list that `p` is on, if any. `w` makes the lists
disjoint without saying so for each pair of them.

The primitives are described once, on one list: `stateListRemove` takes a member out and
`stateListAdd` appends a slot that is not on it. Neither changes anything but links and the ends of
that list, so on `Rep` the other lists stay. -/

namespace Xv6

open Function LinkedList

namespace PTable

/-! ## Field lemmas -/

section

variable (s : PTable)

variable (p : Slot)

variable (f : Proc → Proc)

@[simp] theorem modify_proc :
    (s.modify p f).proc = update s.proc p (f (s.proc p)) := rfl

@[simp] theorem modify_pLists :
    (s.modify p f).pLists = s.pLists := rfl

@[simp] theorem modify_initproc :
    (s.modify p f).initproc = s.initproc := rfl

@[simp] theorem modify_ticks :
    (s.modify p f).ticks = s.ticks := rfl

@[simp] theorem modify_nextpid :
    (s.modify p f).nextpid = s.nextpid := rfl

@[simp] theorem setHead_proc (l : ListId) (v : Option Slot) :
    (s.setHead l v).proc = s.proc := rfl

@[simp] theorem setTail_proc (l : ListId) (v : Option Slot) :
    (s.setTail l v).proc = s.proc := rfl

@[simp] theorem setNext_next (v : Option Slot) :
    (s.setNext p v).next = update s.next p v := by
  funext x
  by_cases hx : x = p
  · subst hx; simp [next, setNext]
  · simp [next, setNext, hx]

end

/-- The heads and the tails of all lists. -/
def heads (s : PTable) (l : ListId) : Option Slot := (s.pLists l).head

def tails (s : PTable) (l : ListId) : Option Slot := (s.pLists l).tail

section

variable (s : PTable)

@[simp] theorem setNext_heads (p : Slot) (v : Option Slot) :
    (s.setNext p v).heads = s.heads := rfl

@[simp] theorem setNext_tails (p : Slot) (v : Option Slot) :
    (s.setNext p v).tails = s.tails := rfl

variable (l : ListId) (v : Option Slot)

@[simp] theorem setHead_heads :
    (s.setHead l v).heads = update s.heads l v := by
  funext l'
  by_cases hl : l' = l
  · subst hl; simp [heads, setHead]
  · simp [heads, setHead, hl]

@[simp] theorem setHead_tails :
    (s.setHead l v).tails = s.tails := by
  funext l'
  by_cases hl : l' = l
  · subst hl; simp [tails, setHead]
  · simp [tails, setHead, hl]

@[simp] theorem setTail_heads :
    (s.setTail l v).heads = s.heads := by
  funext l'
  by_cases hl : l' = l
  · subst hl; simp [heads, setTail]
  · simp [heads, setTail, hl]

@[simp] theorem setTail_tails :
    (s.setTail l v).tails = update s.tails l v := by
  funext l'
  by_cases hl : l' = l
  · subst hl; simp [tails, setTail]
  · simp [tails, setTail, hl]

@[simp] theorem setHead_next :
    (s.setHead l v).next = s.next := rfl

@[simp] theorem setTail_next :
    (s.setTail l v).next = s.next := rfl

end

/-! ## Everything but the lists -/

/-- The table without links and list ends. -/
def core (s : PTable) : PTable :=
  { s with proc := fun p => { s.proc p with next := none }, pLists := fun _ => {} }

theorem core_setNext (s : PTable) (p : Slot) (v : Option Slot) : (s.setNext p v).core = s.core := by
  simp only [core, setNext, modify]
  congr 1
  funext x
  by_cases hx : x = p
  · subst hx; simp
  · simp [hx]

theorem core_setHead (s : PTable) (l : ListId) (v : Option Slot) : (s.setHead l v).core = s.core :=
  rfl

theorem core_setTail (s : PTable) (l : ListId) (v : Option Slot) : (s.setTail l v).core = s.core :=
  rfl

variable {s s' : PTable}

/-- Tables with the same core agree on every field but the link. -/
theorem field_of_core {β : Type} (h : s'.core = s.core) (f : Proc → β)
    (hf : ∀ pr v, f { pr with next := v } = f pr) (p : Slot) : f (s'.proc p) = f (s.proc p) := by
  have hp : ({ s'.proc p with next := none } : Proc) = { s.proc p with next := none } :=
    congrFun (congrArg PTable.proc h) p
  rw [← hf (s'.proc p) none, hp, hf]

theorem state_of_core (h : s'.core = s.core) (p : Slot) :
    (s'.proc p).state = (s.proc p).state := field_of_core h Proc.state (fun _ _ => rfl) p

theorem priority_of_core (h : s'.core = s.core) (p : Slot) :
    (s'.proc p).priority = (s.proc p).priority := field_of_core h Proc.priority (fun _ _ => rfl) p

theorem initproc_of_core (h : s'.core = s.core) : s'.initproc = s.initproc := by
  have := congrArg PTable.initproc h
  exact this

theorem ticks_of_core (h : s'.core = s.core) : s'.ticks = s.ticks := by
  have := congrArg PTable.ticks h
  exact this

theorem nextpid_of_core (h : s'.core = s.core) : s'.nextpid = s.nextpid := by
  have := congrArg PTable.nextpid h
  exact this

/-- The same assignment to tables with the same core. -/
theorem core_modify_congr (h : s'.core = s.core) (p : Slot) {f : Proc → Proc}
    (hf : ∀ pr v, f { pr with next := v } = { f pr with next := v }) :
    (s'.modify p f).core = (s.modify p f).core := by
  have hproc : ∀ x, ({ s'.proc x with next := none } : Proc) = { s.proc x with next := none } :=
    fun x => congrFun (congrArg PTable.proc h) x
  have hmod : (fun x => ({ (s'.modify p f).proc x with next := none } : Proc)) =
      fun x => { (s.modify p f).proc x with next := none } := by
    funext x
    by_cases hx : x = p
    · subst hx
      simp only [modify_proc, update_self]
      rw [← hf, ← hf, hproc]
    · simpa [hx] using hproc x
  unfold core at h ⊢
  injection h with h1 h2 h3 h4 h5 h6
  simp only [mk.injEq]
  exact ⟨hmod, trivial, h3, h4, h5, h6⟩

/-- Assign to fields of every slot. -/
def mapProc (s : PTable) (g : Proc → Proc) : PTable := { s with proc := fun p => g (s.proc p) }

theorem core_mapProc_congr (h : s'.core = s.core) {g : Proc → Proc}
    (hg : ∀ pr v, g { pr with next := v } = { g pr with next := v }) :
    (s'.mapProc g).core = (s.mapProc g).core := by
  have hproc : ∀ x, ({ s'.proc x with next := none } : Proc) = { s.proc x with next := none } :=
    fun x => congrFun (congrArg PTable.proc h) x
  have hmap : (fun x => ({ g (s'.proc x) with next := none } : Proc)) =
      fun x => { g (s.proc x) with next := none } := by
    funext x
    rw [← hg, ← hg, hproc]
  unfold core at h ⊢
  injection h with h1 h2 h3 h4 h5 h6
  simp only [mapProc, mk.injEq]
  exact ⟨hmap, trivial, h3, h4, h5, h6⟩

theorem modify_comm {p q : Slot} (hne : p ≠ q) (s : PTable) (f g : Proc → Proc) :
    (s.modify p f).modify q g = (s.modify q g).modify p f := by
  simp only [modify, update_of_ne hne, update_of_ne hne.symm]
  rw [update_comm hne]

theorem modify_modify (s : PTable) (p : Slot) (f g : Proc → Proc) :
    (s.modify p f).modify p g = s.modify p (fun pr => g (f pr)) := by
  simp [modify]

/-! ## Representation -/

/-- The pointers of `s` spell the lists `L`, and `w` says which list each slot is on. -/
def Rep (s : PTable) (L : ListId → List Slot) (w : Slot → Option ListId) : Prop :=
  Family s.next s.heads s.tails L w

namespace Rep

variable {s : PTable} {L : ListId → List Slot} {w : Slot → Option ListId}

theorem chain (h : Rep s L w) (l : ListId) : Chain s.next (s.pLists l).head (L l) :=
  (h.isList l).chain

theorem mem_iff (h : Rep s L w) (p : Slot) (l : ListId) : p ∈ L l ↔ w p = some l :=
  Family.mem_iff h p l

theorem length_le (h : Rep s L w) (l : ListId) : (L l).length ≤ fuel := by
  have hlen := (h.chain l).length_le_card
  rwa [Fintype.card_fin] at hlen

theorem modify (h : Rep s L w) (p : Slot) {f : Proc → Proc} (hf : ∀ pr, (f pr).next = pr.next) :
    Rep (s.modify p f) L w := by
  have hnext : (s.modify p f).next = s.next := by
    funext x
    by_cases hx : x = p
    · subst hx; simp [PTable.next, hf]
    · simp [PTable.next, hx]
  unfold Rep
  rw [hnext]
  exact h

end Rep

/-! ## The primitives -/

/-- The list `l` spells `xs`. -/
abbrev Spells (s : PTable) (l : ListId) (xs : List Slot) : Prop :=
  IsList s.next (s.heads l) (s.tails l) xs

/-- Only links and the ends of `l` differ. -/
structure Edits (l : ListId) (s s' : PTable) : Prop where
  heads : s'.heads = update s.heads l (s'.heads l)
  tails : s'.tails = update s.tails l (s'.tails l)
  core : s'.core = s.core

section Primitives

variable {s : PTable} {l : ListId} {xs : List Slot} {p : Slot}

theorem Spells.tail_some (h : s.Spells l xs) (hne : xs ≠ []) :
    ∃ t, xs.getLast? = some t ∧ (s.pLists l).tail = some t := by
  obtain ⟨t, ht⟩ : ∃ t, xs.getLast? = some t := ⟨_, List.getLast?_eq_some_getLast hne⟩
  exact ⟨t, ht, (h.tail_eq hne).trans ht⟩

theorem stateListAdd_list (h : s.Spells l xs) (hp : p ∉ xs) :
    ∃ s', stateListAdd l p s = .ok (0, s') ∧ s'.Spells l (xs ++ [p]) ∧ Edits l s s' ∧
    s'.next p = none ∧
      ∀ q, q ≠ p → xs.getLast? ≠ some q → s'.next q = s.next q := by
  have hhead : (s.pLists l).head = xs.head? := h.chain.head_eq
  cases xs with
  | nil =>
    refine ⟨_, by rw [stateListAdd, hhead]; rfl, ?_, ⟨by simp, by simp, ?_⟩, by simp,
      fun q hq _ => ?_⟩
    · simpa [Spells] using IsList.push_nil s.next p
    · rw [core_setNext, core_setTail, core_setHead]
    · simp [hq]
  | cons x xs =>
    obtain ⟨t, ht, htail⟩ := h.tail_some (by simp)
    refine ⟨_, by rw [stateListAdd, hhead, htail]; rfl, ?_, ⟨by simp, by simp, ?_⟩, by simp,
      fun q hq hqt => ?_⟩
    · simpa [Spells] using h.push_last ht hp
    · rw [core_setNext, core_setTail, core_setNext]
    · have hne : q ≠ t := fun he => hqt (he ▸ ht)
      simp [hq, hne]

variable {next : Slot → Option Slot}

/-- The loop of `stateListRemove` stops at the member `p` with its predecessor at hand. -/
theorem findPrevious_mem {p : Slot} :
    ∀ (pre post : List Slot) (fuel : ℕ) (previous cur : Option Slot),
      Chain next cur (pre ++ p :: post) → p ∉ pre → (pre ++ p :: post).length ≤ fuel →
      findPrevious next p fuel previous cur = .ok (pre.getLast?.or previous, some p) := by
  intro pre post
  induction pre with
  | nil =>
    intro fuel previous cur hc _ hlen
    obtain ⟨rfl, _⟩ := hc
    cases fuel with
    | zero => simp at hlen
    | succ fuel => simp [findPrevious]
  | cons x pre ih =>
    intro fuel previous cur hc hp hlen
    obtain ⟨rfl, hrest⟩ := hc
    rw [List.mem_cons, not_or] at hp
    cases fuel with
    | zero => simp at hlen
    | succ fuel =>
      rw [findPrevious, if_neg (fun he => hp.1 he.symm),
        ih fuel (some x) (next x) hrest hp.2 (by simpa using hlen)]
      cases pre with
      | nil => rfl
      | cons y ys =>
        rw [List.getLast?_cons_cons]
        obtain ⟨z, hz⟩ : ∃ z, (y :: ys).getLast? = some z :=
          ⟨_, List.getLast?_eq_some_getLast (by simp)⟩
        rw [hz]
        rfl

/-- The search for a slot that is not on the list runs to its end. -/
theorem findPrevious_notMem : ∀ (xs : List Slot) (fuel : ℕ) (previous cur : Option Slot),
    Chain next cur xs → p ∉ xs → xs.length ≤ fuel →
      ∃ previous', findPrevious next p fuel previous cur = .ok (previous', none) := by
  intro xs
  induction xs with
  | nil =>
    rintro fuel previous cur rfl - -
    exact ⟨previous, by cases fuel <;> rfl⟩
  | cons x xs ih =>
    rintro fuel previous cur ⟨rfl, hrest⟩ hp hlen
    rw [List.mem_cons, not_or] at hp
    cases fuel with
    | zero => simp at hlen
    | succ fuel =>
      rw [findPrevious, if_neg (Ne.symm hp.1)]
      exact ih fuel (some x) (next x) hrest hp.2 (by simpa using hlen)

theorem Spells.length_le (h : s.Spells l xs) : xs.length ≤ fuel := by
  have hlen := h.chain.length_le_card
  rwa [Fintype.card_fin] at hlen

theorem stateListRemove_notMem (h : s.Spells l xs) (hp : p ∉ xs) :
    stateListRemove l p s = .ok (-1, s) := by
  have hhead : (s.pLists l).head = xs.head? := h.chain.head_eq
  cases xs with
  | nil => rw [stateListRemove, hhead]; rfl
  | cons x xs =>
    obtain ⟨t, -, htail⟩ := h.tail_some (by simp)
    obtain ⟨previous, hfind⟩ := findPrevious_notMem _ fuel none _ h.chain hp h.length_le
    have hx : x ≠ p := fun he => hp (by simp [he])
    have hfind : findPrevious s.next p fuel none (some x) = .ok (previous, none) := by
      rw [← hfind, h.chain.1]
    simp only [stateListRemove, hhead, htail, List.head?_cons, if_neg hx, hfind, bind, Except.bind]

theorem stateListRemove_list (h : s.Spells l xs) (hp : p ∈ xs) :
    ∃ s', stateListRemove l p s = .ok (0, s') ∧ s'.Spells l (xs.erase p) ∧ Edits l s s' ∧
      ∀ q, q ≠ p → ¬(q ∈ xs ∧ s.next q = some p) → s'.next q = s.next q := by
  have hnd := h.chain.nodup
  obtain ⟨pre, post, rfl⟩ := List.append_of_mem hp
  have hppre : p ∉ pre := fun hmem => (List.nodup_append.1 hnd).2.2 p hmem p (by simp) rfl
  have hppost : p ∉ post := (List.nodup_cons.1 (List.nodup_append.1 hnd).2.1).1
  obtain ⟨t, ht, htail⟩ := h.tail_some (by simp)
  rw [List.erase_append_right _ hppre, List.erase_cons_head]
  rcases List.eq_nil_or_concat' pre with rfl | ⟨pre, q, rfl⟩
  · -- `p` is the head
    have hhead : (s.pLists l).head = some p := h.chain.1
    refine ⟨s.setHead l (s.next p), by simp [stateListRemove, hhead, htail], ?_,
      ⟨by simp, by simp, core_setHead ..⟩, fun _ _ _ => rfl⟩
    simpa [Spells] using h.pop
  · have hL : pre ++ [q] ++ p :: post = pre ++ q :: p :: post := by simp
    have hfind := findPrevious_mem (pre ++ [q]) post fuel none _ h.chain hppre h.length_le
    rw [List.getLast?_concat, Option.some_or] at hfind
    rw [hL] at h ht
    obtain ⟨hd, hhead, hhd⟩ : ∃ hd, (s.pLists l).head = some hd ∧ hd ≠ p := by
      have hhead : (s.pLists l).head = _ := h.chain.head_eq
      cases pre with
      | nil => exact ⟨q, hhead, fun he => hppre (by simp [he])⟩
      | cons y ys => exact ⟨y, hhead, fun he => hppre (by simp [he])⟩
    rw [show s.heads l = some hd from hhead] at hfind
    have hq : s.next q = some p := h.chain.suffix.1
    have hframe : ∀ x, x ≠ p → ¬(x ∈ pre ++ [q] ++ p :: post ∧ s.next x = some p) → x ≠ q := by
      rintro x - hx rfl
      exact hx ⟨by simp, hq⟩
    have hqp : p ∉ pre ++ q :: post := by
      simp only [List.mem_append, List.mem_cons] at hppre ⊢
      tauto
    by_cases hpt : p = t
    · -- `p` is the last member: its predecessor becomes the tail
      obtain rfl : post = [] := by
        by_contra hne
        obtain ⟨y, ys, rfl⟩ := List.exists_cons_of_ne_nil hne
        rw [List.getLast?_append, List.getLast?_cons_cons, List.getLast?_cons_cons, ← hpt] at ht
        exact hppost (List.mem_of_getLast? (by simpa using ht))
      refine ⟨((s.setTail l (some q)).setNext q none).setNext p none, by simp only [stateListRemove,
        hhead, htail, if_neg hhd, hfind, bind, Except.bind, if_pos hpt], ?_, ⟨by simp, by simp, ?_⟩,
          fun x hx hxq => ?_⟩
      · simpa [Spells] using h.unlink_last.clear hqp
      · rw [core_setNext, core_setNext, core_setTail]
      · simp [hx, hframe x hx hxq]
    · have hpost : post ≠ [] := by
        rintro rfl
        rw [List.getLast?_append] at ht
        exact hpt (by simpa using ht)
      refine ⟨(s.setNext q (s.next p)).setNext p none, by simp only [stateListRemove, hhead, htail,
        if_neg hhd, hfind, bind, Except.bind, if_neg hpt], ?_, ⟨by simp, by simp, ?_⟩,
          fun x hx hxq => ?_⟩
      · simpa [Spells] using (h.unlink_mid hpost).clear hqp
      · rw [core_setNext, core_setNext]
      · simp [hx, hframe x hx hxq]

/-- The primitives append and delete: a list that is null-terminated from head to tail, and a slot
    `p`. -/
theorem stateLists_append_delete (s : PTable) (l : ListId) (xs : List Slot) (h : s.Spells l xs)
    (p : Slot) :
    (p ∉ xs → (∃ s', stateListAdd l p s = .ok (0, s') ∧ s'.Spells l (xs ++ [p]) ∧ Edits l s s' ∧
        ∀ q, q ≠ p → xs.getLast? ≠ some q → s'.next q = s.next q) ∧
      stateListRemove l p s = .ok (-1, s)) ∧
    (p ∈ xs → ∃ s', stateListRemove l p s = .ok (0, s') ∧ s'.Spells l (xs.erase p) ∧ Edits l s s' ∧
      ∀ q, q ≠ p → ¬(q ∈ xs ∧ s.next q = some p) → s'.next q = s.next q) := by
  refine ⟨fun hp => ⟨?_, stateListRemove_notMem h hp⟩, stateListRemove_list h⟩
  obtain ⟨s', heq, hl, hedits, -, hframe⟩ := stateListAdd_list h hp
  exact ⟨s', heq, hl, hedits, hframe⟩

/-- A table with three slots on `ready[0]`. -/
def threeReady : PTable where
  proc p := { next := if p = 2 then some 5 else if p = 5 then some 1 else none }
  pLists l := if l = .ready 0 then ⟨some 2, some 1⟩ else {}
  promoteAtTime := 0
  initproc := none
  nextpid := 1
  ticks := 0

theorem stateLists_append_delete_middle : threeReady.Spells (.ready 0) [2, 5, 1] ∧
    ∃ s', stateListRemove (.ready 0) 5 threeReady = .ok (0, s') ∧ s'.Spells (.ready 0) [2, 1] := by
  have h : threeReady.Spells (.ready 0) [2, 5, 1] := ⟨⟨rfl, rfl, rfl, rfl⟩, fun _ => rfl⟩
  obtain ⟨s', heq, hl, -⟩ :=
    (stateLists_append_delete threeReady (.ready 0) [2, 5, 1] h 5).2 (by decide)
  exact ⟨h, s', heq, hl⟩

variable {L : ListId → List Slot} {w : Slot → Option ListId}

/-- Appending a slot that is on no list. -/
theorem stateListAdd_spec (h : Rep s L w) (l : ListId) (hp : w p = none) :
    ∃ s', stateListAdd l p s = .ok (0, s') ∧
      Rep s' (update L l (L l ++ [p])) (update w p (some l)) ∧
      s'.core = s.core ∧ s'.next p = none := by
  obtain ⟨s', heq, hl, hedits, hnext, hframe⟩ := stateListAdd_list (h.isList l) (h.not_mem hp l)
  refine ⟨s', heq, ?_, hedits.core, hnext⟩
  rw [Rep, hedits.heads, hedits.tails]
  exact Family.push h hp hl fun x hx hxp => hframe x hxp fun ht => hx (List.mem_of_getLast? ht)

/-- Taking a member out of its list. -/
theorem stateListRemove_spec (h : Rep s L w) (hp : w p = some l) :
    ∃ s', stateListRemove l p s = .ok (0, s') ∧
      Rep s' (update L l ((L l).erase p)) (update w p none) ∧
      s'.core = s.core := by
  have hpl : p ∈ L l := (h.mem_iff p l).2 hp
  obtain ⟨s', heq, hl, hedits, hframe⟩ := stateListRemove_list (h.isList l) hpl
  refine ⟨s', heq, ?_, hedits.core⟩
  rw [Rep, hedits.heads, hedits.tails]
  exact Family.erase h hp hl fun x hx => hframe x (fun he => hx (he ▸ hpl)) fun hc => hx hc.1

end Primitives

/-- Appending to a second list a slot taken out of the first. -/
theorem transfer_spec {s : PTable} {L : ListId → List Slot} {w : Slot → Option ListId}
    (h : Rep s L w) {l l' : ListId} (hne : l' ≠ l) {p : Slot} (hp : w p = some l) :
    ∃ s', transfer l l' p s = .ok s' ∧
      Rep s' (update (update L l ((L l).erase p)) l' (L l' ++ [p]))
        (update w p (some l')) ∧
      s'.core = s.core ∧ s'.next p = none := by
  obtain ⟨s1, hrm, hrep1, hcore1⟩ := stateListRemove_spec h hp
  obtain ⟨s2, hadd, hrep2, hcore2, hnext⟩ := stateListAdd_spec hrep1 l' (p := p) (by simp)
  refine ⟨s2, ?_, ?_, hcore2.trans hcore1, hnext⟩
  · simp [transfer, removeOrPanic, addOrPanic, hrm, hadd, bind, Except.bind]
  · simpa [hne] using hrep2

end PTable

end Xv6
