import Mathlib.Data.List.Chain
import Mathlib.Data.List.Nodup
import Mathlib.Data.Option.Basic

set_option autoImplicit false

/-! # Circular doubly linked lists through a head

The nodes are the elements of `α` and one extra node, the head, written `none`. A `CircList` is what
the links of the nodes say; `CircList.Through xs` states that following `next` from the head visits
exactly `xs` before it is back at the head, and that `prev` goes the same way backwards. The two
edits are taking a node out and putting one in after the head, each of them the pointer assignments
one writes for it. -/

/-- The links of the nodes; `none` is the head. -/
structure CircList (α : Type*) where
  next : Option α → Option α
  prev : Option α → Option α

namespace CircList

open Function

variable {α : Type*}

/-- The head alone, linked to itself. -/
def empty : CircList α := ⟨fun _ => none, fun _ => none⟩

section Edits

variable [DecidableEq α]

/-- Takes `b` out: its neighbours are linked to each other. -/
def unlink (c : CircList α) (b : α) : CircList α :=
  -- b->next->prev = b->prev, then b->prev->next = b->next
  let prev := update c.prev (c.next (some b)) (c.prev (some b))
  ⟨update c.next (prev (some b)) (c.next (some b)), prev⟩

/-- Puts `b` in right after the head. -/
def pushFront (c : CircList α) (b : α) : CircList α :=
  -- b->next = head.next, b->prev = &head, head.next->prev = b, head.next = b
  let next := update c.next (some b) (c.next none)
  let prev := update c.prev (some b) none
  ⟨update next none (some b), update prev (next none) (some b)⟩

end Edits

/-! ## Nodes linked in a row -/

/-- Consecutive nodes are linked both ways. -/
def Linked (c : CircList α) : List (Option α) → Prop
  | x :: y :: rest => c.next x = y ∧ c.prev y = x ∧ Linked c (y :: rest)
  | _ => True

@[simp] theorem linked_singleton (c : CircList α) (x : Option α) : c.Linked [x] := trivial

variable {c : CircList α}

@[simp] theorem linked_cons_cons {x y : Option α} {rest : List (Option α)} :
    c.Linked (x :: y :: rest) ↔ c.next x = y ∧ c.prev y = x ∧ c.Linked (y :: rest) := Iff.rfl

/-- A row is linked when both parts are, with the node between them in each. -/
theorem linked_append (l : List (Option α)) (x : Option α) (r : List (Option α)) :
    c.Linked (l ++ x :: r) ↔ c.Linked (l ++ [x]) ∧ c.Linked (x :: r) := by
  induction l with
  | nil => simp
  | cons a l ih =>
    cases l with
    | nil => simp [and_assoc]
    | cons b l =>
      simp only [List.cons_append] at ih ⊢
      rw [linked_cons_cons, linked_cons_cons, ih, and_assoc, and_assoc]

variable {l : List (Option α)}

/-- A row reads `next` of every node but its last and `prev` of every node but its first. -/
theorem Linked.congr {c' : CircList α} (h : c.Linked l)
    (hnext : ∀ x ∈ l.dropLast, c'.next x = c.next x) (hprev : ∀ x ∈ l.tail, c'.prev x = c.prev x) :
    c'.Linked l := by
  induction l with
  | nil => trivial
  | cons x l ih =>
    cases l with
    | nil => trivial
    | cons y l =>
      obtain ⟨hx, hy, hrest⟩ := h
      refine ⟨(hnext x (by simp)).trans hx, (hprev y (by simp)).trans hy, ih hrest ?_ ?_⟩
      · exact fun z hz => hnext z (by simpa using Or.inr hz)
      · exact fun z hz => hprev z (List.mem_of_mem_tail hz)

/-! ## Circles -/

/-- The links go once around through `xs`. -/
structure Through (c : CircList α) (xs : List α) : Prop where
  linked : c.Linked (none :: (xs.map some ++ [none]))
  nodup : xs.Nodup

theorem through_empty : (empty : CircList α).Through [] := ⟨⟨rfl, rfl, trivial⟩, List.nodup_nil⟩

variable {xs : List α}

theorem nodup_concat_none (h : xs.Nodup) : (xs.map some ++ [none]).Nodup := by
  rw [← List.concat_eq_append, List.nodup_concat]
  exact ⟨by simp, h.map (Option.some_injective α)⟩

section Edits

variable [DecidableEq α] {c : CircList α} {b : α}

theorem Through.pushFront (h : c.Through xs) (hb : b ∉ xs) :
    (c.pushFront b).Through (b :: xs) := by
  refine ⟨?_, List.nodup_cons.2 ⟨hb, h.nodup⟩⟩
  have hlinked := h.linked
  cases hxs : xs.map some ++ [none] with
  | nil => simp at hxs
  | cons y rest =>
    rw [hxs] at hlinked
    obtain ⟨hnext, -, hrest⟩ := hlinked
    have hnodup : (y :: rest).Nodup := hxs ▸ nodup_concat_none h.nodup
    have hfresh : some b ∉ y :: rest := by
      rw [← hxs]
      simpa using hb
    have hlast : none ∉ (y :: rest).dropLast := by
      rw [← hxs]
      simp
    have hy : some b ≠ y := fun e => hfresh (e ▸ List.mem_cons_self)
    have hpushed : c.pushFront b = ⟨update (update c.next (some b) y) none (some b),
        update (update c.prev (some b) none) y (some b)⟩ := by
      simp [CircList.pushFront, hnext]
    rw [List.map_cons, List.cons_append, hxs, hpushed]
    refine ⟨by simp, by simp [hy], by simp, by simp, hrest.congr ?_ ?_⟩
    · intro x hx
      have hx1 : x ≠ none := fun e => hlast (e ▸ hx)
      have hx2 : x ≠ some b := fun e => hfresh (e ▸ (List.dropLast_subset _ hx))
      simp [hx1, hx2]
    · intro x hx
      have hx1 : x ≠ y := fun e => (List.nodup_cons.1 hnodup).1 (e ▸ hx)
      have hx2 : x ≠ some b := fun e => hfresh (e ▸ List.mem_cons_of_mem _ hx)
      simp [hx1, hx2]

/-- Taking out a node between two others. -/
theorem Linked.unlink {l r : List (Option α)} {x z : Option α}
    (h : c.Linked (l ++ x :: some b :: z :: r))
    (hsrc : (l ++ x :: some b :: (z :: r).dropLast).Nodup)
    (htgt : (l ++ x :: some b :: z :: r).tail.Nodup) : (c.unlink b).Linked (l ++ x :: z :: r) := by
  rw [linked_append] at h ⊢
  obtain ⟨hl, -, hprev, hnext, -, hr⟩ := h
  have htgt' : ((l ++ [x]).tail ++ some b :: z :: r).Nodup := by
    rwa [← List.tail_append_of_ne_nil (by simp), List.append_assoc]
  have hbz : some b ≠ z := by
    rintro rfl
    exact (List.nodup_cons.1 htgt'.of_append_right).1 List.mem_cons_self
  have hunlinked : c.unlink b = ⟨update c.next x z, update c.prev z x⟩ := by
    simp [CircList.unlink, hnext, hprev, hbz]
  rw [hunlinked]
  refine ⟨hl.congr ?_ ?_, by simp, by simp, hr.congr ?_ ?_⟩
  · intro y hy
    have hyx : y ≠ x := by
      rintro rfl
      have := List.disjoint_of_nodup_append hsrc
      exact this (by simpa using hy) (by simp)
    simp [hyx]
  · intro y hy
    have hyz : y ≠ z := by
      rintro rfl
      exact List.disjoint_of_nodup_append htgt' hy (by simp)
    simp [hyz]
  · intro y hy
    have hyx : y ≠ x := by
      rintro rfl
      have := (List.nodup_cons.1 hsrc.of_append_right).1
      exact this (List.mem_cons_of_mem _ hy)
    simp [hyx]
  · intro y hy
    have hyz : y ≠ z := by
      rintro rfl
      have := (List.nodup_cons.1 (List.nodup_cons.1 htgt'.of_append_right).2).1
      exact this hy
    simp [hyz]

theorem Through.unlink {l r : List α} (h : c.Through (l ++ b :: r)) :
    (c.unlink b).Through (l ++ r) := by
  refine ⟨?_, h.nodup.sublist (by simp)⟩
  -- the nodes before and after `b`, the head counted on both sides
  obtain ⟨l', x, hl⟩ : ∃ l' x, none :: l.map some = l' ++ [x] :=
    ⟨_, _, (List.dropLast_append_getLast (by simp)).symm⟩
  obtain ⟨z, r', hr⟩ : ∃ z r', r.map some ++ [none] = z :: r' :=
    List.exists_cons_of_ne_nil (by simp)
  have hrow : none :: ((l ++ b :: r).map some ++ [none]) = l' ++ x :: some b :: z :: r' := by
    simp only [List.map_append, List.map_cons, List.append_assoc, List.cons_append, hr]
    rw [← List.cons_append, hl]
    simp
  have hrow' : none :: ((l ++ r).map some ++ [none]) = l' ++ x :: z :: r' := by
    simp only [List.map_append, List.append_assoc, hr]
    rw [← List.cons_append, hl]
    simp
  have hnodup : ((l ++ b :: r).map some).Nodup := h.nodup.map (Option.some_injective α)
  have hlinked := h.linked
  rw [hrow] at hlinked
  rw [hrow']
  refine hlinked.unlink ?_ ?_
  · have hsrc : l' ++ x :: some b :: (z :: r').dropLast = none :: (l ++ b :: r).map some := by
      rw [← hr, List.dropLast_concat, List.append_cons, ← hl]
      simp
    rw [hsrc]
    exact List.nodup_cons.2 ⟨by simp, hnodup⟩
  · rw [← hrow, List.tail_cons]
    exact nodup_concat_none h.nodup

/-- Moving a node of the circle to the front. -/
theorem Through.toFront {l r : List α} (h : c.Through (l ++ b :: r)) :
    ((c.unlink b).pushFront b).Through (b :: (l ++ r)) :=
  h.unlink.pushFront (List.nodup_middle.1 h.nodup |> List.nodup_cons.1 |>.1)

/-- Nodes that are not in the circle yet are put in one after the other. -/
theorem Through.foldl_pushFront {xs bs : List α} (h : c.Through xs) (hbs : bs.Nodup)
    (hfresh : ∀ b ∈ bs, b ∉ xs) : (bs.foldl CircList.pushFront c).Through (bs.reverse ++ xs) := by
  induction bs generalizing c xs with
  | nil => exact h
  | cons b bs ih =>
    obtain ⟨hb, hbs'⟩ := List.nodup_cons.1 hbs
    have hpush := h.pushFront (hfresh b List.mem_cons_self)
    have hrest := ih hpush hbs' fun c hc hmem => ?_
    · simpa using hrest
    · obtain rfl | hmem := List.mem_cons.1 hmem
      · exact hb hc
      · exact hfresh c (List.mem_cons_of_mem _ hc) hmem

end Edits

/-! ## Walks -/

/-- The first node that passes `test` on the way from `x` to the head along `link`. -/
def search (link : Option α → Option α) (test : α → Bool) : ℕ → Option α → Option α
  | 0, _ => none
  | _ + 1, none => none
  | fuel + 1, some b => if test b then some b else search link test fuel (link (some b))

theorem Linked.isChain_next (h : c.Linked l) :
    l.IsChain fun x y => c.next x = y := by
  induction l with
  | nil => exact .nil
  | cons x l ih =>
    cases l with
    | nil => exact .singleton x
    | cons y l => exact .cons_cons h.1 (ih h.2.2)

theorem Linked.isChain_prev (h : c.Linked l) :
    l.reverse.IsChain fun x y => c.prev x = y := by
  rw [List.isChain_reverse]
  induction l with
  | nil => exact .nil
  | cons x l ih =>
    cases l with
    | nil => exact .singleton x
    | cons y l => exact .cons_cons h.2.1 (ih h.2.2)

variable {fuel : ℕ} {link : Option α → Option α}

theorem search_some {test : α → Bool} {x : Option α} {b : α}
    (h : search link test fuel x = some b) : test b = true := by
  induction fuel generalizing x with
  | zero => cases h
  | succ fuel ih =>
    cases x with
    | none => cases h
    | some a =>
      rw [search] at h
      split at h
      · cases h
        assumption
      · exact ih h

/-- Nodes in a row along `link` are searched in order. -/
theorem search_row {test : α → Bool} {x : Option α}
    (hrow : List.IsChain (fun x y => link x = y) (x :: (xs.map some ++ [none])))
    (hfuel : xs.length < fuel) :
    search link test fuel (link x) = xs.find? test := by
  induction xs generalizing x fuel with
  | nil =>
    have hx : link x = none := by simpa using hrow
    cases fuel with
    | zero => simp at hfuel
    | succ fuel => rw [hx]; rfl
  | cons a xs ih =>
    obtain ⟨hx, hrest⟩ := List.isChain_cons_cons.1 hrow
    cases fuel with
    | zero => simp at hfuel
    | succ fuel =>
      rw [hx, search, List.find?_cons]
      cases test a with
      | true => rfl
      | false => simpa using ih hrest (by simpa using hfuel)

theorem Through.search_next (h : c.Through xs) (test : α → Bool)
    (hfuel : xs.length < fuel) : search c.next test fuel (c.next none) = xs.find? test :=
  search_row h.linked.isChain_next hfuel

theorem Through.search_prev (h : c.Through xs) (test : α → Bool)
    (hfuel : xs.length < fuel) : search c.prev test fuel (c.prev none) = xs.reverse.find? test := by
  refine search_row ?_ (by simpa using hfuel)
  have hrow := h.linked.isChain_prev
  simpa using hrow

end CircList
