import Mathlib.Data.Fintype.BigOperators
import Xv6.Lib.Tally

set_option autoImplicit false

/-! # Time sheets

Workers `P` use machines `C`. A sheet has the time, when each worker started and last went to a
machine, the time it has been booked for, and who is at each machine. Time is booked when a worker
leaves: what has passed since it came. Workers may start anew.

`Sheet.Sound` holds of every sheet that is kept this way: nobody has been booked for more time than
has passed since it started, and all of them together for no more than the machines times the
time. -/

/-- The books about workers `P` at machines `C`. -/
structure Sheet (P C : Type*) where
  now : ℕ
  started : P → ℕ
  entered : P → ℕ
  total : P → ℕ
  holder : C → Option P

namespace Sheet

open Function Finset

variable {P C : Type*} {t : Sheet P C} {c : C} {p : P}

/-- Nobody at any machine, at time 0. -/
def blank : Sheet P C := ⟨0, fun _ => 0, fun _ => 0, fun _ => 0, fun _ => none⟩

def tick (t : Sheet P C) : Sheet P C := { t with now := t.now + 1 }

section Ops

variable [DecidableEq P] [DecidableEq C]

def start (p : P) (t : Sheet P C) : Sheet P C :=
  { t with started := update t.started p t.now, total := update t.total p 0 }

def enter (c : C) (p : P) (t : Sheet P C) : Sheet P C :=
  { t with entered := update t.entered p t.now, holder := update t.holder c (some p) }

def leave (c : C) (p : P) (t : Sheet P C) : Sheet P C :=
  { t with
    total := update t.total p (t.total p + (t.now - t.entered p)), holder := update t.holder c none }

end Ops

/-- What is not yet booked at a machine. -/
def pending (t : Sheet P C) (o : Option P) : ℕ := o.elim 0 fun p => t.now - t.entered p

structure Sound [Fintype P] [Fintype C] (t : Sheet P C) : Prop where
  total : ∀ p, t.started p + t.total p ≤ t.now
  entered : ∀ c p, t.holder c = some p → t.started p + t.total p ≤ t.entered p ∧ t.entered p ≤ t.now
  single : ∀ c c' p, t.holder c = some p → t.holder c' = some p → c = c'
  sum : ∑ p, t.total p + ∑ c, t.pending (t.holder c) ≤ Fintype.card C * t.now

variable [Fintype P] [Fintype C]

theorem sound_blank : (blank : Sheet P C).Sound where
  total _ := le_rfl
  entered _ _ h := nomatch h
  single _ _ _ h := nomatch h
  sum := by simp [blank, pending]

namespace Sound

/-- The time that passes at a machine is pending there if somebody is at it. -/
theorem tick (h : t.Sound) : t.tick.Sound where
  total p := (h.total p).trans (Nat.le_succ _)
  entered c p hc := ⟨(h.entered c p hc).1, (h.entered c p hc).2.trans (Nat.le_succ _)⟩
  single := h.single
  sum := by
    have hpend : ∑ c, t.tick.pending (t.holder c) ≤ ∑ c, (t.pending (t.holder c) + 1) := by
      refine sum_le_sum fun c _ => ?_
      cases hc : t.holder c with
      | none => exact Nat.zero_le _
      | some p =>
        show t.now + 1 - t.entered p ≤ t.now - t.entered p + 1
        omega
    rw [sum_add_distrib, sum_const, Nat.nsmul_eq_mul, mul_one, card_univ] at hpend
    have hsum := h.sum
    show ∑ p, t.total p + ∑ c, t.tick.pending (t.holder c) ≤ Fintype.card C * (t.now + 1)
    rw [Nat.mul_succ]
    omega

variable [DecidableEq P]

theorem start (h : t.Sound) (hoff : ∀ c, t.holder c ≠ some p) : (t.start p).Sound where
  total q := by
    show update t.started p t.now q + update t.total p 0 q ≤ t.now
    by_cases hq : q = p
    · subst hq
      simp
    · simpa [hq] using h.total q
  entered c q hc := by
    have hq : q ≠ p := fun he => hoff c (he ▸ hc)
    show update t.started p t.now q + update t.total p 0 q ≤ t.entered q ∧ t.entered q ≤ t.now
    simpa [hq] using h.entered c q hc
  single := h.single
  sum := by
    have hless := Tally.sum_update univ (fun _ n => n) t.total (mem_univ p) 0
    have hsum := h.sum
    show ∑ q, update t.total p 0 q + ∑ c, t.pending (t.holder c) ≤ Fintype.card C * t.now
    omega

variable [DecidableEq C]

theorem enter (h : t.Sound) (hidle : t.holder c = none) (hoff : ∀ c, t.holder c ≠ some p) :
    (t.enter c p).Sound where
  total := h.total
  entered c' q hc := by
    show t.started q + t.total q ≤ update t.entered p t.now q ∧ update t.entered p t.now q ≤ t.now
    replace hc : update t.holder c (some p) c' = some q := hc
    by_cases hq : q = p
    · subst hq
      simpa using h.total q
    · have hcc : c' ≠ c := by
        rintro rfl
        rw [update_self] at hc
        exact hq (Option.some.inj hc).symm
      rw [update_of_ne hcc] at hc
      simpa [hq] using h.entered c' q hc
  single c1 c2 q h1 h2 := by
    replace h1 : update t.holder c (some p) c1 = some q := h1
    replace h2 : update t.holder c (some p) c2 = some q := h2
    by_cases hq : q = p
    · subst hq
      have hat : ∀ c', update t.holder c (some q) c' = some q → c' = c := by
        intro c' hc'
        by_contra hne
        rw [update_of_ne hne] at hc'
        exact hoff c' hc'
      rw [hat c1 h1, hat c2 h2]
    · have hold : ∀ c', update t.holder c (some p) c' = some q → t.holder c' = some q := by
        intro c' hc'
        by_cases hcc : c' = c
        · rw [hcc, update_self] at hc'
          exact absurd (Option.some.inj hc').symm hq
        · rwa [update_of_ne hcc] at hc'
      exact h.single c1 c2 q (hold c1 h1) (hold c2 h2)
  sum := by
    have hpend : ∀ c', (t.enter c p).pending (update t.holder c (some p) c') =
        t.pending (t.holder c') := by
      intro c'
      by_cases hcc : c' = c
      · subst hcc
        rw [update_self, hidle]
        simp [pending, Sheet.enter]
      · rw [update_of_ne hcc]
        cases hc' : t.holder c' with
        | none => rfl
        | some q =>
          have hq : q ≠ p := fun he => hoff c' (he ▸ hc')
          simp [pending, Sheet.enter, hq]
    have hsum := h.sum
    show ∑ q, t.total q + ∑ c', (t.enter c p).pending (update t.holder c (some p) c') ≤
      Fintype.card C * t.now
    rwa [sum_congr rfl fun c' _ => hpend c']

theorem leave (h : t.Sound) (hon : t.holder c = some p) : (t.leave c p).Sound where
  total q := by
    show t.started q + update t.total p _ q ≤ t.now
    by_cases hq : q = p
    · subst hq
      have := h.entered c q hon
      rw [update_self]
      omega
    · simpa [hq] using h.total q
  entered c' q hc := by
    replace hc : update t.holder c none c' = some q := hc
    have hcc : c' ≠ c := by
      rintro rfl
      rw [update_self] at hc
      cases hc
    rw [update_of_ne hcc] at hc
    have hq : q ≠ p := fun he => hcc (h.single c' c p (he ▸ hc) hon)
    show t.started q + update t.total p _ q ≤ t.entered q ∧ t.entered q ≤ t.now
    simpa [hq] using h.entered c' q hc
  single c1 c2 q h1 h2 := by
    have hold : ∀ c', update t.holder c none c' = some q → t.holder c' = some q := by
      intro c' hc'
      by_cases hcc : c' = c
      · rw [hcc, update_self] at hc'
        cases hc'
      · rwa [update_of_ne hcc] at hc'
    exact h.single c1 c2 q (hold c1 h1) (hold c2 h2)
  sum := by
    have htotal :=
      Tally.sum_update univ (fun _ n => n) t.total (mem_univ p) (t.total p + (t.now - t.entered p))
    have hpend := Tally.sum_update univ (fun _ o => t.pending o) t.holder (mem_univ c) none
    rw [hon] at hpend
    have hsum := h.sum
    show ∑ q, update t.total p (t.total p + (t.now - t.entered p)) q + ∑ c',
      t.pending (update t.holder c none c') ≤ _
    have hbooked : t.pending (some p) = t.now - t.entered p := rfl
    have hnone : t.pending none = 0 := rfl
    simp only [Sheet.leave]
    omega

end Sound

end Sheet
