import Mathlib.Logic.Basic

set_option autoImplicit false

/-! # Outcomes of a computation that may stop

`Yields P Q x` says of a computation `x : Except E α` that it returns a value of which `Q` holds, or
stops with an error of which `P` holds. With `P` false it is total correctness, with `P` true
partial correctness. The rules follow the computation from the first statement on. -/

namespace Stoppable

universe u v

variable {E : Type u} {α β : Type v}

/-- Stated by equations, so that unfolding it does not run `x`. -/
def Yields (P : E → Prop) (Q : α → Prop) (x : Except E α) : Prop :=
  (∀ a, x = .ok a → Q a) ∧ ∀ e, x = .error e → P e

variable {P P' : E → Prop} {Q Q' : α → Prop} {R : β → Prop} {x : Except E α}

@[simp] theorem yields_ok (a : α) : Yields P Q (.ok a) ↔ Q a := by
  simp [Yields]

@[simp] theorem yields_error (e : E) : Yields P Q (.error e : Except E α) ↔ P e := by
  simp [Yields]

@[simp] theorem yields_pure (a : α) : Yields P Q (pure a) ↔ Q a := yields_ok a

variable {f : α → Except E β}

/-- A sequence that has returned. -/
theorem of_bind {b : β} (h : (x >>= f) = .ok b) : ∃ a, x = .ok a ∧ f a = .ok b := by
  cases x with
  | ok a => exact ⟨a, rfl, h⟩
  | error e => cases h

/-- What a computation has returned settles what is said of all that it may return. -/
theorem forall_ok_iff {γ δ : Type v} {x : Except E (α × γ × δ)} {a : α} {c : γ} {d : δ}
    (h : x = .ok (a, c, d)) {P : α → γ → δ → Prop} :
    (∀ a c d, x = .ok (a, c, d) → P a c d) ↔ P a c d := by
  subst h
  refine ⟨fun hall => hall a c d rfl, ?_⟩
  rintro hP _ _ _ ⟨⟩
  exact hP

/-- A computation that can be run. -/
theorem exists_ok (P : α → Prop) [DecidablePred P]
    (h : x.toOption.any (fun a => decide (P a)) = true) :
    ∃ a, x = .ok a ∧ P a := by
  cases x with
  | ok a => exact ⟨a, rfl, of_decide_eq_true h⟩
  | error e => cases h

/-- What a computation stops with. -/
def stop : Except E α → Option E
  | .ok _ => none
  | .error e => some e

theorem eq_error_of_stop {e : E} (h : stop x = some e) : x = .error e := by
  cases x with
  | ok a => cases h
  | error e' =>
    cases h
    rfl

namespace Yields

theorem ok {a : α} (h : Q a) : Yields P Q (.ok a) := (yields_ok a).2 h

theorem error {e : E} (h : P e) : Yields P Q (.error e : Except E α) := (yields_error e).2 h

theorem bind (hx : Yields P Q x) (hf : ∀ a, Q a → Yields P R (f a)) :
    Yields P R (x >>= f) := by
  cases x with
  | ok a => exact hf a (hx.1 a rfl)
  | error e => exact .error (hx.2 e rfl)

/-- A computation whose result is known goes on from it. -/
theorem bind_eq {a : α} (hx : x = .ok a) (hf : Yields P R (f a)) :
    Yields P R (x >>= f) := by
  subst hx
  exact hf

theorem mono (hx : Yields P Q x) (hP : ∀ e, P e → P' e) (hQ : ∀ a, Q a → Q' a) : Yields P' Q' x :=
  ⟨fun a ha => hQ a (hx.1 a ha), fun e he => hP e (hx.2 e he)⟩

theorem post (hx : Yields P Q x) (hQ : ∀ a, Q a → Q' a) : Yields P Q' x := hx.mono (fun _ h => h) hQ

/-- A computation that cannot stop may stand before any other. -/
theorem bind_total (hx : Yields (fun _ => False) Q x)
    (hf : ∀ a, Q a → Yields P R (f a)) : Yields P R (x >>= f) :=
  (hx.mono (fun _ h => h.elim) fun _ h => h).bind hf

/-- A computation that cannot stop returns. -/
theorem returns (hx : Yields (fun _ => False) Q x) : ∃ a, x = .ok a ∧ Q a := by
  cases x with
  | ok a => exact ⟨a, rfl, hx.1 a rfl⟩
  | error e => exact (hx.2 e rfl).elim

theorem map {f : α → β} (hx : Yields P (fun a => R (f a)) x) : Yields P R (f <$> x) := by
  cases x with
  | ok a => exact .ok (hx.1 a rfl)
  | error e => exact .error (hx.2 e rfl)

/-- Of what a computation returns something holds, whatever it stops with. -/
theorem of_ok (h : ∀ a, x = .ok a → Q a) : Yields (fun _ => True) Q x := ⟨h, fun _ _ => trivial⟩

theorem any : Yields (fun _ => True) (fun _ => True) x := of_ok fun _ _ => trivial

end Yields

/-! ## Two computations in step

`y = x.map F` says that `y` does what `x` does, seen through `F`. -/

theorem map_bind {α' β' : Type v} {F : α → α'} {G : β → β'}
    {f' : α' → Except E β'} {y : Except E α'} (hx : y = x.map F)
    (hf : ∀ a, x = .ok a → f' (F a) = (f a).map G) : (y >>= f') = (x >>= f).map G := by
  subst hx
  cases x with
  | ok a => exact hf a rfl
  | error e => rfl

/-- The same computation first. -/
theorem map_bind_same {β' : Type v} {G : β → β'} {f' : α → Except E β'}
    (hf : ∀ a, x = .ok a → f' a = (f a).map G) : (x >>= f') = (x >>= f).map G :=
  map_bind (F := id) (by cases x <;> rfl) hf

end Stoppable
