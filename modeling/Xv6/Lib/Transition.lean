import Mathlib.Data.List.Basic

set_option autoImplicit false

/-! # Runs of a labelled transition function

A system is a partial step function `step : A → S → Except E S` on states `S`: an action either
leads to one next state or stops (`E` says why). `Reachable` collects the states that steps lead to
from an initial state, where `ok` restricts which action may be taken in which state; a safety
property is then an initial goal plus a step goal (`Reachable.invariant`).

`Run` records a whole execution, so that a property of every state of *one* execution can be related
to a condition on the steps of that execution (`Run.always_iff`). -/

namespace Transition

variable {S A E : Type*}

/-! ## Reachable states -/

/-- The states reached from `init` by steps that `ok` allows. -/
inductive Reachable (step : A → S → Except E S) (init : S → Prop) (ok : A → S → Prop) : S → Prop
  | init {s : S} : init s → Reachable step init ok s
  | step {s s' : S} {a : A} :
      Reachable step init ok s → ok a s → step a s = .ok s' → Reachable step init ok s'

namespace Reachable

variable {step : A → S → Except E S} {init : S → Prop} {ok ok' : A → S → Prop}

/-- What holds initially and is kept by every step taken from a reachable state holds always. -/
theorem invariant {P : S → Prop} (hinit : ∀ s, init s → P s)
    (hstep : ∀ a s s', P s → ok a s → step a s = .ok s' → P s')
    {s : S} (h : Reachable step init ok s) : P s := by
  induction h with
  | init h0 => exact hinit _ h0
  | step _ hok hs ih => exact hstep _ _ _ ih hok hs

theorem mono (himp : ∀ a s, ok a s → ok' a s) {s : S} (h : Reachable step init ok s) :
    Reachable step init ok' s := by
  induction h with
  | init h0 => exact .init h0
  | step _ hok hs ih => exact .step ih (himp _ _ hok) hs

end Reachable

/-! ## Executing a list of actions -/

/-- Take the actions one after the other; `none` if `ok` rejects one of them or the step stops. -/
def execOk (step : A → S → Except E S) (ok : A → S → Bool) : List A → S → Option S
  | [], s => some s
  | a :: as, s =>
    if ok a s then
      match step a s with
      | .ok s' => execOk step ok as s'
      | .error _ => none
    else none

variable {step : A → S → Except E S}

/-- One action alone. -/
theorem execOk_one {a : A} {s s' : S} :
    execOk step (fun _ _ => true) [a] s = some s' ↔ step a s = .ok s' := by
  simp only [execOk, if_true]
  cases step a s with
  | error x => simp
  | ok s₁ => simp

variable {ok : A → S → Prop}

theorem Reachable.execOk {init : S → Prop}
    {okB : A → S → Bool} (hokB : ∀ a s, okB a s = true → ok a s) :
    ∀ (as : List A) (s s' : S), Reachable step init ok s →
      Transition.execOk step okB as s = some s' → Reachable step init ok s' := by
  intro as
  induction as with
  | nil =>
    intro s s' hs h
    simp only [Transition.execOk, Option.some.injEq] at h
    subst h
    exact hs
  | cons a as ih =>
    intro s s' hs h
    simp only [Transition.execOk] at h
    split at h
    · next hok =>
        split at h
        · next s1 hstep => exact ih s1 s' (.step hs (hokB a s hok) hstep) h
        · exact absurd h (by simp)
    · exact absurd h (by simp)

/-- What an executed list of actions shows of its last state. -/
theorem execOk_any (step : A → S → Except E S) (ok : A → S → Bool) (as : List A) (s : S)
    (P : S → Prop) [DecidablePred P]
    (h : (execOk step ok as s).any (fun s => decide (P s)) = true) :
    ∃ s', execOk step ok as s = some s' ∧ P s' := by
  cases hs : execOk step ok as s with
  | none => simp [hs] at h
  | some s' => exact ⟨s', rfl, by simpa [hs] using h⟩

/-- A reachable state, found by executing a list of actions, and what is seen of it. -/
theorem reachable_any (step : A → S → Except E S) (init : S → Prop) (ok : A → S → Prop)
    [∀ a s, Decidable (ok a s)] (as : List A) {s : S} (hs : init s) (P : S → Prop)
    [DecidablePred P]
    (h : (execOk step (fun a s => decide (ok a s)) as s).any (fun s => decide (P s)) = true) :
    ∃ s', Reachable step init ok s' ∧ P s' := by
  obtain ⟨s', hexec, hP⟩ := execOk_any step _ as s P h
  exact ⟨s', .execOk (fun _ _ => of_decide_eq_true) as s s' (.init hs) hexec, hP⟩

/-! ## Whole executions -/

/-- `Run step s r`: the execution `r` lists the actions taken from `s` on, each with the state it
    leads to. -/
def Run (step : A → S → Except E S) : S → List (A × S) → Prop
  | _, [] => True
  | s, (a, s') :: r => step a s = .ok s' ∧ Run step s' r

/-- Every action of the execution is taken in a state that `C` accepts. -/
def StepsMeet (C : A → S → Prop) : S → List (A × S) → Prop
  | _, [] => True
  | s, (a, s') :: r => C a s ∧ StepsMeet C s' r

variable {C C' : A → S → Prop}

theorem StepsMeet.of_forall {r : List (A × S)}
    (h : ∀ x ∈ r, ∀ s, C x.1 s) : ∀ s, StepsMeet C s r := by
  induction r with
  | nil => intro s; trivial
  | cons x r ih =>
    intro s
    exact ⟨h x List.mem_cons_self s, ih (fun y hy => h y (List.mem_cons_of_mem _ hy)) x.2⟩

theorem StepsMeet.mono (himp : ∀ a s, C a s → C' a s) :
    ∀ (r : List (A × S)) (s : S), StepsMeet C s r → StepsMeet C' s r := by
  intro r
  induction r with
  | nil => intro s _; trivial
  | cons x r ih => intro s h; exact ⟨himp _ _ h.1, ih x.2 h.2⟩

/-- Conditions on the steps of an execution whose states all satisfy `P`. -/
theorem StepsMeet.imp_of_always {P : S → Prop} (himp : ∀ a s, P s → C a s → C' a s) :
    ∀ {r : List (A × S)} {s : S}, StepsMeet C s r → P s → (∀ x ∈ r, P x.2) → StepsMeet C' s r := by
  intro r
  induction r with
  | nil => intro s _ _ _; trivial
  | cons x r ih =>
    intro s h hs hr
    exact ⟨himp _ _ hs h.1,
      ih h.2 (hr x List.mem_cons_self) fun y hy => hr y (List.mem_cons_of_mem _ hy)⟩

/-- The execution behind a list of actions. -/
theorem exists_run {ok : A → S → Bool} :
    ∀ (as : List A) (s s' : S), execOk step ok as s = some s' →
      ∃ r, Run step s r ∧ StepsMeet (fun a s => ok a s = true) s r ∧ r.map Prod.fst = as := by
  intro as
  induction as with
  | nil => intro s s' _; exact ⟨[], trivial, trivial, rfl⟩
  | cons a as ih =>
    intro s s' h
    simp only [execOk] at h
    split at h
    · next hok =>
        split at h
        · next s1 hs1 =>
            obtain ⟨r, hrun, hmeet, hmap⟩ := ih s1 s' h
            exact ⟨(a, s1) :: r, ⟨hs1, hrun⟩, ⟨hok, hmeet⟩, by simp [hmap]⟩
        · exact absurd h (by simp)
    · exact absurd h (by simp)

/-- An execution whose steps all meet `C` can be repeated with `C` as a check. -/
theorem execOk_of_run {ok : A → S → Bool} (hok : ∀ a s, C a s → ok a s = true) :
    ∀ (r : List (A × S)) (s : S), Run step s r → StepsMeet C s r →
      (execOk step ok (r.map Prod.fst) s).isSome = true := by
  intro r
  induction r with
  | nil => intro s _ _; rfl
  | cons x r ih =>
    obtain ⟨a, s'⟩ := x
    intro s hrun hmeet
    simp only [List.map_cons, execOk, hok a s hmeet.1, if_true, hrun.1]
    exact ih s' hrun.2 hmeet.2

/-- Two conditions on steps say the same of an execution if they agree in every state of an
    invariant that the steps keep which meet the first one. -/
theorem StepsMeet.congr {I : S → Prop}
    (hinv : ∀ a s s', I s → C a s → step a s = .ok s' → I s') (hiff : ∀ a s, I s → ok a s →
      (C a s ↔ C' a s)) :
    ∀ (r : List (A × S)) (s : S), Run step s r → StepsMeet ok s r → I s →
      (StepsMeet C s r ↔ StepsMeet C' s r) := by
  intro r
  induction r with
  | nil => intro s _ _ _; exact Iff.rfl
  | cons x r ih =>
    obtain ⟨a, s'⟩ := x
    intro s hrun hok hI
    have hhead := hiff a s hI hok.1
    constructor
    · rintro ⟨hC, hmeet⟩
      exact ⟨hhead.1 hC, (ih s' hrun.2 hok.2 (hinv a s s' hI hC hrun.1)).1 hmeet⟩
    · rintro ⟨hC', hmeet⟩
      have hC := hhead.2 hC'
      exact ⟨hC, (ih s' hrun.2 hok.2 (hinv a s s' hI hC hrun.1)).2 hmeet⟩

/-- `Q` holds in every state of an execution exactly when all its steps meet `C`, if `Q` follows
    from an invariant `P` that the steps which meet `C` keep, and any other step breaks `Q`. -/
theorem Run.always_iff_of_strong {I P Q : S → Prop}
    (hPQ : ∀ s, P s → Q s) (hinv : ∀ a s s', I s → ok a s → step a s = .ok s' → I s')
    (hkeep : ∀ a s s', I s → ok a s → P s → C a s → step a s = .ok s' → P s')
    (hbreak : ∀ a s s', I s → ok a s → P s → step a s = .ok s' → Q s' → C a s) :
    ∀ (r : List (A × S)) (s : S), Run step s r → StepsMeet ok s r → I s → P s →
      ((∀ x ∈ r, Q x.2) ↔ StepsMeet C s r) := by
  intro r
  induction r with
  | nil => intro s _ _ _ _; simp [StepsMeet]
  | cons x r ih =>
    obtain ⟨a, s'⟩ := x
    intro s hrun hok hI hP
    obtain ⟨hs, hrest⟩ := hrun
    obtain ⟨hoka, hokr⟩ := hok
    have hI' := hinv a s s' hI hoka hs
    simp only [List.forall_mem_cons, StepsMeet]
    constructor
    · rintro ⟨hQ', hall⟩
      have hC := hbreak a s s' hI hoka hP hs hQ'
      exact ⟨hC, (ih s' hrest hokr hI' (hkeep a s s' hI hoka hP hC hs)).1 hall⟩
    · rintro ⟨hC, hmeet⟩
      have hP' := hkeep a s s' hI hoka hP hC hs
      exact ⟨hPQ s' hP', (ih s' hrest hokr hI' hP').2 hmeet⟩

/-- `P` holds in every state of an execution exactly when all its steps meet `C`, provided that from
    a state in `I` with `P` a step that `ok` allows keeps `P` exactly when it meets `C`. -/
theorem Run.always_iff {I P : S → Prop} (hinv : ∀ a s s', I s → ok a s → step a s = .ok s' → I s')
    (hstep : ∀ a s s', I s → ok a s → P s → step a s = .ok s' → (P s' ↔ C a s)) :
    ∀ (r : List (A × S)) (s : S), Run step s r → StepsMeet ok s r → I s → P s →
      ((∀ x ∈ r, P x.2) ↔ StepsMeet C s r) :=
  Run.always_iff_of_strong (fun _ => id) hinv
    (fun a s s' hI hok hP hC hs => (hstep a s s' hI hok hP hs).2 hC)
    fun a s s' hI hok hP hs => (hstep a s s' hI hok hP hs).1

end Transition
