import Xv6.Proc.Refine

set_option autoImplicit false

/-! # Credentials across `fork`

`allocproc` gives every new process uid and gid 0, and `fork` stores the parent's uid and gid into
the child only after it has made the child `RUNNABLE` and released the lock. Until then the child
can already run.

What the credentials of a process should be is tracked beside the machine: a child starts with what
its parent has when it is made runnable, and after that only the process itself changes them. The
result compares the two in every state of a run and says exactly which steps keep them equal. It
holds for both builds. -/

namespace Xv6

open Transition Function PTable Life

/-- A uid and a gid. -/
structure Cred where
  uid : Word
  gid : Word
  deriving DecidableEq, Repr

namespace Life

variable {s s' : Life} {a : Act} {e : Slot → Cred}

/-- The credentials of a process. -/
def cred (s : Life) (p : Slot) : Cred := ⟨s.uid p, s.gid p⟩

/-- What the credentials should be after an action. -/
def expect (a : Act) (s : Life) (e : Slot → Cred) : Slot → Cred :=
  match a with
  | .forkPublish c =>
    match s.running c with
    | none => e
    | some q =>
      match s.kont q with
      | .forkReady np => update e np (s.cred q)
      | _ => e
  | .setuid c v =>
    match s.running c with
    | none => e
    | some q => update e q { e q with uid := BitVec.ofInt 32 v }
  | .setgid c v =>
    match s.running c with
    | none => e
    | some q => update e q { e q with gid := BitVec.ofInt 32 v }
  | .execSetuid c v =>
    match s.running c with
    | none => e
    | some q => update e q { e q with uid := v.setWidth 32 }
  | _ => e

/-- Every process that has been made runnable has the credentials it should have. -/
def CredOk (s : Life) (e : Slot → Cred) : Prop := ∀ p, (s.state p).born → s.cred p = e p

/-- A process that no `fork` has published yet has the credentials of `allocproc`. -/
def EmbryoZero (s : Life) : Prop := ∀ p, s.state p = .embryo → s.uid p = 0 ∧ s.gid p = 0

/-- The steps that do no harm: a child is published by a parent whose credentials are those of
    `allocproc`, and the late stores of `fork` find in the child what they are about to store. -/
def Timely (a : Act) (s : Life) : Prop :=
  match a with
  | .forkPublish c => ∀ q np, s.running c = some q → s.kont q = .forkReady np →
      s.uid q = 0 ∧ s.gid q = 0
  | .forkUid c => ∀ q np, s.running c = some q → s.kont q = .forkUid np → s.uid np = s.uid q
  | .forkGid c => ∀ q np, s.running c = some q → s.kont q = .forkGid np → s.gid np = s.gid q
  | _ => True

instance (a : Act) (s : Life) : Decidable (Timely a s) :=
  match a with
  | .forkPublish _ | .forkUid _ | .forkGid _ =>
    inferInstanceAs (Decidable (∀ _ _ : Slot, _ → _ → _))
  | .tick | .schedEnter _ | .schedStep _ | .forkAlloc _ | .forkFail _ | .forkCopy _ | .exit _
  | .wait _ | .yield _ | .sleep _ _ | .wakeup _ | .kill _ | .setpriority _ _ | .setuid _ _
  | .setgid _ _ | .execSetuid _ _ => isTrue trivial

theorem expect_of_quiet (ha : quiet a) : expect a s e = e := by
  cases a <;> first | rfl | exact absurd ha (fun h => h)

theorem timely_of_quiet (ha : quiet a) : Timely a s := by
  cases a <;> trivial

theorem EmbryoZero.step (hinv : LifeInv s) (h : EmbryoZero s) (hs : Step a s s') :
    EmbryoZero s' := by
  cases hs with
  | idle => exact h
  | wake _ W hW =>
    intro p hp
    exact h p (by simp only [Life.wake] at hp; grind)
  | switch hc hp => intro x hx; exact h x (by grind)
  | forkAlloc hc hq hnp => intro x hx; grind [EmbryoZero]
  | forkFail hc hq | forkPublish hc hq =>
    intro x hx
    exact h x (by simp only [Life.setKont] at hx; grind)
  | forkCopy hc hq => exact h
  | forkUid hc hq =>
    have hborn := (hinv.store _ _ (Or.inl hq)).1
    intro x hx
    simp only [Life.setKont] at hx ⊢
    grind [EmbryoZero, ProcState.born]
  | forkGid hc hq =>
    have hborn := (hinv.store _ _ (Or.inr hq)).1
    intro x hx
    simp only [Life.setKont] at hx ⊢
    grind [EmbryoZero, ProcState.born]
  | exit W R hc hq hinit hW hR hlive =>
    intro x hx
    exact h x (by simp only [stop, Life.adopt, Life.wake] at hx; grind)
  | reap hc hq hp hpar => intro x hx; exact h x (by simp only [Life.setKont] at hx; grind)
  | waitReturn hc hq => exact h
  | waitSleep hc hq | yield hc | sleep chan hc hq =>
    intro x hx
    exact h x (by simp only [Life.setKont, stop] at hx; grind)
  | setuid v hc hq | setgid v hc hq | execSetuid v hc hq =>
    have hrun := hinv.running_state _ _ hc
    intro x hx
    simp only at hx ⊢
    grind [EmbryoZero]

/-- A step that publishes nobody and touches no credentials keeps them right. -/
theorem CredOk.of_same (h : CredOk s e) (hborn : ∀ p, (s'.state p).born → (s.state p).born)
    (huid : s'.uid = s.uid) (hgid : s'.gid = s.gid) : CredOk s' e := by
  intro p hp
  rw [← h p (hborn p hp)]
  simp [cred, huid, hgid]

/-- Publishing a child is right exactly for a parent with the credentials of `allocproc`. -/
theorem credOk_publish_iff (hz : EmbryoZero s) (hinv : LifeInv s) (h : CredOk s e) {q np : Slot}
    (hq : s.kont q = .forkReady np) :
    CredOk ({ s with state := update s.state np .runnable }.setKont q (.forkUid np))
      (update e np (s.cred q)) ↔ s.uid q = 0 ∧ s.gid q = 0 := by
  obtain ⟨hst, _⟩ := hinv.ready q np hq
  obtain ⟨hu, hg⟩ := hz np hst
  constructor
  · intro hok
    have hnp := hok np (by simp [Life.setKont, ProcState.born])
    simp only [cred, Life.setKont, update_self, hu, hg, Cred.mk.injEq] at hnp
    exact ⟨hnp.1.symm, hnp.2.symm⟩
  · rintro ⟨hqu, hqg⟩ p hp
    by_cases hpn : p = np
    · subst hpn
      simp [cred, Life.setKont, hu, hg, hqu, hqg]
    · have hborn : (s.state p).born := by simpa [Life.setKont, hpn] using hp
      simpa [cred, Life.setKont, hpn] using h p hborn

/-- A store to the credentials of a process is right exactly when it changes nothing. -/
theorem credOk_store_iff (h : CredOk s e) {np : Slot} (hborn : (s.state np).born) (c : Cred) :
    CredOk { s with uid := update s.uid np c.uid, gid := update s.gid np c.gid } e ↔
      s.cred np = c := by
  constructor
  · intro hok
    have hnp := hok np hborn
    simp only [cred, update_self] at hnp
    rw [h np hborn]
    exact hnp.symm
  · rintro rfl p hp
    by_cases hpn : p = np
    · subst hpn
      simpa [cred] using h p hp
    · simpa [cred, hpn] using h p hp

/-- A process may change its own credentials. -/
theorem CredOk.set (h : CredOk s e) (q : Slot) (c : Cred) :
    CredOk { s with uid := update s.uid q c.uid, gid := update s.gid q c.gid }
      (update e q c) := by
  intro p hp
  by_cases hpq : p = q
  · subst hpq
    simp [cred]
  · simpa [cred, hpq] using h p hp

theorem LifeInv.running_born (hinv : LifeInv s) {c : ℕ} {q : Slot} (hc : s.running c = some q) :
    (s.state q).born := by
  rw [hinv.running_state c q hc]
  simp [ProcState.born]

/-- One step keeps the credentials right exactly when it is timely. -/
theorem credOk_step_iff (hinv : LifeInv s) (hz : EmbryoZero s) (h : CredOk s e)
    (hs : Step a s s') : CredOk s' (expect a s e) ↔ Timely a s := by
  cases hs with
  | idle ha =>
    rw [expect_of_quiet ha]
    exact iff_of_true h (timely_of_quiet ha)
  | wake ha W hW =>
    rw [expect_of_quiet ha]
    refine iff_of_true (h.of_same (fun p hp => ?_) rfl rfl) (timely_of_quiet ha)
    simp only [Life.wake] at hp
    grind [ProcState.born]
  | switch hc hp =>
    refine iff_of_true (h.of_same (fun p hp => ?_) rfl rfl) trivial
    grind [ProcState.born]
  | @forkAlloc _ c q np hc hq hnp =>
    refine iff_of_true (fun p hp => ?_) trivial
    have hpn : p ≠ np := by
      rintro rfl
      simp [ProcState.born] at hp
    have hborn : (s.state p).born := by simpa [hpn] using hp
    simpa [cred, hpn, expect] using h p hborn
  | forkFail hc hq =>
    refine iff_of_true (h.of_same (fun p hp => ?_) rfl rfl) trivial
    simp only [Life.setKont] at hp
    grind [ProcState.born]
  | forkCopy hc hq => exact iff_of_true (h.of_same (fun p hp => hp) rfl rfl) trivial
  | @forkPublish _ c q np hc hq =>
    have hexp : expect (.forkPublish c) s e = update e np (s.cred q) := by
      simp only [expect, hc, hq]
    rw [hexp, credOk_publish_iff hz hinv h hq]
    refine ⟨fun hu q' np' hc' _ => ?_, fun ht => ht _ _ hc hq⟩
    rwa [← Option.some.inj (hc.symm.trans hc')]
  | @forkUid _ c q np hc hq =>
    have hborn := (hinv.store q np (Or.inl hq)).1
    have hiff := credOk_store_iff h hborn ⟨s.uid q, s.gid np⟩
    simp only [update_eq_self, cred, Cred.mk.injEq, and_true] at hiff
    refine Iff.trans hiff ⟨fun hu q' np' hc' hq' => ?_, fun ht => ht q np hc hq⟩
    obtain rfl := Option.some.inj (hc.symm.trans hc')
    rwa [← Kont.forkUid.inj (hq.symm.trans hq')]
  | @forkGid _ c q np hc hq =>
    have hborn := (hinv.store q np (Or.inr hq)).1
    have hiff := credOk_store_iff h hborn ⟨s.uid np, s.gid q⟩
    simp only [update_eq_self, cred, Cred.mk.injEq, true_and] at hiff
    refine Iff.trans hiff ⟨fun hu q' np' hc' hq' => ?_, fun ht => ht q np hc hq⟩
    obtain rfl := Option.some.inj (hc.symm.trans hc')
    rwa [← Kont.forkGid.inj (hq.symm.trans hq')]
  | exit W R hc hq hinit hW hR hlive =>
    have hrun := hinv.running_state _ _ hc
    refine iff_of_true (h.of_same (fun p hp => ?_) rfl rfl) trivial
    simp only [stop, Life.adopt, Life.wake] at hp
    grind [ProcState.born]
  | reap hc hq hp hpar =>
    refine iff_of_true (h.of_same (fun p hp => ?_) rfl rfl) trivial
    simp only [Life.setKont] at hp
    grind [ProcState.born]
  | waitReturn hc hq => exact iff_of_true (h.of_same (fun p hp => hp) rfl rfl) trivial
  | waitSleep hc hq | yield hc | sleep chan hc hq =>
    have hrun := hinv.running_state _ _ hc
    refine iff_of_true (h.of_same (fun p hp => ?_) rfl rfl) trivial
    simp only [Life.setKont, stop] at hp
    grind [ProcState.born]
  | @setuid _ c q v hc hq =>
    have hset := h.set q ⟨BitVec.ofInt 32 v, s.gid q⟩
    rw [update_eq_self] at hset
    refine iff_of_true ?_ trivial
    simp only [expect, hc, ← h q (hinv.running_born hc)]
    exact hset
  | @setgid _ c q v hc hq =>
    have hset := h.set q ⟨s.uid q, BitVec.ofInt 32 v⟩
    rw [update_eq_self] at hset
    refine iff_of_true ?_ trivial
    simp only [expect, hc, ← h q (hinv.running_born hc)]
    exact hset
  | @execSetuid _ c q v hc hq =>
    have hset := h.set q ⟨v.setWidth 32, s.gid q⟩
    rw [update_eq_self] at hset
    refine iff_of_true ?_ trivial
    simp only [expect, hc, ← h q (hinv.running_born hc)]
    exact hset

end Life

namespace Sys

variable {b : Build}

/-- The machine together with the credentials that the processes should have. -/
def stepCred (b : Build) (a : Act) (x : Sys × (Slot → Cred)) :
    Except Halt (Sys × (Slot → Cred)) :=
  match step b a x.1 with
  | .ok s' => .ok (s', expect a x.1.life x.2)
  | .error e => .error e

theorem stepCred_ok {a : Act} {x x' : Sys × (Slot → Cred)} (h : stepCred b a x = .ok x') :
    step b a x.1 = .ok x'.1 ∧ x'.2 = expect a x.1.life x.2 := by
  unfold stepCred at h
  split at h
  · next s' hs =>
      obtain rfl := Except.ok.inj h
      exact ⟨hs, rfl⟩
  · exact absurd h (by simp)

/-- Initially every process has the credentials it should have. -/
def InitCred (b : Build) (x : Sys × (Slot → Cred)) : Prop := Init b x.1 ∧ x.2 = x.1.life.cred

/-- Every process that is neither `UNUSED` nor `EMBRYO` has the credentials it should have. -/
def CredOk (x : Sys × (Slot → Cred)) : Prop := Life.CredOk x.1.life x.2

/-- The child is published by a parent with uid and gid 0, or the store finds what it is about to
    store. -/
def Timely (a : Act) (x : Sys × (Slot → Cred)) : Prop := Life.Timely a x.1.life

theorem Init.embryoZero {s : Sys} (h : Init b s) : EmbryoZero s.life := by
  obtain ⟨ticks, pt, hpt, rfl⟩ := h
  obtain ⟨p, pt', hpt', _, hident⟩ := userinit_sim b ticks
  obtain rfl := Except.ok.inj (hpt.symm.trans hpt')
  have hlife := life_congr hident (fun _ => .run) (fun _ => .idle) none none
  rw [show (boot pt).life = _ from hlife]
  intro x hx
  by_cases hxp : x = p
  · subst hxp
    simp [Sys.life, booted] at hx
  · simp [Sys.life, booted, allocated, zero, hxp] at hx

/-- Along a run of either build, every process has the credentials it should have in every state
    exactly when every step is timely. -/
theorem fork_credentials_iff (b : Build) (x : Sys × (Slot → Cred)) (hinit : InitCred b x)
    (r : List (Act × (Sys × (Slot → Cred)))) (hrun : Run (stepCred b) x r)
    (hprio : StepsMeet (fun a x => PrioOk a x.1) x r) :
    (∀ y ∈ r, CredOk y.2) ↔ StepsMeet Timely x r := by
  refine Run.always_iff (I := fun x => SysInv b x.1 ∧ EmbryoZero x.1.life)
    (fun a x x' hI hok hs => ?_) (fun a x x' hI hok hP hs => ?_) r x hrun hprio
    ⟨hinit.1.inv, hinit.1.embryoZero⟩ (fun p _ => by rw [hinit.2])
  · obtain ⟨hstep, _⟩ := stepCred_ok hs
    obtain ⟨hinv', hlife⟩ := step_inv hI.1 hok hstep
    exact ⟨hinv', hI.2.step hI.1.life hlife⟩
  · obtain ⟨hstep, hexp⟩ := stepCred_ok hs
    have hlife := (step_inv hI.1 hok hstep).2
    have hiff := credOk_step_iff hI.1.life hI.2 hP hlife
    rw [← hexp] at hiff
    exact hiff

/-- The state and the expected credentials after a list of actions. -/
def replayCred (b : Build) (as : List Act) : Option (Sys × (Slot → Cred)) :=
  match userinit b 0 with
  | .ok pt => execOk (stepCred b) (fun a x => decide (PrioOk a x.1)) as
      (boot pt, (boot pt).life.cred)
  | .error _ => none

variable {x : Sys × (Slot → Cred)}

theorem replayCred_reachable {as : List Act} (h : replayCred b as = some x) :
    Reachable (stepCred b) (InitCred b) (fun a x => PrioOk a x.1) x := by
  unfold replayCred at h
  split at h
  · next pt hpt =>
      exact Reachable.execOk (fun _ _ hok => of_decide_eq_true hok) as _ x
        (.init ⟨⟨0, pt, hpt, rfl⟩, rfl⟩) h
  · exact absurd h (by simp)

theorem replayCred_any (b : Build) (as : List Act) (P : Sys × (Slot → Cred) → Prop)
    [DecidablePred P] (h : (replayCred b as).any (fun x => decide (P x)) = true) :
    ∃ x, replayCred b as = some x ∧ P x := by
  cases hx : replayCred b as with
  | none => simp [hx] at h
  | some x => exact ⟨x, rfl, by simpa [hx] using h⟩

/-- A process in use whose uid is not the one it should have. -/
theorem not_credOk (p : Slot) (hst : (x.1.pt.proc p).state = .running)
    (hne : (x.1.pt.proc p).uid ≠ (x.2 p).uid) : ¬CredOk x := by
  intro h
  have hp := h p (show ProcState.born (x.1.pt.proc p).state by rw [hst]; simp [ProcState.born])
  exact hne (congrArg Cred.uid hp)

/-- Init, with uid and gid 0, forks a child; the child runs on a second CPU and sets its uid. -/
def childSetsUid : List Act :=
  switchAndFork ++ [.schedEnter 1, .schedStep 1, .schedStep 1, .setuid 1 9]

set_option maxRecDepth 100000 in
theorem fork_credentials_childSetsUid :
    ∃ x r, InitCred .table x ∧ Run (stepCred .table) x r ∧ r.map Prod.fst = childSetsUid ∧
      StepsMeet Timely x r ∧ ∀ y ∈ r, CredOk y.2 := by
  obtain ⟨pt, hpt⟩ : ∃ pt, userinit .table 0 = .ok pt := by
    obtain ⟨_, pt, hpt, _⟩ := userinit_sim .table 0
    exact ⟨pt, hpt⟩
  have hsome : (match userinit .table 0 with
      | .ok pt => execOk (stepCred .table)
          (fun a x => decide (PrioOk a x.1 ∧ Life.Timely a x.1.life))
          childSetsUid (boot pt, (boot pt).life.cred)
      | .error _ => none).isSome = true := by decide +kernel
  rw [hpt] at hsome
  obtain ⟨x, hx⟩ := Option.isSome_iff_exists.1 hsome
  obtain ⟨r, hrun, hmeet, hmap⟩ := exists_run childSetsUid _ x hx
  have hinit : InitCred .table (boot pt, (boot pt).life.cred) := ⟨⟨0, pt, hpt, rfl⟩, rfl⟩
  have hprio := hmeet.mono (fun _ _ h => (of_decide_eq_true h).1)
  have htimely := hmeet.mono (fun _ _ h => (of_decide_eq_true h).2)
  exact ⟨_, r, hinit, hrun, hmap, htimely,
    (fork_credentials_iff .table _ hinit r hrun hprio).2 htimely⟩

/-- Init changes its uid and gid and forks, and a second CPU runs the child before `fork` has stored
    its uid. -/
def childRunsEarly : List Act :=
  [.schedEnter 0, .schedStep 0, .setuid 0 5, .setgid 0 7, .forkAlloc 0, .forkCopy 0, .forkPublish 0,
    .schedEnter 1, .schedStep 1, .schedStep 1]

/-- The child sets its uid, and then `fork` stores the parent's. -/
def childOverwritten : List Act := childRunsEarly ++ [.setuid 1 9, .forkUid 0]

set_option maxRecDepth 100000 in
/-- A child of a parent with uid 5 runs with uid 0, and the uid 9 that it sets is overwritten. -/
theorem fork_credentials_late :
    (∃ x, Reachable (stepCred .table) (InitCred .table) (fun a x => PrioOk a x.1) x ∧
      x.1.cpu 1 = .run .table 1 ∧ (x.1.pt.proc 1).parent = some 0 ∧ (x.1.pt.proc 0).uid = 5 ∧
      (x.1.pt.proc 1).uid = 0 ∧ ¬CredOk x) ∧
    (∃ x, Reachable (stepCred .table) (InitCred .table) (fun a x => PrioOk a x.1) x ∧
      x.1.cpu 1 = .run .table 1 ∧ (x.2 1).uid = 9 ∧ (x.1.pt.proc 1).uid = 5 ∧ ¬CredOk x) := by
  constructor
  · obtain ⟨x, hx, hc, hpar, h0, h1, hst, hne⟩ := replayCred_any .table childRunsEarly
      (fun x => x.1.cpu 1 = .run .table 1 ∧ (x.1.pt.proc 1).parent = some 0 ∧
        (x.1.pt.proc 0).uid = 5 ∧ (x.1.pt.proc 1).uid = 0 ∧ (x.1.pt.proc 1).state = .running ∧
        (x.1.pt.proc 1).uid ≠ (x.2 1).uid)
      (by decide +kernel)
    exact ⟨x, replayCred_reachable hx, hc, hpar, h0, h1, not_credOk 1 hst hne⟩
  · obtain ⟨x, hx, hc, h9, h5, hst, hne⟩ := replayCred_any .table childOverwritten
      (fun x => x.1.cpu 1 = .run .table 1 ∧ (x.2 1).uid = 9 ∧ (x.1.pt.proc 1).uid = 5 ∧
        (x.1.pt.proc 1).state = .running ∧ (x.1.pt.proc 1).uid ≠ (x.2 1).uid)
      (by decide +kernel)
    exact ⟨x, replayCred_reachable hx, hc, h9, h5, not_credOk 1 hst hne⟩

end Sys

end Xv6
