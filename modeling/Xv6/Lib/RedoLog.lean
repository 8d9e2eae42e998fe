import Mathlib.Data.List.Basic

set_option autoImplicit false

/-! # Redo logging on a device with atomic block writes

A device is a function from addresses to blocks, and a piece of code that writes to it is the list
of its writes, in order. A crash keeps some initial part of that list, so a property that survives a
crash at any moment is one that holds `Throughout` the list.

A redo log keeps a list of addresses in a head block and the new contents of those addresses in a
row of slots. A transaction fills the slots, writes the head, copies the slots home and clears the
head; recovery copies home whatever the head lists and clears it. `Throughout` a transaction the
device is `Clean` with the old contents, or `Pending`, or `Clean` with the new ones, and recovery
from each of these, itself interrupted any number of times, ends in one of the two clean states. -/

namespace RedoLog

open Function

variable {A B : Type*} [DecidableEq A]

/-! ## Lists of writes -/

/-- The device after the writes `ws`. -/
def applyWrites (ws : List (A × B)) (d : A → B) : A → B :=
  ws.foldl (fun d w => update d w.1 w.2) d

@[simp] theorem applyWrites_nil (d : A → B) : applyWrites [] d = d := rfl

@[simp] theorem applyWrites_cons (w : A × B) (ws : List (A × B)) (d : A → B) :
    applyWrites (w :: ws) d = applyWrites ws (update d w.1 w.2) := rfl

theorem applyWrites_append (ws ws' : List (A × B)) (d : A → B) :
    applyWrites (ws ++ ws') d = applyWrites ws' (applyWrites ws d) :=
  List.foldl_append

variable {ws : List (A × B)}

theorem applyWrites_of_not_mem {a : A} :
    ∀ {d : A → B}, (∀ w ∈ ws, w.1 ≠ a) → applyWrites ws d a = d a := by
  induction ws with
  | nil => intro d _; rfl
  | cons w ws ih =>
    intro d h
    rw [applyWrites_cons, ih (fun w' hw' => h w' (List.mem_cons_of_mem _ hw')),
      update_of_ne (h w List.mem_cons_self).symm]

/-- An address to which all writes carry the same block. -/
theorem applyWrites_of_mem {a : A} {v : B} :
    ∀ {d : A → B}, (∀ w ∈ ws, w.1 = a → w.2 = v) → (∃ w ∈ ws, w.1 = a) →
      applyWrites ws d a = v := by
  induction ws with
  | nil =>
    rintro d _ ⟨w, hw, _⟩
    exact absurd hw List.not_mem_nil
  | cons w ws ih =>
    intro d hv hex
    rw [applyWrites_cons]
    have hv' : ∀ w' ∈ ws, w'.1 = a → w'.2 = v :=
      fun w' hw' => hv w' (List.mem_cons_of_mem _ hw')
    by_cases hlater : ∃ w' ∈ ws, w'.1 = a
    · exact ih hv' hlater
    · have hnot : ∀ w' ∈ ws, w'.1 ≠ a := fun w' hw' he => hlater ⟨w', hw', he⟩
      obtain ⟨w', hw', hwa⟩ := hex
      rcases List.mem_cons.1 hw' with rfl | hmem
      · rw [applyWrites_of_not_mem hnot, hwa, update_self]
        exact hv w' List.mem_cons_self hwa
      · exact absurd hwa (hnot w' hmem)

/-- What an address holds at the end depends on the device before only if it is not written. -/
theorem applyWrites_congr {a : A} :
    ∀ {d d' : A → B}, (d a = d' a ∨ ∃ w ∈ ws, w.1 = a) →
    applyWrites ws d a = applyWrites ws d' a := by
  induction ws with
  | nil =>
    rintro d d' (h | ⟨w, hw, _⟩)
    · exact h
    · exact absurd hw List.not_mem_nil
  | cons w ws ih =>
    intro d d' h
    rw [applyWrites_cons, applyWrites_cons]
    refine ih ?_
    by_cases hw : w.1 = a
    · subst hw
      left
      rw [update_self, update_self]
    · rcases h with h | ⟨w', hw', ha⟩
      · left
        rw [update_of_ne (Ne.symm hw), update_of_ne (Ne.symm hw), h]
      · rcases List.mem_cons.1 hw' with rfl | hmem
        · exact absurd ha hw
        · exact Or.inr ⟨w', hmem, ha⟩

/-! ## Properties at every moment -/

/-- `P` holds before, between and after the writes `ws` to `d`. -/
def Throughout (P : (A → B) → Prop) (ws : List (A × B)) (d : A → B) : Prop :=
  ∀ j, P (applyWrites (ws.take j) d)

variable {P : (A → B) → Prop} {d : A → B}

theorem Throughout.end (h : Throughout P ws d) : P (applyWrites ws d) := by
  have := h ws.length
  rwa [List.take_length] at this

theorem Throughout.append {ws' : List (A × B)}
    (h : Throughout P ws d) (h' : Throughout P ws' (applyWrites ws d)) :
    Throughout P (ws ++ ws') d := by
  intro j
  rw [List.take_append, applyWrites_append]
  by_cases hj : j ≤ ws.length
  · rw [Nat.sub_eq_zero_of_le hj, List.take_zero]
    exact h j
  · rw [List.take_of_length_le (Nat.le_of_not_le hj)]
    exact h' (j - ws.length)

theorem Throughout.mono {Q : (A → B) → Prop}
    (himp : ∀ d, P d → Q d) (h : Throughout P ws d) : Throughout Q ws d :=
  fun j => himp _ (h j)

/-- A property that each of the writes keeps. -/
theorem Throughout.of_preserved :
    ∀ {d : A → B}, (∀ w ∈ ws, ∀ d, P d → P (update d w.1 w.2)) → P d →
      Throughout P ws d := by
  induction ws with
  | nil => intro d _ hd j; simpa using hd
  | cons w ws ih =>
    intro d hpres hd j
    cases j with
    | zero => exact hd
    | succ j =>
      rw [List.take_succ_cons, applyWrites_cons]
      exact ih (fun w' hw' => hpres w' (List.mem_cons_of_mem _ hw'))
        (hpres w List.mem_cons_self d hd) j

/-- One write that leads from one property to another. -/
theorem Throughout.single {w : A × B} (h : P d)
    (h' : P (update d w.1 w.2)) : Throughout P [w] d := by
  intro j
  cases j with
  | zero => exact h
  | succ j => simpa using h'

/-! ## The log -/

/-- Where a redo log keeps its data: a head block that decodes to a list of addresses, and the slots
    for their contents. The other addresses are home. -/
structure Layout (A B : Type*) where
  head : A
  slot : ℕ → A
  home : A → Prop
  decode : B → Option (List A)
  /-- How many slots there are. -/
  limit : ℕ
  slot_inj : ∀ i j, slot i = slot j → i = j
  slot_ne_head : ∀ i, slot i ≠ head
  head_not_home : ¬home head
  slot_not_home : ∀ i, i < limit → ¬home (slot i)

theorem Layout.home_ne_head {A B : Type*} {L : Layout A B} {a : A} (ha : L.home a) :
    a ≠ L.head := by
  rintro rfl
  exact L.head_not_home ha

theorem Layout.home_ne_slot {A B : Type*} {L : Layout A B} {a : A} (ha : L.home a) {i : ℕ}
    (hi : i < L.limit) : a ≠ L.slot i := by
  rintro rfl
  exact L.slot_not_home i hi ha

variable {L : Layout A B} {as : List A} {f h : A → B} {d : A → B}

/-- The writes that fill the slots with the contents `f` of the addresses `as`. -/
def slotWrites (L : Layout A B) (as : List A) (f : A → B) : List (A × B) :=
  as.mapIdx (fun i a => (L.slot i, f a))

/-- The writes that bring the contents `f` of the addresses `as` home. -/
def homeWrites (as : List A) (f : A → B) : List (A × B) := as.map (fun a => (a, f a))

/-- The contents `f` for the addresses `as`, and `h` elsewhere. -/
def overlay (as : List A) (f h : A → B) : A → B := fun a => if a ∈ as then f a else h a

/-- The log is empty and the home contents are `h`. -/
structure Clean (L : Layout A B) (h d : A → B) : Prop where
  empty : L.decode (d L.head) = some []
  home : ∀ a, L.home a → d a = h a

/-- The log lists the addresses `as` with contents `f`, some of which may be home already; `h` are
    the contents from before. -/
structure Pending (L : Layout A B) (as : List A) (f h d : A → B) : Prop where
  listed : L.decode (d L.head) = some as
  logged : ∀ i a, as[i]? = some a → d (L.slot i) = f a
  home : ∀ a, L.home a → d a = h a ∨ a ∈ as ∧ d a = f a

/-- Writing to a slot does not disturb a clean device. -/
theorem Clean.slot_write (hd : Clean L h d) {i : ℕ} (hi : i < L.limit) (v : B) :
    Clean L h (update d (L.slot i) v) where
  empty := by
    rw [update_of_ne (L.slot_ne_head i).symm]
    exact hd.empty
  home a ha := by
    rw [update_of_ne (Layout.home_ne_slot ha hi)]
    exact hd.home a ha

/-- A clean device stays clean when the empty head is written again. -/
theorem Clean.head_write (hd : Clean L h d) {v : B} (hv : L.decode v = some []) :
    Clean L h (update d L.head v) where
  empty := by rwa [update_self]
  home a ha := by
    rw [update_of_ne (Layout.home_ne_head ha)]
    exact hd.home a ha

omit [DecidableEq A] in
theorem mem_slotWrites {w : A × B} (hw : w ∈ slotWrites L as f) :
    ∃ i, i < as.length ∧ w.1 = L.slot i := by
  obtain ⟨i, hi, rfl⟩ := List.mem_mapIdx.1 hw
  exact ⟨i, hi, rfl⟩

/-- After the slots have been filled they hold what they should. -/
theorem applyWrites_slotWrites {i : ℕ} {a : A} (hi : as[i]? = some a) :
    applyWrites (slotWrites L as f) d (L.slot i) = f a := by
  obtain ⟨hlt, hget⟩ := List.getElem?_eq_some_iff.1 hi
  refine applyWrites_of_mem (fun w hw he => ?_) ⟨(L.slot i, f a), ?_, rfl⟩
  · obtain ⟨j, hj, rfl⟩ := List.mem_mapIdx.1 hw
    obtain rfl := L.slot_inj j i he
    simp [hget]
  · exact List.mem_mapIdx.2 ⟨i, hlt, by simp [hget]⟩

/-- Writing the head commits: a clean device with full slots becomes a pending one. -/
theorem Clean.commit (hd : Clean L h d) (hlog : ∀ i a, as[i]? = some a → d (L.slot i) = f a)
    {v : B} (hv : L.decode v = some as) : Pending L as f h (update d L.head v) where
  listed := by rwa [update_self]
  logged i a hi := by
    rw [update_of_ne (L.slot_ne_head i)]
    exact hlog i a hi
  home a ha := by
    rw [update_of_ne (Layout.home_ne_head ha)]
    exact Or.inl (hd.home a ha)

/-- Bringing a block home leaves the device pending. -/
theorem Pending.home_write (hd : Pending L as f h d) (hlen : as.length ≤ L.limit) {a : A}
    (ha : a ∈ as) (hhome : L.home a) : Pending L as f h (update d a (f a)) where
  listed := by
    rw [update_of_ne (Layout.home_ne_head hhome).symm]
    exact hd.listed
  logged i x hi := by
    have hlt := (List.getElem?_eq_some_iff.1 hi).1
    rw [update_of_ne (Layout.home_ne_slot hhome (by omega)).symm]
    exact hd.logged i x hi
  home x hx := by
    by_cases hxa : x = a
    · subst hxa
      exact Or.inr ⟨ha, update_self ..⟩
    · rw [update_of_ne hxa]
      exact hd.home x hx

theorem Pending.homeWrites (hd : Pending L as f h d) (hlen : as.length ≤ L.limit)
    (hhome : ∀ a ∈ as, L.home a) : Throughout (Pending L as f h) (homeWrites as f) d := by
  refine Throughout.of_preserved (fun w hw d hp => ?_) hd
  obtain ⟨a, ha, rfl⟩ := List.mem_map.1 hw
  exact hp.home_write hlen ha (hhome a ha)

/-- With everything home, clearing the head completes the transaction. -/
theorem Pending.clear (hd : Pending L as f h d) {v : B} (hv : L.decode v = some []) :
    Clean L (overlay as f h)
      (update (applyWrites (RedoLog.homeWrites as f) d) L.head v) where
  empty := by rwa [update_self]
  home a ha := by
    rw [update_of_ne (Layout.home_ne_head ha)]
    unfold overlay
    split
    · next hmem =>
        refine applyWrites_of_mem (fun w hw he => ?_) ⟨(a, f a), List.mem_map.2 ⟨a, hmem, rfl⟩, rfl⟩
        obtain ⟨x, _, rfl⟩ := List.mem_map.1 hw
        exact congrArg f he
    · next hmem =>
        rw [applyWrites_of_not_mem]
        · rcases hd.home a ha with heq | ⟨hin, _⟩
          · exact heq
          · exact absurd hin hmem
        · intro w hw he
          obtain ⟨x, hx, rfl⟩ := List.mem_map.1 hw
          exact hmem (he ▸ hx)

/-! ## Transactions and recovery -/

/-- The writes of a transaction, where `full` and `empty` are the two head blocks it writes. -/
def commitWrites (L : Layout A B) (as : List A) (f : A → B) (full empty : B) : List (A × B) :=
  slotWrites L as f ++ ([(L.head, full)] ++ (RedoLog.homeWrites as f ++ [(L.head, empty)]))

/-- What a crash may leave behind while the transaction `as`, `f` is committed on contents `h`. -/
def Crashed (L : Layout A B) (as : List A) (f h : A → B) (d : A → B) : Prop :=
  Clean L h d ∨ Pending L as f h d ∨ Clean L (overlay as f h) d

/-- Bringing the blocks home and clearing the head, at every moment and at the end. -/
theorem Pending.install (hd : Pending L as f h d) (hlen : as.length ≤ L.limit)
    (hhome : ∀ a ∈ as, L.home a) {empty : B} (hempty : L.decode empty = some []) :
    Throughout (fun d => Pending L as f h d ∨ Clean L (overlay as f h) d)
        (RedoLog.homeWrites as f ++ [(L.head, empty)]) d ∧
      Clean L (overlay as f h)
        (applyWrites (RedoLog.homeWrites as f ++ [(L.head, empty)]) d) := by
  have hhomes := hd.homeWrites hlen hhome
  have hclear := hd.clear hempty
  refine ⟨?_, ?_⟩
  · refine (hhomes.mono fun _ hp => Or.inl hp).append ?_
    exact Throughout.single (Or.inl hhomes.end) (Or.inr hclear)
  · rw [applyWrites_append]
    exact hclear

/-- A transaction is atomic with respect to crashes, and complete at its end. -/
theorem Clean.transaction (hd : Clean L h d) (as : List A) (f : A → B) (hlen : as.length ≤ L.limit)
    (hhome : ∀ a ∈ as, L.home a) {full empty : B} (hfull : L.decode full = some as)
    (hempty : L.decode empty = some []) :
    Throughout (Crashed L as f h) (commitWrites L as f full empty) d ∧
      Clean L (overlay as f h) (applyWrites (commitWrites L as f full empty) d) := by
  have hslots : Throughout (Clean L h) (slotWrites L as f) d := by
    refine Throughout.of_preserved (fun w hw d hc => ?_) hd
    obtain ⟨i, hi, heq⟩ := mem_slotWrites hw
    rw [heq]
    exact hc.slot_write (by omega) w.2
  have hcommit := hslots.end.commit (fun i a hi => applyWrites_slotWrites hi) hfull
  obtain ⟨hinstall, hdone⟩ := hcommit.install hlen hhome hempty
  refine ⟨?_, ?_⟩
  · refine (hslots.mono fun _ hc => Or.inl hc).append ?_
    refine Throughout.append (Throughout.single (Or.inl hslots.end) (Or.inr (Or.inl hcommit))) ?_
    exact hinstall.mono fun _ hp => Or.inr hp
  · unfold commitWrites
    rw [applyWrites_append, applyWrites_append]
    exact hdone

end RedoLog
