import Xv6.Proc.Refine

set_option autoImplicit false

/-! # The state lists are never corrupted (`CS333_P3P4`)

The result of the development of `Inv` and `Refine` for a reader of `proc.c`: whatever the CPUs do,
the pointers of `ptable.pLists` spell twelve disjoint finite lists, every slot is on the one its
state names, and none of the checks in the list code ever fires. -/

namespace Xv6

open LinkedList PTable

namespace Sys

/-- `L` lists the members of the state lists in order: the pointers spell it, and a slot is a member
    of the list of its state and of no other. -/
structure ListsSound (s : PTable) (L : ListId → List Slot) : Prop where
  chain : ∀ l, Chain s.next (s.pLists l).head (L l)
  tail : ∀ l, (s.pLists l).head ≠ none → (s.pLists l).tail = (L l).getLast?
  one : ∀ p, ∃! l, p ∈ L l
  home : ∀ p l, p ∈ L l ↔ home (s.proc p) = some l

theorem listsSound_of_inv {s : PTable} {L : ListId → List Slot} (h : Inv s L) :
    ListsSound s L where
  chain := h.rep.chain
  tail l hl := by
    refine (h.rep.isList l).tail_eq (fun hnil => hl ?_)
    rw [h.head_eq, hnil]
    rfl
  one p := by
    obtain ⟨l, hl⟩ : ∃ l, PTable.home (s.proc p) = some l := by
      cases hst : (s.proc p).state with
      | unused => exact ⟨.free, by simpa using hst⟩
      | embryo => exact ⟨.embryo, by simpa using hst⟩
      | sleeping => exact ⟨.sleep, by simpa using hst⟩
      | running => exact ⟨.running, by simpa using hst⟩
      | zombie => exact ⟨.zombie, by simpa using hst⟩
      | runnable => exact ⟨.ready (prioOf h p), by rw [home_eq_ready]; exact ⟨hst, rfl⟩⟩
    refine ⟨l, (h.mem_iff p l).2 hl, fun l' hl' => ?_⟩
    have := (h.mem_iff p l').1 hl'
    rw [hl] at this
    exact (Option.some.inj this).symm
  home := h.mem_iff

/-- In every reachable state of the `CS333_P3P4` build the lists are sound, the loop variable of
    each scheduler is null or a `RUNNABLE` member of the list its loop runs over, and the next
    action does not panic, unless it is init that calls `exit`. -/
theorem stateLists_sound (s : Sys) (h : Transition.Reachable (step .p3p4) (Init .p3p4) PrioOk s) :
    ∃ L, ListsSound s.pt L ∧
      (∀ c i p, s.cpu c = .loop (.ready i) p →
        p = none ∨ ∃ x, p = some x ∧ x ∈ L (.ready i) ∧ (s.pt.proc x).state = .runnable) ∧
      ∀ a e, PrioOk a s → step .p3p4 a s = .error (.panic e) → e = .initExiting := by
  have hinv := reachable_inv h
  obtain ⟨L, hL⟩ := hinv.tab
  refine ⟨L, listsSound_of_inv hL, fun c i p hc => ?_, fun a e hok hstep => ?_⟩
  · cases p with
    | none => exact Or.inl rfl
    | some x =>
      have hhome := hinv.loop c i x hc
      exact Or.inr ⟨x, rfl, (hL.mem_iff x _).2 hhome, (home_eq_ready.1 hhome).1⟩
  · have hout := step_outcome hinv hok
    rw [show s.step .p3p4 a = _ from hstep] at hout
    exact hout

/-- Init forks a child, which runs on a second CPU, sleeps, is woken and is about to be dispatched
    again, while init waits for it. -/
def childWoken : List Act :=
  switchAndFork ++ [.schedEnter 1, .schedStep 1, .sleep 1 (.addr 7)] ++
  List.replicate 8 (.schedStep 1) ++
  [.wakeup (.addr 7), .wait 0] ++ List.replicate 8 (.schedStep 0) ++ [.schedEnter 1]

set_option maxRecDepth 100000 in
theorem stateLists_sound_childWoken :
    ∃ s, replay .p3p4 childWoken = some s ∧
      (s.cpu 1 = .loop (.ready 0) (some 1) ∧ (s.pt.proc 0).state = .sleeping) ∧
      ∃ L, ListsSound s.pt L ∧
        (∀ c i p, s.cpu c = .loop (.ready i) p →
          p = none ∨ ∃ x, p = some x ∧ x ∈ L (.ready i) ∧ (s.pt.proc x).state = .runnable) ∧
        ∀ a e, PrioOk a s → step .p3p4 a s = .error (.panic e) → e = .initExiting := by
  obtain ⟨s, hs, hP⟩ := replay_any .p3p4 childWoken
    (fun s => s.cpu 1 = .loop (.ready 0) (some 1) ∧ (s.pt.proc 0).state = .sleeping)
    (by decide +kernel)
  exact ⟨s, hs, hP, stateLists_sound s (replay_reachable hs)⟩

end Sys

end Xv6
