import Xv6.Proc.Refine

set_option autoImplicit false

/-! # `wakeup1`: the list loop against the table scan

The loop of the `CS333_P3P4` `wakeup1` moves a sleeper to its ready list and then goes on with `p =
p->next`. Appending to the ready list has just cleared that link, so the loop ends with the first
process it wakes. It wakes every sleeper on the channel exactly when there is at most one. -/

namespace Xv6

open LinkedList PTable

namespace PTable

variable {s : PTable} {L : ListId → List Slot}

/-- `p` is a node of the list `l`. -/
def OnList (s : PTable) (l : ListId) (p : Slot) : Prop :=
  ∃ ps, Chain s.next (s.pLists l).head ps ∧ p ∈ ps

/-- Every sleeper on `chan` has become runnable and is on the list of its priority, every other
    process is as before but for its link, and the states are those that the scan of the table
    computes. -/
structure WakesEvery (chan : Chan) (s s' : PTable) : Prop where
  woken : ∀ p, (s.proc p).state = .sleeping → (s.proc p).chan = chan →
    (s'.proc p).state = .runnable ∧
      ∃ i : Prio, (s'.proc p).priority = i.val ∧ OnList s' (.ready i) p
  other : ∀ p, ¬((s.proc p).state = .sleeping ∧ (s.proc p).chan = chan) →
    { s'.proc p with next := none } = { s.proc p with next := none }
  scan : ∀ p, (s'.proc p).state = ((wakeup1Table chan s).proc p).state

theorem Inv.onList_ready (h : Inv s L) {p : Slot} (hp : (s.proc p).state = .runnable) :
    ∃ i : Prio, (s.proc p).priority = i.val ∧ OnList s (.ready i) p := by
  refine ⟨prioOf h p, rfl, L (.ready (prioOf h p)), h.rep.chain _, ?_⟩
  rw [h.mem_iff, home_eq_ready]
  exact ⟨hp, rfl⟩

/-- The state of a slot that the scan of the table leaves. -/
theorem wakeup1Table_state (chan : Chan) (s : PTable) (p : Slot) :
    ((wakeup1Table chan s).proc p).state =
      if (s.proc p).state = .sleeping ∧ (s.proc p).chan = chan then .runnable
      else (s.proc p).state := by
  rw [wakeup1Table_eq, wakeAll_state]
  simp only [mem_sleepers]

/-- A slot apart from its link, read through `core`. -/
theorem unlinked_of_core {s' t : PTable} (h : s'.core = t.core) (p : Slot) :
    { s'.proc p with next := none } = { t.proc p with next := none } :=
  field_of_core h (fun pr => { pr with next := none }) (fun _ _ => rfl) p

/-- With one sleeper on the channel the list loop does all there is to do. -/
theorem WakesEvery.of_one {chan : Chan} {p : Slot} {s' : PTable}
    {L' : ListId → List Slot} (hp : (s.proc p).state = .sleeping) (hchan : (s.proc p).chan = chan)
    (hone : ∀ q, (s.proc q).state = .sleeping → (s.proc q).chan = chan → q = p)
    (hinv : Inv s' L') (hcore : s'.core = (s.setState p .runnable).core) :
    WakesEvery chan s s' where
  woken q hq hqc := by
    have hst : (s'.proc q).state = .runnable := by
      rw [state_of_core hcore, hone q hq hqc]
      simp [setState]
    exact ⟨hst, hinv.onList_ready hst⟩
  other q hq := by
    have hne : q ≠ p := by
      rintro rfl
      exact hq ⟨hp, hchan⟩
    rw [unlinked_of_core hcore]
    simp [setState, hne]
  scan q := by
    rw [state_of_core hcore, wakeup1Table_state]
    by_cases hqp : q = p
    · subst hqp
      simp [setState, hp, hchan]
    · have hnot : ¬((s.proc q).state = .sleeping ∧ (s.proc q).chan = chan) :=
        fun hq => hqp (hone q hq.1 hq.2)
      rw [if_neg hnot]
      simp [setState, hqp]

/-- From a table with the state-list invariant, `wakeup1` wakes every sleeper on `chan` if and only
    if at most one process sleeps there. -/
theorem wakeup1_wakesEvery_iff (s : PTable) (L : ListId → List Slot) (h : Inv s L) (chan : Chan) :
    (∃ s', wakeup1 .p3p4 chan s = .ok s' ∧ WakesEvery chan s s') ↔
      ∀ p q, (s.proc p).state = .sleeping → (s.proc p).chan = chan →
        (s.proc q).state = .sleeping → (s.proc q).chan = chan → p = q := by
  obtain ⟨s', hs, hspec⟩ := wakeup1List_spec h chan
  cases hfind : (L .sleep).find? (fun p => decide ((s.proc p).chan = chan)) with
  | none =>
    rw [hfind] at hspec
    -- nobody sleeps on the channel, and nothing happens
    have hnone : ∀ p, (s.proc p).state = .sleeping → (s.proc p).chan ≠ chan := by
      intro p hp hc
      have hmem : p ∈ L .sleep := (h.mem_iff p .sleep).2 (by simpa using hp)
      have := List.find?_eq_none.1 hfind p hmem
      simp [hc] at this
    refine ⟨fun _ p q hp hpc => absurd hpc (hnone p hp), fun _ => ⟨s', hs, ?_⟩⟩
    rw [hspec]
    refine ⟨fun p hp hpc => absurd hpc (hnone p hp), fun _ _ => rfl, fun p => ?_⟩
    rw [wakeup1Table_state, if_neg (fun hp => hnone p hp.1 hp.2)]
  | some p =>
    rw [hfind] at hspec
    obtain ⟨hinv, hcore⟩ := hspec
    obtain ⟨hp, hpc⟩ := firstSleeper_state h hfind
    constructor
    · rintro ⟨s1, hs1, hwakes⟩ x y hx hxc hy hyc
      obtain rfl := Except.ok.inj (hs1.symm.trans hs)
      -- a sleeper other than the first one found still sleeps
      have hfirst : ∀ z, (s.proc z).state = .sleeping → (s.proc z).chan = chan → z = p := by
        intro z hz hzc
        by_contra hne
        have hrun := (hwakes.woken z hz hzc).1
        rw [state_of_core hcore] at hrun
        simp [setState, hne, hz] at hrun
      rw [hfirst x hx hxc, hfirst y hy hyc]
    · intro hone
      exact ⟨s', hs, .of_one hp hpc (fun q hq hqc => hone q p hq hqc hp hpc) hinv hcore⟩

/-- Init forks a child, and the child goes to sleep on channel 7. -/
def childSleeps : List Act :=
  Sys.switchAndFork ++ [.schedEnter 1, .schedStep 1, .sleep 1 (.addr 7)] ++
    List.replicate 8 (.schedStep 1)

set_option maxRecDepth 100000 in
theorem wakeup1_wakesEvery_childSleeps :
    ∃ s, Sys.replay .p3p4 childSleeps = some s ∧ (s.pt.proc 1).state = .sleeping ∧
      ∃ s', wakeup1 .p3p4 (.addr 7) s.pt = .ok s' ∧ WakesEvery (.addr 7) s.pt s' := by
  obtain ⟨s, hs, hone, hall⟩ := Sys.replay_any .p3p4 childSleeps
    (fun s => (s.pt.proc 1).state = .sleeping ∧
      ∀ p, (s.pt.proc p).state = .sleeping → (s.pt.proc p).chan = .addr 7 → p = 1)
    (by decide +kernel)
  obtain ⟨L, hinv⟩ := (Sys.reachable_inv (Sys.replay_reachable hs)).tab
  refine ⟨s, hs, hone, (wakeup1_wakesEvery_iff s.pt L hinv (.addr 7)).2 ?_⟩
  intro p q hp hpc hq hqc
  rw [hall p hp hpc, hall q hq hqc]

/-- Then init goes to sleep on channel 7, too. -/
def bothSleep : List Act := childSleeps ++ [.sleep 0 (.addr 7)] ++ List.replicate 8 (.schedStep 0)

set_option maxRecDepth 100000 in
/-- With two sleepers on the channel, `wakeup1` leaves the second one asleep. -/
theorem wakeup1_leaves_sleeper :
    ∃ s, Sys.replay .p3p4 bothSleep = some s ∧ (∃ L, Inv s.pt L) ∧
      ((s.pt.proc 0).state = .sleeping ∧ (s.pt.proc 0).chan = .addr 7) ∧
      ((s.pt.proc 1).state = .sleeping ∧ (s.pt.proc 1).chan = .addr 7) ∧
      (∃ s', wakeup1 .p3p4 (.addr 7) s.pt = .ok s' ∧ (s'.proc 0).state = .sleeping) ∧
      ¬∃ s', wakeup1 .p3p4 (.addr 7) s.pt = .ok s' ∧ WakesEvery (.addr 7) s.pt s' := by
  obtain ⟨s, hs, h0, h1, hrun⟩ := Sys.replay_any .p3p4 bothSleep
    (fun s => ((s.pt.proc 0).state = .sleeping ∧ (s.pt.proc 0).chan = .addr 7) ∧
      ((s.pt.proc 1).state = .sleeping ∧ (s.pt.proc 1).chan = .addr 7) ∧
      (wakeup1 .p3p4 (.addr 7) s.pt).toOption.map (fun s' => (s'.proc 0).state) = some .sleeping)
    (by decide +kernel)
  obtain ⟨s', hs', hst⟩ : ∃ s', wakeup1 .p3p4 (.addr 7) s.pt = .ok s' ∧
      (s'.proc 0).state = .sleeping := by
    cases hw : wakeup1 .p3p4 (.addr 7) s.pt with
    | error e => simp [hw, Except.toOption] at hrun
    | ok s' => exact ⟨s', rfl, by simpa [hw, Except.toOption] using hrun⟩
  refine ⟨s, hs, (Sys.reachable_inv (Sys.replay_reachable hs)).tab, h0, h1, ⟨s', hs', hst⟩, ?_⟩
  rintro ⟨s1, hs1, hwakes⟩
  obtain rfl := Except.ok.inj (hs1.symm.trans hs')
  have hrunnable := (hwakes.woken 0 h0.1 h0.2).1
  rw [hst] at hrunnable
  exact absurd hrunnable (by simp)

end PTable

end Xv6
