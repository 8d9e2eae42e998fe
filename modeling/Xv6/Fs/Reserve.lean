import Xv6.Fs.GroupCommit
import Mathlib.Algebra.Order.BigOperators.Group.Finset

set_option autoImplicit false

/-! # Reservations in the log

`begin_op` lets an operation in while every operation in progress can still log `MAXOPBLOCKS` blocks
without exceeding `LOGSIZE`. `log_write` refuses to log more than `log.size - 1` blocks, because one
block of the log is its header, and `mkfs` makes a log of `LOGSIZE` blocks. So the reservations of
three operations do not fit, and the bound that fits is one block less for each operation. -/

namespace Xv6

open Function

namespace Group

variable {P : Type} [DecidableEq P] [Fintype P] {s s' : Group P} {a : GroupAct P}

/-- The blocks that operation `o` has logged since a header was last written. -/
def blocksOf (o : ℕ) (s : Group P) : Finset Word :=
  ((s.written.filter (fun x => x.1 = o)).map Prod.snd).toFinset

/-- The blocks that have been logged since a header was last written. -/
def logged (s : Group P) : Finset Word := (s.written.map Prod.snd).toFinset

/-- The action keeps its operation within `m` different blocks. -/
def Within (m : ℕ) : GroupAct P → Group P → Prop
  | .logWrite p w, s => (insert w (blocksOf (s.op p) s)).card ≤ m
  | _, _ => True

instance (m : ℕ) : ∀ (a : GroupAct P) (s : Group P), Decidable (Within m a s)
  | .logWrite .., _ => inferInstanceAs (Decidable (_ ≤ _))
  | .call _, _ | .beginOp _, _ | .check _, _ | .append _, _ | .endOp _, _ | .commit _, _ =>
    .isTrue trivial

variable {w : Word}

omit [DecidableEq P] [Fintype P] in
theorem mem_blocksOf {o : ℕ} : w ∈ blocksOf o s ↔ (o, w) ∈ s.written := by
  simp [blocksOf]

omit [DecidableEq P] [Fintype P] in
theorem mem_logged : w ∈ logged s ↔ ∃ o, (o, w) ∈ s.written := by
  simp [logged]

/-! ## The logged blocks -/

/-- The list in the log has no block twice, and none that no operation has logged. -/
structure Listed (s : Group P) : Prop where
  nodup : s.log.lh.Nodup
  from_ops : s.log.committing = false → ∀ w ∈ s.log.lh, ∃ o, (o, w) ∈ s.written

omit [DecidableEq P] [Fintype P] in
theorem Listed.congr (h : Listed s) (hlh : s'.log.lh = s.log.lh)
    (hcomm : s'.log.committing = false → s.log.committing = false)
    (hwritten : s'.log.committing = false → s'.written = s.written) : Listed s' := by
  refine ⟨by rw [hlh]; exact h.nodup, fun hc w hw => ?_⟩
  rw [hwritten hc]
  rw [hlh] at hw
  exact h.from_ops (hcomm hc) w hw

variable {p : P}

theorem Listed.commitStep (h : Listed s) (hc : Counted s) (hl : Ledger s) {c : CommitPc}
    (hold : s.pc p = .commit c) : Listed (commitStep p s c) := by
  have hcomm : s.log.committing = true := hc.flag.2 ⟨p, by rw [hold]; rfl⟩
  have hstays : ∀ {s' : Group P}, s'.log = s.log → Listed s' := by
    intro s' hlog
    refine h.congr (by rw [hlog]) (fun hf => ?_) (fun hf => ?_)
    · rwa [hlog] at hf
    · rw [hlog, hcomm] at hf
      cases hf
  rcases commitStep_cases p s c with ⟨c', hstep, _⟩ | ⟨copied, rfl⟩ | rfl | rfl
  · rw [hstep]
    exact hstays rfl
  · exact hstays rfl
  · exact ⟨List.nodup_nil, fun _ w hw => absurd hw List.not_mem_nil⟩
  · have hlh : s.log.lh = [] := hl.stage p _ hold
    refine ⟨h.nodup, fun _ w hw => ?_⟩
    rw [show (Group.commitStep p s .done).log.lh = [] from hlh] at hw
    cases hw

theorem Listed.step (h : Listed s) (hc : Counted s) (hl : Ledger s) (hs : Effect s a s') :
    Listed s' := by
  cases hs with
  | call hpc => exact h.congr rfl id fun _ => rfl
  | begins hpc hmay => exact h.congr rfl id fun _ => rfl
  | waits => exact h
  | sizeOk hpc => exact h.congr rfl id fun _ => rfl
  | checked hpc => exact h.congr rfl id fun _ => rfl
  | @appends p w hpc =>
    refine ⟨Log.nodup_absorb h.nodup, fun hf x hx => ?_⟩
    rcases Log.mem_absorb.1 hx with rfl | hx
    · exact ⟨s.op p, List.mem_append_right _ List.mem_cons_self⟩
    · obtain ⟨o, ho⟩ := h.from_ops hf x hx
      exact ⟨o, List.mem_append_left _ ho⟩
  | lastEnds hpc hcomm => exact h.congr rfl (fun _ => hcomm) fun _ => rfl
  | ends hpc hcomm => exact h.congr rfl id fun _ => rfl
  | commits hpc => exact h.commitStep hc hl hpc

omit [DecidableEq P] in
/-- Outside of `commit` the log lists as many blocks as the operations have logged. -/
theorem Listed.length_eq (h : Listed s) (hl : Ledger s) (hcomm : s.log.committing = false) :
    s.log.lh.length = (logged s).card := by
  rw [← List.toFinset_card_of_nodup h.nodup]
  congr 1
  ext w
  rw [List.mem_toFinset, mem_logged]
  exact ⟨h.from_ops hcomm w, fun ⟨o, ho⟩ => (hl.written _ ho).1⟩

/-! ## Room for the reservations -/

/-- How many blocks operation `o` may still log if it keeps within `m`. -/
def reserve (m o : ℕ) (s : Group P) : ℕ := m - (blocksOf o s).card

/-- With at most `m` blocks for each operation, what is logged and what the operations in progress
    may still log stays below the limit of `log_write`. -/
structure Room (m : ℕ) (s : Group P) : Prop where
  inj : ∀ p ∈ s.inProgress, ∀ q ∈ s.inProgress, s.op p = s.op q → p = q
  pending : ∀ p w, s.pc p = .sizeOk w ∨ s.pc p = .checked w →
    (insert w (blocksOf (s.op p) s)).card ≤ m
  room : s.log.committing = false →
    s.log.lh.length + ∑ p ∈ s.inProgress, reserve m (s.op p) s ≤ logSize - 2

omit [DecidableEq P] in
theorem Room.init (m start size : ℕ) : Room m (init start size : Group P) where
  inj p hp := by simp [Group.init, LogPc.inProgress] at hp
  pending p w h := by simp [Group.init] at h
  room _ := by simp [Group.init, Log.init, inProgress, LogPc.inProgress]

variable {m : ℕ}

/-- A process moves inside its operation, or comes and goes outside of it. -/
theorem Room.moves (h : Room m s) {c : LogPc} (hpc : s'.pc = update s.pc p c)
    (hbooks : s'.op = s.op ∧ s'.written = s.written ∧ s'.log.lh = s.log.lh)
    (hin : c.inProgress = true → (s.pc p).inProgress = true)
    (hpend : ∀ w, c = .sizeOk w ∨ c = .checked w →
      (insert w (blocksOf (s.op p) s)).card ≤ m)
    (hcomm : s'.log.committing = false → s.log.committing = false) : Room m s' := by
  obtain ⟨hop, hwritten, hlh⟩ := hbooks
  have hblocks : ∀ o, blocksOf o s' = blocksOf o s := fun o => by simp only [blocksOf, hwritten]
  have hsub : s'.inProgress ⊆ s.inProgress := by
    intro q hq
    rw [mem_inProgress] at hq ⊢
    rw [hpc, update_apply] at hq
    split_ifs at hq with hqp
    · rw [hqp]
      exact hin hq
    · exact hq
  refine ⟨?_, ?_, ?_⟩
  · rw [hop]
    exact fun q hq r hr => h.inj q (hsub hq) r (hsub hr)
  · intro q w hq
    rw [hop, hblocks]
    rw [hpc, update_apply] at hq
    split_ifs at hq with hqp
    · rw [hqp]
      exact hpend w hq
    · exact h.pending q w hq
  · intro hf
    have hroom := h.room (hcomm hf)
    have hsum : ∑ q ∈ s'.inProgress, reserve m (s'.op q) s' ≤
        ∑ q ∈ s.inProgress, reserve m (s.op q) s := by
      simp only [reserve, hop, hblocks]
      exact Finset.sum_le_sum_of_subset hsub
    rw [hlh]
    omega

/-- The test of `begin_op` keeps ten blocks for each operation, so at most nine each leave room: a
    first operation finds an empty log, and any other at most eighteen blocks short of the test. -/
theorem Room.begins (hm : m ≤ 9) (h : Room m s) (hc : Counted s) (hl : Ledger s)
    (hold : s.pc p = .beginOp) (hmay : s.log.mayBegin = true) :
    Room m (goto p .inOp { s with
      log := s.log.beginOp, op := update s.op p s.ops, ops := s.ops + 1 }) := by
  have hnew : p ∉ s.inProgress := by simp [hold, LogPc.inProgress]
  have hprogress : (goto p .inOp { s with
      log := s.log.beginOp, op := update s.op p s.ops, ops := s.ops + 1 }).inProgress =
        insert p s.inProgress :=
    (inProgress_update (s := s) (p := p) (c := .inOp) rfl).trans (if_pos rfl)
  have hlt : ∀ q ∈ s.inProgress, s.op q ≠ s.ops := fun q hq =>
    Nat.ne_of_lt (hl.op_range q (mem_inProgress.1 hq)).2
  refine ⟨?_, ?_, fun _ => ?_⟩
  · rw [hprogress]
    change ∀ q ∈ _, ∀ r ∈ _,
      update s.op p s.ops q = update s.op p s.ops r → q = r
    intro q hq r hr he
    rw [Finset.mem_insert] at hq hr
    by_cases hqp : q = p <;> by_cases hrp : r = p
    · rw [hqp, hrp]
    · rw [hqp, update_self, update_of_ne hrp] at he
      exact absurd he.symm (hlt r (hr.resolve_left hrp))
    · rw [hrp, update_self, update_of_ne hqp] at he
      exact absurd he (hlt q (hq.resolve_left hqp))
    · rw [update_of_ne hqp, update_of_ne hrp] at he
      exact h.inj q (hq.resolve_left hqp) r (hr.resolve_left hrp) he
  · intro q w hq
    rw [goto_pc] at hq
    split_ifs at hq with hqp
    · rcases hq with hq | hq <;> cases hq
    · have := h.pending q w hq
      change (insert w (blocksOf (update s.op p s.ops q) s)).card ≤ m
      rwa [update_of_ne hqp]
  · rw [hprogress]
    have hsum : ∑ q ∈ insert p s.inProgress, reserve m (update s.op p s.ops q) s ≤
        (s.inProgress.card + 1) * 9 := by
      rw [← Finset.card_insert_of_notMem hnew]
      exact Finset.sum_le_card_nsmul _ _ 9 fun q _ => (Nat.sub_le _ _).trans hm
    have htest : (s.log.lh.length : Int) + (s.inProgress.card + 1) * 10 ≤ 30 := by
      simp only [Log.mayBegin, Bool.and_eq_true, decide_eq_true_eq] at hmay
      rw [← hc.outstanding]
      exact hmay.2
    change s.log.lh.length + ∑ q ∈ insert p s.inProgress,
      reserve m (update s.op p s.ops q) s ≤ 28
    by_cases hempty : s.inProgress = ∅
    · rw [hl.idle hempty (mayBegin_committing hmay)]
      rw [hempty] at hsum ⊢
      simp only [Finset.card_empty, List.length_nil] at hsum ⊢
      omega
    · have hpos := Finset.card_pos.2 (Finset.nonempty_iff_ne_empty.2 hempty)
      omega

omit [DecidableEq P] [Fintype P] in
theorem blocksOf_append {o o' : ℕ} {l : Log} {pc : P → LogPc} :
    blocksOf o { s with log := l, pc := pc, written := s.written ++ [(o', w)] } =
      if o' = o then insert w (blocksOf o s) else blocksOf o s := by
  ext x
  split_ifs with ho
  · subst ho
    simp [blocksOf]
  · simp [blocksOf, ho]

/-- A `log_write` uses up a block of its operation's reservation for each block it adds. -/
theorem Room.appends (h : Room m s) (hl : Ledger s) (hold : s.pc p = .checked w) :
    Room m (goto p .inOp { s with
      log := s.log.append w, written := s.written ++ [(s.op p, w)] }) := by
  have hp : p ∈ s.inProgress := by simp [hold, LogPc.inProgress]
  have hprogress : (goto p .inOp { s with
      log := s.log.append w, written := s.written ++ [(s.op p, w)] }).inProgress =
        s.inProgress :=
    ((inProgress_update (s := s) (p := p) (c := .inOp) rfl).trans (if_pos rfl)).trans
      (Finset.insert_eq_self.2 hp)
  have hother : ∀ q ∈ s.inProgress, q ≠ p → s.op p ≠ s.op q :=
    fun q hq hne he => hne (h.inj q hq p hp he.symm)
  refine ⟨?_, ?_, fun hf => ?_⟩
  · rw [hprogress]
    exact h.inj
  · intro q x hq
    rw [goto_pc] at hq
    split_ifs at hq with hqp
    · rcases hq with hq | hq <;> cases hq
    · have hq' : q ∈ s.inProgress := by
        rw [mem_inProgress]
        rcases hq with hq | hq
        · rw [show s.pc q = .sizeOk x from hq]
          rfl
        · rw [show s.pc q = .checked x from hq]
          rfl
      have := h.pending q x hq
      simp only [goto, blocksOf_append]
      rwa [if_neg (hother q hq' hqp)]
  · have hroom := h.room hf
    have hpend := h.pending p w (Or.inr hold)
    rw [hprogress]
    rw [← Finset.add_sum_erase _ _ hp] at hroom ⊢
    have hrest : ∑ q ∈ s.inProgress.erase p, reserve m (s.op q) (goto p .inOp { s with
        log := s.log.append w, written := s.written ++ [(s.op p, w)] }) =
          ∑ q ∈ s.inProgress.erase p, reserve m (s.op q) s := by
      refine Finset.sum_congr rfl fun q hq => ?_
      obtain ⟨hne, hmem⟩ := Finset.mem_erase.1 hq
      simp only [goto, reserve, blocksOf_append]
      rw [if_neg (hother q hmem hne)]
    change (Log.absorb w s.log.lh).length + (reserve m (s.op p) _ + ∑ q ∈ _,
      reserve m (s.op q) _) ≤ _
    rw [hrest]
    have hown : reserve m (s.op p) (goto p .inOp { s with
        log := s.log.append w, written := s.written ++ [(s.op p, w)] }) =
          m - (insert w (blocksOf (s.op p) s)).card := by
      simp only [goto, reserve, blocksOf_append]
      rfl
    rw [hown]
    by_cases hw : w ∈ s.log.lh
    · have hlen := Log.length_absorb_of_mem hw
      have hcard := Finset.card_le_card (Finset.subset_insert w (blocksOf (s.op p) s))
      simp only [reserve] at hroom ⊢
      omega
    · have hnew : w ∉ blocksOf (s.op p) s := fun hmem => hw (hl.written _ (mem_blocksOf.1 hmem)).1
      have hlen := Log.length_absorb_le w s.log.lh
      rw [Finset.card_insert_of_notMem hnew] at hpend ⊢
      simp only [reserve] at hroom ⊢
      omega

omit [DecidableEq P] in
/-- With no operation in progress, an empty log is enough. -/
theorem Room.of_quiet (m : ℕ) (hempty : s.inProgress = ∅)
    (hlh : s.log.committing = false → s.log.lh = []) : Room m s where
  inj p hp := by simp [hempty] at hp
  pending p w hp := by
    refine absurd hempty (inProgress_ne_empty (p := p) ?_)
    rcases hp with hp | hp <;> rw [hp] <;> rfl
  room hcomm := by simp [hlh hcomm, hempty]

theorem Room.commitStep (m : ℕ) (hc : Counted s) (hl : Ledger s) {c : CommitPc}
    (hold : s.pc p = .commit c) : Room m (commitStep p s c) := by
  have hp : (s.pc p).commits = true := by rw [hold]; rfl
  have hcomm := hc.flag.2 ⟨p, hp⟩
  have hquiet : ∀ {s' : Group P} {c' : LogPc}, s'.pc = update s.pc p c' →
      c'.inProgress = false → (s'.log.committing = false → s'.log.lh = []) → Room m s' := by
    intro s' c' hpc hc' hlh
    refine Room.of_quiet m ?_ hlh
    rw [inProgress_update hpc, hc', hc.quiet p hp]
    rfl
  rcases commitStep_cases p s c with ⟨c', hstep, _⟩ | ⟨copied, rfl⟩ | rfl | rfl
  · rw [hstep]
    exact hquiet rfl rfl fun hf => absurd (hf.symm.trans hcomm) Bool.false_ne_true
  · exact hquiet rfl rfl fun hf => absurd (hf.symm.trans hcomm) Bool.false_ne_true
  · exact hquiet rfl rfl fun _ => rfl
  · exact hquiet rfl rfl fun _ => hl.stage p _ hold

theorem Room.step (hm : m ≤ 9) (h : Room m s) (hc : Counted s) (hl : Ledger s)
    (hwithin : Within m a s) (hs : Effect s a s') : Room m s' := by
  cases hs with
  | call hpc =>
    exact h.moves rfl ⟨rfl, rfl, rfl⟩ (fun hin => by cases hin)
      (fun w hw => by rcases hw with hw | hw <;> cases hw) id
  | begins hpc hmay => exact h.begins hm hc hl hpc hmay
  | waits => exact h
  | sizeOk hpc =>
    refine h.moves rfl ⟨rfl, rfl, rfl⟩ (fun _ => by rw [hpc]; rfl) ?_ id
    intro w hw
    rcases hw with hw | hw <;> cases hw
    exact hwithin
  | checked hpc =>
    refine h.moves rfl ⟨rfl, rfl, rfl⟩ (fun _ => by rw [hpc]; rfl) ?_ id
    intro w hw
    rcases hw with hw | hw <;> cases hw
    exact h.pending _ _ (Or.inl hpc)
  | appends hpc => exact h.appends hl hpc
  | lastEnds hpc hcomm =>
    exact h.moves rfl ⟨rfl, rfl, rfl⟩ (fun hin => by cases hin)
      (fun w hw => by rcases hw with hw | hw <;> cases hw) (fun _ => hcomm)
  | ends hpc =>
    exact h.moves rfl ⟨rfl, rfl, rfl⟩ (fun hin => by cases hin)
      (fun w hw => by rcases hw with hw | hw <;> cases hw) id
  | commits hpc => exact Room.commitStep m hc hl hpc

/-! ## The panic of `log_write` -/

/-- The states reached while every operation keeps within `m` different blocks. -/
def ReachableWithin (m start size : ℕ) : Group P → Prop :=
  Transition.Reachable step (fun s => s = init start size) (Within m)

omit [Fintype P] in
theorem Effect.log_size (hs : Effect s a s') : s'.log.size = s.log.size := by
  cases hs with
  | @commits p c _ =>
    rcases commitStep_cases p s c with ⟨c', hstep, _⟩ | ⟨copied, rfl⟩ | rfl | rfl
    · rw [hstep]
      rfl
    · rfl
    · rfl
    · rfl
  | call | begins | waits | sizeOk | checked | appends | lastEnds | ends => rfl

theorem Reachable.listed {start size : ℕ} (h : Reachable start size s) :
    Counted s ∧ Ledger s ∧ Listed s ∧ s.log.size = size := by
  refine Transition.Reachable.invariant
    (P := fun s => Counted s ∧ Ledger s ∧ Listed s ∧ s.log.size = size) ?_ ?_ h
  · rintro s rfl
    exact ⟨Counted.init start size, Ledger.init start size,
      ⟨List.nodup_nil, fun _ w hw => absurd hw List.not_mem_nil⟩, rfl⟩
  · rintro a s s' ⟨hc, hl, hlist, hsize⟩ _ hs
    have he := step_effect hs
    exact ⟨hc.step he, hl.step hc he, hlist.step hc hl he, he.log_size.trans hsize⟩

omit [DecidableEq P] in
theorem Counted.not_committing (h : Counted s) (hp : (s.pc p).inProgress = true) :
    s.log.committing = false :=
  Bool.eq_false_of_not_eq_true fun hcomm => h.not_inProgress hcomm p hp

/-- On a disk made by `mkfs`, `log_write` panics exactly when one block less than the size of the
    log has been logged since the last commit. -/
theorem Reachable.panics_iff {start : ℕ} (h : Reachable start logSize s) (a : GroupAct P) :
    step a s = .error (.panic .tooBig) ↔
      ∃ p w, a = .logWrite p w ∧ s.pc p = .inOp ∧ logSize - 1 ≤ (logged s).card := by
  obtain ⟨hc, hl, hlist, hsize⟩ := h.listed
  have hlen : ∀ {p}, s.pc p = .inOp → s.log.lh.length = (logged s).card := fun hpc =>
    hlist.length_eq hl (hc.not_committing (by rw [hpc]; rfl))
  constructor
  · intro hs
    cases step_panics hs with
    | @tooBig p w hpc hbig =>
      refine ⟨p, w, rfl, hpc, ?_⟩
      rw [← hlen hpc]
      omega
  · rintro ⟨p, w, rfl, hpc, hbig⟩
    rw [← hlen hpc] at hbig
    have hcheck : s.log.checkSize = .error .tooBig := if_pos (Or.inr (by omega))
    simp only [step, hpc, hcheck]

/-- Nine blocks for each operation always fit. -/
theorem ReachableWithin.no_panic {m start : ℕ} (hm : m ≤ 9)
    (h : ReachableWithin m start logSize s) (a : GroupAct P) :
    step a s ≠ .error (.panic .tooBig) := by
  have hinv : Counted s ∧ Ledger s ∧ Room m s ∧ s.log.size = logSize := by
    refine Transition.Reachable.invariant
      (P := fun s => Counted s ∧ Ledger s ∧ Room m s ∧ s.log.size = logSize) ?_ ?_ h
    · rintro s rfl
      exact ⟨Counted.init start logSize, Ledger.init start logSize, Room.init m start logSize, rfl⟩
    · rintro a s s' ⟨hc, hl, hroom, hsize⟩ hwithin hs
      have he := step_effect hs
      exact ⟨hc.step he, hl.step hc he, hroom.step hm hc hl hwithin he, he.log_size.trans hsize⟩
  obtain ⟨hc, _, hroom, hsize⟩ := hinv
  intro hs
  cases step_panics hs with
  | @tooBig p w hpc hbig =>
    have := hroom.room (hc.not_committing (by rw [hpc]; rfl))
    have : 2 ≤ logSize := by decide
    omega

/-- Three operations begin, and log ten, ten and nine blocks. -/
def threeOps : List (GroupAct (Fin 3)) :=
  [.call 0, .beginOp 0, .call 1, .beginOp 1, .call 2, .beginOp 2] ++
    (List.range 29).flatMap fun i =>
      [.logWrite (Fin.ofNat 3 (i / 10)) (BitVec.ofNat 32 i), .check (Fin.ofNat 3 (i / 10)),
        .append (Fin.ofNat 3 (i / 10))]

set_option maxRecDepth 100000 in
/-- Each of them is within its reservation, and the thirtieth block is refused. -/
theorem threeOps_panics : ∃ s : Group (Fin 3), ReachableWithin maxOpBlocks logStart logSize s ∧
    Within maxOpBlocks (.logWrite 2 29) s ∧ step (.logWrite 2 29) s = .error (.panic .tooBig) := by
  obtain ⟨s, hreach, hwithin, hpc, hbig⟩ := Transition.reachable_any step
    (· = init logStart logSize) (Within maxOpBlocks) threeOps rfl
    (fun s => Within maxOpBlocks (.logWrite 2 29) s ∧ s.pc 2 = .inOp ∧
      (s.log.size : Int) - 1 ≤ s.log.lh.length) (by decide +kernel)
  have hcheck : s.log.checkSize = .error .tooBig := if_pos (Or.inr hbig)
  exact ⟨s, hreach, hwithin, by simp only [step, hpc, hcheck]⟩

omit [DecidableEq P] [Fintype P] in
theorem Within.mono {m m' : ℕ} (hm : m ≤ m') (a : GroupAct P) (s : Group P) (h : Within m a s) :
    Within m' a s := by
  cases a with
  | logWrite p w => exact Nat.le_trans h hm
  | call | beginOp | check | append | endOp | commit => trivial

/-- On a disk made by `mkfs`, in any interleaving: `log_write` panics exactly when it is called with
    `LOGSIZE - 1` different blocks logged since the last commit, and a bound of `m` different blocks
    for each operation rules the panic out exactly if `m` is at most nine. -/
theorem log_reservation (m : ℕ) :
    (∀ (P : Type) [DecidableEq P] [Fintype P] (s : Group P) (a : GroupAct P),
      Reachable logStart logSize s → (step a s = .error (.panic .tooBig) ↔
        ∃ p w, a = .logWrite p w ∧ s.pc p = .inOp ∧ logSize - 1 ≤ (logged s).card)) ∧
    ((∀ (P : Type) [DecidableEq P] [Fintype P] (s : Group P) (a : GroupAct P),
      ReachableWithin m logStart logSize s → Within m a s →
        step a s ≠ .error (.panic .tooBig)) ↔ m ≤ 9) := by
  refine ⟨fun P _ _ s a h => h.panics_iff a, fun h => ?_, fun hm P _ _ s a hs _ =>
    hs.no_panic hm a⟩
  by_contra hm
  have hmono : maxOpBlocks ≤ m := Nat.lt_of_not_le hm
  obtain ⟨s, hs, hwithin, hpanic⟩ := threeOps_panics
  exact h (Fin 3) s (.logWrite 2 29) (hs.mono fun a s => Within.mono hmono a s)
    (Within.mono hmono _ s hwithin) hpanic

/-- The bound that `begin_op` reserves is too large. -/
theorem log_reservation_overrun : ¬∀ (s : Group (Fin 3)) (a : GroupAct (Fin 3)),
    ReachableWithin maxOpBlocks logStart logSize s → Within maxOpBlocks a s →
      step a s ≠ .error (.panic .tooBig) := by
  intro h
  obtain ⟨s, hs, hwithin, hpanic⟩ := threeOps_panics
  exact h s (.logWrite 2 29) hs hwithin hpanic

end Group

end Xv6
