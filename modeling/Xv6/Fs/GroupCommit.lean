import Xv6.Fs.Group
import Mathlib.Data.Fintype.Card

set_option autoImplicit false

/-! # Group commit

`log.outstanding` counts the operations in progress, and `commit` runs only while there is none: the
operation that brings the count to zero sets `log.committing` in the same section, and `begin_op`
lets nobody in until it is reset. So the list of logged blocks is fixed while `commit` reads it, and
what is in it are the blocks of all operations since the commit before. -/

namespace Xv6

open Function

namespace Group

variable {P : Type} [DecidableEq P] [Fintype P] {s s' : Group P} {a : GroupAct P}

/-- The processes between the return of `begin_op` and their `end_op`. -/
def inProgress (s : Group P) : Finset P := Finset.univ.filter (fun p => (s.pc p).inProgress = true)

variable {p : P}

omit [DecidableEq P] in
@[simp] theorem mem_inProgress : p ∈ s.inProgress ↔ (s.pc p).inProgress = true := by
  simp [inProgress]

/-! ## Counting the operations -/

/-- `log.outstanding` and `log.committing` tell what the processes are doing. -/
structure Counted (s : Group P) : Prop where
  outstanding : s.log.outstanding = s.inProgress.card
  flag : s.log.committing = true ↔ ∃ p, (s.pc p).commits = true
  alone : ∀ p q, (s.pc p).commits = true → (s.pc q).commits = true → p = q
  quiet : ∀ p, (s.pc p).commits = true → s.inProgress = ∅

omit [DecidableEq P] in
theorem Counted.init (start size : ℕ) : Counted (init start size : Group P) where
  outstanding := by simp [Group.init, Log.init, inProgress, LogPc.inProgress]
  flag := by simp [Group.init, Log.init, LogPc.commits]
  alone p q h := by simp [Group.init, LogPc.commits] at h
  quiet p h := by simp [Group.init, LogPc.commits] at h

omit [DecidableEq P] in
/-- Nothing changes for the count while every process stays on its side of the brackets. -/
theorem Counted.congr (h : Counted s) (hout : s'.log.outstanding = s.log.outstanding)
    (hcomm : s'.log.committing = s.log.committing)
    (hin : ∀ p, (s'.pc p).inProgress = (s.pc p).inProgress)
    (hcom : ∀ p, (s'.pc p).commits = (s.pc p).commits) : Counted s' := by
  have hset : s'.inProgress = s.inProgress := by
    ext p
    rw [mem_inProgress, mem_inProgress, hin]
  refine ⟨?_, ?_, ?_, ?_⟩
  · rw [hout, hset, h.outstanding]
  · rw [hcomm, h.flag]
    simp only [hcom]
  · intro p q hp hq
    rw [hcom] at hp hq
    exact h.alone p q hp hq
  · intro p hp
    rw [hcom] at hp
    rw [hset]
    exact h.quiet p hp

variable {c : LogPc}

/-- A process that moves without crossing a bracket. -/
theorem Counted.moves (h : Counted s) (hpc : s'.pc = update s.pc p c)
    (hout : s'.log.outstanding = s.log.outstanding)
    (hcomm : s'.log.committing = s.log.committing) (hin : c.inProgress = (s.pc p).inProgress)
    (hcom : c.commits = (s.pc p).commits) : Counted s' := by
  refine h.congr hout hcomm (fun q => ?_) (fun q => ?_)
  · rw [hpc, update_apply]
    split_ifs with hq
    · rw [hin, hq]
    · rfl
  · rw [hpc, update_apply]
    split_ifs with hq
    · rw [hcom, hq]
    · rfl

theorem inProgress_update (hpc : s'.pc = update s.pc p c) :
    s'.inProgress = if c.inProgress then insert p s.inProgress else s.inProgress.erase p := by
  ext q
  rw [mem_inProgress, hpc, update_apply]
  by_cases hq : q = p <;> by_cases hc : c.inProgress = true <;> simp [hq, hc]

omit [DecidableEq P] in
/-- Nobody runs `commit` while the flag is down. -/
theorem Counted.not_commits (h : Counted s) (hcomm : s.log.committing = false) (p : P) :
    (s.pc p).commits = false := by
  by_contra hp
  have := h.flag.2 ⟨p, by simpa using hp⟩
  rw [hcomm] at this
  cases this

/-- A process that crosses a bracket while nobody commits. -/
theorem counted_of_crosses (hpc : s'.pc = update s.pc p c) (hc : c.commits = false)
    (hcomm : ∀ q, q ≠ p → (s.pc q).commits = false) (hcomm' : s'.log.committing = false)
    (hout : s'.log.outstanding = s'.inProgress.card) : Counted s' := by
  have hcom : ∀ q, ¬(s'.pc q).commits = true := by
    intro q
    rw [hpc, update_apply]
    split_ifs with hq
    · simp [hc]
    · simp [hcomm q hq]
  refine ⟨hout, ?_, fun q _ hq => absurd hq (hcom q), fun q hq => absurd hq (hcom q)⟩
  rw [hcomm']
  exact ⟨fun hf => absurd hf Bool.false_ne_true, fun ⟨q, hq⟩ => absurd hq (hcom q)⟩

theorem Counted.begins (h : Counted s) (hold : s.pc p = .beginOp)
    (hpc : s'.pc = update s.pc p .inOp) (hcomm : s.log.committing = false)
    (hcomm' : s'.log.committing = false) (hout : s'.log.outstanding = s.log.outstanding + 1) :
    Counted s' := by
  have hnew : p ∉ s.inProgress := by simp [hold, LogPc.inProgress]
  refine counted_of_crosses hpc rfl (fun q _ => h.not_commits hcomm q) hcomm' ?_
  rw [inProgress_update hpc, hout, h.outstanding]
  simp only [LogPc.inProgress, if_true, Finset.card_insert_of_notMem hnew]
  push_cast
  rfl

theorem Counted.ends (h : Counted s) (hold : s.pc p = .inOp)
    (hpc : s'.pc = update s.pc p .outside) (hcomm : s.log.committing = false)
    (hcomm' : s'.log.committing = false) (hout : s'.log.outstanding = s.log.outstanding - 1) :
    Counted s' := by
  have hmem : p ∈ s.inProgress := by simp [hold, LogPc.inProgress]
  have hpos := Finset.card_pos.2 ⟨p, hmem⟩
  refine counted_of_crosses hpc rfl (fun q _ => h.not_commits hcomm q) hcomm' ?_
  rw [inProgress_update hpc, hout, h.outstanding]
  simp only [LogPc.inProgress, Bool.false_eq_true, if_false, Finset.card_erase_of_mem hmem]
  omega

/-- The last operation hands over to `commit`. -/
theorem Counted.lastEnds (h : Counted s) (hold : s.pc p = .inOp)
    (hpc : s'.pc = update s.pc p (.commit .test)) (hcomm : s.log.committing = false)
    (hlast : s.log.outstanding = 1) (hcomm' : s'.log.committing = true)
    (hout : s'.log.outstanding = 0) : Counted s' := by
  have hmem : p ∈ s.inProgress := by simp [hold, LogPc.inProgress]
  have hempty : s'.inProgress = ∅ := by
    have hcard : s.inProgress.card = 1 := by
      have := h.outstanding
      omega
    obtain ⟨q, hq⟩ := Finset.card_eq_one.1 hcard
    rw [hq, Finset.mem_singleton] at hmem
    rw [inProgress_update hpc, hq, hmem]
    simp [LogPc.inProgress]
  have hcom : ∀ q, (s'.pc q).commits = true → q = p := by
    intro q hq
    by_contra hne
    rw [hpc, update_of_ne hne, h.not_commits hcomm q] at hq
    cases hq
  refine ⟨?_, ?_, fun q r hq hr => (hcom q hq).trans (hcom r hr).symm, fun q _ => hempty⟩
  · rw [hempty, hout]
    rfl
  · refine ⟨fun _ => ⟨p, ?_⟩, fun _ => hcomm'⟩
    rw [hpc, update_self]
    rfl

/-- `end_op` reports that `commit` is over. -/
theorem Counted.commitDone (h : Counted s) {c : CommitPc} (hold : s.pc p = .commit c)
    (hpc : s'.pc = update s.pc p .outside) (hcomm' : s'.log.committing = false)
    (hout : s'.log.outstanding = s.log.outstanding) : Counted s' := by
  have hp : (s.pc p).commits = true := by rw [hold]; rfl
  refine counted_of_crosses hpc rfl (fun q hq => ?_) hcomm' ?_
  · by_contra hc
    exact hq (h.alone q p (by simpa using hc) hp)
  · rw [inProgress_update hpc, hout, h.outstanding, h.quiet p hp]
    simp [LogPc.inProgress]

/-- What is known at each point of `commit` about the logged blocks and the `log_write`s that no
    header lists yet. -/
def Stage (lh : List Word) (written : List (ℕ × Word)) : CommitPc → Prop
  | .test => True
  | .writeLog copied => copied = lh.take copied.length
  | .writeHead copied => copied = lh
  | .installTrans _ | .clear => written = []
  | .eraseHead | .done => lh = []

omit [Fintype P] in
/-- Three steps of `commit` change more than the place of the process that runs it. -/
theorem commitStep_cases (p : P) (s : Group P) (c : CommitPc) :
    (∃ c', commitStep p s c = goto p (.commit c') s ∧
      (Stage s.log.lh s.written c → Stage s.log.lh s.written c')) ∨
    (∃ copied, c = .writeHead copied) ∨ c = .clear ∨ c = .done := by
  cases c with
  | test =>
    left
    simp only [commitStep]
    split_ifs with hn
    · exact ⟨_, rfl, fun _ => rfl⟩
    · exact ⟨_, rfl, fun _ => List.length_eq_zero_iff.1 (Nat.eq_zero_of_not_pos hn)⟩
  | writeLog copied =>
    left
    simp only [commitStep]
    split
    · next w hw =>
        refine ⟨_, rfl, fun (hstage : copied = _) => ?_⟩
        change copied ++ [w] = _
        rw [List.length_append, List.length_singleton, List.take_add_one, hw, ← hstage]
        rfl
    · next hw =>
        refine ⟨_, rfl, fun (hstage : copied = _) => ?_⟩
        change copied = _
        rw [hstage, List.take_of_length_le (List.getElem?_eq_none_iff.1 hw)]
  | installTrans tail =>
    left
    simp only [commitStep]
    split_ifs
    · exact ⟨_, rfl, id⟩
    · exact ⟨_, rfl, id⟩
  | eraseHead => exact Or.inl ⟨_, rfl, id⟩
  | writeHead copied => exact Or.inr (Or.inl ⟨copied, rfl⟩)
  | clear => exact Or.inr (Or.inr (Or.inl rfl))
  | done => exact Or.inr (Or.inr (Or.inr rfl))

theorem Counted.commitStep (h : Counted s) {c : CommitPc} (hold : s.pc p = .commit c) :
    Counted (commitStep p s c) := by
  have hmoves : ∀ {c' : CommitPc} {s' : Group P}, s'.pc = update s.pc p (.commit c') →
      s'.log.outstanding = s.log.outstanding → s'.log.committing = s.log.committing →
      Counted s' := by
    intro c' s' hpc hout hcomm
    exact h.moves hpc hout hcomm (by rw [hold]; rfl) (by rw [hold]; rfl)
  rcases commitStep_cases p s c with ⟨c', hstep, _⟩ | ⟨copied, rfl⟩ | rfl | rfl
  · rw [hstep]
    exact hmoves rfl rfl rfl
  · exact hmoves rfl rfl rfl
  · exact hmoves rfl rfl rfl
  · exact h.commitDone hold rfl rfl rfl

theorem mayBegin_committing {l : Log} (h : l.mayBegin = true) : l.committing = false := by
  simp only [Log.mayBegin, Bool.and_eq_true, Bool.not_eq_eq_eq_not, Bool.not_true] at h
  exact h.1

theorem Counted.step (h : Counted s) (hs : Effect s a s') : Counted s' := by
  cases hs with
  | call hpc => exact h.moves rfl rfl rfl (by rw [hpc]; rfl) (by rw [hpc]; rfl)
  | begins hpc hmay =>
    have hcomm := mayBegin_committing hmay
    exact h.begins hpc rfl hcomm hcomm rfl
  | waits => exact h
  | sizeOk hpc => exact h.moves rfl rfl rfl (by rw [hpc]; rfl) (by rw [hpc]; rfl)
  | checked hpc => exact h.moves rfl rfl rfl (by rw [hpc]; rfl) (by rw [hpc]; rfl)
  | appends hpc => exact h.moves rfl rfl rfl (by rw [hpc]; rfl) (by rw [hpc]; rfl)
  | lastEnds hpc hcomm hlast => exact h.lastEnds hpc rfl hcomm hlast rfl rfl
  | ends hpc hcomm => exact h.ends hpc rfl hcomm hcomm rfl
  | commits hpc => exact h.commitStep hpc

/-! ## The blocks of a group -/

/-- Which operations and which blocks the log and the commits have to do with. Operations before
    number `settled` are durable, and those in progress have later numbers. -/
structure Ledger (s : Group P) : Prop where
  settled_le : s.settled ≤ s.ops
  op_range : ∀ p, (s.pc p).inProgress = true → s.settled ≤ s.op p ∧ s.op p < s.ops
  written : ∀ x ∈ s.written, x.2 ∈ s.log.lh ∧ s.settled ≤ x.1 ∧ x.1 < s.ops
  durable : ∀ g ∈ s.durable, g.slots = g.head ∧ ∀ x ∈ g.writes, x.2 ∈ g.head ∧ x.1 < s.settled
  apart : s.durable.Pairwise (fun g g' => ∀ x ∈ g.writes, ∀ y ∈ g'.writes, x.1 ≠ y.1)
  idle : s.inProgress = ∅ → s.log.committing = false → s.log.lh = []
  stage : ∀ p c, s.pc p = .commit c → Stage s.log.lh s.written c

omit [DecidableEq P] in
theorem Ledger.init (start size : ℕ) : Ledger (init start size : Group P) where
  settled_le := Nat.le_refl _
  op_range p h := by simp [Group.init, LogPc.inProgress] at h
  written x h := by simp [Group.init] at h
  durable g h := by simp [Group.init] at h
  apart := List.Pairwise.nil
  idle _ _ := rfl
  stage p c h := by simp [Group.init] at h

/-- A process moves, and nothing but its place changes for the books. -/
theorem Ledger.moves (h : Ledger s) (hpc : s'.pc = update s.pc p c)
    (hbooks : s'.op = s.op ∧ s'.ops = s.ops ∧ s'.settled = s.settled ∧ s'.written = s.written ∧
      s'.durable = s.durable ∧ s'.log.lh = s.log.lh)
    (hin : c.inProgress = true → (s.pc p).inProgress = true)
    (hidle : s'.inProgress = ∅ → s'.log.committing = false → s.log.lh = [])
    (hstage : ∀ c', c = .commit c' → Stage s.log.lh s.written c') : Ledger s' := by
  obtain ⟨hop, hops, hsettled, hwritten, hdurable, hlh⟩ := hbooks
  refine ⟨?_, ?_, ?_, ?_, ?_, ?_, ?_⟩
  · rw [hsettled, hops]
    exact h.settled_le
  · intro q hq
    rw [hsettled, hop, hops]
    refine h.op_range q ?_
    rw [hpc, update_apply] at hq
    split_ifs at hq with hqp
    · rw [hqp]
      exact hin hq
    · exact hq
  · rw [hwritten, hlh, hsettled, hops]
    exact h.written
  · rw [hdurable, hsettled]
    exact h.durable
  · rw [hdurable]
    exact h.apart
  · rw [hlh]
    exact hidle
  · intro q c' hq
    rw [hlh, hwritten]
    rw [hpc, update_apply] at hq
    split_ifs at hq with hqp
    · exact hstage c' hq
    · exact h.stage q c' hq

omit [DecidableEq P] in
theorem inProgress_ne_empty (h : (s.pc p).inProgress = true) : s.inProgress ≠ ∅ :=
  Finset.ne_empty_of_mem (mem_inProgress.2 h)

section

variable (h : Ledger s)

include h

theorem Ledger.begins (hc : Counted s) (hmay : s.log.mayBegin = true) :
    Ledger (goto p .inOp { s with
      log := s.log.beginOp, op := update s.op p s.ops, ops := s.ops + 1 }) where
  settled_le := Nat.le_succ_of_le h.settled_le
  op_range q hq := by
    have hsettled := h.settled_le
    rw [goto_pc] at hq
    change s.settled ≤ update s.op p s.ops q ∧ update s.op p s.ops q < s.ops + 1
    rw [update_apply]
    split_ifs at hq ⊢ with hqp
    · omega
    · have := h.op_range q hq
      omega
  written x hx := by
    obtain ⟨hlh, hge, hlt⟩ := h.written x hx
    exact ⟨hlh, hge, Nat.lt_succ_of_lt hlt⟩
  durable := h.durable
  apart := h.apart
  idle hempty := absurd hempty (inProgress_ne_empty (p := p) (by rw [goto_pc_self]; rfl))
  stage q c hq := by
    rw [goto_pc] at hq
    split_ifs at hq with hqp
    have := hc.not_commits (mayBegin_committing hmay) q
    rw [show s.pc q = .commit c from hq] at this
    cases this

/-- A `log_write` adds its block to the log and its operation to the books. -/
theorem Ledger.appends (hc : Counted s) {w : Word} (hold : s.pc p = .checked w) :
    Ledger (goto p .inOp { s with
      log := s.log.append w, written := s.written ++ [(s.op p, w)] }) := by
  have hp : (s.pc p).inProgress = true := by rw [hold]; rfl
  refine ⟨h.settled_le, ?_, ?_, h.durable, h.apart, ?_, ?_⟩
  · intro q hq
    rw [goto_pc] at hq
    split_ifs at hq with hqp
    · rw [hqp]
      exact h.op_range p hp
    · exact h.op_range q hq
  · intro x hx
    rcases List.mem_append.1 hx with hx | hx
    · obtain ⟨hlh, hrange⟩ := h.written x hx
      exact ⟨Log.mem_absorb.2 (Or.inr hlh), hrange⟩
    · rw [List.mem_singleton.1 hx]
      exact ⟨Log.mem_absorb.2 (Or.inl rfl), h.op_range p hp⟩
  · intro hempty
    exact absurd hempty (inProgress_ne_empty (p := p) (by rw [goto_pc_self]; rfl))
  · intro q c hq
    rw [goto_pc] at hq
    split_ifs at hq with hqp
    -- nobody commits while `p` is in its operation
    have hq' : (s.pc q).commits = true := by
      rw [show s.pc q = .commit c from hq]
      rfl
    exact absurd (hc.quiet q hq') (inProgress_ne_empty hp)

/-- A new place in `commit` for the process that runs it, on the same log and books. -/
theorem Ledger.commitMoves {c c' : CommitPc} (hold : s.pc p = .commit c)
    (hc : Counted s) (hstage : Stage s.log.lh s.written c') :
    Ledger (goto p (.commit c') s) := by
  refine h.moves rfl ⟨rfl, rfl, rfl, rfl, rfl, rfl⟩ (fun hin => by cases hin) ?_ ?_
  · intro _ hcomm
    have := hc.flag.2 ⟨p, by rw [hold]; rfl⟩
    rw [show s.log.committing = false from hcomm] at this
    cases this
  · rintro _ ⟨⟩
    exact hstage

/-- The header makes the group durable. -/
theorem Ledger.writeHead (hc : Counted s) {copied : List Word}
    (hold : s.pc p = .commit (.writeHead copied)) :
    Ledger (Group.commitStep p s (.writeHead copied)) := by
  have hcopied : copied = s.log.lh := h.stage p _ hold
  have hp : (s.pc p).commits = true := by rw [hold]; rfl
  have hquiet := hc.quiet p hp
  have halone : ∀ q, (s.pc q).commits = true → q = p := fun q hq => hc.alone q p hq hp
  refine ⟨Nat.le_refl _, ?_, by simp [Group.commitStep, goto], ?_, ?_, ?_, ?_⟩
  · intro q hq
    simp only [Group.commitStep, goto_pc] at hq
    split_ifs at hq with hqp
    · cases hq
    · exact absurd hquiet (inProgress_ne_empty hq)
  · intro g hg
    rcases List.mem_append.1 hg with hg | hg
    · obtain ⟨hslots, hwrites⟩ := h.durable g hg
      exact ⟨hslots, fun x hx =>
        ⟨(hwrites x hx).1, Nat.lt_of_lt_of_le (hwrites x hx).2 h.settled_le⟩⟩
    · rw [List.mem_singleton.1 hg]
      exact ⟨hcopied, fun x hx => ⟨(h.written x hx).1, (h.written x hx).2.2⟩⟩
  · refine List.pairwise_append.2 ⟨h.apart, List.pairwise_singleton _ _, ?_⟩
    intro g hg g' hg' x hx y hy
    rw [List.mem_singleton.1 hg'] at hy
    have := ((h.durable g hg).2 x hx).2
    have := (h.written y hy).2.1
    omega
  · intro _ hcomm
    have := hc.flag.2 ⟨p, hp⟩
    rw [show s.log.committing = false from hcomm] at this
    cases this
  · intro q c hq
    simp only [Group.commitStep, goto_pc] at hq
    split_ifs at hq with hqp
    · cases hq
      exact rfl
    · exact absurd (halone q (by rw [hq]; rfl)) hqp

/-- With everything home the log is emptied. -/
theorem Ledger.clear (hc : Counted s) (hold : s.pc p = .commit .clear) :
    Ledger (Group.commitStep p s .clear) := by
  have hwritten : s.written = [] := h.stage p _ hold
  have hp : (s.pc p).commits = true := by rw [hold]; rfl
  refine ⟨h.settled_le, ?_, ?_, h.durable, h.apart, fun _ _ => rfl, ?_⟩
  · intro q hq
    simp only [Group.commitStep, goto_pc] at hq
    split_ifs at hq with hqp
    · cases hq
    · exact h.op_range q hq
  · intro x hx
    rw [show (Group.commitStep p s .clear).written = [] from hwritten] at hx
    cases hx
  · intro q c hq
    simp only [Group.commitStep, goto_pc] at hq
    split_ifs at hq with hqp
    · cases hq
      exact rfl
    · exact absurd (hc.alone q p (by rw [hq]; rfl) hp) hqp

theorem Ledger.commitStep (hc : Counted s) {c : CommitPc}
    (hold : s.pc p = .commit c) : Ledger (commitStep p s c) := by
  have hstage := h.stage p c hold
  rcases commitStep_cases p s c with ⟨c', hstep, hkeeps⟩ | ⟨copied, rfl⟩ | rfl | rfl
  · rw [hstep]
    exact h.commitMoves hold hc (hkeeps hstage)
  · exact h.writeHead hc hold
  · exact h.clear hc hold
  · exact h.moves rfl ⟨rfl, rfl, rfl, rfl, rfl, rfl⟩
      (fun hin => by cases hin) (fun _ _ => hstage) (fun c' hc' => by cases hc')

theorem Ledger.step (hc : Counted s) (hs : Effect s a s') : Ledger s' := by
  cases hs with
  | @call p hpc =>
    refine h.moves rfl ⟨rfl, rfl, rfl, rfl, rfl, rfl⟩ (fun hin => by cases hin) ?_
      (fun c' hc' => by cases hc')
    intro hempty hcomm
    refine h.idle ?_ hcomm
    rw [inProgress_update (s := s) rfl] at hempty
    rwa [if_neg (by simp [LogPc.inProgress]), Finset.erase_eq_of_notMem] at hempty
    simp [hpc, LogPc.inProgress]
  | begins hpc hmay => exact h.begins hc hmay
  | waits => exact h
  | @sizeOk p w hpc =>
    refine h.moves rfl ⟨rfl, rfl, rfl, rfl, rfl, rfl⟩ (fun _ => by rw [hpc]; rfl) ?_
      (fun c' hc' => by cases hc')
    intro hempty
    exact absurd hempty (inProgress_ne_empty (p := p) (by rw [goto_pc_self]; rfl))
  | @checked p w hpc =>
    refine h.moves rfl ⟨rfl, rfl, rfl, rfl, rfl, rfl⟩ (fun _ => by rw [hpc]; rfl) ?_
      (fun c' hc' => by cases hc')
    intro hempty
    exact absurd hempty (inProgress_ne_empty (p := p) (by rw [goto_pc_self]; rfl))
  | appends hpc => exact h.appends hc hpc
  | @lastEnds p hpc hcomm hlast =>
    refine h.moves rfl ⟨rfl, rfl, rfl, rfl, rfl, rfl⟩ (fun _ => by rw [hpc]; rfl) ?_ ?_
    · intro _ hcomm'
      cases hcomm'
    · rintro _ ⟨⟩
      trivial
  | @ends p hpc hcomm hmore =>
    refine h.moves rfl ⟨rfl, rfl, rfl, rfl, rfl, rfl⟩ (fun _ => by rw [hpc]; rfl) ?_
      (fun c' hc' => by cases hc')
    -- another operation is still in progress
    intro hempty
    exfalso
    have hmem : p ∈ s.inProgress := by simp [hpc, LogPc.inProgress]
    rw [inProgress_update (s := s) rfl, if_neg (by simp [LogPc.inProgress])] at hempty
    have hcard := Finset.card_erase_of_mem hmem
    rw [hempty, Finset.card_empty] at hcard
    have hpos := Finset.card_pos.2 ⟨p, hmem⟩
    have := hc.outstanding
    omega
  | commits hpc => exact h.commitStep hc hpc

end

/-! ## Every interleaving -/

/-- The states that the processes reach, in any order of their actions. -/
def Reachable (start size : ℕ) : Group P → Prop :=
  Transition.Reachable step (fun s => s = init start size) (fun _ _ => True)

theorem Reachable.inv {start size : ℕ} (h : Reachable start size s) : Counted s ∧ Ledger s := by
  refine Transition.Reachable.invariant (P := fun s => Counted s ∧ Ledger s) ?_ ?_ h
  · rintro s rfl
    exact ⟨Counted.init start size, Ledger.init start size⟩
  · rintro a s s' ⟨hc, hl⟩ _ hs
    exact ⟨hc.step (step_effect hs), hl.step hc (step_effect hs)⟩

/-- Each operation is made durable as a whole, by one call of `commit`. -/
structure OneCommit (s : Group P) : Prop where
  /-- A commit copies the blocks that its header lists, and lists the blocks of all the `log_write`s
      since the commit before. -/
  covers : ∀ g ∈ s.durable, g.slots = g.head ∧ ∀ x ∈ g.writes, x.2 ∈ g.head
  /-- Two commits have no operation in common. -/
  once : s.durable.Pairwise (fun g g' => ∀ x ∈ g.writes, ∀ y ∈ g'.writes, x.1 ≠ y.1)
  /-- An operation that is durable is over, with no `log_write` left to commit. -/
  ended : ∀ g ∈ s.durable, ∀ x ∈ g.writes,
    (∀ y ∈ s.written, y.1 ≠ x.1) ∧ ∀ p ∈ s.inProgress, s.op p ≠ x.1
  /-- With no operation in progress and no commit running, everything is durable. -/
  all : s.inProgress = ∅ → s.log.committing = false → s.written = []

omit [DecidableEq P] in
theorem Ledger.oneCommit (h : Ledger s) : OneCommit s where
  covers g hg := ⟨(h.durable g hg).1, fun x hx => ((h.durable g hg).2 x hx).1⟩
  once := h.apart
  ended g hg x hx := by
    have hx' := ((h.durable g hg).2 x hx).2
    refine ⟨fun y hy => ?_, fun p hp => ?_⟩
    · have := (h.written y hy).2.1
      omega
    · have := (h.op_range p (mem_inProgress.1 hp)).1
      omega
  all hempty hcomm := by
    refine List.eq_nil_iff_forall_not_mem.2 (fun x hx => ?_)
    have := (h.written x hx).1
    rw [h.idle hempty hcomm] at this
    cases this

omit [DecidableEq P] in
theorem Counted.not_inProgress (h : Counted s) (hcomm : s.log.committing = true) (p : P) :
    ¬(s.pc p).inProgress = true := by
  obtain ⟨q, hq⟩ := h.flag.1 hcomm
  intro hp
  exact inProgress_ne_empty hp (h.quiet q hq)

theorem Counted.disabled (h : Counted s) (hcomm : s.log.committing = true) (p : P) (w : Word) :
    Group.step (.logWrite p w) s = .error .disabled ∧
      Group.step (.check p) s = .error .disabled ∧
      Group.step (.append p) s = .error .disabled := by
  have hnot := h.not_inProgress hcomm p
  cases hpc : s.pc p with
  | outside => simp [Group.step, hpc]
  | beginOp => simp [Group.step, hpc]
  | commit c => simp [Group.step, hpc]
  | inOp => simp [hpc, LogPc.inProgress] at hnot
  | sizeOk => simp [hpc, LogPc.inProgress] at hnot
  | checked => simp [hpc, LogPc.inProgress] at hnot

theorem Counted.no_panic (h : Counted s) (a : GroupAct P) :
    Group.step a s ≠ .error (.panic .committing) ∧
      Group.step a s ≠ .error (.panic .outside) := by
  refine ⟨fun hs => ?_, fun hs => ?_⟩
  · cases step_panics hs with
    | @committing p hpc hcomm => exact h.not_inProgress hcomm p (by rw [hpc]; rfl)
  · cases step_panics hs with
    | @outside p w hpc hout =>
      have hpos := Finset.card_pos.2 ⟨p, mem_inProgress.2 (by rw [hpc]; rfl : _ = true)⟩
      have := h.outstanding
      omega

/-- The group commit protocol, for any number of processes and any interleaving: while `commit` runs
    no operation is in progress, `log.outstanding` counts the operations in progress, each operation
    is made durable by one `commit`, no `log_write` happens while `log.committing` is set, and the
    panics about misplaced calls cannot be reached. -/
theorem group_commit {start size : ℕ} (h : Reachable start size s) :
    (∀ p q, (s.pc p).commits = true → (s.pc q).inProgress = false) ∧
      s.log.outstanding = s.inProgress.card ∧ OneCommit s ∧
      (s.log.committing = true → ∀ p w, step (.logWrite p w) s = .error .disabled ∧
        step (.check p) s = .error .disabled ∧ step (.append p) s = .error .disabled) ∧
      ∀ a, step a s ≠ .error (.panic .committing) ∧ step a s ≠ .error (.panic .outside) := by
  obtain ⟨hc, hl⟩ := h.inv
  refine ⟨fun p q hp => ?_, hc.outstanding, hl.oneCommit, hc.disabled, hc.no_panic⟩
  exact Bool.eq_false_of_not_eq_true (hc.not_inProgress (hc.flag.2 ⟨p, hp⟩) q)

/-- Two operations, the second begun before the first has ended, and their commit up to the
    header. -/
def twoOps : List (GroupAct (Fin 2)) :=
  [.call 0, .beginOp 0, .logWrite 0 7, .check 0, .append 0, .call 1, .beginOp 1, .endOp 0,
    .logWrite 1 9, .check 1, .append 1, .endOp 1, .commit 1, .commit 1, .commit 1, .commit 1,
    .commit 1]

set_option maxRecDepth 100000 in
theorem group_commit_twoOps : ∃ s : Group (Fin 2), Reachable 2 30 s ∧
    s.durable = [⟨[7, 9], [7, 9], [(0, 7), (1, 9)]⟩] ∧ OneCommit s := by
  obtain ⟨s, hreach, hdurable⟩ := Transition.reachable_any step (· = init 2 30)
    (fun _ _ => True) twoOps rfl
    (fun s => s.durable = [⟨[7, 9], [7, 9], [(0, 7), (1, 9)]⟩]) (by decide +kernel)
  exact ⟨s, hreach, hdurable, (group_commit hreach).2.2.1⟩

end Group

end Xv6
