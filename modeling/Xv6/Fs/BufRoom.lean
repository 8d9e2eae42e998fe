import Xv6.Fs.BufPinned
import Xv6.Lib.Tally

set_option autoImplicit false

/-! # When the buffers run out

A buffer cannot be recycled while it is busy or dirty. It is busy for as long as a process holds it,
waiting for the disk included, and there are more processes than buffers, so readers alone can take
all of them. Of the others a dirty one is for a block in `log.lh`: `install_trans` has written every
block of the transaction before `log.lh.n` is set to 0. So `bget` finds a buffer as long as the
blocks in the log and the busy buffers are together fewer than `NBUF`. -/

namespace Xv6

open Transition Function

/-! ## The log -/

/-- The buffer that `log_write` is called with. -/
def OpPc.logs : OpPc → Option (Fin nbuf)
  | .sizeOk b | .checked b => some b
  | .outside | .inOp | .commit _ => none

/-- What a process counts for in `log.outstanding`. -/
def OpPc.load (c : OpPc) : ℕ := if c.inProgress then 1 else 0

/-- The logged blocks that have not been given to the disk yet. -/
def BufCommitPc.pending (lh : List Word) : BufCommitPc → List Word
  | .copy true tail (.relseSrc ..) | .copy true tail (.relseDst ..) => lh.drop (tail + 1)
  | .copy true tail .readLog | .copy true tail (.readHome _) | .copy true tail (.move ..)
  | .copy true tail (.write ..) => lh.drop tail
  | .clear => []
  | .test | .copy false .. | .head .. | .done => lh

namespace BufLog

variable {P : Type}

/-- In the body of a loop of `commit`, the second buffer is for the block that is copied. -/
def At (s : BufLog P) (p : P) : BufCommitPc → Prop
  | .copy _ tail (.readHome _) => ∀ w, s.log.lh[tail]? = some w → s.bio.Asks p (rootDev, w)
  | .copy _ tail (.move _ h) | .copy _ tail (.write _ h) =>
    s.bio.holds p h = true ∧ ∀ w, s.log.lh[tail]? = some w → (s.bio.buf h).key = (rootDev, w)
  | _ => True

/-- What a process in `commit` must not do with the buffer cache. -/
def Fits (lh : List Word) (a : BioAct P) (p : P) : BufCommitPc → Prop
  | .copy _ tail (.readHome _) =>
    ∀ dev blockno w, a = .bread p dev blockno → lh[tail]? = some w → (dev, blockno) = (rootDev, w)
  | .copy _ _ (.move ..) | .copy _ _ (.write ..) => ∀ b, a ≠ .brelse p b
  | _ => True

structure Inv [Fintype P] (s : BufLog P) : Prop where
  sound : s.bio.Sound
  counted : s.log.outstanding = ((∑ p, (s.op p).load : ℕ) : Int)
  committing : ∀ p c, s.op p = .commit c → s.log.committing = true ∧ s.log.outstanding = 0
  alone : ∀ p q c d, s.op p = .commit c → s.op q = .commit d → p = q
  pinned : s.bio.Pinned s.log.lh
  pending : ∀ p c, s.op p = .commit c → s.bio.Pinned (c.pending s.log.lh)
  place : ∀ p c, s.op p = .commit c → s.At p c
  logs : ∀ p b, (s.op p).logs = some b → s.bio.holds p b = true ∧ (s.bio.buf b).dev = rootDev

section

variable [Fintype P] {s : BufLog P} {p q : P} {c : BufCommitPc}

/-- Nobody logs a block during a commit. -/
theorem Inv.load_eq_zero (h : Inv s) (hp : s.op p = .commit c) (q : P) :
    (s.op q).load = 0 := by
  have hcount := h.counted
  rw [(h.committing p c hp).2] at hcount
  have hle : (s.op q).load ≤ ∑ r, (s.op r).load :=
    Finset.single_le_sum (f := fun r => (s.op r).load) (fun _ _ => Nat.zero_le _)
      (Finset.mem_univ q)
  omega

/-- Nobody commits while an operation is in progress. -/
theorem Inv.not_commit (h : Inv s) (hp : (s.op p).load = 1) (q : P) (d : BufCommitPc) :
    s.op q ≠ .commit d := by
  intro hq
  rw [h.load_eq_zero hq p] at hp
  cases hp

theorem Inv.init (start size : ℕ) (havedisk1 : Bool) (disk : Word × Word → Block) :
    Inv (init start size havedisk1 disk : BufLog P) := by
  refine ⟨BioSys.Sound.init havedisk1 disk, ?_, fun p c hp => ?_, fun p q c d hp => ?_,
    fun b hb => ?_, fun p c hp => ?_, fun p c hp => ?_, fun p b hb => ?_⟩
  · simp [BufLog.init, Log.init, OpPc.load, OpPc.inProgress]
  · cases hp
  · cases hp
  · cases hb
  · cases hp
  · cases hp
  · cases hb

variable [DecidableEq P]

/-- The tally of operations in progress when one process moves. -/
theorem Inv.counted_goto (h : Inv s) (p : P) (c : OpPc) :
    ((∑ q, ((s.goto p c).op q).load : ℕ) : Int) + (s.op p).load = s.log.outstanding + c.load := by
  have hsum : ∑ q, ((s.goto p c).op q).load + (s.op p).load = ∑ q, (s.op q).load + c.load :=
    Tally.sum_update Finset.univ (fun _ x => OpPc.load x) s.op (Finset.mem_univ p) c
  have hcount := h.counted
  omega

omit [Fintype P] in
theorem goto_op (s : BufLog P) (p q : P) (c : OpPc) :
    (s.goto p c).op q = if q = p then c else s.op q :=
  update_apply ..

/-- The committing process goes on. -/
theorem Inv.goto_commit (h : Inv s) (hp : s.op p = .commit c) (c' : BufCommitPc)
    (hpending : s.bio.Pinned (c'.pending s.log.lh)) (hat : s.At p c') :
    Inv (s.goto p (.commit c')) := by
  have hop : ∀ q d, (s.goto p (.commit c')).op q = .commit d → q = p ∧ d = c' := by
    intro q d hq
    rw [goto_op] at hq
    split at hq
    · next hqp =>
      cases hq
      exact ⟨hqp, rfl⟩
    · next hqp => exact absurd (h.alone q p d c hq hp) hqp
  refine ⟨h.sound, ?_, fun q d hq => h.committing p c hp, fun q r d e hq hr => ?_, h.pinned,
    fun q d hq => ?_, fun q d hq => ?_, fun q b hq => ?_⟩
  · have hcount := h.counted_goto p (.commit c')
    rw [hp] at hcount
    have hload : ∀ d, (OpPc.commit d).load = 0 := fun _ => rfl
    rw [hload, hload] at hcount
    show s.log.outstanding = _
    omega
  · rw [(hop q d hq).1, (hop r e hr).1]
  · rw [(hop q d hq).2]
    exact hpending
  · obtain ⟨rfl, rfl⟩ := hop q d hq
    exact hat
  · rw [goto_op] at hq
    split at hq
    · cases hq
    · exact h.logs q b hq

/-- A process moves to where it is in no commit. -/
theorem Inv.goto_other (h : Inv s) (c : OpPc) (l : Log) (blocks : P → List Word)
    (hc : ∀ d, c ≠ .commit d)
    (hlh : l.lh = s.log.lh) (hout : l.outstanding + (s.op p).load = s.log.outstanding + c.load)
    (hcomm : ∀ q d, q ≠ p → s.op q = .commit d → l.committing = true ∧ l.outstanding = 0)
    (hlogs : ∀ b, c.logs = some b → s.bio.holds p b = true ∧ (s.bio.buf b).dev = rootDev) :
    Inv ({ s with log := l, blocks := blocks }.goto p c) := by
  have hop' : ∀ q d, ({ s with log := l, blocks := blocks }.goto p c).op q = .commit d →
      q ≠ p ∧ s.op q = .commit d := by
    intro q d hq
    rw [goto_op] at hq
    split at hq
    · exact absurd hq (hc d)
    · next hqp => exact ⟨hqp, hq⟩
  have hop := fun q d hq => (hop' q d hq).2
  refine ⟨h.sound, ?_, fun q d hq => hcomm q d (hop' q d hq).1 (hop q d hq),
    fun q r d e hq hr => ?_, ?_, fun q d hq => ?_, fun q d hq => ?_, fun q b hq => ?_⟩
  · have hcount := h.counted_goto p c
    show l.outstanding = ((∑ q, ((s.goto p c).op q).load : ℕ) : Int)
    omega
  · exact h.alone q r d e (hop q d hq) (hop r e hr)
  · show s.bio.Pinned l.lh
    rw [hlh]
    exact h.pinned
  · show s.bio.Pinned (d.pending l.lh)
    rw [hlh]
    exact h.pending q d (hop q d hq)
  · have hat := h.place q d (hop q d hq)
    cases d with
    | test | head | clear | done => trivial
    | copy home tail c =>
      cases c with
      | readLog | relseSrc | relseDst => trivial
      | readHome | move | write =>
        simp only [At, goto, hlh] at hat ⊢
        exact hat
  · rw [goto_op] at hq
    split at hq
    · next hqp => exact hqp ▸ hlogs b hq
    · exact h.logs q b hq

variable {a : BioAct P} {bio : BioSys P}

omit [Fintype P] in
theorem At.step (h : s.At p c) (hsound : s.bio.Sound)
    (he : BioSys.Effect s.bio a bio) (hfits : Fits s.log.lh a p c) :
    { s with bio := bio }.At p c := by
  cases c with
  | test | head | clear | done => trivial
  | copy home tail c =>
    cases c with
    | readLog | relseSrc | relseDst => trivial
    | readHome l =>
      intro w hw
      exact (h w hw).step hsound he fun dev blockno ha => hfits dev blockno w ha hw
    | move l b | write l b =>
      obtain ⟨hholds, hkey⟩ := h
      refine ⟨he.holds hholds (hfits b), fun w hw => ?_⟩
      exact (he.key_of_busy ((hsound.busy b).2 ⟨p, hholds⟩)).trans (hkey w hw)

/-- An action of the buffer cache other than `log_write`. -/
theorem Inv.setBio (h : Inv s) (hs : BioSys.step a s.bio = .ok bio)
    (ha : ∀ p b, a ≠ .logWrite p b) (hfits : ∀ p c, s.op p = .commit c → Fits s.log.lh a p c)
    (hrelse : ∀ p b, (s.op p).logs = some b → a ≠ .brelse p b) : Inv { s with bio := bio } := by
  have he := BioSys.of_step hs
  refine ⟨h.sound.step hs, h.counted, h.committing, h.alone, h.pinned.keep h.sound he ha,
    fun p c hp => (h.pending p c hp).keep h.sound he ha,
    fun p c hp => (h.place p c hp).step h.sound he (hfits p c hp), fun p b hb => ?_⟩
  obtain ⟨hholds, hdev⟩ := h.logs p b hb
  refine ⟨he.holds hholds (hrelse p b hb), ?_⟩
  have hkey := he.key_of_busy ((h.sound.busy b).2 ⟨p, hholds⟩)
  exact (congrArg Prod.fst hkey : (bio.buf b).dev = (s.bio.buf b).dev).trans hdev

omit [Fintype P] [DecidableEq P] in
theorem Fits.of_mayCall (h : s.mayCall a = true) (hp : s.op p = .commit c) :
    Fits s.log.lh a p c := by
  cases c with
  | test | head | clear | done => trivial
  | copy home tail c =>
    cases c with
    | readLog | relseSrc | relseDst => trivial
    | readHome l =>
      rintro dev blockno w rfl -
      simp [mayCall, hp] at h
    | move | write =>
      rintro b rfl
      simp [mayCall, hp] at h

variable {b : Fin nbuf}

omit [Fintype P] in
theorem of_returned (h : bio.returned p = some b) :
    (bio.pc p = .got b ∨ bio.pc p = .read b) ∧
    BioSys.step (.run p) bio = .ok (bio.goto p .idle) := by
  rw [BioSys.returned] at h
  rw [BioSys.step, BioSys.run]
  split at h
  · next hpc =>
    split_ifs at h with hvalid
    cases h
    rw [hpc]
    exact ⟨.inl rfl, if_pos hvalid⟩
  · next hpc =>
    split_ifs at h with hdone
    cases h
    rw [hpc]
    exact ⟨.inr rfl, if_pos hdone⟩
  · cases h
  · cases h
  · cases h

/-- `commit` goes on with a buffer that `bread` has returned. -/
theorem Inv.feed (h : Inv s) (hret : s.bio.returned p = some b)
    (hbio : Inv { s with bio := s.bio.goto p .idle }) :
    Inv ({ s with bio := s.bio.goto p .idle }.goto p ((s.op p).feed b)) := by
  have hsame : (s.op p).feed b = s.op p →
      Inv ({ s with bio := s.bio.goto p .idle }.goto p ((s.op p).feed b)) := by
    intro hfeed
    rw [hfeed, goto, update_eq_self]
    exact hbio
  cases hop : s.op p with
  | outside | inOp | sizeOk | checked => exact hop ▸ hsame (by rw [hop]; rfl)
  | commit c =>
    have hpending := hbio.pending p c hop
    cases c with
    | test | clear | done => exact hop ▸ hsame (by rw [hop]; rfl)
    | head erase c =>
      cases c with
      | read => exact hbio.goto_commit hop _ hpending trivial
      | fill | write | relse => exact hop ▸ hsame (by rw [hop]; rfl)
    | copy home tail c =>
      cases c with
      | move | write | relseSrc | relseDst => exact hop ▸ hsame (by rw [hop]; rfl)
      | readLog =>
        refine hbio.goto_commit hop (.copy home tail (.readHome b)) ?_ fun w _ => ?_
        · cases home <;> exact hpending
        · have hidle : (s.bio.goto p .idle).pc p = .idle := update_self ..
          rw [BioSys.Asks, hidle]
          trivial
      | readHome l =>
        obtain ⟨hpc, -⟩ := of_returned hret
        have hon : (s.bio.pc p).on b ≠ none := by
          obtain hpc | hpc := hpc <;> simp [hpc, BioPc.on]
        refine hbio.goto_commit hop (.copy home tail (.move l b)) ?_ ⟨h.sound.place b p hon,
          fun w hw => ?_⟩
        · cases home <;> exact hpending
        · have hasks := h.place p _ hop w hw
          rw [BioSys.Asks] at hasks
          obtain hpc | hpc := hpc
          · rw [hpc] at hasks
            exact hasks
          · rw [hpc] at hasks
            exact hasks

variable {s' : BufLog P}

theorem Inv.bioStep (h : Inv s) (hs : s.bioStep a = .ok s') : Inv s' := by
  rw [BufLog.bioStep] at hs
  split_ifs at hs with hmay
  split at hs
  · cases hs
  · next bio hbio =>
    have hset : Inv { s with bio := bio } :=
      h.setBio hbio (by rintro p b rfl; simp [mayCall] at hmay)
        (fun q c hq => Fits.of_mayCall hmay hq)
        (by rintro p b hb rfl; obtain ho | ho := of_decide_eq_true hmay <;> simp [ho, OpPc.logs] at hb)
    split at hs
    · next p =>
      split at hs
      · next b hret =>
        cases hs
        have hgoto := (of_returned hret).2
        cases hbio.symm.trans hgoto
        exact h.feed hret hset
      · cases hs
        exact hset
    · cases hs
      exact hset

omit [Fintype P] in
theorem of_call {c : OpPc} (hs : s.call a p c = .ok s') :
    ∃ bio, BioSys.step a s.bio = .ok bio ∧ s' = { s with bio := bio }.goto p c := by
  rw [call] at hs
  split at hs
  · next bio hbio =>
    cases hs
    exact ⟨bio, hbio, rfl⟩
  · cases hs

section

variable (h : Inv s)

include h

/-- The committing process calls the buffer cache. -/
theorem Inv.call {c' : BufCommitPc} (hp : s.op p = .commit c)
    (hs : s.call a p (.commit c') = .ok s') (ha : ∀ q b, a ≠ .logWrite q b)
    (hrelse : ∀ q b, a = .brelse q b → q = p) (hfits : Fits s.log.lh a p c)
    (hpending : ∀ bio, BioSys.Effect s.bio a bio → bio.Pinned (c.pending s.log.lh) →
      bio.Pinned (c'.pending s.log.lh))
    (hat : ∀ bio, { s with bio := bio }.At p c → { s with bio := bio }.At p c') : Inv s' := by
  obtain ⟨bio, hbio, rfl⟩ := of_call hs
  have hset : Inv { s with bio := bio } := by
    refine h.setBio hbio ha (fun q d hq => ?_) fun q b hb hab => ?_
    · obtain rfl := h.alone q p d c hq hp
      cases hq.symm.trans hp
      exact hfits
    · rw [hrelse q b hab, hp] at hb
      cases hb
  exact hset.goto_commit hp c' (hpending bio (BioSys.of_step hbio) (hset.pending p c hp))
    (hat bio (hset.place p c hp))

theorem Inv.copyStep {home : Bool} {tail : ℕ} {c : CopyPc}
    (hp : s.op p = .commit (.copy home tail c)) (hs : s.copyStep p home tail c = .ok s') :
    Inv s' := by
  cases c with
  | readLog =>
    rw [BufLog.copyStep] at hs
    split at hs
    · exact h.call hp hs (by simp) (by simp) trivial (fun _ _ => id) (fun _ => id)
    · next hnone =>
      cases hs
      have hpending := h.pending p _ hp
      cases home with
      | false => exact h.goto_commit hp _ hpending trivial
      | true =>
        -- the loop of `install_trans` is over: every block has been written
        have hdrop : s.log.lh.drop tail = [] :=
          List.drop_eq_nil_of_le (List.getElem?_eq_none_iff.1 hnone)
        rw [BufCommitPc.pending, hdrop] at hpending
        exact h.goto_commit hp .clear hpending trivial
  | readHome l =>
    rw [BufLog.copyStep] at hs
    split at hs
    · next w hw =>
      refine h.call hp hs (by simp) (by simp) ?_ (fun _ _ => id) (fun _ => id)
      intro dev blockno w' ha hw'
      cases ha
      cases hw.symm.trans hw'
      rfl
    · cases hs
  | move l b =>
    refine h.call hp hs (by simp) (by simp) (fun _ => by simp) (fun _ _ hpin => ?_) (fun _ => id)
    cases home <;> exact hpin
  | write l b =>
    refine h.call hp hs (by simp) (by simp) (fun _ => by
      simp) (fun bio he hpin => ?_) (fun _ _ => trivial)
    cases home with
    | false => exact hpin
    | true =>
      -- the block that is being written is no longer pending
      obtain ⟨-, hkey⟩ := h.place p _ hp
      have hpending : s.bio.Pinned (s.log.lh.drop tail) := h.pending p _ hp
      refine hpending.bwrite h.sound (fun w hw => ?_) he
      cases hw' : s.log.lh[tail]? with
      | none =>
        rw [List.drop_eq_nil_of_le (List.getElem?_eq_none_iff.1 hw')] at hw
        cases hw
      | some w' =>
        obtain ⟨hlt, hget⟩ := List.getElem?_eq_some_iff.1 hw'
        rw [List.drop_eq_getElem_cons hlt, hget] at hw
        obtain rfl | hw := List.mem_cons.1 hw
        · exact .inr (hkey w hw')
        · exact .inl hw
  | relseSrc l b =>
    refine h.call hp hs (by simp) (fun q c hq => by cases hq; rfl) trivial (fun _ _ hpin => ?_)
      (fun _ _ => trivial)
    cases home <;> exact hpin
  | relseDst l b =>
    refine h.call hp hs (by simp) (fun q c hq => by cases hq; rfl) trivial (fun _ _ hpin => ?_)
      (fun _ _ => trivial)
    cases home <;> exact hpin

theorem Inv.headStep {erase : Bool} {c : HeadPc}
    (hp : s.op p = .commit (.head erase c)) (hs : s.headStep p erase c = .ok s') : Inv s' := by
  cases c with
  | read | fill | write =>
    exact h.call hp hs (by simp) (by simp) trivial (fun _ _ => id) (fun _ _ => trivial)
  | relse b =>
    refine h.call hp hs (by simp) (fun q c hq => by cases hq; rfl) trivial (fun _ _ hpin => ?_)
      (fun _ _ => ?_)
    · cases erase <;> exact hpin
    · cases erase <;> trivial

theorem Inv.commitStep (hp : s.op p = .commit c) (hs : s.commitStep p c = .ok s') : Inv s' := by
  cases c with
  | test =>
    cases hs
    have hpending := h.pending p _ hp
    refine h.goto_commit hp _ ?_ ?_
    · split <;> exact hpending
    · split <;> trivial
  | copy home tail c => exact h.copyStep hp hs
  | head erase c => exact h.headStep hp hs
  | clear =>
    cases hs
    have hpending : s.bio.Pinned [] := h.pending p _ hp
    have honly : ∀ q d, s.op q = .commit d → d = .clear := by
      intro q d hq
      obtain rfl := h.alone q p d _ hq hp
      cases hq.symm.trans hp
      rfl
    have hcleared : Inv { s with log := { s.log with lh := [] } } := by
      refine ⟨h.sound, h.counted, h.committing, h.alone, hpending, fun q d hq => ?_,
        fun q d hq => ?_, h.logs⟩
      · rw [honly q d hq]
        exact hpending
      · rw [honly q d hq]
        trivial
    exact hcleared.goto_commit hp (.head true .read) hpending trivial
  | done =>
    cases hs
    refine h.goto_other .outside s.log.endCommit s.blocks (by simp) rfl ?_
      (fun q d hqp hq => absurd (h.alone q p d _ hq hp) hqp) (by simp [OpPc.logs])
    rw [hp]
    rfl

theorem Inv.append (hp : s.op p = .checked b) {blocks : P → List Word}
    (hs : { s with log := s.log.append (s.bio.buf b).blockno, blocks := blocks }.call (.logWrite p b) p .inOp =
      .ok s') : Inv s' := by
  obtain ⟨bio, hbio, rfl⟩ := of_call hs
  have he := BioSys.of_step hbio
  obtain ⟨hholds, hdev⟩ := h.logs p b (by rw [hp]; rfl)
  have hnone : ∀ q d, update s.op p .inOp q ≠ .commit d := by
    intro q d hq
    rw [update_apply] at hq
    split_ifs at hq
    exact h.not_commit (by rw [hp]; rfl) q d hq
  have hpinned : s.bio.Pinned (s.log.append (s.bio.buf b).blockno).lh :=
    h.pinned.mono fun w hw => Log.mem_absorb.2 (.inr hw)
  refine ⟨h.sound.step hbio, ?_, fun q d hq => absurd hq (hnone q d),
    fun q r d e hq => absurd hq (hnone q d),
    hpinned.logWrite hdev (Log.mem_absorb.2 (.inl rfl)) he, fun q d hq => absurd hq (hnone q d),
    fun q d hq => absurd hq (hnone q d), fun q c hq => ?_⟩
  · have hcount := h.counted_goto p .inOp
    rw [hp] at hcount
    have hload : (OpPc.checked b).load = OpPc.inOp.load := rfl
    rw [hload] at hcount
    show s.log.outstanding = ((∑ q, ((s.goto p .inOp).op q).load : ℕ) : Int)
    omega
  · have hq' : (s.op q).logs = some c := by
      rw [goto_op] at hq
      split at hq
      · cases hq
      · exact hq
    obtain ⟨hqholds, hqdev⟩ := h.logs q c hq'
    refine ⟨he.holds hqholds (by simp), ?_⟩
    have hkey := he.key_of_busy ((h.sound.busy c).2 ⟨q, hqholds⟩)
    exact (congrArg Prod.fst hkey : (bio.buf c).dev = (s.bio.buf c).dev).trans hqdev

/-- The last operation ends and begins to commit. -/
theorem Inv.startCommit {l : Log} (hp : s.op p = .inOp) (hlh : l.lh = s.log.lh)
    (hout : l.outstanding = 0) (hold : s.log.outstanding = 1) (hcomm : l.committing = true) :
    Inv ({ s with log := l }.goto p (.commit .test)) := by
  have hop : ∀ q d, update s.op p (.commit .test) q = .commit d → q = p ∧ d = .test := by
    intro q d hq
    rw [update_apply] at hq
    split at hq
    · next hqp =>
      cases hq
      exact ⟨hqp, rfl⟩
    · exact absurd hq (h.not_commit (by rw [hp]; rfl) q d)
  have hpinned : s.bio.Pinned l.lh := hlh ▸ h.pinned
  refine ⟨h.sound, ?_, fun q d hq => ⟨hcomm, hout⟩, fun q r d e hq hr => ?_, hpinned,
    fun q d hq => ?_, fun q d hq => ?_, fun q b hq => ?_⟩
  · have hcount := h.counted_goto p (.commit .test)
    rw [hp, hold] at hcount
    have hload1 : OpPc.inOp.load = 1 := rfl
    have hload0 : (OpPc.commit .test).load = 0 := rfl
    rw [hload1, hload0] at hcount
    show l.outstanding = ((∑ q, ((s.goto p (.commit .test)).op q).load : ℕ) : Int)
    omega
  · rw [(hop q d hq).1, (hop r e hr).1]
  · rw [(hop q d hq).2]
    exact hpinned
  · rw [(hop q d hq).2]
    trivial
  · rw [goto_op] at hq
    split at hq
    · cases hq
    · exact h.logs q b hq

theorem Inv.endOp (hp : s.op p = .inOp) (hs : step (.endOp p) s = .ok s') : Inv s' := by
  rw [BufLog.step] at hs
  split_ifs at hs
  rw [Log.endOp] at hs
  dsimp only at hs
  split_ifs at hs with hcomm hzero
  · cases hs
    exact h.startCommit hp rfl hzero (by omega) rfl
  · cases hs
    refine h.goto_other .outside { s.log with outstanding := s.log.outstanding - 1 } s.blocks
      (by simp) rfl ?_
      (fun q d _ hq => absurd hq (h.not_commit (by rw [hp]; rfl) q d)) (by simp [OpPc.logs])
    have hload1 : OpPc.inOp.load = 1 := rfl
    have hload0 : OpPc.outside.load = 0 := rfl
    rw [hp, hload1, hload0]
    dsimp only
    omega

theorem Inv.step {a : BufLogAct P} (hs : step a s = .ok s') : Inv s' := by
  cases a with
  | bio a => exact h.bioStep hs
  | beginOp p =>
    rw [BufLog.step] at hs
    split_ifs at hs with hok
    cases hs
    obtain ⟨hp, -, hmay⟩ := hok
    have hfalse : s.log.committing = false := by
      rw [Log.mayBegin] at hmay
      simp only [Bool.and_eq_true, Bool.not_eq_true'] at hmay
      exact hmay.1
    refine h.goto_other .inOp s.log.beginOp _ (by simp) rfl ?_ (fun q d _ hq => ?_)
      (by simp [OpPc.logs])
    · simp [hp, OpPc.load, OpPc.inProgress, Log.beginOp]
    · exact absurd (hfalse.symm.trans (h.committing q d hq).1) Bool.false_ne_true
  | logWrite p b =>
    rw [BufLog.step] at hs
    split_ifs at hs with hok
    obtain ⟨hp, -, hholds, hdev⟩ := hok
    split at hs
    · cases hs
      refine h.goto_other (.sizeOk b) s.log s.blocks (by simp) rfl ?_
        (fun q d _ => h.committing q d) ?_
      · rw [hp]
        rfl
      · intro c hc
        cases hc
        exact ⟨hholds, hdev⟩
    · cases hs
  | check p =>
    rw [BufLog.step] at hs
    split at hs
    · next b hp =>
      split at hs
      · cases hs
        refine h.goto_other (.checked b) s.log s.blocks (by simp) rfl ?_
          (fun q d _ => h.committing q d) ?_
        · rw [hp]
          rfl
        · intro c hc
          cases hc
          exact h.logs p b (by rw [hp]; rfl)
      · cases hs
    · cases hs
  | append p =>
    rw [BufLog.step] at hs
    split at hs
    · next b hp => exact h.append hp hs
    · cases hs
  | endOp p =>
    have hp : s.op p = .inOp := by
      rw [BufLog.step] at hs
      split_ifs at hs with hok
      exact hok.1
    exact h.endOp hp hs
  | commit p =>
    rw [BufLog.step] at hs
    split at hs
    · next c hp =>
      split_ifs at hs
      exact h.commitStep hp hs
    · cases hs

end

/-! ## When `bget` finds a buffer -/

end

section

variable [DecidableEq P] {s : BufLog P} {p : P}

theorem call_ne_noBuffers {a : BioAct P} {c : OpPc} (ha : ∀ q, a ≠ .run q) :
    s.call a p c ≠ .error (.bio .bgetNoBuffers) := by
  intro h
  rw [call] at h
  split at h
  · cases h
  · next e he =>
    cases h
    obtain ⟨q, -, -, hq, -⟩ := BioSys.of_noBuffers he
    exact ha q hq

theorem commitStep_ne_noBuffers (c : BufCommitPc) :
    s.commitStep p c ≠ .error (.bio .bgetNoBuffers) := by
  cases c with
  | test | clear | done => simp [commitStep]
  | head erase c => cases c <;> exact call_ne_noBuffers (by simp)
  | copy home tail c =>
    rw [commitStep]
    cases c with
    | move | write | relseSrc | relseDst => exact call_ne_noBuffers (by simp)
    | readLog | readHome =>
      rw [copyStep]
      split
      · exact call_ne_noBuffers (by simp)
      · simp

/-- Only a process inside `bget` runs out of buffers. -/
theorem of_noBuffers {a : BufLogAct P} (h : step a s = .error (.bio .bgetNoBuffers)) :
    ∃ p dev blockno, a = .bio (.run p) ∧ s.bio.pc p = .bget dev blockno ∧
      s.bio.findBuf dev blockno = none ∧ s.bio.freeBuf = none := by
  cases a with
  | bio a =>
    rw [step, bioStep] at h
    split at h
    · split at h
      · next e he =>
        cases h
        obtain ⟨p, dev, blockno, rfl, hrest⟩ := BioSys.of_noBuffers he
        exact ⟨p, dev, blockno, rfl, hrest⟩
      · split at h
        · split at h <;> cases h
        · cases h
    · cases h
  | beginOp | logWrite | check | endOp =>
    rw [step] at h
    repeat' split at h
    all_goals cases h
  | append p =>
    rw [step] at h
    split at h
    · exact absurd h (call_ne_noBuffers (by simp))
    · cases h
  | commit p =>
    rw [step] at h
    split at h
    · split at h
      · exact absurd h (commitStep_ne_noBuffers _)
      · cases h
    · cases h

end

/-- How many buffers are held. -/
def busyBufs (s : BufLog P) : ℕ := (Finset.univ.filter fun b => (s.bio.buf b).busy = true).card

/-- An operation logs at most `MAXOPBLOCKS` different blocks. -/
def Within : BufLogAct P → BufLog P → Prop
  | .logWrite p b, s => ((s.bio.buf b).blockno :: s.blocks p).toFinset.card ≤ maxOpBlocks
  | _, _ => True

instance (a : BufLogAct P) (s : BufLog P) : Decidable (Within a s) :=
  match a with
  | .logWrite .. => inferInstanceAs (Decidable (_ ≤ _))
  | .bio _ | .beginOp _ | .check _ | .append _ | .endOp _ | .commit _ => isTrue trivial

/-- Where a process looks for a block that is not cached, the blocks in the log and the buffers that
are held leave a buffer. -/
def Roomy : BufLogAct P → BufLog P → Prop
  | .bio (.run p), s =>
    ∀ dev blockno, s.bio.pc p = .bget dev blockno → s.bio.findBuf dev blockno = none →
      s.log.lh.length + s.busyBufs < nbuf
  | _, _ => True

/-- `bget` does not run out of buffers where there is room. -/
theorem bget_finds_buffer [Fintype P] [DecidableEq P] (start size : ℕ) (havedisk1 : Bool)
    (disk : Word × Word → Block) {s : BufLog P}
    (hr : Reachable step (· = init start size havedisk1 disk) Within s) (a : BufLogAct P)
    (hroom : Roomy a s) : step a s ≠ .error (.bio .bgetNoBuffers) := by
  have hinv : Inv s :=
    hr.invariant (fun s h0 => h0 ▸ Inv.init start size havedisk1 disk) fun a s s' hs _ hstep =>
    hs.step hstep
  intro hstop
  obtain ⟨p, dev, blockno, rfl, hpc, hfind, hfree⟩ := of_noBuffers hstop
  have hfull := hinv.sound.full hinv.pinned hfree
  have hroom' := hroom dev blockno hpc hfind
  rw [busyBufs] at hroom'
  omega

/-- The process calls `bread` for a block and gets it from the disk. -/
def fetch (p : P) (n : Word) : List (BufLogAct P) :=
  [.bio (.bread p rootDev n), .bio (.run p), .bio (.run p), .bio .ideintr, .bio (.run p)]

theorem bget_finds_buffer_logged :
    ∃ s : BufLog Bool, s.bio.pc false = .bget rootDev 41 ∧ s.bio.findBuf rootDev 41 = none ∧
      s.log.lh = [40] ∧ step (.bio (.run false)) s ≠ .error (.bio .bgetNoBuffers) := by
  let acts : List (BufLogAct Bool) := [.beginOp true] ++ fetch true 40 ++
    [.bio (.modify true 0 fun _ => 7), .logWrite true 0, .check true, .append true,
      .bio (.brelse true 0), .bio (.bread false rootDev 41)]
  obtain ⟨s, hreach, hpc, hfind, hlh, hroom⟩ := reachable_any step
    (· = init logStart logSize true fun _ _ => 0) Within acts rfl
    (fun s => s.bio.pc false = .bget rootDev 41 ∧ s.bio.findBuf rootDev 41 = none ∧
      s.log.lh = [40] ∧ s.log.lh.length + s.busyBufs < nbuf) (by decide +kernel)
  exact ⟨s, hpc, hfind, hlh, bget_finds_buffer logStart logSize true _ hreach (.bio (.run false))
    fun _ _ _ _ => hroom⟩

/-- Thirty readers wait for the disk, each with a buffer, and there is none for the next one. -/
theorem readers_exhaust_buffers :
    ∃ s : BufLog (Fin 31), Reachable step (· = init logStart logSize true fun _ _ => 0) Within s ∧
      (∀ p, s.op p = .outside) ∧ step (.bio (.run 30)) s = .error (.bio .bgetNoBuffers) := by
  let acts : List (BufLogAct (Fin 31)) := ((List.finRange 31).take 30).flatMap (fun p =>
    [.bio (.bread p rootDev (BitVec.ofNat 32 (p + 40))), .bio (.run p), .bio (.run p)]) ++
    [.bio (.bread 30 rootDev 70)]
  obtain ⟨s, hreach, hop, hpc, hfind, hfree⟩ := reachable_any step
    (· = init logStart logSize true fun _ _ => 0) Within acts rfl
    (fun s => (∀ p, s.op p = .outside) ∧ s.bio.pc 30 = .bget rootDev 70 ∧
      s.bio.findBuf rootDev 70 = none ∧ s.bio.freeBuf = none) (by decide +kernel)
  have hbget : BioSys.step (.run 30) s.bio = .error .bgetNoBuffers := by
    rw [BioSys.step, BioSys.run, hpc]
    dsimp only
    rw [BioSys.bget, hfind]
    dsimp only
    rw [hfree]
  refine ⟨s, hreach, hop, ?_⟩
  have hmay : s.mayCall (.run 30) = true := rfl
  rw [step, bioStep, if_pos hmay, hbget]

end BufLog

end Xv6
