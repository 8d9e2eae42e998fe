import Xv6.Fs.BufLog
import Xv6.Fs.BufSound
import Mathlib.Data.Fintype.BigOperators

set_option autoImplicit false

/-! # Dirty buffers

A dirty buffer is being written by a process that waits for the disk, or it is for a logged block
that has not been installed yet (`BioSys.Pinned`). This file says how the actions of the buffer
cache keep that, and that a cache without a free buffer has all its buffers busy or pinned. -/

namespace Xv6

open Function

namespace BioSys

variable {P : Type} {s s' : BioSys P} {p q : P} {b c : Fin nbuf} {L : List Word}

/-- A dirty buffer is being written, or is for one of the blocks. -/
def Pinned (s : BioSys P) (L : List Word) : Prop :=
  ∀ b, (s.buf b).dirty = true →
    (∃ q, s.pc q = .write b) ∨ ((s.buf b).dev = rootDev ∧ (s.buf b).blockno ∈ L)

theorem Pinned.mono {L' : List Word} (h : Pinned s L) (hsub : ∀ w ∈ L, w ∈ L') : Pinned s L' := by
  intro b hb
  obtain hq | ⟨hdev, hmem⟩ := h b hb
  · exact .inl hq
  · exact .inr ⟨hdev, hsub _ hmem⟩

variable [DecidableEq P] {a : BioAct P}

/-- A buffer is held until its holder releases it. -/
theorem Effect.holds (he : Effect s a s') (hb : s.holds p b = true) (ha : a ≠ .brelse p b) :
    s'.holds p b = true := by
  have hrequested : ∀ (t : BioSys P) q c pc, (t.requested q c pc).holds = t.holds := by
    intro t q c pc
    rw [requested, started]
    split_ifs <;> rfl
  cases he with
  | call | modify | logWrite | done | spurious | last => exact hb
  | bwrite | request =>
    rw [hrequested]
    exact hb
  | next =>
    rw [started]
    split <;> exact hb
  | @hit q c | @recycle q c =>
    have hholds := setHolds_holds s q p c b true
    refine Eq.trans hholds ?_
    split
    · rfl
    · exact hb
  | @brelse q c =>
    have hholds := setHolds_holds s q p c b false
    refine Eq.trans hholds ?_
    rw [if_neg]
    · exact hb
    · rintro ⟨rfl, rfl⟩
      exact ha rfl

/-- A process that writes a buffer goes on when the buffer is clean. -/
theorem Effect.writes (he : Effect s a s') (hq : s.pc q = .write b)
    (hdirty : (s.buf b).dirty = true) :
    s'.pc q = .write b := by
  cases he.move q with
  | stays hpc => exact hpc.trans hq
  | calls dev blockno hidle => simp [hq] at hidle
  | writes c hidle hpc => simp [hq] at hidle
  | gets c dev blockno hbget => simp [hq] at hbget
  | waits c hgot => simp [hq] at hgot
  | returns c place hon hclean hpc =>
    rw [hq, BioPc.on] at hon
    split_ifs at hon with hbc
    subst hbc
    cases hon
    have hclean' : (s.buf b).dirty = false := hclean.resolve_left (by simp)
    exact absurd (hclean'.symm.trans hdirty) Bool.false_ne_true

/-- An action that sets no `B_DIRTY` keeps the dirty buffers where they are. -/
theorem Pinned.step (h : Pinned s L) (he : Effect s a s') (ha : Quiet a) : Pinned s' L := by
  intro b hb
  obtain ⟨hkey, hdirty⟩ | ⟨-, -, hclean⟩ := he.kept b
  · have hb' := hdirty ha hb
    obtain ⟨q, hq⟩ | ⟨hdev, hmem⟩ := h b hb'
    · exact .inl ⟨q, he.writes hq hb'⟩
    · refine .inr ⟨?_, ?_⟩
      · rw [show (s'.buf b).dev = (s.buf b).dev from congrArg Prod.fst hkey, hdev]
      · rw [show (s'.buf b).blockno = (s.buf b).blockno from congrArg Prod.snd hkey]
        exact hmem
  · exact absurd (hclean.symm.trans hb) Bool.false_ne_true

theorem Pinned.logWrite (h : Pinned s L) (hdev : (s.buf b).dev = rootDev)
    (hmem : (s.buf b).blockno ∈ L) (he : Effect s (.logWrite p b) s') : Pinned s' L := by
  cases he with
  | logWrite hpc hb =>
    intro c hc
    by_cases hcb : c = b
    · subst hcb
      have hbuf := modifyBuf_buf s c c ({ · with dirty := true })
      rw [if_pos rfl] at hbuf
      rw [hbuf]
      exact .inr ⟨hdev, hmem⟩
    · have hbuf := modifyBuf_buf s b c ({ · with dirty := true })
      rw [if_neg hcb] at hbuf
      rw [hbuf] at hc ⊢
      exact h c hc

/-- Once a block is being written, it need not be listed. -/
theorem Pinned.bwrite {L' : List Word} (h : Pinned s L) (hsound : Sound s)
    (hL : ∀ w ∈ L, w ∈ L' ∨ (s.buf b).key = (rootDev, w)) (he : Effect s (.bwrite p b) s') :
    Pinned s' L' := by
  cases he with
  | bwrite hpc hb =>
    intro c hc
    by_cases hcb : c = b
    · subst hcb
      exact .inl ⟨p, (requested_pc _ _ _ _ _).trans (if_pos rfl)⟩
    · have hbuf : ((s.toWrite b).requested p b (.write b)).buf c = s.buf c := by
        rw [(requested_same _ _ _ _).1]
        exact (modifyBuf_buf s b c ({ · with dirty := true })).trans (if_neg hcb)
      rw [hbuf] at hc ⊢
      obtain ⟨q, hq⟩ | ⟨hdev, hmem⟩ := h c hc
      · have hqp : q ≠ p := by
          rintro rfl
          simp [hpc] at hq
        exact .inl ⟨q, (requested_pc _ _ _ _ _).trans ((if_neg hqp).trans hq)⟩
      · obtain hmem' | hkey := hL _ hmem
        · exact .inr ⟨hdev, hmem'⟩
        · have hsame : (s.buf c).key = (s.buf b).key := by
            rw [hkey, CachedBuf.key, hdev]
          have hreal : RealDev (s.buf c).dev := hdev ▸ .inr rfl
          exact absurd (hsound.unique c b hreal hsame) hcb

theorem Pinned.keep (h : Pinned s L) (hsound : Sound s) (he : Effect s a s')
    (ha : ∀ p b, a ≠ .logWrite p b) : Pinned s' L := by
  cases a with
  | logWrite p b => exact absurd rfl (ha p b)
  | bwrite p b => exact h.bwrite hsound (fun w hw => .inl hw) he
  | bread | modify | brelse | run | ideintr => exact h.step he trivial

omit [DecidableEq P] in
/-- The second scan of `bget` passes every buffer too. -/
theorem Sound.freeBuf_none (h : Sound s) (hfree : s.freeBuf = none) (b : Fin nbuf) :
    (s.buf b).busy = true ∨ (s.buf b).dirty = true := by
  obtain ⟨xs, hxs, hall⟩ := h.circle
  rw [freeBuf, hxs.search_prev _ (length_lt hxs), List.find?_eq_none] at hfree
  have hb := hfree b (List.mem_reverse.2 (hall b))
  by_cases hbusy : (s.buf b).busy = true
  · exact .inl hbusy
  · exact .inr (by simpa [hbusy] using hb)

omit [DecidableEq P] in
/-- What is left when no buffer is free: all are busy, or for blocks of the list. -/
theorem Sound.full (hsound : Sound s) (h : Pinned s L) (hfree : s.freeBuf = none) :
    nbuf ≤ L.length + (Finset.univ.filter fun b => (s.buf b).busy = true).card := by
  have hlisted : ∀ b, ¬ (s.buf b).busy = true → (s.buf b).dev = rootDev ∧
      (s.buf b).blockno ∈ L := by
    intro b hb
    have hdirty := (hsound.freeBuf_none hfree b).resolve_left hb
    refine (h b hdirty).resolve_left ?_
    rintro ⟨q, hq⟩
    have hon : (s.pc q).on b = some .write := by simp [hq, BioPc.on]
    exact hb (hsound.busy_of_on hon)
  have hcard : (Finset.univ.filter fun b => ¬ (s.buf b).busy = true).card ≤ L.toFinset.card := by
    refine Finset.card_le_card_of_injOn (fun b => (s.buf b).blockno) (fun b hb => ?_)
      fun b hb c hc hbc => ?_
    · exact List.mem_toFinset.2 (hlisted b (by simpa using hb)).2
    · have hb' := (hlisted b (by simpa using hb)).1
      have hc' := (hlisted c (by simpa using hc)).1
      refine hsound.unique b c (hb' ▸ .inr rfl) ?_
      exact Prod.ext (hb'.trans hc'.symm) hbc
  have htotal := Finset.card_filter_add_card_filter_not (s := Finset.univ) fun b =>
    (s.buf b).busy = true
  rw [Finset.card_univ, Fintype.card_fin] at htotal
  have hlength := L.toFinset_card_le
  omega

theorem of_noBuffers (h : BioSys.step a s = .error .bgetNoBuffers) :
    ∃ p dev blockno, a = .run p ∧ s.pc p = .bget dev blockno ∧ s.findBuf dev blockno = none ∧
      s.freeBuf = none := by
  have hidestart : ∀ (t : BioSys P) b, t.idestart b ≠ .error .bgetNoBuffers := by
    intro t b
    rw [idestart]
    split_ifs <;> simp
  have hiderw : ∀ (t : BioSys P) p b pc, t.iderw p b pc ≠ .error .bgetNoBuffers := by
    intro t p b pc
    rw [iderw]
    dsimp only
    split_ifs
    all_goals first
      | exact hidestart _ _
      | simp
  cases a with
  | bread | modify | logWrite =>
    rw [step] at h
    split_ifs at h
    simp at h
  | bwrite p b =>
    rw [step, bwrite] at h
    split_ifs at h
    · simp at h
    · exact absurd h (hiderw _ _ _ _)
    · simp at h
  | brelse p b =>
    rw [step, brelse] at h
    split_ifs at h <;> simp at h
  | ideintr =>
    rw [step, ideintr] at h
    split at h
    · simp at h
    · split at h
      · simp at h
      · exact absurd h (hidestart _ _)
  | run p =>
    rw [step, run] at h
    split at h
    · simp at h
    · next dev blockno hpc =>
      rw [bget] at h
      split at h
      · split_ifs at h
        simp at h
      · next hfind =>
        split at h
        · simp at h
        · next hfree => exact ⟨p, dev, blockno, rfl, hpc, hfind, hfree⟩
    · split_ifs at h
      exact absurd h (hiderw _ _ _ _)
    · split_ifs at h
      simp at h
    · split_ifs at h
      simp at h

end BioSys

end Xv6
