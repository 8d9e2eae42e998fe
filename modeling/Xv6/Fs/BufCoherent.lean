import Xv6.Fs.BufSound

set_option autoImplicit false

/-! # The buffer cache is coherent

What a holder finds in a buffer is stated of one buffer at a time (`BufView.Ok`): a buffer that
nobody holds has what its last holder left there, and if it is clean the disk has it too, so that
recycling the buffer loses nothing. A holder that changes the data and calls neither `log_write` nor
`bwrite` before `brelse` breaks this, and the next reader of the block may find the old data. -/

namespace Xv6

open Transition Function

/-- A process works on one buffer at a time. -/
theorem BioPc.on_of_ne {pc : BioPc} {b c : Fin nbuf} {place : BufPlace} (h : pc.on b = some place)
    (hc : c ≠ b) :
    pc.on c = none := by
  cases pc with
  | idle | bget => rfl
  | got d | read d | write d =>
    obtain rfl : d = b := by
      by_contra hne
      simp [BioPc.on, hne] at h
    exact if_neg hc.symm

/-! ## One buffer -/

/-- A buffer, what the disk and the last holder have left for its block, and what each process does
    with it. -/
structure BufView (P : Type) where
  buf : CachedBuf
  holds : P → Bool
  pc : P → Option BufPlace
  changed : Bool
  disk : Block
  left : Block
  queued : Prop
  /-- The request is at the head of the queue. -/
  active : Prop

namespace BufView

variable {P : Type} {l : BufView P} {p : P}

/-- The data is what the last holder left, and on the disk unless the buffer is dirty. -/
structure Settled (l : BufView P) : Prop where
  valid : l.buf.valid = true
  data : l.buf.data = l.left
  disk : l.buf.dirty = false → l.disk = l.buf.data

/-- The block has to be read, and the disk has what its last holder left. -/
structure Unread (l : BufView P) : Prop where
  valid : l.buf.valid = false
  clean : l.buf.dirty = false
  disk : l.disk = l.left

/-- What holds of a buffer whose holder stands at the place. -/
def At (l : BufView P) : Option BufPlace → Prop
  | none =>
    ¬ l.queued ∧ l.buf.valid = true ∧
      (l.buf.dirty = false → l.changed = false → l.disk = l.buf.data)
  | some .got => ¬ l.queued ∧ (l.Settled ∨ l.Unread)
  | some .read => (l.queued ∧ l.Unread) ∨ (¬ l.queued ∧ l.Settled ∧ l.buf.dirty = false)
  | some .write =>
    l.changed = false ∧ l.buf.valid = true ∧
      ((l.queued ∧ l.buf.dirty = true ∧ (l.active → l.disk = l.buf.data)) ∨
        (¬ l.queued ∧ l.buf.dirty = false ∧ l.disk = l.buf.data))

structure Ok (l : BufView P) : Prop where
  unheld : (∀ p, l.holds p = false) → ¬ l.queued ∧ l.Settled
  held : ∀ p, l.holds p = true → l.At (l.pc p)

theorem Ok.of_holder (hp : l.holds p = true) (hexcl : ∀ q, l.holds q = true → q = p)
    (h : l.At (l.pc p)) :
    Ok l := by
  refine ⟨fun hno => ?_, fun q hq => ?_⟩
  · rw [hno p] at hp
    cases hp
  · rw [hexcl q hq]
    exact h

/-- A queued buffer is one whose holder waits for the disk. -/
theorem Ok.waits (h : Ok l) (hq : l.queued) :
    ∃ p, l.holds p = true ∧ ((l.pc p = some .read ∧ l.Unread) ∨
      (l.pc p = some .write ∧ l.changed = false ∧ l.buf.valid = true ∧ l.buf.dirty = true ∧
        (l.active → l.disk = l.buf.data))) := by
  have hsome : ∃ p, l.holds p = true := by
    by_contra hno
    exact (h.unheld (by simpa using hno)).1 hq
  obtain ⟨p, hp⟩ := hsome
  refine ⟨p, hp, ?_⟩
  have hat := h.held p hp
  cases hpc : l.pc p with
  | none =>
    rw [hpc] at hat
    simp [At, hq] at hat
  | some place =>
    rw [hpc] at hat
    cases place with
    | got => simp [At, hq] at hat
    | read => simpa [At, hq] using hat
    | write => simpa [At, hq] using hat

end BufView

/-! ## All buffers -/

namespace BioSys

variable {P : Type} {s s' : BioSys P} {p q : P} {b c : Fin nbuf}

def view (b : Fin nbuf) (s : BioSys P) : BufView P where
  buf := s.buf b
  holds p := s.holds p b
  pc p := (s.pc p).on b
  changed := s.changed b
  disk := s.disk (s.buf b).key
  left := s.left (s.buf b).key
  queued := b ∈ s.idequeue
  active := s.idequeue.head? = some b

structure Content (s : BioSys P) : Prop where
  ok : ∀ b, RealDev (s.buf b).dev → (s.view b).Ok
  uncached : ∀ k, RealDev k.1 → (∀ b, (s.buf b).key ≠ k) → s.disk k = s.left k
  nodup : s.idequeue.Nodup
  real : ∀ b ∈ s.idequeue, RealDev (s.buf b).dev

/-- What `brelse` requires: the data has not changed, or is to be written. -/
def Saves : BioAct P → BioSys P → Prop
  | .brelse _ b, s => s.changed b = false ∨ (s.buf b).dirty = true
  | _, _ => True

instance (a : BioAct P) (s : BioSys P) : Decidable (Saves a s) :=
  match a with
  | .brelse _ _ => inferInstanceAs (Decidable (_ ∨ _))
  | .bread .. | .modify .. | .logWrite .. | .bwrite .. | .run _ | .ideintr => isTrue trivial

/-! ### The views after a change -/

theorem view_modifyBuf_of_ne (hc : c ≠ b) (f : CachedBuf → CachedBuf) :
    (s.modifyBuf b f).view c = s.view c := by
  simp [view, modifyBuf, setBuf, hc]

variable {f : CachedBuf → CachedBuf}

theorem view_modifyBuf (hf : (f (s.buf b)).key = (s.buf b).key) :
    (s.modifyBuf b f).view b = { s.view b with buf := f (s.buf b) } := by
  simp [view, modifyBuf, setBuf, hf]

theorem view_setChanged_of_ne (hc : c ≠ b) (x : Bool) : (s.setChanged b x).view c = s.view c := by
  simp [view, setChanged, hc]

theorem view_setChanged (b : Fin nbuf) (x : Bool) :
    (s.setChanged b x).view b = { s.view b with changed := x } := by
  simp [view, setChanged]

variable {k : Word × Word}

theorem view_setDisk_of_ne (hc : (s.buf c).key ≠ k) (x : Block) :
    (s.setDisk k x).view c = s.view c := by
  simp [view, setDisk, hc]

theorem view_setDisk (b : Fin nbuf) (x : Block) :
    (s.setDisk (s.buf b).key x).view b = { s.view b with disk := x } := by
  simp [view, setDisk]

theorem view_setLeft_of_ne (hc : (s.buf c).key ≠ k) (x : Block) :
    (s.setLeft k x).view c = s.view c := by
  simp [view, setLeft, hc]

theorem view_started_of_ne (hc : (s.buf c).key ≠ (s.buf b).key) :
    (s.started b).view c = s.view c := by
  rw [started]
  split
  · exact view_setDisk_of_ne hc _
  · rfl

/-- Once a dirty buffer is given to the disk, the disk has its data. -/
theorem view_started (b : Fin nbuf) :
    (s.started b).view b =
      { s.view b with disk := if (s.buf b).dirty then (s.buf b).data else s.disk (s.buf b).key } := by
  rw [started]
  split
  · exact view_setDisk b _
  · rfl

theorem started_disk (hk : k ≠ (s.buf b).key) : (s.started b).disk k = s.disk k := by
  rw [started]
  split
  · simp [setDisk, hk]
  · rfl

theorem Sound.key_ne (h : Sound s) (hc : RealDev (s.buf c).dev) (hcb : c ≠ b) :
    (s.buf c).key ≠ (s.buf b).key :=
  fun e => hcb (h.unique c b hc e)

/-! ### Every step keeps the contents -/

/-- Every buffer stays the buffer of its block. -/
theorem Content.keep (h : Content s) (hkeys : ∀ c, (s'.buf c).key = (s.buf c).key)
    (hok : ∀ c, RealDev (s.buf c).dev → (s'.view c).Ok)
    (hdisk : ∀ k, (∀ c, (s.buf c).key ≠ k) → s'.disk k = s.disk k ∧ s'.left k = s.left k)
    (hnodup : s'.idequeue.Nodup) (hreal : ∀ c ∈ s'.idequeue, RealDev (s.buf c).dev) :
    Content s' := by
  have hdev : ∀ c, (s'.buf c).dev = (s.buf c).dev := fun c => congrArg Prod.fst (hkeys c)
  refine ⟨fun c hc => hok c (hdev c ▸ hc), fun k hk hno => ?_, hnodup, fun c hc => ?_⟩
  · have hno' : ∀ c, (s.buf c).key ≠ k := fun c => hkeys c ▸ hno c
    rw [(hdisk k hno').1, (hdisk k hno').2]
    exact h.uncached k hk hno'
  · rw [hdev]
    exact hreal c hc

/-- The views of all buffers but one are as before. -/
theorem Content.ok_change (h : Content s) (b : Fin nbuf)
    (hothers : ∀ c, c ≠ b → RealDev (s.buf c).dev → s'.view c = s.view c) (hb : (s'.view b).Ok)
    (c : Fin nbuf) (hc : RealDev (s.buf c).dev) : (s'.view c).Ok := by
  by_cases hcb : c = b
  · subst hcb
    exact hb
  · rw [hothers c hcb hc]
    exact h.ok c hc

/-- What holds of a buffer that `p` holds. -/
theorem Content.at_holder (h : Content s) (hsound : Sound s) (hp : s.holds p b = true) :
    (s.view b).At ((s.pc p).on b) :=
  (h.ok b (hsound.real b p hp)).held p hp

theorem Content.modify (h : Content s) (hsound : Sound s) (hpc : s.pc p = .idle)
    (hp : s.holds p b = true)
    (data : Block) : Content ((s.modifyBuf b ({ · with data := data })).setChanged b true) := by
  refine h.keep (fun c => modifyBuf_key s b c ({ · with data := data }) fun _ => rfl)
    (h.ok_change b (fun c hc _ => ?_) ?_) (fun _ _ => ⟨rfl, rfl⟩) h.nodup h.real
  · rw [view_setChanged_of_ne hc, view_modifyBuf_of_ne hc]
  · rw [view_setChanged, view_modifyBuf rfl]
    refine BufView.Ok.of_holder hp (fun q hq => hsound.excl b q p hq hp) ?_
    have hat := h.at_holder hsound hp
    simp only [view, hpc] at hat ⊢
    exact ⟨hat.1, hat.2.1, fun _ hf => by cases hf⟩

theorem Content.logWrite (h : Content s) (hsound : Sound s) (hpc : s.pc p = .idle)
    (hp : s.holds p b = true) : Content (s.modifyBuf b ({ · with dirty := true })) := by
  refine h.keep (fun c => modifyBuf_key s b c ({ · with dirty := true }) fun _ => rfl)
    (h.ok_change b (fun c hc _ => view_modifyBuf_of_ne hc _) ?_)
      (fun _ _ => ⟨rfl, rfl⟩) h.nodup h.real
  rw [view_modifyBuf rfl]
  refine BufView.Ok.of_holder hp (fun q hq => hsound.excl b q p hq hp) ?_
  have hat := h.at_holder hsound hp
  simp only [view, hpc] at hat ⊢
  exact ⟨hat.1, hat.2.1, fun hf => by cases hf⟩

/-! ### Interrupts -/

variable {queue : List (Fin nbuf)}

theorem view_dequeue_of_ne (hqueue : s.idequeue = b :: queue) (hc : c ≠ b)
    (hhead : queue.head? ≠ some c) : (s.dequeue b queue).view c = s.view c := by
  have hview : (s.dequeue b queue).view c =
      { s.view c with queued := c ∈ queue, active := queue.head? = some c } := by
    simp [view, dequeue, modifyBuf, setBuf, hc]
  rw [hview]
  simp [view, hqueue, hc, hc.symm, hhead]

/-- A completed request leaves the buffer as its holder expects it. -/
theorem Content.ok_dequeue (h : Content s) (hsound : Sound s)
    (hqueue : s.idequeue = b :: queue) : ((s.dequeue b queue).view b).Ok := by
  have hb : b ∉ queue := (List.nodup_cons.1 (hqueue ▸ h.nodup)).1
  have hhead : queue.head? ≠ some b := fun e => hb (List.mem_of_head? e)
  have hmem : b ∈ s.idequeue := by simp [hqueue]
  have hview : (s.dequeue b queue).view b =
      { s.view b with
        buf := completed (s.disk (s.buf b).key) (s.buf b), queued := False, active := False } := by
    have hkey : (completed (s.disk (s.buf b).key) (s.buf b)).key = (s.buf b).key := rfl
    simp [view, dequeue, modifyBuf, setBuf, hkey, hb, hhead]
  obtain ⟨p, hp, hwaits⟩ := (h.ok b (h.real b hmem)).waits hmem
  rw [hview]
  refine BufView.Ok.of_holder hp (fun q hq => hsound.excl b q p hq hp) ?_
  dsimp only
  obtain ⟨hpc, hunread⟩ | ⟨hpc, hchanged, hvalid, hdirty, hdisk⟩ := hwaits
  · rw [hpc]
    have hclean : (s.buf b).dirty = false := hunread.clean
    have hdisk : s.disk (s.buf b).key = s.left (s.buf b).key := hunread.disk
    refine .inr ⟨id, ⟨rfl, ?_, fun _ => ?_⟩, rfl⟩
    · simp [completed, hclean, hdisk, view]
    · simp [completed, hclean, view]
  · rw [hpc]
    have hdirty' : (s.buf b).dirty = true := hdirty
    have hdisk' : s.disk (s.buf b).key = (s.buf b).data := hdisk (by simp [view, hqueue])
    refine ⟨hchanged, rfl, .inr ⟨id, rfl, ?_⟩⟩
    simp [completed, hdirty', hdisk', view]

theorem Content.last (h : Content s) (hsound : Sound s) (hqueue : s.idequeue = [b]) :
    Content (s.dequeue b []) := by
  refine h.keep (fun c => modifyBuf_key s b c (completed (s.disk (s.buf b).key)) fun _ => rfl)
    (h.ok_change b (fun c hc _ => view_dequeue_of_ne hqueue hc (by simp))
      (h.ok_dequeue hsound hqueue))
    (fun _ _ => ⟨rfl, rfl⟩) List.nodup_nil ?_
  intro c hc
  cases hc

/-- The next request is started. -/
theorem Content.ok_started (h : Content s) (hsound : Sound s)
    (hqueue : s.idequeue = b :: c :: queue) :
    (((s.dequeue b (c :: queue)).started c).view c).Ok := by
  have hcb : c ≠ b := fun e => (List.nodup_cons.1 (hqueue ▸ h.nodup)).1 (by simp [e])
  have hmem : c ∈ s.idequeue := by simp [hqueue]
  have hbuf : (s.dequeue b (c :: queue)).buf c = s.buf c := by
    simp [dequeue, modifyBuf, setBuf, hcb]
  have hview : ((s.dequeue b (c :: queue)).started c).view c =
      { s.view c with
        active := True, disk := if (s.buf c).dirty then (s.buf c).data
          else s.disk (s.buf c).key } := by
    rw [view_started, hbuf]
    simp [view, dequeue, modifyBuf, setBuf, hcb, hqueue]
  obtain ⟨p, hp, hwaits⟩ := (h.ok c (h.real c hmem)).waits hmem
  rw [hview]
  refine BufView.Ok.of_holder hp (fun q hq => hsound.excl c q p hq hp) ?_
  dsimp only
  obtain ⟨hpc, hunread⟩ | ⟨hpc, hchanged, hvalid, hdirty, hdisk⟩ := hwaits
  · rw [hpc]
    have hclean : (s.buf c).dirty = false := hunread.clean
    refine .inl ⟨hmem, hunread.valid, hunread.clean, ?_⟩
    simp only [hclean, Bool.false_eq_true, if_false]
    exact hunread.disk
  · rw [hpc]
    have hdirty' : (s.buf c).dirty = true := hdirty
    exact ⟨hchanged, hvalid, .inl ⟨hmem, hdirty, fun _ => if_pos hdirty'⟩⟩

theorem Content.next (h : Content s) (hsound : Sound s)
    (hqueue : s.idequeue = b :: c :: queue) : Content ((s.dequeue b (c :: queue)).started c) := by
  have hnodup : (b :: c :: queue).Nodup := hqueue ▸ h.nodup
  have hkeys : ∀ d, ((s.dequeue b (c :: queue)).buf d).key = (s.buf d).key :=
    fun d => modifyBuf_key s b d (completed (s.disk (s.buf b).key)) fun _ => rfl
  have hfields := started_same (s.dequeue b (c :: queue)) c
  have hview : ∀ d, d ≠ c → RealDev (s.buf d).dev →
      ((s.dequeue b (c :: queue)).started c).view d = (s.dequeue b (c :: queue)).view d := by
    intro d hdc hd
    refine view_started_of_ne ?_
    rw [hkeys, hkeys]
    exact hsound.key_ne hd hdc
  refine h.keep (fun d => ?_) (fun d hd => ?_) (fun k hk => ⟨?_, ?_⟩) ?_ (fun d hd => h.real d ?_)
  · rw [hfields.1, hkeys]
  · by_cases hdc : d = c
    · subst hdc
      exact h.ok_started hsound hqueue
    · rw [hview d hdc hd]
      by_cases hdb : d = b
      · subst hdb
        exact h.ok_dequeue hsound hqueue
      · rw [view_dequeue_of_ne hqueue hdb (by simpa using Ne.symm hdc)]
        exact h.ok d hd
  · exact started_disk fun e => hk c (e.trans (hkeys c)).symm
  · rw [hfields.2.2]
    rfl
  · rw [hfields.2.1]
    exact (List.nodup_cons.1 hnodup).2
  · rw [hfields.2.1] at hd
    rw [hqueue]
    exact List.mem_cons_of_mem _ hd

variable [DecidableEq P]

theorem view_setHolds_of_ne (hc : c ≠ b) (p : P) (x : Bool) :
    (s.setHolds p b x).view c = s.view c := by
  have hholds : ∀ q, (s.setHolds p b x).holds q c = s.holds q c := fun q => by
    rw [setHolds_holds, if_neg fun e => hc e.2]
  simp only [view, hholds]
  rfl

theorem view_goto (p : P) (pc : BioPc) (b : Fin nbuf) :
    (s.goto p pc).view b = { s.view b with pc := update (s.view b).pc p (pc.on b) } := by
  have hpc : (fun q => ((s.goto p pc).pc q).on b) = update (fun q => (s.pc q).on b) p (pc.on b) :=
    by
    funext q
    by_cases hq : q = p <;> simp [goto, hq]
  simp only [view, hpc]
  rfl

variable {pc : BioPc}

theorem view_goto_of_on (hon : pc.on b = (s.pc p).on b) : (s.goto p pc).view b = s.view b := by
  rw [view_goto, hon]
  have : update (s.view b).pc p ((s.pc p).on b) = (s.view b).pc := update_eq_self _ _
  rw [this]

theorem view_enqueue_of_ne (hc : c ≠ b) (hon : pc.on c = (s.pc p).on c) :
    (s.enqueue p b pc).view c = s.view c := by
  have hgoto : (s.enqueue p b pc).view c = { s with idequeue := s.idequeue ++ [b] }.view c :=
    view_goto_of_on hon
  have hhead : (s.idequeue ++ [b]).head? = some c ↔ s.idequeue.head? = some c := by
    cases s.idequeue with
    | nil => simp [hc.symm]
    | cons d queue => simp
  rw [hgoto]
  simp only [view, hhead, List.mem_append, List.mem_singleton, hc, or_false]

theorem view_requested_of_ne (hc : c ≠ b) (hkey : (s.buf c).key ≠ (s.buf b).key)
    (hon : pc.on c = (s.pc p).on c) : (s.requested p b pc).view c = s.view c := by
  have henqueue := view_enqueue_of_ne hc hon
  rw [requested]
  split
  · have hkey' : ((s.enqueue p b pc).buf c).key ≠ ((s.enqueue p b pc).buf b).key := hkey
    rw [view_started_of_ne hkey', henqueue]
  · exact henqueue

/-- The view of a buffer that has just been queued. -/
theorem view_requested (hb : b ∉ s.idequeue) (p : P) (pc : BioPc) :
    ∃ active disk, (s.requested p b pc).view b =
        { s.view b with
          pc := update (s.view b).pc p (pc.on b), queued := True, active := active, disk := disk } ∧
      ((s.buf b).dirty = false → disk = s.disk (s.buf b).key) ∧
      ((s.buf b).dirty = true → active → disk = (s.buf b).data) := by
  have hview : (s.enqueue p b pc).view b =
      { s.view b with
        pc := update (s.view b).pc p (pc.on b), queued := True, active := s.idequeue = [] } := by
    have hhead : (s.idequeue ++ [b]).head? = some b ↔ s.idequeue = [] := by
      cases hq : s.idequeue with
      | nil => simp
      | cons d queue =>
        have hne : d ≠ b := fun e => hb (by simp [hq, e])
        simp [hne]
    have hgoto : (s.enqueue p b pc).view b = _ :=
      @view_goto P { s with idequeue := s.idequeue ++ [b] } _ p pc b
    rw [hgoto]
    simp only [view, hhead, List.mem_append, List.mem_singleton, or_true]
  rw [requested]
  split
  · next hempty =>
    refine ⟨True, if (s.buf b).dirty then (s.buf b).data else s.disk (s.buf b).key, ?_, ?_, ?_⟩
    · rw [view_started, hview]
      simp [hempty]
      rfl
    · intro hclean
      rw [hclean]
      rfl
    · intro hdirty _
      rw [hdirty]
      rfl
  · next hne =>
    refine ⟨False, s.disk (s.buf b).key, ?_, fun _ => rfl, fun _ hf => hf.elim⟩
    rw [hview]
    simp [hne]
    rfl

theorem Content.goto_none (h : Content s) (hon : ∀ b, pc.on b = (s.pc p).on b) :
    Content (s.goto p pc) := by
  refine ⟨fun b hb => ?_, h.uncached, h.nodup, h.real⟩
  rw [view_goto_of_on (hon b)]
  exact h.ok b hb

theorem requested_disk (hk : k ≠ (s.buf b).key) :
    (s.requested p b pc).disk k = s.disk k := by
  rw [requested]
  split
  · exact started_disk (s := s.enqueue p b pc) hk
  · rfl

/-- A request is queued for a buffer that is not queued yet. -/
theorem Content.requested {s0 : BioSys P} (h : Content s0) (hsound : Sound s0)
    (hkeys : ∀ c, (s.buf c).key = (s0.buf c).key) (hothers : ∀ c, c ≠ b → s.view c = s0.view c)
    (hdisk : s.disk = s0.disk) (hleft : s.left = s0.left) (hqueue : s.idequeue = s0.idequeue)
    (hreal : RealDev (s0.buf b).dev) (hb : b ∉ s0.idequeue)
    (hon : ∀ c, c ≠ b → pc.on c = (s.pc p).on c) (hok : ((s.requested p b pc).view b).Ok) :
    Content (s.requested p b pc) := by
  obtain ⟨hbuf, hqueue', hleft'⟩ := requested_same s p b pc
  refine h.keep (fun c => ?_) (h.ok_change b (fun c hc hcreal => ?_) hok) (fun k hk => ⟨?_, ?_⟩) ?_
    (fun c hc => ?_)
  · rw [hbuf, hkeys]
  · rw [view_requested_of_ne hc (by rw [hkeys, hkeys]; exact hsound.key_ne hcreal hc) (hon c hc),
      hothers c hc]
  · rw [requested_disk fun e => hk b (e.trans (hkeys b)).symm, hdisk]
  · rw [hleft', hleft]
  · rw [hqueue', hqueue, ← List.concat_eq_append, List.nodup_concat]
    exact ⟨hb, h.nodup⟩
  · rw [hqueue', hqueue] at hc
    obtain hc | hc := List.mem_append.1 hc
    · exact h.real c hc
    · rw [List.mem_singleton.1 hc]
      exact hreal

section Step

variable (h : Content s) (hsound : Sound s)
include h hsound

theorem Content.released (hpc : s.pc p = .idle) (hp : s.holds p b = true)
    (hsaved : s.changed b = false ∨ (s.buf b).dirty = true) : Content (s.released p b) := by
  have hkeys : ∀ c, ((s.released p b).buf c).key = (s.buf c).key :=
    fun c => modifyBuf_key s b c ({ · with busy := false }) fun _ => rfl
  refine h.keep hkeys (h.ok_change b (fun c hc hcreal => ?_) ⟨fun _ => ?_, fun q hq => ?_⟩)
    (fun k hk => ⟨rfl, update_of_ne (fun e => hk b e.symm) _ _⟩) h.nodup h.real
  · rw [BioSys.released, view_setLeft_of_ne, view_setHolds_of_ne hc, view_modifyBuf_of_ne hc]
    · rfl
    · exact fun e => hsound.key_ne hcreal hc ((hkeys c).symm.trans e)
  · have hat := h.at_holder hsound hp
    rw [hpc] at hat
    obtain ⟨hqueued, hvalid, hdisk⟩ := hat
    have hbuf : (s.released p b).buf b = ({ · with busy := false } : CachedBuf →
        CachedBuf) (s.buf b) :=
      update_self b _ _
    refine ⟨hqueued, ?_, ?_, fun hclean => ?_⟩
    · simpa only [view, hbuf] using hvalid
    · simp only [view, hbuf]
      exact (update_self (s.buf b).key _ s.left).symm
    · simp only [view, hbuf] at hclean ⊢
      obtain hsame | hdirty := hsaved
      · exact hdisk hclean hsame
      · rw [hdirty] at hclean
        cases hclean
  · have hq' : (s.setHolds p b false).holds q b = true := hq
    rw [setHolds_holds] at hq'
    have hqp : q ≠ p := by
      rintro rfl
      simp at hq'
    rw [if_neg fun e => hqp e.1] at hq'
    exact absurd (hsound.excl b q p hq' hp) hqp

theorem Content.bwrite (hpc : s.pc p = .idle) (hp : s.holds p b = true) :
    Content ((s.toWrite b).requested p b (.write b)) := by
  have hat := h.at_holder hsound hp
  rw [hpc] at hat
  obtain ⟨hqueued, hvalid, -⟩ := hat
  have hkeys : ∀ c, ((s.toWrite b).buf c).key = (s.buf c).key :=
    fun c => modifyBuf_key s b c ({ · with dirty := true }) fun _ => rfl
  refine h.requested hsound hkeys (fun c hc => ?_) rfl rfl rfl (hsound.real b p hp) hqueued
    (fun c hc => ?_) ?_
  · rw [toWrite, view_setChanged_of_ne hc, view_modifyBuf_of_ne hc]
  · have hpc' : (s.toWrite b).pc p = .idle := hpc
    rw [hpc']
    exact if_neg hc.symm
  · have hview : (s.toWrite b).view b =
        { s.view b with buf := { (s.view b).buf with dirty := true }, changed := false } := by
      rw [toWrite, view_setChanged, view_modifyBuf rfl]
      rfl
    have hdirty : ((s.toWrite b).buf b).dirty = true := by
      simp [toWrite, setChanged, modifyBuf, setBuf]
    obtain ⟨active, disk, hview', -, hdisk⟩ :=
      @view_requested P (s.toWrite b) b _ hqueued p (.write b)
    rw [hview']
    refine BufView.Ok.of_holder hp (fun q hq => hsound.excl b q p hq hp) ?_
    have hwrite : update ((s.toWrite b).view b).pc p ((BioPc.write b).on b) p = some .write := by
      simp [BioPc.on]
    dsimp only
    rw [hwrite]
    refine ⟨?_, ?_, .inl ⟨trivial, hdirty, hdisk hdirty⟩⟩
    · rw [hview]
    · rw [hview]
      exact hvalid

theorem Content.request (hpc : s.pc p = .got b) (hvalid : (s.buf b).valid = false) :
    Content (s.requested p b (.read b)) := by
  have hp : s.holds p b = true := hsound.place b p (by rw [hpc]; simp [BioPc.on])
  have hat := h.at_holder hsound hp
  rw [hpc, show (BioPc.got b).on b = some .got from if_pos rfl] at hat
  obtain ⟨hqueued, hsettled | hunread⟩ := hat
  · exact absurd (hvalid.symm.trans hsettled.valid) Bool.false_ne_true
  · refine h.requested hsound (fun _ => rfl) (fun _ _ => rfl) rfl rfl rfl
      (hsound.real b p hp) hqueued
      (fun c hc => ?_) ?_
    · rw [hpc]
      exact (if_neg hc.symm).trans (if_neg hc.symm).symm
    · obtain ⟨active, disk, hview, hdisk, -⟩ := view_requested hqueued p (.read b)
      rw [hview]
      refine BufView.Ok.of_holder hp (fun q hq => hsound.excl b q p hq hp) ?_
      have hread : update (s.view b).pc p ((BioPc.read b).on b) p = some .read := by simp [BioPc.on]
      dsimp only
      rw [hread]
      exact .inl ⟨trivial, hunread.valid, hunread.clean, (hdisk hunread.clean).trans hunread.disk⟩

theorem Content.done {place : BufPlace} (hpc : (s.pc p).on b = some place)
    (hvalid : (s.buf b).valid = true)
    (hclean : place = .got ∨ (s.buf b).dirty = false) : Content (s.goto p .idle) := by
  have hp : s.holds p b = true := hsound.place b p (by rw [hpc]; simp)
  have hat := h.at_holder hsound hp
  rw [hpc] at hat
  refine h.keep (fun _ => rfl) (h.ok_change b (fun c hc _ => view_goto_of_on ?_) ?_)
    (fun _ _ => ⟨rfl, rfl⟩) h.nodup h.real
  · exact (BioPc.on_of_ne hpc hc).symm
  · rw [view_goto]
    refine BufView.Ok.of_holder hp (fun q hq => hsound.excl b q p hq hp) ?_
    have hidle : update (s.view b).pc p (BioPc.idle.on b) p = none := by simp [BioPc.on]
    dsimp only
    rw [hidle]
    cases place with
    | got =>
      obtain ⟨hqueued, hsettled | hunread⟩ := hat
      · exact ⟨hqueued, hvalid, fun hc _ => hsettled.disk hc⟩
      · exact absurd (hunread.valid.symm.trans hvalid) Bool.false_ne_true
    | read =>
      obtain ⟨-, hunread⟩ | ⟨hqueued, hsettled, -⟩ := hat
      · exact absurd (hunread.valid.symm.trans hvalid) Bool.false_ne_true
      · exact ⟨hqueued, hvalid, fun hc _ => hsettled.disk hc⟩
    | write =>
      have hclean' : (s.buf b).dirty = false := hclean.resolve_left (by simp)
      obtain ⟨-, -, ⟨-, hdirty, -⟩ | ⟨hqueued, -, hdisk⟩⟩ := hat
      · exact absurd (hclean'.symm.trans hdirty) Bool.false_ne_true
      · exact ⟨hqueued, hvalid, fun _ _ => hdisk⟩

variable {dev blockno : Word}

omit h hsound in
theorem view_take_of_ne (hpc : s.pc p = .bget dev blockno) (hc : c ≠ b)
    (f : CachedBuf → CachedBuf) : (s.take p b f).view c = s.view c := by
  have hon : (BioPc.got b).on c = (((s.modifyBuf b f).setHolds p b true).pc p).on c := by
    have hpc' : ((s.modifyBuf b f).setHolds p b true).pc p = .bget dev blockno := hpc
    rw [hpc']
    exact if_neg hc.symm
  rw [take, view_goto_of_on hon, view_setHolds_of_ne hc, view_modifyBuf_of_ne hc]

omit h in
/-- The process that gets a free buffer from `bget` is its only holder. -/
theorem Content.ok_take (hbusy : (s.buf b).busy = false)
    (hat : ((s.take p b f).view b).At (some .got)) : ((s.take p b f).view b).Ok := by
  have hpc : ((s.take p b f).view b).pc p = some .got := by
    simp [view, take, goto, BioPc.on]
  have hholds : ∀ q, ((s.take p b f).view b).holds q = if q = p ∧ b = b then true
      else s.holds q b :=
    fun q => setHolds_holds (s.modifyBuf b f) p q b b true
  refine BufView.Ok.of_holder ((hholds p).trans (if_pos ⟨rfl, rfl⟩)) (fun q hq => ?_) (hpc ▸ hat)
  by_contra hne
  rw [hholds, if_neg fun e => hne e.1, hsound.unheld hbusy] at hq
  cases hq

theorem Content.hit (hpc : s.pc p = .bget dev blockno)
    (hfind : s.findBuf dev blockno = some b) (hbusy : (s.buf b).busy = false) :
    Content (s.take p b ({ · with busy := true })) := by
  have hreal : RealDev (s.buf b).dev := by
    have hdev : (s.buf b).dev = dev := congrArg Prod.fst (findBuf_some hfind)
    exact hdev ▸ hsound.asked p dev blockno hpc
  obtain ⟨hqueued, hsettled⟩ := (h.ok b hreal).unheld (hsound.unheld hbusy)
  refine h.keep (fun c => modifyBuf_key s b c ({ · with busy := true }) fun _ => rfl)
    (h.ok_change b (fun c hc _ => view_take_of_ne hpc hc _) (Content.ok_take hsound hbusy ?_))
    (fun _ _ => ⟨rfl, rfl⟩) h.nodup h.real
  have hbuf : (s.take p b ({ · with busy := true })).buf b =
      ({ · with busy := true } : CachedBuf → CachedBuf) (s.buf b) := update_self b _ _
  refine ⟨hqueued, .inl ⟨?_, ?_, fun hclean => ?_⟩⟩
  · simp only [view, hbuf]
    exact hsettled.valid
  · simp only [view, hbuf]
    exact hsettled.data
  · simp only [view, hbuf] at hclean ⊢
    exact hsettled.disk hclean

theorem Content.recycle (hpc : s.pc p = .bget dev blockno)
    (hfind : s.findBuf dev blockno = none) (hfree : s.freeBuf = some b) :
    Content (s.take p b (⟨dev, blockno, true, false, false, ·.data⟩)) := by
  obtain ⟨hbusy, hclean⟩ := freeBuf_some hfree
  have hnew := hsound.findBuf_none hfind
  have hasked := hsound.asked p dev blockno hpc
  have hsettled : RealDev (s.buf b).dev → b ∉ s.idequeue ∧ (s.view b).Settled :=
    fun hreal => (h.ok b hreal).unheld (hsound.unheld hbusy)
  have hbuf : ∀ c, (s.take p b (⟨dev, blockno, true, false, false, ·.data⟩)).buf c =
      if c = b then ⟨dev, blockno, true, false, false, (s.buf b).data⟩ else s.buf c :=
    fun c => modifyBuf_buf s b c (⟨dev, blockno, true, false, false, ·.data⟩)
  refine ⟨fun c hc => ?_, fun k hk hno => ?_, h.nodup, fun c hc => ?_⟩
  · by_cases hcb : c = b
    · subst hcb
      refine Content.ok_take hsound hbusy ⟨fun hq => ?_, .inr ⟨?_, ?_, ?_⟩⟩
      · exact (hsettled (h.real c hq)).1 hq
      · simp only [view, hbuf, if_true]
      · simp only [view, hbuf, if_true]
      · simp only [view, hbuf, if_true]
        exact h.uncached (dev, blockno) hasked hnew
    · rw [view_take_of_ne hpc hcb]
      rw [hbuf, if_neg hcb] at hc
      exact h.ok c hc
  · -- the block that leaves the cache is clean, so the disk has what its last holder left
    show s.disk k = s.left k
    by_cases hkb : (s.buf b).key = k
    · subst hkb
      have := (hsettled hk).2
      exact (this.disk hclean).trans this.data
    · refine h.uncached k hk fun c => ?_
      by_cases hcb : c = b
      · rwa [hcb]
      · have := hno c
        rwa [hbuf, if_neg hcb] at this
  · have hcb : c ≠ b := by
      rintro rfl
      exact (hsettled (h.real c hc)).1 hc
    rw [hbuf, if_neg hcb]
    exact h.real c hc

theorem Content.step {a : BioAct P} (hsaves : Saves a s) (hs : BioSys.step a s = .ok s') :
    Content s' := by
  cases of_step hs with
  | @call p dev blockno hpc hdev =>
    have hset : Content { s with args := update s.args p (dev, blockno) } :=
      ⟨h.ok, h.uncached, h.nodup, h.real⟩
    refine hset.goto_none fun b => ?_
    rw [hpc]
    rfl
  | modify data hpc hb => exact h.modify hsound hpc hb data
  | logWrite hpc hb => exact h.logWrite hsound hpc hb
  | bwrite hpc hb => exact h.bwrite hsound hpc hb
  | brelse hpc hb => exact h.released hsound hpc hb hsaves
  | hit hpc hfind hbusy => exact h.hit hsound hpc hfind hbusy
  | recycle hpc hfind hfree => exact h.recycle hsound hpc hfind hfree
  | request hpc hvalid => exact h.request hsound hpc hvalid
  | done hpc hvalid hclean => exact h.done hsound hpc hvalid hclean
  | spurious hqueue => exact h
  | last hqueue => exact h.last hsound hqueue
  | next hqueue => exact h.next hsound hqueue

end Step

omit [DecidableEq P] in
theorem Content.init (havedisk1 : Bool) (disk : Word × Word → Block) :
    Content (init havedisk1 disk : BioSys P) := by
  have hno : ¬ RealDev (-1) := by decide
  refine ⟨fun b hb => absurd hb hno, fun _ _ _ => rfl, List.nodup_nil, fun b hb => ?_⟩
  cases hb

/-! ## Runs -/

variable {dev blockno : Word}

/-- The process's `bread` of the block is about to return the buffer. -/
def Returns (s : BioSys P) (p : P) (dev blockno : Word) (b : Fin nbuf) : Prop :=
  s.args p = (dev, blockno) ∧ (s.buf b).valid = true ∧
    (s.pc p = .got b ∨ (s.pc p = .read b ∧ (s.buf b).dirty = false))

instance (s : BioSys P) (p : P) (dev blockno : Word) (b : Fin nbuf) :
    Decidable (s.Returns p dev blockno b) := inferInstanceAs (Decidable (_ ∧ _))

omit [DecidableEq P] in
theorem Asks.returns (h : s.Asks p (s.args p)) (hr : s.Returns p dev blockno b) :
    (s.buf b).key = (dev, blockno) := by
  obtain ⟨hargs, -, hpc | ⟨hpc, -⟩⟩ := hr <;> rwa [Asks, hpc, hargs] at h

omit [DecidableEq P] in
theorem Content.returns (h : Content s) (hsound : Sound s) (hr : s.Returns p dev blockno b) :
    (s.buf b).data = s.left (s.buf b).key := by
  obtain ⟨-, hvalid, hpc | ⟨hpc, hclean⟩⟩ := hr
  · have hon : (s.pc p).on b = some .got := by simp [hpc, BioPc.on]
    have hat := h.at_holder hsound (hsound.place b p (by simp [hon]))
    rw [hon] at hat
    obtain ⟨-, hsettled | hunread⟩ := hat
    · exact hsettled.data
    · exact absurd (hunread.valid.symm.trans hvalid) Bool.false_ne_true
  · have hon : (s.pc p).on b = some .read := by simp [hpc, BioPc.on]
    have hat := h.at_holder hsound (hsound.place b p (by simp [hon]))
    rw [hon] at hat
    obtain ⟨-, hunread⟩ | ⟨-, hsettled, -⟩ := hat
    · exact absurd (hunread.valid.symm.trans hvalid) Bool.false_ne_true
    · exact hsettled.data

/-- The buffers as `bio.c` means them to be, apart from their data. -/
structure Coherent (s : BioSys P) : Prop where
  unique : ∀ b c, RealDev (s.buf b).dev → (s.buf b).key = (s.buf c).key → b = c
  busy : ∀ b p, s.holds p b = true → (s.buf b).busy = true
  holder : ∀ b p q, s.holds p b = true → s.holds q b = true → p = q
  circular : ∃ xs : List (Fin nbuf), s.links.Through xs ∧ xs.Nodup ∧ ∀ b, b ∈ xs
  pinned : ∀ a s', BioSys.step a s = .ok s' → ∀ b, (s.buf b).dirty = true →
    (s'.buf b).key = (s.buf b).key
  answers : ∀ p dev blockno b, s.Returns p dev blockno b → (s.buf b).key = (dev, blockno)

abbrev ReachableBy (ok : BioAct P → BioSys P → Prop) (havedisk1 : Bool)
    (disk : Word × Word → Block) : BioSys P → Prop :=
  Reachable step (· = init havedisk1 disk) ok

section

variable {havedisk1 : Bool} {disk : Word × Word → Block} {ok : BioAct P → BioSys P → Prop}

theorem sound_of_reachable (h : ReachableBy ok havedisk1 disk s) :
    Sound s ∧ ∀ p, s.Asks p (s.args p) := by
  refine h.invariant (P := fun s => Sound s ∧ ∀ p, s.Asks p (s.args p)) (fun s h0 => ?_)
    fun a s s' hs _ hstep => ?_
  · rw [h0]
    exact ⟨Sound.init havedisk1 disk, fun _ => trivial⟩
  · exact ⟨hs.1.step hstep, fun p => (hs.2 p).args_step hs.1 (of_step hstep)⟩

theorem coherent_of_reachable (h : ReachableBy ok havedisk1 disk s) :
    Coherent s := by
  obtain ⟨hs, hasks⟩ := sound_of_reachable h
  obtain ⟨xs, hxs, hall⟩ := hs.circle
  exact ⟨hs.unique, fun b p hp => (hs.busy b).2 ⟨p, hp⟩, hs.excl, ⟨xs, hxs, hxs.nodup, hall⟩,
    fun a s' hstep b hb => (of_step hstep).pinned hb, fun p _ _ _ hr => (hasks p).returns hr⟩

theorem content_of_reachable (h : ReachableBy Saves havedisk1 disk s) : Content s := by
  refine (h.invariant (P := fun s => Sound s ∧ Content s) (fun s h0 => ?_)
    fun a s s' hs hok hstep => ?_).2
  · rw [h0]
    exact ⟨Sound.init havedisk1 disk, Content.init havedisk1 disk⟩
  · exact ⟨hs.1.step hstep, hs.2.step hs.1 hok hstep⟩

end

/-- In every run the buffers are coherent, and in every run in which no holder drops a change,
`bread` returns what the last holder of the block left there. -/
theorem cache_coherent (havedisk1 : Bool) (disk : Word × Word → Block) (s : BioSys P) :
    (ReachableBy (fun _ _ => True) havedisk1 disk s → Coherent s) ∧
      (ReachableBy Saves havedisk1 disk s → ∀ p dev blockno b, s.Returns p dev blockno b →
        (s.buf b).key = (dev, blockno) ∧ (s.buf b).data = s.left (dev, blockno)) := by
  refine ⟨coherent_of_reachable, fun h p dev blockno b hr => ?_⟩
  have hkey := (coherent_of_reachable h).answers p dev blockno b hr
  have hdata := (content_of_reachable h).returns (sound_of_reachable h).1 hr
  exact ⟨hkey, hkey ▸ hdata⟩

/-- A process reads a block. -/
def readBlock (p : P) (n : Word) : List (BioAct P) := [.bread p 1 n, .run p, .run p, .ideintr]

theorem cache_coherent_changed :
    ∃ s : BioSys Bool, s.Returns true 1 40 0 ∧ (s.buf 0).data 0 = 7 ∧ Coherent s ∧
      (s.buf 0).key = (1, 40) ∧ (s.buf 0).data = s.left (1, 40) := by
  let acts : List (BioAct Bool) := readBlock false 40 ++ [.run false, .modify false 0 fun _ => 7,
    .logWrite false 0, .brelse false 0, .bread true 1 40, .run true]
  obtain ⟨s, hreach, hret, hdata⟩ := reachable_any step (· = init true fun _ _ => 0) Saves acts
    rfl (fun s => s.Returns true 1 40 0 ∧ (s.buf 0).data 0 = 7)
    (by decide +kernel)
  have hcoherent := cache_coherent true (fun _ _ => 0) s
  exact ⟨s, hret, hdata, hcoherent.1 (hreach.mono fun _ _ _ => trivial),
    hcoherent.2 hreach true 1 40 0 hret⟩

/-- A change that is neither logged nor written is lost once the buffer has been recycled: all other
buffers are held, so the next block takes the buffer, and the block that was changed is read from
the disk again. -/
theorem unsaved_change_lost :
    ∃ s : BioSys Unit, ReachableBy (fun _ _ => True) true (fun _ _ => 0) s ∧ s.Returns () 1 40 0 ∧
      (s.buf 0).data ≠ s.left (1, 40) := by
  let acts : List (BioAct Unit) := readBlock () 40 ++
    [.run (), .modify () 0 fun _ => 7, .brelse () 0] ++
    (List.range nbuf).flatMap (fun n => readBlock () (BitVec.ofNat 32 (n + 41)) ++ [.run ()]) ++
    [.brelse () 0] ++ readBlock () 40
  obtain ⟨s, hreach, hret, hdata⟩ := reachable_any step (· = init true fun _ _ => 0)
    (fun _ _ => True) acts rfl
    (fun s => s.Returns () 1 40 0 ∧ (s.buf 0).data 0 ≠ s.left (1, 40) 0) (by decide +kernel)
  exact ⟨s, hreach, hret, fun e => hdata (congrFun e 0)⟩

end BioSys

end Xv6
