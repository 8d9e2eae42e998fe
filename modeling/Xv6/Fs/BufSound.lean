import Xv6.Fs.BufCache
import Mathlib.Data.Fintype.Card

set_option autoImplicit false

/-! # Buffers, their holders and the list of buffers

What one step of the buffer cache does (`BioSys.Effect`), and what holds in every run without regard
to the data of the buffers (`BioSys.Sound`): no two buffers are for one block of a real device,
`B_BUSY` is set for the one process that holds the buffer, and the list through the buffers has each
of them once. -/

namespace Xv6

open Function

/-! ## What a step does -/

/-- Where a process stands that works on a buffer. -/
inductive BufPlace
  | got
  | read
  | write
  deriving DecidableEq, Repr

def BioPc.on (b : Fin nbuf) : BioPc → Option BufPlace
  | .idle | .bget .. => none
  | .got c => if c = b then some .got else none
  | .read c => if c = b then some .read else none
  | .write c => if c = b then some .write else none

namespace BioSys

variable {P : Type}

/-- The disk has been given what a dirty buffer holds. -/
def started (b : Fin nbuf) (s : BioSys P) : BioSys P :=
  if (s.buf b).dirty then s.setDisk (s.buf b).key (s.buf b).data else s

section

variable [DecidableEq P]

def enqueue (p : P) (b : Fin nbuf) (c : BioPc) (s : BioSys P) : BioSys P :=
  { s with idequeue := s.idequeue ++ [b] }.goto p c

/-- The request for `b` is queued, and started if no other is before it. -/
def requested (p : P) (b : Fin nbuf) (c : BioPc) (s : BioSys P) : BioSys P :=
  if s.idequeue = [] then (s.enqueue p b c).started b else s.enqueue p b c

/-- What `bwrite` passes to `iderw`. -/
def toWrite (b : Fin nbuf) (s : BioSys P) : BioSys P :=
  (s.modifyBuf b ({ · with dirty := true })).setChanged b false

def dequeue (b : Fin nbuf) (queue : List (Fin nbuf)) (s : BioSys P) : BioSys P :=
  { s.modifyBuf b (completed (s.disk (s.buf b).key)) with idequeue := queue }

/-- The buffer goes to the front of the list and is free again. -/
def released (p : P) (b : Fin nbuf) (s : BioSys P) : BioSys P :=
  (({ s with links := (s.links.unlink b).pushFront b }.modifyBuf b ({ · with busy := false })).setHolds p b
    false).setLeft (s.buf b).key (s.buf b).data

inductive Effect (s : BioSys P) : BioAct P → BioSys P → Prop
  | call {p dev blockno} (hpc : s.pc p = .idle) (hdev : RealDev dev) :
      Effect s (.bread p dev blockno) (s.bread p dev blockno)
  | modify {p b} (data : Block) (hpc : s.pc p = .idle) (hb : s.holds p b = true) :
      Effect s (.modify p b data) ((s.modifyBuf b ({ · with data := data })).setChanged b true)
  | logWrite {p b} (hpc : s.pc p = .idle) (hb : s.holds p b = true) :
      Effect s (.logWrite p b) (s.modifyBuf b ({ · with dirty := true }))
  | bwrite {p b} (hpc : s.pc p = .idle) (hb : s.holds p b = true) :
      Effect s (.bwrite p b) ((s.toWrite b).requested p b (.write b))
  | brelse {p b} (hpc : s.pc p = .idle) (hb : s.holds p b = true) : Effect s (.brelse p b)
      (s.released p b)
  | hit {p b dev blockno} (hpc : s.pc p = .bget dev blockno)
      (hfind : s.findBuf dev blockno = some b)
      (hbusy : (s.buf b).busy = false) : Effect s (.run p) (s.take p b ({ · with busy := true }))
  | recycle {p b dev blockno} (hpc : s.pc p = .bget dev blockno)
      (hfind : s.findBuf dev blockno = none) (hfree : s.freeBuf = some b) :
      Effect s (.run p) (s.take p b (⟨dev, blockno, true, false, false, ·.data⟩))
  | request {p b} (hpc : s.pc p = .got b) (hvalid : (s.buf b).valid = false) :
      Effect s (.run p) (s.requested p b (.read b))
  /-- `bread` or `bwrite` returns. -/
  | done {p b} {place : BufPlace} (hpc : (s.pc p).on b = some place)
      (hvalid : (s.buf b).valid = true)
      (hclean : place = .got ∨ (s.buf b).dirty = false) : Effect s (.run p) (s.goto p .idle)
  | spurious (hqueue : s.idequeue = []) : Effect s .ideintr s
  | last {b} (hqueue : s.idequeue = [b]) : Effect s .ideintr (s.dequeue b [])
  | next {b c queue} (hqueue : s.idequeue = b :: c :: queue) :
      Effect s .ideintr ((s.dequeue b (c :: queue)).started c)

end

variable {s s' : BioSys P} {p q : P} {b c : Fin nbuf}

theorem of_idestart (h : s.idestart b = .ok s') : s' = s.started b := by
  rw [idestart] at h
  split at h
  · cases h
  · rw [started]
    split at h <;> simp_all

variable [DecidableEq P]

theorem of_iderw {c : BioPc} (h : s.iderw p b c = .ok s') : s' = s.requested p b c := by
  have hqueue : (s.enqueue p b c).idequeue = [b] ↔ s.idequeue = [] := by
    simp [enqueue, goto]
  rw [iderw] at h
  split at h
  · cases h
  · split at h
    · cases h
    · split_ifs at h
      change (if (s.enqueue p b c).idequeue = [b] then (s.enqueue p b c).idestart b
        else .ok (s.enqueue p b c)) = .ok s' at h
      rw [requested]
      split at h
      · next hq => rw [if_pos (hqueue.1 hq), of_idestart h]
      · next hq => rw [if_neg (fun e => hq (hqueue.2 e)), ← Except.ok.inj h]

theorem of_bget {dev : Word} {blockno : Word} (hpc : s.pc p = .bget dev blockno)
    (h : s.bget p dev blockno = .ok s') : Effect s (.run p) s' := by
  rw [bget] at h
  cases hfind : s.findBuf dev blockno with
  | some b =>
    rw [hfind] at h
    dsimp only at h
    split_ifs at h with hbusy
    cases h
    exact .hit hpc hfind (by simpa using hbusy)
  | none =>
    rw [hfind] at h
    cases hfree : s.freeBuf with
    | none => rw [hfree] at h; cases h
    | some b =>
      rw [hfree] at h
      cases h
      exact .recycle hpc hfind hfree

theorem of_run (h : s.run p = .ok s') : Effect s (.run p) s' := by
  rw [run] at h
  split at h
  · cases h
  · next dev blockno hpc => exact of_bget hpc h
  · next b hpc =>
    split at h
    · next hvalid =>
      cases h
      exact .done (by rw [hpc]; exact if_pos rfl) hvalid (.inl rfl)
    · next hvalid =>
      rw [of_iderw h]
      exact .request hpc (by simpa using hvalid)
  · next b hpc =>
    split_ifs at h with hdone
    cases h
    exact .done (by rw [hpc]; exact if_pos rfl) hdone.1 (.inr hdone.2)
  · next b hpc =>
    split_ifs at h with hdone
    cases h
    exact .done (by rw [hpc]; exact if_pos rfl) hdone.1 (.inr hdone.2)

theorem of_ideintr (h : s.ideintr = .ok s') : Effect s .ideintr s' := by
  rw [ideintr] at h
  split at h
  · next hqueue =>
    cases h
    exact .spurious hqueue
  · next b queue hqueue =>
    split at h
    · cases h
      exact .last hqueue
    · next c rest =>
      have h' : (s.dequeue b (c :: rest)).idestart c = .ok s' := h
      rw [of_idestart h']
      exact .next hqueue

theorem of_step {a : BioAct P} (h : step a s = .ok s') : Effect s a s' := by
  cases a with
  | bread p dev blockno =>
    rw [step] at h
    split_ifs at h with hok
    cases h
    exact .call hok.1 hok.2
  | modify p b data =>
    rw [step] at h
    split_ifs at h with hok
    cases h
    exact .modify data hok.1 hok.2
  | logWrite p b =>
    rw [step] at h
    split_ifs at h with hok
    cases h
    exact .logWrite hok.1 hok.2
  | bwrite p b =>
    rw [step] at h
    split_ifs at h with hok
    rw [bwrite] at h
    split_ifs at h
    rw [of_iderw h]
    exact .bwrite hok.1 hok.2
  | brelse p b =>
    rw [step] at h
    split_ifs at h with hok
    rw [brelse] at h
    split_ifs at h
    cases h
    exact .brelse hok.1 hok.2
  | run p => exact of_run h
  | ideintr => exact of_ideintr h

end BioSys

/-! ## Buffers, holders and the list -/

namespace BioSys

variable {P : Type} {s s' : BioSys P} {a : BioAct P} {p q : P} {b c : Fin nbuf}

structure Sound (s : BioSys P) : Prop where
  circle : ∃ xs, s.links.Through xs ∧ ∀ b, b ∈ xs
  unique : ∀ b c, RealDev (s.buf b).dev → (s.buf b).key = (s.buf c).key → b = c
  busy : ∀ b, (s.buf b).busy = true ↔ ∃ p, s.holds p b = true
  excl : ∀ b p q, s.holds p b = true → s.holds q b = true → p = q
  real : ∀ b p, s.holds p b = true → RealDev (s.buf b).dev
  place : ∀ b p, (s.pc p).on b ≠ none → s.holds p b = true
  asked : ∀ p dev blockno, s.pc p = .bget dev blockno → RealDev dev

theorem length_lt {links : CircList (Fin nbuf)} {xs : List (Fin nbuf)} (h : links.Through xs) :
    xs.length < nbuf + 1 := by
  have := h.nodup.length_le_card
  rw [Fintype.card_fin] at this
  omega

theorem findBuf_some {dev : Word} {blockno : Word} (h : s.findBuf dev blockno = some b) :
    (s.buf b).key = (dev, blockno) := by
  have := CircList.search_some h
  simpa [CachedBuf.key] using this

theorem freeBuf_some (h : s.freeBuf = some b) :
    (s.buf b).busy = false ∧ (s.buf b).dirty = false := by
  have := CircList.search_some h
  simpa using this

/-- The scan of `bget` passes every buffer. -/
theorem Sound.findBuf_none (h : Sound s) {dev : Word} {blockno : Word}
    (hfind : s.findBuf dev blockno = none) (b : Fin nbuf) : (s.buf b).key ≠ (dev, blockno) := by
  obtain ⟨xs, hxs, hall⟩ := h.circle
  rw [findBuf, hxs.search_next _ (length_lt hxs), List.find?_eq_none] at hfind
  have := hfind b (hall b)
  simpa [CachedBuf.key] using this

theorem Sound.unheld (h : Sound s) (hbusy : (s.buf b).busy = false) (p : P) :
    s.holds p b = false := by
  by_contra hp
  have := (h.busy b).2 ⟨p, by simpa using hp⟩
  simp [hbusy] at this

/-- Only data, flags other than `B_BUSY` and the disk change. -/
theorem Sound.congr (h : Sound s) (hlinks : s'.links = s.links)
    (hkey : ∀ b, (s'.buf b).key = (s.buf b).key)
    (hbusy : ∀ b, (s'.buf b).busy = (s.buf b).busy) (hholds : s'.holds = s.holds)
    (hpc : s'.pc = s.pc) :
    Sound s' := by
  have hdev : ∀ b, (s'.buf b).dev = (s.buf b).dev := fun b => congrArg Prod.fst (hkey b)
  refine ⟨?_, fun b c hb hbc => ?_, fun b => ?_, ?_, fun b p hp => ?_, ?_, ?_⟩
  · rw [hlinks]
    exact h.circle
  · rw [hdev] at hb
    rw [hkey, hkey] at hbc
    exact h.unique b c hb hbc
  · rw [hbusy, hholds]
    exact h.busy b
  · rw [hholds]
    exact h.excl
  · rw [hholds] at hp
    rw [hdev]
    exact h.real b p hp
  · rw [hholds, hpc]
    exact h.place
  · rw [hpc]
    exact h.asked

theorem modifyBuf_buf (s : BioSys P) (b c : Fin nbuf) (f : CachedBuf → CachedBuf) :
    (s.modifyBuf b f).buf c = if c = b then f (s.buf b) else s.buf c := by
  by_cases hc : c = b <;> simp [modifyBuf, setBuf, hc]

theorem modifyBuf_key (s : BioSys P) (b c : Fin nbuf) (f : CachedBuf → CachedBuf)
    (hf : ∀ x, (f x).key = x.key) : ((s.modifyBuf b f).buf c).key = (s.buf c).key := by
  rw [modifyBuf_buf]
  split
  · next hc => rw [hf, hc]
  · rfl

variable {f : CachedBuf → CachedBuf}

theorem Sound.modifyBuf (h : Sound s) (hkey : ∀ x, (f x).key = x.key)
    (hbusy : ∀ x, (f x).busy = x.busy) : Sound (s.modifyBuf b f) := by
  refine h.congr rfl (fun c => modifyBuf_key s b c f hkey) (fun c => ?_) rfl rfl
  rw [modifyBuf_buf]
  split
  · next hc => rw [hbusy, hc]
  · rfl

theorem Sound.started (h : Sound s) (b : Fin nbuf) : Sound (s.started b) := by
  rw [BioSys.started]
  split
  · exact h.congr rfl (fun _ => rfl) (fun _ => rfl) rfl rfl
  · exact h

theorem Sound.dequeue (h : Sound s) (b : Fin nbuf) (queue : List (Fin nbuf)) :
    Sound (s.dequeue b queue) := by
  have hset : Sound (s.modifyBuf b (completed (s.disk (s.buf b).key))) :=
    h.modifyBuf (fun _ => rfl) (fun _ => rfl)
  exact hset.congr rfl (fun _ => rfl) (fun _ => rfl) rfl rfl

theorem through_binit : ∃ xs, binit.Through xs ∧ ∀ b, b ∈ xs := by
  refine ⟨_, CircList.through_empty.foldl_pushFront (List.nodup_finRange nbuf) (by simp),
    fun b => ?_⟩
  simp

theorem Sound.init (havedisk1 : Bool) (disk : Word × Word → Block) :
    Sound (init havedisk1 disk : BioSys P) := by
  refine ⟨through_binit, fun b c hb => ?_, fun b => ?_, fun b p q hp => ?_, fun b p hp => ?_,
    fun b p hp => ?_, fun p dev blockno hp => ?_⟩
  · have hno : ¬ RealDev (-1) := by decide
    exact absurd hb hno
  · simp [BioSys.init]
  · cases hp
  · cases hp
  · exact absurd rfl hp
  · cases hp

variable [DecidableEq P]

theorem setHolds_holds (s : BioSys P) (p q : P) (b c : Fin nbuf) (x : Bool) :
    (s.setHolds p b x).holds q c = if q = p ∧ c = b then x else s.holds q c := by
  by_cases hq : q = p
  · subst hq
    by_cases hc : c = b
    · simp [setHolds, hc]
    · simp [setHolds, hc]
  · simp [setHolds, hq]

section

variable (h : Sound s)

include h

theorem Sound.goto {c : BioPc} (hplace : ∀ b, c.on b ≠ none → s.holds p b = true)
    (hasked : ∀ dev blockno, c = .bget dev blockno → RealDev dev) : Sound (s.goto p c) := by
  refine ⟨h.circle, h.unique, h.busy, h.excl, h.real, fun b q hq => ?_, fun q dev blockno hq => ?_⟩
  · by_cases hqp : q = p
    · subst hqp
      exact hplace b (by simpa [BioSys.goto] using hq)
    · exact h.place b q (by simpa [BioSys.goto, hqp] using hq)
  · by_cases hqp : q = p
    · subst hqp
      exact hasked dev blockno (by simpa [BioSys.goto] using hq)
    · exact h.asked q dev blockno (by simpa [BioSys.goto, hqp] using hq)

theorem Sound.goto_idle (p : P) : Sound (s.goto p .idle) :=
  h.goto (fun _ hb => absurd rfl hb) (fun _ _ hb => by cases hb)

theorem Sound.requested {c : BioPc} (hplace : ∀ b, c.on b ≠ none → s.holds p b = true)
    (hasked : ∀ dev blockno, c = .bget dev blockno → RealDev dev) : Sound (s.requested p b c) := by
  have hqueued : Sound { s with idequeue := s.idequeue ++ [b] } :=
    h.congr rfl (fun _ => rfl) (fun _ => rfl) rfl rfl
  have henqueue : Sound (s.enqueue p b c) := hqueued.goto hplace hasked
  rw [BioSys.requested]
  split
  · exact henqueue.started b
  · exact henqueue

/-- `bget` returns a buffer that was free, for a block that no other buffer is for. -/
theorem Sound.take (hfree : (s.buf b).busy = false)
    (hbusy : (f (s.buf b)).busy = true) (hreal : RealDev (f (s.buf b)).dev)
    (hnew : ∀ c, c ≠ b → (s.buf c).key ≠ (f (s.buf b)).key) : Sound (s.take p b f) := by
  have hbuf : ∀ c, (s.take p b f).buf c = if c = b then f (s.buf b) else s.buf c :=
    fun c => modifyBuf_buf s b c f
  have hholds : ∀ q c, (s.take p b f).holds q c = if q = p ∧ c = b then true else s.holds q c :=
    fun q c => setHolds_holds (s.modifyBuf b f) p q b c true
  have hpc : ∀ q, (s.take p b f).pc q = if q = p then .got b else s.pc q := by
    intro q
    by_cases hq : q = p <;> simp [BioSys.take, BioSys.goto, setHolds, BioSys.modifyBuf, setBuf, hq]
  refine ⟨h.circle, fun c d hc hcd => ?_, fun c => ?_, fun c q r hq hr => ?_, fun c q hq => ?_,
    fun c q hq => ?_, fun q dev blockno hq => ?_⟩
  · rw [hbuf] at hc hcd
    rw [hbuf] at hcd
    by_cases hcb : c = b
    · by_cases hdb : d = b
      · rw [hcb, hdb]
      · rw [if_pos hcb, if_neg hdb] at hcd
        exact absurd hcd.symm (hnew d hdb)
    · rw [if_neg hcb] at hc hcd
      by_cases hdb : d = b
      · rw [if_pos hdb] at hcd
        exact absurd hcd (hnew c hcb)
      · rw [if_neg hdb] at hcd
        exact h.unique c d hc hcd
  · simp only [hbuf, hholds]
    by_cases hcb : c = b
    · simp only [hcb, if_true, hbusy, and_true, true_iff]
      exact ⟨p, if_pos rfl⟩
    · simpa [hcb] using h.busy c
  · simp only [hholds] at hq hr
    by_cases hcb : c = b
    · subst hcb
      have hnone := h.unheld hfree
      have hqp : q = p := by
        by_contra hne
        simp [hne, hnone] at hq
      have hrp : r = p := by
        by_contra hne
        simp [hne, hnone] at hr
      rw [hqp, hrp]
    · simp only [hcb, and_false, if_false] at hq hr
      exact h.excl c q r hq hr
  · rw [hholds] at hq
    rw [hbuf]
    by_cases hcb : c = b
    · rwa [if_pos hcb]
    · rw [if_neg hcb]
      exact h.real c q (by simpa [hcb] using hq)
  · rw [hpc] at hq
    rw [hholds]
    by_cases hqp : q = p
    · rw [if_pos hqp] at hq
      have hcb : b = c := by
        by_contra hne
        exact hq (if_neg hne)
      rw [if_pos ⟨hqp, hcb.symm⟩]
    · rw [if_neg hqp] at hq
      rw [if_neg (fun e => hqp e.1)]
      exact h.place c q hq
  · rw [hpc] at hq
    by_cases hqp : q = p
    · simp [hqp] at hq
    · rw [if_neg hqp] at hq
      exact h.asked q dev blockno hq

theorem Sound.released (hpc : s.pc p = .idle) (hp : s.holds p b = true) :
    Sound (s.released p b) := by
  let free : CachedBuf → CachedBuf := ({ · with busy := false })
  have hbuf : ∀ c, (s.released p b).buf c = if c = b then free (s.buf b) else s.buf c :=
    fun c => modifyBuf_buf s b c free
  have hholds : ∀ q c, (s.released p b).holds q c = if q = p ∧ c = b then false else s.holds q c :=
    fun q c => setHolds_holds s p q b c false
  have hkey : ∀ c, ((s.released p b).buf c).key = (s.buf c).key :=
    fun c => modifyBuf_key s b c free fun _ => rfl
  have hdev : ∀ c, ((s.released p b).buf c).dev = (s.buf c).dev :=
    fun c => congrArg Prod.fst (hkey c)
  have hkept : ∀ q c, (s.released p b).holds q c = true → s.holds q c = true := by
    intro q c hq
    rw [hholds] at hq
    split_ifs at hq
    exact hq
  refine ⟨?_, fun c d hc hcd => ?_, fun c => ?_, fun c q r hq hr => ?_, fun c q hq => ?_,
    fun c q hq => ?_, h.asked⟩
  · obtain ⟨xs, hxs, hall⟩ := h.circle
    obtain ⟨l, r, rfl⟩ := List.append_of_mem (hall b)
    refine ⟨b :: (l ++ r), hxs.toFront, fun c => ?_⟩
    have := hall c
    simp only [List.mem_append, List.mem_cons] at this ⊢
    tauto
  · rw [hkey, hkey] at hcd
    exact h.unique c d (hdev c ▸ hc) hcd
  · rw [hbuf]
    by_cases hcb : c = b
    · rw [if_pos hcb, hcb]
      refine ⟨fun e => absurd e Bool.false_ne_true, ?_⟩
      rintro ⟨q, hq⟩
      have hqp : q = p := h.excl b q p (hkept q b hq) hp
      rw [hholds, if_pos ⟨hqp, rfl⟩] at hq
      cases hq
    · rw [if_neg hcb, h.busy c]
      simp only [hholds, hcb, and_false, if_false]
  · exact h.excl c q r (hkept q c hq) (hkept r c hr)
  · rw [hdev]
    exact h.real c q (hkept q c hq)
  · have hq' : (s.pc q).on c ≠ none := hq
    rw [hholds, if_neg]
    · exact h.place c q hq'
    · rintro ⟨rfl, -⟩
      exact hq' (by rw [hpc]; rfl)

theorem Sound.step (hs : BioSys.step a s = .ok s') : Sound s' := by
  cases of_step hs with
  | @call p dev blockno hpc hdev =>
    have hset : Sound { s with args := update s.args p (dev, blockno) } :=
      h.congr rfl (fun _ => rfl) (fun _ => rfl) rfl rfl
    refine hset.goto (fun b hb => absurd rfl hb) fun dev' blockno' heq => ?_
    cases heq
    exact hdev
  | @modify p b data hpc hb =>
    have hset : Sound (s.modifyBuf b ({ · with data := data })) :=
      h.modifyBuf (fun _ => rfl) (fun _ => rfl)
    exact hset.congr rfl (fun _ => rfl) (fun _ => rfl) rfl rfl
  | logWrite hpc hb => exact h.modifyBuf (fun _ => rfl) (fun _ => rfl)
  | @bwrite p b hpc hb =>
    have hset : Sound (s.modifyBuf b ({ · with dirty := true })) :=
      h.modifyBuf (fun _ => rfl) (fun _ => rfl)
    have hset' : Sound (s.toWrite b) := hset.congr rfl (fun _ => rfl) (fun _ => rfl) rfl rfl
    refine hset'.requested (fun c hc => ?_) (fun _ _ heq => by cases heq)
    obtain rfl : b = c := by
      by_contra hne
      exact hc (if_neg hne)
    exact hb
  | brelse hpc hb => exact h.released hpc hb
  | @hit p b dev blockno hpc hfind hbusy =>
    have hkey := findBuf_some hfind
    have hdev : (s.buf b).dev = dev := congrArg Prod.fst hkey
    have hreal : RealDev (s.buf b).dev := hdev ▸ h.asked p dev blockno hpc
    exact h.take hbusy rfl hreal fun c hc heq => hc (h.unique b c hreal heq.symm).symm
  | recycle hpc hfind hfree =>
    exact h.take (freeBuf_some hfree).1 rfl (h.asked _ _ _ hpc) fun c _ => h.findBuf_none hfind c
  | @request p b hpc hvalid =>
    refine h.requested (fun c hc => h.place c p ?_) (fun _ _ heq => by cases heq)
    obtain rfl : b = c := by
      by_contra hne
      exact hc (if_neg hne)
    rw [hpc]
    exact fun e => by simp [BioPc.on] at e
  | done hpc hvalid hclean => exact h.goto_idle _
  | spurious hqueue => exact h
  | last hqueue => exact h.dequeue _ _
  | next hqueue => exact (h.dequeue _ _).started _

end

/-! ## What becomes of one buffer -/

/-- The action sets no `B_DIRTY`. -/
def Quiet : BioAct P → Prop
  | .logWrite .. | .bwrite .. => False
  | .bread .. | .modify .. | .brelse .. | .run _ | .ideintr => True

/-- The buffer stays the buffer of its block, or it was free and clean and is recycled. -/
def Kept (a : BioAct P) (x y : CachedBuf) : Prop :=
  (y.key = x.key ∧ (Quiet a → y.dirty = true → x.dirty = true)) ∨
    (x.busy = false ∧ x.dirty = false ∧ y.dirty = false)

section

omit [DecidableEq P]

theorem Kept.refl (a : BioAct P) (x : CachedBuf) : Kept a x x := .inl ⟨rfl, fun _ => id⟩

theorem Kept.modifyBuf (f : CachedBuf → CachedBuf) (hf : Kept a (s.buf c) (f (s.buf c)))
    (b : Fin nbuf) : Kept a (s.buf b) ((s.modifyBuf c f).buf b) := by
  rw [modifyBuf_buf]
  split
  · next hbc => rwa [hbc]
  · exact .refl a _

theorem started_same (s : BioSys P) (b : Fin nbuf) :
    (s.started b).buf = s.buf ∧ (s.started b).idequeue = s.idequeue ∧
    (s.started b).left = s.left := by
  rw [started]
  split <;> exact ⟨rfl, rfl, rfl⟩

end

theorem requested_same (s : BioSys P) (p : P) (b : Fin nbuf) (pc : BioPc) :
    (s.requested p b pc).buf = s.buf ∧ (s.requested p b pc).idequeue = s.idequeue ++ [b] ∧
      (s.requested p b pc).left = s.left := by
  rw [requested]
  split
  · exact started_same (s.enqueue p b pc) b
  · exact ⟨rfl, rfl, rfl⟩

theorem Effect.kept (h : Effect s a s') (b : Fin nbuf) : Kept a (s.buf b) (s'.buf b) := by
  cases h with
  | call | done | spurious => exact .refl _ _
  | modify data => exact Kept.modifyBuf ({ · with data := data }) (.inl ⟨rfl, fun _ => id⟩) b
  | logWrite => exact Kept.modifyBuf ({ · with dirty := true }) (.inl ⟨rfl, False.elim⟩) b
  | bwrite =>
    rw [(requested_same _ _ _ _).1]
    exact Kept.modifyBuf ({ · with dirty := true }) (.inl ⟨rfl, False.elim⟩) b
  | brelse => exact Kept.modifyBuf ({ · with busy := false }) (.inl ⟨rfl, fun _ => id⟩) b
  | hit => exact Kept.modifyBuf ({ · with busy := true }) (.inl ⟨rfl, fun _ => id⟩) b
  | @recycle p c dev blockno hpc hfind hfree =>
    obtain ⟨hbusy, hclean⟩ := freeBuf_some hfree
    exact Kept.modifyBuf (⟨dev, blockno, true, false, false, ·.data⟩) (.inr ⟨hbusy, hclean, rfl⟩) b
  | request =>
    rw [(requested_same _ _ _ _).1]
    exact .refl _ _
  | @last c =>
    refine Kept.modifyBuf (completed (s.disk (s.buf c).key)) (.inl ⟨rfl, fun _ hd => ?_⟩) b
    cases hd
  | @next c d queue =>
    rw [(started_same _ _).1]
    refine Kept.modifyBuf (completed (s.disk (s.buf c).key)) (.inl ⟨rfl, fun _ hd => ?_⟩) b
    cases hd

theorem Effect.pinned (h : Effect s a s') (hdirty : (s.buf b).dirty = true) :
    (s'.buf b).key = (s.buf b).key := by
  obtain ⟨hkey, -⟩ | ⟨-, hclean, -⟩ := h.kept b
  · exact hkey
  · exact absurd (hclean.symm.trans hdirty) Bool.false_ne_true

/-! ## Where a process stands -/

/-- What `bread` that has been called for block `k` looks at. -/
def Asks (s : BioSys P) (p : P) (k : Word × Word) : Prop :=
  match s.pc p with
  | .idle | .write _ => True
  | .bget dev blockno => (dev, blockno) = k
  | .got b | .read b => (s.buf b).key = k

omit [DecidableEq P] in
theorem started_pc (s : BioSys P) (b : Fin nbuf) : (s.started b).pc = s.pc := by
  rw [started]
  split <;> rfl

theorem requested_pc (s : BioSys P) (p q : P) (b : Fin nbuf) (pc : BioPc) :
    (s.requested p b pc).pc q = if q = p then pc else s.pc q := by
  have henqueue : (s.enqueue p b pc).pc q = if q = p then pc else s.pc q := update_apply ..
  rw [requested]
  split
  · rw [started_pc, henqueue]
  · exact henqueue

/-- What an action can do to where process `q` stands. -/
inductive Move (s s' : BioSys P) (a : BioAct P) (q : P) : Prop
  | stays (hpc : s'.pc q = s.pc q)
  | calls (dev blockno : Word) (hidle : s.pc q = .idle) (ha : a = .bread q dev blockno)
      (hpc : s'.pc q = .bget dev blockno)
  | writes (b : Fin nbuf) (hidle : s.pc q = .idle) (hpc : s'.pc q = .write b)
  | gets (b : Fin nbuf) (dev blockno : Word) (hbget : s.pc q = .bget dev blockno)
      (hpc : s'.pc q = .got b) (hkey : (s'.buf b).key = (dev, blockno))
  | waits (b : Fin nbuf) (hgot : s.pc q = .got b) (hpc : s'.pc q = .read b)
  | returns (b : Fin nbuf) (place : BufPlace) (hon : (s.pc q).on b = some place)
      (hclean : place = .got ∨ (s.buf b).dirty = false) (hpc : s'.pc q = .idle)

theorem Effect.move (h : Effect s a s') (q : P) : Move s s' a q := by
  have hgoto : ∀ (t : BioSys P) (p : P) (pc : BioPc), q ≠ p → (t.goto p pc).pc q = t.pc q :=
    fun t p pc hq => update_of_ne hq ..
  cases h with
  | modify | logWrite | brelse | spurious | last => exact .stays rfl
  | next => exact .stays (congrFun (started_pc ..) q)
  | @call p dev blockno hpc hdev =>
    by_cases hq : q = p
    · subst hq
      exact .calls dev blockno hpc rfl (update_self ..)
    · exact .stays (hgoto _ _ _ hq)
  | @bwrite p b hpc hb =>
    have hpc' := requested_pc (s.toWrite b) p q b (.write b)
    by_cases hq : q = p
    · rw [if_pos hq] at hpc'
      exact .writes b (hq ▸ hpc) hpc'
    · rw [if_neg hq] at hpc'
      exact .stays hpc'
  | @hit p b dev blockno hpc hfind hbusy =>
    by_cases hq : q = p
    · subst hq
      refine .gets b dev blockno hpc (update_self ..) ?_
      rw [← findBuf_some hfind]
      exact modifyBuf_key s b b ({ · with busy := true }) fun _ => rfl
    · exact .stays (hgoto _ _ _ hq)
  | @recycle p b dev blockno hpc hfind hfree =>
    by_cases hq : q = p
    · subst hq
      refine .gets b dev blockno hpc (update_self ..) ?_
      exact congrArg CachedBuf.key (update_self b _ s.buf)
    · exact .stays (hgoto _ _ _ hq)
  | @request p b hpc hvalid =>
    have hpc' := requested_pc s p q b (.read b)
    by_cases hq : q = p
    · rw [if_pos hq] at hpc'
      exact .waits b (hq ▸ hpc) hpc'
    · rw [if_neg hq] at hpc'
      exact .stays hpc'
  | @done p b place hpc hvalid hclean =>
    by_cases hq : q = p
    · subst hq
      exact .returns b place hpc hclean (update_self ..)
    · exact .stays (hgoto _ _ _ hq)

omit [DecidableEq P] in
theorem Sound.busy_of_on (h : Sound s) {place : BufPlace} (hon : (s.pc p).on b = some place) :
    (s.buf b).busy = true :=
  (h.busy b).2 ⟨p, h.place b p (by rw [hon]; simp)⟩

/-- A buffer that is held stays the buffer of its block. -/
theorem Effect.key_of_busy (h : Effect s a s') (hbusy : (s.buf b).busy = true) :
    (s'.buf b).key = (s.buf b).key := by
  obtain ⟨hkey, -⟩ | ⟨hfree, -⟩ := h.kept b
  · exact hkey
  · exact absurd (hfree.symm.trans hbusy) Bool.false_ne_true

theorem Asks.step {k : Word × Word} (h : Asks s p k) (hsound : Sound s) (he : Effect s a s')
    (hcall : ∀ dev blockno, a = .bread p dev blockno → (dev, blockno) = k) : Asks s' p k := by
  have hkey : ∀ b place, (s.pc p).on b = some place → (s.buf b).key = k → (s'.buf b).key = k :=
    fun b place hon hk => (he.key_of_busy (hsound.busy_of_on hon)).trans hk
  rw [Asks] at h ⊢
  cases he.move p with
  | stays hpc =>
    rw [hpc]
    cases hs : s.pc p with
    | idle | write => trivial
    | bget dev blockno =>
      rw [hs] at h
      exact h
    | got b =>
      rw [hs] at h
      exact hkey b .got (by rw [hs]; exact if_pos rfl) h
    | read b =>
      rw [hs] at h
      exact hkey b .read (by rw [hs]; exact if_pos rfl) h
  | calls dev blockno hidle ha hpc =>
    rw [hpc]
    exact hcall dev blockno ha
  | writes b hidle hpc => rw [hpc]; trivial
  | gets b dev blockno hbget hpc hkey' =>
    rw [hbget] at h
    rw [hpc]
    exact hkey'.trans h
  | waits b hgot hpc =>
    rw [hgot] at h
    rw [hpc]
    exact hkey b .got (by rw [hgot]; exact if_pos rfl) h
  | returns b place hon hclean hpc => rw [hpc]; trivial

/-- The arguments of a process are those of its last `bread`. -/
theorem Effect.args (he : Effect s a s') (q : P) :
    (s'.args q = s.args q ∧ ∀ dev blockno, a ≠ .bread q dev blockno) ∨
      ∃ dev blockno, s'.args q = (dev, blockno) ∧ s'.pc q = .bget dev blockno := by
  have hstarted : ∀ (t : BioSys P) b, (t.started b).args = t.args := by
    intro t b
    rw [started]
    split <;> rfl
  have hrequested : ∀ (t : BioSys P) p b pc, (t.requested p b pc).args = t.args := by
    intro t p b pc
    rw [requested]
    split
    · exact hstarted _ _
    · rfl
  cases he with
  | modify | logWrite | brelse | hit | recycle | done | spurious | last => exact .inl ⟨rfl, by simp⟩
  | bwrite | request => exact .inl ⟨congrFun (hrequested ..) q, by simp⟩
  | next => exact .inl ⟨congrFun (hstarted ..) q, by simp⟩
  | @call p dev blockno =>
    by_cases hq : q = p
    · subst hq
      exact .inr ⟨dev, blockno, update_self .., update_self ..⟩
    · exact .inl ⟨update_of_ne hq .., by simp [Ne.symm hq]⟩

/-- A process in `bread` goes on looking at the block of its arguments. -/
theorem Asks.args_step (h : Asks s p (s.args p)) (hsound : Sound s) (he : Effect s a s') :
    Asks s' p (s'.args p) := by
  obtain ⟨hsame, ha⟩ | ⟨dev, blockno, hargs, hpc⟩ := he.args p
  · rw [hsame]
    exact h.step hsound he fun dev blockno hcall => absurd hcall (ha dev blockno)
  · rw [hargs, Asks, hpc]

end BioSys

end Xv6
