import Xv6.File.PipeLock

set_option autoImplicit false

/-! # A pipe is a lossless bounded FIFO

The bytes that `pipewrite` has stored are those that `piperead` has returned, followed by those that
a `piperead` has copied and not yet returned, followed by those in the buffer. The buffer is a ring
with free-running 32-bit counters (`Ring`), and 512 divides `2 ^ 32`. That a `piperead` which finds
nothing has seen the write end closed rests on the lock: between its two loops it does not release
it. -/

namespace Xv6

open Transition

namespace Pipe

variable {q : Pipe}

theorem full_iff : q.full = true ↔ Ring.count q.nread q.nwrite = pipeSize := by
  rw [full, beq_iff_eq]
  exact Ring.eq_add_iff_count (by decide) q.nread q.nwrite

theorem empty_iff : q.empty = true ↔ q.nread = q.nwrite := by simp [empty]

theorem buffered_eq_nil_iff : q.buffered = [] ↔ q.nread = q.nwrite := by
  rw [← List.length_eq_zero_iff, buffered, Ring.length_contents, Ring.count_eq_zero]

/-- No more bytes are stored than there is room for. -/
def Fits (q : Pipe) : Prop := Ring.count q.nread q.nwrite ≤ pipeSize

theorem Fits.room (h : q.Fits) (hfull : ¬q.full = true) : Ring.count q.nread q.nwrite < pipeSize :=
  lt_of_le_of_ne h fun he => hfull (full_iff.2 he)

theorem buffered_store (h : q.Fits) (hfull : ¬q.full = true) (b : Byte) :
    (q.store b).buffered = q.buffered ++ [b] :=
  Ring.contents_store (by decide) (by decide) (h.room hfull) q.data b

theorem Fits.store (h : q.Fits) (hfull : ¬q.full = true) (b : Byte) : (q.store b).Fits := by
  have hroom := h.room hfull
  have hcount : Ring.count q.nread (q.nwrite + 1) = Ring.count q.nread q.nwrite + 1 :=
    Ring.count_stored (lt_of_le_of_lt hroom (by decide))
  show Ring.count q.nread (q.nwrite + 1) ≤ pipeSize
  rw [hcount]
  exact hroom

theorem buffered_take (hempty : ¬q.empty = true) : q.buffered = q.take.1 :: q.take.2.buffered :=
  Ring.contents_take (fun he => hempty (empty_iff.2 he)) q.data

theorem Fits.take (h : q.Fits) (hempty : ¬q.empty = true) : q.take.2.Fits := by
  have hcount := Ring.count_taken (fun he => hempty (empty_iff.2 he) : q.nread ≠ q.nwrite)
  show Ring.count (q.nread + 1) q.nwrite ≤ pipeSize
  have : Ring.count q.nread q.nwrite ≤ pipeSize := h
  omega

@[simp] theorem shut_buffered (w : Bool) : (q.shut w).buffered = q.buffered := by cases w <;> rfl

theorem Fits.shut (h : q.Fits) (w : Bool) : (q.shut w).Fits := by cases w <;> exact h

/-- A cell with a buffered byte keeps it when another byte is stored. -/
theorem data_store (h : q.Fits) (hfull : ¬q.full = true) (b : Byte) {k : ℕ}
    (hk : k < Ring.count q.nread q.nwrite) :
    (q.store b).data (Ring.cell (q.nread + BitVec.ofNat 32 k)) =
      q.data (Ring.cell (q.nread + BitVec.ofNat 32 k)) :=
  Function.update_of_ne (Ring.cell_ne_of_stored (by decide) (h.room hfull) hk) ..

end Pipe

/-- The byte that an event stores. -/
def PipeEvent.put {P : Type} : PipeEvent P → List Byte
  | .stored _ b => [b]
  | .wrote .. | .got .. | .gaveUp .. => []

/-- The bytes that an event returns. -/
def PipeEvent.out {P : Type} : PipeEvent P → List Byte
  | .got _ _ addr => addr
  | .stored .. | .wrote .. | .gaveUp .. => []

def PipePc.copied : PipePc → List Byte
  | .holds (.copy _ addr) => addr
  | _ => []

theorem PipePc.copied_of_ne {c : PipeCall} (h : ∀ n addr, c ≠ .copy n addr) :
    (PipePc.holds c).copied = [] := by
  cases c with
  | copy n addr => exact absurd rfl (h n addr)
  | write addr n i | read n | close w => rfl

namespace PipeSys

variable {P : Type}

/-! ## The bytes -/

/-- The bytes that `pipewrite` has stored. -/
def stored (s : PipeSys P) : List Byte := s.history.flatMap PipeEvent.put

/-- The bytes that `piperead` has returned. -/
def returned (s : PipeSys P) : List Byte := s.history.flatMap PipeEvent.out

/-- The bytes that the process with the lock has copied and not yet returned. -/
def copying (s : PipeSys P) : List Byte :=
  match s.lock with
  | none => []
  | some p => (s.pc p).copied

variable {s s' : PipeSys P} {es : List (PipeEvent P)}

theorem stored_append (h : s'.history = s.history ++ es) :
    s'.stored = s.stored ++ es.flatMap PipeEvent.put := by
  rw [stored, h, List.flatMap_append, stored]

theorem returned_append (h : s'.history = s.history ++ es) :
    s'.returned = s.returned ++ es.flatMap PipeEvent.out := by
  rw [returned, h, List.flatMap_append, returned]

theorem silent_history (h : s'.history = s.history ++ es)
    (hes : ∀ e ∈ es, e.silent) : s'.stored = s.stored ∧ s'.returned = s.returned := by
  have hnil : ∀ e ∈ es, e.put = [] ∧ e.out = [] := by
    intro e he
    have := hes e he
    cases e with
    | stored p b | got p n addr => cases this
    | wrote p n r | gaveUp p n => exact ⟨rfl, rfl⟩
  rw [stored_append h, returned_append h, List.flatMap_eq_nil_iff.2 fun e he => (hnil e he).1,
    List.flatMap_eq_nil_iff.2 fun e he => (hnil e he).2]
  simp

theorem same_history (h : s'.history = s.history) :
    s'.stored = s.stored ∧ s'.returned = s.returned := by
  rw [stored, stored, returned, returned, h]
  exact ⟨rfl, rfl⟩

variable {p : P}

theorem copying_of_lock (h : s.lock = some p) :
    s.copying = (s.pc p).copied := by
  simp [copying, h]

theorem copying_of_free (h : s.lock = none) : s.copying = [] := by
  simp [copying, h]

/-- The bytes being copied do not change when a process moves that does not hold the lock. -/
theorem Others.copying (h : Others p s s') (hlock : s'.lock = s.lock)
    (hp : s.lock ≠ some p) : s'.copying = s.copying := by
  cases hl : s.lock with
  | none => rw [copying_of_free (hlock.trans hl), copying_of_free hl]
  | some r =>
    have hr : r ≠ p := fun he => hp (he ▸ hl)
    rw [copying_of_lock (hlock.trans hl), copying_of_lock hl]
    rcases h r hr with heq | ⟨chan, c', hpc, hpc'⟩
    · rw [heq]
    · rw [hpc, hpc']
      rfl

/-- What was stored is what was returned, what is being copied and what is buffered. -/
structure Books (s : PipeSys P) : Prop where
  live : ∀ q, s.page = some q → q.Fits ∧ s.stored = s.returned ++ s.copying ++ q.buffered
  ahead : s.returned ++ s.copying <+: s.stored

variable (data : Fin pipeSize → Byte)

theorem Books.init : Books (init data : PipeSys P) where
  live q hq := by
    cases hq
    refine ⟨by simp [Pipe.Fits, Pipe.alloc], ?_⟩
    rw [Pipe.buffered_eq_nil_iff.2 rfl]
    rfl
  ahead := List.nil_prefix

theorem Books.congr (h : Books s) (hpage : s'.page = s.page) (hstored : s'.stored = s.stored)
    (hreturned : s'.returned ++ s'.copying = s.returned ++ s.copying) : Books s' where
  live q hq := by
    rw [hpage] at hq
    rw [hstored, hreturned]
    exact h.live q hq
  ahead := by
    rw [hstored, hreturned]
    exact h.ahead

/-- With the page `q` before and `q'` after the action. -/
theorem Books.of_page {q : Pipe} (hpage : s.page = some q) (hfits : q.Fits)
    (hbytes : s.stored = s.returned ++ s.copying ++ q.buffered) : Books s where
  live q' hq' := by
    cases hpage.symm.trans hq'
    exact ⟨hfits, hbytes⟩
  ahead := ⟨q.buffered, hbytes.symm⟩

theorem Books.step (h : Books s) (hl : Locked s) (hl' : Locked s')
    (he : Effect p s s') (ho : Others p s s') : Books s' := by
  cases he with
  | calls c w hpc hpc' hlock hsame =>
    obtain ⟨hst, hret⟩ := same_history hsame.history
    refine h.congr hsame.page hst ?_
    rw [hret, ho.copying hlock (hl.not_lock (by simp [hpc]))]
  | leaves w hpc hpc' hlock hpage hhistory =>
    obtain ⟨hst, hret⟩ := same_history hhistory
    refine h.congr hpage hst ?_
    rw [hret, ho.copying hlock (hl.not_lock (by simp [hpc]))]
  | acquires c hpc hpc' hlock hlock' hsame =>
    obtain ⟨hst, hret⟩ := same_history hsame.history
    refine h.congr hsame.page hst ?_
    rw [hret, copying_of_lock hlock', hpc', PipePc.copied_of_ne (hl.rests p c (.inl hpc)),
      copying_of_free hlock]
  | pauses c w es hpc hpc' hlock' hpage hheld hhistory hes huses hcopy =>
    obtain ⟨hst, hret⟩ := silent_history hhistory hes
    refine h.congr hpage hst ?_
    rw [hret, copying_of_free hlock', copying_of_lock (hl.holder hpc), hpc,
      PipePc.copied_of_ne hcopy]
  | stores addr n i b q hpc hpc' hlock hpage hpage' hheld hhistory hfull =>
    obtain ⟨hfits, hbytes⟩ := h.live q hpage
    have hcopy : s'.copying = s.copying := by
      rw [copying_of_lock (hl'.holder hpc'), copying_of_lock (hl.holder hpc), hpc, hpc']
      rfl
    refine .of_page hpage' (hfits.store hfull b) ?_
    rw [stored_append hhistory, returned_append hhistory, hcopy,
      Pipe.buffered_store hfits hfull, hbytes]
    simp [PipeEvent.put, PipeEvent.out]
  | turns n q hpc hpc' hlock hsame =>
    obtain ⟨hst, hret⟩ := same_history hsame.history
    refine h.congr hsame.page hst ?_
    rw [hret, copying_of_lock (hl'.holder hpc'), copying_of_lock (hl.holder hpc), hpc, hpc']
    rfl
  | takes n addr q hpc hpc' hlock hpage hpage' hheld hhistory hempty =>
    obtain ⟨hfits, hbytes⟩ := h.live q hpage
    obtain ⟨hst, hret⟩ := same_history hhistory
    refine .of_page hpage' (hfits.take hempty) ?_
    rw [hst, hret, hbytes, copying_of_lock (hl'.holder hpc'), copying_of_lock (hl.holder hpc),
      hpc, hpc', Pipe.buffered_take hempty]
    simp [PipePc.copied]
  | returns n addr q hpc hpc' hlock' hpage hpage' hheld hhistory hend =>
    have hst : s'.stored = s.stored := by
      rw [stored_append hhistory]
      simp [PipeEvent.put]
    refine h.congr hpage' hst ?_
    rw [returned_append hhistory, copying_of_free hlock', copying_of_lock (hl.holder hpc), hpc]
    simp [PipeEvent.out, PipePc.copied]
  | shuts w q hpc hpc' hlock' hpage hpage' hheld hhistory =>
    obtain ⟨hfits, hbytes⟩ := h.live q hpage
    obtain ⟨hst, hret⟩ := same_history hhistory
    have hcopy : s.copying = [] := by
      rw [copying_of_lock (hl.holder hpc), hpc]
      rfl
    rw [hcopy, ← copying_of_free hlock', ← hret, ← hst] at hbytes
    rcases hpage' with ⟨hpage', -⟩ | ⟨hpage', -⟩
    · exact .of_page hpage' (hfits.shut w) (by rw [hbytes, Pipe.shut_buffered])
    · exact ⟨fun q hq => (by cases hpage'.symm.trans hq), q.buffered, hbytes.symm⟩
  | killed hpc hlock hsame =>
    obtain ⟨hst, hret⟩ := same_history hsame.history
    refine h.congr hsame.page hst ?_
    rw [hret]
    congr 1
    rcases hpc with heq | ⟨chan, c, hpc, hpc'⟩
    · by_cases hp : s.lock = some p
      · rw [copying_of_lock (hlock.trans hp), copying_of_lock hp, heq]
      · exact ho.copying hlock hp
    · exact ho.copying hlock (hl.not_lock (by simp [hpc]))

/-! ## A reader that finds nothing -/

/-- A reader that has copied nothing yet has bytes to copy, or the write end is closed. -/
def Waited (s : PipeSys P) : Prop :=
  ∀ p n q, s.pc p = .holds (.copy n []) → s.page = some q → ¬(q.empty = true ∧ q.writeopen = true)

theorem Waited.init : Waited (init data : PipeSys P) := by
  intro p n q hpc
  cases hpc

/-- The page changes only under the lock, so nobody else is copying. -/
theorem Waited.inside {c : PipeCall} (hl : Locked s) (ho : Others p s s')
    (hpc : s.pc p = .holds c) (hp : ∀ n, s'.pc p ≠ .holds (.copy n [])) : Waited s' := by
  intro r n q hr
  by_cases hrp : r = p
  · exact absurd (hrp ▸ hr) (hp n)
  · have := (hl.holder ((ho.holds hrp _).1 hr)).symm.trans (hl.holder hpc)
    exact absurd (Option.some.inj this) hrp

theorem Waited.outside (h : Waited s) (ho : Others p s s')
    (hpage : s'.page = s.page) (hp : ∀ n, s'.pc p = .holds (.copy n []) →
      s.pc p = .holds (.copy n [])) :
    Waited s' := by
  intro r n q hr hq
  rw [hpage] at hq
  by_cases hrp : r = p
  · subst hrp
    exact h r n q (hp n hr) hq
  · exact h r n q ((ho.holds hrp _).1 hr) hq

theorem Waited.step (h : Waited s) (hl : Locked s) (he : Effect p s s')
    (ho : Others p s s') : Waited s' := by
  cases he with
  | calls c w hpc hpc' hlock hsame => exact h.outside ho hsame.page (by simp [hpc'])
  | leaves w hpc hpc' hlock hpage => exact h.outside ho hpage (by simp [hpc'])
  | acquires c hpc hpc' hlock hlock' hsame =>
    refine h.outside ho hsame.page fun n hn => ?_
    rw [hpc'] at hn
    cases hn
    exact absurd rfl (hl.rests p _ (.inl hpc) n [])
  | pauses c w es hpc hpc' =>
    exact .inside hl ho hpc (by rcases hpc' with hpc' | ⟨chan, hpc'⟩ <;> simp [hpc'])
  | stores addr n i b q hpc hpc' => exact .inside hl ho hpc (by simp [hpc'])
  | turns n q hpc hpc' hlock hsame hpage hexit =>
    intro r m q' hr hq'
    rw [hsame.page] at hq'
    cases hpage.symm.trans hq'
    exact hexit
  | takes n addr q hpc hpc' => exact .inside hl ho hpc (by simp [hpc'])
  | returns n addr q hpc hpc' => exact .inside hl ho hpc (by simp [hpc'])
  | shuts w q hpc hpc' => exact .inside hl ho hpc (by simp [hpc'])
  | killed hpc hlock hsame =>
    refine h.outside ho hsame.page fun n hn => ?_
    rcases hpc with heq | ⟨chan, c, hpc, hpc'⟩
    · rwa [heq] at hn
    · rw [hpc'] at hn
      cases hn

/-! ## The result -/

/-- What holds of the pipe between any two actions, and of any action. -/
structure Lossless [DecidableEq P] [Fintype P] (s : PipeSys P) : Prop where
  /-- The bytes returned are a beginning of the bytes stored. -/
  fifo : s.returned <+: s.stored
  /-- What is missing is in the hands of the reader that holds the lock, if there is one, and in the
      buffer. -/
  missing : ∀ q, s.page = some q → s.stored = s.returned ++ s.copying ++ q.buffered
  bounded : ∀ q, s.page = some q →
    q.buffered.length = (q.nwrite - q.nread).toNat ∧ (q.nwrite - q.nread).toNat ≤ pipeSize
  copying : s.lock = none → s.copying = []
  /-- No action overwrites a byte that is buffered. -/
  kept : ∀ a s' q q', step a s = .ok s' → s.page = some q → s'.page = some q' →
    ∀ k < (q.nwrite - q.nread).toNat, q'.data (Ring.cell (q.nread + BitVec.ofNat 32 k)) =
      q.data (Ring.cell (q.nread + BitVec.ofNat 32 k))
  /-- A `piperead` of at least one byte returns 0 only from an empty buffer whose write end is
      closed. -/
  zero : ∀ a s' p n, step a s = .ok s' → s'.history = s.history ++ [.got p n []] → 0 < n →
    ∃ q, s.page = some q ∧ q.buffered = [] ∧ q.writeopen = false
  /-- No call touches a page that is freed. -/
  alive : ∀ a, step a s ≠ .error .usedAfterFree

theorem data_kept {q q' : Pipe} (hb : Books s) (he : Effect p s s')
    (hq : s.page = some q) (hq' : s'.page = some q') {k : ℕ}
    (hk : k < Ring.count q.nread q.nwrite) :
    q'.data (Ring.cell (q.nread + BitVec.ofNat 32 k)) =
      q.data (Ring.cell (q.nread + BitVec.ofNat 32 k)) := by
  have hsame : s'.page = s.page → q' = q := by
    intro h
    rw [h, hq] at hq'
    exact (Option.some.inj hq').symm
  cases he with
  | calls c w hpc hpc' hlock h => rw [hsame h.page]
  | leaves w hpc hpc' hlock h => rw [hsame h]
  | acquires c hpc hpc' hlock hlock' h => rw [hsame h.page]
  | pauses c w es hpc hpc' hlock' h => rw [hsame h]
  | stores addr n i b q1 hpc hpc' hlock hpage hpage' hheld hhistory hfull =>
    cases hpage.symm.trans hq
    cases hpage'.symm.trans hq'
    exact Pipe.data_store (hb.live _ hpage).1 hfull b hk
  | turns n q1 hpc hpc' hlock h => rw [hsame h.page]
  | takes n addr q1 hpc hpc' hlock hpage hpage' =>
    cases hpage.symm.trans hq
    cases hpage'.symm.trans hq'
    rfl
  | returns n addr q1 hpc hpc' hlock' hpage h => rw [hsame h]
  | shuts w q1 hpc hpc' hlock' hpage hpage' =>
    cases hpage.symm.trans hq
    rcases hpage' with ⟨hpage', -⟩ | ⟨hpage', -⟩
    · cases hpage'.symm.trans hq'
      cases w <;> rfl
    · cases hpage'.symm.trans hq'
  | killed hpc hlock h => rw [hsame h.page]

theorem got_zero {p r : P} {n : Int} (hw : Waited s) (he : Effect r s s')
    (hgot : s'.history = s.history ++ [.got p n []]) (hn : 0 < n) :
    ∃ q, s.page = some q ∧ q.buffered = [] ∧ q.writeopen = false := by
  -- Only the return of `piperead` adds this event.
  have hnot : ∀ es : List (PipeEvent P), s'.history = s.history ++ es → es = [.got p n []] :=
    fun es h => List.append_cancel_left (h.symm.trans hgot)
  have hsame : s'.history = s.history → False := fun h => by
    have := hnot [] (by rw [h, List.append_nil])
    cases this
  cases he with
  | calls c w hpc hpc' hlock h => exact (hsame h.history).elim
  | leaves w hpc hpc' hlock hpage h => exact (hsame h).elim
  | acquires c hpc hpc' hlock hlock' h => exact (hsame h.history).elim
  | pauses c w es hpc hpc' hlock' hpage hheld hhistory hes =>
    rw [hnot es hhistory] at hes
    exact (hes _ List.mem_cons_self).elim
  | stores addr n i b q hpc hpc' hlock hpage hpage' hheld hhistory =>
    have := hnot _ hhistory
    cases this
  | turns n q hpc hpc' hlock h => exact (hsame h.history).elim
  | takes n addr q hpc hpc' hlock hpage hpage' hheld h => exact (hsame h).elim
  | returns m addr q hpc hpc' hlock' hpage hpage' hheld hhistory hend =>
    have heq := hnot _ hhistory
    simp only [List.cons.injEq, PipeEvent.got.injEq, and_true] at heq
    obtain ⟨rfl, rfl, rfl⟩ := heq
    have hempty : q.empty = true := by
      by_contra hne
      exact hend ⟨hn, by simpa using hne⟩
    refine ⟨q, hpage, Pipe.buffered_eq_nil_iff.2 (Pipe.empty_iff.1 hempty), ?_⟩
    have := hw r m q hpc hpage
    simpa [hempty] using this
  | shuts w q hpc hpc' hlock' hpage hpage' hheld h => exact (hsame h).elim
  | killed hpc hlock h => exact (hsame h.history).elim

theorem not_usedAfterFree [DecidableEq P] [Fintype P] (h : Ends s) (a : PipeAct P) :
    step a s ≠ .error .usedAfterFree := by
  intro hstep
  cases a with
  | pipewrite p addr n | piperead p n | pipeclose p w =>
    simp only [step] at hstep
    split_ifs at hstep
    cases hstep
  | acquire p =>
    simp only [step] at hstep
    split at hstep
    · next c hpc hpage =>
        obtain ⟨q, hq⟩ := h.page (p := p) (c := c) (by rw [hpc]; rfl)
        cases hpage.symm.trans hq
    · split_ifs at hstep
      cases hstep
    · cases hstep
  | run p =>
    simp only [step] at hstep
    split at hstep
    · next c hpc hpage =>
        obtain ⟨q, hq⟩ := h.page (p := p) (c := c) (by rw [hpc]; rfl)
        cases hpage.symm.trans hq
    · cases hstep
    · cases hstep
  | kill p =>
    simp only [step] at hstep
    split at hstep <;> cases hstep

/-- A pipe after `pipealloc`, whatever its page held before, and the calls of any processes in any
    interleaving. -/
theorem lossless_fifo [DecidableEq P] [Fintype P]
    (h : Reachable step (· = init data) (fun _ _ => True) s) : Lossless s := by
  have hinv : Locked s ∧ Ends s ∧ Books s ∧ Waited s := by
    refine h.invariant (P := fun s => Locked s ∧ Ends s ∧ Books s ∧ Waited s) ?_ ?_
    · rintro s rfl
      exact ⟨.init data, .init data, .init data, .init data⟩
    · rintro a s s' ⟨hl, he, hb, hw⟩ - hstep
      obtain ⟨p, heff, ho⟩ := step_effect hstep
      have hl' := hl.step heff ho
      exact ⟨hl', he.step heff ho, hb.step hl hl' heff ho, hw.step hl heff ho⟩
  obtain ⟨hl, he, hb, hw⟩ := hinv
  refine
    { fifo := (List.prefix_append _ _).trans hb.ahead
      missing := fun q hq => (hb.live q hq).2
      bounded := fun q hq => ⟨Ring.length_contents .., (hb.live q hq).1⟩
      copying := copying_of_free
      kept := fun a s' q q' hstep hq hq' k hk => ?_
      zero := fun a s' p n hstep hgot hn => ?_
      alive := not_usedAfterFree he }
  · obtain ⟨p, heff, -⟩ := step_effect hstep
    exact data_kept hb heff hq hq' hk
  · obtain ⟨r, heff, -⟩ := step_effect hstep
    exact got_zero hw heff hgot hn

/-- A writer stores two bytes, a reader takes the first one, the writer closes its end. -/
theorem lossless_fifo_two :
    ∃ s : PipeSys Bool, Lossless s ∧ s.stored = [7, 8] ∧ s.returned = [7] := by
  let acts : List (PipeAct Bool) :=
    [.pipewrite true [7, 8] 2, .piperead false 1, .acquire false, .run false, .acquire true,
      .run true, .run true, .run true, .acquire false, .run false, .run false, .run false,
      .pipeclose true true, .acquire true, .run true]
  obtain ⟨s, hreach, hbytes⟩ := reachable_any step (· = init fun _ => 1) (fun _ _ => True) acts rfl
    (fun s => s.stored = [7, 8] ∧ s.returned = [7]) (by decide +kernel)
  exact ⟨s, lossless_fifo _ hreach, hbytes⟩

end PipeSys

end Xv6
