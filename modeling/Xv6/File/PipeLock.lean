import Xv6.File.Pipe

set_option autoImplicit false

/-! # The lock and the ends of a pipe

What one action can do, and what follows of who holds the lock and of who uses which end: a process
in a call on the pipe finds its page, because the page is freed only after both ends have lost their
descriptors. -/

namespace Xv6

open Function

namespace Pipe

variable {q : Pipe}

theorem isOpen_shut (w v : Bool) : (q.shut w).isOpen v = if v = w then false else q.isOpen v := by
  cases w <;> cases v <;> rfl

theorem isOpen_store (b : Byte) (w : Bool) : (q.store b).isOpen w = q.isOpen w := rfl

theorem isOpen_take (w : Bool) : q.take.2.isOpen w = q.isOpen w := rfl

end Pipe

/-- The end that the process closes. -/
def PipePc.closes (pc : PipePc) : Option Bool :=
  pc.call.bind fun
    | .close w => some w
    | _ => none

/-- The end that the process uses. -/
def PipePc.uses (pc : PipePc) : Option Bool := pc.call.bind PipeCall.uses

/-- The event says nothing of a byte. -/
def PipeEvent.silent {P : Type} : PipeEvent P → Prop
  | .wrote .. | .gaveUp .. => True
  | .stored .. | .got .. => False

namespace PipeSys

variable {P : Type}

/-! ## What an action does -/

/-- The other processes stay where they are, or are woken. -/
def Others (p : P) (s s' : PipeSys P) : Prop :=
  ∀ r, r ≠ p → s'.pc r = s.pc r ∨ ∃ chan c, s.pc r = .sleeping chan c ∧ s'.pc r = .acquire c

variable {p r : P} {s s' : PipeSys P}

theorem Others.of_update [DecidableEq P] {c : PipePc} (h : s'.pc = update s.pc p c) :
    Others p s s' := by
  intro r hr
  rw [h]
  exact .inl (update_of_ne hr ..)

theorem Others.of_woken [DecidableEq P] {chan : PipeChan} {c : PipePc}
    (h : s'.pc = update (fun r => (s.pc r).woken chan) p c) : Others p s s' := by
  intro r hr
  rw [h, update_of_ne hr]
  cases hpc : s.pc r with
  | sleeping ch c =>
    by_cases hch : ch = chan
    · exact .inr ⟨ch, c, rfl, by simp [PipePc.woken, hch]⟩
    · exact .inl (by simp [PipePc.woken, hch])
  | idle | acquire c | holds c => exact .inl rfl

/-- Nothing but where the processes are. -/
structure SameBut (s s' : PipeSys P) : Prop where
  page : s'.page = s.page
  held : s'.held = s.held
  history : s'.history = s.history

/-- What one action of process `p` can do. -/
inductive Effect (p : P) (s s' : PipeSys P) : Prop
  | calls (c : PipeCall) (w : Bool) (hpc : s.pc p = .idle) (hpc' : s'.pc p = .acquire c)
      (hlock : s'.lock = s.lock) (hsame : SameBut s s') (huses : c.uses = some w)
      (hheld : s.held w = true) (hcopy : ∀ n addr, c ≠ .copy n addr)
  | leaves (w : Bool) (hpc : s.pc p = .idle) (hpc' : s'.pc p = .acquire (.close w))
      (hlock : s'.lock = s.lock) (hpage : s'.page = s.page) (hhistory : s'.history = s.history)
      (hheld : s.held w = true) (hheld' : s'.held = update s.held w false)
      (hunused : ∀ r, (s.pc r).call.bind PipeCall.uses ≠ some w)
  | acquires (c : PipeCall) (hpc : s.pc p = .acquire c) (hpc' : s'.pc p = .holds c)
      (hlock : s.lock = none) (hlock' : s'.lock = some p) (hsame : SameBut s s')
  /-- A pass that ends the section of the lock and moves no byte. -/
  | pauses (c : PipeCall) (w : Bool) (es : List (PipeEvent P)) (hpc : s.pc p = .holds c)
      (hpc' : s'.pc p = .idle ∨ ∃ chan, s'.pc p = .sleeping chan c) (hlock' : s'.lock = none)
      (hpage : s'.page = s.page) (hheld : s'.held = s.held)
      (hhistory : s'.history = s.history ++ es)
      (hes : ∀ e ∈ es, e.silent) (huses : c.uses = some w) (hcopy : ∀ n addr, c ≠ .copy n addr)
  | stores (addr : List Byte) (n : Int) (i : ℕ) (b : Byte) (q : Pipe)
      (hpc : s.pc p = .holds (.write addr n i)) (hpc' : s'.pc p = .holds (.write addr n (i + 1)))
      (hlock : s'.lock = s.lock) (hpage : s.page = some q) (hpage' : s'.page = some (q.store b))
      (hheld : s'.held = s.held) (hhistory : s'.history = s.history ++ [.stored p b])
      (hfull : ¬q.full = true)
  | turns (n : Int) (q : Pipe) (hpc : s.pc p = .holds (.read n))
      (hpc' : s'.pc p = .holds (.copy n []))
      (hlock : s'.lock = s.lock) (hsame : SameBut s s') (hpage : s.page = some q)
      (hexit : ¬(q.empty = true ∧ q.writeopen = true))
  | takes (n : Int) (addr : List Byte) (q : Pipe) (hpc : s.pc p = .holds (.copy n addr))
      (hpc' : s'.pc p = .holds (.copy n (addr ++ [q.take.1]))) (hlock : s'.lock = s.lock)
      (hpage : s.page = some q) (hpage' : s'.page = some q.take.2) (hheld : s'.held = s.held)
      (hhistory : s'.history = s.history) (hempty : ¬q.empty = true)
  | returns (n : Int) (addr : List Byte) (q : Pipe) (hpc : s.pc p = .holds (.copy n addr))
      (hpc' : s'.pc p = .idle) (hlock' : s'.lock = none) (hpage : s.page = some q)
      (hpage' : s'.page = s.page) (hheld : s'.held = s.held)
      (hhistory : s'.history = s.history ++ [.got p n addr])
      (hend : ¬((addr.length : Int) < n ∧ q.empty = false))
  | shuts (w : Bool) (q : Pipe) (hpc : s.pc p = .holds (.close w)) (hpc' : s'.pc p = .idle)
      (hlock' : s'.lock = none) (hpage : s.page = some q)
      (hpage' : (s'.page = some (q.shut w) ∧ q.isOpen (!w) = true) ∨
        (s'.page = none ∧ q.isOpen (!w) = false))
      (hheld : s'.held = s.held) (hhistory : s'.history = s.history)
  | killed (hpc : s'.pc p = s.pc p ∨ ∃ chan c, s.pc p = .sleeping chan c ∧ s'.pc p = .acquire c)
      (hlock : s'.lock = s.lock) (hsame : SameBut s s')

section Step

variable [DecidableEq P]

@[simp] theorem goto_pc_self (p : P) (c : PipePc) (s : PipeSys P) : (s.goto p c).pc p = c :=
  update_self ..

variable {s : PipeSys P} {q : Pipe}

theorem pipewrite_effect {p : P} {addr : List Byte} {n : Int} {i : ℕ}
    (hpc : s.pc p = .holds (.write addr n i)) (hpage : s.page = some q) :
    Effect p s (s.pipewrite p addr n i q) ∧ Others p s (s.pipewrite p addr n i q) := by
  unfold pipewrite
  split_ifs with hn hfull hgive
  · refine ⟨.pauses _ true [.wrote p n (-1)] hpc (.inl ?_) rfl rfl rfl rfl ?_ rfl ?_,
      Others.of_update rfl⟩
    · exact update_self ..
    · simp [PipeEvent.silent]
    · simp
  · refine ⟨.pauses _ true [] hpc (.inr ⟨.nwrite, ?_⟩) rfl rfl rfl ?_ ?_ rfl ?_,
      Others.of_woken rfl⟩
    · exact update_self ..
    · exact (List.append_nil _).symm
    · simp
    · simp
  · exact ⟨.stores addr n i (addr.getD i 0) q hpc (update_self ..) rfl hpage rfl rfl rfl hfull,
      Others.of_update rfl⟩
  · refine ⟨.pauses _ true [.wrote p n n] hpc (.inl ?_) rfl rfl rfl rfl ?_ rfl ?_,
      Others.of_woken rfl⟩
    · exact update_self ..
    · simp [PipeEvent.silent]
    · simp

theorem piperead_effect {p : P} {n : Int}
    (hpc : s.pc p = .holds (.read n)) (hpage : s.page = some q) :
    Effect p s (s.piperead p n q) ∧ Others p s (s.piperead p n q) := by
  unfold piperead
  split_ifs with hwait hkill
  · refine ⟨.pauses _ false [.gaveUp p n] hpc (.inl ?_) rfl rfl rfl rfl ?_ rfl ?_,
      Others.of_update rfl⟩
    · exact update_self ..
    · simp [PipeEvent.silent]
    · simp
  · refine ⟨.pauses _ false [] hpc (.inr ⟨.nread, ?_⟩) rfl rfl rfl ?_ ?_ rfl ?_,
      Others.of_update rfl⟩
    · exact update_self ..
    · exact (List.append_nil _).symm
    · simp
    · simp
  · exact ⟨.turns n q hpc (update_self ..) rfl ⟨rfl, rfl, rfl⟩ hpage hwait, Others.of_update rfl⟩

theorem pipecopy_effect {p : P} {n : Int} {addr : List Byte}
    (hpc : s.pc p = .holds (.copy n addr)) (hpage : s.page = some q) :
    Effect p s (s.pipecopy p n addr q) ∧ Others p s (s.pipecopy p n addr q) := by
  unfold pipecopy
  split_ifs with hmore
  · exact ⟨.takes n addr q hpc (update_self ..) rfl hpage rfl rfl rfl (by simp [hmore.2]),
      Others.of_update rfl⟩
  · exact ⟨.returns n addr q hpc (update_self ..) rfl hpage rfl rfl rfl hmore,
      Others.of_woken rfl⟩

theorem pipeclose_effect {p : P} {w : Bool}
    (hpc : s.pc p = .holds (.close w)) (hpage : s.page = some q) :
    Effect p s (s.pipeclose p w q) ∧ Others p s (s.pipeclose p w q) := by
  have hboth : ((q.shut w).readopen = false ∧ (q.shut w).writeopen = false) ↔
      q.isOpen (!w) = false := by
    cases w <;> simp [Pipe.shut, Pipe.isOpen]
  unfold pipeclose
  dsimp only
  split_ifs with hlast
  · exact ⟨.shuts w q hpc (update_self ..) rfl hpage (.inr ⟨rfl, hboth.1 hlast⟩) rfl rfl,
      Others.of_woken rfl⟩
  · have hopen : q.isOpen (!w) = true := by
      rw [← Bool.not_eq_false]
      exact fun h => hlast (hboth.2 h)
    exact ⟨.shuts w q hpc (update_self ..) rfl hpage (.inl ⟨rfl, hopen⟩) rfl rfl,
      Others.of_woken rfl⟩

theorem step_effect [Fintype P] {a : PipeAct P} {s s' : PipeSys P} (h : step a s = .ok s') :
    ∃ p, Effect p s s' ∧ Others p s s' := by
  cases a with
  | pipewrite p addr n =>
    simp only [step] at h
    split_ifs at h with hc
    cases h
    exact ⟨p, .calls _ true hc.1 (goto_pc_self ..) rfl ⟨rfl, rfl, rfl⟩ rfl hc.2 (by simp),
      Others.of_update rfl⟩
  | piperead p n =>
    simp only [step] at h
    split_ifs at h with hc
    cases h
    exact ⟨p, .calls _ false hc.1 (goto_pc_self ..) rfl ⟨rfl, rfl, rfl⟩ rfl hc.2 (by simp),
      Others.of_update rfl⟩
  | pipeclose p w =>
    simp only [step] at h
    split_ifs at h with hc
    cases h
    exact ⟨p, .leaves w hc.1 (goto_pc_self ..) rfl rfl rfl hc.2.1 rfl hc.2.2, Others.of_update rfl⟩
  | acquire p =>
    simp only [step] at h
    split at h
    · cases h
    · next c q hpc hpage =>
        split_ifs at h with hlock
        cases h
        exact ⟨p, .acquires c hpc (goto_pc_self ..) hlock rfl ⟨rfl, rfl, rfl⟩, Others.of_update rfl⟩
    · cases h
  | run p =>
    simp only [step] at h
    split at h
    · cases h
    · next c q hpc hpage =>
        cases h
        refine ⟨p, ?_⟩
        cases c with
        | write addr n i => exact pipewrite_effect hpc hpage
        | read n => exact piperead_effect hpc hpage
        | copy n addr => exact pipecopy_effect hpc hpage
        | close w => exact pipeclose_effect hpc hpage
    · cases h
  | kill p =>
    simp only [step] at h
    split at h
    · next chan c hpc =>
        cases h
        exact ⟨p, .killed (.inr ⟨chan, c, hpc, goto_pc_self ..⟩) rfl ⟨rfl, rfl, rfl⟩,
          Others.of_update rfl⟩
    · cases h
      exact ⟨p, .killed (.inl rfl) rfl ⟨rfl, rfl, rfl⟩, fun _ _ => .inl rfl⟩

end Step

/-! ## The lock -/

theorem Others.holds (h : Others p s s') (hr : r ≠ p) (c : PipeCall) :
    s'.pc r = .holds c ↔ s.pc r = .holds c := by
  rcases h r hr with heq | ⟨chan, c', hpc, hpc'⟩
  · rw [heq]
  · simp [hpc, hpc']

theorem Others.call (h : Others p s s') (hr : r ≠ p) :
    (s'.pc r).call = (s.pc r).call := by
  rcases h r hr with heq | ⟨chan, c', hpc, hpc'⟩
  · rw [heq]
  · rw [hpc, hpc']
    rfl

/-- The process waits for the lock or sleeps in the call. -/
def Rests (p : P) (c : PipeCall) (s : PipeSys P) : Prop :=
  s.pc p = .acquire c ∨ ∃ chan, s.pc p = .sleeping chan c

/-- The lock is held by the process that is inside, and no process leaves it while it copies. -/
structure Locked (s : PipeSys P) : Prop where
  lock : ∀ p, s.lock = some p ↔ ∃ c, s.pc p = .holds c
  rests : ∀ p c, Rests p c s → ∀ n addr, c ≠ .copy n addr

theorem Locked.init (data : Fin pipeSize → Byte) : Locked (init data : PipeSys P) where
  lock p := by simp [PipeSys.init]
  rests p c h := by simp [Rests, PipeSys.init] at h

section

variable (h : Locked s)

include h

theorem Locked.moves (ho : Others p s s') (hp : s'.lock = some p ↔ ∃ c, s'.pc p = .holds c)
    (hlock : ∀ r, r ≠ p → (s'.lock = some r ↔ s.lock = some r))
    (hrests : ∀ c, Rests p c s' → ∀ n addr, c ≠ .copy n addr) : Locked s' where
  lock r := by
    by_cases hr : r = p
    · rw [hr]
      exact hp
    · rw [hlock r hr, h.lock r]
      exact exists_congr fun c => (ho.holds hr c).symm
  rests r c hrest := by
    by_cases hr : r = p
    · exact hrests c (hr ▸ hrest)
    · refine h.rests r c ?_
      rcases ho r hr with heq | ⟨chan, c', hpc, hpc'⟩
      · rwa [Rests, heq] at hrest
      · simp only [Rests, hpc', PipePc.acquire.injEq, reduceCtorEq, exists_false, or_false] at hrest
        exact .inr ⟨chan, hrest ▸ hpc⟩

/-- A process that is not inside does not hold the lock. -/
theorem Locked.not_lock (hpc : ∀ c, s.pc p ≠ .holds c) :
    s.lock ≠ some p :=
  fun hl => ((h.lock p).1 hl).elim fun c hc => hpc c hc

theorem Locked.holder {c : PipeCall} (hpc : s.pc p = .holds c) :
    s.lock = some p :=
  (h.lock p).2 ⟨c, hpc⟩

/-- Process `p` releases the lock, which it holds. -/
theorem Locked.releases {c : PipeCall} (ho : Others p s s')
    (hpc : s.pc p = .holds c) (hlock' : s'.lock = none) (hpc' : ∀ c, s'.pc p ≠ .holds c)
    (hrests : ∀ c, Rests p c s' → ∀ n addr, c ≠ .copy n addr) : Locked s' := by
  refine h.moves ho ?_ (fun r hr => ?_) hrests
  · simp [hlock', hpc']
  · rw [hlock', h.holder hpc]
    simp [Ne.symm hr]

/-- Process `p` goes on under the lock. -/
theorem Locked.goesOn {c c' : PipeCall} (ho : Others p s s')
    (hpc : s.pc p = .holds c) (hpc' : s'.pc p = .holds c') (hlock : s'.lock = s.lock) :
    Locked s' := by
  refine h.moves ho ?_ (fun r _ => by rw [hlock]) (fun c hc => ?_)
  · rw [hlock, h.holder hpc]
    simp [hpc']
  · simp [Rests, hpc'] at hc

theorem Locked.step (he : Effect p s s') (ho : Others p s s') :
    Locked s' := by
  cases he with
  | calls c w hpc hpc' hlock hsame huses hheld hcopy =>
    refine h.moves ho ?_ (fun r _ => by rw [hlock]) fun c' hc' => ?_
    · simp [hlock, hpc', h.not_lock (p := p) (by simp [hpc])]
    · simp only [Rests, hpc', PipePc.acquire.injEq, reduceCtorEq, exists_false, or_false] at hc'
      exact hc' ▸ hcopy
  | leaves w hpc hpc' hlock =>
    refine h.moves ho ?_ (fun r _ => by rw [hlock]) fun c' hc' => ?_
    · simp [hlock, hpc', h.not_lock (p := p) (by simp [hpc])]
    · simp only [Rests, hpc', PipePc.acquire.injEq, reduceCtorEq, exists_false, or_false] at hc'
      simp [← hc']
  | acquires c hpc hpc' hlock hlock' =>
    refine h.moves ho ?_ (fun r hr => ?_) fun c' hc' => ?_
    · simp [hlock', hpc']
    · simp [hlock, hlock', Ne.symm hr]
    · simp [Rests, hpc'] at hc'
  | pauses c w es hpc hpc' hlock' hpage hheld hhistory hes huses hcopy =>
    refine h.releases ho hpc hlock' ?_ fun c' hc' => ?_
    · rcases hpc' with hpc' | ⟨chan, hpc'⟩ <;> simp [hpc']
    · rcases hpc' with hpc' | ⟨chan, hpc'⟩
      · simp [Rests, hpc'] at hc'
      · simp only [Rests, hpc', reduceCtorEq, PipePc.sleeping.injEq, false_or] at hc'
        obtain ⟨_, _, rfl⟩ := hc'
        exact hcopy
  | stores addr n i b q hpc hpc' hlock => exact h.goesOn ho hpc hpc' hlock
  | turns n q hpc hpc' hlock => exact h.goesOn ho hpc hpc' hlock
  | takes n addr q hpc hpc' hlock => exact h.goesOn ho hpc hpc' hlock
  | returns n addr q hpc hpc' hlock' =>
    exact h.releases ho hpc hlock' (by simp [hpc']) (by simp [Rests, hpc'])
  | shuts w q hpc hpc' hlock' =>
    exact h.releases ho hpc hlock' (by simp [hpc']) (by simp [Rests, hpc'])
  | killed hpc hlock hsame =>
    rcases hpc with heq | ⟨chan, c, hpc, hpc'⟩
    · refine h.moves ho ?_ (fun r _ => by rw [hlock]) ?_
      · rw [hlock, heq]
        exact h.lock p
      · simpa only [Rests, heq] using h.rests p
    · refine h.moves ho ?_ (fun r _ => by rw [hlock]) fun c' hc' => ?_
      · simp [hlock, hpc', h.not_lock (p := p) (by simp [hpc])]
      · simp only [Rests, hpc', PipePc.acquire.injEq, reduceCtorEq, exists_false, or_false] at hc'
        exact hc' ▸ h.rests p c (.inr ⟨chan, hpc⟩)

end

/-! ## The ends -/

/-- An end in use has a descriptor and is open, and an end is closed by one process, after its
    descriptors have gone. -/
structure Ends (s : PipeSys P) : Prop where
  used : ∀ p w, (s.pc p).uses = some w → s.held w = true
  closed : ∀ p w, (s.pc p).closes = some w → s.held w = false
  once : ∀ p r w, (s.pc p).closes = some w → (s.pc r).closes = some w → p = r
  isOpen : ∀ w, s.held w = true ∨ (∃ p, (s.pc p).closes = some w) →
    ∃ q, s.page = some q ∧ q.isOpen w = true

theorem Ends.init (data : Fin pipeSize → Byte) : Ends (init data : PipeSys P) where
  used _ _ _ := rfl
  closed p w h := by cases h
  once p r w h := by cases h
  isOpen w _ := ⟨.alloc data, rfl, by cases w <;> rfl⟩

/-- The ends that the other processes use and close. -/
theorem Others.ends (h : Others p s s') (hr : r ≠ p) :
    (s'.pc r).uses = (s.pc r).uses ∧ (s'.pc r).closes = (s.pc r).closes := by
  rw [PipePc.uses, PipePc.closes, h.call hr]
  exact ⟨rfl, rfl⟩

/-- Process `p` does with its end what it did before, or is done with it, and no end is closed. -/
theorem Ends.keeps (h : Ends s) (ho : Others p s s')
    (huses : (s'.pc p).uses = (s.pc p).uses ∨ (s'.pc p).uses = none)
    (hcloses : (s'.pc p).closes = (s.pc p).closes) (hheld : s'.held = s.held)
    (hpage : ∀ q, s.page = some q → ∃ q', s'.page = some q' ∧ ∀ w, q'.isOpen w = q.isOpen w) :
    Ends s' := by
  have hc : ∀ r, (s'.pc r).closes = (s.pc r).closes := by
    intro r
    by_cases hr : r = p
    · rw [hr, hcloses]
    · exact (ho.ends hr).2
  refine ⟨fun r w hu => ?_, fun r w hr => ?_, fun r r' w hr hr' => ?_, fun w hw => ?_⟩
  · rw [hheld]
    apply h.used r
    by_cases hr : r = p
    · subst hr
      rcases huses with heq | hnone
      · rwa [heq] at hu
      · rw [hnone] at hu
        cases hu
    · rwa [(ho.ends hr).1] at hu
  · rw [hheld]
    exact h.closed r w (hc r ▸ hr)
  · exact h.once r r' w (hc r ▸ hr) (hc r' ▸ hr')
  · rw [hheld] at hw
    obtain ⟨q, hq, hopen⟩ := h.isOpen w (hw.imp_right fun ⟨r, hr⟩ => ⟨r, hc r ▸ hr⟩)
    obtain ⟨q', hq', hsame⟩ := hpage q hq
    exact ⟨q', hq', by rw [hsame, hopen]⟩

/-- A new call on an end that has a descriptor. -/
theorem Ends.calls {w : Bool} (h : Ends s) (ho : Others p s s')
    (hsame : SameBut s s') (huses : (s'.pc p).uses = some w)
    (hcloses : (s'.pc p).closes = none) (hold : (s.pc p).closes = none)
    (hheld : s.held w = true) : Ends s' := by
  have hc : ∀ r, (s'.pc r).closes = (s.pc r).closes := by
    intro r
    by_cases hr : r = p
    · rw [hr, hcloses, hold]
    · exact (ho.ends hr).2
  refine ⟨fun r v hu => ?_, fun r v hr => ?_, fun r r' v hr hr' => ?_, fun v hv => ?_⟩
  · rw [hsame.held]
    by_cases hr : r = p
    · rw [hr, huses] at hu
      cases hu
      exact hheld
    · exact h.used r v ((ho.ends hr).1 ▸ hu)
  · rw [hsame.held]
    exact h.closed r v (hc r ▸ hr)
  · exact h.once r r' v (hc r ▸ hr) (hc r' ▸ hr')
  · rw [hsame.held] at hv
    rw [hsame.page]
    exact h.isOpen v (hv.imp_right fun ⟨r, hr⟩ => ⟨r, hc r ▸ hr⟩)

/-- The last descriptor of an end goes away. -/
theorem Ends.leaves {w : Bool} (h : Ends s) (ho : Others p s s')
    (hpc' : s'.pc p = .acquire (.close w)) (hpage : s'.page = s.page) (hheld : s.held w = true)
    (hheld' : s'.held = update s.held w false)
    (hunused : ∀ r, (s.pc r).uses ≠ some w) : Ends s' := by
  have hp : (s'.pc p).closes = some w := by rw [hpc']; rfl
  have hnone : ∀ r, (s.pc r).closes ≠ some w := by
    intro r hr
    have := h.closed r w hr
    rw [hheld] at this
    cases this
  -- Who closes an end is the process that now closes `w`, or closed the other end before.
  have hc : ∀ r v, (s'.pc r).closes = some v → (r = p ∧ v = w) ∨
      (v ≠ w ∧ (s.pc r).closes = some v) := by
    intro r v hr
    by_cases hrp : r = p
    · rw [hrp, hp] at hr
      cases hr
      exact .inl ⟨hrp, rfl⟩
    · rw [(ho.ends hrp).2] at hr
      exact .inr ⟨fun hv => hnone r (hv ▸ hr), hr⟩
  have hold : ∀ v, v ≠ w → s'.held v = s.held v := fun v hv => by rw [hheld', update_of_ne hv]
  refine ⟨fun r v hu => ?_, fun r v hr => ?_, fun r r' v hr hr' => ?_, fun v hv => ?_⟩
  · by_cases hrp : r = p
    · rw [hrp, hpc'] at hu
      cases hu
    · rw [(ho.ends hrp).1] at hu
      rw [hold v fun hv => hunused r (hv ▸ hu)]
      exact h.used r v hu
  · rcases hc r v hr with ⟨-, rfl⟩ | ⟨hv, hr⟩
    · rw [hheld', update_self]
    · rw [hold v hv]
      exact h.closed r v hr
  · rcases hc r v hr with ⟨rfl, rfl⟩ | ⟨hv, hr⟩
    · rcases hc r' v hr' with ⟨rfl, -⟩ | ⟨hv, -⟩
      · rfl
      · exact absurd rfl hv
    · rcases hc r' v hr' with ⟨-, rfl⟩ | ⟨-, hr'⟩
      · exact absurd rfl hv
      · exact h.once r r' v hr hr'
  · rw [hpage]
    by_cases hvw : v = w
    · exact h.isOpen v (.inl (hvw ▸ hheld))
    · refine h.isOpen v (hv.imp (fun hv => ?_) fun ⟨r, hr⟩ => ⟨r, ?_⟩)
      · rwa [hold v hvw] at hv
      · rcases hc r v hr with ⟨-, hv⟩ | ⟨-, hr⟩
        · exact absurd hv hvw
        · exact hr

/-- The page is freed after its second end is closed; then no end has a descriptor or is being
    closed. -/
theorem Ends.shuts {w : Bool} {q : Pipe} (h : Ends s) (ho : Others p s s')
    (hpc : s.pc p = .holds (.close w)) (hpc' : s'.pc p = .idle) (hpage : s.page = some q)
    (hpage' : (s'.page = some (q.shut w) ∧ q.isOpen (!w) = true) ∨
      (s'.page = none ∧ q.isOpen (!w) = false)) (hheld : s'.held = s.held) : Ends s' := by
  have hp : (s.pc p).closes = some w := by rw [hpc]; rfl
  have hc : ∀ r v, (s'.pc r).closes = some v → r ≠ p ∧ (s.pc r).closes = some v := by
    intro r v hr
    by_cases hrp : r = p
    · rw [hrp, hpc'] at hr
      cases hr
    · exact ⟨hrp, (ho.ends hrp).2 ▸ hr⟩
  refine ⟨fun r v hu => ?_, fun r v hr => ?_, fun r r' v hr hr' => ?_, fun v hv => ?_⟩
  · rw [hheld]
    by_cases hrp : r = p
    · rw [hrp, hpc'] at hu
      cases hu
    · exact h.used r v ((ho.ends hrp).1 ▸ hu)
  · rw [hheld]
    exact h.closed r v (hc r v hr).2
  · exact h.once r r' v (hc r v hr).2 (hc r' v hr').2
  · -- The end that is left is the other one, and it was open before.
    have hv' : s.held v = true ∨ ∃ r, (s.pc r).closes = some v := by
      rw [hheld] at hv
      exact hv.imp_right fun ⟨r, hr⟩ => ⟨r, (hc r v hr).2⟩
    have hne : v ≠ w := by
      rintro rfl
      rcases hv with hv | ⟨r, hr⟩
      · rw [hheld, h.closed p v hp] at hv
        cases hv
      · exact (hc r v hr).1 (h.once r p v (hc r v hr).2 hp)
    obtain ⟨q', hq', hopen⟩ := h.isOpen v hv'
    cases hpage.symm.trans hq'
    have hother : v = !w := by cases v <;> cases w <;> simp_all
    rcases hpage' with ⟨hpage', -⟩ | ⟨-, hshut⟩
    · exact ⟨q.shut w, hpage', by rw [Pipe.isOpen_shut, if_neg hne, hopen]⟩
    · rw [← hother, hopen] at hshut
      cases hshut

theorem Ends.step (h : Ends s) (he : Effect p s s') (ho : Others p s s') :
    Ends s' := by
  have hsame : ∀ {t : PipeSys P}, t.page = s.page →
      ∀ q, s.page = some q → ∃ q', t.page = some q' ∧ ∀ w, q'.isOpen w = q.isOpen w :=
    fun ht q hq => ⟨q, ht.trans hq, fun _ => rfl⟩
  cases he with
  | calls c w hpc hpc' hlock hs huses hheld hcopy =>
    have hclose : ∀ v, c ≠ .close v := by
      rintro v rfl
      cases huses
    refine h.calls ho hs (w := w) ?_ ?_ (by rw [hpc]; rfl) hheld
    · rw [hpc']
      exact huses
    · rw [hpc']
      cases c with
      | close v => exact absurd rfl (hclose v)
      | write addr n i | read n | copy n addr => rfl
  | leaves w hpc hpc' hlock hpage hhistory hheld hheld' hunused =>
    exact h.leaves ho hpc' hpage hheld hheld' hunused
  | acquires c hpc hpc' hlock hlock' hs =>
    exact h.keeps ho (.inl (by rw [hpc, hpc']; rfl)) (by rw [hpc, hpc']; rfl) hs.held
      (hsame hs.page)
  | pauses c w es hpc hpc' hlock' hpage hheld hhistory hes huses hcopy =>
    have hclose : (PipePc.holds c).closes = none := by
      cases c with
      | close v => cases huses
      | write addr n i | read n | copy n addr => rfl
    rcases hpc' with hpc' | ⟨chan, hpc'⟩
    · exact h.keeps ho (.inr (by rw [hpc']; rfl)) (by rw [hpc, hpc', hclose]; rfl) hheld
        (hsame hpage)
    · exact h.keeps ho (.inl (by rw [hpc, hpc']; rfl)) (by rw [hpc, hpc']; rfl) hheld (hsame hpage)
  | stores addr n i b q hpc hpc' hlock hpage hpage' hheld =>
    refine h.keeps ho (.inl (by rw [hpc, hpc']; rfl)) (by rw [hpc, hpc']; rfl) hheld fun q' hq' => ?_
    cases hpage.symm.trans hq'
    exact ⟨_, hpage', Pipe.isOpen_store b⟩
  | turns n q hpc hpc' hlock hs =>
    exact h.keeps ho (.inl (by rw [hpc, hpc']; rfl)) (by rw [hpc, hpc']; rfl) hs.held
      (hsame hs.page)
  | takes n addr q hpc hpc' hlock hpage hpage' hheld =>
    refine h.keeps ho (.inl (by rw [hpc, hpc']; rfl)) (by rw [hpc, hpc']; rfl) hheld fun q' hq' => ?_
    cases hpage.symm.trans hq'
    exact ⟨_, hpage', Pipe.isOpen_take⟩
  | returns n addr q hpc hpc' hlock' hpage hpage' hheld =>
    exact h.keeps ho (.inr (by rw [hpc']; rfl)) (by rw [hpc, hpc']; rfl) hheld (hsame hpage')
  | shuts w q hpc hpc' hlock' hpage hpage' hheld => exact h.shuts ho hpc hpc' hpage hpage' hheld
  | killed hpc hlock hs =>
    rcases hpc with heq | ⟨chan, c, hpc, hpc'⟩
    · exact h.keeps ho (.inl (by rw [heq])) (by rw [heq]) hs.held (hsame hs.page)
    · exact h.keeps ho (.inl (by rw [hpc, hpc']; rfl)) (by rw [hpc, hpc']; rfl) hs.held
        (hsame hs.page)

/-- A process in a call finds the page. -/
theorem Ends.page {c : PipeCall} (h : Ends s) (hpc : (s.pc p).call = some c) :
    ∃ q, s.page = some q := by
  have hend : ∃ w, s.held w = true ∨ ∃ r, (s.pc r).closes = some w := by
    cases c with
    | write addr n i => exact ⟨true, .inl (h.used p true (by rw [PipePc.uses, hpc]; rfl))⟩
    | read n | copy n addr => exact ⟨false, .inl (h.used p false (by rw [PipePc.uses, hpc]; rfl))⟩
    | close w => exact ⟨w, .inr ⟨p, by rw [PipePc.closes, hpc]; rfl⟩⟩
  obtain ⟨w, hw⟩ := hend
  obtain ⟨q, hq, -⟩ := h.isOpen w hw
  exact ⟨q, hq⟩

end PipeSys

end Xv6
