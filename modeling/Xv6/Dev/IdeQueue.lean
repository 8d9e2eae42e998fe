import Xv6.Dev.Ide
import Xv6.Lib.Stoppable

set_option autoImplicit false

/-! # The disk driver serves each request once and in order

The chain from `idequeue` is the list of the buffers whose requests have arrived and have not been
served, and the controller works on the first of them. That a process leaves `iderw` only when its
own request is done rests on the flags: while a request waits nobody but `ideintr` changes the flags
of its buffer, so they still say that there is something to do. -/

namespace Xv6

open Transition Function LinkedList Stoppable

namespace Ide

variable {a : IdeAct} {s s' : Ide} {b : Fin nbuf} {q : List (Fin nbuf)}

/-- The buffer is as it was when the request was made. -/
structure Untouched (x : CachedBuf) (r : IdeRequest) : Prop where
  request : x.request r.buf = r
  todo : x.done = false

/-- The queue is `q`. -/
structure Queue (q : List (Fin nbuf)) (s : Ide) : Prop where
  chain : Chain s.qnext s.idequeue q
  order : s.arrivals.map IdeRequest.buf = s.served ++ q
  active : s.active = q.head?.map fun b => (s.buf b).command
  pending : ∀ (i : ℕ) (r : IdeRequest), s.arrivals[i]? = some r → s.served.length ≤ i →
    s.call r.buf = some i ∧ Untouched (s.buf r.buf) r
  waiting : ∀ b i, s.call b = some i → ∃ r, s.arrivals[i]? = some r ∧ r.buf = b ∧
    (i < s.served.length → (s.buf b).done = true)

namespace Queue

theorem length (h : Queue q s) : s.arrivals.length = s.served.length + q.length := by
  rw [← List.length_map (f := IdeRequest.buf), h.order, List.length_append]

/-- The request of a queued buffer. -/
theorem request (h : Queue q s) {j : ℕ} (hb : q[j]? = some b) :
    ∃ r, s.arrivals[s.served.length + j]? = some r ∧ r.buf = b := by
  have hmap : (s.arrivals.map IdeRequest.buf)[s.served.length + j]? = some b := by
    rw [h.order, List.getElem?_append_right (Nat.le_add_right _ _), Nat.add_sub_cancel_left, hb]
  rw [List.getElem?_map, Option.map_eq_some_iff] at hmap
  exact hmap

/-- A request that has not been served is in the queue. -/
theorem mem_of_pending (h : Queue q s) {i : ℕ} {r : IdeRequest} (hr : s.arrivals[i]? = some r)
    (hi : s.served.length ≤ i) : q[i - s.served.length]? = some r.buf := by
  have hmap : (s.arrivals.map IdeRequest.buf)[i]? = some r.buf := by
    rw [List.getElem?_map, hr]
    rfl
  rwa [h.order, List.getElem?_append_right hi] at hmap

/-- A queued buffer has a call that waits for it. -/
theorem call_of_mem (h : Queue q s) (hb : b ∈ q) : s.call b ≠ none := by
  obtain ⟨j, hj⟩ := List.mem_iff_getElem?.1 hb
  obtain ⟨r, hr, rfl⟩ := h.request hj
  rw [(h.pending _ r hr (Nat.le_add_right _ _)).1]
  simp

end Queue

theorem Init.queue (h : Init s) : Queue [] s := by
  obtain ⟨hqueue, hactive, hcall, harrivals, hserved⟩ := h
  refine ⟨hqueue, by rw [harrivals, hserved]; rfl, hactive, fun i r hr => ?_, fun b i hb => ?_⟩
  · rw [harrivals] at hr
    simp at hr
  · rw [hcall] at hb
    cases hb

/-! ## `hold` and `wake` -/

theorem Queue.hold (h : Queue q s) (hb : s.call b = none) (x : CachedBuf) :
    Queue q { s with buf := update s.buf b x } := by
  have hne : ∀ b', s.call b' ≠ none → b' ≠ b := fun b' hb' he => hb' (he ▸ hb)
  refine ⟨h.chain, h.order, ?_, fun i r hr hi => ?_, fun b' i hb' => ?_⟩
  · rw [h.active]
    cases q with
    | nil => rfl
    | cons c q =>
      have hc : c ≠ b := hne c (h.call_of_mem List.mem_cons_self)
      simp [hc]
  · obtain ⟨hcall, hbuf⟩ := h.pending i r hr hi
    have hrb : r.buf ≠ b := hne _ (by rw [hcall]; simp)
    refine ⟨hcall, ?_⟩
    show Untouched (update s.buf b x r.buf) r
    rwa [update_of_ne hrb]
  · obtain ⟨r, hr, hrb, hdone⟩ := h.waiting b' i hb'
    have hbb : b' ≠ b := hne b' (by rw [hb']; simp)
    refine ⟨r, hr, hrb, fun hi => ?_⟩
    show (update s.buf b x b').done = true
    rw [update_of_ne hbb]
    exact hdone hi

/-- A call that returns has been served. -/
theorem Queue.served_of_done (h : Queue q s) {i : ℕ} (hb : s.call b = some i)
    (hdone : (s.buf b).done = true) :
    i < s.served.length := by
  obtain ⟨r, hr, rfl, -⟩ := h.waiting b i hb
  by_contra hi
  have := (h.pending i r hr (not_lt.1 hi)).2.todo
  rw [hdone] at this
  cases this

theorem Queue.look (h : Queue q s) (b : Fin nbuf) : Queue q (s.look b) := by
  unfold Ide.look
  split
  · next hdone =>
    refine ⟨h.chain, h.order, h.active, fun i r hr hi => ?_, fun b' i hb' => ?_⟩
    · obtain ⟨hcall, hbuf⟩ := h.pending i r hr hi
      have hrb : r.buf ≠ b := by
        rintro rfl
        have := hbuf.todo
        rw [hdone] at this
        cases this
      exact ⟨(update_of_ne hrb ..).trans hcall, hbuf⟩
    · replace hb' : update s.call b none b' = some i := hb'
      have hbb : b' ≠ b := by
        rintro rfl
        rw [update_self] at hb'
        cases hb'
      rw [update_of_ne hbb] at hb'
      exact h.waiting b' i hb'
  · exact h

/-! ## `iderw` -/

/-- `b` is at the end of the queue. -/
structure Enqueued (b : Fin nbuf) (q : List (Fin nbuf)) (s t : Ide) : Prop where
  chain : Chain t.qnext t.idequeue (q ++ [b])
  arrivals : t.arrivals = s.arrivals ++ [(s.buf b).request b]
  call : t.call = update s.call b (some s.arrivals.length)
  buf : t.buf = s.buf
  disk : t.disk = s.disk
  served : t.served = s.served

theorem Queue.enqueue (h : Queue q s) (hb : b ∉ q) :
    ∃ t, s.enqueue b = .ok t ∧ Enqueued b q s t ∧ t.active = s.active := by
  have hchain := h.chain.update_of_not_mem (v := none) hb
  have hlast : lastNode (update s.qnext b none) IdeStop.hang nbuf none s.idequeue =
      .ok (q.getLast?.or none) :=
    lastNode_eq hchain (hchain.length_le_card.trans_eq (Fintype.card_fin nbuf))
  unfold Ide.enqueue
  simp only [hlast, bind, Except.bind]
  refine ⟨_, rfl, ?_⟩
  cases hq : q.getLast? with
  | none =>
    rw [List.getLast?_eq_none_iff] at hq
    subst hq
    exact ⟨⟨⟨rfl, update_self ..⟩, rfl, rfl, rfl, rfl, rfl⟩, rfl⟩
  | some t =>
    have htb : t ≠ b := fun he => hb (he ▸ List.mem_of_getLast? hq)
    have hsnoc := h.chain.snoc hq hb
    rw [update_comm htb] at hsnoc
    exact ⟨⟨hsnoc, rfl, rfl, rfl, rfl, rfl⟩, rfl⟩

variable {t : Ide}

/-- Once the disk works on the head the queue is one again. -/
theorem Enqueued.queue (ht : Enqueued b q s t) (h : Queue q s) (hb : s.call b = none)
    (hdone : (s.buf b).done = false) (hactive : t.active = (q ++ [b]).head?.map fun b => (s.buf b).command) :
    Queue (q ++ [b]) t where
  chain := ht.chain
  order := by
    rw [ht.arrivals, ht.served, List.map_append, h.order, List.append_assoc]
    rfl
  active := by rw [hactive, ht.buf]
  pending i r hr hi := by
    rw [ht.arrivals] at hr
    rw [ht.served] at hi
    rw [ht.call, ht.buf]
    rcases Nat.lt_or_ge i s.arrivals.length with hlt | hge
    · rw [List.getElem?_append_left hlt] at hr
      obtain ⟨hcall, hbuf⟩ := h.pending i r hr hi
      have hrb : r.buf ≠ b := by
        rintro rfl
        rw [hb] at hcall
        cases hcall
      rw [update_of_ne hrb]
      exact ⟨hcall, hbuf⟩
    · rw [List.getElem?_append_right hge, List.getElem?_singleton] at hr
      split_ifs at hr
      obtain rfl := Option.some.inj hr
      have hi' : i = s.arrivals.length := by omega
      subst hi'
      exact ⟨update_self .., rfl, hdone⟩
  waiting b' i hb' := by
    rw [ht.call] at hb'
    rw [ht.arrivals, ht.served, ht.buf]
    by_cases hbb : b' = b
    · subst hbb
      rw [update_self] at hb'
      obtain rfl := Option.some.inj hb'
      refine ⟨_, List.getElem?_concat_length, rfl, fun hlt => ?_⟩
      have := h.length
      omega
    · rw [update_of_ne hbb] at hb'
      obtain ⟨r, hr, hrb, hserved⟩ := h.waiting b' i hb'
      have hlt : i < s.arrivals.length := (List.getElem?_eq_some_iff.1 hr).1
      exact ⟨r, (List.getElem?_append_left hlt).trans hr, hrb, hserved⟩

/-- What `iderw` does before it sleeps. The walk to the end of the queue ends. -/
theorem Queue.iderw (h : Queue q s) (hb : s.call b = none) :
    Yields (· ≠ .hang) (fun s' => Queue (q ++ [b]) s' ∧ Enqueued b q s s') (s.iderw b) := by
  obtain ⟨t, heq, ht, hactive⟩ := h.enqueue fun hmem => h.call_of_mem hmem hb
  unfold Ide.iderw
  split
  · exact .error (by simp)
  split
  · exact .error (by simp)
  next hdone =>
  rw [Bool.not_eq_true] at hdone
  split
  · exact .error (by simp)
  -- The process finds that there is something to do, and sleeps.
  have hlook : ∀ u : Ide, u.buf = s.buf → u.look b = u := by
    intro u hu
    rw [Ide.look, hu, hdone]
    rfl
  refine .bind_eq heq ?_
  cases q with
  | nil =>
    rw [if_pos (show t.idequeue = some b from ht.chain.head_eq)]
    unfold Ide.idestart
    split
    · exact .error (by simp)
    · refine .ok ?_
      rw [hlook { t with active := some (t.buf b).command } ht.buf]
      have ht' : Enqueued b [] s { t with active := some (t.buf b).command } :=
        ⟨ht.chain, ht.arrivals, ht.call, ht.buf, ht.disk, ht.served⟩
      exact ⟨ht'.queue h hb hdone (by rw [ht.buf]; rfl), ht'⟩
  | cons c q =>
    have hne : t.idequeue ≠ some b := by
      rw [ht.chain.head_eq]
      intro he
      obtain rfl := Option.some.inj he
      exact h.call_of_mem List.mem_cons_self hb
    rw [if_neg hne]
    refine .ok ?_
    rw [hlook _ ht.buf]
    exact ⟨ht.queue h hb hdone (hactive.trans h.active), ht⟩

/-! ## `ideintr` -/

/-- The request at the head of the queue is done. -/
structure Completed (b : Fin nbuf) (r : IdeRequest) (s s' : Ide) : Prop where
  request : s.arrivals[s.served.length]? = some r
  buf_eq : r.buf = b
  disk : s'.disk = if r.write then update s.disk r.key r.data else s.disk
  done : (s'.buf b).done = true
  place : (s'.buf b).place = (s.buf b).place
  data : r.write = true → (s'.buf b).data = r.data
  other : ∀ b' ≠ b, s'.buf b' = s.buf b'
  arrivals : s'.arrivals = s.arrivals
  call : s'.call = s.call
  served : s'.served = s.served ++ [b]

variable {rest : List (Fin nbuf)}

/-- What the controller and the handler do to the request at the head. -/
theorem Queue.pop (error : Bool) (h : Queue (b :: rest) s) :
    ∃ r, Completed b r s ((s.complete (s.buf b).command).pop error (s.buf b).command b) := by
  obtain ⟨r, hr, hrb⟩ := h.request (j := 0) rfl
  obtain ⟨-, hreq, htodo⟩ := h.pending _ r hr (Nat.le_add_right _ _)
  rw [Nat.add_zero] at hr
  have hbuf : (s.complete (s.buf b).command).buf = s.buf := by
    unfold Ide.complete
    split <;> rfl
  have hfields : (s.complete (s.buf b).command).arrivals = s.arrivals ∧
      (s.complete (s.buf b).command).call = s.call ∧
        (s.complete (s.buf b).command).served = s.served := by
    unfold Ide.complete
    split <;> exact ⟨rfl, rfl, rfl⟩
  have hself : (((s.complete (s.buf b).command).pop error (s.buf b).command b).buf b) =
      { s.buf b with
        data := if !(s.buf b).dirty && !error then
          (s.complete (s.buf b).command).received (s.buf b).command
          else (s.buf b).data
        valid := true, dirty := false } := by
    rw [Ide.pop, hbuf]
    exact update_self ..
  subst hrb
  refine ⟨r, hr, rfl, ?_, ?_, ?_, ?_, fun b' hb' => ?_, hfields.1, hfields.2.1, ?_⟩
  · show (s.complete (s.buf r.buf).command).disk = _
    rw [← hreq]
    unfold Ide.complete CachedBuf.command CachedBuf.request
    by_cases hdirty : (s.buf r.buf).dirty = true
    · simp [hdirty]
    · simp [hdirty]
  · rw [hself]
    rfl
  · rw [hself]
    rfl
  · intro hwrite
    rw [hself]
    have hdirty : (s.buf r.buf).dirty = true := by
      rw [← hwrite, ← hreq]
      rfl
    simp only [hdirty, Bool.not_true, Bool.false_and]
    rw [← hreq]
    rfl
  · rw [Ide.pop, hbuf]
    exact update_of_ne hb' ..
  · rw [Ide.pop]
    exact congrArg (· ++ [r.buf]) hfields.2.2

/-- Once the disk works on the next request the rest of the queue is one again. -/
theorem Completed.queue {r : IdeRequest} (ht : Completed b r s t)
    (h : Queue (b :: rest) s) (hchain : Chain t.qnext t.idequeue rest)
    (hactive : t.active = rest.head?.map fun b => (t.buf b).command) : Queue rest t where
  chain := hchain
  order := by
    rw [ht.arrivals, ht.served, h.order, List.append_assoc]
    rfl
  active := hactive
  pending i r' hr' hi := by
    rw [ht.arrivals] at hr'
    rw [ht.served, List.length_append, List.length_singleton] at hi
    rw [ht.call]
    obtain ⟨hcall, hbuf⟩ := h.pending i r' hr' (by omega)
    have hne : r'.buf ≠ b := by
      intro he
      have hb := (h.pending _ r ht.request le_rfl).1
      rw [ht.buf_eq, ← he, hcall] at hb
      have := Option.some.inj hb
      omega
    rw [ht.other _ hne]
    exact ⟨hcall, hbuf⟩
  waiting b' i hb' := by
    rw [ht.call] at hb'
    rw [ht.arrivals, ht.served, List.length_append, List.length_singleton]
    obtain ⟨r', hr', hrb', hdone⟩ := h.waiting b' i hb'
    refine ⟨r', hr', hrb', fun hi => ?_⟩
    by_cases hbb : b' = b
    · rw [hbb]
      exact ht.done
    · rw [ht.other b' hbb]
      refine hdone (Nat.lt_of_le_of_ne (Nat.le_of_lt_succ hi) fun he => hbb ?_)
      subst he
      obtain rfl := Option.some.inj (hr'.symm.trans ht.request)
      exact hrb'.symm.trans ht.buf_eq

theorem Queue.ideintr (error : Bool) (h : Queue q s) :
    Yields (· ≠ .hang) (fun s' => ∃ b rest r, q = b :: rest ∧ Queue rest s' ∧ Completed b r s s')
    (s.ideintr error) := by
  cases q with
  | nil =>
    unfold Ide.ideintr
    rw [show s.active = none from h.active]
    exact .error (by simp)
  | cons b rest =>
    obtain ⟨r, ht⟩ := h.pop error
    have hqueue : (s.complete (s.buf b).command).idequeue = some b ∧
        (s.complete (s.buf b).command).qnext = s.qnext ∧
          (s.complete (s.buf b).command).active = none := by
      have hb := h.chain.1
      unfold Ide.complete
      split <;> exact ⟨hb, rfl, rfl⟩
    unfold Ide.ideintr
    rw [show s.active = some (s.buf b).command from h.active]
    simp only [hqueue.1]
    generalize hu : (s.complete (s.buf b).command).pop error (s.buf b).command b = u at ht
    have hchain : Chain u.qnext u.idequeue rest := by
      rw [← hu, Ide.pop, hqueue.2.1]
      exact h.chain.2
    have hactive : u.active = none := by
      rw [← hu, Ide.pop]
      exact hqueue.2.2
    cases rest with
    | nil =>
      rw [show u.idequeue = none from hchain]
      exact .ok ⟨b, [], r, rfl, ht.queue h hchain hactive, ht⟩
    | cons c rest =>
      rw [show u.idequeue = some c from hchain.1]
      simp only [Ide.idestart]
      split
      · exact .error (by simp)
      · have ht' : Completed b r s { u with active := some (u.buf c).command } :=
          ⟨ht.request, ht.buf_eq, ht.disk, ht.done, ht.place, ht.data, ht.other, ht.arrivals,
            ht.call, ht.served⟩
        exact .ok ⟨b, c :: rest, r, rfl, ht'.queue h hchain rfl, ht'⟩

/-! ## Every action -/

/-- What an action can do when the queue is `q`. -/
inductive Effect (q : List (Fin nbuf)) (a : IdeAct) (s s' : Ide) : Prop
  | hold (b : Fin nbuf) (x : CachedBuf) (hb : s.call b = none)
  (hs : s' = { s with buf := update s.buf b x })
  | iderw (b : Fin nbuf) (ha : a = .iderw b) (hb : s.call b = none) (ht : Enqueued b q s s')
  | wake (b : Fin nbuf) (hs : s' = s.look b)
  | ideintr (b : Fin nbuf) (rest : List (Fin nbuf)) (r : IdeRequest) (hq : q = b :: rest)
      (ht : Completed b r s s')

theorem Queue.step (h : Queue q s) (a : IdeAct) :
    Yields (· ≠ .hang) (fun s' => (∃ q', Queue q' s') ∧ Effect q a s s') (s.step a) := by
  cases a with
  | hold b x =>
    simp only [Ide.step]
    split
    · next hb => exact .ok ⟨⟨q, h.hold hb x⟩, .hold b x hb rfl⟩
    · exact .error (by simp)
  | iderw b =>
    simp only [Ide.step]
    split
    · next hb => exact (h.iderw hb).post fun s' hs => ⟨⟨_, hs.1⟩, .iderw b rfl hb hs.2⟩
    · exact .error (by simp)
  | wake b =>
    simp only [Ide.step]
    split
    · exact .error (by simp)
    · exact .ok ⟨⟨q, h.look b⟩, .wake b rfl⟩
  | ideintr error =>
    refine (h.ideintr error).post ?_
    rintro s' ⟨b, rest, r, hq, hrest, ht⟩
    exact ⟨⟨rest, hrest⟩, .ideintr b rest r hq ht⟩

/-- Only `ideintr` serves a request, and it is the one at the head. -/
theorem Effect.served (hs : Effect q a s s') (h : Queue q s) :
    s'.served = s.served ∨ ∃ b, s.idequeue = some b ∧ s'.served = s.served ++ [b] := by
  cases hs with
  | hold b x _ hs => exact Or.inl (hs ▸ rfl)
  | iderw b _ _ ht => exact Or.inl ht.served
  | wake b hs =>
    subst hs
    unfold Ide.look
    split <;> exact Or.inl rfl
  | ideintr b rest r hq ht => exact Or.inr ⟨b, h.chain.head_eq.trans (by rw [hq]; rfl), ht.served⟩

/-- A call ends only when its buffer is done. -/
theorem Effect.returns {i : ℕ} (hs : Effect q a s s') (hb : s.call b = some i)
    (hb' : s'.call b = none) :
    (s.buf b).done = true := by
  have hstays : s'.call b = s.call b → (s.buf b).done = true := by
    intro he
    rw [he, hb] at hb'
    cases hb'
  cases hs with
  | hold c x _ hs => exact hstays (hs ▸ rfl)
  | iderw c _ hc ht =>
    have hbc : b ≠ c := by
      rintro rfl
      rw [hb] at hc
      cases hc
    refine hstays ?_
    rw [ht.call, update_of_ne hbc]
  | wake c hs =>
    subst hs
    unfold Ide.look at hstays
    split at hstays
    · next hdone =>
      by_cases hbc : b = c
      · rwa [hbc]
      · exact hstays (update_of_ne hbc ..)
    · exact hstays rfl
  | ideintr c rest r hq ht => exact hstays (by rw [ht.call])

theorem reachable_queue {ok : IdeAct → Ide → Prop} (h : Reachable step Init ok s) :
    ∃ q, Queue q s :=
  h.invariant (P := fun s => ∃ q, Queue q s) (fun _ hinit => ⟨[], hinit.queue⟩)
    fun a _ s' ⟨_, hq⟩ _ hs => ((hq.step a).1 s' hs).1

/-! ## What is on the disk -/

/-- The calls are for different blocks, and what a finished call has written is on the disk. -/
structure Stored (s : Ide) : Prop where
  apart : ∀ b b', s.call b ≠ none → s.call b' ≠ none → (s.buf b).place = (s.buf b').place → b = b'
  key : ∀ (b : Fin nbuf) (i : ℕ) (r : IdeRequest), s.call b = some i → s.arrivals[i]? = some r →
    (s.buf b).place = r.key
  disk : ∀ (b : Fin nbuf) (i : ℕ) (r : IdeRequest), s.call b = some i → i < s.served.length →
    s.arrivals[i]? = some r → r.write = true → s.disk r.key = r.data ∧ (s.buf b).data = r.data

theorem Init.stored (h : Init s) : Stored s := by
  obtain ⟨-, -, hcall, -, -⟩ := h
  refine ⟨fun b b' hb => absurd (hcall b) hb, fun b i r hb => ?_,
    fun b i r hb => ?_⟩ <;> simp [hcall] at hb

theorem Stored.hold (h : Stored s) (hb : s.call b = none) (x : CachedBuf) :
    Stored { s with buf := update s.buf b x } := by
  have hbuf : ∀ b', s.call b' ≠ none → update s.buf b x b' = s.buf b' := by
    intro b' hb'
    have hbb : b' ≠ b := by
      rintro rfl
      exact hb' hb
    exact update_of_ne hbb ..
  refine ⟨fun b1 b2 h1 h2 he => ?_, fun b' i r hb' hr => ?_, fun b' i r hb' hi hr hw => ?_⟩
  · replace he : (update s.buf b x b1).place = (update s.buf b x b2).place := he
    rw [hbuf b1 h1, hbuf b2 h2] at he
    exact h.apart b1 b2 h1 h2 he
  · show (update s.buf b x b').place = r.key
    rw [hbuf b' (by rw [show s.call b' = some i from hb']; simp)]
    exact h.key b' i r hb' hr
  · show s.disk r.key = r.data ∧ (update s.buf b x b').data = r.data
    rw [hbuf b' (by rw [show s.call b' = some i from hb']; simp)]
    exact h.disk b' i r hb' hi hr hw

theorem Stored.look (h : Stored s) (b : Fin nbuf) : Stored (s.look b) := by
  unfold Ide.look
  split
  · have hcall : ∀ {b' i}, update s.call b none b' = some i → s.call b' = some i := by
      intro b' i hb'
      by_cases hbb : b' = b
      · rw [hbb, update_self] at hb'
        cases hb'
      · rwa [update_of_ne hbb] at hb'
    have hne : ∀ {b'}, update s.call b none b' ≠ none → s.call b' ≠ none := by
      intro b' hb'
      obtain ⟨i, hi⟩ := Option.ne_none_iff_exists'.1 hb'
      rw [hcall hi]
      simp
    exact ⟨fun b1 b2 h1 h2 => h.apart b1 b2 (hne h1) (hne h2),
      fun b' i r hb' => h.key b' i r (hcall hb'), fun b' i r hb' => h.disk b' i r (hcall hb')⟩
  · exact h

theorem Stored.iderw (h : Stored s) (hq : Queue q s) (ht : Enqueued b q s t)
    (hapart : Apart (.iderw b) s) : Stored t := by
  -- The calls other than the new one.
  have hold : ∀ {b' i}, b' ≠ b → t.call b' = some i → s.call b' = some i := by
    intro b' i hbb hb'
    rwa [ht.call, update_of_ne hbb] at hb'
  have hne : ∀ {b'}, b' ≠ b → t.call b' ≠ none → s.call b' ≠ none := by
    intro b' hbb hb'
    rwa [ht.call, update_of_ne hbb] at hb'
  have harr : ∀ {b' i r}, s.call b' = some i → t.arrivals[i]? = some r →
      s.arrivals[i]? = some r := by
    intro b' i r hb' hr
    obtain ⟨r', hr', -⟩ := hq.waiting b' i hb'
    rw [ht.arrivals, List.getElem?_append_left (List.getElem?_eq_some_iff.1 hr').1] at hr
    exact hr
  have hnew : ∀ {i}, t.call b = some i → i = s.arrivals.length := by
    intro i hi
    rw [ht.call, update_self] at hi
    exact (Option.some.inj hi).symm
  refine ⟨fun b1 b2 h1 h2 he => ?_, fun b' i r hb' hr => ?_, fun b' i r hb' hi hr hw => ?_⟩
  · rw [ht.buf] at he
    by_cases hb1 : b1 = b
    · by_cases hb2 : b2 = b
      · rw [hb1, hb2]
      · exact absurd (hb1 ▸ he.symm) (hapart b2 (hne hb2 h2))
    · by_cases hb2 : b2 = b
      · exact absurd (hb2 ▸ he) (hapart b1 (hne hb1 h1))
      · exact h.apart b1 b2 (hne hb1 h1) (hne hb2 h2) he
  · rw [ht.buf]
    by_cases hbb : b' = b
    · subst hbb
      rw [hnew hb', ht.arrivals, List.getElem?_concat_length] at hr
      obtain rfl := Option.some.inj hr
      rfl
    · exact h.key b' i r (hold hbb hb') (harr (hold hbb hb') hr)
  · rw [ht.served] at hi
    rw [ht.buf, ht.disk]
    have hbb : b' ≠ b := by
      rintro rfl
      have := hq.length
      have := hnew hb'
      omega
    exact h.disk b' i r (hold hbb hb') hi (harr (hold hbb hb') hr) hw

theorem Stored.ideintr {r : IdeRequest} (h : Stored s) (hq : Queue (b :: rest) s)
    (ht : Completed b r s t) : Stored t := by
  have hplace : ∀ b', (t.buf b').place = (s.buf b').place := by
    intro b'
    by_cases hbb : b' = b
    · rw [hbb]
      exact ht.place
    · rw [ht.other b' hbb]
  have hb : s.call b = some s.served.length := by
    rw [← ht.buf_eq]
    exact (hq.pending _ r ht.request le_rfl).1
  refine ⟨fun b1 b2 h1 h2 he => ?_, fun b' i r' hb' hr' => ?_, fun b' i r' hb' hi hr' hw => ?_⟩
  · rw [ht.call] at h1 h2
    rw [hplace, hplace] at he
    exact h.apart b1 b2 h1 h2 he
  · rw [ht.call] at hb'
    rw [ht.arrivals] at hr'
    rw [hplace]
    exact h.key b' i r' hb' hr'
  · rw [ht.call] at hb'
    rw [ht.arrivals] at hr'
    rw [ht.served, List.length_append, List.length_singleton] at hi
    by_cases hbb : b' = b
    · subst hbb
      obtain rfl := Option.some.inj (hb'.symm.trans hb)
      obtain rfl := Option.some.inj (hr'.symm.trans ht.request)
      refine ⟨?_, ht.data hw⟩
      rw [ht.disk, if_pos hw, update_self]
    · -- Another call has its block to itself.
      have hi' : i < s.served.length := by
        refine Nat.lt_of_le_of_ne (Nat.le_of_lt_succ hi) fun he => hbb ?_
        subst he
        obtain ⟨r'', hr'', hrb, -⟩ := hq.waiting b' _ hb'
        obtain rfl := Option.some.inj (hr''.symm.trans ht.request)
        exact hrb.symm.trans ht.buf_eq
      obtain ⟨hdisk, hdata⟩ := h.disk b' i r' hb' hi' hr' hw
      have hkey : r'.key ≠ r.key := by
        intro he
        rw [← h.key b' i r' hb' hr', ← h.key b _ r hb ht.request] at he
        exact hbb (h.apart b' b (by rw [hb']; simp) (by rw [hb]; simp) he)
      rw [ht.other b' hbb, ht.disk]
      refine ⟨?_, hdata⟩
      split
      · rw [update_of_ne hkey]
        exact hdisk
      · exact hdisk

theorem reachable_stored (h : Reachable step Init Apart s) : (∃ q, Queue q s) ∧ Stored s := by
  refine h.invariant (P := fun s => (∃ q, Queue q s) ∧
    Stored s) (fun _ hinit => ⟨⟨[], hinit.queue⟩, hinit.stored⟩) ?_
  rintro a s s' ⟨⟨q, hq⟩, hstored⟩ hapart hs
  obtain ⟨hq', heffect⟩ := (hq.step a).1 s' hs
  refine ⟨hq', ?_⟩
  cases heffect with
  | hold b x hb hs => exact hs ▸ hstored.hold hb x
  | iderw b ha hb ht =>
    subst ha
    exact hstored.iderw hq ht hapart
  | wake b hs => exact hs ▸ hstored.look b
  | ideintr b rest r hqb ht => exact hstored.ideintr (hqb ▸ hq) ht

/-- The chain from `idequeue` is the queue of the requests that have arrived and have not been
    served, in order of arrival, and the disk works on the first of them. `ideintr` serves the one
    at the head, and no walk along the chain goes on for ever. A call of `iderw` returns when its
    own request has been served, and then its buffer is valid and not dirty; what it had to write is
    on the disk, where buffers in use are for different blocks. -/
theorem serves_in_order (s : Ide) (h : Reachable step Init (fun _ _ => True) s) :
    (∃ q, Chain s.qnext s.idequeue q ∧ q.Nodup ∧ s.arrivals.map IdeRequest.buf = s.served ++ q ∧
      (∀ b, b ∈ q ↔ ∃ i, s.call b = some i ∧ s.served.length ≤ i) ∧
      s.active = q.head?.map fun b => (s.buf b).command) ∧
    ∀ a, s.step a ≠ .error .hang ∧ ∀ s', s.step a = .ok s' →
      (s'.served = s.served ∨ ∃ b, s.idequeue = some b ∧ s'.served = s.served ++ [b]) ∧
      ∀ b i, s.call b = some i → s'.call b = none →
        ∃ r, s.arrivals[i]? = some r ∧ r.buf = b ∧ i < s.served.length ∧
          (s.buf b).valid = true ∧ (s.buf b).dirty = false ∧
          (Reachable step Init Apart s → r.write = true →
            s.disk r.key = r.data ∧ (s.buf b).data = r.data) := by
  obtain ⟨q, hq⟩ := reachable_queue h
  refine ⟨⟨q, hq.chain, hq.chain.nodup, hq.order, fun b => ⟨fun hb => ?_, ?_⟩, hq.active⟩,
    fun a => ⟨fun he => ?_, ?_⟩⟩
  · obtain ⟨j, hj⟩ := List.mem_iff_getElem?.1 hb
    obtain ⟨r, hr, rfl⟩ := hq.request hj
    exact ⟨_, (hq.pending _ r hr (Nat.le_add_right _ _)).1, Nat.le_add_right _ _⟩
  · rintro ⟨i, hb, hi⟩
    obtain ⟨r, hr, rfl, -⟩ := hq.waiting b i hb
    exact List.mem_iff_getElem?.2 ⟨_, hq.mem_of_pending hr hi⟩
  · exact (hq.step a).2 _ he rfl
  · intro s' hs
    obtain ⟨-, heffect⟩ := (hq.step a).1 s' hs
    refine ⟨heffect.served hq, fun b i hb hb' => ?_⟩
    have hdone := heffect.returns hb hb'
    have hi := hq.served_of_done hb hdone
    obtain ⟨r, hr, hrb, -⟩ := hq.waiting b i hb
    rw [CachedBuf.done, Bool.and_eq_true, Bool.not_eq_true'] at hdone
    exact ⟨r, hr, hrb, hi, hdone.1, hdone.2,
      fun hreach hw => (reachable_stored hreach).2.disk b i r hb hi hr hw⟩

instance (a : IdeAct) (s : Ide) : Decidable (Apart a s) :=
  match a with
  | .iderw _ => inferInstanceAs (Decidable (∀ _, _))
  | .hold _ _ | .wake _ | .ideintr _ => isTrue trivial

/-- Buffer 0 is to be written to block 5 and buffer 1 to be read from block 7. -/
def writeThenRead : List IdeAct :=
  [.hold 0 ⟨0, 5, true, false, true, fun _ => 9⟩, .hold 1 ⟨0, 7, true, false, false, fun _ => 0⟩,
    .iderw 0, .iderw 1, .wake 0, .ideintr false]

/-- A disk of zeroes and nothing to do. -/
def idle : Ide :=
  ⟨false, fun _ => ⟨-1, 0, false, false, false, fun _ => 0⟩, none, fun _ => none, none,
    fun _ => fun _ => 0,
  fun _ => none, [], []⟩

/-- `iderw(0)` is woken too early, and returns when its request has been served; that of buffer 1 is
    being read then. -/
theorem serves_in_order_write :
    ∃ s, Reachable step Init Apart s ∧ s.served = [0] ∧ s.idequeue = some 1 ∧ s.call 0 = some 0 ∧
      (s.look 0).call 0 = none ∧ s.disk (0, 5) = (s.buf 0).data := by
  have hinit : Init idle := ⟨rfl, rfl, fun _ => rfl, rfl, rfl⟩
  obtain ⟨s, hreach, hserved, hqueue, hcall, hdone, hreq⟩ :=
    reachable_any step Init Apart writeThenRead hinit
    (fun s => s.served = [0] ∧ s.idequeue = some 1 ∧ s.call 0 = some 0 ∧ (s.buf 0).done = true ∧
      s.arrivals[0]?.map (fun r => (r.write, r.key)) = some (true,
        ((0, 5) : Word × Word))) (by decide +kernel)
  have hlook : (s.look 0).call 0 = none := by
    rw [look, if_pos hdone]
    exact update_self (0 : Fin nbuf) none s.call
  have hstep : s.step (.wake 0) = .ok (s.look 0) := by
    simp [step, hcall]
  obtain ⟨r, hr, -, -, -, -, hdisk⟩ :=
    ((serves_in_order s (hreach.mono fun _ _ _ => trivial)).2 (.wake 0)).2 _ hstep
      |>.2 0 0 hcall hlook
  rw [hr] at hreq
  obtain ⟨hw, hkey⟩ := Prod.mk.inj (Option.some.inj hreq)
  obtain ⟨hdisk, hdata⟩ := hdisk hreach hw
  rw [hkey] at hdisk
  exact ⟨s, hreach, hserved, hqueue, hcall, hlook, hdisk.trans hdata.symm⟩

end Ide

end Xv6
