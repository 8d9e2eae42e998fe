import Xv6.Fs.Commit

set_option autoImplicit false

/-! # Crash atomicity of the log

Transactions run one after the other on the log; a crash cuts one of them off between any two of its
writes, and further crashes cut off recovery. -/

namespace Xv6

open RedoLog

namespace Log

open Dev

variable {start size : ℕ}

/-! ## Transactions -/

/-- One update of a block by the file system: read it, change it, `log_write` it. -/
def update (u : Word × Block) (s : Log × Dev) : Except LogPanic (Log × Dev) := do
  let (_, d) := bread u.1.toNat s.2
  let l ← logWrite u.1 s.1
  .ok (l, pin u.1.toNat u.2 d)

/-- The updates of a transaction, in order. -/
def fill : List (Word × Block) → Log × Dev → Except LogPanic (Log × Dev)
  | [], s => .ok s
  | u :: tx, s => do
      let s ← update u s
      fill tx s

/-- A transaction: `begin_op`, its updates, and the `end_op` that commits them. -/
def transaction (tx : List (Word × Block)) (s : Log × Dev) : Except LogPanic (Log × Dev) := do
  let (l, d) ← fill tx (beginOp s.1, s.2)
  let (doCommit, l) ← endOp l
  if doCommit then
    let (l, d) := commit l d
    .ok (endCommit l, d)
  else .ok (l, d)

/-- Transactions, one after the other. -/
def transactions : List (List (Word × Block)) → Log × Dev → Except LogPanic (Log × Dev)
  | [], s => .ok s
  | tx :: txs, s => do
      let s ← transaction tx s
      transactions txs s

/-- The contents of the blocks after a transaction. -/
def applyTx (h : ℕ → Block) (tx : List (Word × Block)) : ℕ → Block :=
  applyWrites (tx.map (fun u => (u.1.toNat, u.2))) h

/-- `log_write` succeeds exactly with room in the log and an operation in progress. -/
theorem logWrite_ok {w : Word} {l l' : Log} (h : logWrite w l = .ok l') :
    l.lh.length < logSize ∧ l.lh.length < l.size - 1 ∧ 1 ≤ l.outstanding ∧ l' = append w l := by
  unfold logWrite checkSize checkOutstanding at h
  split_ifs at h with hbig hout
  · cases h
  · cases h
  · cases h
  · have heq : append w l = l' := by
      injection h
    exact ⟨by omega, by omega, by omega, heq.symm⟩

/-- What the updates of a transaction have done before it commits: nothing on the disk. -/
structure Filled (tx : List (Word × Block)) (s s' : Log × Dev) : Prop where
  coherent : Coherent s'.2
  disk : s'.2.disk = s.2.disk
  writes : s'.2.writes = s.2.writes
  view : s'.2.view = applyTx s.2.view tx
  log : s'.1 = { s.1 with lh := s'.1.lh }
  mem : ∀ w, w ∈ s'.1.lh ↔ w ∈ s.1.lh ∨ w ∈ tx.map Prod.fst
  fits : s'.1.lh.length ≤ max s.1.lh.length (min logSize (s.1.size - 1))

variable {s s' : Log × Dev}

theorem update_filled {u : Word × Block} (hc : Coherent s.2)
    (h : update u s = .ok s') : Filled [u] s s' := by
  unfold update at h
  cases hw : logWrite u.1 s.1 with
  | error e => simp [hw, bind, Except.bind] at h
  | ok l =>
    obtain ⟨hlog, hsize, _, rfl⟩ := logWrite_ok hw
    simp only [hw, bind, Except.bind, Except.ok.injEq] at h
    have hb := emits_bread hc u.1.toNat
    subst h
    refine ⟨pin_coherent hb.coherent _ _, hb.disk, ?_, ?_, rfl, ?_, ?_⟩
    · simpa [pin] using hb.writes
    · funext x
      have hx := congrFun hb.view x
      simp only [applyWrites_nil] at hx
      simp only [pin_view, hx, applyTx, List.map_cons, List.map_nil, applyWrites_cons,
        applyWrites_nil, Function.update_apply]
    · intro w
      simp [append, mem_absorb, or_comm]
    · have := length_absorb_le u.1 s.1.lh
      simp only [append]
      omega

theorem Filled.trans {tx tx' : List (Word × Block)} {s s' s'' : Log × Dev} (h : Filled tx s s')
    (h' : Filled tx' s' s'') : Filled (tx ++ tx') s s'' where
  coherent := h'.coherent
  disk := h'.disk.trans h.disk
  writes := h'.writes.trans h.writes
  view := by rw [h'.view, h.view, applyTx, applyTx, applyTx, List.map_append, applyWrites_append]
  log := by rw [h'.log, h.log]
  mem w := by rw [h'.mem, h.mem, List.map_append, List.mem_append, or_assoc]
  fits := by
    have hsize : s'.1.size = s.1.size := by rw [h.log]
    have := h.fits
    have := h'.fits
    omega

theorem fill_filled : ∀ {tx : List (Word × Block)} {s s' : Log × Dev}, Coherent s.2 →
    fill tx s = .ok s' → Filled tx s s'
  | [], s, s', hc, h => by
      obtain rfl : s = s' := by injection h
      exact ⟨hc, rfl, rfl, rfl, rfl, by simp, by omega⟩
  | u :: tx, s, s', hc, h => by
      unfold fill at h
      cases hu : update u s with
      | error e => simp [hu, bind, Except.bind] at h
      | ok s1 =>
        simp only [hu, bind, Except.bind] at h
        have h1 := update_filled hc hu
        exact h1.trans (fill_filled h1.coherent h)

/-- Between transactions: the log is as `initlog` left it, the cache agrees with the disk, and the
    home blocks have the contents `h`. -/
structure Idle (start size : ℕ) (hsize : 0 < size) (h : ℕ → Block) (s : Log × Dev) : Prop where
  log : s.1 = init start size
  coherent : Coherent s.2
  written : s.2.view = s.2.disk
  clean : Clean (layout start size hsize) h s.2.disk

theorem Idle.boot (hsize : 0 < size) {disk : ℕ → Block} (evict : ℕ → ℕ → Bool)
    (hempty : Block.word (disk start) 0 = 0) :
    Idle start size hsize disk (init start size, Dev.boot disk evict) := by
  have hhead : decodeHead (disk start) = some [] := by simp [decodeHead, hempty]
  refine ⟨rfl, coherent_boot disk evict, rfl, ?_, fun b _ => rfl⟩
  exact congrArg (Option.map (List.map BitVec.toNat)) hhead

/-- What a crash can leave on the disk while a transaction takes the home blocks from `h` to
    `h'`. -/
def Between (start size : ℕ) (hsize : 0 < size) (h h' c : ℕ → Block) : Prop :=
  ∃ (lh : List Word) (f : ℕ → Block), lh.length ≤ size - 1 ∧
    (∀ w ∈ lh, Home start size w.toNat) ∧
    (∀ b, Home start size b → overlay (lh.map BitVec.toNat) f h b = h' b) ∧
    Crashed (layout start size hsize) (lh.map BitVec.toNat) f h c

variable {tx : List (Word × Block)}

/-- A transaction from an idle log that returns has filled the log and committed it. -/
theorem transaction_ok (hlog : s.1 = init start size)
    (hc : Coherent s.2) (hrun : transaction tx s = .ok s') :
    ∃ lh d, Filled tx (beginOp (init start size), s.2) (⟨start, size, 1, false, lh⟩, d) ∧
      s' = (init start size, (commit ⟨start, size, 0, true, lh⟩ d).2) := by
  unfold transaction at hrun
  rw [hlog] at hrun
  cases hfill : fill tx (beginOp (init start size), s.2) with
  | error e => simp [hfill, bind, Except.bind] at hrun
  | ok t =>
    obtain ⟨l, d⟩ := t
    have hf := fill_filled (s := (beginOp (init start size), s.2)) hc hfill
    obtain ⟨lh, rfl⟩ : ∃ lh, l = ⟨start, size, 1, false, lh⟩ := ⟨l.lh, hf.log⟩
    refine ⟨lh, d, hf, ?_⟩
    simp only [hfill, bind, Except.bind, endOp, Int.sub_self, Bool.false_eq_true, if_false,
      if_true, Except.ok.injEq] at hrun
    rw [← hrun]
    cases lh <;> rfl

/-- A transaction does not change the blocks it has not logged. -/
theorem Filled.applyTx_of_not_mem
    (hf : Filled tx s s') {b : ℕ} (hb : b ∉ s'.1.lh.map BitVec.toNat) (h : ℕ → Block) :
    applyTx h tx b = h b := by
  refine applyWrites_of_not_mem (fun w hw he => hb ?_)
  obtain ⟨u, hu, rfl⟩ := List.mem_map.1 hw
  exact List.mem_map.2 ⟨u.1, (hf.mem u.1).2 (Or.inr (List.mem_map_of_mem hu)), he⟩

variable {h : ℕ → Block}

/-- Once a transaction is filled, its overlay on the old contents gives the new contents. -/
theorem Filled.overlay_eq (hf : Filled tx s s') {b : ℕ} (hb : s.2.view b = h b) :
    overlay (s'.1.lh.map BitVec.toNat) s'.2.view h b = applyTx h tx b := by
  unfold overlay
  split_ifs with hmem
  · rw [hf.view]
    exact applyWrites_congr (Or.inl hb)
  · exact (hf.applyTx_of_not_mem hmem h).symm

/-- A transaction that returns, from an idle log: a crash at any moment of it leaves the old or the
    new contents to be recovered, and at its end the log is idle with the new ones. -/
theorem transaction_spec (hsize : 0 < size) (hidle : Idle start size hsize h s)
    (hhome : ∀ u ∈ tx, Home start size u.1.toNat) (hrun : transaction tx s = .ok s') :
    ∃ ws, s'.2.writes = s.2.writes ++ ws ∧ s'.2.disk = applyWrites ws s.2.disk ∧
      Throughout (Between start size hsize h (applyTx h tx)) ws s.2.disk ∧
      Idle start size hsize (applyTx h tx) s' := by
  obtain ⟨lh, d, hf, rfl⟩ := transaction_ok hidle.log hidle.coherent hrun
  have hfits := hf.fits
  have hmem : ∀ w, w ∈ lh ↔ w ∈ tx.map Prod.fst := by
    intro w
    simpa [beginOp, init] using hf.mem w
  simp only [beginOp, init, List.length_nil] at hfits
  have hlhome : ∀ w ∈ lh, Home start size w.toNat := by
    intro w hw
    obtain ⟨u, hu, rfl⟩ := List.mem_map.1 ((hmem w).1 hw)
    exact hhome u hu
  have hover : ∀ b, Home start size b →
      overlay (lh.map BitVec.toNat) d.view h b = applyTx h tx b := by
    intro b hb
    refine hf.overlay_eq ?_
    rw [hidle.written]
    exact hidle.clean.home b hb
  have hdisk : d.disk = s.2.disk := hf.disk
  have hwrites : d.writes = s.2.writes := hf.writes
  have hclean := hidle.clean
  rw [← hdisk] at hclean ⊢
  rw [← hwrites]
  by_cases hne : lh = []
  · -- nothing was logged, so nothing is written
    subst hne
    have htx : tx = [] := by
      cases tx with
      | nil => rfl
      | cons u tx => simpa using (hmem u.1)
    subst htx
    have hview : d.view = s.2.view := hf.view
    exact ⟨[], (List.append_nil _).symm, rfl,
      fun j => ⟨[], h, Nat.zero_le _, by simp, fun b _ => rfl, Or.inl (by simpa using hclean)⟩,
      rfl, hf.coherent, hview.trans (hidle.written.trans hdisk.symm), hclean⟩
  · obtain ⟨old, old', hemits⟩ := commit_emits (l := ⟨start, size, 0, true, lh⟩) hf.coherent hne
      (by simp only; omega) hsize hlhome
    obtain ⟨hthrough, hdone⟩ := hclean.transaction (lh.map BitVec.toNat) d.view
      (by rw [List.length_map]; simp only [layout]; omega)
      (fun a ha => by
        obtain ⟨w, hw, rfl⟩ := List.mem_map.1 ha
        exact hlhome w hw)
      (layout_decode (by omega) old) (layout_decode_nil hsize old')
    refine ⟨_, hemits.writes, hemits.disk, hthrough.mono fun c hc =>
      ⟨lh, d.view, by omega, hlhome, hover, hc⟩, rfl, hemits.coherent, ?_, ?_⟩
    · -- a block that the cache and the disk disagree on was logged, so it has been written home
      refine hemits.view.trans (Eq.trans (funext fun b => applyWrites_congr ?_) hemits.disk.symm)
      by_cases hb : b ∈ lh.map BitVec.toNat
      · right
        refine ⟨(b, d.view b), ?_, rfl⟩
        simp only [commitWrites, List.mem_append]
        exact Or.inr (Or.inr (Or.inl (List.mem_map.2 ⟨b, hb, rfl⟩)))
      · left
        rw [hdisk, ← hidle.written]
        exact (congrFun hf.view b).trans (hf.applyTx_of_not_mem hb _)
    · rw [hemits.disk]
      exact ⟨hdone.empty, fun b hb => (hdone.home b hb).trans (hover b hb)⟩

theorem transactions_spec (hsize : 0 < size) : ∀ {txs : List (List (Word × Block))} {h : ℕ → Block}
    {s s' : Log × Dev}, Idle start size hsize h s →
      (∀ tx ∈ txs, ∀ u ∈ tx, Home start size u.1.toNat) → transactions txs s = .ok s' →
      Idle start size hsize (txs.foldl applyTx h) s'
  | [], h, s, s', hidle, _, hrun => by
      obtain rfl : s = s' := by injection hrun
      exact hidle
  | tx :: txs, h, s, s', hidle, hhome, hrun => by
      unfold transactions at hrun
      cases htx : transaction tx s with
      | error e => simp [htx, bind, Except.bind] at hrun
      | ok s1 =>
        simp only [htx, bind, Except.bind] at hrun
        obtain ⟨_, _, _, _, hidle1⟩ :=
          transaction_spec hsize hidle (hhome tx List.mem_cons_self) htx
        have hrest := transactions_spec hsize hidle1
          (fun t ht => hhome t (List.mem_cons_of_mem _ ht)) hrun
        exact hrest

/-- Updates that find room in the log succeed. -/
theorem fill_returns : ∀ (tx : List (Word × Block)) {s : Log × Dev}, 1 ≤ s.1.outstanding →
    s.1.lh.length + tx.length ≤ min logSize (s.1.size - 1) → ∃ s', fill tx s = .ok s'
  | [], s, _, _ => ⟨s, rfl⟩
  | u :: tx, s, hout, hfit => by
      rw [List.length_cons] at hfit
      have hsize : checkSize s.1 = .ok () := if_neg (by omega)
      have hops : checkOutstanding s.1 = .ok () := if_neg (by omega)
      have hupdate : update u s =
          .ok (append u.1 s.1, pin u.1.toNat u.2 (bread u.1.toNat s.2).2) := by
        simp only [update, logWrite, hsize, hops]
        rfl
      have hlen := length_absorb_le u.1 s.1.lh
      obtain ⟨s', hs'⟩ := fill_returns tx
        (s := (append u.1 s.1, pin u.1.toNat u.2 (bread u.1.toNat s.2).2)) hout
        (by simp only [append]; omega)
      refine ⟨s', ?_⟩
      simp only [fill, hupdate]
      exact hs'

/-- A transaction that fits the log returns. -/
theorem transaction_returns {hsize : 0 < size} (tx : List (Word × Block))
    {s : Log × Dev} (hidle : Idle start size hsize h s)
    (hfit : tx.length ≤ min logSize (size - 1)) :
    ∃ s', transaction tx s = .ok s' := by
  obtain ⟨⟨l, d⟩, hfill⟩ := fill_returns tx (s := (beginOp (init start size), s.2))
    (by simp [beginOp, init]) (by simpa [beginOp, init] using hfit)
  have hf := fill_filled (s := (beginOp (init start size), s.2)) hidle.coherent hfill
  obtain ⟨lh, rfl⟩ : ∃ lh, l = ⟨start, size, 1, false, lh⟩ := ⟨l.lh, hf.log⟩
  refine ⟨(init start size, (commit ⟨start, size, 0, true, lh⟩ d).2), ?_⟩
  unfold transaction
  simp only [hidle.log, hfill, bind, Except.bind, endOp, Int.sub_self, Bool.false_eq_true,
    if_false, if_true]
  cases lh <;> rfl

/-! ## Crashes -/

/-- The disks that any number of crashes inside `recover_from_log` can make of the disk `c`. -/
inductive Recrashes (start : ℕ) (c : ℕ → Block) : (ℕ → Block) → Prop
  | refl : Recrashes start c c
  | crash {c' : ℕ → Block} {ev : ℕ → ℕ → Bool} {r : Dev} (j : ℕ) (h : Recrashes start c c')
      (hr : recoverFromLog start (Dev.boot c' ev) = .ok r) :
      Recrashes start c (applyWrites (r.writes.take j) c')

theorem recoverFromLog_between (hsize : 0 < size) {h h' c : ℕ → Block}
    (hc : Between start size hsize h h' c) (ev : ℕ → ℕ → Bool) :
    ∃ r, recoverFromLog start (Dev.boot c ev) = .ok r ∧
      Throughout (Between start size hsize h h') r.writes c ∧ Block.word (r.disk start) 0 = 0 ∧
      ((∀ b, Home start size b → r.disk b = h b) ∨ (∀ b, Home start size b → r.disk b = h' b)) := by
  obtain ⟨lh, f, hlen, hhome, hover, hcrashed⟩ := hc
  obtain ⟨r, hr, hthrough, hword, hclean⟩ :=
    recoverFromLog_crashed hsize hlen hhome hcrashed ev
  refine ⟨r, hr, hthrough.mono fun d hd => ⟨lh, f, hlen, hhome, hover, hd⟩, hword, ?_⟩
  rcases hclean with hold | hnew
  · exact Or.inl hold.home
  · exact Or.inr fun b hb => (hnew.home b hb).trans (hover b hb)

theorem Recrashes.between (hsize : 0 < size) {h h' c c' : ℕ → Block} (hre : Recrashes start c c')
    (hc : Between start size hsize h h' c) : Between start size hsize h h' c' := by
  induction hre with
  | refl => exact hc
  | @crash c' ev r j _ hr ih =>
    obtain ⟨r', hr', hthrough, _⟩ := recoverFromLog_between hsize ih ev
    obtain rfl : r' = r := Except.ok.inj (hr'.symm.trans hr)
    exact hthrough j

/-- With the log empty, nothing is being changed. -/
theorem Between.of_clean {hsize : 0 < size} {h c : ℕ → Block}
    (hc : Clean (layout start size hsize) h c) : Between start size hsize h h c :=
  ⟨[], h, Nat.zero_le _, fun _ hw => absurd hw List.not_mem_nil, fun _ _ => rfl, Or.inl hc⟩

/-- The log makes transactions atomic with respect to crashes. After the transactions `done`, let a
    crash cut off the transaction `tx` after `j` of its writes, and let any number of crashes cut
    off recovery; then one complete recovery leaves the log empty and the home blocks as they were
    after `done`, or as they are after `tx` too, and so for sure if `tx` had made all its writes. -/
theorem recoverFromLog_atomic (hsize : 0 < size) {disk : ℕ → Block} (evict : ℕ → ℕ → Bool)
    (hempty : Block.word (disk start) 0 = 0) {done : List (List (Word × Block))}
    (hhome : ∀ t ∈ done ++ [tx], ∀ u ∈ t, Home start size u.1.toNat)
    (hdone : transactions done (init start size, Dev.boot disk evict) = .ok s)
    (htx : transaction tx s = .ok s') (j : ℕ) {c : ℕ → Block} (hcrash : Recrashes start
      (applyWrites ((s'.2.writes.drop s.2.writes.length).take j) s.2.disk) c) (ev : ℕ → ℕ → Bool) :
    ∃ r, recoverFromLog start (Dev.boot c ev) = .ok r ∧ Block.word (r.disk start) 0 = 0 ∧
      ((∀ b, Home start size b → r.disk b = done.foldl applyTx disk b) ∨
        (∀ b, Home start size b → r.disk b = (done ++ [tx]).foldl applyTx disk b)) ∧
      (s'.2.writes.length - s.2.writes.length ≤ j →
        ∀ b, Home start size b → r.disk b = (done ++ [tx]).foldl applyTx disk b) := by
  have hidle1 := transactions_spec hsize (Idle.boot hsize evict hempty)
    (fun t ht => hhome t (List.mem_append_left _ ht)) hdone
  obtain ⟨ws, hws, hdisk, hthrough, hidle2⟩ := transaction_spec hsize hidle1
    (hhome tx (List.mem_append_right _ List.mem_cons_self)) htx
  rw [hws, List.drop_left] at hcrash
  rw [List.foldl_append, List.foldl_cons, List.foldl_nil]
  obtain ⟨r, hr, _, hword, hhomes⟩ :=
    recoverFromLog_between hsize (hcrash.between hsize (hthrough j)) ev
  refine ⟨r, hr, hword, hhomes, fun hj => ?_⟩
  -- all writes made: the transaction is complete on the disk, and stays so through recoveries
  have hlen : ws.length ≤ j := by
    rw [hws, List.length_append] at hj
    omega
  rw [List.take_of_length_le hlen, ← hdisk] at hcrash
  obtain ⟨r', hr', _, _, hnew⟩ :=
    recoverFromLog_between hsize (hcrash.between hsize (Between.of_clean hidle2.clean)) ev
  obtain rfl : r' = r := Except.ok.inj (hr'.symm.trans hr)
  exact hnew.elim id id

/-- A log of two slots behind blocks 0 and 1: after a transaction on block 1, one on block 0 is cut
    off with its header written, and the first recovery is cut off after one write. -/
theorem recoverFromLog_atomic_twoSlots : ∃ (s s' : Log × Dev) (r r' : Dev),
    transactions [[(1, fun _ => 7)]] (init 2 3, Dev.boot (fun _ _ => 0) (fun _ _ => true)) = .ok s ∧
    transaction [(0, fun _ => 5)] s = .ok s' ∧
    recoverFromLog 2 (Dev.boot (applyWrites ((s'.2.writes.drop s.2.writes.length).take 2) s.2.disk)
      (fun _ _ => false)) = .ok r ∧
    recoverFromLog 2 (Dev.boot (applyWrites (r.writes.take 1) (applyWrites
      ((s'.2.writes.drop s.2.writes.length).take 2) s.2.disk)) (fun _ _ => false)) = .ok r' ∧
    r'.disk 1 = fun _ => 7 := by
  have hidle : Idle 2 3 (by decide) (fun _ _ => 0)
      (init 2 3, Dev.boot (fun _ _ => 0) (fun _ _ => true)) :=
    Idle.boot (by decide) _ rfl
  have hhome : ∀ t ∈ [[(1, fun _ => 7)], [((0 : Word), (fun _ => 5 : Block))]], ∀ u ∈ t,
      Home 2 3 u.1.toNat := by
    simp [Home]
  obtain ⟨s, hs⟩ := transaction_returns [(1, fun _ => 7)] hidle (by decide)
  have hdone : transactions [[(1, fun _ => 7)]]
      (init 2 3, Dev.boot (fun _ _ => 0) (fun _ _ => true)) = .ok s := by
    simp only [transactions, hs]
    rfl
  obtain ⟨s', hs'⟩ := transaction_returns [(0, fun _ => 5)]
    (transactions_spec (by decide) hidle (fun t ht => hhome t (by simp_all)) hdone) (by decide)
  obtain ⟨r, hr, _⟩ := recoverFromLog_atomic (by decide) _ rfl hhome hdone hs' 2 .refl
    (fun _ _ => false)
  obtain ⟨r', hr', _, hr1, _⟩ := recoverFromLog_atomic (by decide) _ rfl hhome hdone hs' 2
    (.crash 1 .refl hr) (fun _ _ => false)
  refine ⟨s, s', r, r', hdone, hs', hr, hr', ?_⟩
  rcases hr1 with hold | hnew
  · exact hold 1 (by decide)
  · exact hnew 1 (by decide)

end Log

end Xv6
