import Xv6.Fs.Log
import Xv6.Lib.RedoLog

set_option autoImplicit false

/-! # Commit and recovery as a redo log

The functions of `log.c` are turned into the lists of their disk writes: whatever the buffer cache
recycles in between, the disk and what `bread` sees both change by exactly these writes. The lists
are those of a redo log, whose theory says what recovery makes of a disk that a crash left
behind. -/

namespace Xv6

open Function RedoLog

namespace Dev

variable {d d' d'' : Dev} {ws ws' : List (ℕ × Block)}

/-- From `d` to `d'` exactly the writes `ws` have been made. -/
structure Emits (ws : List (ℕ × Block)) (d d' : Dev) : Prop where
  writes : d'.writes = d.writes ++ ws
  disk : d'.disk = applyWrites ws d.disk
  view : d'.view = applyWrites ws d.view
  coherent : Coherent d'

theorem Emits.trans (h : Emits ws d d') (h' : Emits ws' d' d'') : Emits (ws ++ ws') d d'' where
  writes := by rw [h'.writes, h.writes, List.append_assoc]
  disk := by rw [h'.disk, h.disk, applyWrites_append]
  view := by rw [h'.view, h.view, applyWrites_append]
  coherent := h'.coherent

theorem emits_bread (h : Coherent d) (b : ℕ) : Emits [] d (bread b d).2 where
  writes := by rw [bread_writes, List.append_nil]
  disk := bread_disk b d
  view := funext (bread_view h b)
  coherent := bread_coherent h b

theorem emits_bwrite (h : Coherent d) (b : ℕ) (data : Block) :
    Emits [(b, data)] d (bwrite b data d) where
  writes := rfl
  disk := rfl
  view := by
    funext x
    by_cases hx : x = b
    · subst hx; simp
    · simp [hx]
  coherent := bwrite_coherent h b data

end Dev

namespace Log

open Dev

variable {d : Dev} {start : ℕ}

/-! ## The writes of each function -/

theorem writeHead_emits (start : ℕ) (h : Coherent d) (lh : List Word) :
    Emits [(start, encodeHead lh (d.view start))] d (writeHead start lh d) := by
  have hw := (emits_bread h start).trans (emits_bwrite (bread_coherent h start) start
    (encodeHead lh (bread start d).1))
  simpa only [writeHead, bread_fst h, List.nil_append] using hw

/-- `write_log` copies what `bread` sees of each logged block into its slot. -/
theorem writeLog_emits : ∀ (lh : List Word) (tail : ℕ) {d : Dev}, Coherent d →
    (∀ w ∈ lh, ∀ i < lh.length, w.toNat ≠ start + (tail + i) + 1) →
    Emits (lh.mapIdx (fun i w => (start + (tail + i) + 1, d.view w.toNat))) d
      (writeLog start tail lh d) := by
  intro lh
  induction lh with
  | nil =>
    intro tail d h _
    exact ⟨by simp [writeLog], rfl, rfl, h⟩
  | cons w lh ih =>
    intro tail d h hne
    have h1 := emits_bread h (start + tail + 1)
    have h2 := h1.trans (emits_bread h1.coherent w.toNat)
    have hdata : (bread w.toNat (bread (start + tail + 1) d).2).1 = d.view w.toNat := by
      rw [bread_fst h1.coherent, h1.view]
      rfl
    have h3 := h2.trans (emits_bwrite h2.coherent (start + tail + 1)
      (bread w.toNat (bread (start + tail + 1) d).2).1)
    rw [hdata] at h3
    -- the slot just written is no logged block, so the rest sees the same contents
    have hview : ∀ x ∈ lh, (bwrite (start + tail + 1) (d.view w.toNat)
        (bread w.toNat (bread (start + tail + 1) d).2).2).view x.toNat = d.view x.toNat := by
      intro x hx
      rw [h3.view]
      refine applyWrites_of_not_mem (fun v hv he => ?_)
      simp only [List.nil_append, List.mem_singleton] at hv
      rw [hv] at he
      exact hne x (List.mem_cons_of_mem _ hx) 0 (by simp) he.symm
    have h4 := h3.trans (ih (tail + 1) h3.coherent (fun x hx i hi => by
      have := hne x (List.mem_cons_of_mem _ hx) (i + 1) (by simpa using hi)
      omega))
    rw [List.mapIdx_cons]
    simp only [writeLog, hdata]
    convert h4 using 1
    simp only [List.nil_append, List.singleton_append, List.cons.injEq, Nat.add_zero, true_and]
    refine List.ext_getElem (by simp) (fun i hi hi' => ?_)
    simp only [List.getElem_mapIdx]
    rw [hview _ (List.getElem_mem _)]
    congr 1
    omega

/-- `install_trans` brings home what the slots hold. -/
theorem installTrans_emits (start : ℕ) (f : ℕ → Block) :
    ∀ (lh : List Word) (tail : ℕ) {d : Dev}, Coherent d →
    (∀ w ∈ lh, ∀ i < lh.length, w.toNat ≠ start + (tail + i) + 1) →
    (∀ i w, lh[i]? = some w → d.view (start + (tail + i) + 1) = f w.toNat) →
    Emits (homeWrites (lh.map BitVec.toNat) f) d (installTrans start tail lh d) := by
  intro lh
  induction lh with
  | nil =>
    intro tail d h _ _
    exact ⟨by simp [installTrans, homeWrites], rfl, rfl, h⟩
  | cons w lh ih =>
    intro tail d h hne hslot
    have h1 := emits_bread h (start + tail + 1)
    have h2 := h1.trans (emits_bread h1.coherent w.toNat)
    have hdata : (bread (start + tail + 1) d).1 = f w.toNat := by
      rw [bread_fst h]
      exact hslot 0 w rfl
    have h3 := h2.trans (emits_bwrite h2.coherent w.toNat (f w.toNat))
    -- the block just brought home is none of the slots still to be read
    have hslot' : ∀ i x, lh[i]? = some x → (bwrite w.toNat (f w.toNat)
        (bread w.toNat (bread (start + tail + 1) d).2).2).view (start + (tail + 1 + i) + 1) =
          f x.toNat := by
      intro i x hi
      have hlt := (List.getElem?_eq_some_iff.1 hi).1
      have hw := hne w List.mem_cons_self (i + 1) (by simpa using hlt)
      have hx := hslot (i + 1) x (by simpa using hi)
      rw [h3.view, applyWrites_of_not_mem, ← hx]
      · congr 1
        omega
      · intro v hv
        simp only [List.nil_append, List.mem_singleton] at hv
        rw [hv]
        omega
    have h4 := h3.trans (ih (tail + 1) h3.coherent (fun x hx i hi => by
      have := hne x (List.mem_cons_of_mem _ hx) (i + 1) (by simpa using hi)
      omega) hslot')
    simpa only [installTrans, hdata, homeWrites, List.map_cons, List.nil_append,
      List.singleton_append] using h4

/-! ## The header and the layout -/

variable {lh : List Word}

theorem decodeHead_encodeHead (hlen : lh.length ≤ logSize) (old : Block) :
    decodeHead (encodeHead lh old) = some lh := by
  have hn : (Block.word (encodeHead lh old) 0).toInt.toNat = lh.length := by
    have hlt : lh.length < 2 ^ 31 := by
      have : logSize < 2 ^ 31 := by decide
      omega
    simp only [Block.word, encodeHead, Fin.ofNat, Nat.zero_mod, if_true]
    have hnat : (BitVec.ofNat 32 lh.length).toNat = lh.length := by
      rw [BitVec.toNat_ofNat]
      omega
    rw [BitVec.toInt_eq_toNat_of_lt (by omega), hnat, Int.toNat_natCast]
  unfold decodeHead
  simp only [hn]
  rw [if_pos hlen]
  congr 1
  refine List.ext_getElem (by simp) (fun i hi hi' => ?_)
  have hlt : i + 1 < blockWords := by
    have : logSize < blockWords := by decide
    omega
  simp only [List.getElem_map, List.getElem_range, Block.word, encodeHead, Fin.ofNat,
    Nat.mod_eq_of_lt hlt, Nat.succ_ne_zero, if_false, Nat.add_sub_cancel,
    List.getElem?_eq_getElem hi']

@[simp] theorem word_encodeHead_nil (old : Block) : Block.word (encodeHead [] old) 0 = 0 := rfl

/-- A block is home if it lies outside the log. -/
def Home (start size : ℕ) (b : ℕ) : Prop := b < start ∨ start + size ≤ b

instance (start size b : ℕ) : Decidable (Home start size b) :=
  inferInstanceAs (Decidable (_ ∨ _))

/-- The log of `size` blocks from `start` on, as a redo log. -/
def layout (start size : ℕ) (hsize : 0 < size) : Layout ℕ Block where
  head := start
  slot i := start + i + 1
  home := Home start size
  decode blk := (decodeHead blk).map (List.map BitVec.toNat)
  limit := size - 1
  slot_inj i j h := by omega
  slot_ne_head i := by omega
  head_not_home := by unfold Home; omega
  slot_not_home i hi := by unfold Home; omega

variable {size : ℕ} {hsize : 0 < size}

theorem layout_decode (hlen : lh.length ≤ logSize) (old : Block) :
    (layout start size hsize).decode (encodeHead lh old) = some (lh.map BitVec.toNat) := by
  simp only [layout, decodeHead_encodeHead hlen, Option.map_some]

theorem layout_decode_nil (hsize : 0 < size) (old : Block) :
    (layout start size hsize).decode (encodeHead [] old) = some [] :=
  layout_decode (Nat.zero_le _) old

theorem slotWrites_layout (hsize : 0 < size) (lh : List Word) (f : ℕ → Block) :
    slotWrites (layout start size hsize) (lh.map BitVec.toNat) f =
      lh.mapIdx (fun i w => (start + (0 + i) + 1, f w.toNat)) := by
  refine List.ext_getElem (by simp [slotWrites]) (fun i hi hi' => ?_)
  simp [slotWrites, layout]

/-! ## Commit and recovery as a redo log -/

/-- The writes of a nonempty `commit` are those of a transaction of the redo log. -/
theorem commit_emits {l : Log} (h : Coherent d) (hne : l.lh ≠ []) (hlen : l.lh.length ≤ l.size - 1)
    (hsize : 0 < l.size) (hhome : ∀ w ∈ l.lh, Home l.start l.size w.toNat) :
    ∃ old old', Emits (commitWrites (layout l.start l.size hsize) (l.lh.map BitVec.toNat) d.view
      (encodeHead l.lh old) (encodeHead [] old')) d (commit l d).2 := by
  have hslots : ∀ w ∈ l.lh, ∀ i < l.lh.length, w.toNat ≠ l.start + (0 + i) + 1 := by
    intro w hw i hi
    rcases hhome w hw with hlt | hge <;> omega
  have h1 := writeLog_emits l.lh 0 h hslots
  rw [← slotWrites_layout hsize] at h1
  have h2 := h1.trans (writeHead_emits l.start h1.coherent l.lh)
  have hview : ∀ i w, l.lh[i]? = some w → (writeHead l.start l.lh
      (writeLog l.start 0 l.lh d)).view (l.start + (0 + i) + 1) = d.view w.toNat := by
    intro i w hi
    rw [h2.view, applyWrites_append, applyWrites_of_not_mem]
    · have hslot : (l.lh.map BitVec.toNat)[i]? = some w.toNat := by
        rw [List.getElem?_map, hi]
        rfl
      rw [Nat.zero_add]
      exact applyWrites_slotWrites (L := layout l.start l.size hsize) hslot
    · intro v hv
      rw [List.mem_singleton.1 hv]
      omega
  have h3 := h2.trans (installTrans_emits l.start d.view l.lh 0 h2.coherent hslots hview)
  have h4 := h3.trans (writeHead_emits l.start h3.coherent [])
  have hpos : 0 < l.lh.length := List.length_pos_of_ne_nil hne
  rw [List.append_assoc, List.append_assoc] at h4
  simp only [commit, if_pos hpos]
  exact ⟨_, _, h4⟩

variable {c f h : ℕ → Block}

/-- Recovery of a log that lists `lh`, on a disk whose slots hold the contents `f`. -/
theorem recoverFromLog_emits (hsize : 0 < size) (ev : ℕ → ℕ → Bool)
      (hhead : decodeHead (c start) = some lh)
    (hlen : lh.length ≤ size - 1) (hhome : ∀ w ∈ lh, Home start size w.toNat)
    (hslot : ∀ i w, lh[i]? = some w → c (start + i + 1) = f w.toNat) :
    ∃ r old, recoverFromLog start (Dev.boot c ev) = .ok r ∧
      Emits (homeWrites (lh.map BitVec.toNat) f ++ [(start, encodeHead [] old)])
        (Dev.boot c ev) r := by
  have hboot := coherent_boot c ev
  have h1 := emits_bread hboot start
  have hread : readHead start (Dev.boot c ev) = .ok (lh, (bread start (Dev.boot c ev)).2) := by
    have hfst : (bread start (Dev.boot c ev)).1 = c start := bread_fst hboot start
    simp only [readHead, hfst, hhead]
  have h2 := h1.trans (installTrans_emits start f lh 0 h1.coherent
    (fun w hw i hi => by rcases hhome w hw with hlt | hge <;> omega)
    (fun i w hi => by
      rw [h1.view, Nat.zero_add]
      exact hslot i w hi))
  have h3 := h2.trans (writeHead_emits start h2.coherent [])
  refine ⟨_, _, ?_, h3⟩
  simp only [recoverFromLog, hread]
  rfl

/-- Recovery with an empty log only clears the header again. -/
theorem recoverFromLog_clean (hsize : 0 < size)
    (hc : Clean (layout start size hsize) h c) (ev : ℕ → ℕ → Bool) :
    ∃ r, recoverFromLog start (Dev.boot c ev) = .ok r ∧
      Throughout (Clean (layout start size hsize) h) r.writes c ∧
      Block.word (r.disk start) 0 = 0 ∧ Clean (layout start size hsize) h r.disk := by
  have hhead : decodeHead (c start) = some [] := by
    obtain ⟨lh, hlh, hnil⟩ := Option.map_eq_some_iff.1 hc.empty
    rw [List.map_eq_nil_iff.1 hnil] at hlh
    exact hlh
  obtain ⟨r, old, hr, hemits⟩ := recoverFromLog_emits (f := c) hsize ev hhead (Nat.zero_le _)
    (fun w hw => absurd hw List.not_mem_nil) (fun i w hi => by simp at hi)
  have hwrites : r.writes = [(start, encodeHead [] old)] := hemits.writes
  have hdisk : r.disk = update c start (encodeHead [] old) := hemits.disk
  have hcleared : Clean (layout start size hsize) h
      (update c start (encodeHead [] old)) :=
    hc.head_write (layout_decode_nil hsize old)
  refine ⟨r, hr, ?_, ?_, ?_⟩
  · rw [hwrites]
    exact Throughout.single hc hcleared
  · rw [hdisk, update_self, word_encodeHead_nil]
  · rw [hdisk]
    exact hcleared

/-- Recovery of a transaction whose header is on the disk completes it. -/
theorem recoverFromLog_pending (hsize : 0 < size)
    (hlen : lh.length ≤ size - 1) (hhome : ∀ w ∈ lh, Home start size w.toNat)
    (hc : Pending (layout start size hsize) (lh.map BitVec.toNat) f h c) (ev : ℕ → ℕ → Bool) :
    ∃ r, recoverFromLog start (Dev.boot c ev) = .ok r ∧
      Throughout (fun d => Pending (layout start size hsize) (lh.map BitVec.toNat) f h d ∨
        Clean (layout start size hsize) (overlay (lh.map BitVec.toNat) f h) d) r.writes c ∧
      Block.word (r.disk start) 0 = 0 ∧
      Clean (layout start size hsize) (overlay (lh.map BitVec.toNat) f h) r.disk := by
  have hhead : decodeHead (c start) = some lh := by
    obtain ⟨lh', hlh', hmap⟩ := Option.map_eq_some_iff.1 hc.listed
    have hinj : Function.Injective (BitVec.toNat (w := 32)) := fun _ _ => BitVec.eq_of_toNat_eq
    rw [hinj.list_map hmap] at hlh'
    exact hlh'
  obtain ⟨r, old, hr, hemits⟩ := recoverFromLog_emits hsize ev hhead hlen hhome
    (fun i w hi => hc.logged i w.toNat (by rw [List.getElem?_map, hi]; rfl))
  have hwrites : r.writes = homeWrites (lh.map BitVec.toNat) f ++ [(start, encodeHead [] old)] :=
    hemits.writes
  have hdisk := hemits.disk
  obtain ⟨hthrough, hdone⟩ := hc.install (by rw [List.length_map]; exact hlen)
    (fun a ha => by
      obtain ⟨w, hw, rfl⟩ := List.mem_map.1 ha
      exact hhome w hw)
    (layout_decode_nil hsize old)
  refine ⟨r, hr, ?_, ?_, ?_⟩
  · rw [hwrites]
    exact hthrough
  · rw [hdisk, applyWrites_append, applyWrites_cons, applyWrites_nil, update_self,
      word_encodeHead_nil]
  · rw [hdisk]
    exact hdone

/-- Recovery from anything a crash can leave behind: it succeeds, a crash inside it leaves such a
    thing again, and at its end the log is empty and the transaction is done or not. -/
theorem recoverFromLog_crashed (hsize : 0 < size)
    (hlen : lh.length ≤ size - 1) (hhome : ∀ w ∈ lh, Home start size w.toNat)
    (hc : Crashed (layout start size hsize) (lh.map BitVec.toNat) f h c) (ev : ℕ → ℕ → Bool) :
    ∃ r, recoverFromLog start (Dev.boot c ev) = .ok r ∧
      Throughout (Crashed (layout start size hsize) (lh.map BitVec.toNat) f h) r.writes c ∧
      Block.word (r.disk start) 0 = 0 ∧
      (Clean (layout start size hsize) h r.disk ∨
        Clean (layout start size hsize) (overlay (lh.map BitVec.toNat) f h) r.disk) := by
  rcases hc with hold | hpending | hnew
  · obtain ⟨r, hr, hthrough, hword, hclean⟩ := recoverFromLog_clean hsize hold ev
    exact ⟨r, hr, hthrough.mono fun _ h => Or.inl h, hword, Or.inl hclean⟩
  · obtain ⟨r, hr, hthrough, hword, hclean⟩ := recoverFromLog_pending hsize hlen hhome hpending ev
    exact ⟨r, hr, hthrough.mono fun _ h => Or.inr h, hword, Or.inr hclean⟩
  · obtain ⟨r, hr, hthrough, hword, hclean⟩ := recoverFromLog_clean hsize hnew ev
    exact ⟨r, hr, hthrough.mono fun _ h => Or.inr (Or.inr h), hword, Or.inr hclean⟩

end Log

end Xv6
