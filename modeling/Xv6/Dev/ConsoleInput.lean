import Xv6.Dev.Console

set_option autoImplicit false

/-! # Console input is delivered exactly

The ring holds the committed bytes that have not been read, followed by the line that is being
edited (`Input.Holds`), so each assignment to an index or to the buffer is an operation on these two
lists. The line never has a newline or a `^D`, since both are committed at once; that is why `^U`
takes all of it.

A reader may find `^D` after other bytes and puts it back. It holds the lock meanwhile, and to
everybody else the byte has not been taken. -/

namespace Xv6

open Transition

/-- Neither of the two bytes that end a line. -/
def Plain (l : List Byte) : Prop := newline ∉ l ∧ ctrl 'D' ∉ l

theorem Plain.nil : Plain [] := ⟨List.not_mem_nil, List.not_mem_nil⟩

theorem Plain.snoc {l : List Byte} {c : Byte} (h : Plain l) (hnl : c ≠ newline)
    (hd : c ≠ ctrl 'D') :
    Plain (l ++ [c]) := by
  simp only [Plain, List.mem_append, List.mem_singleton, not_or]
  exact ⟨⟨h.1, hnl.symm⟩, h.2, hd.symm⟩

theorem Plain.of_append {l l' : List Byte} (h : Plain (l ++ l')) : Plain l :=
  ⟨fun hc => h.1 (List.mem_append_left _ hc), fun hc => h.2 (List.mem_append_left _ hc)⟩

namespace Input

variable {s : Input} {unread line : List Byte}

/-- The buffer holds the bytes `unread`, which are committed, and then `line`. -/
structure Holds (s : Input) (unread line : List Byte) : Prop where
  contents : Ring.contents s.buf s.r s.e = unread ++ line
  ahead : Ring.count s.r s.w = unread.length
  fits : unread.length + line.length ≤ inputBuf
  plain : Plain line

namespace Holds

section

variable (h : s.Holds unread line)

include h

theorem count : Ring.count s.r s.e = unread.length + line.length := by
  rw [← Ring.length_contents s.buf, h.contents, List.length_append]

/-- The indices are where they are said to be. -/
theorem w_eq : s.w = s.r + .ofNat 32 unread.length := by
  rw [← h.ahead, Ring.add_count]

theorem e_eq : s.e = s.w + .ofNat 32 line.length := by
  rw [h.w_eq, BitVec.add_assoc, ← BitVec.ofNat_add, ← h.count, Ring.add_count]

theorem edited : (s.e - s.w).toNat = line.length := by
  rw [h.e_eq]
  have hfits : unread.length + line.length ≤ 128 := h.fits
  exact Ring.count_add s.w (by omega)

theorem e_eq_w : s.e = s.w ↔ line = [] := by
  rw [← List.length_eq_zero_iff, ← h.edited, ← BitVec.toNat_zero (w := 32), BitVec.toNat_inj,
    BitVec.sub_eq_iff_eq_add, BitVec.zero_add]

theorem r_eq_w : s.r = s.w ↔ unread = [] := by
  rw [← List.length_eq_zero_iff, ← h.ahead, Ring.count_eq_zero]

/-- What is committed and not yet read. -/
theorem committed : Ring.contents s.buf s.r s.w = unread := by
  have hle : Ring.count s.r s.w ≤ Ring.count s.r s.e := by
    rw [h.ahead, h.count]
    exact Nat.le_add_right _ _
  rw [← Ring.take_contents hle, h.contents, h.ahead, List.take_left]

theorem r_ne_e (hlen : unread.length + line.length ≠ 0) : s.r ≠ s.e := fun he =>
  hlen (h.count.symm.trans (Ring.count_eq_zero.2 he))

end

theorem erase {c : Byte} (h : s.Holds unread (line ++ [c])) :
    { s with e := s.e - 1 }.Holds unread line := by
  have hcontents := Ring.contents_snoc (h.r_ne_e (by simp)) s.buf
  rw [h.contents, ← List.append_assoc] at hcontents
  refine ⟨(List.append_inj_left' hcontents rfl).symm, h.ahead, ?_, h.plain.of_append⟩
  have := h.fits
  rw [List.length_append] at this
  omega

/-- `^U` finds no newline. -/
theorem killLine (h : s.Holds unread line) : (killLine line.length s).Holds unread [] := by
  induction line using List.reverseRecOn generalizing s with
  | nil => exact h
  | append_singleton line c ih =>
    have hlast := Ring.contents_snoc (h.r_ne_e (by simp)) s.buf
    rw [h.contents, ← List.append_assoc] at hlast
    have hc : s.buf (Ring.cell (s.e - 1)) = c := by
      have := List.append_inj_right' hlast rfl
      exact (List.singleton_inj.1 this).symm
    have hnl : c ≠ newline := fun he => h.plain.1 (he ▸ by simp)
    rw [List.length_append, List.length_singleton, Input.killLine, hc, if_neg hnl]
    exact ih h.erase

theorem put (h : s.Holds unread line) (hroom : unread.length + line.length < inputBuf) (c : Byte) :
    Ring.contents (s.put c).buf s.r (s.put c).e = unread ++ line ++ [c] := by
  rw [← h.contents]
  refine Ring.contents_store (by decide) (by decide) ?_ s.buf c
  rwa [h.count]

theorem take {c : Byte} (h : s.Holds (c :: unread) line) :
    s.buf (Ring.cell s.r) = c ∧ { s with r := s.r + 1 }.Holds unread line := by
  have hw : s.r ≠ s.w := fun he => by
    have := h.r_eq_w.1 he
    cases this
  have hcontents := Ring.contents_take (h.r_ne_e (by simp)) s.buf
  rw [h.contents, List.cons_append, List.cons.injEq] at hcontents
  refine ⟨hcontents.1.symm, hcontents.2.symm, ?_, ?_, h.plain⟩
  · rw [Ring.count_taken hw, h.ahead]
    rfl
  · have := h.fits
    rw [List.length_cons] at this
    omega

end Holds

end Input

/-! ## Keys -/

namespace Typed

/-- What the readers have not taken. -/
def unread (taken : ℕ) (t : Typed) : List Byte := t.committed.drop taken

theorem full_iff (taken : ℕ) (t : Typed) :
    t.full taken ↔ inputBuf ≤ (t.unread taken).length + t.line.length := by
  rw [full, unread, List.length_drop]

end Typed

namespace Input

variable {b : Build} {taken : ℕ} {s : Input} {t : Typed} {c : Byte}

theorem killLine_r (k : ℕ) (s : Input) : (s.killLine k).r = s.r := by
  induction k generalizing s with
  | zero => rfl
  | succ k ih =>
    rw [killLine]
    split
    · rfl
    · exact ih _

/-- A key acts on the buffer as on what has been typed. -/
theorem Holds.key (h : s.Holds (t.unread taken) t.line) (htaken : taken ≤ t.committed.length)
    (b : Build) (c : Byte) :
    (s.key b c).Holds ((t.key b taken c).unread taken) (t.key b taken c).line ∧
    (s.key b c).r = s.r ∧
      t.committed <+: (t.key b taken c).committed := by
  unfold Input.key Typed.key
  by_cases hlist : listing b c = true
  · rw [if_pos hlist, if_pos hlist]
    exact ⟨h, rfl, List.prefix_refl _⟩
  rw [if_neg hlist, if_neg hlist]
  by_cases hu : c = ctrl 'U'
  · rw [if_pos hu, if_pos hu, h.edited]
    exact ⟨h.killLine, killLine_r _ s, List.prefix_refl _⟩
  rw [if_neg hu, if_neg hu]
  by_cases hback : c = ctrl 'H' ∨ c = 0x7f
  · rw [if_pos hback, if_pos hback]
    rcases List.eq_nil_or_concat t.line with hnil | ⟨line, x, hline⟩
    · rw [if_neg (not_not.2 (h.e_eq_w.2 hnil))]
      refine ⟨?_, rfl, List.prefix_refl _⟩
      show s.Holds (t.unread taken) t.line.dropLast
      rw [hnil] at h ⊢
      exact h
    · rw [List.concat_eq_append] at hline
      rw [hline] at h
      have hne : s.e ≠ s.w := fun he => by simpa using h.e_eq_w.1 he
      rw [if_pos hne]
      refine ⟨?_, rfl, List.prefix_refl _⟩
      show Holds _ (t.unread taken) t.line.dropLast
      rw [hline, List.dropLast_concat]
      exact h.erase
  rw [if_neg hback, if_neg hback]
  have hfull : (s.e - s.r).toNat < inputBuf ↔ ¬t.full taken := by
    rw [Typed.full_iff, not_le, ← h.count]
    rfl
  by_cases hzero : c = 0
  · rw [if_neg (fun hand => hand.1 hzero), if_pos (Or.inl hzero)]
    exact ⟨h, rfl, List.prefix_refl _⟩
  by_cases hroom : t.full taken
  · rw [if_neg (fun hand => hfull.1 hand.2 hroom), if_pos (Or.inr hroom)]
    exact ⟨h, rfl, List.prefix_refl _⟩
  rw [if_pos ⟨hzero, hfull.2 hroom⟩, if_neg (not_or.2 ⟨hzero, hroom⟩)]
  generalize (if c = 13 then newline else c) = c'
  rw [Typed.full_iff, not_le] at hroom
  have hput := h.put hroom c'
  have hcount : Ring.count s.r (s.put c').e = (t.unread taken).length + t.line.length + 1 := by
    rw [← Ring.length_contents (s.put c').buf, hput, List.length_append, List.length_append]
    rfl
  have hnowfull : (s.put c').e = (s.put c').r + .ofNat 32 inputBuf ↔
      Typed.full taken { t with line := t.line ++ [c'] } := by
    rw [Ring.eq_add_iff_count (by decide), Typed.full_iff, List.length_append,
      List.length_singleton,
      show (s.put c').r = s.r from rfl, hcount]
    show _ ↔ inputBuf ≤ (t.unread taken).length + (t.line.length + 1)
    omega
  simp only [hnowfull]
  split
  · refine ⟨⟨?_, ?_, ?_, Plain.nil⟩, rfl, List.prefix_append _ _⟩
    · show Ring.contents (s.put c').buf s.r (s.put c').e = List.drop taken (t.committed ++
        (t.line ++ [c'])) ++ []
      rw [hput, List.append_nil, List.drop_append_of_le_length htaken, List.append_assoc]
      rfl
    · show Ring.count s.r (s.put c').e = (List.drop taken (t.committed ++ (t.line ++ [c']))).length
      rw [hcount, List.drop_append_of_le_length htaken, List.length_append, List.length_append]
      rfl
    · show (List.drop taken (t.committed ++ (t.line ++ [c']))).length + 0 ≤ inputBuf
      rw [List.drop_append_of_le_length htaken, List.length_append, List.length_append]
      exact hroom
  · next hend =>
    simp only [not_or] at hend
    refine ⟨⟨?_, h.ahead, ?_, h.plain.snoc hend.1 hend.2.1⟩, rfl, List.prefix_refl _⟩
    · rw [← List.append_assoc]
      exact hput
    · show (t.unread taken).length + (t.line ++ [c']).length ≤ inputBuf
      rw [List.length_append]
      exact hroom

theorem Holds.consoleintr (b : Build) (keys : List Byte) (h : s.Holds (t.unread taken) t.line)
    (htaken : taken ≤ t.committed.length) :
    (s.consoleintr b keys).Holds ((t.keys b taken keys).unread taken) (t.keys b taken keys).line ∧
      (s.consoleintr b keys).r = s.r ∧ t.committed <+: (t.keys b taken keys).committed := by
  induction keys generalizing s t with
  | nil => exact ⟨h, rfl, List.prefix_refl _⟩
  | cons c keys ih =>
    obtain ⟨hkey, hr, hpre⟩ := h.key htaken b c
    obtain ⟨hkeys, hr', hpre'⟩ := ih hkey (htaken.trans hpre.length_le)
    exact ⟨hkeys, hr'.trans hr, hpre.trans hpre'⟩

end Input

/-! ## Readers -/

namespace ReadCall

variable {k : ReadCall} {took unread line : List Byte} {s : Input}

/-- A call that has taken the bytes `took` can go on. -/
structure Going (k : ReadCall) (took : List Byte) : Prop where
  result : k.result = none
  dst : k.dst = took
  plain : Plain took
  le : (took.length : Int) ≤ max k.target 0

/-- How a call that has taken the bytes `took` may stand when the lock is free. -/
inductive Ok (k : ReadCall) (took : List Byte) : Prop
  | asleep (h : k.Going took) (hlt : (took.length : Int) < k.target)
  | killed (hresult : k.result = some (-1)) (hdst : k.dst = took) (hplain : Plain took)
  /-- Nothing but `^D` is taken, and no bytes are returned. -/
  | eof (hresult : k.result = some 0) (hdst : k.dst = []) (htook : took = [ctrl 'D'])
  | bytes (hresult : k.result = some k.dst.length) (hdst : k.dst = took)
      (hle : (took.length : Int) ≤ max k.target 0)
      (heof : ctrl 'D' ∉ took) (hnl : newline ∉ took.dropLast)

theorem Going.ret (h : k.Going took) : k.ret.Ok took :=
  .bytes rfl h.dst h.le h.plain.2 fun hc => h.plain.1 (List.mem_of_mem_dropLast hc)

theorem Going.left (h : k.Going took) : k.left = (k.target - took.length).toNat := by
  rw [ReadCall.left, h.dst]

/-- A section that begins with the bytes `unread` in the buffer `s` takes those at the front of
    them. -/
structure Takes (s : Input) (took unread line bytes rest : List Byte)
    (x : ReadCall × Input) : Prop where
  front : unread = bytes ++ rest
  moved : x.2.r = s.r + .ofNat 32 bytes.length
  holds : x.2.Holds rest line
  ok : x.1.Ok (took ++ bytes)

theorem Takes.nothing (hs : s.Holds unread line) (hk : k.Ok took) :
    Takes s took unread line [] unread (k, s) :=
  ⟨rfl, (BitVec.add_zero s.r).symm, hs, (List.append_nil took).symm ▸ hk⟩

theorem Going.loop (killed : Bool) {n : ℕ} (h : k.Going took) (hn : k.left = n)
    (hs : s.Holds unread line) :
    ∃ bytes rest, Takes s took unread line bytes rest (loop killed n k s) := by
  induction n generalizing k took s unread with
  | zero => exact ⟨_, _, .nothing hs h.ret⟩
  | succ n ih =>
    have hlt : (took.length : Int) + n + 1 = k.target := by
      rw [h.left] at hn
      omega
    rw [ReadCall.loop]
    by_cases hempty : s.r = s.w
    · rw [if_pos hempty]
      cases killed with
      | true => exact ⟨_, _, .nothing hs (.killed rfl h.dst h.plain)⟩
      | false =>
        have hk : k.Ok took := .asleep h (by omega)
        exact ⟨_, _, .nothing hs hk⟩
    · rw [if_neg hempty]
      cases unread with
      | nil => exact absurd (hs.r_eq_w.2 rfl) hempty
      | cons c unread =>
        obtain ⟨hc, hs'⟩ := hs.take
        rw [hc]
        by_cases hd : c = ctrl 'D'
        · simp only [if_pos hd]
          by_cases hback : (n : Int) + 1 < k.target
          · rw [if_pos hback]
            simp only [BitVec.add_sub_cancel]
            exact ⟨_, _, .nothing hs h.ret⟩
          · rw [if_neg hback]
            have hnil : took = [] := List.eq_nil_of_length_eq_zero (by omega)
            refine ⟨[c], unread, rfl, rfl, hs', .eof ?_ (h.dst.trans hnil) (by rw [hnil, hd]; rfl)⟩
            rw [ReadCall.ret, h.dst, hnil]
            rfl
        · simp only [if_neg hd]
          by_cases hnl : c = newline
          · rw [if_pos hnl]
            refine ⟨[c], unread, rfl, rfl, hs', .bytes rfl (by rw [← h.dst]; rfl) ?_ ?_ ?_⟩
            · rw [List.length_append]
              show ((took.length + 1 : ℕ) : Int) ≤ max k.target 0
              omega
            · intro hmem
              rcases List.mem_append.1 hmem with hmem | hmem
              · exact h.plain.2 hmem
              · exact hd (List.mem_singleton.1 hmem).symm
            · rw [List.dropLast_concat]
              exact h.plain.1
          · rw [if_neg hnl]
            have hgoing : (k.store c).Going (took ++ [c]) := by
              refine ⟨h.result, by rw [← h.dst]; rfl, h.plain.snoc hnl hd, ?_⟩
              rw [List.length_append]
              show ((took.length + 1 : ℕ) : Int) ≤ max k.target 0
              omega
            have hleft : (k.store c).left = n := by
              rw [hgoing.left, List.length_append]
              show (k.target - ((took.length + 1 : ℕ) : Int)).toNat = n
              omega
            obtain ⟨bytes, rest, hun, hr, hholds, hok⟩ := ih hgoing hleft hs'
            refine ⟨c :: bytes, rest, by rw [hun]; rfl, ?_, hholds, ?_⟩
            · rw [hr, List.length_cons, Nat.add_comm, BitVec.ofNat_add, ← BitVec.add_assoc]
              rfl
            · rwa [List.append_assoc] at hok

end ReadCall

/-! ## The console -/

namespace Console

variable {b : Build} {a : ConsoleAct} {s s' : Console} {i : ℕ} {k : ReadCall}

/-- What holds between the sections. -/
structure Inv (s : Console) : Prop where
  taken : s.consumed.length ≤ s.typed.committed.length
  consumed : s.consumed.map Prod.snd = s.typed.committed.take s.consumed.length
  holds : s.input.Holds (s.typed.unread s.consumed.length) s.typed.line
  calls : ∀ (i : ℕ) (k : ReadCall), s.calls[i]? = some k → k.Ok (s.took i)
  callers : ∀ x ∈ s.consumed, x.1 < s.calls.length

theorem Init.inv (h : Init s) : Inv s := by
  obtain ⟨input, calls, consumed, typed⟩ := s
  obtain ⟨hw, he, rfl, rfl, rfl⟩ : input.w = input.r ∧ input.e = input.r ∧ calls = [] ∧
    consumed = [] ∧ typed = {} := h
  refine ⟨le_rfl, rfl, ⟨?_, ?_, Nat.zero_le _, Plain.nil⟩, fun i k hk => by simp at hk,
    fun x hx => nomatch hx⟩
  · show Ring.contents input.buf input.r input.e = []
    rw [← List.length_eq_zero_iff, Ring.length_contents, he, Ring.count_self]
  · show Ring.count input.r input.w = 0
    rw [hw, Ring.count_self]

theorem took_append (s : Console) (i j : ℕ) (bytes : List Byte) (input : Input)
    (calls : List ReadCall) :
    took { s with
      input := input, calls := calls, consumed := s.consumed ++ bytes.map (Prod.mk i) } j =
      s.took j ++ if j = i then bytes else [] := by
  rw [took, List.filter_append, List.map_append]
  congr 1
  split
  · next hj =>
    subst hj
    simp [List.filter_map, Function.comp_def]
  · next hj =>
    simp only [List.filter_map, Function.comp_def, List.map_map]
    simp [Ne.symm hj]

/-- What a section of call `i` does to the console; `calls` is what becomes of the calls. -/
theorem Inv.attempt (h : Inv s) (killed : Bool) (hk : k.Going (s.took i)) (calls : List ReadCall)
    (hi : i < calls.length) (hlen : s.calls.length ≤ calls.length)
    (hcall : calls[i]? = some (s.attempt i killed k).1)
    (hother : ∀ (j : ℕ) (k' : ReadCall), j ≠ i → calls[j]? = some k' → s.calls[j]? = some k') :
    Inv { s with
      input := (s.attempt i killed k).2.1
      calls := calls
      consumed := s.consumed ++ (s.attempt i killed k).2.2 } := by
  obtain ⟨bytes, rest, hfront, hmoved, hholds, hok⟩ := hk.loop killed rfl h.holds
  replace hmoved : (s.attempt i killed k).2.1.r = s.input.r + .ofNat 32 bytes.length := hmoved
  have hlen' : bytes.length ≤ Ring.count s.input.r s.input.e := by
    rw [h.holds.count, hfront, List.length_append]
    omega
  have hcount : Ring.count s.input.r (s.attempt i killed k).2.1.r = bytes.length := by
    rw [hmoved]
    exact Ring.count_add _ (hlen'.trans_lt (s.input.e - s.input.r).isLt)
  -- The bytes that `r` has moved past are those that were taken.
  have hbytes : (s.attempt i killed k).2.2 = bytes.map (Prod.mk i) := by
    show (Ring.contents s.input.buf s.input.r (s.attempt i killed k).2.1.r).map (Prod.mk i) = _
    have hle : Ring.count s.input.r (s.attempt i killed k).2.1.r ≤ Ring.count s.input.r s.input.e :=
      by
      rw [hcount]
      exact hlen'
    rw [← Ring.take_contents hle, h.holds.contents, hcount, hfront, List.append_assoc,
      List.take_left]
  have hdrop : s.typed.committed.drop s.consumed.length = bytes ++ rest := hfront
  rw [hbytes]
  constructor
  · show (s.consumed ++ bytes.map (Prod.mk i)).length ≤ s.typed.committed.length
    have hlength := congrArg List.length hdrop
    rw [List.length_drop, List.length_append] at hlength
    rw [List.length_append, List.length_map]
    have := h.taken
    omega
  · show (s.consumed ++ bytes.map (Prod.mk i)).map Prod.snd = _
    rw [List.map_append, h.consumed, List.length_append, List.length_map, List.map_map,
      List.take_add, hdrop, List.take_left]
    simp
  · have hunread : s.typed.unread (s.consumed ++ bytes.map (Prod.mk i)).length = rest := by
      rw [Typed.unread, List.length_append, List.length_map, ← List.drop_drop,
        hdrop, List.drop_left]
    show Input.Holds _ (s.typed.unread (s.consumed ++ bytes.map (Prod.mk i)).length) s.typed.line
    rw [hunread]
    exact hholds
  · intro j k' hj
    rw [took_append]
    by_cases hji : j = i
    · subst hji
      rw [if_pos rfl]
      obtain rfl := Option.some.inj (hcall.symm.trans hj)
      exact hok
    · rw [if_neg hji, List.append_nil]
      exact h.calls j k' (hother j k' hji hj)
  · intro x hx
    rcases List.mem_append.1 hx with hx | hx
    · exact (h.callers x hx).trans_le hlen
    · obtain ⟨c, -, rfl⟩ := List.mem_map.1 hx
      exact hi

theorem Inv.step (h : Inv s) (hs : s.step b a = .ok s') : Inv s' := by
  cases a with
  | intr keys =>
    obtain rfl := Except.ok.inj hs
    obtain ⟨hholds, -, hpre⟩ := h.holds.consoleintr b keys h.taken
    refine ⟨h.taken.trans hpre.length_le, ?_, hholds, h.calls, h.callers⟩
    obtain ⟨more, hmore⟩ := hpre
    show s.consumed.map Prod.snd = (s.typed.keys b s.consumed.length keys).committed.take s.consumed.length
    rw [← hmore, List.take_append_of_le_length h.taken]
    exact h.consumed
  | read n killed =>
    obtain rfl := Except.ok.inj hs
    have hnew : s.took s.calls.length = [] := by
      rw [took, List.map_eq_nil_iff, List.filter_eq_nil_iff]
      intro x hx he
      exact (h.callers x hx).ne (of_decide_eq_true he)
    have hgoing : ReadCall.Going { target := n } (s.took s.calls.length) := by
      rw [hnew]
      exact ⟨rfl, rfl, Plain.nil, le_max_right n 0⟩
    refine h.attempt killed hgoing _ (by simp) (by simp) List.getElem?_concat_length
      fun j k' hj hk' => ?_
    rw [List.getElem?_append] at hk'
    split at hk'
    · exact hk'
    · next hlt =>
      obtain ⟨hidx, -⟩ := List.getElem?_eq_some_iff.1 hk'
      rw [List.length_singleton] at hidx
      omega
  | wake i killed =>
    simp only [Console.step] at hs
    split at hs
    · next k hk =>
      split_ifs at hs with hasleep
      obtain rfl := Except.ok.inj hs
      have hi : i < s.calls.length := (List.getElem?_eq_some_iff.1 hk).1
      have hgoing : k.Going (s.took i) := by
        cases h.calls i k hk with
        | asleep h _ => exact h
        | killed hresult | eof hresult | bytes hresult =>
          rw [hasleep] at hresult
          cases hresult
      refine h.attempt killed hgoing _ (by simpa using hi) (by simp) (by simp [hi])
        fun j k' hj hk' => ?_
      rwa [List.getElem?_set_ne hj.symm] at hk'
    · cases hs

/-- Whatever is typed and read, the indices are in order, and a key leaves alone what is committed.
    What the readers have taken is a prefix of what the rules of line editing have committed. A `^D`
    is taken by a call that returns no bytes. A call that returns bytes has taken those and nothing
    else, and none of them after a newline. -/
theorem input_exact (b : Build) (s : Console) (h : Reachable (step b) Init (fun _ _ => True) s) :
    ((s.input.w - s.input.r).toNat ≤ (s.input.e - s.input.r).toNat ∧
      (s.input.e - s.input.r).toNat ≤ inputBuf) ∧
    (∀ keys, (s.input.consoleintr b keys).r = s.input.r ∧
      Ring.contents s.input.buf s.input.r s.input.w <+:
        Ring.contents (s.input.consoleintr b keys).buf s.input.r (s.input.consoleintr b keys).w) ∧
    s.consumed.map Prod.snd <+: s.typed.committed ∧ (∀ i, (i, ctrl 'D') ∈ s.consumed →
      ∃ k, s.calls[i]? = some k ∧ k.result = some 0 ∧ k.dst = [] ∧ s.took i = [ctrl 'D']) ∧
    ∀ (i : ℕ) (k : ReadCall) (n : Int), s.calls[i]? = some k → k.result = some n → n ≠ -1 →
      n = k.dst.length ∧ n ≤ max k.target 0 ∧ newline ∉ k.dst.dropLast ∧
        (k.dst = s.took i ∧ ctrl 'D' ∉ s.took i ∨ n = 0 ∧ s.took i = [ctrl 'D']) := by
  have hinv : Inv s := h.invariant (fun _ => Init.inv) fun _ _ _ hinv _ hs => hinv.step hs
  have hcount := hinv.holds.count
  have hahead := hinv.holds.ahead
  have hfits := hinv.holds.fits
  refine ⟨⟨?_, ?_⟩, fun keys => ?_, ?_, fun i hi => ?_, fun i k n hk hn hne => ?_⟩
  · show Ring.count s.input.r s.input.w ≤ Ring.count s.input.r s.input.e
    omega
  · exact hcount.le.trans hfits
  · obtain ⟨hholds, hr, hpre⟩ := hinv.holds.consoleintr b keys hinv.taken
    have hcommitted := hholds.committed
    rw [hr] at hcommitted
    rw [hcommitted, hinv.holds.committed]
    exact ⟨hr, hpre.drop s.consumed.length⟩
  · rw [hinv.consumed]
    exact List.take_prefix _ _
  · have hlt := hinv.callers _ hi
    have hmem : ctrl 'D' ∈ s.took i := List.mem_map.2 ⟨(i, ctrl 'D'),
      List.mem_filter.2 ⟨hi, by simp⟩, rfl⟩
    refine ⟨s.calls[i], List.getElem?_eq_getElem hlt, ?_⟩
    cases hinv.calls i _ (List.getElem?_eq_getElem hlt) with
    | asleep hgoing _ => exact absurd hmem hgoing.plain.2
    | killed _ _ hplain => exact absurd hmem hplain.2
    | eof hresult hdst htook => exact ⟨hresult, hdst, htook⟩
    | bytes _ _ _ heof _ => exact absurd hmem heof
  · cases hinv.calls i k hk with
    | asleep hgoing _ =>
      rw [hgoing.result] at hn
      cases hn
    | killed hresult => exact absurd (Option.some.inj (hn.symm.trans hresult)) hne
    | eof hresult hdst htook =>
      obtain rfl := Option.some.inj (hn.symm.trans hresult)
      rw [hdst]
      exact ⟨rfl, le_max_right _ _, List.not_mem_nil, Or.inr ⟨rfl, htook⟩⟩
    | bytes hresult hdst hle heof hnl =>
      obtain rfl := Option.some.inj (hn.symm.trans hresult)
      rw [hdst]
      exact ⟨rfl, hle, hnl, Or.inl ⟨rfl, heof⟩⟩

/-- Nothing typed, and the indices two short of their range. -/
def nearWrap : Console := ⟨⟨fun _ => 0, -2, -2, -2⟩, [], [], {}⟩

/-- A reader waits; `a`, `b`, backspace, `c` and `^D` are typed. The reader gets two bytes and
    leaves `^D` to the next. -/
theorem input_exact_eof :
    ∃ s, Reachable (step .table) Init (fun _ _ => True) s ∧
      s.calls.map ReadCall.result = [some 2, some 0] ∧ s.took 0 = [97, 99] ∧ s.took 1 = [ctrl 'D'] ∧
      s.consumed.map Prod.snd <+: s.typed.committed := by
  have hinit : Init nearWrap := ⟨rfl, rfl, rfl, rfl, rfl⟩
  obtain ⟨s, hreach, hresults, h0, h1⟩ := reachable_any (step .table) Init (fun _ _ => True)
    [.read 10 false, .intr [97, 98, ctrl 'H', 99, ctrl 'D'], .wake 0 false, .read 10 false] hinit
    (fun s => s.calls.map ReadCall.result = [some 2, some 0] ∧ s.took 0 = [97, 99] ∧
      s.took 1 = [ctrl 'D'])
    (by decide +kernel)
  exact ⟨s, hreach, hresults, h0, h1, (input_exact .table s hreach).2.2.1⟩

end Console

end Xv6
