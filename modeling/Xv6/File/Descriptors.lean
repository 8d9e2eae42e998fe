import Xv6.File.Ftable
import Xv6.Lib.Stoppable
import Xv6.Lib.Tally

set_option autoImplicit false

/-! # References to open files

`Files` says that the reference count of an entry of the file table is the number of descriptors
that point at it, plus the references that a running call holds. `Finals` and `PipesOk` say which
opened files and which pipes have seen their final action: those that no entry of the table stands
for any more. Each part of a call keeps the three, so no call panics and they hold between any two
calls. -/

namespace Xv6

open Function Stoppable

namespace PipeEnds

theorem isOpen_shut (e : PipeEnds) (w v : Bool) :
    (e.shut w).isOpen v = if v = w then false else e.isOpen v := by
  cases w <;> cases v <;> rfl

theorem both_shut_iff (e : PipeEnds) (w : Bool) :
    ((e.shut w).readopen = false ∧ (e.shut w).writeopen = false) ↔ e.isOpen (!w) = false := by
  cases w <;> simp [shut, isOpen]

end PipeEnds

/-- A final action of opened file `n`. -/
def FileEvent.isFinal (n : ℕ) : FileEvent → Bool
  | .iput id _ => id = n
  | .pipeclose id _ _ => id = n
  | .kfree _ => false

/-- The final action that is due to an opened file: of its inode, or of its end of its pipe. -/
def OFile.final (x : OFile) : List FileEvent :=
  match x.type with
  | .none => []
  | .pipe q => [.pipeclose x.id q x.writable]
  | .inode i => [.iput x.id i]

theorem OFile.final_of_typed {x : OFile} (h : x.type ≠ .none) : ∃ e, x.final = [e] := by
  unfold OFile.final
  split
  · next hx => exact absurd hx h
  · exact ⟨_, rfl⟩
  · exact ⟨_, rfl⟩

namespace OpenSys

variable {P : Type}

/-- The final actions that opened file `n` has seen. -/
def finals (s : OpenSys P) (n : ℕ) : List FileEvent := s.history.filter (FileEvent.isFinal n)

/-- How often the page of pipe `q` has been freed. -/
def frees (s : OpenSys P) (q : ℕ) : ℕ := s.history.countP (· = .kfree q)

/-- The opened file `n` is in the table. -/
def InTable (s : OpenSys P) (n : ℕ) : Prop := ∃ f, (s.file f).type ≠ .none ∧ (s.file f).id = n

/-- What `Finals` and `PipesOk` read of the file table. -/
def SameKind (x y : OFile) : Prop := x.type = y.type ∧ x.id = y.id ∧ x.writable = y.writable

/-- Opened files have different numbers, and of those no longer in the table the final action that
    is due to them has been performed, once. -/
structure Finals (s : OpenSys P) : Prop where
  lt : ∀ f, (s.file f).type ≠ .none → (s.file f).id < s.opened
  inj : ∀ f g, (s.file f).type ≠ .none → (s.file g).type ≠ .none →
    (s.file f).id = (s.file g).id → f = g
  stands : ∀ f, (s.file f).type ≠ .none → SameKind (s.stands (s.file f).id) (s.file f)
  typed : ∀ n < s.opened, (s.stands n).type ≠ .none
  inside : ∀ n, s.InTable n → s.finals n = []
  outside : ∀ n < s.opened, ¬s.InTable n → s.finals n = (s.stands n).final
  later : ∀ n, s.opened ≤ n → s.finals n = []

/-- A pipe has a page as long as an end of it is in the table, and an end is open as long as it is
    in the table, once. -/
structure PipesOk (s : OpenSys P) : Prop where
  lt : ∀ q e, s.pipe q = some e → q < s.pipes
  isOpen : ∀ q e w, s.pipe q = some e →
    (e.isOpen w = true ↔ ∃ f, (s.file f).type = .pipe q ∧ (s.file f).writable = w)
  inj : ∀ f g q, (s.file f).type = .pipe q → (s.file g).type = .pipe q →
    (s.file f).writable = (s.file g).writable → f = g
  page : ∀ q, (s.pipe q).isSome = true ↔ ∃ f, (s.file f).type = .pipe q
  unfreed : ∀ q, (s.pipe q).isSome = true → s.frees q = 0
  freed : ∀ q < s.pipes, s.pipe q = none → s.frees q = 1
  later : ∀ q, s.pipes ≤ q → s.frees q = 0

variable {s' : OpenSys P}

theorem SameKind.final {x y : OFile} (h : SameKind x y) : x.final = y.final := by
  rw [OFile.final, h.1, h.2.1, h.2.2, OFile.final]

variable {s : OpenSys P}

theorem Finals.congr (h : Finals s) (hfile : ∀ f, SameKind (s'.file f) (s.file f))
    (hopened : s'.opened = s.opened) (hstands : s'.stands = s.stands)
    (hhistory : s'.history = s.history) : Finals s' := by
  have hfinals : ∀ n, s'.finals n = s.finals n := fun n => by rw [finals, hhistory, finals]
  have htable : ∀ n, s'.InTable n ↔ s.InTable n := fun n =>
    exists_congr fun f => by rw [(hfile f).1, (hfile f).2.1]
  refine ⟨fun f hf => ?_, fun f g hf hg hid => ?_, fun f hf => ?_, fun n hlt => ?_, fun n hn => ?_,
    fun n hlt hn => ?_, fun n hn => ?_⟩
  · rw [(hfile f).1] at hf
    rw [(hfile f).2.1, hopened]
    exact h.lt f hf
  · rw [(hfile f).1] at hf
    rw [(hfile g).1] at hg
    rw [(hfile f).2.1, (hfile g).2.1] at hid
    exact h.inj f g hf hg hid
  · rw [(hfile f).1] at hf
    rw [SameKind, (hfile f).1, (hfile f).2.1, (hfile f).2.2, hstands]
    exact h.stands f hf
  · rw [hstands]
    exact h.typed n (hopened ▸ hlt)
  · rw [hfinals]
    exact h.inside n ((htable n).1 hn)
  · rw [hfinals, hstands]
    exact h.outside n (hopened ▸ hlt) fun hc => hn ((htable n).2 hc)
  · rw [hfinals]
    exact h.later n (hopened ▸ hn)

/-- Entry `f` is end `w` of pipe `q`. -/
def IsEnd (s : OpenSys P) (q : ℕ) (f : Fin nfile) (w : Bool) : Prop :=
  (s.file f).type = .pipe q ∧ (s.file f).writable = w

/-- What `PipesOk` says of one pipe: it is still to be made, in use or freed. -/
inductive PipeOk (s : OpenSys P) (q : ℕ) : Prop
  | later (hq : s.pipes ≤ q) (hpipe : s.pipe q = none) (hends : ∀ f w, ¬s.IsEnd q f w)
      (hfrees : s.frees q = 0)
  | live (e : PipeEnds) (hq : q < s.pipes) (hpipe : s.pipe q = some e)
      (hopen : ∀ w, e.isOpen w = true ↔ ∃ f, s.IsEnd q f w) (hend : ∃ w, e.isOpen w = true)
      (hinj : ∀ f g w, s.IsEnd q f w → s.IsEnd q g w → f = g) (hfrees : s.frees q = 0)
  | gone (hq : q < s.pipes) (hpipe : s.pipe q = none) (hends : ∀ f w, ¬s.IsEnd q f w)
      (hfrees : s.frees q = 1)

theorem PipesOk.pipeOk (h : PipesOk s) (q : ℕ) : PipeOk s q := by
  cases he : s.pipe q with
  | none =>
    have hends : ∀ f w, ¬s.IsEnd q f w := by
      intro f w hf
      have := (h.page q).2 ⟨f, hf.1⟩
      rw [he] at this
      cases this
    rcases Nat.lt_or_ge q s.pipes with hq | hq
    · exact .gone hq he hends (h.freed q hq he)
    · exact .later hq he hends (h.later q hq)
  | some e =>
    have hsome : (s.pipe q).isSome = true := by rw [he]; rfl
    obtain ⟨f, hf⟩ := (h.page q).1 hsome
    exact .live e (h.lt q e he) he (fun w => h.isOpen q e w he) ⟨_,
      (h.isOpen q e _ he).2 ⟨f, hf, rfl⟩⟩
      (fun f g w hf hg => h.inj f g q hf.1 hg.1 (hf.2.trans hg.2.symm)) (h.unfreed q hsome)

theorem pipesOk_of (h : ∀ q, PipeOk s q) : PipesOk s := by
  refine ⟨fun q e hq => ?_, fun q e w hq => ?_, fun f g q hf hg hw => ?_, fun q => ?_,
    fun q hq => ?_,
    fun q hlt hq => ?_, fun q hq => ?_⟩ <;> rcases h q with ⟨hq', hpipe, hends, hfrees⟩ |
      ⟨e', hq', hpipe, hopen, ⟨w', hend⟩, hinj, hfrees⟩ | ⟨hq', hpipe, hends, hfrees⟩
  all_goals try rw [hpipe] at hq
  all_goals try first | exact hq' | exact hfrees | omega | (simp at hq; done)
  · cases hq
    exact hopen w
  · exact absurd ⟨hf, rfl⟩ (hends f _)
  · exact hinj f g _ ⟨hf, hw⟩ ⟨hg, rfl⟩
  · exact absurd ⟨hf, rfl⟩ (hends f _)
  · rw [hpipe]
    exact ⟨fun hc => (by cases hc), fun ⟨f, hf⟩ => absurd ⟨hf, rfl⟩ (hends f _)⟩
  · obtain ⟨f, hf⟩ := (hopen w').1 hend
    rw [hpipe]
    exact ⟨fun _ => ⟨f, hf.1⟩, fun _ => rfl⟩
  · rw [hpipe]
    exact ⟨fun hc => (by cases hc), fun ⟨f, hf⟩ => absurd ⟨hf, rfl⟩ (hends f _)⟩

theorem PipeOk.congr {q : ℕ} (h : PipeOk s q)
    (hends : ∀ f w, s'.IsEnd q f w ↔ s.IsEnd q f w) (hpipe : s'.pipe q = s.pipe q)
    (hlt : q < s'.pipes ↔ q < s.pipes) (hfrees : s'.frees q = s.frees q) : PipeOk s' q := by
  cases h with
  | later hq hp hn hf =>
    exact .later (by omega) (hpipe.trans hp) (fun f w => mt (hends f w).1 (hn f w))
      (hfrees.trans hf)
  | live e hq hp hopen hend hinj hf =>
    simp only [← hends] at hopen hinj
    exact .live e (hlt.2 hq) (hpipe.trans hp) hopen hend hinj (hfrees.trans hf)
  | gone hq hp hn hf =>
    exact .gone (hlt.2 hq) (hpipe.trans hp) (fun f w => mt (hends f w).1 (hn f w)) (hfrees.trans hf)

theorem PipesOk.congr (h : PipesOk s) (hfile : ∀ f, SameKind (s'.file f) (s.file f))
    (hpipe : s'.pipe = s.pipe) (hpipes : s'.pipes = s.pipes)
    (hfrees : ∀ q, s'.frees q = s.frees q) :
    PipesOk s' := by
  refine pipesOk_of fun q => (h.pipeOk q).congr (fun f w => ?_) (by rw [hpipe]) (by rw [hpipes])
    (hfrees q)
  rw [IsEnd, (hfile f).1, (hfile f).2.2, IsEnd]

variable {f : Fin nfile}

/-- An entry that neither was nor becomes an end of pipe `q`. -/
theorem isEnd_update {q : ℕ} {x : OFile}
    (hfile : s'.file = update s.file f x) (hf : (s.file f).type ≠ .pipe q) (hx : x.type ≠ .pipe q)
    (g : Fin nfile) (w : Bool) : s'.IsEnd q g w ↔ s.IsEnd q g w := by
  rw [IsEnd, IsEnd, hfile, update_apply]
  split_ifs with hg
  · subst hg
    simp [hf, hx]
  · rfl

variable {s : OpenSys P}

/-! ## A file is opened -/

theorem setFile_file (s : OpenSys P) (f g : Fin nfile) (x : OFile) :
    (s.setFile f x).file g = if g = f then x else s.file g :=
  update_apply ..

/-- A change of the reference count alone. -/
theorem sameKind_setRef (s : OpenSys P) (f : Fin nfile) (r : Int) (g : Fin nfile) :
    SameKind ((s.setFile f { s.file f with ref := r }).file g) (s.file g) := by
  rw [setFile_file]
  split_ifs with hg
  · subst hg
    exact ⟨rfl, rfl, rfl⟩
  · exact ⟨rfl, rfl, rfl⟩

@[simp] theorem become_file_self (f : Fin nfile) (type : FdKind) (readable writable : Bool)
    (s : OpenSys P) : (s.become f type readable writable).file f =
      { type, ref := (s.file f).ref, readable, writable, id := s.opened } :=
  update_self ..

theorem become_file_of_ne {g : Fin nfile} (hg : g ≠ f) (type : FdKind) (readable writable : Bool)
    (s : OpenSys P) : (s.become f type readable writable).file g = s.file g :=
  update_of_ne hg ..

theorem Finals.become (h : Finals s) (hf : (s.file f).type = .none) {type : FdKind}
    (htype : type ≠ .none) (readable writable : Bool) :
    Finals (s.become f type readable writable) := by
  have hlt : ∀ g, ((s.become f type readable writable).file g).type ≠ .none → g ≠ f →
      ((s.become f type readable writable).file g).id < s.opened := by
    intro g hg hne
    rw [become_file_of_ne hne] at hg ⊢
    exact h.lt g hg
  -- The new number is in the table, and of the others the same ones are.
  have htable : ∀ n, (s.become f type readable writable).InTable n ↔ n = s.opened ∨
      s.InTable n := by
    intro n
    constructor
    · rintro ⟨g, hg, rfl⟩
      by_cases hgf : g = f
      · subst hgf
        left
        rw [become_file_self]
      · right
        exact ⟨g, by rwa [become_file_of_ne hgf] at hg, by rw [become_file_of_ne hgf]⟩
    · rintro (rfl | ⟨g, hg, rfl⟩)
      · exact ⟨f, by rwa [become_file_self], by rw [become_file_self]⟩
      · have hgf : g ≠ f := fun he => hg (he ▸ hf)
        exact ⟨g, by rwa [become_file_of_ne hgf], by rw [become_file_of_ne hgf]⟩
  have hstands : ∀ n, n ≠ s.opened → (s.become f type readable writable).stands n = s.stands n :=
    fun n hn => update_of_ne hn ..
  have hnew : (s.become f type readable writable).stands s.opened =
      { type, ref := (s.file f).ref, readable, writable, id := s.opened } := update_self ..
  refine ⟨fun g hg => ?_, fun g g' hg hg' hid => ?_, fun g hg => ?_, fun n hlt' => ?_,
    fun n hn => ?_, fun n hlt' hn => ?_, fun n hn => ?_⟩
  · show _ < s.opened + 1
    by_cases hgf : g = f
    · subst hgf
      rw [become_file_self]
      exact Nat.lt_succ_self _
    · exact Nat.lt_succ_of_lt (hlt g hg hgf)
  · by_cases hgf : g = f <;> by_cases hgf' : g' = f
    · rw [hgf, hgf']
    · have := hlt g' hg' hgf'
      rw [← hid, hgf, become_file_self] at this
      exact absurd this (lt_irrefl _)
    · have := hlt g hg hgf
      rw [hid, hgf', become_file_self] at this
      exact absurd this (lt_irrefl _)
    · rw [become_file_of_ne hgf] at hg hid
      rw [become_file_of_ne hgf'] at hg' hid
      exact h.inj g g' hg hg' hid
  · by_cases hgf : g = f
    · subst hgf
      rw [become_file_self, hnew]
      exact ⟨rfl, rfl, rfl⟩
    · rw [hstands _ (Nat.ne_of_lt (hlt g hg hgf))]
      rw [become_file_of_ne hgf] at hg ⊢
      exact h.stands g hg
  · by_cases hn : n = s.opened
    · subst hn
      rwa [hnew]
    · rw [hstands n hn]
      have : n < s.opened + 1 := hlt'
      exact h.typed n (by omega)
  · rcases (htable n).1 hn with rfl | hn
    · exact h.later _ (Nat.le_refl _)
    · exact h.inside n hn
  · have hne : n ≠ s.opened := fun he => hn ((htable n).2 (.inl he))
    have : n < s.opened + 1 := hlt'
    rw [hstands n hne]
    exact h.outside n (by omega) fun hc => hn ((htable n).2 (.inr hc))
  · have : s.opened + 1 ≤ n := hn
    exact h.later n (by omega)

theorem PipesOk.become_inode (h : PipesOk s) (hf : (s.file f).type = .none) (i : ℕ)
    (readable writable : Bool) : PipesOk (s.become f (.inode i) readable writable) :=
  pipesOk_of fun q => (h.pipeOk q).congr
    (isEnd_update rfl (by rw [hf]; exact nofun) nofun) rfl Iff.rfl rfl

/-- A new pipe with both its ends. -/
theorem PipesOk.pipeOf (h : PipesOk s) {f0 f1 : Fin nfile} (h0 : (s.file f0).type = .none)
    (h1 : (s.file f1).type = .none) (hne : f1 ≠ f0) : PipesOk (s.pipeOf f0 f1) := by
  refine pipesOk_of fun q => ?_
  by_cases hq : q = s.pipes
  · subst hq
    have hends : ∀ g w, (s.pipeOf f0 f1).IsEnd s.pipes g w ↔ g = if w then f1 else f0 := by
      intro g w
      rw [IsEnd, OpenSys.pipeOf]
      by_cases hg1 : g = f1
      · subst hg1
        rw [become_file_self]
        cases w <;> simp [hne]
      rw [become_file_of_ne hg1]
      by_cases hg0 : g = f0
      · subst hg0
        rw [become_file_self]
        cases w <;> simp [hne.symm]
      rw [become_file_of_ne hg0]
      have hnot : (s.file g).type ≠ .pipe s.pipes := by
        cases h.pipeOk s.pipes with
        | later _ _ hends _ => exact fun hg => hends g _ ⟨hg, rfl⟩
        | live _ hq => exact absurd hq (lt_irrefl _)
        | gone hq => exact absurd hq (lt_irrefl _)
      cases w <;> simp [hnot, hg0, hg1]
    refine .live ⟨true, true⟩ (Nat.lt_succ_self _) (update_self ..) (fun w => ?_) ⟨true, rfl⟩
      (fun f g w hf hg => ((hends f w).1 hf).trans ((hends g w).1 hg).symm)
      (h.later _ (Nat.le_refl _))
    cases w with
    | false => exact ⟨fun _ => ⟨f0, (hends f0 false).2 rfl⟩, fun _ => rfl⟩
    | true => exact ⟨fun _ => ⟨f1, (hends f1 true).2 rfl⟩, fun _ => rfl⟩
  · have hlt : q < s.pipes + 1 ↔ q < s.pipes := by omega
    have hx : FdKind.pipe s.pipes ≠ .pipe q := fun he => hq (by cases he; rfl)
    refine (h.pipeOk q).congr (fun g w => ?_) (update_of_ne hq ..) hlt rfl
    rw [OpenSys.pipeOf, isEnd_update rfl ?_ hx, isEnd_update rfl ?_ hx]
    · rfl
    · rw [show (_ : OFile).type = _ from h0]
      exact nofun
    · rw [become_file_of_ne hne, show (_ : OFile).type = _ from h1]
      exact nofun

/-! ## The final action -/

/-- The entry `f` no longer stands for its opened file. -/
theorem Finals.closed (h : Finals s) (hf : (s.file f).type ≠ .none)
    (hfile : s'.file = update s.file f { s.file f with ref := 0, type := .none })
    (hopened : s'.opened = s.opened) (hstands : s'.stands = s.stands)
    (hfinals : ∀ n, s'.finals n = s.finals n ++ if n = (s.file f).id then (s.file f).final else []) :
    Finals s' := by
  have hsame : ∀ g, (s'.file g).type ≠ .none → g ≠ f ∧ s'.file g = s.file g := by
    intro g hg
    by_cases hgf : g = f
    · rw [hgf, hfile, update_self] at hg
      exact absurd rfl hg
    · exact ⟨hgf, by rw [hfile, update_of_ne hgf]⟩
  have htable : ∀ n, s'.InTable n ↔ n ≠ (s.file f).id ∧ s.InTable n := by
    intro n
    constructor
    · rintro ⟨g, hg, rfl⟩
      obtain ⟨hgf, heq⟩ := hsame g hg
      rw [heq] at hg ⊢
      exact ⟨fun hid => hgf (h.inj g f hg hf hid), g, hg, rfl⟩
    · rintro ⟨hne, g, hg, rfl⟩
      have hgf : g ≠ f := fun he => hne (by rw [he])
      have heq : s'.file g = s.file g := by rw [hfile, update_of_ne hgf]
      exact ⟨g, by rwa [heq], by rw [heq]⟩
  refine ⟨fun g hg => ?_, fun g g' hg hg' hid => ?_, fun g hg => ?_, fun n hlt => ?_,
    fun n hn => ?_, fun n hlt hn => ?_, fun n hn => ?_⟩
  · have heq := (hsame g hg).2
    rw [heq] at hg ⊢
    rw [hopened]
    exact h.lt g hg
  · have heq := (hsame g hg).2
    have heq' := (hsame g' hg').2
    rw [heq] at hg hid
    rw [heq'] at hg' hid
    exact h.inj g g' hg hg' hid
  · have heq := (hsame g hg).2
    rw [heq] at hg ⊢
    rw [hstands]
    exact h.stands g hg
  · rw [hstands]
    exact h.typed n (hopened ▸ hlt)
  · obtain ⟨hne, hn⟩ := (htable n).1 hn
    rw [hfinals, if_neg hne, h.inside n hn, List.append_nil]
  · rw [hopened] at hlt
    rw [hfinals, hstands]
    by_cases hne : n = (s.file f).id
    · rw [if_pos hne, h.inside n ⟨f, hf, hne.symm⟩, hne, (h.stands f hf).final, List.nil_append]
    · rw [if_neg hne, h.outside n hlt fun hc => hn ((htable n).2 ⟨hne, hc⟩), List.append_nil]
  · rw [hopened] at hn
    have hne : n ≠ (s.file f).id := by
      have := h.lt f hf
      omega
    rw [hfinals, if_neg hne, h.later n hn, List.append_nil]

/-- An entry that is no end of a pipe is closed. -/
theorem PipesOk.closed (h : PipesOk s) (hf : ∀ q, (s.file f).type ≠ .pipe q)
    (hfile : s'.file = update s.file f { s.file f with ref := 0, type := .none })
    (hpipe : s'.pipe = s.pipe) (hpipes : s'.pipes = s.pipes) (hfrees : ∀ q,
      s'.frees q = s.frees q) :
    PipesOk s' :=
  pipesOk_of fun q => (h.pipeOk q).congr (isEnd_update hfile (hf q) nofun) (by rw [hpipe])
    (by rw [hpipes]) (hfrees q)

/-- An end of a pipe is closed: the page goes with the second one. -/
theorem PipesOk.closed_end (h : PipesOk s) {q : ℕ} {e : PipeEnds}
    (hf : (s.file f).type = .pipe q) (he : s.pipe q = some e)
    (hfile : s'.file = update s.file f { s.file f with ref := 0, type := .none })
    (hpipes : s'.pipes = s.pipes) (hpage : (e.isOpen (!(s.file f).writable) = true ∧
        s'.pipe = update s.pipe q (some (e.shut (s.file f).writable)) ∧ ∀ r,
          s'.frees r = s.frees r) ∨
      (e.isOpen (!(s.file f).writable) = false ∧ s'.pipe = update s.pipe q none ∧
        ∀ r, s'.frees r = s.frees r + if r = q then 1 else 0)) : PipesOk s' := by
  refine pipesOk_of fun r => ?_
  by_cases hrq : r = q
  · subst hrq
    cases h.pipeOk r with
    | later _ hp => rw [he] at hp; cases hp
    | gone _ hp => rw [he] at hp; cases hp
    | live e' hlt hp hopen hend hinj hfr =>
      obtain rfl : e = e' := Option.some.inj (he.symm.trans hp)
      -- The ends that are left are the ones on the other side.
      have hends : ∀ g w, s'.IsEnd r g w ↔ w ≠ (s.file f).writable ∧ s.IsEnd r g w := by
        intro g w
        rw [IsEnd, hfile, update_apply]
        split_ifs with hg
        · subst hg
          exact ⟨fun hc => (by cases hc.1), fun hc => absurd hc.2.2.symm hc.1⟩
        · refine ⟨fun hw => ⟨fun he => hg (hinj g f w hw ⟨hf, he.symm⟩), hw⟩, And.right⟩
      rw [← hpipes] at hlt
      rcases hpage with ⟨hother, hp', hfr'⟩ | ⟨hother, hp', hfr'⟩
      · refine .live (e.shut (s.file f).writable) hlt (by rw [hp', update_self]) (fun w => ?_)
          ⟨!(s.file f).writable, by rw [PipeEnds.isOpen_shut, if_neg (by simp), hother]⟩
          (fun g g' w hg hg' => hinj g g' w ((hends g w).1 hg).2 ((hends g' w).1 hg').2)
          (by rw [hfr', hfr])
        simp only [PipeEnds.isOpen_shut, hends, exists_and_left, ← hopen]
        split_ifs with hw <;> simp [hw]
      · refine .gone hlt (by rw [hp', update_self]) (fun g w hg => ?_)
          (by rw [hfr', hfr, if_pos rfl])
        obtain ⟨hw, hg⟩ := (hends g w).1 hg
        rw [← Bool.eq_not.2 hw, (hopen w).2 ⟨g, hg⟩] at hother
        cases hother
  · have hends :=
      isEnd_update hfile (q := r) (by rw [hf]; exact fun hc => hrq (by cases hc; rfl)) nofun
    refine (h.pipeOk r).congr hends ?_ (by rw [hpipes]) ?_
    · rcases hpage with ⟨-, hp, -⟩ | ⟨-, hp, -⟩ <;> rw [hp, update_of_ne hrq]
    · rcases hpage with ⟨-, -, hfr⟩ | ⟨-, -, hfr⟩
      · rw [hfr]
      · rw [hfr, if_neg hrq, Nat.add_zero]

end OpenSys

end Xv6
