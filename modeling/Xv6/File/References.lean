import Xv6.File.Descriptors

set_option autoImplicit false

/-! # Reference counts over whole calls

`Sound s held` joins the counts of the references with the books on the final actions, for a state
inside a call that holds the references `held`. Every step of a call keeps it. -/

namespace Xv6

open Transition Function Stoppable

namespace OpenSys

variable {P : Type} [DecidableEq P] [Fintype P] {s s' : OpenSys P} {held : List (Fin nfile)}

/-- How many of the descriptors of one process point at the file. -/
def uses (fds : Fin nofile → Option (Fin nfile)) (f : Fin nfile) : ℕ :=
  ∑ fd, if fds fd = some f then 1 else 0

/-- How many descriptors point at the file. -/
def slots (s : OpenSys P) (f : Fin nfile) : ℕ := ∑ p, uses (s.ofile p) f

structure Files (s : OpenSys P) (held : List (Fin nfile)) : Prop where
  ref : ∀ f, (s.file f).ref = ((s.slots f + held.count f : ℕ) : Int)
  closed : ∀ f, (s.file f).ref = 0 → (s.file f).type = .none
  /-- A descriptor points at an opened file. -/
  typed : ∀ p fd f, s.ofile p fd = some f → (s.file f).type ≠ .none

structure Sound (s : OpenSys P) (held : List (Fin nfile)) : Prop where
  files : Files s held
  finals : Finals s
  pipes : PipesOk s

/-- Neither the descriptors nor the set of processes has changed. -/
structure Kept (s s' : OpenSys P) : Prop where
  ofile : s'.ofile = s.ofile
  alive : s'.alive = s.alive

theorem slots_setOfile (s : OpenSys P) (p : P) (fd : Fin nofile) (x : Option (Fin nfile))
    (f : Fin nfile) :
    (s.setOfile p fd x).slots f + (if s.ofile p fd = some f then 1 else 0) =
      s.slots f + if x = some f then 1 else 0 := by
  have houter : (s.setOfile p fd x).slots f + uses (s.ofile p) f =
      s.slots f + uses (update (s.ofile p) fd x) f :=
    Tally.sum_update Finset.univ (fun _ y => uses y f) s.ofile (Finset.mem_univ p) _
  have hinner : uses (update (s.ofile p) fd x) f + (if s.ofile p fd = some f then 1 else 0) =
      uses (s.ofile p) f + if x = some f then 1 else 0 :=
    Tally.sum_update Finset.univ (fun _ y => if y = some f then 1 else 0) (s.ofile p)
      (Finset.mem_univ fd) x
  omega

variable {p : P} {fd : Fin nofile} {f : Fin nfile}

section

omit [DecidableEq P]

theorem slots_congr (h : s'.ofile = s.ofile) (f : Fin nfile) : s'.slots f = s.slots f := by
  rw [slots, h, slots]

theorem slots_pos (h : s.ofile p fd = some f) :
    0 < s.slots f := by
  refine Finset.sum_pos' (fun _ _ => Nat.zero_le _) ⟨p, Finset.mem_univ p, ?_⟩
  refine Finset.sum_pos' (fun _ _ => Nat.zero_le _) ⟨fd, Finset.mem_univ fd, ?_⟩
  rw [if_pos h]
  exact Nat.one_pos

/-- A file that a descriptor or the call refers to. -/
theorem Files.ref_pos (h : Files s held) (hf : 0 < s.slots f ∨ f ∈ held) :
    0 < (s.file f).ref := by
  rw [h.ref f]
  rcases hf with hf | hf
  · omega
  · have := List.count_pos_iff.2 hf
    omega

end

/-! ## Steps of a call -/

variable {held' : List (Fin nfile)}

/-- A descriptor changes, and with it what the call holds. -/
theorem Sound.setOfile (h : Sound s held) (p : P) (fd : Fin nofile) (x : Option (Fin nfile))
    (hcount : ∀ f, (if x = some f then 1 else 0) + held'.count f =
      (if s.ofile p fd = some f then 1 else 0) + held.count f)
    (htyped : ∀ f, x = some f → (s.file f).type ≠ .none) : Sound (s.setOfile p fd x) held' := by
  refine ⟨⟨fun f => ?_, h.files.closed, fun q fd' f hf => ?_⟩,
    h.finals.congr (fun _ => ⟨rfl, rfl, rfl⟩) rfl rfl rfl,
    h.pipes.congr (fun _ => ⟨rfl, rfl, rfl⟩) rfl rfl fun _ => rfl⟩
  · have href := h.files.ref f
    have hslots := slots_setOfile s p fd x f
    have hf := hcount f
    show (s.file f).ref = _
    omega
  · show (s.file f).type ≠ .none
    by_cases hq : q = p
    · subst hq
      have hrow : (s.setOfile q fd x).ofile q = update (s.ofile q) fd x := update_self ..
      rw [hrow] at hf
      by_cases hfd : fd' = fd
      · rw [hfd, update_self] at hf
        exact htyped f hf
      · rw [update_of_ne hfd] at hf
        exact h.files.typed q fd' f hf
    · have hrow : (s.setOfile p fd x).ofile q = s.ofile q := update_of_ne hq ..
      rw [hrow] at hf
      exact h.files.typed q fd' f hf

section

omit [DecidableEq P]

/-- The reference count of one file changes. -/
theorem Sound.setRef (h : Sound s held) {r : Int}
    (hother : ∀ g, g ≠ f → held'.count g = held.count g)
    (href : r = ((s.slots f + held'.count f : ℕ) : Int)) (hr : r = 0 → (s.file f).type = .none) :
    Sound (s.setFile f { s.file f with ref := r }) held' := by
  have hkind := sameKind_setRef s f r
  refine ⟨⟨fun g => ?_, fun g hg => ?_, fun p fd g hg => ?_⟩, h.finals.congr hkind rfl rfl rfl,
    h.pipes.congr hkind rfl rfl fun _ => rfl⟩
  · rw [setFile_file]
    split_ifs with hgf
    · subst hgf
      exact href
    · rw [hother g hgf]
      exact h.files.ref g
  · rw [(hkind g).1]
    rw [setFile_file] at hg
    split_ifs at hg with hgf
    · subst hgf
      exact hr hg
    · exact h.files.closed g hg
  · rw [(hkind g).1]
    exact h.files.typed p fd g hg

omit [Fintype P] in
theorem filealloc_some (h : s.filealloc = some (f, s')) :
    (s.file f).ref = 0 ∧ s' = s.setFile f { s.file f with ref := 1 } := by
  unfold filealloc at h
  split at h
  · cases h
  · next g hfind =>
      cases h
      exact ⟨by simpa using List.find?_some hfind, rfl⟩

theorem Sound.filealloc (h : Sound s held) (ha : s.filealloc = some (f, s')) :
    Sound s' (f :: held) ∧ (s'.file f).type = .none ∧ f ∉ held ∧ Kept s s' := by
  obtain ⟨hzero, rfl⟩ := filealloc_some ha
  have href := h.files.ref f
  rw [hzero] at href
  have hnot : held.count f = 0 := by omega
  refine ⟨?_, ?_, List.count_eq_zero.1 hnot, rfl, rfl⟩
  · refine h.setRef (fun g hg => List.count_cons_of_ne (Ne.symm hg)) ?_ (fun hr => by cases hr)
    rw [List.count_cons_self]
    omega
  · rw [(sameKind_setRef s f 1 f).1]
    exact h.files.closed f hzero

theorem filedup_eq (h : Files s held) (hf : 0 < s.slots f ∨ f ∈ held) :
    s.filedup f = .ok (s.setFile f { s.file f with ref := (s.file f).ref + 1 }) := by
  have := h.ref_pos hf
  rw [filedup, if_neg (by omega)]

theorem Sound.filedup (h : Sound s held) (hf : 0 < s.slots f ∨ f ∈ held) :
    Sound (s.setFile f { s.file f with ref := (s.file f).ref + 1 }) (f :: held) := by
  have hpos := h.files.ref_pos hf
  have href := h.files.ref f
  refine h.setRef (fun g hg => List.count_cons_of_ne (Ne.symm hg)) ?_ (fun hr => by omega)
  rw [List.count_cons_self]
  omega

theorem Sound.become (h : Sound s held) (hf : (s.file f).type = .none) (i : ℕ)
    (readable writable : Bool) (href : (s.file f).ref ≠ 0) :
    Sound (s.become f (.inode i) readable writable) held := by
  refine ⟨⟨fun g => ?_, fun g hg => ?_, fun p fd g hg => ?_⟩,
    h.finals.become hf (by simp) readable writable, h.pipes.become_inode hf i readable writable⟩
  · by_cases hgf : g = f
    · subst hgf
      rw [become_file_self]
      exact h.files.ref g
    · rw [become_file_of_ne hgf]
      exact h.files.ref g
  · by_cases hgf : g = f
    · subst hgf
      rw [become_file_self] at hg
      exact absurd hg href
    · rw [become_file_of_ne hgf] at hg ⊢
      exact h.files.closed g hg
  · by_cases hgf : g = f
    · subst hgf
      rw [become_file_self]
      simp
    · rw [become_file_of_ne hgf]
      exact h.files.typed p fd g hg

omit [Fintype P] in
theorem pipeOf_ref (f0 f1 g : Fin nfile) (s : OpenSys P) :
    ((s.pipeOf f0 f1).file g).ref = (s.file g).ref := by
  unfold pipeOf
  by_cases h1 : g = f1
  · subst h1
    rw [become_file_self]
    by_cases h0 : g = f0
    · subst h0
      rw [become_file_self]
    · rw [become_file_of_ne h0]
  · rw [become_file_of_ne h1]
    by_cases h0 : g = f0
    · subst h0
      rw [become_file_self]
    · rw [become_file_of_ne h0]

omit [Fintype P] in
/-- An entry of the table keeps its type when a pipe is made, or has one. -/
theorem pipeOf_type {f0 f1 g : Fin nfile} (h : (s.file g).type ≠ .none ∨ g = f0 ∨ g = f1) :
    ((s.pipeOf f0 f1).file g).type ≠ .none := by
  unfold pipeOf
  by_cases h1 : g = f1
  · subst h1
    rw [become_file_self]
    simp
  · rw [become_file_of_ne h1]
    by_cases h0 : g = f0
    · subst h0
      rw [become_file_self]
      simp
    · rw [become_file_of_ne h0]
      simpa [h0, h1] using h

theorem Sound.pipeOf (h : Sound s held) {f0 f1 : Fin nfile} (h0 : (s.file f0).type = .none)
    (h1 : (s.file f1).type = .none) (hne : f1 ≠ f0) (hr0 : (s.file f0).ref ≠ 0)
    (hr1 : (s.file f1).ref ≠ 0) : Sound (s.pipeOf f0 f1) held := by
  refine ⟨⟨fun g => ?_, fun g hg => ?_, fun p fd g hg => ?_⟩, ?_, h.pipes.pipeOf h0 h1 hne⟩
  · rw [pipeOf_ref]
    exact h.files.ref g
  · rw [pipeOf_ref] at hg
    have hg0 : g ≠ f0 := fun he => hr0 (he ▸ hg)
    have hg1 : g ≠ f1 := fun he => hr1 (he ▸ hg)
    rw [OpenSys.pipeOf, become_file_of_ne hg1, become_file_of_ne hg0]
    exact h.files.closed g hg
  · exact pipeOf_type (.inl (h.files.typed p fd g hg))
  · unfold OpenSys.pipeOf
    refine Finals.become (Finals.become ?_ ?_ ?_ _ _) ?_ ?_ _ _
    · exact h.finals.congr (fun _ => ⟨rfl, rfl, rfl⟩) rfl rfl rfl
    · exact h0
    · simp
    · rw [become_file_of_ne hne]
      exact h1
    · simp

/-! ## `fileclose` -/

omit [Fintype P] in
theorem finals_event (s : OpenSys P) (e : FileEvent) (n : ℕ) :
    (s.event e).finals n = s.finals n ++ if e.isFinal n then [e] else [] := by
  simp only [finals, event, List.filter_append, List.filter_singleton]
  cases e.isFinal n <;> rfl

omit [Fintype P] in
theorem frees_event (s : OpenSys P) (e : FileEvent) (q : ℕ) :
    (s.event e).frees q = s.frees q + if e = .kfree q then 1 else 0 := by
  simp [frees, event, List.countP_append, List.countP_cons]

omit [Fintype P] in
/-- What is done for the last reference to `f`, whose entry is cleared before. -/
theorem finish_ok (hfin : Finals s) (hpipe : PipesOk s) (f : Fin nfile) :
    ∃ s', finish (s.file f) (s.setFile f { s.file f with ref := 0, type := .none }) = .ok s' ∧
      Finals s' ∧ PipesOk s' ∧ s'.ofile = s.ofile ∧ s'.alive = s.alive ∧
      s'.file = update s.file f { s.file f with ref := 0, type := .none } := by
  unfold finish
  cases htype : (s.file f).type with
  | none =>
    have hkind : ∀ g, SameKind
        ((s.setFile f { s.file f with ref := 0, type := .none }).file g) (s.file g) := by
      intro g
      rw [setFile_file]
      split_ifs with hg
      · subst hg
        exact ⟨htype.symm, rfl, rfl⟩
      · exact ⟨rfl, rfl, rfl⟩
    exact ⟨_, rfl, hfin.congr hkind rfl rfl rfl, hpipe.congr hkind rfl rfl fun _ => rfl, rfl,
      rfl, rfl⟩
  | inode i =>
    refine ⟨_, rfl, hfin.closed (f := f) (by simp [htype]) rfl rfl rfl fun n => ?_,
      hpipe.closed (f := f) (by simp [htype]) rfl rfl rfl fun q => ?_, rfl, rfl, rfl⟩
    · rw [finals_event]
      simp [FileEvent.isFinal, OFile.final, htype, finals, setFile, eq_comm]
    · rw [frees_event]
      simp [frees, setFile]
  | pipe q =>
    obtain ⟨e, he⟩ := Option.isSome_iff_exists.1 ((hpipe.page q).2 ⟨f, htype⟩)
    have hne : (s.file f).type ≠ .none := by simp [htype]
    have hpipe' : ((s.setFile f { s.file f with ref := 0, type := .none }).event
        (.pipeclose (s.file f).id q (s.file f).writable)).pipe q = some e := he
    simp only [pipeclose, hpipe']
    by_cases hlast : e.isOpen (!(s.file f).writable) = false
    · rw [if_pos ((PipeEnds.both_shut_iff e _).2 hlast)]
      refine ⟨_, rfl, hfin.closed hne rfl rfl rfl fun n => ?_,
        hpipe.closed_end htype he rfl rfl (.inr ⟨hlast, rfl, fun r => ?_⟩), rfl, rfl, rfl⟩
      · rw [finals_event]
        show (OpenSys.event _ _).finals n ++ _ = _
        rw [finals_event]
        simp [FileEvent.isFinal, OFile.final, htype, finals, setFile, eq_comm]
      · rw [frees_event]
        show (OpenSys.event _ _).frees r + _ = _
        rw [frees_event]
        simp [frees, setFile, eq_comm]
    · rw [if_neg fun hc => hlast ((PipeEnds.both_shut_iff e _).1 hc)]
      refine ⟨_, rfl, hfin.closed hne rfl rfl rfl fun n => ?_,
        hpipe.closed_end htype he rfl rfl (.inl ⟨by simpa using hlast, rfl, fun r => ?_⟩), rfl,
          rfl, rfl⟩
      · show (OpenSys.event _ _).finals n = _
        rw [finals_event]
        simp [FileEvent.isFinal, OFile.final, htype, finals, setFile, eq_comm]
      · show (OpenSys.event _ _).frees r = _
        rw [frees_event]
        simp [frees, setFile]

theorem Sound.fileclose (h : Sound s (f :: held)) :
    ∃ s', s.fileclose f = .ok s' ∧ Sound s' held ∧ Kept s s' := by
  have href := h.files.ref f
  rw [List.count_cons_self] at href
  have hother : ∀ g, g ≠ f → held.count g = (f :: held).count g := fun g hg =>
    (List.count_cons_of_ne (Ne.symm hg)).symm
  rw [OpenSys.fileclose, if_neg (by omega)]
  by_cases hmore : 0 < (s.file f).ref - 1
  · rw [if_pos hmore]
    exact ⟨_, rfl, h.setRef hother (by omega) (fun hr => by omega), rfl, rfl⟩
  · rw [if_neg hmore]
    obtain ⟨s', heq, hfin, hpipe, hofile, halive, hfile⟩ := finish_ok h.finals h.pipes f
    refine ⟨s', heq, ⟨⟨fun g => ?_, fun g hg => ?_, fun p fd g hg => ?_⟩, hfin, hpipe⟩,
      hofile, halive⟩
    · rw [hfile, slots_congr hofile]
      by_cases hgf : g = f
      · subst hgf
        rw [update_self]
        show (0 : Int) = _
        omega
      · rw [update_of_ne hgf, hother g hgf]
        exact h.files.ref g
    · rw [hfile] at hg ⊢
      by_cases hgf : g = f
      · subst hgf
        rw [update_self]
      · rw [update_of_ne hgf] at hg ⊢
        exact h.files.closed g hg
    · rw [hofile] at hg
      have hgf : g ≠ f := by
        rintro rfl
        have := slots_pos hg
        omega
      rw [hfile, update_of_ne hgf]
      exact h.files.typed p fd g hg

end

/-! ## The calls -/

/-- A call that returns leaves exact counts behind, and the processes that are not in use without
    descriptors. -/
def Settled (s : OpenSys P) : Prop :=
  Sound s [] ∧ ∀ p, s.alive p = false → ∀ fd, s.ofile p fd = none

/-- The call returns, and what it leaves behind is settled. -/
def Settles (x : Except OpenStop (Int × OpenSys P)) : Prop := ∃ r s', x = .ok (r, s') ∧ Settled s'

omit [Fintype P] in
theorem fdalloc_some (h : s.fdalloc p f = some (fd, s')) :
    s.ofile p fd = none ∧ s' = s.setOfile p fd (some f) := by
  unfold fdalloc at h
  split at h
  · cases h
  · next fd' hfind =>
      cases h
      exact ⟨by simpa using List.find?_some hfind, rfl⟩

/-- A reference that the call holds goes into a free descriptor. -/
theorem Sound.putFd (h : Sound s (f :: held)) (p : P) (fd : Fin nofile)
    (hfd : s.ofile p fd = none) (htype : (s.file f).type ≠ .none) :
    Sound (s.setOfile p fd (some f)) held := by
  refine h.setOfile p fd (some f) (fun g => ?_) fun g hg => ?_
  · rw [hfd, List.count_cons]
    simp [Nat.add_comm]
  · cases hg
    exact htype

/-- A descriptor is cleared, and the call holds its reference. -/
theorem Sound.takeFd (h : Sound s held)
    (hfd : s.ofile p fd = some f) : Sound (s.setOfile p fd none) (f :: held) := by
  refine h.setOfile p fd none (fun g => ?_) (fun g hg => by cases hg)
  rw [hfd, List.count_cons]
  simp [Nat.add_comm]

omit [DecidableEq P] [Fintype P] in
theorem argfd_some {n : Int} (h : s.argfd p n = some (fd, f)) : s.ofile p fd = some f := by
  unfold argfd at h
  split_ifs at h
  obtain ⟨g, hg, heq⟩ := Option.map_eq_some_iff.1 h
  cases heq
  exact hg

omit [Fintype P] in
theorem setOfile_alive_dead {x : Option (Fin nfile)} (hp : s.alive p = true)
    (hdead : ∀ q, s.alive q = false → ∀ fd, s.ofile q fd = none) :
    ∀ q, (s.setOfile p fd x).alive q = false → ∀ fd', (s.setOfile p fd x).ofile q fd' = none := by
  intro q hq fd'
  have hqp : q ≠ p := by
    rintro rfl
    cases hp.symm.trans hq
  have hrow : (s.setOfile p fd x).ofile q = s.ofile q := update_of_ne hqp ..
  rw [hrow]
  exact hdead q hq fd'

omit [DecidableEq P] [Fintype P] in
theorem Kept.dead (hk : Kept s s') (hdead : ∀ q, s.alive q = false → ∀ fd, s.ofile q fd = none) :
    ∀ q, s'.alive q = false → ∀ fd, s'.ofile q fd = none := by
  intro q hq fd
  rw [hk.alive] at hq
  rw [hk.ofile]
  exact hdead q hq fd

theorem sysOpen_settles (h : Settled s) (hp : s.alive p = true) (ip : Option ℕ)
    (readable writable : Bool) : Settles (s.sysOpen p ip readable writable) := by
  obtain ⟨hs, hdead⟩ := h
  cases ip with
  | none => exact ⟨-1, s, rfl, hs, hdead⟩
  | some i =>
    show Settles (s.openFound p i readable writable)
    unfold openFound
    split
    · exact ⟨-1, s, rfl, hs, hdead⟩
    · next f s1 halloc =>
        obtain ⟨hs1, htype, -, hk⟩ := hs.filealloc halloc
        split
        · obtain ⟨s2, heq, hs2, hk2⟩ := hs1.fileclose
          exact ⟨-1, s2, by rw [heq]; rfl, hs2, hk2.dead (hk.dead hdead)⟩
        · next fd s2 hfd =>
            obtain ⟨hnone, rfl⟩ := fdalloc_some hfd
            have href := hs1.files.ref_pos (f := f) (.inr List.mem_cons_self)
            have hb := hs1.become htype i readable writable (by omega)
            -- The type is set after the descriptor, which makes no difference.
            have hput : Sound ((s1.become f (.inode i) readable writable).setOfile p fd
                (some f)) [] :=
              hb.putFd p fd hnone (by simp)
            exact ⟨fd.val, _, rfl, hput, setOfile_alive_dead (hk.alive ▸ hp) (hk.dead hdead)⟩

theorem sysDup_settles (h : Settled s) (hp : s.alive p = true) (n : Int) :
    Settles (s.sysDup p n) := by
  obtain ⟨hs, hdead⟩ := h
  unfold sysDup
  split
  · exact ⟨-1, s, rfl, hs, hdead⟩
  · next fd f harg =>
      have hfd := argfd_some harg
      split
      · exact ⟨-1, s, rfl, hs, hdead⟩
      · next fd' s1 hfd' =>
          obtain ⟨hnone, rfl⟩ := fdalloc_some hfd'
          have hpos : 0 < s.slots f := slots_pos hfd
          have hdup : (s.setOfile p fd' (some f)).filedup f =
              .ok ((s.setFile f { s.file f with ref := (s.file f).ref + 1 }).setOfile p fd'
                (some f)) := by
            have hlt : ¬((s.setOfile p fd' (some f)).file f).ref < 1 := by
              have := hs.files.ref_pos (.inl hpos)
              show ¬(s.file f).ref < 1
              omega
            rw [OpenSys.filedup, if_neg hlt]
            rfl
          have hput := (hs.filedup (.inl hpos)).putFd p fd' hnone (by
            rw [(sameKind_setRef s f _ f).1]
            exact hs.files.typed p fd f hfd)
          exact ⟨fd'.val, _, by rw [hdup]; rfl, hput, setOfile_alive_dead hp hdead⟩

theorem sysClose_settles (h : Settled s) (hp : s.alive p = true) (n : Int) :
    Settles (s.sysClose p n) := by
  obtain ⟨hs, hdead⟩ := h
  unfold sysClose
  split
  · exact ⟨-1, s, rfl, hs, hdead⟩
  · next fd f harg =>
      obtain ⟨s1, heq, hs1, hk⟩ := (hs.takeFd (argfd_some harg)).fileclose
      exact ⟨0, s1, by rw [heq]; rfl, hs1, hk.dead (setOfile_alive_dead hp hdead)⟩

omit [DecidableEq P] in
/-- Two references are dropped one after the other. -/
theorem Sound.closeBoth {g : Fin nfile} (h : Sound s [f, g]) :
    ∃ s1 s2, s.fileclose f = .ok s1 ∧ s1.fileclose g = .ok s2 ∧ Sound s2 [] ∧ Kept s s2 := by
  obtain ⟨s1, heq1, hs1, hk1⟩ := h.fileclose
  obtain ⟨s2, heq2, hs2, hk2⟩ := hs1.fileclose
  exact ⟨s1, s2, heq1, heq2, hs2, hk2.ofile.trans hk1.ofile, hk2.alive.trans hk1.alive⟩

omit [DecidableEq P] in
/-- `pipealloc` fails without a trace, or returns two opened files that the call holds. -/
theorem pipealloc_ok (h : Sound s []) (page : Bool) :
    ∃ files s', s.pipealloc page = .ok (files, s') ∧ Kept s s' ∧
      (files = none ∧ Sound s' [] ∨
        ∃ rf wf, files = some (rf, wf) ∧ Sound s' [rf, wf] ∧ (s'.file rf).type ≠ .none ∧
          (s'.file wf).type ≠ .none) := by
  unfold pipealloc
  split
  · exact ⟨none, s, rfl, ⟨rfl, rfl⟩, .inl ⟨rfl, h⟩⟩
  · next f0 s1 halloc =>
      obtain ⟨hs1, htype1, -, hk1⟩ := h.filealloc halloc
      split
      · obtain ⟨s2, heq, hs2, hk2⟩ := hs1.fileclose
        exact ⟨none, s2, by rw [heq]; rfl, ⟨hk2.ofile.trans hk1.ofile, hk2.alive.trans hk1.alive⟩,
          .inl ⟨rfl, hs2⟩⟩
      · next f1 s2 halloc2 =>
          obtain ⟨hs2, htype2, hnot, hk2⟩ := hs1.filealloc halloc2
          have hne : f1 ≠ f0 := fun he => hnot (he ▸ List.mem_cons_self)
          have hk : Kept s s2 := ⟨hk2.ofile.trans hk1.ofile, hk2.alive.trans hk1.alive⟩
          have htype0 : (s2.file f0).type = .none := by
            obtain ⟨-, rfl⟩ := filealloc_some halloc2
            rw [(sameKind_setRef s1 f1 1 f0).1]
            exact htype1
          have hswap : Sound s2 [f0, f1] := by
            refine ⟨⟨fun g => ?_, hs2.files.closed, hs2.files.typed⟩, hs2.finals, hs2.pipes⟩
            rw [hs2.files.ref g, (List.Perm.swap f0 f1 []).count_eq]
          split_ifs
          · have hr0 := hswap.files.ref_pos (f := f0) (.inr (by simp))
            have hr1 := hswap.files.ref_pos (f := f1) (.inr (by simp))
            exact ⟨some (f0, f1), _, rfl, ⟨hk.ofile, hk.alive⟩, .inr ⟨f0, f1, rfl,
              hswap.pipeOf htype0 htype2 hne (by omega) (by omega), pipeOf_type (.inr (.inl rfl)),
              pipeOf_type (.inr (.inr rfl))⟩⟩
          · obtain ⟨s3, s4, heq3, heq4, hs4, hk4⟩ := hswap.closeBoth
            refine ⟨none, s4, ?_, ⟨hk4.ofile.trans hk.ofile, hk4.alive.trans hk.alive⟩,
              .inl ⟨rfl, hs4⟩⟩
            simp [heq3, heq4, bind, Except.bind, pure, Except.pure]

theorem pipeFds_settles {rf wf : Fin nfile} (hs : Sound s [rf, wf]) (hrf : (s.file rf).type ≠ .none)
    (hwf : (s.file wf).type ≠ .none) (hp : s.alive p = true)
    (hdead : ∀ q, s.alive q = false → ∀ fd, s.ofile q fd = none) : Settles (s.pipeFds p rf wf) := by
  unfold pipeFds
  split
  · obtain ⟨s1, s2, heq1, heq2, hs2, hk⟩ := hs.closeBoth
    exact ⟨-1, s2, by simp [heq1, heq2, bind, Except.bind, pure, Except.pure], hs2, hk.dead hdead⟩
  · next fd0 s1 hfd =>
      obtain ⟨hnone, rfl⟩ := fdalloc_some hfd
      have hs1 := hs.putFd p fd0 hnone hrf
      have hdead1 : ∀ q, (s.setOfile p fd0 (some rf)).alive q = false →
          ∀ fd, (s.setOfile p fd0 (some rf)).ofile q fd = none := setOfile_alive_dead hp hdead
      split
      · have hback : (s.setOfile p fd0 (some rf)).ofile p fd0 = some rf := by
          simp [OpenSys.setOfile]
        obtain ⟨s2, s3, heq2, heq3, hs3, hk⟩ := (hs1.takeFd hback).closeBoth
        exact ⟨-1, s3, by simp [heq2, heq3, bind, Except.bind, pure, Except.pure], hs3,
          hk.dead (setOfile_alive_dead hp hdead1)⟩
      · next fd1 s2 hfd' =>
          obtain ⟨hnone', rfl⟩ := fdalloc_some hfd'
          exact ⟨0, _, rfl, hs1.putFd p fd1 hnone' hwf, setOfile_alive_dead hp hdead1⟩

theorem sysPipe_settles (h : Settled s) (hp : s.alive p = true) (addr page : Bool) :
    Settles (s.sysPipe p addr page) := by
  obtain ⟨hs, hdead⟩ := h
  unfold sysPipe
  split_ifs
  · obtain ⟨files, s1, heq, hk, hfiles⟩ := pipealloc_ok hs page
    rw [heq]
    rcases hfiles with ⟨rfl, hs1⟩ | ⟨rf, wf, rfl, hs1, hrf, hwf⟩
    · exact ⟨-1, s1, rfl, hs1, hk.dead hdead⟩
    · exact pipeFds_settles hs1 hrf hwf (hk.alive ▸ hp) (hk.dead hdead)
  · exact ⟨-1, s, rfl, hs, hdead⟩

/-- The loop of `fork` copies the descriptors that are left to the child. -/
theorem dupAll_ok {c : P} (fds : List (Fin nofile)) (hnodup : fds.Nodup) (h : Sound s [])
    (hchild : ∀ fd ∈ fds, s.ofile c fd = none) :
    ∃ s', dupAll p c fds s = .ok s' ∧ Sound s' [] ∧ s'.alive = s.alive ∧
      ∀ q, q ≠ c → s'.ofile q = s.ofile q := by
  induction fds generalizing s with
  | nil => exact ⟨s, rfl, h, rfl, fun _ _ => rfl⟩
  | cons fd fds ih =>
    rw [List.nodup_cons] at hnodup
    unfold dupAll
    cases hfd : s.ofile p fd with
    | none => exact ih hnodup.2 h fun fd' hfd' => hchild fd' (List.mem_cons_of_mem _ hfd')
    | some f =>
      have hpos : 0 < s.slots f := slots_pos hfd
      have hput := (h.filedup (.inl hpos)).putFd c fd
        (hchild fd List.mem_cons_self) (by
          rw [(sameKind_setRef s f _ f).1]
          exact h.files.typed p fd f hfd)
      obtain ⟨s', heq, hs', halive, hofile⟩ := ih hnodup.2 hput fun fd' hfd' => by
        have hne : fd' ≠ fd := fun he => hnodup.1 (he ▸ hfd')
        simp only [OpenSys.setOfile, update_self, update_of_ne hne]
        exact hchild fd' (List.mem_cons_of_mem _ hfd')
      refine ⟨s', ?_, hs', halive, fun q hq => (hofile q hq).trans (update_of_ne hq ..)⟩
      simp only [filedup_eq h.files (.inl hpos), bind, Except.bind]
      exact heq

/-- A process comes or goes. -/
theorem Sound.setAlive (h : Sound s held) (p : P) (b : Bool) : Sound (s.setAlive p b) held :=
  ⟨⟨h.files.ref, h.files.closed, h.files.typed⟩,
    h.finals.congr (fun _ => ⟨rfl, rfl, rfl⟩) rfl rfl rfl,
    h.pipes.congr (fun _ => ⟨rfl, rfl, rfl⟩) rfl rfl fun _ => rfl⟩

theorem fork_settles (h : Settled s) (p : P) {child : Option P}
    (hchild : ∀ c, child = some c → s.alive c = false) : Settles (s.fork p child) := by
  obtain ⟨hs, hdead⟩ := h
  cases child with
  | none => exact ⟨-1, s, rfl, hs, hdead⟩
  | some c =>
    have hc := hchild c rfl
    obtain ⟨s', heq, hs', halive, hofile⟩ := dupAll_ok (p := p) (List.finRange nofile)
      (List.nodup_finRange nofile) hs fun fd _ => hdead c hc fd
    refine ⟨0, s'.setAlive c true, ?_, hs'.setAlive c true, fun q hq fd => ?_⟩
    · simp only [OpenSys.fork, heq, bind, Except.bind, pure, Except.pure]
    · have hqc : q ≠ c := by
        rintro rfl
        simp [OpenSys.setAlive] at hq
      show s'.ofile q fd = none
      rw [hofile q hqc]
      exact hdead q (by simpa [OpenSys.setAlive, hqc, halive] using hq) fd

omit [Fintype P] in
/-- `fileclose` does not look at the descriptors. -/
theorem fileclose_setOfile (s : OpenSys P) (p : P) (fd : Fin nofile) (x : Option (Fin nfile))
    (f : Fin nfile) :
    (s.setOfile p fd x).fileclose f = (s.fileclose f).map (OpenSys.setOfile p fd x) := by
  unfold OpenSys.fileclose
  simp only [show (s.setOfile p fd x).file = s.file from rfl]
  split_ifs
  · rfl
  · rfl
  · unfold finish
    cases (s.file f).type with
    | none => rfl
    | inode i => rfl
    | pipe q =>
      simp only [pipeclose]
      rw [show (OpenSys.event (.pipeclose (s.file f).id q (s.file f).writable) (OpenSys.setFile f
        { s.file f with ref := 0, type := .none } (s.setOfile p fd x))).pipe q = s.pipe q from rfl,
        show (OpenSys.event (.pipeclose (s.file f).id q (s.file f).writable) (OpenSys.setFile f
        { s.file f with ref := 0, type := .none } s)).pipe q = s.pipe q from rfl]
      cases s.pipe q with
      | none => rfl
      | some e =>
        dsimp only
        split_ifs <;> rfl

/-- The loop of `exit` closes the descriptors that are left. -/
theorem closeAll_ok (fds : List (Fin nofile)) (h : Sound s []) :
    ∃ s', closeAll p fds s = .ok s' ∧ Sound s' [] ∧ s'.alive = s.alive ∧
      (∀ q, q ≠ p → s'.ofile q = s.ofile q) ∧
      ∀ fd, fd ∈ fds ∨ s.ofile p fd = none → s'.ofile p fd = none := by
  induction fds generalizing s with
  | nil => exact ⟨s, rfl, h, rfl, fun _ _ => rfl, fun fd hfd => by simpa using hfd⟩
  | cons fd fds ih =>
    unfold closeAll
    cases hfd : s.ofile p fd with
    | none =>
      obtain ⟨s', heq, hs', halive, hother, hnone⟩ := ih h
      refine ⟨s', heq, hs', halive, hother, fun fd' hfd' => hnone fd' ?_⟩
      rcases hfd' with hmem | hn
      · rcases List.mem_cons.1 hmem with rfl | hmem
        · exact .inr hfd
        · exact .inl hmem
      · exact .inr hn
    | some f =>
      -- The descriptor is cleared after the reference has gone, which makes no difference.
      obtain ⟨s1, heq1, hs1, hk⟩ := (h.takeFd hfd).fileclose
      rw [fileclose_setOfile] at heq1
      obtain ⟨s0, heq0, rfl⟩ : ∃ s0, s.fileclose f = .ok s0 ∧ s0.setOfile p fd none = s1 := by
        cases hc : s.fileclose f with
        | error e =>
          rw [hc] at heq1
          cases heq1
        | ok s0 =>
          rw [hc] at heq1
          exact ⟨s0, rfl, Except.ok.inj heq1⟩
      obtain ⟨s', heq, hs', halive, hother, hnone⟩ := ih hs1
      refine ⟨s', ?_, hs', halive.trans hk.alive, fun q hq => ?_, fun fd' hfd' => hnone fd' ?_⟩
      · simp only [heq0, bind, Except.bind]
        exact heq
      · rw [hother q hq, hk.ofile]
        exact update_of_ne hq ..
      · by_cases hmem : fd' ∈ fds
        · exact .inl hmem
        · refine .inr ?_
          rw [hk.ofile]
          by_cases hne : fd' = fd
          · simp [OpenSys.setOfile, hne]
          · simp only [OpenSys.setOfile, update_self, update_of_ne hne]
            rcases hfd' with hc | hn
            · rcases List.mem_cons.1 hc with he | hc
              · exact absurd he hne
              · exact absurd hc hmem
            · exact hn

theorem exit_settles (h : Settled s) (p : P) : Settles (s.exit p) := by
  obtain ⟨hs, hdead⟩ := h
  obtain ⟨s', heq, hs', halive, hother, hnone⟩ := closeAll_ok (p := p) (List.finRange nofile) hs
  refine ⟨0, s'.setAlive p false, ?_, hs'.setAlive p false, fun q hq fd => ?_⟩
  · simp only [OpenSys.exit, heq, bind, Except.bind, pure, Except.pure]
  · show s'.ofile q fd = none
    by_cases hqp : q = p
    · rw [hqp]
      exact hnone fd (.inl (List.mem_finRange fd))
    · rw [hother q hqp]
      exact hdead q (by simpa [OpenSys.setAlive, hqp, halive] using hq) fd

theorem call_settles (h : Settled s) (c : OpenCall P) :
    Settles (s.call p c) ∨ s.call p c = .error .disabled := by
  unfold OpenSys.call
  split_ifs with hp
  · exact .inr rfl
  · have hp' : s.alive p = true := by simpa using hp
    cases c with
    | opens ip readable writable => exact .inl (sysOpen_settles h hp' ip readable writable)
    | dup fd => exact .inl (sysDup_settles h hp' fd)
    | close fd => exact .inl (sysClose_settles h hp' fd)
    | pipe addr page => exact .inl (sysPipe_settles h hp' addr page)
    | fork child =>
      dsimp only
      split_ifs with hany
      · exact .inr rfl
      · refine .inl (fork_settles h p fun c hc => ?_)
        subst hc
        simpa using hany
    | exit => exact .inl (exit_settles h p)

theorem step_settled (h : Settled s) (a : P × OpenCall P) :
    (∃ s', step a s = .ok s' ∧ Settled s') ∨ step a s = .error .disabled := by
  unfold step
  rcases call_settles h (p := a.1) a.2 with ⟨r, s', heq, hs'⟩ | heq
  · exact .inl ⟨s', by rw [heq]; rfl, hs'⟩
  · exact .inr (by rw [heq]; rfl)

theorem settled_init (p : P) : Settled (init p) := by
  have hslots : ∀ f, (init p : OpenSys P).slots f = 0 := fun f => by simp [slots, uses, init]
  refine ⟨⟨⟨fun f => by rw [hslots]; rfl, fun _ _ => rfl, fun _ _ _ h => by cases h⟩, ?_, ?_⟩,
    fun _ _ _ => rfl⟩
  · refine ⟨fun f hf => absurd rfl hf, fun f g hf => absurd rfl hf, fun f hf => absurd rfl hf,
      fun n hn => absurd hn (Nat.not_lt_zero n), ?_, fun n hn => absurd hn (Nat.not_lt_zero n),
        fun _ _ => rfl⟩
    rintro n ⟨f, hf, -⟩
    exact absurd rfl hf
  · refine ⟨nofun, nofun, nofun, fun q => ⟨nofun, fun ⟨f, hf⟩ => (by cases hf)⟩, nofun, ?_,
      fun _ _ => rfl⟩
    intro q hq
    exact absurd hq (Nat.not_lt_zero q)

/-! ## The result -/

/-- A descriptor points at the opened file `n`. -/
def HasFd (s : OpenSys P) (n : ℕ) : Prop := ∃ p fd f, s.ofile p fd = some f ∧ (s.file f).id = n

/-- A descriptor points at an end of pipe `q`. -/
def HasEnd (s : OpenSys P) (q : ℕ) (writable : Bool) : Prop :=
  ∃ p fd f, s.ofile p fd = some f ∧ s.IsEnd q f writable

structure Counted (s : OpenSys P) : Prop where
  ref : ∀ f, (s.file f).ref = (s.slots f : Int)
  free : ∀ f, (s.file f).ref = 0 → ∀ p fd, s.ofile p fd ≠ some f
  /-- The final action of an opened file is that of the inode or the end of a pipe that it stands
      for, and is performed once, when its last descriptor has gone. -/
  final : ∀ n < s.opened, ∃ e, (s.stands n).final = [e] ∧
    (s.HasFd n → s.finals n = []) ∧ (¬s.HasFd n → s.finals n = [e])
  /-- A descriptor points at what was opened. -/
  same : ∀ p fd f, s.ofile p fd = some f → SameKind (s.stands (s.file f).id) (s.file f)
  /-- The page of a pipe is there while a descriptor of it is, with those ends open that have a
      descriptor, and is freed once after that. -/
  page : ∀ q < s.pipes,
    (∃ e, s.pipe q = some e ∧ (∀ w, e.isOpen w = true ↔ s.HasEnd q w) ∧ (∃ w, s.HasEnd q w) ∧
        s.frees q = 0) ∨
      (s.pipe q = none ∧ (∀ w, ¬s.HasEnd q w) ∧ s.frees q = 1)
  /-- No call panics. -/
  runs : ∀ a e, step a s = .error e → e = .disabled

section

omit [DecidableEq P]

/-- A file that stands for something has a descriptor between two calls. -/
theorem Settled.exists_fd (h : Settled s) (hf : (s.file f).type ≠ .none) :
    ∃ p fd, s.ofile p fd = some f := by
  by_contra hnone
  push Not at hnone
  refine hf (h.1.files.closed f ?_)
  have hslots : s.slots f = 0 :=
    Finset.sum_eq_zero fun p _ => Finset.sum_eq_zero fun fd _ => if_neg (hnone p fd)
  rw [h.1.files.ref f, hslots]
  rfl

theorem Settled.hasFd (h : Settled s) (n : ℕ) : s.HasFd n ↔ s.InTable n := by
  constructor
  · rintro ⟨p, fd, f, hfd, hid⟩
    exact ⟨f, h.1.files.typed p fd f hfd, hid⟩
  · rintro ⟨f, hf, hid⟩
    obtain ⟨p, fd, hfd⟩ := h.exists_fd hf
    exact ⟨p, fd, f, hfd, hid⟩

theorem Settled.hasEnd (h : Settled s) (q : ℕ) (w : Bool) : s.HasEnd q w ↔ ∃ f, s.IsEnd q f w := by
  constructor
  · rintro ⟨p, fd, f, -, hf⟩
    exact ⟨f, hf⟩
  · rintro ⟨f, hf⟩
    obtain ⟨p, fd, hfd⟩ := h.exists_fd (f := f) (by simp [hf.1])
    exact ⟨p, fd, f, hfd, hf⟩

end

/-- After any calls of any processes, in any order. -/
theorem references_counted (p : P)
    (h : Reachable step (· = init p) (fun _ _ => True) s) : Counted s := by
  have hset : Settled s := by
    refine h.invariant (by rintro s rfl; exact settled_init p) fun a s s' hs _ hstep => ?_
    rcases step_settled hs a with ⟨s1, heq, hs1⟩ | heq
    · cases heq.symm.trans hstep
      exact hs1
    · cases heq.symm.trans hstep
  refine ⟨fun f => ?_, fun f hf q fd hfd => ?_, fun n hn => ?_, fun q fd f hfd => ?_,
    fun q hq => ?_, fun a e hstep => ?_⟩
  · simpa using hset.1.files.ref f
  · have hpos := slots_pos hfd
    have href := hset.1.files.ref f
    rw [hf] at href
    simp only [List.count_nil] at href
    omega
  · obtain ⟨e, he⟩ := OFile.final_of_typed (hset.1.finals.typed n hn)
    refine ⟨e, he, fun hfd => hset.1.finals.inside n ((hset.hasFd n).1 hfd), fun hfd => ?_⟩
    rw [hset.1.finals.outside n hn fun hc => hfd ((hset.hasFd n).2 hc), he]
  · exact hset.1.finals.stands f (hset.1.files.typed q fd f hfd)
  · simp only [hset.hasEnd]
    cases hset.1.pipes.pipeOk q with
    | later hle => exact absurd hq (Nat.not_lt.2 hle)
    | live e _ hpipe hopen hend _ hfrees =>
      obtain ⟨w, hw⟩ := hend
      exact .inl ⟨e, hpipe, hopen, ⟨w, (hopen w).1 hw⟩, hfrees⟩
    | gone _ hpipe hends hfrees =>
      exact .inr ⟨hpipe, fun w hw => hends _ _ hw.choose_spec, hfrees⟩
  · rcases step_settled hset a with ⟨s1, heq, -⟩ | heq
    · cases heq.symm.trans hstep
    · cases heq.symm.trans hstep
      rfl

/-- A process makes a pipe, forks, and closes one end; the child exits. -/
theorem references_counted_pipe :
    ∃ s : OpenSys Bool, Counted s ∧ s.finals 0 = [.pipeclose 0 0 false] ∧ s.finals 1 = [] ∧
      s.frees 0 = 0 := by
  let acts : List (Bool × OpenCall Bool) :=
    [(true, .pipe true true), (true, .fork (some false)), (true, .close 0), (false, .exit)]
  obtain ⟨s, hreach, hcounts⟩ := reachable_any step (· = init true) (fun _ _ => True) acts rfl
    (fun s => s.finals 0 = [.pipeclose 0 0 false] ∧ s.finals 1 = [] ∧ s.frees 0 = 0)
    (by decide +kernel)
  exact ⟨s, references_counted true hreach, hcounts⟩

end OpenSys

end Xv6
