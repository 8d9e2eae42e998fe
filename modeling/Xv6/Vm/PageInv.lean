import Xv6.Vm.PageOwner
import Mathlib.Algebra.BigOperators.Group.Finset.Basic

set_option autoImplicit false

/-! # Every page has one owner

The pages of the machine, system call by system call: at all times a page is on the free list,
belongs to one process that is not `UNUSED`, is the page of one open pipe, or has been lost, and it
is only one of these once. Nothing is asked of the calls of `kalloc`: any of them may fail. -/

namespace Xv6

open Function PageMem

/-! ## The pipes behind the descriptors -/

def OpenCall.page {P : Type} : OpenCall P → Bool
  | .pipe _ page => page
  | _ => false

namespace OpenSys

variable {P : Type}

/-- From `s` to `s'` no pipe has been opened again, and one is new at most, where there was a page
    for it. -/
structure Older (page : Bool) (s s' : OpenSys P) : Prop where
  pipes : s'.pipes = s.pipes ∨ page = true ∧ s'.pipes = s.pipes + 1
  closed : ∀ q < s.pipes, s.pipe q = none → s'.pipe q = none

variable {s s' s'' : OpenSys P} {b : Bool}

theorem Older.of_eq (hpipes : s'.pipes = s.pipes) (hpipe : s'.pipe = s.pipe) : Older b s s' :=
  ⟨.inl hpipes, fun q _ hq => by rw [hpipe, hq]⟩

theorem Older.trans (h : Older false s s') (h' : Older b s' s'') : Older b s s'' := by
  obtain hp | ⟨hf, -⟩ := h.pipes
  · constructor
    · rw [← hp]
      exact h'.pipes
    · intro q hq hnone
      exact h'.closed q (hp ▸ hq) (h.closed q hq hnone)
  · cases hf

theorem Older.trans_kept (h : Older b s s') (h' : Older false s' s'') : Older b s s'' := by
  obtain hp | ⟨hf, -⟩ := h'.pipes
  · constructor
    · rw [hp]
      exact h.pipes
    · intro q hq hnone
      refine h'.closed q ?_ (h.closed q hq hnone)
      have := h.pipes
      omega
  · cases hf

theorem Older.congr_left (h : Older b s' s'') (hpipes : s'.pipes = s.pipes)
    (hpipe : s'.pipe = s.pipe) :
    Older b s s'' := (Older.of_eq hpipes hpipe).trans h

theorem Older.weaken (h : Older false s s') : Older b s s' := h.trans (.of_eq rfl rfl)

theorem pipeclose_older {q : ℕ} {w : Bool} (h : s.pipeclose q w = .ok s') : Older false s s' := by
  simp only [pipeclose] at h
  split at h
  · cases h
  · next e he =>
    -- Only the entry of the open pipe `q` changes.
    have hkept : ∀ x : Option PipeEnds, ∀ r < s.pipes, s.pipe r = none →
        update s.pipe q x r = none := by
      intro x r _ hr
      rw [update_of_ne, hr]
      rintro rfl
      rw [hr] at he
      cases he
    split at h
    · cases h
      exact ⟨.inl rfl, hkept none⟩
    · cases h
      exact ⟨.inl rfl, hkept _⟩

variable {f : Fin nfile}

theorem fileclose_older (h : s.fileclose f = .ok s') : Older false s s' := by
  simp only [fileclose, finish] at h
  split at h
  · cases h
  · split at h
    · cases h
      exact .of_eq rfl rfl
    · split at h
      · cases h
        exact .of_eq rfl rfl
      · exact (pipeclose_older h).congr_left rfl rfl
      · cases h
        exact .of_eq rfl rfl

theorem filedup_older (h : s.filedup f = .ok s') : Older false s s' := by
  unfold filedup at h
  split at h
  · cases h
  · cases h
    exact .of_eq rfl rfl

theorem filealloc_older (h : s.filealloc = some (f, s')) : Older false s s' := by
  unfold filealloc at h
  split at h
  · cases h
  · cases h
    exact .of_eq rfl rfl

theorem pipeOf_older (f0 f1 : Fin nfile) (s : OpenSys P) : Older true s (s.pipeOf f0 f1) := by
  refine ⟨.inr ⟨rfl, rfl⟩, fun q hq hnone => ?_⟩
  exact (update_of_ne (Nat.ne_of_lt hq) _ _).trans hnone

theorem pipealloc_older {page : Bool} {r : Option (Fin nfile × Fin nfile)}
    (h : s.pipealloc page = .ok (r, s')) : Older page s s' := by
  unfold pipealloc at h
  split at h
  · cases h
    exact .of_eq rfl rfl
  · next ha =>
    have hfirst := filealloc_older ha
    split at h
    · obtain ⟨s1, hclose, he⟩ := Stoppable.of_bind h
      cases he
      exact (hfirst.trans (fileclose_older hclose)).weaken
    · next hb =>
      have hsecond := hfirst.trans (filealloc_older hb)
      split at h
      · next hpage =>
        cases h
        subst hpage
        exact hsecond.trans (pipeOf_older _ _ _)
      · obtain ⟨s1, hclose, h⟩ := Stoppable.of_bind h
        obtain ⟨s2, hclose', he⟩ := Stoppable.of_bind h
        cases he
        exact ((hsecond.trans (fileclose_older hclose)).trans (fileclose_older hclose')).weaken

variable [DecidableEq P]

theorem fdalloc_older {p : P} {fd : Fin nofile} (h : s.fdalloc p f = some (fd, s')) :
    Older false s s' := by
  unfold fdalloc at h
  split at h
  · cases h
  · cases h
    exact .of_eq rfl rfl

theorem pipeFds_older {p : P} {rf wf : Fin nfile} {r : Int} (h : s.pipeFds p rf wf = .ok (r, s')) :
    Older false s s' := by
  unfold pipeFds at h
  split at h
  · obtain ⟨s1, hclose, h⟩ := Stoppable.of_bind h
    obtain ⟨s2, hclose', he⟩ := Stoppable.of_bind h
    cases he
    exact (fileclose_older hclose).trans (fileclose_older hclose')
  · next ha =>
    split at h
    · obtain ⟨s1, hclose, h⟩ := Stoppable.of_bind h
      obtain ⟨s2, hclose', he⟩ := Stoppable.of_bind h
      cases he
      refine (fdalloc_older ha).trans (Older.trans ?_ (fileclose_older hclose'))
      exact (fileclose_older hclose).congr_left rfl rfl
    · next hb =>
      cases h
      exact (fdalloc_older ha).trans (fdalloc_older hb)

theorem dupAll_older {p c : P} (fds : List (Fin nofile)) (h : dupAll p c fds s = .ok s') :
    Older false s s' := by
  induction fds generalizing s with
  | nil =>
    cases h
    exact .of_eq rfl rfl
  | cons fd fds ih =>
    rw [dupAll] at h
    split at h
    · exact ih h
    · obtain ⟨s1, hdup, h⟩ := Stoppable.of_bind h
      exact (filedup_older hdup).trans ((ih h).congr_left rfl rfl)

theorem closeAll_older {p : P} (fds : List (Fin nofile)) (h : closeAll p fds s = .ok s') :
    Older false s s' := by
  induction fds generalizing s with
  | nil =>
    cases h
    exact .of_eq rfl rfl
  | cons fd fds ih =>
    rw [closeAll] at h
    split at h
    · exact ih h
    · obtain ⟨s1, hclose, h⟩ := Stoppable.of_bind h
      exact (fileclose_older hclose).trans ((ih h).congr_left rfl rfl)

/-- What the calls that `PageSys` makes do to pipes. -/
theorem call_older {p : P} {c : OpenCall P} {r : Int} (h : s.call p c = .ok (r, s')) :
    Older c.page s s' := by
  unfold call at h
  split_ifs at h
  cases c with
  | opens ip rd wr =>
    simp only [sysOpen, openFound] at h
    split at h
    · cases h
      exact .of_eq rfl rfl
    · split at h
      · cases h
        exact .of_eq rfl rfl
      · next ha =>
        split at h
        · obtain ⟨s1, hclose, he⟩ := Stoppable.of_bind h
          cases he
          exact (filealloc_older ha).trans (fileclose_older hclose)
        · next hb =>
          cases h
          exact ((filealloc_older ha).trans (fdalloc_older hb)).trans (.of_eq rfl rfl)
  | dup n =>
    simp only [sysDup] at h
    split at h
    · cases h
      exact .of_eq rfl rfl
    · split at h
      · cases h
        exact .of_eq rfl rfl
      · next ha =>
        obtain ⟨s1, hdup, he⟩ := Stoppable.of_bind h
        cases he
        exact (fdalloc_older ha).trans (filedup_older hdup)
  | close n =>
    simp only [sysClose] at h
    split at h
    · cases h
      exact .of_eq rfl rfl
    · obtain ⟨s1, hclose, he⟩ := Stoppable.of_bind h
      cases he
      exact (fileclose_older hclose).congr_left rfl rfl
  | pipe addr page =>
    simp only [sysPipe] at h
    split at h
    · obtain ⟨⟨files, s1⟩, halloc, h⟩ := Stoppable.of_bind h
      have holder := pipealloc_older halloc
      cases files with
      | none =>
        cases h
        exact holder
      | some fs => exact holder.trans_kept (pipeFds_older h)
    · cases h
      exact .of_eq rfl rfl
  | fork child =>
    simp only [fork] at h
    split_ifs at h
    split at h
    · cases h
      exact .of_eq rfl rfl
    · obtain ⟨s1, hdup, he⟩ := Stoppable.of_bind h
      cases he
      exact (dupAll_older _ hdup).trans (.of_eq rfl rfl)
  | exit =>
    simp only [exit] at h
    obtain ⟨s1, hclose, he⟩ := Stoppable.of_bind h
    cases he
    exact (closeAll_older _ hclose).trans (.of_eq rfl rfl)

end OpenSys

/-! ## Owners -/

/-- The pages of a process. -/
def PageProc.owned (x : PageProc) : Multiset ℕ :=
  if x.state = .unused then 0 else x.kstack ::ₘ x.space.pages

variable {x : PageProc}

theorem PageProc.owned_used (h : x.state ≠ .unused) :
    x.owned = x.kstack ::ₘ x.space.pages := if_neg h

theorem PageProc.owned_unused (h : x.state = .unused) : x.owned = 0 := if_pos h

namespace PageSys

def openPipes (files : OpenSys (Fin nproc)) : List ℕ :=
  (List.range files.pipes).filter fun q => (files.pipe q).isSome

/-- The pages that belong to processes and pipes, as often as they do. -/
def owners (s : PageSys) : Multiset ℕ :=
  ∑ p, (s.proc p).owned + (openPipes s.files).map s.pipePage

structure Inv (all : Multiset ℕ) (lost : List ℕ) (s : PageSys) : Prop where
  holds : Holds all lost s.mem s.owners
  sound : ∀ p, (s.proc p).state ≠ .unused → (s.proc p).space.Sound
  size : ∀ p, (s.proc p).state ≠ .unused → (s.proc p).sz < kernbase

variable {all : Multiset ℕ} {lost : List ℕ} {s s' : PageSys} {p : Fin nproc}

/-- The other owners stay when the row of one process is replaced. -/
theorem owners_split (s : PageSys) (p : Fin nproc) :
    ∃ rest, s.owners = (s.proc p).owned + rest ∧ ∀ x, (s.setProc p x).owners = x.owned + rest := by
  refine ⟨∑ q ∈ Finset.univ.erase p, (s.proc q).owned + (openPipes s.files).map s.pipePage, ?_,
    fun x => ?_⟩
  · rw [owners, ← Finset.add_sum_erase _ _ (Finset.mem_univ p), add_assoc]
  · rw [owners, ← Finset.add_sum_erase _ _ (Finset.mem_univ p), add_assoc]
    have hself : (s.setProc p x).proc p = x := update_self ..
    have hrest : ∑ q ∈ Finset.univ.erase p, ((s.setProc p x).proc q).owned =
        ∑ q ∈ Finset.univ.erase p, (s.proc q).owned :=
      Finset.sum_congr rfl fun q hq =>
        congrArg PageProc.owned (update_of_ne (Finset.ne_of_mem_erase hq) _ _)
    rw [hself, hrest]
    rfl

variable {old new files : OpenSys (Fin nproc)}

theorem openFrom_eq (h : new.pipes = old.pipes) :
    openFrom old.pipes old new = openPipes old := by
  rw [openFrom, openPipes, h]
  refine List.filter_congr fun q hq => ?_
  simp [List.mem_range.1 hq]

theorem openFrom_succ (h : new.pipes = old.pipes + 1) :
    openFrom old.pipes old new = openPipes old ++ [old.pipes] := by
  rw [openFrom, openPipes, h, List.range_succ, List.filter_append]
  congr 1
  · refine List.filter_congr fun q hq => ?_
    simp [List.mem_range.1 hq]
  · simp

/-- A pipe that is open now was open before or is new. -/
theorem openFrom_open {b : Bool} (h : OpenSys.Older b old new) :
    (openFrom old.pipes old new).filter (fun q => (new.pipe q).isSome) = openPipes new := by
  rw [openFrom, openPipes, List.filter_filter]
  refine List.filter_congr fun q _ => ?_
  by_cases hold : old.pipes ≤ q
  · simp [hold]
  · cases hq : old.pipe q with
    | none => simp [h.closed q (by omega) hq]
    | some e => simp

/-- The pages of pipes that are closed now go back, those of open ones stay. -/
theorem setFiles_holds (rest : Multiset ℕ) {b : Bool} (hf : OpenSys.Older b s.files files)
    (h : Holds all lost s.mem
      (rest + (∑ p, (s.proc p).owned + (openFrom s.files.pipes s.files files).map s.pipePage))) :
    Holds all lost (s.setFiles files).mem (rest + (s.setFiles files).owners) := by
  refine Holds.kfreeAll ?_
  have hsplit : ((openFrom s.files.pipes s.files files).map s.pipePage : Multiset ℕ) =
      (openPipes files).map s.pipePage +
        (((openFrom s.files.pipes s.files files).filter fun q => (files.pipe q).isNone).map s.pipePage :
          Multiset ℕ) := by
    rw [← openFrom_open hf, Multiset.coe_add, ← List.map_append, Multiset.coe_eq_coe]
    refine List.Perm.map _ (List.Perm.symm ?_)
    have hperm := List.filter_append_perm (fun q => (files.pipe q).isSome)
      (openFrom s.files.pipes s.files files)
    simpa using hperm
  rw [hsplit] at h
  have hcomm : ∀ a b c d : Multiset ℕ, a + (b + (c + d)) = d + (a + (b + c)) := by
    intro a b c d
    abel
  rw [hcomm] at h
  exact h

theorem setFiles_holds_same (rest : Multiset ℕ) (hf : OpenSys.Older false s.files files)
    (h : Holds all lost s.mem (rest + s.owners)) :
    Holds all lost (s.setFiles files).mem (rest + (s.setFiles files).owners) := by
  refine setFiles_holds rest hf ?_
  obtain hp | ⟨hno, -⟩ := hf.pipes
  · rw [openFrom_eq hp]
    exact h
  · cases hno

/-! ## One call -/

section

variable (h : Inv all lost s)

include h

theorem Inv.setMem {m : PageMem} (hm : Holds all lost m s.owners) :
    Inv all lost (s.setMem m) := ⟨hm, h.sound, h.size⟩

theorem Inv.enter (fail : ℕ → Bool) : Inv all lost (s.enter fail) :=
  h.setMem (h.holds.congr rfl rfl rfl)

/-- The row of one process has been replaced. -/
theorem Inv.replaced (hproc : s'.proc = update s.proc p x)
    (hm : Holds all lost s'.mem s'.owners) (hx : x.state ≠ .unused → x.space.Sound ∧
      x.sz < kernbase) :
    Inv all lost s' := by
  have hrow : ∀ q, s'.proc q = if q = p then x else s.proc q := by
    intro q
    rw [hproc, update_apply]
  have hall : ∀ q, (s'.proc q).state ≠ .unused → (s'.proc q).space.Sound ∧
      (s'.proc q).sz < kernbase := by
    intro q hq
    rw [hrow] at hq ⊢
    split at hq
    · next e =>
      rw [if_pos e]
      exact hx hq
    · next e =>
      rw [if_neg e]
      exact ⟨h.sound q hq, h.size q hq⟩
  exact ⟨hm, fun q hq => (hall q hq).1, fun q hq => (hall q hq).2⟩

theorem Inv.setFiles
    (hf : OpenSys.Older false s.files files) : Inv all lost (s.setFiles files) := by
  refine ⟨?_, h.sound, h.size⟩
  have := setFiles_holds_same 0 hf (by simpa using h.holds)
  simpa using this

/-- Only the states and parents of processes have changed. -/
theorem Inv.kept (hmem : s'.mem = s.mem) (hfiles : s'.files = s.files)
    (hpage : s'.pipePage = s.pipePage)
    (hproc : ∀ q, ((s'.proc q).state = .unused ↔ (s.proc q).state = .unused) ∧
      (s'.proc q).space = (s.proc q).space ∧ (s'.proc q).sz = (s.proc q).sz ∧
      (s'.proc q).kstack = (s.proc q).kstack) : Inv all lost s' := by
  have howners : s'.owners = s.owners := by
    rw [owners, owners, hfiles, hpage]
    refine congrArg (· + _) (Finset.sum_congr rfl fun q _ => ?_)
    obtain ⟨hstate, hspace, -, hstack⟩ := hproc q
    simp only [PageProc.owned, hstate, hspace, hstack]
  constructor
  · rw [howners, hmem]
    exact h.holds
  · intro q hq
    rw [(hproc q).2.1]
    exact h.sound q (mt (hproc q).1.2 hq)
  · intro q hq
    rw [(hproc q).2.2.1]
    exact h.size q (mt (hproc q).1.2 hq)

end

theorem freeSlot_unused {c : Fin nproc} (h : s.freeSlot = some c) : (s.proc c).state = .unused := by
  have := List.find?_some h
  simpa using this

variable {r : Bool}

section

variable (h : Inv all lost s)

include h

section

variable (hp : (s.proc p).state = .live)

include hp

theorem fork_inv (hc : s.fork p = .ok (r, s')) : Inv all lost s' := by
  have hsz : (s.proc p).sz ≤ kernbase := (h.size p (by rw [hp]; decide)).le
  unfold fork at hc
  split at hc
  · cases hc
    exact h
  · next c hslot =>
    have hunused := freeSlot_unused hslot
    split at hc
    · next hk =>
      cases hc
      exact h.setMem (h.holds.kalloc_none hk)
    · next k m1 hk =>
      have hm1 := h.holds.kalloc_some hk
      split at hc
      · cases hc
      · next hcopy =>
        cases hc
        exact h.setMem (AddrSpace.copyuvm_builds hsz hm1 hcopy).kfree
      · next d m2 hcopy =>
        obtain ⟨hd, hm2⟩ := AddrSpace.copyuvm_builds hsz hm1 hcopy
        split at hc
        · cases hc
        · next files hfiles =>
          cases hc
          have holder : OpenSys.Older false (s.setMem m2).files files := OpenSys.call_older hfiles
          rw [Multiset.add_cons, ← Multiset.cons_add] at hm2
          have hm3 := setFiles_holds_same (s := s.setMem m2) _ holder hm2
          obtain ⟨rest, hsplit, hset⟩ := owners_split ((s.setMem m2).setFiles files) c
          have hnone : (((s.setMem m2).setFiles files).proc c).owned = 0 :=
            PageProc.owned_unused hunused
          rw [hsplit, hnone, zero_add] at hm3
          refine h.replaced rfl ?_ fun _ => ⟨hd, h.size p (by rw [hp]; decide)⟩
          rw [hset]
          exact hm3

theorem exec_inv {x : ExecFacts} (hc : s.exec p x = .ok (r, s')) : Inv all lost s' := by
  have hused : (s.proc p).state ≠ .unused := by
    rw [hp]
    decide
  unfold exec at hc
  split at hc
  · split at hc
    · cases hc
    · next himage =>
      cases hc
      exact h.setMem (AddrSpace.image_builds h.holds himage)
    · next sz sp m himage =>
      obtain ⟨hsp, hm⟩ := AddrSpace.image_builds h.holds himage
      have hsz := AddrSpace.image_size himage
      obtain ⟨rest, hsplit, hset⟩ := owners_split s p
      cases hc
      refine h.replaced rfl ?_ fun _ => ⟨hsp, hsz⟩
      have hnew : PageProc.owned { s.proc p with space := sp, sz := sz } =
          (s.proc p).kstack ::ₘ sp.pages :=
        PageProc.owned_used hused
      have howners : ((s.setMem ((s.proc p).space.freevm m)).setProc p
          { s.proc p with space := sp, sz := sz }).owners = (s.proc p).kstack ::ₘ sp.pages + rest :=
        (hset _).trans (by rw [hnew])
      rw [howners]
      have hcomm : (sp.pages + s.owners : Multiset ℕ) =
          (s.proc p).space.pages + ((s.proc p).kstack ::ₘ sp.pages + rest) := by
        rw [hsplit, PageProc.owned_used hused, ← Multiset.singleton_add, ← Multiset.singleton_add]
        abel
      rw [hcomm] at hm
      exact AddrSpace.freevm_holds (h.sound p hused) hm
  · cases hc
    exact h

/-- A process changes its own address space. -/
theorem Inv.resized {m : PageMem} {sp : AddrSpace} {sz : ℕ} (hsz : sz < kernbase)
    (hsp : ∀ rest, Holds all lost s.mem ((s.proc p).space.pages + rest) →
      sp.Sound ∧ Holds all lost m (sp.pages + rest)) :
    Inv all lost ((s.setMem m).setProc p { s.proc p with space := sp, sz := sz }) := by
  have hused : (s.proc p).state ≠ .unused := by
    rw [hp]
    decide
  obtain ⟨rest, hsplit, hset⟩ := owners_split s p
  have hmem := h.holds
  rw [hsplit, PageProc.owned_used hused, Multiset.cons_add, ← Multiset.add_cons] at hmem
  obtain ⟨hsound, hm⟩ := hsp _ hmem
  refine h.replaced rfl ?_ fun _ => ⟨hsound, hsz⟩
  have hnew : PageProc.owned { s.proc p with space := sp, sz := sz } =
      (s.proc p).kstack ::ₘ sp.pages :=
    PageProc.owned_used hused
  have howners : ((s.setMem m).setProc p { s.proc p with space := sp, sz := sz }).owners =
      (s.proc p).kstack ::ₘ sp.pages + rest := (hset _).trans (by rw [hnew])
  rw [howners, Multiset.cons_add, ← Multiset.add_cons]
  exact hm

theorem sbrk_inv {n : Word} (hc : s.sbrk p n = .ok (r, s')) : Inv all lost s' := by
  have hused : (s.proc p).state ≠ .unused := by
    rw [hp]
    decide
  have hsize := h.size p hused
  have hsound := h.sound p hused
  simp only [sbrk] at hc
  split at hc
  · split at hc
    · cases hc
    · next sz sp m halloc =>
      cases hc
      refine h.resized hp ?_ fun rest hm => AddrSpace.allocuvm_holds hsound hm halloc
      split
      · exact hsize
      · exact AddrSpace.allocuvm_size (fun _ => hsize) halloc
  · split at hc
    · cases hc
      refine h.resized hp ?_ fun rest hm => AddrSpace.deallocuvm_holds _ _ hsound hm
      split_ifs <;> omega
    · cases hc
      exact h

end

theorem pipe_inv {addr : Bool} (hc : s.pipe p addr = .ok (r, s')) :
    Inv all lost s' := by
  simp only [pipe] at hc
  split at hc
  · cases hc
  · next n files hfiles =>
    have holder : OpenSys.Older _ s.files files := OpenSys.call_older hfiles
    split at hc
    · next k hk =>
      split at hc
      · next hsame =>
        cases hc
        exact h.setFiles ⟨.inl hsame, holder.closed⟩
      · next hnew =>
        cases hc
        have hsucc : files.pipes = s.files.pipes + 1 := (holder.pipes.resolve_left hnew).2
        have hm := h.holds.kalloc_some (Prod.ext hk rfl : s.mem.kalloc = (some k, s.mem.kalloc.2))
        refine ⟨?_, h.sound, h.size⟩
        rw [← zero_add (owners _)]
        refine setFiles_holds 0 holder ?_
        rw [zero_add]
        have hmap : (openPipes s.files).map (update s.pipePage s.files.pipes k) =
            (openPipes s.files).map s.pipePage := by
          refine List.map_congr_left fun q hq => update_of_ne ?_ _ _
          have := List.mem_range.1 (List.mem_of_mem_filter hq)
          omega
        have hpages : ((openFrom s.files.pipes s.files files).map
            (update s.pipePage s.files.pipes k) : Multiset ℕ) =
              k ::ₘ (openPipes s.files).map s.pipePage := by
          rw [openFrom_succ hsucc, List.map_append, hmap, List.map_singleton, update_self,
            ← Multiset.coe_add, ← Multiset.singleton_add, add_comm, Multiset.coe_singleton]
        have howners : (k ::ₘ s.owners) = ∑ q,
          (s.proc q).owned + ((openFrom s.files.pipes s.files files).map
            (update s.pipePage s.files.pipes k) : Multiset ℕ) := by
          rw [hpages, Multiset.add_cons]
          rfl
        rw [howners] at hm
        exact hm
    · next hk =>
      cases hc
      refine h.setFiles ?_
      rw [hk] at holder
      exact holder

theorem close_inv {fd : Int} (hc : s.close p fd = .ok (r, s')) :
    Inv all lost s' := by
  unfold close at hc
  split at hc
  · cases hc
  · next hfiles =>
    cases hc
    exact h.setFiles (OpenSys.call_older hfiles)

theorem exit_inv (hp : (s.proc p).state = .live) (hc : s.exit p = .ok (r, s')) :
    Inv all lost s' := by
  unfold exit at hc
  split_ifs at hc
  split at hc
  · cases hc
  · next hfiles =>
    cases hc
    refine (h.setFiles (OpenSys.call_older hfiles)).kept rfl rfl rfl fun q => ?_
    by_cases hq : q = p
    · subst hq
      simp only [setProc, update_self, abandon]
      split
      · exact ⟨by simp [setFiles, hp], rfl, rfl, rfl⟩
      · exact ⟨by simp [setFiles, hp], rfl, rfl, rfl⟩
    · simp only [setProc, update_of_ne hq, abandon]
      split
      · exact ⟨Iff.rfl, rfl, rfl, rfl⟩
      · exact ⟨Iff.rfl, rfl, rfl, rfl⟩

theorem wait_inv (hc : s.wait p = .ok (r, s')) : Inv all lost s' := by
  simp only [wait] at hc
  split at hc
  · cases hc
    exact h
  · next c hchild =>
    have hzombie : (s.proc c).state = .zombie := by
      have := List.find?_some hchild
      simp only [decide_eq_true_eq] at this
      exact this.2
    have hused : (s.proc c).state ≠ .unused := by
      rw [hzombie]
      decide
    obtain ⟨rest, hsplit, hset⟩ := owners_split s c
    have hm := h.holds
    rw [hsplit, PageProc.owned_used hused, Multiset.cons_add] at hm
    cases hc
    refine h.replaced rfl ?_ fun hno => absurd rfl hno
    have howners : ((s.setMem ((s.proc c).space.freevm (s.mem.kfree (s.proc c).kstack))).setProc c
        { s.proc c with state := .unused, parent := none }).owners = rest :=
      (hset _).trans (zero_add _)
    rw [howners]
    exact AddrSpace.freevm_holds (h.sound c hused) hm.kfree

/-- Every call keeps the books; the pages that were lost before stay lost. -/
theorem call_inv {c : PageCall} (hc : s.call p c = .ok (r, s')) :
    Inv all lost s' := by
  unfold call at hc
  split_ifs at hc with hp
  cases c with
  | fork fail => exact fork_inv (h.enter fail) hp hc
  | exec x fail => exact exec_inv (h.enter fail) hp hc
  | sbrk n fail => exact sbrk_inv (h.enter fail) hp hc
  | pipe addr fail => exact pipe_inv (h.enter fail) hc
  | close fd => exact close_inv h hc
  | exit => exact exit_inv h hp hc
  | wait => exact wait_inv h hc

end

theorem step_call {a : Fin nproc × PageCall} (h : s.step a = .ok s') :
    ∃ r, s.call a.1 a.2 = .ok (r, s') := by
  unfold step at h
  cases hc : s.call a.1 a.2 with
  | error e =>
    rw [hc] at h
    cases h
  | ok x =>
    rw [hc] at h
    cases h
    exact ⟨_, rfl⟩

/-! ## All calls -/

/-- The pages of the machine. -/
def allPages (rest : List ℕ) : List ℕ := List.range 68 ++ rest

theorem inUse_booted (ks : List ℕ) (k : ℕ) : inUse k (ks.map .kalloc) = true ↔ k ∈ ks := by
  induction ks with
  | nil => simp [inUse]
  | cons j ks ih =>
    by_cases hjk : j = k
    · simp [inUse, hjk]
    · simp [inUse, hjk, ih, Ne.symm hjk]

theorem proper_booted {ks : List ℕ} (h : ks.Nodup) : Proper (ks.map .kalloc) := by
  induction ks with
  | nil => trivial
  | cons k ks ih =>
    obtain ⟨hk, hks⟩ := List.nodup_cons.1 h
    refine ⟨?_, ih hks⟩
    rw [Bool.eq_false_iff, Ne, inUse_booted]
    exact hk

theorem owners_init (rest : List ℕ) : (init rest).owners = List.range 68 := by
  have hothers : ∀ p ≠ initproc, ((init rest).proc p).owned = 0 := by
    intro p hp
    refine PageProc.owned_unused ?_
    simp [init, hp]
  rw [owners, Finset.sum_eq_single initproc (fun p _ hp => hothers p hp) fun hno => absurd
    (Finset.mem_univ _) hno]
  rfl

theorem inv_init {rest : List ℕ} (h : (allPages rest).Nodup) :
    Inv (allPages rest) [] (init rest) := by
  constructor
  · rw [owners_init]
    constructor
    · exact h
    · rw [allPages, ← Multiset.coe_add, add_comm]
      exact congrArg (_ + ·) (add_zero _)
    · intro k
      refine (inUse_booted _ k).trans ?_
      rw [Multiset.mem_coe, show (init rest).mem.lost = [] from rfl]
      simp
    · exact proper_booted List.nodup_range
    · exact List.nil_suffix
  · intro p hp
    by_cases hinit : p = initproc
    · subst hinit
      have hsound : AddrSpace.Sound ⟨1, List.range' 2 64, [(0, 66)], [(0, 67)]⟩ := by
        constructor <;> decide
      exact hsound
    · simp [init, hinit] at hp
  · intro p hp
    by_cases hinit : p = initproc
    · subst hinit
      exact (by decide : pgsize < kernbase)
    · simp [init, hinit] at hp

theorem inv_reachable {pages : List ℕ} (hpages : (allPages pages).Nodup)
    {ok : Fin nproc × PageCall → PageSys → Prop}
    (h : Transition.Reachable step (· = init pages) ok s) : Inv (allPages pages) [] s := by
  refine h.invariant (P := Inv (allPages pages) []) ?_ ?_
  · rintro _ rfl
    exact inv_init hpages
  · intro a s s' hinv _ hstep
    obtain ⟨r, hcall⟩ := step_call hstep
    exact call_inv hinv hcall

end PageSys

end Xv6
