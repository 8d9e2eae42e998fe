import Xv6.Fs.Link

set_option autoImplicit false

/-! # Open files, current directories and whole calls

`FileOk` says that the reference count of an entry of the file table is the number of descriptors
that point at it, plus those a running call holds. With it each of the calls ends in an `Outcome`:
the counts of references are exact, the table has been edited and inodes without a name may have
been freed. -/

namespace Xv6

open Function Stoppable

namespace DirFs

/-- How many descriptors of the process point at the file. -/
def uses (x : ProcFiles) (f : Fin nfile) : ℕ := ∑ fd, if x.ofile fd = some f then 1 else 0

def fds (s : DirFs) (f : Fin nfile) : ℕ := ∑ p, uses (s.proc p) f

structure FileOk (s : DirFs) (held : List (Fin nfile)) : Prop where
  ref : ∀ f, (s.file f).ref = ((s.fds f + held.count f : ℕ) : Int)
  closed : ∀ f, (s.file f).ref = 0 → (s.file f).type = .none

/-- A process without a current directory has no open files. -/
def Idle (s : DirFs) : Prop := ∀ p, (s.proc p).cwd = none → ∀ fd, (s.proc p).ofile fd = none

variable {s : DirFs} {held : List ℕ} {fheld : List (Fin nfile)} {safe : Prop} {removable : ℕ → Prop}

/-! ## Counts after an update -/

section

variable (s : DirFs)

section

variable (p : Fin nproc)

theorem fds_setProc (x : ProcFiles) (f : Fin nfile) :
    (s.setProc p x).fds f + uses (s.proc p) f = s.fds f + uses x f :=
  Tally.sum_update Finset.univ (fun _ y => uses y f) s.proc (Finset.mem_univ p) x

theorem fds_setOfile (fd : Fin nofile) (x : Option (Fin nfile)) (f : Fin nfile) :
    (s.setOfile p fd x).fds f + (if (s.proc p).ofile fd = some f then 1 else 0) =
      s.fds f + if x = some f then 1 else 0 := by
  have houter := fds_setProc s p { s.proc p with ofile := update (s.proc p).ofile fd x } f
  have hinner := Tally.sum_update Finset.univ (fun _ y => if y = some f then 1 else 0)
    (s.proc p).ofile (Finset.mem_univ fd) x
  simp only [uses] at houter
  simp only [setOfile]
  omega

theorem cwds_setProc (x : ProcFiles) (i : ℕ) :
    (s.setProc p x).cwds i + (if (s.proc p).cwd = some i then 1 else 0) =
      s.cwds i + if x.cwd = some i then 1 else 0 :=
  Tally.sum_update Finset.univ (fun _ (y : ProcFiles) => if y.cwd = some i then 1 else 0) s.proc
    (Finset.mem_univ p) x

theorem owned_setOfile (fd : Fin nofile) (x : Option (Fin nfile)) (i : ℕ) :
    (s.setOfile p fd x).owned i = s.owned i := by
  have hcwds := cwds_setProc s p { s.proc p with ofile := update (s.proc p).ofile fd x } i
  have hopens : (s.setOfile p fd x).opens i = s.opens i := rfl
  dsimp only at hcwds
  simp only [owned, hopens]
  simp only [setOfile]
  omega

theorem owned_setCwd (c : Option ℕ) (i : ℕ) :
    (s.setCwd p c).owned i + (if (s.proc p).cwd = some i then 1 else 0) =
      s.owned i + if c = some i then 1 else 0 := by
  have hcwds := cwds_setProc s p { s.proc p with cwd := c } i
  have hopens : (s.setCwd p c).opens i = s.opens i := rfl
  dsimp only at hcwds
  simp only [owned, hopens]
  simp only [setCwd]
  omega

end

theorem owned_setFile (f : Fin nfile) (x : FileSlot) (i : ℕ) :
    (s.setFile f x).owned i + (if (s.file f).IsOpen i then 1 else 0) =
      s.owned i + if x.IsOpen i then 1 else 0 := by
  have hopens : (s.setFile f x).opens i + (if (s.file f).IsOpen i then 1 else 0) =
      s.opens i + if x.IsOpen i then 1 else 0 :=
    Tally.sum_update Finset.univ (fun _ (y : FileSlot) => if y.IsOpen i then 1 else 0) s.file
      (Finset.mem_univ f) x
  have hcwds : (s.setFile f x).cwds i = s.cwds i := rfl
  simp only [owned, hcwds]
  omega

end

variable {s' : DirFs}

/-- References change hands between the processes and the call. -/
theorem CacheOk.own (h : CacheOk s held) {held' : List ℕ} (hinode : s'.inode = s.inode)
    (href : s'.ref = s.ref) (hvalid : s'.valid = s.valid)
    (hown : ∀ i, s'.owned i + held'.count i = s.owned i + held.count i)
    (halloc : ∀ i, 0 < s'.owned i → (s.inode i).type ≠ .free) : CacheOk s' held' := by
  intro i
  rw [href, hvalid, hinode]
  exact ⟨by rw [(h i).ref_eq, hown], halloc i, (h i).valid_alloc, (h i).unlinked⟩

variable {f : Fin nfile} {x : FileSlot}

/-- An entry of the file table changes, but not what it has open. -/
theorem CacheOk.setFile (h : CacheOk s held)
    (hx : ∀ i, x.IsOpen i ↔ (s.file f).IsOpen i) : CacheOk (s.setFile f x) held := by
  have hown : ∀ i, (s.setFile f x).owned i = s.owned i := by
    intro i
    have hset := owned_setFile s f x i
    simp only [hx i] at hset
    omega
  exact h.own rfl rfl rfl (fun i => by rw [hown]) fun i hi => (h i).owned_alloc (hown i ▸ hi)

theorem CacheOk.setOfile (h : CacheOk s held) (p : Fin nproc) (fd : Fin nofile)
    (x : Option (Fin nfile)) :
    CacheOk (s.setOfile p fd x) held :=
  h.own rfl rfl rfl (fun i => by rw [owned_setOfile]) fun i hi =>
    (h i).owned_alloc (owned_setOfile s p fd x i ▸ hi)

variable {fheld' : List (Fin nfile)}

/-- A descriptor changes, and with it what the call holds. -/
theorem FileOk.setOfile (h : FileOk s fheld) (p : Fin nproc) (fd : Fin nofile)
    (x : Option (Fin nfile)) (hcount : ∀ f, (if x = some f then 1 else 0) + fheld'.count f =
      (if (s.proc p).ofile fd = some f then 1 else 0) + fheld.count f) :
    FileOk (s.setOfile p fd x) fheld' := by
  refine ⟨fun f => ?_, h.closed⟩
  have href := h.ref f
  have hfds := fds_setOfile s p fd x f
  have hf := hcount f
  show (s.file f).ref = _
  omega

@[simp] theorem setOfile_cwd (s : DirFs) (p : Fin nproc) (fd : Fin nofile) (x : Option (Fin nfile))
    (q : Fin nproc) : ((s.setOfile p fd x).proc q).cwd = (s.proc q).cwd := by
  by_cases hq : q = p
  · simp [setOfile, setProc, hq]
  · simp [setOfile, setProc, hq]

/-! ## `fileclose` -/

theorem FileOk.setFile (h : FileOk s fheld) (hother : ∀ g, g ≠ f → fheld'.count g = fheld.count g)
    (href : x.ref = ((s.fds f + fheld'.count f : ℕ) : Int)) (hclosed : x.ref = 0 → x.type = .none) :
    FileOk (s.setFile f x) fheld' := by
  refine ⟨fun g => ?_, fun g => ?_⟩
  · show (update s.file f x g).ref = ((s.fds g + _ : ℕ) : Int)
    by_cases hg : g = f
    · subst hg
      rw [update_self, href]
    · rw [update_of_ne hg, hother g hg, h.ref]
  · show (update s.file f x g).ref = 0 → (update s.file f x g).type = .none
    by_cases hg : g = f
    · subst hg
      rw [update_self]
      exact hclosed
    · rw [update_of_ne hg]
      exact h.closed g

theorem FileOk.congr (h : FileOk s fheld) (hfile : s'.file = s.file)
    (hproc : s'.proc = s.proc) : FileOk s' fheld :=
  ⟨fun f => by simpa only [hfile, fds, hproc] using h.ref f,
    fun f => by simpa only [hfile] using h.closed f⟩

/-- The state after a call that may have closed files. -/
structure Closed (s : DirFs) (held : List ℕ) (fheld : List (Fin nfile)) (s' : DirFs) : Prop where
  cache : CacheOk s' held
  files : FileOk s' fheld
  freed : Freed s.inode s'.inode
  ninodes : s'.ninodes = s.ninodes
  proc : s'.proc = s.proc

theorem fileclose_yields (hs : CacheOk s held) (hf : FileOk s (f :: fheld)) :
    Yields (NoType safe) (Closed s held fheld) (s.fileclose f) := by
  have href := hf.ref f
  rw [List.count_cons_self] at href
  have hother : ∀ g, g ≠ f → fheld.count g = (f :: fheld).count g := fun g hg =>
    (List.count_cons_of_ne (Ne.symm hg)).symm
  rw [fileclose, if_neg (by omega)]
  by_cases hmore : 0 < (s.file f).ref - 1
  · -- other descriptors remain
    rw [if_pos hmore]
    refine .ok ⟨hs.setFile fun i => ?_, ?_, .refl, rfl, rfl⟩
    · exact and_congr_left' ⟨fun _ => by omega, fun _ => hmore⟩
    · exact hf.setFile hother (by dsimp only; omega) fun hzero => by dsimp only at hzero; omega
  · rw [if_neg hmore]
    have hfiles : FileOk (s.setFile f { s.file f with ref := 0, type := .none }) fheld :=
      hf.setFile hother (by dsimp only; omega) fun _ => rfl
    have hnot : ∀ i, ¬FileSlot.IsOpen { s.file f with ref := 0, type := .none } i := fun i hi =>
      absurd hi.1 (lt_irrefl 0)
    cases htype : (s.file f).type with
    | none =>
      refine .ok ⟨hs.setFile fun i => ?_, hfiles, .refl, rfl, rfl⟩
      exact iff_of_false (hnot i) fun hi => by cases htype.symm.trans hi.2.1
    | inode =>
      -- the last reference to the inode's open file goes to the `iput`
      have hopen : ∀ i, (s.file f).IsOpen i ↔ (s.file f).ip = i := fun i =>
        ⟨fun hi => hi.2.2, fun hi => ⟨by omega, htype, hi⟩⟩
      have hcache : CacheOk (s.setFile f { s.file f with ref := 0, type := .none })
          ((s.file f).ip :: held) := by
        refine hs.own rfl rfl rfl (fun i => ?_) fun i hi => (hs i).owned_alloc ?_
        · have hset := owned_setFile s f { s.file f with ref := 0, type := .none } i
          rw [if_neg (hnot i)] at hset
          simp only [hopen] at hset
          rw [List.count_cons]
          simp only [beq_iff_eq]
          omega
        · have hset := owned_setFile s f { s.file f with ref := 0, type := .none } i
          rw [if_neg (hnot i)] at hset
          omega
      exact .ok ⟨iput_cache hcache, hfiles.congr (by simp) (by simp), iput_freed hcache,
        by simp [setFile], by simp [setFile]⟩

/-! ## What every call leaves -/

/-- A current directory of the state after the call: one of before, or what a path led to where the
    call has only freed inodes. -/
def CwdFrom (s s' : DirFs) (c : ℕ) : Prop :=
  (∃ p, (s.proc p).cwd = some c) ∨
    Freed s.inode s'.inode ∧ ∃ p cwd path name, (s.proc p).cwd = some cwd ∧
      resolve s.inode cwd path false = some (c, name)

structure Outcome (s : DirFs) (ok : Prop) (removable : ℕ → Prop) (s' : DirFs) : Prop where
  cache : CacheOk s' []
  files : FileOk s' []
  idle : Idle s'
  ninodes : s'.ninodes = s.ninodes
  table : ok → ∃ t, Edit s.ninodes removable s.inode t ∧ Freed t s'.inode
  cwd : ∀ q c, (s'.proc q).cwd = some c → CwdFrom s s' c

theorem Idle.congr (h : Idle s) (hproc : s'.proc = s.proc) : Idle s' := by
  intro p
  rw [hproc]
  exact h p

/-- A call that does not touch open files and processes. -/
theorem Edited.outcome {ok : Prop} (h : Edited s ok removable s') (hfiles : FileOk s [])
    (hidle : Idle s) : Outcome s ok removable s' :=
  ⟨h.cache, hfiles.congr h.file h.proc, hidle.congr h.proc, h.ninodes, h.table,
    fun q _ hq => .inl ⟨q, h.proc ▸ hq⟩⟩

/-! ## `open` -/

/-- `open` creates an entry only with `O_CREATE`. -/
def OpenOk (t : Itable) (cwd : ℕ) (path : List Byte) (omode : Word) : Prop :=
  omode &&& oCreate ≠ 0 → EntryOk t cwd path .file

instance (t : Itable) (cwd : ℕ) (path : List Byte) (omode : Word) :
    Decidable (OpenOk t cwd path omode) :=
  inferInstanceAs (Decidable (_ → _))

variable {cwd : ℕ} {path : List Byte}

theorem openInode_yields {omode : Word} (ht : TreeOk s.ninodes s.inode)
    (hn : s.ninodes ≤ 2 ^ 16) (hs : CacheOk s []) (hcwd : 0 < s.ref cwd)
    (hi : safe → Anchored s.inode cwd) :
    Yields (NoType safe)
      (Created s (OpenOk s.inode cwd path omode) (omode &&& oCreate ≠ 0 ∧ Creates s.inode cwd path))
      (s.openInode cwd path omode) := by
  rw [openInode]
  by_cases hmode : omode &&& oCreate ≠ 0
  · rw [if_pos hmode]
    refine (create_yields (allows_noType s 2) (allowsNew_noType s _) ht hn hs hcwd hi
      (by decide)).post ?_
    rintro r ⟨-, hr⟩
    exact { hr with
      edit := fun hok => hr.edit (hok hmode)
      same := fun hnew => hr.same fun hc => hnew ⟨hmode, hc⟩
      made := fun hnew => hr.made hnew.2 }
  · rw [if_neg hmode]
    have hnew : ¬(omode &&& oCreate ≠ 0 ∧ Creates s.inode cwd path) := fun hnew => hmode hnew.1
    refine (namei_yields (allows_noType s _) path (fun _ => ht.walkable) hs hcwd hi).bind ?_
    rintro ⟨r, s1⟩ ⟨hr, hsame1, hs1⟩
    dsimp only at hr hsame1 hs1 ⊢
    match r, hr, hs1 with
    | none, hr, hs1 => exact .ok (.of_same hnew hsame1 hs1 (by simp))
    | some ip, hr, hs1 =>
      obtain ⟨⟨ip, name⟩, hip, rfl⟩ := Option.map_eq_some_iff.1 hr.symm
      dsimp only at hs1 ⊢
      refine (ilock_yields (allows_noType s 0).noType hs1 List.mem_cons_self
        fun hsafe => ?_).bind ?_
      · rw [hsame1.inode]
        exact (ht.walkable.resolve (hi hsafe) hip).1
      rintro s2 ⟨hsame2, hs2, halloc, -⟩
      have hsame := hsame1.trans hsame2
      split
      · obtain ⟨hsame3, hs3, -⟩ := iput_same hs2 (hs.kept.congr hsame)
        exact .ok (.of_same hnew (hsame.trans hsame3) hs3 (by simp))
      · exact .ok (.of_same hnew hsame hs2 (by simpa [hsame2.inode] using halloc))

variable {p : Fin nproc}

theorem Idle.setOfile (h : Idle s) (hp : (s.proc p).cwd ≠ none) (fd : Fin nofile)
    (x : Option (Fin nfile)) : Idle (s.setOfile p fd x) := by
  intro q hq
  rw [setOfile_cwd] at hq
  have hqp : q ≠ p := fun hqp => hp (hqp ▸ hq)
  simp only [DirFs.setOfile, setProc, update_of_ne hqp]
  exact h q hq

/-- The call has the inode `ip` and gives it back. -/
theorem Created.putOutcome {ok new : Prop} {s1 s2 : DirFs} {ip : ℕ}
    (h : Created s ok new (some ip, s1))
    (hc : Closed s1 [ip] [] s2) (hidle : Idle s) : Outcome s ok removable (s2.iput ip) := by
  have hproc : (s2.iput ip).proc = s.proc := by rw [iput_proc, hc.proc, h.proc]
  refine ⟨iput_cache hc.cache, hc.files.congr (by simp) (by simp), hidle.congr hproc, ?_,
    fun hok => ?_, fun q _ hq => .inl ⟨q, hproc ▸ hq⟩⟩
  · rw [iput_ninodes, hc.ninodes, h.ninodes]
  · exact ⟨_, h.edit hok _, hc.freed.trans (iput_freed hc.cache)⟩

theorem filealloc_some (h : s.filealloc = some (f, s'))
    (hs : CacheOk s held) (hf : FileOk s fheld) :
    CacheOk s' held ∧ FileOk s' (f :: fheld) ∧ s'.inode = s.inode ∧ s'.ninodes = s.ninodes ∧
      s'.proc = s.proc ∧ (s'.file f).ref = 1 ∧ (s'.file f).type = .none := by
  rw [filealloc] at h
  cases hfind : (List.finRange nfile).find? fun f => (s.file f).ref = 0 with
  | none => simp [hfind] at h
  | some g =>
    simp only [hfind, Option.some.injEq, Prod.mk.injEq] at h
    obtain ⟨rfl, rfl⟩ := h
    have hzero : (s.file g).ref = 0 := by simpa using List.find?_some hfind
    have hnone := hf.closed g hzero
    have href := hf.ref g
    refine ⟨hs.setFile fun i => ?_,
      hf.setFile (fun k hk => List.count_cons_of_ne (Ne.symm hk)) ?_ ?_,
      rfl, rfl, rfl, ?_, ?_⟩
    · exact iff_of_false (fun h => by cases hnone.symm.trans h.2.1)
        fun h => by cases hnone.symm.trans h.2.1
    · rw [List.count_cons_self]
      dsimp only
      omega
    · exact fun _ => hnone
    · simp [setFile]
    · simp [setFile, hnone]

theorem fdalloc_some {fd : Fin nofile}
    (h : s.fdalloc p f = some (fd, s')) :
    (s.proc p).ofile fd = none ∧ s' = s.setOfile p fd (some f) := by
  rw [fdalloc] at h
  cases hfind : (List.finRange nofile).find? fun fd => ((s.proc p).ofile fd).isNone with
  | none => simp [hfind] at h
  | some fd' =>
    simp only [hfind, Option.some.injEq, Prod.mk.injEq] at h
    obtain ⟨rfl, rfl⟩ := h
    exact ⟨by simpa using List.find?_some hfind, rfl⟩

/-- The new file is set up: the reference of the call becomes that of the file. -/
theorem CacheOk.openSlot {ip : ℕ} (h : CacheOk s (ip :: held))
    (hf : (s.file f).type = .none) (hx : ∀ i, x.IsOpen i ↔ ip = i)
    (halloc : (s.inode ip).type ≠ .free) : CacheOk (s.setFile f x) held := by
  have hnot : ∀ i, ¬(s.file f).IsOpen i := fun i hi => by cases hf.symm.trans hi.2.1
  refine h.own rfl rfl rfl (fun i => ?_) fun i hi => ?_
  · have hset := owned_setFile s f x i
    rw [if_neg (hnot i)] at hset
    simp only [hx] at hset
    rw [List.count_cons]
    simp only [beq_iff_eq]
    omega
  · by_cases hip : ip = i
    · exact hip ▸ halloc
    · have hset := owned_setFile s f x i
      rw [if_neg (hnot i), if_neg (fun h => hip ((hx i).1 h))] at hset
      exact (h i).owned_alloc (by omega)

theorem sysOpen_yields {omode : Word}
    (ht : TreeOk s.ninodes s.inode) (hn : s.ninodes ≤ 2 ^ 16) (hs : CacheOk s [])
    (hfiles : FileOk s [])
    (hidle : Idle s) (hp : (s.proc p).cwd = some cwd) (hi : safe → Anchored s.inode cwd) :
    Yields (NoType safe) (fun r => Outcome s (OpenOk s.inode cwd path omode) removable r.2)
      (s.sysOpen p cwd path omode) := by
  rw [sysOpen]
  refine (openInode_yields ht hn hs (hs.ref_pos_of_owned (owned_of_cwd hp)) hi).bind ?_
  rintro ⟨r, s1⟩ hr
  have hfiles1 : FileOk s1 [] := hfiles.congr hr.file hr.proc
  cases r with
  | none =>
    refine .ok (Edited.outcome ⟨hr.cache, hr.ninodes, hr.file, hr.proc, ?_⟩ hfiles hidle)
    exact fun hok => ⟨_, hr.edit hok _, .refl⟩
  | some ip =>
    dsimp only
    cases hfa : s1.filealloc with
    | none => exact .ok (hr.putOutcome ⟨hr.cache, hfiles1, .refl, rfl, rfl⟩ hidle)
    | some x =>
      obtain ⟨f, s2⟩ := x
      obtain ⟨hcache2, hfiles2, hinode2, hninodes2, hproc2, href2, htype2⟩ :=
        filealloc_some hfa hr.cache hfiles1
      dsimp only
      cases hfd : s2.fdalloc p f with
      | none =>
        -- no descriptor is left: the new file is closed again
        refine (fileclose_yields hcache2 hfiles2).bind fun s3 hc => .ok ?_
        exact hr.putOutcome ⟨hc.cache, hc.files, hinode2 ▸ hc.freed, hc.ninodes.trans hninodes2,
          hc.proc.trans hproc2⟩ hidle
      | some y =>
        obtain ⟨fd, s3⟩ := y
        obtain ⟨hfree, rfl⟩ := fdalloc_some hfd
        have hpcwd : (s2.proc p).cwd ≠ none := by
          rw [hproc2, hr.proc, hp]
          simp
        have hfiles3 : FileOk (s2.setOfile p fd (some f)) [] :=
          hfiles2.setOfile p fd (some f) fun g => by
            rw [hfree, List.count_cons]
            simp
        have hidle3 := (hidle.congr (hproc2.trans hr.proc)).setOfile hpcwd fd (some f)
        refine .ok ⟨?_, ?_, ?_, ?_, fun hok => ⟨_, hr.edit hok _, ?_⟩, fun q c hq => ?_⟩
        · refine (hcache2.setOfile p fd (some f)).openSlot htype2 (fun i => ?_) ?_
          · exact ⟨fun h => h.2.2, fun h => ⟨by show 0 < (s2.file f).ref; omega, rfl, h⟩⟩
          · show (s2.inode ip).type ≠ .free
            rw [hinode2]
            exact hr.alloc ip rfl
        · refine hfiles3.setFile (fun _ _ => rfl) (hfiles3.ref f) fun hzero => ?_
          have : (s2.file f).ref = 0 := hzero
          omega
        · exact hidle3
        · exact hninodes2.trans hr.ninodes
        · exact hinode2 ▸ .refl
        · have hcwd : (s2.proc q).cwd = some c := by rwa [← setOfile_cwd s2 p fd (some f)]
          exact .inl ⟨q, by rwa [hproc2, hr.proc] at hcwd⟩

/-! ## `chdir` -/

theorem iput_setProc (s : DirFs) (i : ℕ) (p : Fin nproc) (x : ProcFiles) :
    (s.iput i).setProc p x = (s.setProc p x).iput i := by
  unfold iput
  by_cases h : s.ref i = 1 ∧ s.valid i ∧ (s.inode i).nlink = 0
  · rw [if_pos h, if_pos (by exact h)]
    rfl
  · rw [if_neg h, if_neg (by exact h)]
    rfl

theorem iput_setCwd (s : DirFs) (i : ℕ) (p : Fin nproc) (c : Option ℕ) :
    (s.iput i).setCwd p c = (s.setCwd p c).iput i := by
  rw [setCwd, iput_proc, iput_setProc]
  rfl

/-- The current directory changes: the old one is now held by the call, and the new one no longer
    is. -/
theorem CacheOk.setCwd {c c' : Option ℕ} (h : CacheOk s (c'.toList ++ held))
    (hp : (s.proc p).cwd = c) (halloc : ∀ i, c' = some i → (s.inode i).type ≠ .free) :
    CacheOk (s.setCwd p c') (c.toList ++ held) := by
  have hown : ∀ i, (s.setCwd p c').owned i + (c.toList ++ held).count i =
      s.owned i + (c'.toList ++ held).count i := by
    intro i
    have hset := owned_setCwd s p c' i
    have hcount : ∀ d : Option ℕ, d.toList.count i = if d = some i then 1 else 0 := fun d => by
      cases d with
      | none => rfl
      | some j => simp [List.count_cons]
    rw [List.count_append, List.count_append, hcount, hcount]
    rw [hp] at hset
    omega
  refine h.own rfl rfl rfl hown fun i hi => ?_
  by_cases hc : c' = some i
  · exact halloc i hc
  · have hset := owned_setCwd s p c' i
    rw [if_neg hc] at hset
    exact (h i).owned_alloc (by omega)

theorem FileOk.setCwd (h : FileOk s fheld) (p : Fin nproc) (c : Option ℕ) :
    FileOk (s.setCwd p c) fheld := by
  refine ⟨fun f => ?_, h.closed⟩
  have hfds := fds_setProc s p { s.proc p with cwd := c } f
  have huses : uses { s.proc p with cwd := c } f = uses (s.proc p) f := rfl
  have hsame : (s.setCwd p c).fds f = s.fds f := by
    rw [huses] at hfds
    exact Nat.add_right_cancel hfds
  rw [hsame]
  exact h.ref f

@[simp] theorem setCwd_cwd (s : DirFs) (p q : Fin nproc) (c : Option ℕ) :
    ((s.setCwd p c).proc q).cwd = if q = p then c else (s.proc q).cwd := by
  by_cases hq : q = p
  · simp [setCwd, setProc, hq]
  · simp [setCwd, setProc, hq]

@[simp] theorem setCwd_ofile (s : DirFs) (p q : Fin nproc) (c : Option ℕ) :
    ((s.setCwd p c).proc q).ofile = (s.proc q).ofile := by
  by_cases hq : q = p
  · simp [setCwd, setProc, hq]
  · simp [setCwd, setProc, hq]

theorem sysChdir_yields (ht : TreeOk s.ninodes s.inode)
    (hs : CacheOk s []) (hfiles : FileOk s []) (hidle : Idle s) (hp : (s.proc p).cwd = some cwd)
    (hi : safe → Anchored s.inode cwd) :
    Yields (NoType safe) (fun r => Outcome s True removable r.2 ∧ Refused s r)
    (s.sysChdir p cwd path) := by
  rw [sysChdir]
  refine (namei_yields (allows_noType s _) path (fun _ => ht.walkable) hs
    (hs.ref_pos_of_owned (owned_of_cwd hp)) hi).bind ?_
  rintro ⟨r, s1⟩ ⟨hr, hsame1, hs1⟩
  dsimp only at hr hsame1 hs1 ⊢
  match r, hr, hs1 with
  | none, hr, hs1 =>
    exact .ok ⟨(Edited.of_same hsame1 hs1).outcome hfiles hidle, fun _ => hsame1⟩
  | some ip, hr, hs1 =>
    obtain ⟨⟨ip, name⟩, hip, rfl⟩ := Option.map_eq_some_iff.1 hr.symm
    dsimp only at hs1 ⊢
    refine (ilock_yields (allows_noType s 0).noType hs1 List.mem_cons_self fun hsafe => ?_).bind ?_
    · rw [hsame1.inode]
      exact (ht.walkable.resolve (hi hsafe) hip).1
    rintro s2 ⟨hsame2, hs2, halloc, -⟩
    have hsame := hsame1.trans hsame2
    rw [hsame1.inode, ← hsame.inode] at halloc
    split
    · obtain ⟨hsame3, hs3, -⟩ := iput_same hs2 (hs.kept.congr hsame)
      exact .ok ⟨(Edited.of_same (hsame.trans hsame3) hs3).outcome hfiles hidle,
        fun _ => hsame.trans hsame3⟩
    · have hs3 : CacheOk (s2.setCwd p (some ip)) [cwd] :=
        CacheOk.setCwd (c := some cwd) hs2 (by rw [hsame.proc, hp])
          fun i hi => Option.some.inj hi ▸ halloc
      have hfreed : Freed s.inode ((s2.setCwd p (some ip)).iput cwd).inode := by
        rw [← hsame.inode]
        exact iput_freed hs3
      rw [iput_setCwd]
      refine .ok
        ⟨⟨iput_cache hs3, ?_, ?_, ?_, fun _ => ⟨_, .same, hfreed⟩, fun q c hq => ?_⟩, refused_of_ok⟩
      · exact ((hfiles.congr hsame.file hsame.proc).setCwd p (some ip)).congr (by simp) (by simp)
      · intro q hq
        simp only [iput_proc, setCwd_cwd, setCwd_ofile, hsame.proc] at hq ⊢
        split_ifs at hq
        exact hidle q hq
      · rw [iput_ninodes]
        exact hsame.ninodes
      · simp only [iput_proc, setCwd_cwd, hsame.proc] at hq
        split at hq
        · cases hq
          exact .inr ⟨hfreed, p, cwd, path, name, hp, hip⟩
        · exact .inl ⟨q, hq⟩

/-! ## `close` and `exit` -/

theorem sysClose_yields {fd : Fin nofile} (hs : CacheOk s []) (hfiles : FileOk s [])
    (hidle : Idle s) (hp : (s.proc p).cwd ≠ none) :
    Yields (NoType safe) (fun r => Outcome s True removable r.2) (s.sysClose p fd) := by
  rw [sysClose]
  cases hfd : (s.proc p).ofile fd with
  | none => exact .ok ((Edited.of_same .refl hs).outcome hfiles hidle)
  | some f =>
    have hfiles1 : FileOk (s.setOfile p fd none) [f] := hfiles.setOfile p fd none fun g => by
      rw [hfd, List.count_cons]
      simp
    refine (fileclose_yields (hs.setOfile p fd none) hfiles1).bind fun s1 hc => .ok ?_
    refine ⟨hc.cache, hc.files, (hidle.setOfile hp fd none).congr hc.proc, hc.ninodes,
      fun _ => ⟨_, .same, hc.freed⟩, fun q c hq => .inl ⟨q, ?_⟩⟩
    rwa [hc.proc, setOfile_cwd] at hq

/-- `exit` closes a file before it clears the descriptor; the order does not matter. -/
theorem fileclose_setOfile (s : DirFs) (f : Fin nfile) (p : Fin nproc) (fd : Fin nofile)
    (x : Option (Fin nfile)) {α : Type} (g : DirFs → Except DirPanic α) :
    (s.fileclose f >>= fun s => g (s.setOfile p fd x)) = (s.setOfile p fd x).fileclose f >>= g := by
  unfold fileclose
  have hfile : (s.setOfile p fd x).file f = s.file f := rfl
  simp only [hfile]
  split
  · rfl
  · split
    · rfl
    · cases (s.file f).type with
      | none => rfl
      | inode =>
        simp only [bind, Except.bind]
        rw [setOfile, iput_proc, iput_setProc]
        rfl

/-- The state while `exit` closes the files of the process `p`. -/
structure Closing (s : DirFs) (p : Fin nproc) (s' : DirFs) : Prop where
  cache : CacheOk s' []
  files : FileOk s' []
  freed : Freed s.inode s'.inode
  ninodes : s'.ninodes = s.ninodes
  others : ∀ q, q ≠ p → s'.proc q = s.proc q
  cwd : (s'.proc p).cwd = (s.proc p).cwd

theorem closeAll_yields (fds : List (Fin nofile)) (hs : CacheOk s []) (hfiles : FileOk s []) :
    Yields (NoType safe)
      (fun s' => Closing s p s' ∧
        ∀ fd, fd ∈ fds ∨ (s.proc p).ofile fd = none → (s'.proc p).ofile fd = none)
      (closeAll p fds s) := by
  induction fds generalizing s with
  | nil => exact .ok ⟨⟨hs, hfiles, .refl, rfl, fun _ _ => rfl, rfl⟩, by simp⟩
  | cons fd fds ih =>
    rw [closeAll]
    cases hfd : (s.proc p).ofile fd with
    | none =>
      refine (ih hs hfiles).post ?_
      rintro s' ⟨hclosing, hcleared⟩
      refine ⟨hclosing, fun k hk => hcleared k ?_⟩
      rcases hk with hk | hk
      · rcases List.mem_cons.1 hk with rfl | hk
        · exact .inr hfd
        · exact .inl hk
      · exact .inr hk
    | some f =>
      have hfiles1 : FileOk (s.setOfile p fd none) [f] := hfiles.setOfile p fd none fun g => by
        rw [hfd, List.count_cons]
        simp
      dsimp only
      rw [fileclose_setOfile]
      refine (fileclose_yields (hs.setOfile p fd none) hfiles1).bind fun s1 hc => ?_
      refine (ih hc.cache hc.files).post ?_
      rintro s' ⟨hclosing, hcleared⟩
      refine ⟨⟨hclosing.cache, hclosing.files, hc.freed.trans hclosing.freed,
        hclosing.ninodes.trans hc.ninodes, fun q hq => ?_, ?_⟩, fun k hk => hcleared k ?_⟩
      · rw [hclosing.others q hq, hc.proc]
        exact update_of_ne hq _ _
      · rw [hclosing.cwd, hc.proc, setOfile_cwd]
      · by_cases hkfd : k = fd
        · right
          simp [hc.proc, setOfile, setProc, hkfd]
        · rcases hk with hk | hk
          · exact .inl ((List.mem_cons.1 hk).resolve_left hkfd)
          · right
            simpa [hc.proc, setOfile, setProc, hkfd] using hk

theorem exit_yields (hs : CacheOk s []) (hfiles : FileOk s []) (hidle : Idle s)
    (hp : (s.proc p).cwd = some cwd) :
    Yields (NoType safe) (Outcome s True removable) (s.exit p cwd) := by
  rw [exit]
  refine (closeAll_yields (List.finRange nofile) hs hfiles).bind ?_
  rintro s1 ⟨hc, hcleared⟩
  have hs1 : CacheOk s1 ((none : Option ℕ).toList ++ []) := hc.cache
  have hs2 : CacheOk (s1.setCwd p none) [cwd] :=
    CacheOk.setCwd (c := some cwd) hs1 (by rw [hc.cwd, hp]) (by simp)
  rw [iput_setCwd]
  refine .ok ⟨iput_cache hs2, (hc.files.setCwd p none).congr (by simp) (by simp), ?_, ?_,
    fun _ => ⟨_, .same, hc.freed.trans (iput_freed hs2)⟩, fun q c hq => .inl ⟨q, ?_⟩⟩
  · intro q hq fd
    simp only [iput_proc, setCwd_cwd, setCwd_ofile] at hq ⊢
    by_cases hqp : q = p
    · exact hqp ▸ hcleared fd (.inl (List.mem_finRange fd))
    · rw [if_neg hqp] at hq
      rw [hc.others q hqp] at hq ⊢
      exact hidle q hq fd
  · rw [iput_ninodes]
    exact hc.ninodes
  · simp only [iput_proc, setCwd_cwd] at hq
    split_ifs at hq with hqp
    rwa [hc.others q hqp] at hq

/-! ## `fork` -/

/-- The state while `fork` fills the descriptors of the child `np`. -/
structure Duping (s : DirFs) (np : Fin nproc) (s' : DirFs) : Prop where
  cache : CacheOk s' []
  files : FileOk s' []
  inode : s'.inode = s.inode
  ninodes : s'.ninodes = s.ninodes
  others : ∀ q, q ≠ np → s'.proc q = s.proc q
  cwd : (s'.proc np).cwd = (s.proc np).cwd

theorem dupAll_yields {np : Fin nproc} (fds : List (Fin nofile)) (hnodup : fds.Nodup)
    (hs : CacheOk s []) (hfiles : FileOk s []) (hnew : ∀ fd ∈ fds, (s.proc np).ofile fd = none) :
    Yields (NoType safe) (Duping s np) (dupAll p np fds s) := by
  induction fds generalizing s with
  | nil => exact .ok ⟨hs, hfiles, rfl, rfl, fun _ _ => rfl, rfl⟩
  | cons fd fds ih =>
    obtain ⟨hnot, hnodup⟩ := List.nodup_cons.1 hnodup
    rw [dupAll]
    cases hfd : (s.proc p).ofile fd with
    | none => exact ih hnodup hs hfiles fun k hk => hnew k (List.mem_cons_of_mem fd hk)
    | some f =>
      dsimp only
      rw [filedup]
      by_cases href : (s.file f).ref < 1
      · rw [if_pos href]
        exact .error (fun hne => by cases hne)
      · rw [if_neg href]
        have hs1 : CacheOk (s.setFile f { s.file f with ref := (s.file f).ref + 1 }) [] :=
          hs.setFile fun i => and_congr_left' ⟨fun _ => by omega, fun h => by dsimp only; omega⟩
        have hfiles1 : FileOk (s.setFile f { s.file f with ref := (s.file f).ref + 1 }) [f] := by
          have hf := hfiles.ref f
          refine hfiles.setFile (fun g hg => List.count_cons_of_ne (Ne.symm hg)) ?_ fun hzero => ?_
          · rw [List.count_cons_self]
            dsimp only
            omega
          · dsimp only at hzero
            omega
        have hfiles2 : FileOk ((s.setFile f { s.file f with ref := (s.file f).ref + 1 }).setOfile
            np fd (some f)) [] := hfiles1.setOfile np fd (some f) fun g => by
          have hnone := hnew fd List.mem_cons_self
          rw [show ((s.setFile f _).proc np).ofile fd = none from hnone, List.count_cons]
          simp
        refine (ih hnodup (hs1.setOfile np fd (some f)) hfiles2 fun k hk => ?_).post fun s' hd => ?_
        · have hkfd : k ≠ fd := fun hkfd => hnot (hkfd ▸ hk)
          have hk' := hnew k (List.mem_cons_of_mem fd hk)
          simpa [setOfile, setProc, setFile, hkfd] using hk'
        · refine ⟨hd.cache, hd.files, hd.inode, hd.ninodes, fun q hq => ?_, ?_⟩
          · rw [hd.others q hq]
            exact update_of_ne hq _ _
          · rw [hd.cwd, setOfile_cwd]
            rfl

theorem fork_yields {np : Fin nproc} (hs : CacheOk s []) (hfiles : FileOk s [])
    (hidle : Idle s) (hp : (s.proc p).cwd = some cwd) (hnp : (s.proc np).cwd = none) :
    Yields (NoType safe) (Outcome s True removable) (s.fork p np cwd) := by
  rw [fork]
  refine (dupAll_yields (List.finRange nofile) (List.nodup_finRange nofile) hs hfiles
    fun fd _ => hidle np hnp fd).bind ?_
  intro s1 hd
  have hne : p ≠ np := fun heq => by simp [heq ▸ hp] at hnp
  have hp1 : (s1.proc p).cwd = some cwd := by rw [hd.others p hne, hp]
  have hown := owned_of_cwd hp1
  have hs2 := idup_cache hd.cache (hd.cache.ref_pos_of_owned hown)
  have hs3 : CacheOk ((s1.idup cwd).setCwd np (some cwd)) [] :=
    CacheOk.setCwd (c := none) hs2 (hd.cwd.trans hnp)
      fun i hi => Option.some.inj hi ▸ (hd.cache cwd).owned_alloc hown
  refine .ok ⟨hs3, ?_, ?_, hd.ninodes, fun _ => ⟨_, .same, ?_⟩, fun q c hq => .inl ?_⟩
  · exact FileOk.setCwd (s := s1.idup cwd) (hd.files.congr rfl rfl) np (some cwd)
  · intro q hq
    simp only [setCwd_cwd, setCwd_ofile] at hq ⊢
    split_ifs at hq with hqp
    have hproc : (s1.idup cwd).proc q = s.proc q := hd.others q hqp
    rw [hproc] at hq ⊢
    exact hidle q hq
  · show Freed s.inode s1.inode
    rw [hd.inode]
    exact .refl
  · simp only [setCwd_cwd] at hq
    split at hq
    · cases hq
      exact ⟨p, hp⟩
    · next hqp => exact ⟨q, by rwa [show (s1.idup cwd).proc q = s.proc q from hd.others q hqp] at hq⟩

end DirFs

end Xv6
