import Xv6.Lib.Stoppable
import Xv6.Vm.Exec

set_option autoImplicit false

/-! # When a failed `exec` changes nothing

The label `bad` gives back what the call holds at that point: the page directory, the inode and its
reference, and the place in the log. It does not give back the user id: `exec` takes the owner of a
setuid file for its own before it has read the file. So a call that passes the tests of the mode and
fails later leaves the process with the id of another user; the calls that do so are those on a
setuid file of another user that the process may execute (`exec_atomic`). -/

namespace Xv6

open Stoppable

namespace Exec

/-- From `s`, where the call holds the inode, to `s'`, where it has given back the inode and left
    its transaction. -/
structure Released (s s' : ExecState) : Prop where
  proc : s'.proc = s.proc
  ref : s'.ref = s.ref - 1
  locked : s'.locked = false
  outstanding : s'.outstanding = s.outstanding - 1

/-- The call holds the inode. -/
def Held (s : ExecState) : Prop := s.locked = true ∧ 1 ≤ s.ref

variable {s : ExecState}

theorem Held.iunlockput_eq (h : Held s) :
    s.iunlockput = .ok { s with locked := false, ref := s.ref - 1 } := by
  have hheld : ¬(s.locked = false ∨ s.ref < 1) := by
    have := h.2
    simp only [h.1, Bool.true_eq_false, false_or]
    omega
  rw [ExecState.iunlockput, if_neg hheld]

theorem Held.iunlockput (h : Held s) (P : VmStop → Prop) :
    Yields P (fun t => t = { s with locked := false, ref := s.ref - 1 }) s.iunlockput := by
  rw [h.iunlockput_eq]
  exact .ok rfl

/-- Before there is a page directory, nothing can stop the clean-up. -/
theorem bad_none_eq (h : Held s) :
    bad none true s = .ok (-1, { s with
      locked := false, ref := s.ref - 1, outstanding := s.outstanding - 1 }) := by
  change (do let t ← s.iunlockput; return (-1, t.endOp)) = _
  rw [h.iunlockput_eq]
  rfl

theorem bad_held (pgdir : Option Pgdir) (h : Held s) :
    Yields (fun _ => True) (fun x => x.1 = -1 ∧ Released s x.2) (bad pgdir true s) := by
  unfold bad
  refine Yields.any.bind fun m _ => ?_
  have hm : Held { s with kmem := m } := h
  rw [if_pos rfl]
  refine (hm.iunlockput _).bind ?_
  rintro _ rfl
  exact (yields_pure _).2 ⟨rfl, rfl, rfl, rfl, rfl⟩

theorem bad_released (pgdir : Option Pgdir) (s : ExecState) :
    Yields (fun _ => True) (fun x => x.1 = -1 ∧ ∃ m, x.2 = { s with kmem := m })
    (bad pgdir false s) := by
  unfold bad
  exact Yields.any.bind fun m _ => (yields_pure _).2 ⟨rfl, m, rfl⟩

/-- Once the user id is set, the call fails without a trace or succeeds with that user id. -/
def Settled (s : ExecState) (x : Int × ExecState) : Prop :=
  (x.1 = -1 ∧ Released s x.2) ∨ (x.1 = 0 ∧ x.2.proc.uid = s.proc.uid)

theorem Settled.of_kmem {m : Kmem} {x : Int × ExecState}
    (h : Settled { s with kmem := m } x) : Settled s x :=
  h.imp (fun hx => ⟨hx.1, hx.2.proc, hx.2.ref, hx.2.locked, hx.2.outstanding⟩) id

theorem bad_settled (pgdir : Option Pgdir) (m : Kmem) (h : Held s) :
    Yields (fun _ => True) (Settled s) (bad pgdir true { s with kmem := m }) :=
  (bad_held pgdir (s := { s with kmem := m }) h).post fun _ hx => .of_kmem (.inl hx)

theorem start_settled (path : List Byte) (argv : List (List Byte)) (elf : Elfhdr) (pgdir : Pgdir)
    (sz : ℕ) (m : Kmem) (h : Held s) :
    Yields (fun _ => True) (Settled s) (start path argv elf pgdir sz { s with kmem := m }) := by
  have hm : Held { s with kmem := m } := h
  unfold start
  refine (hm.iunlockput _).bind ?_
  rintro _ rfl
  dsimp only
  refine Yields.any.bind ?_
  rintro ⟨stacked, pgdir, m'⟩ -
  match stacked with
  | none =>
    dsimp only
    refine (bad_released (some pgdir) _).post ?_
    rintro ⟨r, s'⟩ ⟨hr, m'', hs'⟩
    simp only at hr hs'
    subst hr hs'
    exact .inl ⟨rfl, rfl, rfl, rfl, rfl⟩
  | some (sz, sp) =>
    dsimp only [commit]
    exact Yields.any.bind fun m _ => (yields_pure _).2 (.inr ⟨rfl, rfl⟩)

theorem build_settled (path : List Byte) (argv : List (List Byte)) (elf : Elfhdr) (ip : Source)
    (m : Kmem) (h : Held s) :
    Yields (fun _ => True) (Settled s) (build path argv elf ip { s with kmem := m }) := by
  unfold build
  dsimp only
  match Pgdir.setupkvm m with
  | (none, m) => exact bad_settled none m h
  | (some pgdir, m) =>
    refine Yields.any.bind fun ⟨image, pgdir, m⟩ _ => ?_
    match image with
    | none => exact bad_settled (some pgdir) m h
    | some sz => exact start_settled path argv elf pgdir sz m h

theorem load_settled (path : List Byte) (argv : List (List Byte)) (stack : List Byte) (ip : Source)
     (h : Held s) :
    Yields (fun _ => True) (Settled s) (load path argv stack ip s) := by
  simp only [load]
  split_ifs
  · exact bad_settled none _ h
  · exact bad_settled none _ h
  · exact build_settled path argv _ ip _ h

theorem becomeOwner_uid (ip : ExecAttr) (s : ExecState) :
    (becomeOwner ip s).proc.uid = if ip.setuid then ip.uid.setWidth 32 else s.proc.uid := by
  unfold becomeOwner
  split <;> rfl

theorem Held.becomeOwner (h : Held s) (ip : ExecAttr) :
    Held (Exec.becomeOwner ip s) := by
  unfold Exec.becomeOwner
  split <;> exact h

end Exec

/-- The process may execute the file and becomes another user by it. -/
def ChangesUser (proc : ExecProc) (ip : ExecAttr) : Prop :=
  Exec.permitted proc ip = true ∧ ip.setuid = true ∧ ip.uid.setWidth 32 ≠ proc.uid

/-- From before a call to after it: a failed call holds nothing any more, and has changed nothing of
    the process unless that has become another user; a call that succeeds has set the user id as the
    setuid bit says. -/
def Outcome (node : Option ExecInode) (s : ExecState) (r : Int) (s' : ExecState) : Prop :=
  (r = -1 ∧ s'.ref = s.ref ∧ s'.locked = false ∧ s'.outstanding = s.outstanding ∧
      (s'.proc = s.proc ↔ ∀ ip, node = some ip → ¬ChangesUser s.proc ip.toExecAttr)) ∨
    (r = 0 ∧ ∃ ip, node = some ip ∧
      s'.proc.uid = if ip.setuid then ip.uid.setWidth 32 else s.proc.uid)

/-- The state after `namei` and `ilock`. -/
def entered (s : ExecState) : ExecState :=
  { s with outstanding := s.outstanding + 1, ref := s.ref + 1, locked := true }

theorem held_entered (s : ExecState) : Exec.Held (entered s) := ⟨rfl, Nat.le_add_left 1 s.ref⟩

theorem exec_some (path : List Byte) (argv : List (List Byte)) (stack : List Byte) (ip : ExecInode)
    (s : ExecState) :
    exec path argv stack (some ip) s =
      if Exec.permitted s.proc ip.toExecAttr then
        Exec.load path argv stack ip.source (Exec.becomeOwner ip.toExecAttr (entered s))
      else Exec.bad none true (entered s) := by
  rfl

/-- Whether the process is the one that called is a question of the user id alone. -/
theorem becomeOwner_proc_eq_iff {ip : ExecAttr} {s : ExecState}
    (hperm : Exec.permitted s.proc ip = true) :
    (Exec.becomeOwner ip (entered s)).proc = s.proc ↔ ¬ChangesUser s.proc ip := by
  constructor
  · rintro heq ⟨-, hset, huid⟩
    have := congrArg ExecProc.uid heq
    rw [Exec.becomeOwner_uid, if_pos hset] at this
    exact huid this
  · intro hno
    unfold Exec.becomeOwner
    split
    · next hset =>
      have huid : ip.uid.setWidth 32 = s.proc.uid := by
        by_contra hne
        exact hno ⟨hperm, hset, hne⟩
      rw [huid]
      rfl
    · rfl

/-- Every call of `exec` that returns: it fails and gives back all that it holds, with the process
    as it was if and only if the process does not become another user by this file, or it succeeds
    and the user id is that of the file if the setuid bit is set and else as before. -/
theorem exec_atomic (path : List Byte) (argv : List (List Byte)) (stack : List Byte)
    (node : Option ExecInode) (s : ExecState) (r : Int) (s' : ExecState)
    (hlocked : s.locked = false)
    (hexec : exec path argv stack node s = .ok (r, s')) : Outcome node s r s' := by
  cases node with
  | none =>
    cases hexec
    exact .inl ⟨rfl, rfl, hlocked, rfl, by simp [ExecState.beginOp, ExecState.endOp]⟩
  | some ip =>
    have hnode : (∀ ip', some ip = some ip' → ¬ChangesUser s.proc ip'.toExecAttr) ↔
        ¬ChangesUser s.proc ip.toExecAttr := by
      simp
    rw [exec_some] at hexec
    rw [Outcome, hnode]
    split_ifs at hexec with hperm
    · have hsettled := (Exec.load_settled path argv stack ip.source
        ((held_entered s).becomeOwner ip.toExecAttr)).1 _ hexec
      have hkeep : (Exec.becomeOwner ip.toExecAttr (entered s)).ref = s.ref + 1 ∧
          (Exec.becomeOwner ip.toExecAttr (entered s)).outstanding = s.outstanding + 1 := by
        unfold Exec.becomeOwner
        split <;> exact ⟨rfl, rfl⟩
      obtain ⟨hr, hrel⟩ | ⟨hr, huid⟩ := hsettled
      · refine .inl ⟨hr, ?_, hrel.locked, ?_, ?_⟩
        · rw [hrel.ref, hkeep.1, Nat.add_sub_cancel]
        · rw [hrel.outstanding, hkeep.2, Nat.add_sub_cancel]
        · rw [hrel.proc, becomeOwner_proc_eq_iff hperm]
      · exact .inr ⟨hr, ip, rfl, huid.trans (Exec.becomeOwner_uid ip.toExecAttr (entered s))⟩
    · rw [Exec.bad_none_eq (held_entered s)] at hexec
      cases hexec
      exact .inl ⟨rfl, rfl, rfl, rfl, by simp [ChangesUser, hperm, entered]⟩

/-- User 100 calls `exec` with no other process in the file system. -/
def user100 : ExecState where
  proc := { uid := 100, gid := 100, pgdir := .kernel, sz := 0, eip := 0, esp := 0, name := [] }
  ref := 0
  locked := false
  outstanding := 0
  kmem := .before (fun _ _ => true) (fun _ _ => 0)

/-- An inode of user 0 that all may execute, setuid. -/
def setuidRoot : ExecAttr := { uid := 0, gid := 0, mode := 0b1001001001 }

/-- The empty file: no call of `exec` on it gets past the ELF header. -/
def emptyContent : Content := { bytes := [], size_le := by decide }

/-- An ELF file with one program header: a segment of `filesz` bytes at `vaddr`, from the start of
    the file. -/
def oneSegment (vaddr filesz memsz : Word) : List Byte :=
  Elfhdr.elfMagic.bytes ++ List.replicate 24 0 ++ Word.bytes 52 ++ List.replicate 12 0 ++ [1, 0] ++
    List.replicate 6 0 ++ Word.bytes 1 ++ Word.bytes 0 ++ vaddr.bytes ++ Word.bytes 0 ++
      filesz.bytes ++
    memsz.bytes ++ List.replicate 8 0

/-- A file of one segment at address 0. -/
def plainFile : Content := { bytes := oneSegment 0 84 84, size_le := by decide }

/-- User 100 becomes user 0 by a file that can be loaded. -/
theorem exec_setuidRoot_plain : ∃ s', user100.locked = false ∧ s'.proc.uid = 0 ∧
    exec [0x66] [[0x61]] [] (some ⟨setuidRoot, .file plainFile⟩) user100 = .ok (0, s') ∧
    Outcome (some ⟨setuidRoot, .file plainFile⟩) user100 0 s' := by
  obtain ⟨⟨r, s'⟩, hexec, hr, huid⟩ :=
    exists_ok (x := exec [0x66] [[0x61]] [] (some ⟨setuidRoot, .file plainFile⟩) user100)
      (fun x => x.1 = 0 ∧ x.2.proc.uid = 0) (by decide +kernel)
  cases hr
  exact ⟨s', rfl, huid, hexec, exec_atomic _ _ _ _ _ _ _ rfl hexec⟩

theorem exec_setuidRoot_empty :
    ∃ s', exec [0x66] [] [] (some ⟨setuidRoot, .file emptyContent⟩) user100 = .ok (-1, s') ∧
      user100.proc.uid = 100 ∧ s'.proc.uid = 0 :=
  ⟨_, rfl, rfl, rfl⟩

end Xv6
