import Xv6.Vm.ExecAtomic

set_option autoImplicit false

/-! # Who may execute a file (`exec.c` against `canRun` of `p5-test.c`)

`canRun` lets the first class that matches decide: the owner's bit if the users match, else the
group's bit if the groups match, else the bit for others. `exec` tests the three classes one after
the other, and its last test has no guard: it asks for `o_x` of everybody. So `exec` runs nothing
that `canRun` refuses, but it refuses some of what `canRun` lets run. -/

namespace Xv6

/-- `canRun` on what `getuid`, `getgid` and `stat` return. `TRUE` is `.ok`; with `FALSE` comes the
    text that is printed. -/
def canRun (uid gid : Word) (st : ExecAttr) : Except String Unit :=
  if uid = st.uid.setWidth 32 then
    if st.uX then .ok ()
    else .error "UID match. Execute permission for user not set.\n"
  else if gid = st.gid.setWidth 32 then
    if st.gX then .ok ()
    else .error "GID match. Execute permission for group not set.\n"
  else if st.oX then .ok ()
  else .error "Execute permission for other not set.\n"

namespace Exec

variable (proc : ExecProc)

variable (ip : ExecAttr)

/-- The process is the owner of the file. -/
def Owner : Prop := proc.uid = ip.uid.setWidth 32

/-- The process is in the group of the file. -/
def Member : Prop := proc.gid = ip.gid.setWidth 32

instance (proc : ExecProc) (ip : ExecAttr) : Decidable (Owner proc ip) :=
  inferInstanceAs (Decidable (_ = _))

instance (proc : ExecProc) (ip : ExecAttr) : Decidable (Member proc ip) :=
  inferInstanceAs (Decidable (_ = _))

/-- Each of the three tests, as the source has them. -/
theorem permitted_iff :
    permitted proc ip = true ↔
      (Owner proc ip → ip.uX = true) ∧ (Member proc ip → ip.gX = true) ∧ ip.oX = true := by
  simp [permitted, Owner, Member, and_assoc, imp_iff_not_or]

/-- The three cases of `canRun`. -/
theorem canRun_iff :
    canRun proc.uid proc.gid ip = .ok () ↔
      (Owner proc ip ∧ ip.uX = true) ∨ (¬Owner proc ip ∧ Member proc ip ∧ ip.gX = true) ∨
        (¬Owner proc ip ∧ ¬Member proc ip ∧ ip.oX = true) := by
  unfold canRun Owner Member
  split_ifs with huid hu hgid hg ho <;> simp_all

/-- `exec` refuses all that `canRun` refuses. -/
theorem canRun_of_permitted {proc : ExecProc} {ip : ExecAttr} (h : permitted proc ip = true) :
    canRun proc.uid proc.gid ip = .ok () := by
  obtain ⟨hu, hg, ho⟩ := (permitted_iff proc ip).1 h
  rw [canRun_iff]
  by_cases hown : Owner proc ip
  · exact .inl ⟨hown, hu hown⟩
  by_cases hmem : Member proc ip
  · exact .inr (.inl ⟨hown, hmem, hg hmem⟩)
  · exact .inr (.inr ⟨hown, hmem, ho⟩)

/-- The bit of the class that decides does not stand alone: an owner who may execute the file has
    `o_x` too, and `g_x` if they are in its group; and so does a member of the group who is not the
    owner have `o_x`. -/
def NotAlone : Prop :=
  (Owner proc ip → ip.uX = true → ip.oX = true ∧ (Member proc ip → ip.gX = true)) ∧
    (¬Owner proc ip → Member proc ip → ip.gX = true → ip.oX = true)

/-- For this process and this inode `exec` passes its permission checks exactly when `canRun` holds,
    if and only if the deciding bit does not stand alone. -/
theorem permitted_iff_canRun :
    (permitted proc ip = true ↔ canRun proc.uid proc.gid ip = .ok ()) ↔ NotAlone proc ip := by
  constructor
  · intro h
    refine ⟨fun hown hu => ?_, fun hown hmem hg => ?_⟩
    · have hrun := (canRun_iff proc ip).2 (.inl ⟨hown, hu⟩)
      obtain ⟨-, hg, ho⟩ := (permitted_iff proc ip).1 (h.2 hrun)
      exact ⟨ho, hg⟩
    · have hrun := (canRun_iff proc ip).2 (.inr (.inl ⟨hown, hmem, hg⟩))
      exact ((permitted_iff proc ip).1 (h.2 hrun)).2.2
  · rintro ⟨howner, hmember⟩
    refine ⟨canRun_of_permitted, fun hrun => (permitted_iff proc ip).2 ?_⟩
    rcases (canRun_iff proc ip).1 hrun with ⟨hown, hu⟩ | ⟨hown, hmem, hg⟩ | ⟨hown, hmem, ho⟩
    · obtain ⟨ho, hg⟩ := howner hown hu
      exact ⟨fun _ => hu, hg, ho⟩
    · exact ⟨fun h => absurd h hown, fun _ => hg, hmember hown hmem hg⟩
    · exact ⟨fun h => absurd h hown, fun h => absurd h hmem, ho⟩

/-- A process as `p5-test` makes it with `setuid` and `setgid`. -/
def testProc (uid gid : Word) : ExecProc :=
  { uid := uid, gid := gid, pgdir := .kernel, sz := 0, eip := 0, esp := 0, name := [] }

/-- The first row of `perms` and `testperms`, "UID match": user 212 of group 323 and their own file
    of group 434 with mode 01544. `canRun` says it runs; every call of `exec` returns -1 at the test
    of `o_x`. -/
theorem uid_match_refused :
    canRun 212 323 { uid := 212, gid := 434, mode := 0o1544 } = .ok () ∧
      permitted (testProc 212 323) { uid := 212, gid := 434, mode := 0o1544 } = false ∧
      ∃ s', exec [0x66] [] [] (some ⟨{ uid := 212, gid := 434, mode := 0o1544 }, .file emptyContent⟩)
          { user100 with proc := testProc 212 323 } = .ok (-1, s') ∧ s'.proc = testProc 212 323 :=
  ⟨by decide, by decide, _, rfl, rfl⟩

end Exec

end Xv6
