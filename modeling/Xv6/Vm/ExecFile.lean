import Mathlib.Data.List.GetD
import Xv6.Vm.ExecAtomic
import Xv6.Vm.Load

set_option autoImplicit false

/-! # Which calls of `exec` load a file safely

The loop over the program headers checks that `memsz` is not below `filesz` and that the end of the
segment, computed in 32 bits, is below `KERNBASE`. It does not check that the segment begins at a
page boundary, nor that it begins below its end: `vaddr + memsz` may wrap round. Nor does `allocuvm`
look at what `mappages` returns, so that without memory for a page table a page of any file may be
missing when `loaduvm`, `clearpteu` or `copyout` looks for it. `CallOk` says of one call what has to
hold at each of these three places if `exec` comes to it, and `exec_file` that the call returns if
and only if this holds. -/

namespace Xv6

open Stoppable

/-! ## The condition -/

namespace Exec

/-- The pushes of the arguments, from `sp` down, and of the vector that points at them: each comes
    only upon pages with an entry, if those before it could be made. -/
def ArgsOk (pgdir : Pgdir) : List (List Byte) → ℕ → Word → Prop
  | [], argc, sp => pgdir.Copies (sp - .ofNat 32 ((3 + argc + 1) * 4)) ((3 + argc + 1) * 4)
  | arg :: argv, argc, sp =>
    let sp := (sp - .ofNat 32 (arg.length + 1)) &&& ~~~3
    argc < maxArg → pgdir.Copies sp (arg.length + 1) ∧
      (pgdir.Copied sp (arg.length + 1) → ArgsOk pgdir argv (argc + 1) sp)

/-- The stack over an image of `sz` bytes: if there is memory for it, there is an entry for the page
    below it, which the user then may not use, and the arguments can be pushed. -/
def StackOk (argv : List (List Byte)) (sz : ℕ) (pgdir : Pgdir) (m : Kmem) : Prop :=
  ∀ sz' pgdir' m', pgdir.allocuvm (pages sz * pgsize) (pages sz * pgsize + 2 * pgsize) m =
      .ok (sz', pgdir', m') → sz' ≠ 0 →
    ∃ q, pgdir'.walk (sz' / pgsize - 2) = some q ∧
      ArgsOk (pgdir'.setPte (sz' / pgsize - 2) { q with user := false }) argv 0 (.ofNat 32 sz')

/-- The headers of a file, `n` of them from `off` on, over an image of `sz` bytes: each segment that
    `exec` comes to is one that `loaduvm` takes, and the stack is in order if it comes to that. -/
def SegmentsOk (f : Content) (argv : List (List Byte)) : ℕ → Word → ℕ → Pgdir → Kmem → Prop
  | 0, _, sz, pgdir, m => StackOk argv sz pgdir m
  | n + 1, off, sz, pgdir, m =>
    let (r, bytes) := f.readi off (.ofNat 32 Proghdr.sizeof)
    let ph := Proghdr.ofBytes bytes
    r = Proghdr.sizeof →
      if ph.type ≠ Proghdr.load then SegmentsOk f argv n (off + .ofNat 32 Proghdr.sizeof) sz pgdir m
      else ¬ph.memsz < ph.filesz → ∀ sz' pgdir' m',
        pgdir.allocuvm sz (ph.vaddr + ph.memsz).toNat m = .ok (sz', pgdir', m') → sz' ≠ 0 →
          pgdir'.Loads f ph.vaddr ph.off ph.filesz.toNat ∧
            ∀ m'', pgdir'.loaduvm ph.vaddr (.file f) ph.off ph.filesz.toNat m' = .ok (true, m'') →
              SegmentsOk f argv n (off + .ofNat 32 Proghdr.sizeof) sz' pgdir' m''

end Exec

/-- The ELF header of a file. -/
def Content.elfhdr (f : Content) : Elfhdr := Elfhdr.ofBytes (f.bytes.take Elfhdr.sizeof)

/-- A call of `exec` on the file, with the attributes of its inode: the process may not execute the
    file, or the file has no ELF header, or there is no memory for a page directory, or what the
    headers say is in order. -/
def CallOk (f : Content) (argv : List (List Byte)) (ip : ExecAttr) (s : ExecState) : Prop :=
  Exec.permitted s.proc ip = true → Elfhdr.sizeof ≤ f.bytes.length →
    f.elfhdr.magic = Elfhdr.elfMagic → ∀ pgdir m, Pgdir.setupkvm s.kmem = (some pgdir, m) →
      Exec.SegmentsOk f argv f.elfhdr.phnum.toNat f.elfhdr.phoff 0 pgdir m

namespace Exec

variable {f : Content} {argv : List (List Byte)} {m : Kmem} {pgdir : Pgdir}

/-! ## The parts of the call -/

theorem loadSegments_yields (n : ℕ) (off : Word) {sz : ℕ} (hs : m.Safe)
    (h : pgdir.Space (pages sz) m) :
    Yields (fun _ => ¬SegmentsOk f argv n off sz pgdir m)
      (fun x => x.2.2.Safe ∧ x.2.1.Freeable ∧
        (x.1 = none → SegmentsOk f argv n off sz pgdir m) ∧
        ∀ sz', x.1 = some sz' → x.2.1.Space (pages sz') x.2.2 ∧
          (SegmentsOk f argv n off sz pgdir m ↔ StackOk argv sz' x.2.1 x.2.2))
      (loadSegments (.file f) n off sz pgdir m) := by
  induction n generalizing off sz pgdir m with
  | zero =>
    refine .ok ⟨hs, h.freeable, by simp, ?_⟩
    rintro _ ⟨⟩
    exact ⟨h, Iff.rfl⟩
  | succ n ih =>
    rw [loadSegments, SegmentsOk]
    rcases hres : f.readi off (.ofNat 32 Proghdr.sizeof) with ⟨r, bytes⟩
    simp only [Source.readi, hres]
    generalize Proghdr.ofBytes bytes = ph
    by_cases hr : r = Proghdr.sizeof
    swap
    · rw [if_pos hr]
      exact (yields_pure _).2 ⟨hs, h.freeable, fun _ hres => absurd hres hr, by rintro _ ⟨⟩⟩
    rw [if_neg (not_not.2 hr)]
    simp only [hr, forall_const]
    by_cases htype : ph.type = Proghdr.load
    swap
    · simp only [ne_eq, htype, not_false_eq_true, if_true]
      exact ih _ hs h
    simp only [ne_eq, htype, not_true_eq_false, if_false]
    split_ifs with hsizes
    · exact (yields_pure _).2 ⟨hs, h.freeable, fun _ hle => absurd hsizes hle, by rintro _ ⟨⟩⟩
    obtain ⟨⟨sz', pgdir', m'⟩, halloc, hsafe, hfree, hspace⟩ :=
      (Pgdir.allocuvm_yields (ph.vaddr + ph.memsz).toNat hs h).returns
    simp only [forall_ok_iff halloc, hsizes, not_false_eq_true, forall_const]
    refine Yields.bind_eq halloc ?_
    dsimp only at hsafe hfree hspace ⊢
    split_ifs with hzero
    · exact (yields_pure _).2 ⟨hsafe, hfree, fun _ hne => absurd hzero hne, by rintro _ ⟨⟩⟩
    simp only [hzero, not_false_eq_true, forall_const]
    have hspace' := hspace hzero
    cases hload : pgdir'.loaduvm ph.vaddr (.file f) ph.off ph.filesz.toNat m' with
    | error e =>
      exact .error fun hok => (Pgdir.loaduvm_yields hsafe hspace' ph.filesz.isLt).2 e hload hok.1
    | ok x =>
      obtain ⟨hloads, hsafe', hmapped⟩ :=
        (Pgdir.loaduvm_yields hsafe hspace' ph.filesz.isLt).1 x hload
      obtain ⟨ok, m''⟩ := x
      refine Yields.bind_eq rfl ?_
      cases ok with
      | false => exact (yields_pure _).2 ⟨hsafe', hfree, fun _ => ⟨hloads, by simp⟩, by rintro _ ⟨⟩⟩
      | true =>
        simp only [hloads, true_and, Except.ok.injEq, Prod.mk.injEq, forall_eq', if_true]
        exact ih _ hsafe' (hspace'.mono (Nat.le_refl _) hspace'.le (hmapped ▸ List.Subset.refl _))

theorem safe_of_mem (hs : m.Safe) (mem : ℕ → ℕ → Byte) : Kmem.Safe { m with mem := mem } :=
  ⟨hs.mapped, hs.below⟩

/-- The argument vector is as long as `exec` computes. -/
theorem length_ustack (fake : List Word) (ptrs : List Word) (hfake : fake.length = 3) :
    ((fake ++ ptrs ++ [0]).flatMap Word.bytes).length = (3 + ptrs.length + 1) * 4 := by
  have hbytes : ∀ l : List Word, (l.flatMap Word.bytes).length = l.length * 4 := by
    intro l
    induction l with
    | nil => rfl
    | cons w l ih =>
      rw [List.flatMap_cons, List.length_append, ih, List.length_cons]
      simp only [Word.bytes, List.length_cons, List.length_nil]
      omega
  rw [hbytes, List.length_append, List.length_append, hfake]
  rfl

theorem copyout_yields {n : ℕ} {m0 : Kmem} (h : pgdir.Space n m0) (va : Word) {buf : List Byte}
    (hbuf : buf ≠ []) (hs : m.Safe) :
    Yields (fun _ => ¬pgdir.Copies va buf.length)
      (fun x => x.2.Safe ∧ pgdir.Copies va buf.length ∧ (x.1 = true ↔ pgdir.Copied va buf.length))
      (pgdir.copyout va buf m) := by
  refine (Pgdir.copyLoop_yields h _ va buf (Nat.le_refl _) fun hnil => absurd hnil hbuf).post ?_
  rintro ⟨ok, _⟩ ⟨hcopies, hcopied, mem, rfl⟩
  exact ⟨safe_of_mem hs mem, hcopies, hcopied⟩

theorem pushArgs_yields {n : ℕ} {m0 : Kmem} (h : pgdir.Space n m0) (argv : List (List Byte))
    (sp : Word) (ptrs : List Word) (hs : m.Safe) :
    Yields (fun _ => ¬ArgsOk pgdir argv ptrs.length sp)
      (fun x => x.2.Safe ∧ (x.1 = none → ArgsOk pgdir argv ptrs.length sp) ∧
        ∀ sp' ptrs', x.1 = some (sp', ptrs') →
          (ArgsOk pgdir argv ptrs.length sp ↔ ArgsOk pgdir [] ptrs'.length sp'))
      (pushArgs pgdir argv ptrs.length sp ptrs m) := by
  induction argv generalizing sp ptrs m with
  | nil =>
    refine .ok ⟨hs, by simp, ?_⟩
    rintro _ _ ⟨⟩
    exact Iff.rfl
  | cons arg argv ih =>
    rw [pushArgs, ArgsOk]
    split_ifs with hmax
    · exact (yields_pure _).2 ⟨hs, fun _ hlt => absurd hlt (Nat.not_lt.2 hmax), by simp⟩
    simp only [Nat.lt_of_not_le hmax, forall_const]
    generalize hsp : (sp - .ofNat 32 (arg.length + 1)) &&& ~~~3 = sp'
    have hne : arg ++ [0] ≠ [] := by simp
    have hcopy := copyout_yields h sp' hne hs
    rw [List.length_append, List.length_singleton] at hcopy
    cases hres : pgdir.copyout sp' (arg ++ [0]) m with
    | error e => exact .error fun hok => hcopy.2 e hres hok.1
    | ok x =>
      obtain ⟨hsafe, hcopies, hcopied⟩ := hcopy.1 x hres
      obtain ⟨ok, m'⟩ := x
      refine Yields.bind_eq rfl ?_
      simp only [hcopies, true_and, ← hcopied]
      cases ok with
      | false => exact (yields_pure _).2 ⟨hsafe, by simp, by simp⟩
      | true =>
        have hlen : ptrs.length + 1 = (ptrs ++ [sp']).length := by simp
        simp only [forall_const, if_true, hlen]
        exact ih sp' (ptrs ++ [sp']) hsafe

theorem userStack_yields (sz : ℕ) (argv : List (List Byte)) (hs : m.Safe)
    (h : pgdir.Space (pages sz) m) :
    Yields (fun _ => ¬StackOk argv sz pgdir m)
      (fun x => StackOk argv sz pgdir m ∧ x.2.2.Safe ∧ x.2.1.Freeable)
      (userStack pgdir sz argv m) := by
  have hround : pages (pages sz * pgsize) = pages sz := by
    simp only [pages, pgsize]
    omega
  rw [← hround] at h
  obtain ⟨⟨sz', pgdir', m'⟩, halloc, hsafe, hfree, hspace⟩ :=
    (Pgdir.allocuvm_yields (pages sz * pgsize + 2 * pgsize) hs h).returns
  dsimp only at hsafe hfree hspace
  rw [userStack, StackOk]
  simp only [forall_ok_iff halloc]
  refine Yields.bind_eq halloc ?_
  dsimp only
  split_ifs with hzero
  · exact (yields_pure _).2 ⟨fun hne => absurd hzero hne, hsafe, hfree⟩
  simp only [ne_eq, hzero, not_false_eq_true, forall_const]
  have hspace' := hspace hzero
  have hguard : sz' / pgsize - 2 < kernPage := by
    have hle := hspace'.le
    simp only [pages, pgsize, kernPage] at hle ⊢
    omega
  refine Yields.bind ((Pgdir.clearpteu_yields hspace' hguard).mono
    (fun _ hnone => by simp [hnone]) fun _ hd => hd) ?_
  rintro stack ⟨q, hq, rfl, hstack⟩
  simp only [hq, Option.some.injEq, exists_eq_left']
  refine Yields.bind ((pushArgs_yields hstack argv (.ofNat 32 sz') [] hsafe).mono
    (fun _ he => he) fun _ hx => hx) ?_
  rintro ⟨pushed, m1⟩ ⟨hsafe1, hnone, hsome⟩
  dsimp only at hsafe1 hnone hsome ⊢
  rcases pushed with _ | ⟨sp, ptrs⟩
  · exact (yields_pure _).2 ⟨hnone rfl, hsafe1, hstack.freeable⟩
  · rw [show (0 : ℕ) = ([] : List Word).length from rfl, hsome sp ptrs rfl, ArgsOk]
    have hlen := length_ustack
      [0xffffffff, .ofNat 32 ptrs.length, sp - .ofNat 32 ((ptrs.length + 1) * 4)] ptrs rfl
    have hcopy := copyout_yields hstack (sp - .ofNat 32 ((3 + ptrs.length + 1) * 4))
      (List.ne_nil_of_length_pos (by rw [hlen]; omega)) hsafe1
    rw [hlen] at hcopy
    refine hcopy.bind ?_
    rintro ⟨ok, m2⟩ ⟨hsafe2, hcopies, -⟩
    exact (yields_pure _).2 ⟨hcopies, hsafe2, hstack.freeable⟩

theorem bad_yields (pgdir : Option Pgdir) (ip : Bool) (s : ExecState) {P : VmStop → Prop}
    (hs : m.Safe) (hfree : ∀ p, pgdir = some p → p.Freeable) (hip : ip = true → Held s) :
    Yields P (fun x => x.2.kmem.Safe) (bad pgdir ip { s with kmem := m }) := by
  have hnew : Yields (fun _ => False) (fun m => m.Safe) (freeNew pgdir m) := by
    cases pgdir with
    | none => exact .ok hs
    | some p =>
      refine (Pgdir.freevm_yields (hfree p rfl)).post ?_
      rintro _ ⟨freed, rfl⟩
      exact ⟨hs.mapped, hs.below⟩
  unfold bad
  refine hnew.bind_total fun m hm => ?_
  cases ip with
  | false => exact (yields_pure _).2 hm
  | true =>
    have hheld : Held { s with kmem := m } := hip rfl
    refine (hheld.iunlockput _).bind ?_
    rintro _ rfl
    exact (yields_pure _).2 hm

theorem start_yields (path : List Byte) (elf : Elfhdr) (sz : ℕ) {s : ExecState} (held : Held s)
    (hold : s.proc.pgdir.Freeable) (hs : m.Safe) (h : pgdir.Space (pages sz) m) :
    Yields (fun _ => ¬StackOk argv sz pgdir m) (fun x => StackOk argv sz pgdir m ∧ x.2.kmem.Safe)
      (start path argv elf pgdir sz { s with kmem := m }) := by
  have hm : Held { s with kmem := m } := held
  unfold start
  refine (hm.iunlockput _).bind ?_
  rintro _ rfl
  dsimp only
  refine (userStack_yields sz argv hs h).bind ?_
  rintro ⟨stacked, pgdir', m'⟩ ⟨hok, hsafe, hfree⟩
  simp only [hok, true_and]
  match stacked with
  | none =>
    refine bad_yields (some pgdir') false _ hsafe ?_ (by simp)
    rintro _ ⟨⟩
    exact hfree
  | some (sz', sp) =>
    refine (Pgdir.freevm_yields hold).bind_total ?_
    rintro m ⟨freed, rfl⟩
    exact (yields_pure _).2 ⟨hsafe.mapped, hsafe.below⟩

theorem kernelTables_safe (n : ℕ) (hs : m.Safe) : (Pgdir.kernelTables n m).2.Safe := by
  induction n generalizing m with
  | zero => exact hs
  | succ n ih =>
    rw [Pgdir.kernelTables]
    by_cases havail : m.avail .table m.calls = true
    · simp only [Kmem.kalloc, havail, if_true]
      exact ih ⟨hs.mapped, hs.below⟩
    · simp only [Kmem.kalloc, havail]
      exact ⟨hs.mapped, hs.below⟩

/-- `setupkvm` gives the kernel's directory or nothing. -/
theorem setupkvm_cases (hs : m.Safe) :
    ∃ made m', Pgdir.setupkvm m = (made, m') ∧ m'.Safe ∧ ∀ p, made = some p → p = Pgdir.kernel := by
  unfold Pgdir.setupkvm
  by_cases havail : m.avail .dir m.calls = true
  · have htables := kernelTables_safe 64 (m := { m with calls := m.calls + 1 }) ⟨hs.mapped,
      hs.below⟩
    simp only [Kmem.kalloc, havail, if_true]
    rcases hres : Pgdir.kernelTables 64 { m with calls := m.calls + 1 } with ⟨_ | _, m'⟩
    all_goals
      rw [hres] at htables
      exact ⟨_, _, rfl, htables, by simp⟩
  · simp only [Kmem.kalloc, havail]
    exact ⟨_, _, rfl, ⟨hs.mapped, hs.below⟩, by simp⟩

theorem build_yields (path : List Byte) (elf : Elfhdr) {s : ExecState} (held : Held s)
    (hold : s.proc.pgdir.Freeable) (hs : s.kmem.Safe) :
    let Ok := ∀ pgdir m, Pgdir.setupkvm s.kmem = (some pgdir, m) →
      SegmentsOk f argv elf.phnum.toNat elf.phoff 0 pgdir m
    Yields (fun _ => ¬Ok) (fun x => Ok ∧ x.2.kmem.Safe) (build path argv elf (.file f) s) := by
  obtain ⟨made, m, hkvm, hsafe, hkernel⟩ := setupkvm_cases hs
  unfold build
  rw [hkvm]
  cases made with
  | none =>
    simp only [Prod.mk.injEq, reduceCtorEq, false_and, false_imp_iff, implies_true, true_and]
    exact bad_yields none true s hsafe (by simp) fun _ => held
  | some pgdir =>
    obtain rfl := hkernel pgdir rfl
    have hok : (∀ pgdir m', (some Pgdir.kernel, m) = (some pgdir, m') →
        SegmentsOk f argv elf.phnum.toNat elf.phoff 0 pgdir m') ↔
        SegmentsOk f argv elf.phnum.toNat elf.phoff 0 .kernel m := by
      refine ⟨fun h => h _ _ rfl, ?_⟩
      rintro h _ _ ⟨⟩
      exact h
    have hspace : Pgdir.kernel.Space (pages 0) m := Pgdir.space_kernel m
    simp only [hok]
    refine (loadSegments_yields elf.phnum.toNat elf.phoff hsafe hspace).bind ?_
    rintro ⟨image, pgdir', m'⟩ ⟨hsafe', hfree, hnone, hsome⟩
    cases image with
    | none =>
      simp only [hnone rfl, true_and]
      refine bad_yields (some pgdir') true s hsafe' ?_ fun _ => held
      rintro _ ⟨⟩
      exact hfree
    | some sz =>
      obtain ⟨hspace, hiff⟩ := hsome sz rfl
      simp only [hiff]
      exact start_yields path elf sz held hold hsafe' hspace

/-! ## The ELF header -/

theorem leWord_append {l : List Byte} {o : ℕ} (h : o + 3 < l.length) (l' : List Byte) :
    leWord (l ++ l') o = leWord l o := by
  simp only [leWord]
  rw [List.getD_append _ _ _ _ h, List.getD_append _ _ _ (o + 2) (by omega),
    List.getD_append _ _ _ (o + 1) (by omega), List.getD_append _ _ _ o (by omega)]

theorem elfhdr_append (h : Elfhdr.sizeof ≤ f.bytes.length) (l : List Byte) :
    Elfhdr.ofBytes (f.bytes.take Elfhdr.sizeof ++ l) = f.elfhdr := by
  have hlen : (f.bytes.take Elfhdr.sizeof).length = 52 := by
    rw [List.length_take]
    exact Nat.min_eq_left h
  simp only [Content.elfhdr, Elfhdr.ofBytes, leShort]
  rw [leWord_append (by omega), leWord_append (by omega), leWord_append (by omega),
    List.getD_append _ _ _ _ (by omega), List.getD_append _ _ _ _ (by omega)]

/-- Without a whole ELF header, `exec` goes to `bad`. -/
theorem load_short (path : List Byte) (argv : List (List Byte)) (stack : List Byte) (s : ExecState)
    (h : f.bytes.length < Elfhdr.sizeof) :
    load path argv stack (.file f) s = bad none true s := by
  have hread := Content.readi_within (f := f) 0 (.ofNat 32 Elfhdr.sizeof)
    (Nat.zero_le _) (by decide)
  have hmin : min (BitVec.ofNat 32 Elfhdr.sizeof).toNat (f.bytes.length - (0 : Word).toNat) =
      f.bytes.length := Nat.min_eq_right (Nat.le_of_lt h)
  have hcmp : (BitVec.ofInt 32 (f.bytes.length : Int)).toNat < Elfhdr.sizeof := by
    rw [BitVec.ofInt_natCast, BitVec.toNat_ofNat]
    exact Nat.lt_of_le_of_lt (Nat.mod_le _ _) h
  rw [hmin] at hread
  simp only [load, Source.readi, hread, if_pos hcmp]

theorem load_file (path : List Byte) (argv : List (List Byte)) (stack : List Byte) (s : ExecState)
    (h : Elfhdr.sizeof ≤ f.bytes.length) :
    load path argv stack (.file f) s =
      if f.elfhdr.magic ≠ Elfhdr.elfMagic then bad none true s
      else build path argv f.elfhdr (.file f) s := by
  have hread := Content.readi_within (f := f) 0 (.ofNat 32 Elfhdr.sizeof)
    (Nat.zero_le _) (by decide)
  have hmin : min (BitVec.ofNat 32 Elfhdr.sizeof).toNat (f.bytes.length - (0 : Word).toNat) =
      Elfhdr.sizeof := Nat.min_eq_left h
  have hcmp : ¬(BitVec.ofInt 32 ((Elfhdr.sizeof : ℕ) : Int)).toNat < Elfhdr.sizeof := by decide
  rw [hmin] at hread
  simp only [load, Source.readi, hread, if_neg hcmp]
  rw [show (f.bytes.drop (0 : Word).toNat) = f.bytes from rfl, elfhdr_append h]

end Exec

theorem safe_before (avail : Purpose → ℕ → Bool) (mem : ℕ → ℕ → Byte) :
    (Kmem.before avail mem).Safe := ⟨List.Subset.refl _, by simp [Kmem.before]⟩

/-- What a call on a file requires, and what it leaves. -/
theorem exec_yields (f : Content) (path : List Byte) (argv : List (List Byte)) (stack : List Byte)
    (ip : ExecAttr) {s : ExecState} (hs : s.kmem.Safe) (hold : s.proc.pgdir.Freeable) :
    Yields (fun _ => ¬CallOk f argv ip s) (fun x => CallOk f argv ip s ∧ x.2.kmem.Safe)
      (exec path argv stack (some ⟨ip, .file f⟩) s) := by
  have held := (held_entered s).becomeOwner ip
  have hkmem : (Exec.becomeOwner ip (entered s)).kmem = s.kmem ∧
      (Exec.becomeOwner ip (entered s)).proc.pgdir = s.proc.pgdir := by
    unfold Exec.becomeOwner
    split <;> exact ⟨rfl, rfl⟩
  rw [exec_some]
  generalize Exec.becomeOwner ip (entered s) = t at held hkmem
  rw [← hkmem.1] at hs
  rw [← hkmem.2] at hold
  have hbad (hok : CallOk f argv ip s) (t : ExecState) (ht : t.kmem.Safe) (held : Exec.Held t) :
      Yields (fun _ => ¬CallOk f argv ip s) (fun x => CallOk f argv ip s ∧ x.2.kmem.Safe)
        (Exec.bad none true t) :=
    (Exec.bad_yields none true t ht (by simp) fun _ => held).post fun _ hx => ⟨hok, hx⟩
  split_ifs with hperm
  swap
  · exact hbad (fun h => absurd h hperm) _ (hkmem.1 ▸ hs) (held_entered s)
  by_cases hlen : Elfhdr.sizeof ≤ f.bytes.length
  swap
  · rw [Exec.load_short _ _ _ _ (Nat.lt_of_not_le hlen)]
    exact hbad (fun _ h => absurd h hlen) t hs held
  rw [Exec.load_file _ _ _ _ hlen]
  split_ifs with hmagic
  · exact hbad (fun _ _ h => absurd h hmagic) t hs held
  · have hok : CallOk f argv ip s ↔ ∀ pgdir m, Pgdir.setupkvm t.kmem = (some pgdir, m) →
        Exec.SegmentsOk f argv f.elfhdr.phnum.toNat f.elfhdr.phoff 0 pgdir m := by
      rw [hkmem.1]
      exact ⟨fun h => h hperm hlen (not_not.1 hmagic), fun h _ _ _ => h⟩
    simp only [hok]
    exact Exec.build_yields path f.elfhdr held hold hs

/-- An inode that everyone may execute. -/
def executable : ExecAttr := { uid := 0, gid := 0, mode := 0b1001001 }

/-- A segment that does not begin at a page boundary. -/
def unalignedFile : Content := { bytes := oneSegment 1 1 1, size_le := by decide }

/-- A segment in the kernel's part, whose end wraps round to address 1. -/
def wrappingFile : Content := { bytes := oneSegment 0x80100000 1 0x7ff00001, size_le := by decide }

-- The segment's one byte goes to a page of the kernel.
example : exec [0x66] [] [] (some ⟨executable, .file wrappingFile⟩) user100 = .error .wild := rfl

end Xv6
