import Xv6.Vm.Paging

set_option autoImplicit false

/-! # `exec` (`exec.c`, the `CS333_P5` build)

One call of `exec` from `begin_op` to its return. What the call reads of the rest of the kernel is
an argument: the inode that `namei` finds, the memory that `kalloc` has, and what is left on the
stack in the place of the ELF header. `ref`, `locked` and `outstanding` are the inode's reference
count, whether this process holds the inode, and `log.outstanding`. -/

namespace Xv6

/-- Maximum number of arguments of `exec`. -/
abbrev maxArg : ℕ := 32

/-- The owner and the mode of an inode. -/
structure ExecAttr where
  uid : BitVec 16
  gid : BitVec 16
  mode : Word

namespace ExecAttr

def oX (ip : ExecAttr) : Bool := ip.mode.getLsbD 0

def gX (ip : ExecAttr) : Bool := ip.mode.getLsbD 3

def uX (ip : ExecAttr) : Bool := ip.mode.getLsbD 6

def setuid (ip : ExecAttr) : Bool := ip.mode.getLsbD 9

end ExecAttr

/-- An inode as `exec` reads it. -/
structure ExecInode extends ExecAttr where
  source : Source

/-- What `exec` reads or changes of the calling process. -/
structure ExecProc where
  uid : Word
  gid : Word
  pgdir : Pgdir
  sz : ℕ
  eip : Word
  esp : Word
  name : List Byte

structure ExecState where
  proc : ExecProc
  ref : ℕ
  locked : Bool
  outstanding : ℕ
  kmem : Kmem

namespace ExecState

def beginOp (s : ExecState) : ExecState := { s with outstanding := s.outstanding + 1 }

def endOp (s : ExecState) : ExecState := { s with outstanding := s.outstanding - 1 }

def ilock (s : ExecState) : Except VmStop ExecState :=
  if s.ref < 1 then .error (.panic .ilock) else .ok { s with locked := true }

def iunlockput (s : ExecState) : Except VmStop ExecState :=
  if s.locked = false ∨ s.ref < 1 then .error (.panic .iunlock)
  else .ok { s with locked := false, ref := s.ref - 1 }

end ExecState

/-! ## ELF headers -/

/-- The 32-bit number at offset `o`, in the order of the machine. -/
def leWord (bytes : List Byte) (o : ℕ) : Word :=
  bytes.getD (o + 3) 0 ++ bytes.getD (o + 2) 0 ++ bytes.getD (o + 1) 0 ++ bytes.getD o 0

/-- The 16-bit number at offset `o`. -/
def leShort (bytes : List Byte) (o : ℕ) : BitVec 16 :=
  bytes.getD (o + 1) 0 ++ bytes.getD o 0

/-- The bytes of a 32-bit number. -/
def Word.bytes (w : Word) : List Byte :=
  [w.extractLsb' 0 8, w.extractLsb' 8 8, w.extractLsb' 16 8, w.extractLsb' 24 8]

/-- The fields of `struct elfhdr` that `exec` reads. -/
structure Elfhdr where
  magic : Word
  entry : Word
  phoff : Word
  phnum : BitVec 16

namespace Elfhdr

abbrev sizeof : ℕ := 52

/-- `ELF_MAGIC`. -/
abbrev elfMagic : Word := 0x464C457F

def ofBytes (bytes : List Byte) : Elfhdr where
  magic := leWord bytes 0
  entry := leWord bytes 24
  phoff := leWord bytes 28
  phnum := leShort bytes 44

end Elfhdr

/-- The fields of `struct proghdr` that `exec` reads. -/
structure Proghdr where
  type : Word
  off : Word
  vaddr : Word
  filesz : Word
  memsz : Word

namespace Proghdr

abbrev sizeof : ℕ := 32

/-- `ELF_PROG_LOAD`. -/
abbrev load : Word := 1

def ofBytes (bytes : List Byte) : Proghdr where
  type := leWord bytes 0
  off := leWord bytes 4
  vaddr := leWord bytes 8
  filesz := leWord bytes 16
  memsz := leWord bytes 20

end Proghdr

/-! ## The parts of `exec` -/

namespace Exec

/-- The loop over the program headers, `n` of them from `off` on. Returns the size of the image, or
    `none` where the source goes to `bad`. -/
def loadSegments (ip : Source) :
    ℕ → Word → ℕ → Pgdir → Kmem → Except VmStop (Option ℕ × Pgdir × Kmem)
  | 0, _, sz, pgdir, m => .ok (some sz, pgdir, m)
  | n + 1, off, sz, pgdir, m => do
      let ((r, bytes), m) := ip.readi off (.ofNat 32 Proghdr.sizeof) m
      if r ≠ Proghdr.sizeof then return (none, pgdir, m)
      let ph := Proghdr.ofBytes bytes
      if ph.type ≠ Proghdr.load then
        loadSegments ip n (off + .ofNat 32 Proghdr.sizeof) sz pgdir m
      else
        if ph.memsz < ph.filesz then return (none, pgdir, m)
        let (sz, pgdir, m) ← pgdir.allocuvm sz (ph.vaddr + ph.memsz).toNat m
        if sz = 0 then return (none, pgdir, m)
        let (ok, m) ← pgdir.loaduvm ph.vaddr ip ph.off ph.filesz.toNat m
        if ok then loadSegments ip n (off + .ofNat 32 Proghdr.sizeof) sz pgdir m
        else return (none, pgdir, m)

/-- The loop over the arguments: `argc` of them have been pushed, at `ptrs`. -/
def pushArgs (pgdir : Pgdir) : List (List Byte) → ℕ → Word → List Word → Kmem →
    Except VmStop (Option (Word × List Word) × Kmem)
  | [], _, sp, ptrs, m => .ok (some (sp, ptrs), m)
  | arg :: argv, argc, sp, ptrs, m => do
      if maxArg ≤ argc then return (none, m)
      let sp := (sp - .ofNat 32 (arg.length + 1)) &&& ~~~3
      let (ok, m) ← pgdir.copyout sp (arg ++ [0]) m
      if ok then pushArgs pgdir argv (argc + 1) sp (ptrs ++ [sp]) m
      else return (none, m)

/-- The stack of the new image, over its first `sz` bytes: a page that the user may not use, and a
    page that holds the arguments. Returns the size and the stack pointer, or `none` for `bad`. -/
def userStack (pgdir : Pgdir) (sz : ℕ) (argv : List (List Byte)) (m : Kmem) :
    Except VmStop (Option (ℕ × Word) × Pgdir × Kmem) := do
  let sz := pages sz * pgsize
  let (sz, pgdir, m) ← pgdir.allocuvm sz (sz + 2 * pgsize) m
  if sz = 0 then return (none, pgdir, m)
  let pgdir ← pgdir.clearpteu (sz / pgsize - 2)
  let (pushed, m) ← pushArgs pgdir argv 0 (.ofNat 32 sz) [] m
  match pushed with
  | none => return (none, pgdir, m)
  | some (sp, ptrs) =>
    let argc := ptrs.length
    let ustack : List Word :=
      [0xffffffff, .ofNat 32 argc, sp - .ofNat 32 ((argc + 1) * 4)] ++ ptrs ++ [0]
    let sp := sp - .ofNat 32 ((3 + argc + 1) * 4)
    let (ok, m) ← pgdir.copyout sp (ustack.flatMap Word.bytes) m
    return (if ok then some (sz, sp) else none, pgdir, m)

variable (path : List Byte)

/-- The name of the program: what follows the last `/` of the path, as `safestrcpy` cuts it. -/
def programName : List Byte :=
  ((path.reverse.takeWhile (fun c => c ≠ 0x2f)).reverse).take 15

/-- `if(pgdir) freevm(pgdir)`. -/
def freeNew (pgdir : Option Pgdir) (m : Kmem) : Except VmStop Kmem :=
  match pgdir with
  | some pgdir => pgdir.freevm m
  | none => .ok m

/-- The label `bad`, with the new page directory and whether the inode is still held. -/
def bad (pgdir : Option Pgdir) (ip : Bool) (s : ExecState) : Except VmStop (Int × ExecState) := do
  let m ← freeNew pgdir s.kmem
  let s := { s with kmem := m }
  if ip then do
    let s ← s.iunlockput
    return (-1, s.endOp)
  else return (-1, s)

/-- Whether none of the three tests of the mode goes to `bad`. -/
def permitted (proc : ExecProc) (ip : ExecAttr) : Bool :=
  !(proc.uid == ip.uid.setWidth 32 && !ip.uX) && !(proc.gid == ip.gid.setWidth 32 && !ip.gX) && ip.oX

/-- A process that executes a setuid file becomes its owner. -/
def becomeOwner (ip : ExecAttr) (s : ExecState) : ExecState :=
  if ip.setuid then { s with proc.uid := ip.uid.setWidth 32 } else s

/-- The commit to the new image, and the end of the old one. -/
def commit (elf : Elfhdr) (pgdir : Pgdir) (sz : ℕ) (sp : Word) (s : ExecState) :
    Except VmStop (Int × ExecState) := do
  let oldpgdir := s.proc.pgdir
  let s := { s with proc := { s.proc with
    name := programName path, pgdir := pgdir, sz := sz, eip := elf.entry, esp := sp } }
  let m ← oldpgdir.freevm s.kmem
  return (0, { s with kmem := m })

variable (argv : List (List Byte))

/-- From the end of the loop over the segments on, with an image of `sz` bytes. -/
def start (elf : Elfhdr) (pgdir : Pgdir) (sz : ℕ)
    (s : ExecState) : Except VmStop (Int × ExecState) := do
  let s ← s.iunlockput
  let s := s.endOp
  let (stacked, pgdir, m) ← userStack pgdir sz argv s.kmem
  let s := { s with kmem := m }
  match stacked with
  | none => bad (some pgdir) false s
  | some (sz, sp) => commit path elf pgdir sz sp s

/-- From the call of `setupkvm` on. -/
def build (elf : Elfhdr) (ip : Source) (s : ExecState) :
    Except VmStop (Int × ExecState) :=
  match Pgdir.setupkvm s.kmem with
  | (none, m) => bad none true { s with kmem := m }
  | (some pgdir, m) => do
      let (image, pgdir, m) ← loadSegments ip elf.phnum.toNat elf.phoff 0 pgdir m
      let s := { s with kmem := m }
      match image with
      | none => bad (some pgdir) true s
      | some sz => start path argv elf pgdir sz s

/-- From the reading of the ELF header on; `stack` is what its variable holds before. -/
def load (stack : List Byte) (ip : Source)
    (s : ExecState) : Except VmStop (Int × ExecState) :=
  let ((r, bytes), m) := ip.readi 0 (.ofNat 32 Elfhdr.sizeof) s.kmem
  let s := { s with kmem := m }
  -- The comparison with `sizeof` is unsigned: a device's -1 passes it.
  if (BitVec.ofInt 32 r).toNat < Elfhdr.sizeof then bad none true s
  else
    let elf := Elfhdr.ofBytes (bytes ++ stack.drop bytes.length)
    if elf.magic ≠ Elfhdr.elfMagic then bad none true s
    else build path argv elf ip s

end Exec

/-- `exec`, where `namei` finds `node`. -/
def exec (path : List Byte) (argv : List (List Byte)) (stack : List Byte) (node : Option ExecInode)
    (s : ExecState) : Except VmStop (Int × ExecState) := do
  let s := s.beginOp
  match node with
  | none => return (-1, s.endOp)
  | some ip =>
    let s ← { s with ref := s.ref + 1 }.ilock
    if Exec.permitted s.proc ip.toExecAttr then
      Exec.load path argv stack ip.source (Exec.becomeOwner ip.toExecAttr s)
    else Exec.bad none true s

end Xv6
