import Xv6.Vm.Pages
import Xv6.File.Ftable

set_option autoImplicit false

/-! # Who owns the pages (`proc.c`, `exec.c`, `pipe.c`)

Whole calls of `fork`, `exec`, `sbrk`, `pipe`, `close`, `exit` and `wait`, one after the other, with
what they do to pages. The descriptors are those of `OpenSys`; a pipe has a page for as long as one
of its ends is open. Each call that allocates comes with the calls of `kalloc` that fail in it. What
`exec` reads from the file is an argument. A call stops where `loaduvm` would store to memory that
is no page of the new image, and where `uva2ka` would read through a null pointer: what follows from
there is not modelled.

A call reports whether it succeeded; where it did not it has returned -1. -/

namespace Xv6

inductive ProcUse
  | unused
  | live
  | zombie
  deriving DecidableEq, Repr

/-- `struct proc`, as far as it says who owns pages. -/
structure PageProc where
  state : ProcUse
  space : AddrSpace
  sz : ℕ
  kstack : ℕ
  parent : Option (Fin nproc)

structure PageSys where
  mem : PageMem
  proc : Fin nproc → PageProc
  files : OpenSys (Fin nproc)
  /-- The page of each pipe. -/
  pipePage : ℕ → ℕ

/-- The slot that `userinit` gets. -/
abbrev initproc : Fin nproc := 0

inductive PageCall
  | fork (fail : ℕ → Bool)
  | exec (x : ExecFacts) (fail : ℕ → Bool)
  | sbrk (n : Word) (fail : ℕ → Bool)
  | pipe (addr : Bool) (fail : ℕ → Bool)
  | close (fd : Int)
  | exit
  | wait

inductive PageStop
  | panic (e : PagePanic)
  | files (e : OpenStop)
  | disabled
  deriving DecidableEq, Repr

namespace PageSys

variable (p : Fin nproc)

def setProc (x : PageProc) (s : PageSys) : PageSys :=
  { s with proc := Function.update s.proc p x }

def setMem (m : PageMem) (s : PageSys) : PageSys := { s with mem := m }

/-- A call begins, in which these calls of `kalloc` fail. -/
def enter (fail : ℕ → Bool) (s : PageSys) : PageSys :=
  s.setMem { s.mem with fail := fail, calls := 0 }

variable (s : PageSys)

/-- The slot that `allocproc` takes. -/
def freeSlot : Option (Fin nproc) :=
  (List.finRange nproc).find? fun c => (s.proc c).state = .unused

/-- The pipes that are open, where those from `n` on are new. -/
def openFrom (n : ℕ) (old new : OpenSys (Fin nproc)) : List ℕ :=
  (List.range new.pipes).filter fun q => (old.pipe q).isSome ∨ n ≤ q

/-- The descriptors change, and the pages of the pipes that are closed now are freed. -/
def setFiles (files : OpenSys (Fin nproc)) (s : PageSys) : PageSys :=
  let closed := (openFrom s.files.pipes s.files files).filter fun q => (files.pipe q).isNone
  { s with files := files, mem := s.mem.kfreeAll (closed.map s.pipePage) }

def fork : Except PageStop (Bool × PageSys) :=
  match s.freeSlot with
  | none => .ok (false, s)
  | some c =>
    match s.mem.kalloc with
    | (none, m) => .ok (false, s.setMem m)
    | (some k, m) =>
      match (s.proc p).space.copyuvm (s.proc p).sz m with
      | .error e => .error (.panic e)
      | .ok (none, m) => .ok (false, s.setMem (m.kfree k))
      | .ok (some d, m) =>
        match s.files.call p (.fork (some c)) with
        | .error e => .error (.files e)
        | .ok (_, files) =>
          .ok (true, ((s.setMem m).setFiles files).setProc c ⟨.live, d, (s.proc p).sz, k, some p⟩)

def exec (x : ExecFacts) (s : PageSys) : Except PageStop (Bool × PageSys) :=
  if x.runnable then
    match AddrSpace.image x s.mem with
    | .error e => .error (.panic e)
    | .ok (none, m) => .ok (false, s.setMem m)
    | .ok (some (sz, sp), m) =>
      .ok (true, (s.setMem ((s.proc p).space.freevm m)).setProc p { s.proc p with space := sp, sz := sz })
  else .ok (false, s)

/-- `growproc`. -/
def sbrk (n : Word) (s : PageSys) : Except PageStop (Bool × PageSys) :=
  let x := s.proc p
  let newsz := (BitVec.ofNat 32 x.sz + n).toNat
  if 0 < n.toInt then
    match x.space.allocuvm x.sz newsz s.mem with
    | .error e => .error (.panic e)
    | .ok (sz, sp, m) =>
      .ok (sz ≠ 0, (s.setMem m).setProc p { x with space := sp, sz := if sz = 0 then x.sz else sz })
  else if n.toInt < 0 then
    let (sp, m) := x.space.deallocuvm x.sz newsz s.mem
    let sz := if x.sz ≤ newsz then x.sz else newsz
    -- Also where nothing was wrong: a process that gives back all its memory is told -1.
    .ok (sz ≠ 0, (s.setMem m).setProc p { x with space := sp, sz := if sz = 0 then x.sz else sz })
  else .ok (true, s)

def pipe (addr : Bool) (s : PageSys) : Except PageStop (Bool × PageSys) :=
  let (k, m) := s.mem.kalloc
  match s.files.call p (.pipe addr k.isSome) with
  | .error e => .error (.files e)
  | .ok (r, files) =>
    match k with
    | some k =>
      -- A page has been taken if there is a pipe for it.
      if files.pipes = s.files.pipes then .ok (0 ≤ r, s.setFiles files)
      else
        .ok (0 ≤ r, { s.setMem m with pipePage := Function.update s.pipePage s.files.pipes k }.setFiles files)
    | none => .ok (0 ≤ r, s.setFiles files)

def close (fd : Int) (s : PageSys) : Except PageStop (Bool × PageSys) :=
  match s.files.call p (.close fd) with
  | .error e => .error (.files e)
  | .ok (r, files) => .ok (0 ≤ r, s.setFiles files)

/-- The children of `p` become those of the first process. -/
def abandon : PageSys :=
  { s with proc := fun c =>
      if (s.proc c).parent = some p then { s.proc c with parent := some initproc } else s.proc c }

def exit : Except PageStop (Bool × PageSys) :=
  if p = initproc then .error (.panic .initExiting)
  else
    match s.files.call p .exit with
    | .error e => .error (.files e)
    | .ok (_, files) =>
      let s := (s.setFiles files).abandon p
      .ok (true, s.setProc p { s.proc p with state := .zombie })

/-- The child that `wait` finds. -/
def zombieChild : Option (Fin nproc) :=
  (List.finRange nproc).find? fun c => (s.proc c).parent = some p ∧ (s.proc c).state = .zombie

def wait : Except PageStop (Bool × PageSys) :=
  match s.zombieChild p with
  | none => .ok (false, s)
  | some c =>
    let m := (s.proc c).space.freevm (s.mem.kfree (s.proc c).kstack)
    .ok (true, (s.setMem m).setProc c { s.proc c with state := .unused, parent := none })

/-- One call of the process, and whether it succeeded. -/
def call (c : PageCall) (s : PageSys) : Except PageStop (Bool × PageSys) :=
  if (s.proc p).state = .live then
    match c with
    | .fork fail => (s.enter fail).fork p
    | .exec x fail => (s.enter fail).exec p x
    | .sbrk n fail => (s.enter fail).sbrk p n
    | .pipe addr fail => (s.enter fail).pipe p addr
    | .close fd => s.close p fd
    | .exit => s.exit p
    | .wait => s.wait p
  else .error .disabled

def step (a : Fin nproc × PageCall) (s : PageSys) : Except PageStop PageSys :=
  Prod.snd <$> s.call a.1 a.2

/-- After boot, with the first process: page 0 is its kernel stack, page 1 its directory, the others
    below 67 its page tables and page 67 its one user page. The pages of `rest` are free. -/
def init (rest : List ℕ) : PageSys where
  mem :=
    { freelist := rest
      fail := fun _ => false
      calls := 0
      mem := fun _ _ => 0
      history := (List.range 68).map .kalloc
      lost := [] }
  proc p :=
    if p = initproc then
      { state := .live
        space := ⟨1, List.range' 2 64, [(0, 66)], [(0, 67)]⟩
        sz := pgsize
        kstack := 0
        parent := none }
    else { state := .unused, space := ⟨0, [], [], []⟩, sz := 0, kstack := 0, parent := none }
  files := .init initproc
  pipePage _ := 0

end PageSys

end Xv6
