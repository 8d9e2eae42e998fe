import Xv6.Param
import Mathlib.Data.List.Basic

set_option autoImplicit false

/-! # Page tables (`vm.c`, `kalloc.c`)

Addresses are taken by pages: the entry for page `a` is entry `a % 1024` of page table `a / 1024`.
An entry points at a page that `kalloc` has returned, named by the number of the call, or at a page
of physical memory; an entry that has never been set points at physical page 0 and is not present.
No modelled function reads `PTE_W`.

Other processes allocate and free pages at the same time, so each call of `kalloc` may succeed or
fail, as `Kmem.avail` says.

A store to a physical page that is not one of the pages from `kalloc` changes the kernel itself; the
model stops there (`VmStop.wild`), as it does when `uva2ka` reads through the null pointer that
`walkpgdir` returns for a missing page table (`VmStop.nullPte`). -/

namespace Xv6

open Function

abbrev pgsize : ℕ := 4096

/-- Entries of a page table. -/
abbrev nptentries : ℕ := 1024

/-- First kernel virtual address. -/
abbrev kernbase : ℕ := 0x80000000

/-- Top of physical memory. -/
abbrev phystop : ℕ := 0xE000000

/-- Address of the devices at high addresses. -/
abbrev devspace : ℕ := 0xFE000000

/-- The pages that `n` bytes take: `PGROUNDUP(n) / PGSIZE`. -/
def pages (n : ℕ) : ℕ := (n + pgsize - 1) / pgsize

inductive VmPanic
  | remap
  | kfree
  | loaduvmAlign
  | loaduvmExist
  | clearpteu
  | ilock
  | iunlock
  deriving DecidableEq, Repr

inductive VmStop
  | panic (e : VmPanic)
  | wild
  | nullPte
  deriving DecidableEq, Repr

/-! ## `kalloc` -/

/-- What a page is allocated for. -/
inductive Purpose
  | dir
  | table
  | page
  deriving DecidableEq, Repr

/-- The page allocator as one call of `exec` sees it, with what that call has done to pages. -/
structure Kmem where
  /-- Whether the allocation with this number succeeds. -/
  avail : Purpose → ℕ → Bool
  calls : ℕ
  mem : ℕ → ℕ → Byte
  freed : List ℕ
  /-- The user pages that `allocuvm` has mapped, each with its frame. -/
  mapped : List (ℕ × ℕ)
  /-- The pages that `loaduvm` has stored to, each with its frame. -/
  stores : List (ℕ × ℕ)
  /-- Reads of a device so far. -/
  reads : ℕ

namespace Kmem

/-- The allocator at the beginning of a call. -/
def before (avail : Purpose → ℕ → Bool) (mem : ℕ → ℕ → Byte) : Kmem where
  avail := avail
  calls := 0
  mem := mem
  freed := []
  mapped := []
  stores := []
  reads := 0

def kalloc (why : Purpose) (m : Kmem) : Option ℕ × Kmem :=
  (if m.avail why m.calls then some m.calls else none, { m with calls := m.calls + 1 })

def kfree (k : ℕ) (m : Kmem) : Kmem := { m with freed := m.freed ++ [k] }

/-- `memset` of a page to zero. -/
def zero (k : ℕ) (m : Kmem) : Kmem := { m with mem := update m.mem k (fun _ => 0) }

/-- Store bytes at offset `o` of page `k`. -/
def store (k o : ℕ) (bytes : List Byte) (m : Kmem) : Kmem :=
  { m with mem := update m.mem k fun i =>
      if o ≤ i then bytes.getD (i - o) (m.mem k i) else m.mem k i }

end Kmem

/-! ## `readi` -/

/-- The contents of a file. `MAXFILE`, which bounds its size, is 138 blocks with `CS333_P5` and else
    140. -/
structure Content where
  bytes : List Byte
  size_le : bytes.length ≤ 140 * bsize

/-- What `readi` on a file returns, and the bytes it stores. -/
def Content.readi (f : Content) (off n : Word) : Int × List Byte :=
  if f.bytes.length < off.toNat ∨ off + n < off then (-1, [])
  else
    let n := if f.bytes.length < (off + n).toNat then f.bytes.length - off.toNat else n.toNat
    (n, (f.bytes.drop off.toNat).take n)

/-- What stands behind an inode: the contents of a file, or what the driver of a device answers to
    each read. -/
inductive Source
  | file (f : Content)
  | dev (read : ℕ → Word → Int × List Byte)

def Source.readi (ip : Source) (off n : Word) (m : Kmem) : (Int × List Byte) × Kmem :=
  match ip with
  | .file f => (f.readi off n, m)
  | .dev read =>
    (((read m.reads n).1, (read m.reads n).2.take n.toNat), { m with reads := m.reads + 1 })

/-! ## Page directories -/

inductive Frame
  | page (k : ℕ)
  | phys (n : ℕ)
  deriving DecidableEq, Repr

structure Pte where
  frame : Frame
  present : Bool
  user : Bool
  deriving DecidableEq, Repr

/-- An entry of a new page table. -/
def Pte.zero : Pte := { frame := .phys 0, present := false, user := false }

/-- For each entry of a page directory the page table, if there is one. -/
abbrev Pgdir := ℕ → Option (ℕ → Pte)

namespace Pgdir

variable (pgdir : Pgdir)

/-- `walkpgdir` without allocation. -/
def walk (a : ℕ) : Option Pte :=
  (pgdir (a / nptentries)).map (fun table => table (a % nptentries))

/-- `walkpgdir` with allocation: the directory with a page table for `a`. -/
def walkAlloc (a : ℕ) (m : Kmem) : Option Pgdir × Kmem :=
  match pgdir (a / nptentries) with
  | some _ => (some pgdir, m)
  | none =>
    match m.kalloc .table with
    | (some _, m) => (some (update pgdir (a / nptentries) (some fun _ => .zero)), m)
    | (none, m) => (none, m)

/-- Store the entry for `a`, which has a page table. -/
def setPte (a : ℕ) (pte : Pte) : Pgdir :=
  update pgdir (a / nptentries)
    ((pgdir (a / nptentries)).map fun table => update table (a % nptentries) pte)

/-- `mappages` of the one page `a`, with whether it succeeded. -/
def mappages (a : ℕ) (pte : Pte) (m : Kmem) :
    Except VmStop (Bool × Pgdir × Kmem) :=
  match walkAlloc pgdir a m with
  | (none, m) => .ok (false, pgdir, m)
  | (some pgdir, m) =>
    if (walk pgdir a).any Pte.present then .error (.panic .remap)
    else .ok (true, setPte pgdir a pte, m)

/-! ## The kernel's part -/

/-- The page directory that `setupkvm` builds from `kmap`: physical memory at `KERNBASE`, and the
    devices at their own addresses. -/
def kernel : Pgdir := fun d =>
  if 512 ≤ d ∧ d < 568 then
    some fun t => { frame := .phys ((d - 512) * nptentries + t), present := true, user := false }
  else if 1016 ≤ d ∧ d < 1024 then
    some fun t => { frame := .phys (d * nptentries + t), present := true, user := false }
  else none

/-- The page tables that `setupkvm` allocates, one after the other; whether all were found. -/
def kernelTables : ℕ → Kmem → Bool × Kmem
  | 0, m => (true, m)
  | n + 1, m =>
    match m.kalloc .table with
    | (some _, m) => kernelTables n m
    | (none, m) => (false, m)

def setupkvm (m : Kmem) : Option Pgdir × Kmem :=
  match m.kalloc .dir with
  | (none, m) => (none, m)
  | (some _, m) =>
    match kernelTables 64 m with
    | (true, m) => (some kernel, m)
    | (false, m) => (none, m)

/-! ## The user's part -/

/-- The loop of `deallocuvm` at page `a`; it ends, as each round goes up by a page or more. -/
def deallocLoop (oldsz : ℕ) : ℕ → ℕ → Pgdir → Kmem → Except VmStop (Pgdir × Kmem)
  | 0, _, pgdir, m => .ok (pgdir, m)
  | fuel + 1, a, pgdir, m =>
    if oldsz ≤ a * pgsize then .ok (pgdir, m)
    else
      match walk pgdir a with
      | none => deallocLoop oldsz fuel (a + nptentries) pgdir m
      | some pte =>
        if pte.present then
          match pte.frame with
          | .page k => deallocLoop oldsz fuel (a + 1) (setPte pgdir a .zero) (m.kfree k)
          | .phys _ => .error (.panic .kfree)
        else deallocLoop oldsz fuel (a + 1) pgdir m

def deallocuvm (oldsz newsz : ℕ) (m : Kmem) : Except VmStop (Pgdir × Kmem) :=
  if oldsz ≤ newsz then .ok (pgdir, m)
  else deallocLoop oldsz (pages oldsz) (pages newsz) pgdir m

/-- The loop of `allocuvm`: `n` pages from page `a` on, and whether there was memory for them. -/
def allocLoop : ℕ → ℕ → Pgdir → Kmem → Except VmStop (Bool × Pgdir × Kmem)
  | 0, _, pgdir, m => .ok (true, pgdir, m)
  | n + 1, a, pgdir, m =>
    match m.kalloc .page with
    | (none, m) => .ok (false, pgdir, m)
    | (some k, m) => do
        -- What `mappages` returns is not looked at: without a page table the page is lost.
        let (ok, pgdir, m) ←
          mappages pgdir a { frame := .page k, present := true, user := true } (m.zero k)
        allocLoop n (a + 1) pgdir (if ok then { m with mapped := m.mapped ++ [(a, k)] } else m)

/-- Returns the new size, or 0. -/
def allocuvm (oldsz newsz : ℕ) (m : Kmem) : Except VmStop (ℕ × Pgdir × Kmem) :=
  if kernbase ≤ newsz then .ok (0, pgdir, m)
  else if newsz < oldsz then .ok (oldsz, pgdir, m)
  else do
    let (ok, pgdir, m) ← allocLoop (pages newsz - pages oldsz) (pages oldsz) pgdir m
    if ok then .ok (newsz, pgdir, m)
    else
      let (pgdir, m) ← deallocuvm pgdir newsz oldsz m
      .ok (0, pgdir, m)

/-- The pages of the user part go back to the allocator; those of the page tables and of the
    directory do too, but are not numbered here. -/
def freevm (m : Kmem) : Except VmStop Kmem := do
  let (_, m) ← deallocuvm pgdir kernbase 0 m
  .ok m

/-- The loop of `loaduvm` at byte `i` of the segment, and whether all of it was read. No file is
    long enough for `i` to wrap round. -/
def loadLoop (pgdir : Pgdir) (addr : Word) (ip : Source) (offset : Word) (sz : ℕ) :
    ℕ → ℕ → Kmem → Except VmStop (Bool × Kmem)
  | 0, _, m => .ok (true, m)
  | fuel + 1, i, m =>
    if sz ≤ i then .ok (true, m)
    else
      let a := (addr + .ofNat 32 i).toNat / pgsize
      match walk pgdir a with
      | none => .error (.panic .loaduvmExist)
      | some pte =>
        let n := min (sz - i) pgsize
        let ((r, bytes), m) := ip.readi (offset + .ofNat 32 i) (.ofNat 32 n) m
        -- The page is used whether or not the entry is present.
        match bytes, pte.frame with
        | _ :: _, .phys _ => .error .wild
        | _ :: _, .page k =>
          let m := { m.store k 0 bytes with stores := m.stores ++ [(a, k)] }
          if r = n then loadLoop pgdir addr ip offset sz fuel (i + pgsize) m else .ok (false, m)
        | [], _ =>
          if r = n then loadLoop pgdir addr ip offset sz fuel (i + pgsize) m else .ok (false, m)

def loaduvm (addr : Word) (ip : Source) (offset : Word) (sz : ℕ) (m : Kmem) :
    Except VmStop (Bool × Kmem) :=
  if addr.toNat % pgsize ≠ 0 then .error (.panic .loaduvmAlign)
  else loadLoop pgdir addr ip offset sz (pages sz) 0 m

def clearpteu (pgdir : Pgdir) (a : ℕ) : Except VmStop Pgdir :=
  match walk pgdir a with
  | none => .error (.panic .clearpteu)
  | some pte => .ok (setPte pgdir a { pte with user := false })

/-- `none` where the page may not be used by the user. -/
def uva2ka (a : ℕ) : Except VmStop (Option Frame) :=
  match walk pgdir a with
  | none => .error .nullPte
  | some pte => .ok (if pte.present && pte.user then some pte.frame else none)

/-- The loop of `copyout`, which copies a byte or more in each round. -/
def copyLoop (pgdir : Pgdir) : ℕ → Word → List Byte → Kmem → Except VmStop (Bool × Kmem)
  | 0, _, _, m => .ok (true, m)
  | _ + 1, _, [], m => .ok (true, m)
  | fuel + 1, va, buf, m => do
      let va0 := va.toNat / pgsize
      match ← uva2ka pgdir va0 with
      | none => .ok (false, m)
      | some (.phys _) => .error .wild
      | some (.page k) =>
        let n := min (pgsize - va.toNat % pgsize) buf.length
        copyLoop pgdir fuel (.ofNat 32 ((va0 + 1) * pgsize)) (buf.drop n)
          (m.store k (va.toNat % pgsize) (buf.take n))

def copyout (va : Word) (buf : List Byte) (m : Kmem) :
    Except VmStop (Bool × Kmem) :=
  copyLoop pgdir buf.length va buf m

end Pgdir

end Xv6
