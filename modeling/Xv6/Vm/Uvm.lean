import Xv6.Vm.Paging

set_option autoImplicit false

/-! # Page tables with their entries and the memory behind them (`vm.c`)

`Paging` follows one `exec`. Here the functions of `vm.c` work on any page directory, with all the
bits of an entry and with the physical memory that the entries map.

Addresses are taken by pages, as in `Paging`: the entry for page `a` is entry `a % 1024` of page
table `a / 1024`. An entry has the number of a physical page and twelve bits. The bytes of physical
pages are in `mem`; those of directories and page tables are the directories and tables themselves.

What `kalloc` returns depends on the other processes. `give` says for each place of the code at
which a function calls it what it returns there; a function comes to each place at most once.
`freed` is the list of the calls of `kfree`. -/

namespace Xv6

open Function

namespace Uvm

/-- Present, writeable, user. -/
def pteP : BitVec 12 := 0x001
def pteW : BitVec 12 := 0x002
def pteU : BitVec 12 := 0x004

/-- An entry of a page table. -/
structure Pte where
  ppn : ℕ
  flags : BitVec 12
  deriving DecidableEq, Repr

namespace Pte

/-- An entry of a new page table. -/
def zero : Pte := ⟨0, 0⟩

/-- `*pte & bit`. -/
def has (bit : BitVec 12) (pte : Pte) : Prop := pte.flags &&& bit ≠ 0

instance (bit : BitVec 12) (pte : Pte) : Decidable (pte.has bit) :=
  inferInstanceAs (Decidable (_ ≠ _))

end Pte

structure Pgtab where
  page : ℕ
  pte : ℕ → Pte

structure Pgdir where
  page : ℕ
  pgtab : ℕ → Option Pgtab

inductive Stop
  | remap
  | kfree
  | copyuvmExist
  | copyuvmPresent
  /-- A read through the null pointer that `walkpgdir` returns. -/
  | nullPte
  deriving DecidableEq, Repr

/-- A place at which `kalloc` is called: for a directory, for the page table of the page `a`, or for
the page `a` itself. -/
inductive Site
  | dir
  | table (a : ℕ)
  | page (a : ℕ)
  deriving DecidableEq, Repr

structure Kmem where
  give : Site → Option ℕ
  /-- The first page after the kernel, where the memory of `kalloc` begins. -/
  kend : ℕ
  kend_pos : 0 < kend
  mem : ℕ → ℕ → Byte
  freed : List ℕ

namespace Kmem

/-- The page lies in the memory of `kalloc`. -/
def Owns (m : Kmem) (k : ℕ) : Prop := m.kend ≤ k ∧ k < phystop / pgsize

instance (m : Kmem) (k : ℕ) : Decidable (m.Owns k) := inferInstanceAs (Decidable (_ ∧ _))

/-- `memset` or `memmove` to a whole page. -/
def fill (k : ℕ) (bytes : ℕ → Byte) (m : Kmem) : Kmem := { m with mem := update m.mem k bytes }

/-- The page is filled with junk. -/
def kfree (k : ℕ) (m : Kmem) : Except Stop Kmem :=
  if m.Owns k then .ok { m.fill k fun _ => 1 with freed := m.freed ++ [k] } else .error .kfree

/-- Store bytes at offset `o` of page `k`. -/
def store (k o : ℕ) (bytes : List Byte) (m : Kmem) : Kmem :=
  m.fill k fun i => if o ≤ i then bytes.getD (i - o) (m.mem k i) else m.mem k i

end Kmem

namespace Pgdir

variable (pgdir : Pgdir)

/-- `walkpgdir` without allocation. -/
def walk (a : ℕ) : Option Pte := (pgdir.pgtab (a / nptentries)).map (·.pte (a % nptentries))

/-- Store an entry of the directory. -/
def setTab (d : ℕ) (t : Option Pgtab) : Pgdir :=
  { pgdir with pgtab := update pgdir.pgtab d t }

/-- `walkpgdir` with allocation: the directory with a page table for `a`. -/
def walkAlloc (a : ℕ) (m : Kmem) : Option Pgdir :=
  match pgdir.pgtab (a / nptentries) with
  | some _ => some pgdir
  | none => (m.give (.table a)).map fun page => pgdir.setTab (a / nptentries)
      (some ⟨page, fun _ => .zero⟩)

/-- Store the entry for `a`, which has a page table. -/
def setPte (a : ℕ) (pte : Pte) : Pgdir :=
  pgdir.setTab (a / nptentries) <| (pgdir.pgtab (a / nptentries)).map fun t =>
    { t with pte := update t.pte (a % nptentries) pte }

/-- `mappages` of `n` pages from page `a` on, with whether it succeeded. -/
def mappages : ℕ → ℕ → ℕ → BitVec 12 → Pgdir → Kmem → Except Stop (Bool × Pgdir)
  | 0, _, _, _, pgdir, _ => .ok (true, pgdir)
  | n + 1, a, ppn, perm, pgdir, m =>
    match pgdir.walkAlloc a m with
    | none => .ok (false, pgdir)
    | some pgdir =>
      if (pgdir.walk a).any fun pte => pte.has pteP then .error .remap
      else mappages n (a + 1) (ppn + 1) perm (pgdir.setPte a ⟨ppn, perm ||| pteP⟩) m

/-! ## The kernel's part -/

/-- An entry of `kmap`, in pages. -/
structure Kmap where
  virt : ℕ
  physStart : ℕ
  count : ℕ
  perm : BitVec 12

/-- `kmap`; `data` is the physical page of the kernel's data. -/
def kmap (data : ℕ) : List Kmap :=
  [⟨kernbase / pgsize, 0, 0x100, pteW⟩,
    ⟨kernbase / pgsize + 0x100, 0x100, data - 0x100, 0⟩,
    ⟨kernbase / pgsize + data, data, phystop / pgsize - data, pteW⟩,
    ⟨devspace / pgsize, devspace / pgsize, (2 ^ 32 - devspace) / pgsize, pteW⟩]

/-- The loop of `setupkvm`. -/
def mapKernel : List Kmap → Pgdir → Kmem → Except Stop (Option Pgdir)
  | [], pgdir, _ => .ok (some pgdir)
  | k :: ks, pgdir, m => do
      let (ok, pgdir) ← mappages k.count k.virt k.physStart k.perm pgdir m
      if ok then mapKernel ks pgdir m else .ok none

def setupkvm (data : ℕ) (m : Kmem) : Except Stop (Option Pgdir) :=
  match m.give .dir with
  | none => .ok none
  | some page => mapKernel (kmap data) ⟨page, fun _ => none⟩ m

/-! ## The user's part -/

/-- The loop of `deallocuvm` at page `a`; it ends, as each round goes up by a page or more. -/
def deallocLoop (oldsz : ℕ) : ℕ → ℕ → Pgdir → Kmem → Except Stop (Pgdir × Kmem)
  | 0, _, pgdir, m => .ok (pgdir, m)
  | fuel + 1, a, pgdir, m =>
    if oldsz ≤ a * pgsize then .ok (pgdir, m)
    else
      match pgdir.walk a with
      -- The source adds 1023 pages here, and one more with the step of the loop.
      | none => deallocLoop oldsz fuel (a + nptentries) pgdir m
      | some pte =>
        if pte.has pteP then do
          -- Page 0, for which the source panics here, is one that `kfree` panics for.
          let m ← m.kfree pte.ppn
          deallocLoop oldsz fuel (a + 1) (pgdir.setPte a .zero) m
        else deallocLoop oldsz fuel (a + 1) pgdir m

def deallocuvm (oldsz newsz : ℕ) (m : Kmem) : Except Stop (Pgdir × Kmem) :=
  if oldsz ≤ newsz then .ok (pgdir, m) else deallocLoop oldsz (pages oldsz) (pages newsz) pgdir m

/-- The loop of `allocuvm`: `n` pages from page `a` on, and whether there was memory for them. -/
def allocLoop : ℕ → ℕ → Pgdir → Kmem → Except Stop (Bool × Pgdir × Kmem)
  | 0, _, pgdir, m => .ok (true, pgdir, m)
  | n + 1, a, pgdir, m =>
    match m.give (.page a) with
    | none => .ok (false, pgdir, m)
    | some k => do
        let m := m.fill k fun _ => 0
        -- What `mappages` returns is not looked at.
        let (_, pgdir) ← pgdir.mappages 1 a k (pteW ||| pteU) m
        allocLoop n (a + 1) pgdir m

/-- Returns the new size, or 0. -/
def allocuvm (oldsz newsz : ℕ) (m : Kmem) : Except Stop (ℕ × Pgdir × Kmem) :=
  if kernbase ≤ newsz then .ok (0, pgdir, m)
  else if newsz < oldsz then .ok (oldsz, pgdir, m)
  else do
    let (ok, pgdir, m) ← allocLoop (pages newsz - pages oldsz) (pages oldsz) pgdir m
    if ok then .ok (newsz, pgdir, m)
    else do
      let (pgdir, m) ← pgdir.deallocuvm newsz oldsz m
      .ok (0, pgdir, m)

/-- The loop of `freevm` over the entries of the directory. -/
def freeTables : List ℕ → Pgdir → Kmem → Except Stop Kmem
  | [], _, m => .ok m
  | d :: ds, pgdir, m =>
    match pgdir.pgtab d with
    | none => freeTables ds pgdir m
    | some t => do
        let m ← m.kfree t.page
        freeTables ds pgdir m

def freevm (m : Kmem) : Except Stop Kmem := do
  let (pgdir, m) ← pgdir.deallocuvm kernbase 0 m
  let m ← freeTables (List.range nptentries) pgdir m
  m.kfree pgdir.page

/-- The loop of `copyuvm` at page `i`; `d` is the new directory. -/
def copyLoop (pgdir : Pgdir) : ℕ → ℕ → Pgdir → Kmem → Except Stop (Option Pgdir × Kmem)
  | 0, _, d, m => .ok (some d, m)
  | n + 1, i, d, m =>
    match pgdir.walk i with
    | none => .error .copyuvmExist
    | some pte =>
      if pte.has pteP then
        match m.give (.page i) with
        | none => do
            let m ← d.freevm m
            .ok (none, m)
        | some k => do
            let m := m.fill k (m.mem pte.ppn)
            let (ok, d) ← d.mappages 1 i k pte.flags m
            if ok then copyLoop pgdir n (i + 1) d m
            else do
              let m ← d.freevm m
              .ok (none, m)
      else .error .copyuvmPresent

def copyuvm (data : ℕ) (pgdir : Pgdir) (sz : ℕ) (m : Kmem) : Except Stop (Option Pgdir × Kmem) := do
  match ← setupkvm data m with
  | none => .ok (none, m)
  | some d => copyLoop pgdir (pages sz) 0 d m

/-- `none` where the page may not be used by the user. -/
def uva2ka (a : ℕ) : Except Stop (Option ℕ) :=
  match pgdir.walk a with
  | none => .error .nullPte
  | some pte => .ok (if pte.has pteP ∧ pte.has pteU then some pte.ppn else none)

/-- The loop of `copyout`, which copies a byte or more in each round. -/
def copyoutLoop (pgdir : Pgdir) : ℕ → Word → List Byte → Kmem → Except Stop (Int × Kmem)
  | 0, _, _, m => .ok (0, m)
  | _ + 1, _, [], m => .ok (0, m)
  | fuel + 1, va, buf, m => do
      let va0 := va.toNat / pgsize
      match ← pgdir.uva2ka va0 with
      | none => .ok (-1, m)
      | some k =>
        let n := min (pgsize - va.toNat % pgsize) buf.length
        copyoutLoop pgdir fuel (.ofNat 32 ((va0 + 1) * pgsize)) (buf.drop n)
          (m.store k (va.toNat % pgsize) (buf.take n))

def copyout (va : Word) (buf : List Byte) (m : Kmem) : Except Stop (Int × Kmem) :=
  copyoutLoop pgdir buf.length va buf m

end Pgdir

end Uvm

end Xv6
