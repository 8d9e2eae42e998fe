import Xv6.Vm.Paging
import Xv6.Lib.Assoc

set_option autoImplicit false

/-! # Physical pages (`kalloc.c`, `vm.c`)

Which physical page is used for what: the free list of `kalloc`, and of every address space the page
of its directory, the pages of its page tables and the pages that its entries map. A page is its
number. The user's part of an address space is taken as two finite maps, from the entries of the
directory to page tables and from user pages to the frames of the present entries. Of the kernel's
part there are only the page tables: their entries map memory that `kalloc` does not own. The bytes
in `mem` count for user pages and free pages only.

`fail` says which calls of `kalloc` find no memory although the free list of this moment is not
empty: the calls of different processes interleave, and another one may have taken the last page.
Beside the program's state the model keeps `history`, the pages that `kalloc` has returned and those
that `kfree` was given, and `lost`, the pages that the code forgets without freeing them. -/

namespace Xv6

inductive PageEvent
  | kalloc (k : ℕ)
  | kfree (k : ℕ)
  deriving DecidableEq, Repr

structure PageMem where
  freelist : List ℕ
  fail : ℕ → Bool
  /-- Calls of `kalloc` so far. -/
  calls : ℕ
  mem : ℕ → ℕ → Byte
  /-- Latest first. -/
  history : List PageEvent
  lost : List ℕ

/-- The panics, and two more places where the model stops: `loaduvm` stores to memory that is no
    page of the new image, or `uva2ka` reads through a null pointer. The kernel goes on from there,
    but its own data and the free list may have been overwritten. -/
inductive PagePanic
  | remap
  | copyuvmExist
  | copyuvmPresent
  | clearpteu
  | initExiting
  | loaduvmAlign
  | loaduvmExist
  | wild
  | nullPte
  deriving DecidableEq, Repr

namespace PageMem

def kalloc (m : PageMem) : Option ℕ × PageMem :=
  match m.fail m.calls, m.freelist with
  | false, k :: rest =>
    (some k, { m with freelist := rest, calls := m.calls + 1, history := .kalloc k :: m.history })
  | _, _ => (none, { m with calls := m.calls + 1 })

/-- `memset` or `memmove` to a whole page. -/
def fill (k : ℕ) (bytes : ℕ → Byte) (m : PageMem) : PageMem :=
  { m with mem := Function.update m.mem k bytes }

/-- The page is filled with junk. -/
def kfree (k : ℕ) (m : PageMem) : PageMem :=
  { m.fill k fun _ => 1 with freelist := k :: m.freelist, history := .kfree k :: m.history }

/-- One `kfree` after the other. -/
def kfreeAll (ks : List ℕ) (m : PageMem) : PageMem := ks.foldl (fun m k => m.kfree k) m

/-- Nothing points at the pages any more. -/
def lose (ks : List ℕ) (m : PageMem) : PageMem := { m with lost := ks ++ m.lost }

end PageMem

structure AddrSpace where
  /-- The page of the directory. -/
  dir : ℕ
  /-- The page tables from `setupkvm`. -/
  kernel : List ℕ
  tables : List (ℕ × ℕ)
  entries : List (ℕ × ℕ)
  deriving DecidableEq, Repr

namespace AddrSpace

open Assoc

/-- All pages of the address space. -/
def pages (sp : AddrSpace) : List ℕ :=
  sp.dir :: (sp.kernel ++ values sp.tables ++ values sp.entries)

def addKernel (t : ℕ) (sp : AddrSpace) : AddrSpace := { sp with kernel := sp.kernel ++ [t] }

def addTable (d t : ℕ) (sp : AddrSpace) : AddrSpace := { sp with tables := (d, t) :: sp.tables }

def addEntry (a k : ℕ) (sp : AddrSpace) : AddrSpace := { sp with entries := (a, k) :: sp.entries }

def delEntry (a : ℕ) (sp : AddrSpace) : AddrSpace := { sp with entries := del a sp.entries }

/-- `mappages` of the one user page `a` to the frame `k`, with whether it succeeded. -/
def mappages (a k : ℕ) (sp : AddrSpace) (m : PageMem) :
    Except PagePanic (Bool × AddrSpace × PageMem) :=
  match get (a / nptentries) sp.tables with
  | some _ => if (get a sp.entries).isSome then .error .remap else .ok (true, sp.addEntry a k, m)
  | none =>
    match m.kalloc with
    | (none, m) => .ok (false, sp, m)
    | (some t, m) => .ok (true, (sp.addTable (a / nptentries) t).addEntry a k, m)

/-- The page tables that `kmap` takes: physical memory at `KERNBASE`, and the devices. -/
def kernelCount : ℕ := phystop / (nptentries * pgsize) + (2 ^ 32 - devspace) / (nptentries * pgsize)

/-- The next `n` page tables of `setupkvm`. Where there is no page for one of them, the others and
    the directory are forgotten. -/
def kernelTables : ℕ → AddrSpace → PageMem → Option AddrSpace × PageMem
  | 0, sp, m => (some sp, m)
  | n + 1, sp, m =>
    match m.kalloc with
    | (none, m) => (none, m.lose sp.pages)
    | (some t, m) => kernelTables n (sp.addKernel t) m

def setupkvm (m : PageMem) : Option AddrSpace × PageMem :=
  match m.kalloc with
  | (none, m) => (none, m)
  | (some k, m) => kernelTables kernelCount ⟨k, [], [], []⟩ m

/-- The loop of `deallocuvm` at page `a`. Without a page table it goes on 1024 pages further up. -/
def deallocLoop (oldsz : ℕ) : ℕ → ℕ → AddrSpace → PageMem → AddrSpace × PageMem
  | 0, _, sp, m => (sp, m)
  | fuel + 1, a, sp, m =>
    if oldsz ≤ a * pgsize then (sp, m)
    else
      match get (a / nptentries) sp.tables with
      | none => deallocLoop oldsz fuel (a + nptentries) sp m
      | some _ =>
        match get a sp.entries with
        | some k => deallocLoop oldsz fuel (a + 1) (sp.delEntry a) (m.kfree k)
        | none => deallocLoop oldsz fuel (a + 1) sp m

def deallocuvm (oldsz newsz : ℕ) (sp : AddrSpace) (m : PageMem) : AddrSpace × PageMem :=
  if oldsz ≤ newsz then (sp, m) else deallocLoop oldsz (Xv6.pages oldsz) (Xv6.pages newsz) sp m

/-- The loop of `allocuvm`: `n` pages from page `a` on, and whether there was memory for them. -/
def allocLoop : ℕ → ℕ → AddrSpace → PageMem → Except PagePanic (Bool × AddrSpace × PageMem)
  | 0, _, sp, m => .ok (true, sp, m)
  | n + 1, a, sp, m =>
    match m.kalloc with
    | (none, m) => .ok (false, sp, m)
    | (some k, m) =>
      match mappages a k sp (m.fill k fun _ => 0) with
      | .error e => .error e
      -- What `mappages` returns is not looked at: without a page table the page is lost.
      | .ok (ok, sp, m) => allocLoop n (a + 1) sp (if ok then m else m.lose [k])

/-- Returns the new size, or 0. -/
def allocuvm (oldsz newsz : ℕ) (sp : AddrSpace) (m : PageMem) :
    Except PagePanic (ℕ × AddrSpace × PageMem) :=
  if kernbase ≤ newsz then .ok (0, sp, m)
  else if newsz < oldsz then .ok (oldsz, sp, m)
  else
    match allocLoop (Xv6.pages newsz - Xv6.pages oldsz) (Xv6.pages oldsz) sp m with
    | .error e => .error e
    | .ok (true, sp, m) => .ok (newsz, sp, m)
    | .ok (false, sp, m) =>
      let (sp, m) := deallocuvm newsz oldsz sp m
      .ok (0, sp, m)

/-- The page tables that `freevm` finds in the directory. -/
def found (sp : AddrSpace) : List ℕ := ((List.range 512).filterMap fun d => get d sp.tables) ++
    sp.kernel

def freevm (sp : AddrSpace) (m : PageMem) : PageMem :=
  let (sp, m) := deallocuvm kernbase 0 sp m
  (m.kfreeAll sp.found).kfree sp.dir

/-- The loop of `copyuvm` at page `i`. -/
def copyLoop (old : AddrSpace) : ℕ → ℕ → AddrSpace → PageMem →
    Except PagePanic (Option AddrSpace × PageMem)
  | 0, _, d, m => .ok (some d, m)
  | n + 1, i, d, m =>
    match get (i / nptentries) old.tables, get i old.entries with
    | none, _ => .error .copyuvmExist
    | some _, none => .error .copyuvmPresent
    | some _, some frame =>
      match m.kalloc with
      | (none, m) => .ok (none, d.freevm m)
      | (some k, m) =>
        match mappages i k d (m.fill k (m.mem frame)) with
        | .error e => .error e
        | .ok (true, d, m) => copyLoop old n (i + 1) d m
        -- The page is not mapped yet, so `freevm` does not find it.
        | .ok (false, d, m) => .ok (none, d.freevm (m.lose [k]))

def copyuvm (old : AddrSpace) (sz : ℕ) (m : PageMem) :
    Except PagePanic (Option AddrSpace × PageMem) :=
  match setupkvm m with
  | (none, m) => .ok (none, m)
  | (some d, m) => copyLoop old (Xv6.pages sz) 0 d m

end AddrSpace

/-! ## `exec` -/

/-- A program header of type `ELF_PROG_LOAD`. -/
structure SegmentLoad where
  /-- The header could be read. -/
  read : Bool
  vaddr : Word
  filesz : Word
  memsz : Word
  /-- The bytes of the file from `off` on. -/
  data : List Byte
  deriving DecidableEq, Repr

namespace SegmentLoad

def sane (g : SegmentLoad) : Bool := g.read && decide (g.filesz ≤ g.memsz)

def top (g : SegmentLoad) : Word := g.vaddr + g.memsz

/-- The file has all the bytes of the segment, so that `loaduvm` succeeds. -/
def loaded (g : SegmentLoad) : Bool := g.filesz.toNat ≤ g.data.length

end SegmentLoad

/-- What `exec` reads from the file and from its arguments. -/
structure ExecFacts where
  /-- The file exists, may be executed, and starts with an ELF header. -/
  runnable : Bool
  segments : List SegmentLoad
  /-- The arguments fit on the stack; `none` where `copyout` comes to an address without a page
      table. -/
  pushed : Option Bool
  deriving DecidableEq, Repr

namespace AddrSpace

/-- What `walkpgdir` finds for page `a`: nothing without a page table, and else the page that the
    entry maps. An entry that is not present, or is one of the kernel's, maps no page of the
    image. -/
def walk (sp : AddrSpace) (a : ℕ) : Option (Option ℕ) :=
  if a < kernbase / pgsize then
    (Assoc.get (a / nptentries) sp.tables).map fun _ => Assoc.get a sp.entries
  else if a < (kernbase + phystop) / pgsize ∨ devspace / pgsize ≤ a then some none
  else none

/-- The loop of `loaduvm` at byte `i` of the segment, and whether all of it was read. -/
def loadLoop (g : SegmentLoad) (sp : AddrSpace) :
    ℕ → ℕ → PageMem → Except PagePanic (Bool × PageMem)
  | 0, _, m => .ok (true, m)
  | fuel + 1, i, m =>
    if g.filesz.toNat ≤ i then .ok (true, m)
    else
      let n := min (g.filesz.toNat - i) pgsize
      let bytes := (g.data.drop i).take n
      match sp.walk ((g.vaddr + .ofNat 32 i).toNat / pgsize) with
      | none => .error .loaduvmExist
      | some none => if bytes = [] then .ok (false, m) else .error .wild
      | some (some k) =>
        let m := m.fill k fun o => bytes.getD o (m.mem k o)
        if bytes.length = n then loadLoop g sp fuel (i + pgsize) m else .ok (false, m)

def loaduvm (g : SegmentLoad) (sp : AddrSpace) (m : PageMem) : Except PagePanic (Bool × PageMem) :=
  if g.vaddr.toNat % pgsize ≠ 0 then .error .loaduvmAlign
  else loadLoop g sp (Xv6.pages g.filesz.toNat) 0 m

/-- The segments from size `sz` on; `none` where `exec` fails, with what has been built. -/
def loadSegments : List SegmentLoad → ℕ → AddrSpace → PageMem →
    Except PagePanic (Option ℕ × AddrSpace × PageMem)
  | [], sz, sp, m => .ok (some sz, sp, m)
  | g :: gs, sz, sp, m =>
    if g.sane then
      match allocuvm sz g.top.toNat sp m with
      | .error e => .error e
      | .ok (sz, sp, m) =>
        if sz = 0 then .ok (none, sp, m)
        else
          match loaduvm g sp m with
          | .error e => .error e
          | .ok (false, m) => .ok (none, sp, m)
          | .ok (true, m) => loadSegments gs sz sp m
    else .ok (none, sp, m)

/-- The two pages for the stack, of which the first one becomes inaccessible. -/
def userStack (sz : ℕ) (sp : AddrSpace) (m : PageMem) :
    Except PagePanic (Option ℕ × AddrSpace × PageMem) :=
  match allocuvm (Xv6.pages sz * pgsize) (Xv6.pages sz * pgsize + 2 * pgsize) sp m with
  | .error e => .error e
  | .ok (sz, sp, m) =>
    if sz = 0 then .ok (none, sp, m)
    else
      match Assoc.get ((sz - 2 * pgsize) / pgsize / nptentries) sp.tables with
      | none => .error .clearpteu
      | some _ => .ok (some sz, sp, m)

/-- The new image; where `exec` fails everything is freed. -/
def image (x : ExecFacts) (m : PageMem) : Except PagePanic (Option (ℕ × AddrSpace) × PageMem) :=
  match setupkvm m with
  | (none, m) => .ok (none, m)
  | (some sp, m) =>
    match loadSegments x.segments 0 sp m with
    | .error e => .error e
    | .ok (none, sp, m) => .ok (none, sp.freevm m)
    | .ok (some sz, sp, m) =>
      match userStack sz sp m with
      | .error e => .error e
      | .ok (none, sp, m) => .ok (none, sp.freevm m)
      | .ok (some sz, sp, m) =>
        -- The arguments go to pages of the image, whose contents are not looked at again.
        match x.pushed with
        | none => .error .nullPte
        | some false => .ok (none, sp.freevm m)
        | some true => .ok (some (sz, sp), m)

end AddrSpace

end Xv6
