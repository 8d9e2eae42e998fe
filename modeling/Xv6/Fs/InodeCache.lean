import Xv6.Fs.Inode
import Xv6.Lib.Transition
import Mathlib.Algebra.BigOperators.Group.Finset.Basic
import Mathlib.Data.Fintype.Basic

set_option autoImplicit false

/-! # The inode cache under concurrency (`fs.c`)

Any number of processes call `iget`, `idup`, `ilock`, `iunlock`, `iput` and `ialloc`, and while they
have an inode locked they change the cached copy and call `iupdate`. An action is the code between
two releases of `icache.lock` or of a buffer: `iput` that frees an inode takes four of them, because
it gives up `icache.lock` before it truncates the inode and takes it again at the end. `ilock` waits
while the entry is busy; the wait is an action that cannot be taken.

The processes keep to the rules for references and locks, and `refs` and `locks` record what they
have: an entry is passed to `idup`, `ilock` and `iput` only by a process with a reference to it, the
cached copy is used only by the process that has locked it, and a process that has locked an inode
keeps a reference until it unlocks it. `dirty` is set while a cached copy has changed since the last
`iupdate`. Nobody but `iput` assigns to `ip->type`. -/

namespace Xv6

open Function

/-- `struct dinode`, and the part of `struct inode` that is a copy of it. -/
structure Dinode (v : FsBuild) where
  type : BitVec 16
  major : BitVec 16
  minor : BitVec 16
  nlink : BitVec 16
  uid : BitVec 16
  gid : BitVec 16
  mode : Word
  size : Word
  addrs : Fin (v.ndirect + 1) → Word

variable {v : FsBuild}

/-- What `ialloc` writes. -/
def Dinode.blank (type : BitVec 16) : Dinode v := ⟨type, 0, 0, 0, 0, 0, 0, 0, fun _ => 0⟩

/-- What `itrunc` leaves. -/
def Dinode.truncated (x : Dinode v) : Dinode v := { x with size := 0, addrs := fun _ => 0 }

/-- `struct inode`, with the flags `I_BUSY` and `I_VALID`. -/
structure CacheEntry (v : FsBuild) where
  dev : ℕ
  inum : ℕ
  ref : Int
  busy : Bool
  valid : Bool
  node : Dinode v

def CacheEntry.key (x : CacheEntry v) : ℕ × ℕ := (x.dev, x.inum)

/-- Where `iput` stands that frees an inode. -/
inductive IputPc
  | trunc
  /-- The assignment to `ip->type` and the `iupdate` after it. -/
  | clear
  | finish
  deriving DecidableEq, Repr

inductive InodePc
  | idle
  | ilockWait (e : Fin ninode)
  | ilockLoad (e : Fin ninode)
  | iunlock (e : Fin ninode)
  | iput (e : Fin ninode) (stage : IputPc)
  /-- The loop of `ialloc` at `inum`. -/
  | ialloc (dev : ℕ) (type : BitVec 16) (inum : ℕ)
  /-- The `iget` at the end of `ialloc`. -/
  | iallocGet (dev inum : ℕ)
  deriving DecidableEq, Repr

structure InodeSys (v : FsBuild) (P : Type) where
  /-- `sb.ninodes`. -/
  ninodes : ℕ
  entry : Fin ninode → CacheEntry v
  disk : ℕ × ℕ → Dinode v
  pc : P → InodePc
  refs : P → Fin ninode → ℕ
  locks : P → Fin ninode → Bool
  dirty : Fin ninode → Bool

inductive InodeAct (v : FsBuild) (P : Type)
  | iget (p : P) (dev inum : ℕ)
  | idup (p : P) (e : Fin ninode)
  | ilock (p : P) (e : Fin ninode)
  | modify (p : P) (e : Fin ninode) (x : Dinode v)
  | iupdate (p : P) (e : Fin ninode)
  | iunlock (p : P) (e : Fin ninode)
  | iput (p : P) (e : Fin ninode)
  /-- A reference goes to another process, as with `fork` and with a shared `struct file`. -/
  | give (p q : P) (e : Fin ninode)
  | ialloc (p : P) (dev : ℕ) (type : BitVec 16)
  | run (p : P)

inductive InodeStop
  /-- Not possible now: the process waits, or the rules forbid the action. -/
  | blocked
  | igetNoInodes
  | ilock
  | ilockNoType
  | iunlock
  | iputBusy
  | iallocNoInodes
  deriving DecidableEq, Repr

namespace InodeSys

variable {v : FsBuild} {P : Type} [DecidableEq P]

variable (e : Fin ninode)

def setEntry (x : CacheEntry v) (s : InodeSys v P) : InodeSys v P :=
  { s with entry := update s.entry e x }

def setDisk (k : ℕ × ℕ) (x : Dinode v) (s : InodeSys v P) : InodeSys v P :=
  { s with disk := update s.disk k x }

variable (p : P)

def setRefs (e : Fin ninode) (n : ℕ) (s : InodeSys v P) : InodeSys v P :=
  { s with refs := update s.refs p (update (s.refs p) e n) }

def setLocks (e : Fin ninode) (b : Bool) (s : InodeSys v P) : InodeSys v P :=
  { s with locks := update s.locks p (update (s.locks p) e b) }

def setDirty (b : Bool) (s : InodeSys v P) : InodeSys v P :=
  { s with dirty := update s.dirty e b }

def goto (c : InodePc) (s : InodeSys v P) : InodeSys v P :=
  { s with pc := update s.pc p c }

/-- One reference more to the entry, for the process. -/
def addRef (e : Fin ninode) (s : InodeSys v P) : InodeSys v P :=
  (s.setEntry e { s.entry e with ref := (s.entry e).ref + 1 }).setRefs p e (s.refs p e + 1)

/-- The entry that `iget` finds. -/
def findEntry (dev inum : ℕ) (s : InodeSys v P) : Option (Fin ninode) :=
  (List.finRange ninode).find? fun e =>
    0 < (s.entry e).ref ∧ (s.entry e).dev = dev ∧ (s.entry e).inum = inum

variable (s : InodeSys v P)

/-- The entry that `iget` recycles. -/
def emptyEntry : Option (Fin ninode) :=
  (List.finRange ninode).find? fun e => (s.entry e).ref = 0

/-- The entry `e` is recycled. -/
def recycle (e : Fin ninode) (dev inum : ℕ) (s : InodeSys v P) : InodeSys v P :=
  (s.setEntry e ⟨dev, inum, 1, false, false, (s.entry e).node⟩).setRefs p e (s.refs p e + 1)

def iget (dev inum : ℕ) (s : InodeSys v P) : Except InodeStop (InodeSys v P) :=
  match s.findEntry dev inum with
  | some e => .ok (s.addRef p e)
  | none =>
    match s.emptyEntry with
    | none => .error .igetNoInodes
    | some e => .ok (s.recycle p e dev inum)

/-- The disk gets the cached copy. -/
def writeBack : InodeSys v P :=
  (s.setDisk (s.entry e).key (s.entry e).node).setDirty e false

def setNode (x : Dinode v) (s : InodeSys v P) : InodeSys v P :=
  s.setEntry e { s.entry e with node := x }

/-- `ref--` at the end of `iput`. -/
def dropRef (e : Fin ninode) (s : InodeSys v P) : InodeSys v P :=
  (s.setEntry e { s.entry e with ref := (s.entry e).ref - 1 }).setRefs p e (s.refs p e - 1)

def giveRef (p q : P) (e : Fin ninode) (s : InodeSys v P) : InodeSys v P :=
  let s := s.setRefs p e (s.refs p e - 1)
  s.setRefs q e (s.refs q e + 1)

/-- The entry becomes busy by `p`, which goes on at `c`. -/
def take (e : Fin ninode) (c : InodePc) (s : InodeSys v P) : InodeSys v P :=
  ((s.setEntry e { s.entry e with busy := true }).setLocks p e true).goto p c

/-- The last reference to an inode without links is dropped. -/
def Frees : Prop :=
  (s.entry e).ref = 1 ∧ (s.entry e).valid = true ∧ (s.entry e).node.nlink = 0

instance (e : Fin ninode) (s : InodeSys v P) : Decidable (s.Frees e) :=
  inferInstanceAs (Decidable (_ ∧ _))

/-- The next action of the operation that the process is in. -/
def run : Except InodeStop (InodeSys v P) :=
  match s.pc p with
  | .idle => .error .blocked
  | .ilockWait e => if (s.entry e).busy then .error .blocked else .ok (s.take p e (.ilockLoad e))
  | .ilockLoad e =>
    if (s.entry e).valid then .ok (s.goto p .idle)
    else if (s.disk (s.entry e).key).type = 0 then .error .ilockNoType
    else
      .ok (((s.setEntry e { s.entry e with valid := true, node := s.disk (s.entry e).key }).setDirty e
        false).goto p .idle)
  | .iunlock e =>
    .ok (((s.setEntry e { s.entry e with busy := false }).setLocks p e false).goto p .idle)
  | .iput e .trunc => .ok (((s.setNode e (s.entry e).node.truncated).writeBack e).goto p
      (.iput e .clear))
  | .iput e .clear =>
    .ok (((s.setNode e { (s.entry e).node with type := 0 }).writeBack e).goto p (.iput e .finish))
  | .iput e .finish =>
    .ok ((((s.setEntry e { s.entry e with busy := false, valid := false }).setLocks p e false).dropRef p
      e).goto p .idle)
  | .ialloc dev type inum =>
    if s.ninodes ≤ inum then .error .iallocNoInodes
    else if (s.disk (dev, inum)).type = 0 then
      .ok ((s.setDisk (dev, inum) (.blank type)).goto p (.iallocGet dev inum))
    else .ok (s.goto p (.ialloc dev type (inum + 1)))
  | .iallocGet dev inum => (s.iget p dev inum).map (·.goto p .idle)

def step (a : InodeAct v P) (s : InodeSys v P) : Except InodeStop (InodeSys v P) :=
  match a with
  | .iget p dev inum => if s.pc p = .idle then s.iget p dev inum else .error .blocked
  | .idup p e => if s.pc p = .idle ∧ 0 < s.refs p e then .ok (s.addRef p e) else .error .blocked
  | .ilock p e =>
    if s.pc p = .idle ∧ 0 < s.refs p e ∧ s.locks p e = false then
      if (s.entry e).ref < 1 then .error .ilock else .ok (s.goto p (.ilockWait e))
    else .error .blocked
  | .modify p e x =>
    if s.pc p = .idle ∧ s.locks p e = true ∧ x.type = (s.entry e).node.type then
      .ok ((s.setNode e x).setDirty e true)
    else .error .blocked
  | .iupdate p e => if s.pc p = .idle ∧ s.locks p e = true then .ok (s.writeBack e)
      else .error .blocked
  | .iunlock p e =>
    if s.pc p = .idle ∧ s.locks p e = true then
      if (s.entry e).busy = false ∨ (s.entry e).ref < 1 then .error .iunlock
      else .ok (s.goto p (.iunlock e))
    else .error .blocked
  | .iput p e =>
    if s.pc p = .idle ∧ 0 < s.refs p e ∧ (s.locks p e = true → 1 < s.refs p e) then
      if s.Frees e then
        if (s.entry e).busy then .error .iputBusy else .ok (s.take p e (.iput e .trunc))
      else .ok (s.dropRef p e)
    else .error .blocked
  | .give p q e =>
    if s.pc p = .idle ∧ 0 < s.refs p e ∧ (s.locks p e = true → 1 < s.refs p e) then
      .ok (s.giveRef p q e)
    else .error .blocked
  | .ialloc p dev type => if s.pc p = .idle then .ok (s.goto p (.ialloc dev type 1))
      else .error .blocked
  | .run p => s.run p

/-- The cache after `iinit`, over a disk that `mkfs` has made. -/
def init (n : ℕ) (disk : ℕ × ℕ → Dinode v) : InodeSys v P where
  ninodes := n
  entry _ := ⟨0, 0, 0, false, false, .blank 0⟩
  disk := disk
  pc _ := .idle
  refs _ _ := 0
  locks _ _ := false
  dirty _ := false

end InodeSys

end Xv6
