import Xv6.Fs.Log

set_option autoImplicit false

/-! # Inodes and file contents (`fs.c`, `filewrite` of `file.c`)

The state of the file system is what `bread` sees of each block, together with the blocks that have
been handed to `log_write` since `begin_op`. Block numbers on the disk are 32-bit words.

`balloc` scans the bitmap by two nested loops, which together visit the block numbers below
`sb.size` in order; it is written as one search. `bmap` keeps the indirect block in a held buffer
across the call of `balloc`, so it stores the new entry into the contents that it read before the
call.

The sums `off + m` and `tot + m` in the loop of `writei` stay below `MAXFILE*BSIZE`, because of the
check before it, and are natural numbers here; the checks themselves are made on words. The loops
take fuel, of which each pass uses one unit and at least one byte. -/

namespace Xv6

open Function

/-- Whether the kernel is built with `CS333_P5`, on which the layout of an inode depends. -/
inductive FsBuild
  | p5
  | earlier
  deriving DecidableEq, Repr

/-- `NDIRECT`. -/
def FsBuild.ndirect : FsBuild → ℕ
  | .p5 => 10
  | .earlier => 12

instance (priority := high) (v : FsBuild) : NeZero (v.ndirect + 1) := ⟨Nat.succ_ne_zero _⟩

/-- `NINDIRECT`. -/
abbrev nindirect : ℕ := blockWords

/-- `MAXFILE`. -/
def FsBuild.maxFile (v : FsBuild) : ℕ := v.ndirect + nindirect

/-- Bits of the free map in a block. -/
abbrev bpb : ℕ := bsize * 8

/-- Words in a `struct dinode`, and inodes in a block. -/
abbrev dinodeWords : ℕ := 16
abbrev ipb : ℕ := 8

abbrev ndev : ℕ := 10
def tDev : BitVec 16 := 3

/-- The fields of `struct superblock` that are read here. -/
structure Superblock where
  size : ℕ
  inodestart : ℕ
  bmapstart : ℕ
  deriving DecidableEq, Repr

/-- `struct inode`, without its place in the inode cache. -/
structure Inode (v : FsBuild) where
  inum : ℕ
  type : BitVec 16
  major : BitVec 16
  minor : BitVec 16
  nlink : BitVec 16
  uid : BitVec 16
  gid : BitVec 16
  mode : Word
  size : Word
  addrs : Fin (v.ndirect + 1) → Word

structure Fs where
  sb : Superblock
  /-- The contents of the blocks, as `bread` sees them. -/
  blocks : ℕ → Block
  /-- The calls of `log_write` since `begin_op`. -/
  logged : List ℕ

/-- The stops of the kernel in the modelled functions. -/
inductive FsPanic
  | outOfBlocks
  | outOfRange
  | shortFilewrite
  deriving DecidableEq, Repr

/-! ## Blocks as bytes -/

namespace Block

def byte (blk : Block) (i : ℕ) : BitVec 8 := (blk.word (i / 4)).extractLsb' (8 * (i % 4)) 8

/-- `memmove` of `m` bytes of `src` to offset `o` of a block. -/
def copyIn (blk : Block) (o m : ℕ) (src : ℕ → BitVec 8) : Block := fun w =>
  let b (j : ℕ) : BitVec 8 :=
    if o ≤ 4 * w.val + j ∧ 4 * w.val + j < o + m then src (4 * w.val + j - o)
    else blk.byte (4 * w.val + j)
  b 3 ++ b 2 ++ b 1 ++ b 0

end Block

namespace Inode

variable {v : FsBuild}

/-- The `j`-th word of the `struct dinode` of an inode. -/
def dinode (ip : Inode v) (j : ℕ) : Word :=
  let rest : ℕ → Word := fun k => if k = 0 then ip.size else ip.addrs (Fin.ofNat _ (k - 1))
  match j with
  | 0 => ip.major ++ ip.type
  | 1 => ip.nlink ++ ip.minor
  | j + 2 =>
    match v with
    | .p5 =>
      match j with
      | 0 => ip.gid ++ ip.uid
      | 1 => ip.mode
      | j + 2 => rest j
    | .earlier => rest j

/-- `IBLOCK`. -/
def iblock (sb : Superblock) (ip : Inode v) : ℕ := ip.inum / ipb + sb.inodestart

end Inode

namespace Fs

variable {v : FsBuild}

/-- `log_write` of a block that now holds `data`. -/
def logWrite (b : ℕ) (data : Block) (fs : Fs) : Fs :=
  { fs with blocks := update fs.blocks b data, logged := fs.logged ++ [b] }

/-! ## Allocation -/

/-- `BBLOCK`. -/
def bblock (sb : Superblock) (b : ℕ) : ℕ := b / bpb + sb.bmapstart

/-- The bit of the free map for block `b`. -/
def used (fs : Fs) (b : ℕ) : Bool :=
  ((fs.blocks (bblock fs.sb b)).word (b % bpb / 32)).getLsbD (b % 32)

/-- The bitmap block with the bit for block `b` set. -/
def markUsed (blk : Block) (b : ℕ) : Block := fun i =>
  if i.val = b % bpb / 32 then blk i ||| BitVec.twoPow 32 (b % 32) else blk i

def bzero (b : ℕ) (fs : Fs) : Fs := fs.logWrite b (fun _ => 0)

def balloc (fs : Fs) : Except FsPanic (Word × Fs) :=
  match (List.range fs.sb.size).find? (fun b => !fs.used b) with
  | some b =>
    let bitmap := bblock fs.sb b
    .ok (BitVec.ofNat 32 b, bzero b (fs.logWrite bitmap (markUsed (fs.blocks bitmap) b)))
  | none => .error .outOfBlocks

/-- The part of `bmap` that allocates the indirect block if necessary. -/
def loadIndirect (ip : Inode v) (fs : Fs) : Except FsPanic (Inode v × Fs) :=
  if ip.addrs (Fin.last _) = 0 then do
    let (addr, fs) ← balloc fs
    .ok ({ ip with addrs := update ip.addrs (Fin.last _) addr }, fs)
  else .ok (ip, fs)

/-- `bmap`: the block number for block `bn` of the file, allocated if necessary. -/
def bmap (ip : Inode v) (bn : ℕ) (fs : Fs) : Except FsPanic (Word × Inode v × Fs) :=
  if bn < v.ndirect then
    if ip.addrs (Fin.ofNat _ bn) = 0 then do
      let (addr, fs) ← balloc fs
      .ok (addr, { ip with addrs := update ip.addrs (Fin.ofNat _ bn) addr }, fs)
    else .ok (ip.addrs (Fin.ofNat _ bn), ip, fs)
  else if bn - v.ndirect < nindirect then do
    let (ip, fs) ← loadIndirect ip fs
    let indirect := (ip.addrs (Fin.last _)).toNat
    let a := fs.blocks indirect
    if a.word (bn - v.ndirect) = 0 then do
      let (addr, fs) ← balloc fs
      .ok (addr, ip, fs.logWrite indirect (update a (Fin.ofNat _ (bn - v.ndirect)) addr))
    else .ok (a.word (bn - v.ndirect), ip, fs)
  else .error .outOfRange

/-! ## Writing -/

def iupdate (ip : Inode v) (fs : Fs) : Fs :=
  let b := ip.iblock fs.sb
  fs.logWrite b (fun i =>
    if i.val / dinodeWords = ip.inum % ipb then ip.dinode (i.val % dinodeWords) else fs.blocks b i)

/-- The loop of `writei`; also the offset at its end. -/
def writeLoop (src : ℕ → BitVec 8) (n : ℕ) :
    ℕ → (tot off : ℕ) → Inode v → Fs → Except FsPanic (ℕ × Inode v × Fs)
  | 0, _, off, ip, fs => .ok (off, ip, fs)
  | fuel + 1, tot, off, ip, fs =>
    if tot < n then do
      let (addr, ip, fs) ← bmap ip (off / bsize) fs
      let m := min (n - tot) (bsize - off % bsize)
      let data := (fs.blocks addr.toNat).copyIn (off % bsize) m (fun k => src (tot + k))
      writeLoop src n fuel (tot + m) (off + m) ip (fs.logWrite addr.toNat data)
    else .ok (off, ip, fs)

/-- The functions that `devsw` has for writing, as what they return for a number of bytes. -/
abbrev Devsw := ℕ → Option (Word → Int)

def writei (devsw : Devsw) (ip : Inode v) (src : ℕ → BitVec 8) (off n : Word) (fs : Fs) :
    Except FsPanic (Int × Inode v × Fs) :=
  if ip.type = tDev then
    if ip.major.toInt < 0 ∨ ndev ≤ ip.major.toInt then .ok (-1, ip, fs)
    else
      match devsw ip.major.toNat with
      | some write => .ok (write n, ip, fs)
      | none => .ok (-1, ip, fs)
  else if ip.size < off ∨ off + n < off then .ok (-1, ip, fs)
  else if v.maxFile * bsize < (off + n).toNat then .ok (-1, ip, fs)
  else do
    let (off, ip, fs) ← writeLoop src n.toNat n.toNat 0 off.toNat ip fs
    if 0 < n.toNat ∧ ip.size.toNat < off then
      let ip := { ip with size := BitVec.ofNat 32 off }
      .ok (n.toNat, ip, iupdate ip fs)
    else .ok (n.toNat, ip, fs)

/-- The bytes that `filewrite` writes in one operation at most. -/
def maxChunk : ℕ := (logSize - 1 - 1 - 2) / 2 * 512

/-- What `filewrite` writes in the operation that begins after `i` of its `n` bytes. -/
def chunk (n i : ℕ) : ℕ := min (n - i) maxChunk

/-- One operation of `filewrite` on an inode, from `begin_op` to `end_op`. -/
def filewriteOp (devsw : Devsw) (src : ℕ → BitVec 8) (n i : ℕ) (off : Word) (ip : Inode v)
    (fs : Fs) : Except FsPanic (Int × Word × Inode v × Fs) := do
  let (r, ip, fs) ← writei devsw ip (fun k => src (i + k)) off (BitVec.ofNat 32 (chunk n i))
    { fs with logged := [] }
  .ok (r, if 0 < r then off + BitVec.ofInt 32 r else off, ip, fs)

/-- The loop of `filewrite` on an inode, with what it returns. -/
def filewriteLoop (devsw : Devsw) (src : ℕ → BitVec 8) (n : ℕ) :
    ℕ → (i : ℕ) → Word → Inode v → Fs → Except FsPanic (Int × Word × Inode v × Fs)
  | 0, i, off, ip, fs => .ok (if i = n then n else -1, off, ip, fs)
  | fuel + 1, i, off, ip, fs =>
    if i < n then do
      let (r, off, ip, fs) ← filewriteOp devsw src n i off ip fs
      if r < 0 then .ok (-1, off, ip, fs)
      else if r ≠ chunk n i then .error .shortFilewrite
      else filewriteLoop devsw src n fuel (i + chunk n i) off ip fs
    else .ok (if i = n then n else -1, off, ip, fs)

end Fs

end Xv6
