import Mathlib.Algebra.GroupWithZero.Nat

set_option autoImplicit false

/-! # Kernel parameters (`param.h`, `fs.h`)

The constants of `param.h` and `fs.h` that the modelled parts of the kernel read, and the type of a
32-bit machine word. -/

namespace Xv6

/-- A C `uint`, and an `int` in two's complement. -/
abbrev Word := BitVec 32

abbrev Byte := BitVec 8

/-- Maximum number of processes. -/
abbrev nproc : ℕ := 64

/-- Open files per process, and per system. -/
abbrev nofile : ℕ := 16
abbrev nfile : ℕ := 100

/-- Maximum number of active inodes. -/
abbrev ninode : ℕ := 50

/-- Lowest scheduling priority; 0 is the highest. -/
abbrev maxPrio : ℕ := 6

/-- Ticks between two promotions of all processes. -/
def ticksToPromote : Word := 500

/-- Ticks a process of priority 0 may use before it is demoted. -/
def budget : Word := 100

/-- Maximum number of blocks any file system operation writes. -/
abbrev maxOpBlocks : ℕ := 10

/-- Maximum number of data blocks in the on-disk log. -/
abbrev logSize : ℕ := maxOpBlocks * 3

/-- Size of the disk block cache. -/
abbrev nbuf : ℕ := maxOpBlocks * 3

/-- Size of the file system in blocks. -/
abbrev fsSize : ℕ := 2000

/-- First block of the log on a disk made by `mkfs`, after the boot block and the superblock. -/
abbrev logStart : ℕ := 2

/-- Bytes in a disk block. -/
abbrev bsize : ℕ := 512

/-- 32-bit words in a disk block. -/
abbrev blockWords : ℕ := 128

instance : NeZero nproc := ⟨by decide⟩

instance : NeZero ninode := ⟨by decide⟩

instance (priority := high) : NeZero (maxPrio + 1) := ⟨by decide⟩

instance : NeZero blockWords := ⟨by decide⟩

end Xv6
