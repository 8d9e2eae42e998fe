import Xv6.Vm.Exec
import Xv6.Vm.Load

set_option autoImplicit false

/-! # User buffers of `read` (`syscall.c`, `sysfile.c`, `file.c`)

A system call takes its arguments from the user's stack. `argptr` checks that a buffer lies in the
process's memory by comparing its end, computed in 32 bits, with the size of the process; the length
is an `int` that may be negative. `sys_read` hands pointer and length on to `fileread`, and each
kind of file treats a negative length in its own way.

The model of a call records the user bytes that the kernel stores. What a pipe holds when the copy
begins, and the characters that arrive at the console until the process is killed, are arguments. -/

namespace Xv6

/-- What the argument functions read of the calling process. -/
structure UserProc where
  sz : Word
  esp : Word
  mem : Word → Byte

namespace UserProc

def fetchint (p : UserProc) (addr : Word) : Option Word :=
  if p.sz ≤ addr ∨ p.sz < addr + 4 then none
  else some (p.mem (addr + 3) ++ p.mem (addr + 2) ++ p.mem (addr + 1) ++ p.mem addr)

def argint (p : UserProc) (n : ℕ) : Option Word := p.fetchint (p.esp + 4 + .ofNat 32 (4 * n))

/-- The sum of the pointer and the `int` is an unsigned one. -/
def argptr (p : UserProc) (n : ℕ) (size : Word) : Option Word := do
  let i ← p.argint n
  if p.sz ≤ i ∨ p.sz < i + size then none else some i

end UserProc

/-! ## Files -/

/-- What `fileread` finds behind a file. -/
inductive ReadSource
  | none
  /-- What the pipe holds when `piperead` begins to copy; `none` if the process is killed before. -/
  | pipe (found : Option (List Byte))
  | file (f : Content) (off : Word)
  /-- A device whose driver reads from the console, or one without a driver for reading. -/
  | dev (input : Option (List Byte))

structure OpenFile where
  readable : Bool
  source : ReadSource

inductive ReadPanic
  | fileread
  deriving DecidableEq, Repr

/-- The value that a call returns, and the user bytes that it stores. -/
abbrev Stored := Int × List (Word × Byte)

/-- Bytes stored one after the other from `dst` on. -/
def storesAt (dst : Word) (bytes : List Byte) : List (Word × Byte) :=
  bytes.zipIdx.map fun x => (dst + .ofNat 32 x.2, x.1)

def piperead (found : Option (List Byte)) (addr n : Word) : Stored :=
  match found with
  | none => (-1, [])
  | some data => ((data.take n.toInt.toNat).length, storesAt addr (data.take n.toInt.toNat))

/-- The characters that `consoleread` stores, and whether it returns before the process is killed: a
    line ends after its newline, the input at `^D`. -/
def consoleTake : List Byte → ℕ → Bool × List Byte
  | _, 0 => (true, [])
  | [], _ + 1 => (false, [])
  | c :: input, n + 1 =>
    if c = 0x04 then (true, [])
    else if c = 0x0a then (true, [c])
    else ((consoleTake input n).1, c :: (consoleTake input n).2)

def consoleread (input : List Byte) (dst n : Word) : Stored :=
  let (ok, chars) := consoleTake input n.toInt.toNat
  (if ok then chars.length else -1, storesAt dst chars)

def fileread (f : OpenFile) (addr n : Word) : Except ReadPanic Stored :=
  if f.readable = false then .ok (-1, [])
  else
    match f.source with
    | .pipe found => .ok (piperead found addr n)
    | .file c off => .ok ((c.readi off n).1, storesAt addr (c.readi off n).2)
    | .dev (some input) => .ok (consoleread input addr n)
    | .dev none => .ok (-1, [])
    | .none => .error .fileread

/-! ## `sys_read` -/

/-- The descriptor table of a process. -/
abbrev Ofile := Fin nofile → Option OpenFile

def argfd (p : UserProc) (ofile : Ofile) (n : ℕ) : Option OpenFile := do
  let fd ← p.argint n
  if h : 0 ≤ fd.toInt ∧ fd.toInt.toNat < nofile then ofile ⟨fd.toInt.toNat, h.2⟩ else none

/-- The checks of `sys_read`: the file, the buffer and the length. -/
def sysReadArgs (p : UserProc) (ofile : Ofile) : Option (OpenFile × Word × Word) := do
  let f ← argfd p ofile 0
  let n ← p.argint 2
  let ptr ← p.argptr 1 n
  some (f, ptr, n)

def sysRead (p : UserProc) (ofile : Ofile) : Except ReadPanic Stored :=
  match sysReadArgs p ofile with
  | none => .ok (-1, [])
  | some (f, ptr, n) => fileread f ptr n

/-! ## Which calls stay inside the buffer -/

theorem mem_storesAt {dst : Word} {bytes : List Byte} {x : Word × Byte}
    (h : x ∈ storesAt dst bytes) :
    ∃ i < bytes.length, x.1 = dst + .ofNat 32 i := by
  obtain ⟨⟨b, i⟩, hi, rfl⟩ := List.mem_map.1 h
  exact ⟨i, (List.getElem?_eq_some_iff.1 (List.mem_zipIdx_iff_getElem?.1 hi)).1, rfl⟩

theorem storesAt_ne_nil (dst : Word) {bytes : List Byte} (h : bytes ≠ []) :
    storesAt dst bytes ≠ [] := by
  simpa [storesAt] using h

theorem length_consoleTake (input : List Byte) (n : ℕ) : (consoleTake input n).2.length ≤ n := by
  fun_induction consoleTake input n <;> simp_all

/-- A negative length that `readi` takes for a very large one: the sum with the offset does not wrap
    round, and the file does not end at the offset. -/
def Overreads (f : OpenFile) (n : Word) : Prop :=
  f.readable = true ∧ n.toInt < 0 ∧
    ∃ c off, f.source = .file c off ∧ off.toNat < c.bytes.length ∧ (off.toNat : Int) < -n.toInt

/-- The number of bytes that `readi` stores. -/
theorem length_readi (c : Content) (off n : Word) :
    (c.readi off n).2.length =
      if c.bytes.length < off.toNat ∨ 2 ^ 32 ≤ off.toNat + n.toNat then 0
      else min (c.bytes.length - off.toNat) n.toNat := by
  have hoff := off.isLt
  have hn := n.isLt
  have hwrap : off + n < off ↔ 2 ^ 32 ≤ off.toNat + n.toNat := by
    rw [BitVec.lt_def, BitVec.toNat_add]
    omega
  unfold Content.readi
  simp only [hwrap]
  by_cases hrefused : c.bytes.length < off.toNat ∨ 2 ^ 32 ≤ off.toNat + n.toNat
  · rw [if_pos hrefused, if_pos hrefused]
    rfl
  · rw [if_neg hrefused, if_neg hrefused]
    simp only [List.length_take, List.length_drop]
    rw [BitVec.toNat_add]
    split_ifs <;> omega

/-- The bytes that a read of length `n` stores. -/
def OpenFile.stored (f : OpenFile) (n : Word) : List Byte :=
  if f.readable = false then []
  else
    match f.source with
    | .pipe (some data) => data.take n.toInt.toNat
    | .file c off => (c.readi off n).2
    | .dev (some input) => (consoleTake input n.toInt.toNat).2
    | .pipe none | .dev none | .none => []

variable {f : OpenFile}

theorem fileread_stores {addr n : Word} {r : Int} {stores : List (Word × Byte)}
    (h : fileread f addr n = .ok (r, stores)) : stores = storesAt addr (f.stored n) := by
  unfold fileread at h
  unfold OpenFile.stored
  split_ifs at h ⊢
  · cases h
    rfl
  · cases hsource : f.source with
    | none => simp [hsource] at h
    | file c off => simp [hsource] at h; simp [h]
    | pipe found =>
      cases found with
      | none => simp [hsource, piperead] at h; simp [h, storesAt]
      | some data => simp [hsource, piperead] at h; simp [h]
    | dev input =>
      cases input with
      | none => simp [hsource] at h; simp [h, storesAt]
      | some input => simp [hsource, consoleread] at h; simp [h]

theorem length_stored {n : Word} (h : ¬Overreads f n) :
    (f.stored n).length ≤ n.toInt.toNat := by
  unfold OpenFile.stored
  split_ifs with hreadable
  · exact Nat.zero_le _
  cases hsource : f.source with
  | none => exact Nat.zero_le _
  | pipe found =>
    cases found with
    | none => exact Nat.zero_le _
    | some data => exact List.length_take_le _ _
  | dev input =>
    cases input with
    | none => exact Nat.zero_le _
    | some input => exact length_consoleTake input _
  | file c off =>
    have hin : ¬(n.toInt < 0 ∧ off.toNat < c.bytes.length ∧ (off.toNat : Int) < -n.toInt) :=
      fun ⟨hneg, hlt⟩ => h ⟨by simpa using hreadable, hneg, c, off, hsource, hlt⟩
    have hn := n.isLt
    dsimp only
    rw [length_readi]
    rw [BitVec.toInt_eq_toNat_cond] at hin ⊢
    split_ifs at hin ⊢ <;> omega

theorem stored_ne_nil {n : Word} (h : Overreads f n) : f.stored n ≠ [] := by
  obtain ⟨hreadable, hneg, c, off, hsource, hlt, hoff⟩ := h
  have hn := n.isLt
  have hlen : 0 < (c.readi off n).2.length := by
    rw [length_readi]
    rw [BitVec.toInt_eq_toNat_cond] at hneg hoff
    split_ifs at hneg hoff ⊢ <;> omega
  simpa [OpenFile.stored, hreadable, hsource] using List.ne_nil_of_length_pos hlen

variable {p : UserProc}

theorem argptr_bounds {n : ℕ} {size i : Word} (h : p.argptr n size = some i) :
    i.toNat < p.sz.toNat ∧ (i.toNat + size.toNat) % 2 ^ 32 ≤ p.sz.toNat := by
  unfold UserProc.argptr at h
  cases harg : p.argint n with
  | none => simp [harg] at h
  | some j =>
    simp only [harg, Option.bind_eq_bind, Option.bind_some] at h
    split_ifs at h with hbad
    cases h
    rw [not_or, BitVec.not_le, BitVec.not_lt, BitVec.lt_def, BitVec.le_def,
      BitVec.toNat_add] at hbad
    exact hbad

/-- The buffer that has passed the checks lies in the process's memory, if its length is not
    negative. -/
theorem argptr_within {n : ℕ} {size i : Word} (hsz : p.sz.toNat < kernbase)
    (h : p.argptr n size = some i) (hpos : 0 ≤ size.toInt) :
    i.toNat + size.toInt.toNat ≤ p.sz.toNat := by
  obtain ⟨hstart, hend⟩ := argptr_bounds h
  have hsize := size.isLt
  simp only [kernbase] at hsz
  rw [BitVec.toInt_eq_toNat_cond] at hpos ⊢
  split_ifs at hpos ⊢ <;> omega

theorem argptr_of_sysReadArgs {ofile : Ofile} {ptr n : Word}
    (h : sysReadArgs p ofile = some (f, ptr, n)) : p.argptr 1 n = some ptr := by
  unfold sysReadArgs at h
  simp only [Option.bind_eq_bind, Option.bind_eq_some_iff] at h
  obtain ⟨f', -, n', -, ptr', hptr, h⟩ := h
  cases h
  exact hptr

/-- Every user byte that `sys_read` stores lies in the buffer and in the process's memory. -/
def ReadConfined (p : UserProc) (ofile : Ofile) : Prop :=
  ∀ f ptr n r stores, sysReadArgs p ofile = some (f, ptr, n) → sysRead p ofile = .ok (r, stores) →
    ∀ x ∈ stores, 0 ≤ n.toInt ∧ ptr.toNat ≤ x.1.toNat ∧ x.1.toNat < ptr.toNat + n.toInt.toNat ∧
      x.1.toNat < p.sz.toNat

/-- A call is confined unless it reads from a file with a negative length that `readi` takes for a
    length: in that case the rest of the file is stored, whatever the size of the process. -/
theorem sysRead_confined (p : UserProc) (ofile : Ofile) (hsz : p.sz.toNat < kernbase) :
    ReadConfined p ofile ↔
      ¬∃ f ptr n, sysReadArgs p ofile = some (f, ptr, n) ∧ Overreads f n := by
  constructor
  · rintro hall ⟨f, ptr, n, hargs, hover⟩
    have hread : sysRead p ofile = fileread f ptr n := by simp [sysRead, hargs]
    have hne := storesAt_ne_nil ptr (stored_ne_nil hover)
    obtain ⟨hreadable, hneg, c, off, hsource, -⟩ := hover
    have hok : fileread f ptr n = .ok ((c.readi off n).1, storesAt ptr (c.readi off n).2) := by
      simp [fileread, hreadable, hsource]
    rw [← fileread_stores hok] at hne
    obtain ⟨x, hx⟩ := List.exists_mem_of_ne_nil _ hne
    have := (hall f ptr n _ _ hargs (hread.trans hok) x hx).1
    omega
  · intro hnot f ptr n r stores hargs hread x hx
    have hlen := length_stored fun hover => hnot ⟨f, ptr, n, hargs, hover⟩
    simp only [sysRead, hargs] at hread
    rw [fileread_stores hread] at hx
    obtain ⟨i, hi, haddr⟩ := mem_storesAt hx
    have hwithin := argptr_within hsz (argptr_of_sysReadArgs hargs) (by omega)
    have htoNat : x.1.toNat = ptr.toNat + i := by
      simp only [kernbase] at hsz
      rw [haddr, BitVec.toNat_add, BitVec.toNat_ofNat]
      omega
    omega

/-- A process of one page whose stack begins at 0 and holds `fd` 3, the address of the last byte and
    the length `n`. -/
def onePage (n : Word) : UserProc where
  sz := 4096
  esp := 0
  mem addr := ([0, 0, 0, 0, 3, 0, 0, 0, 0xff, 0x0f, 0, 0] ++ n.bytes).getD addr.toNat 0

/-- Descriptor 3 is a file of two bytes, at its beginning. -/
def twoBytes : Ofile := fun fd =>
  if fd = 3 then some ⟨true, .file ⟨[1, 2], by decide⟩ 0⟩ else none

theorem sysRead_confined_oneByte : ReadConfined (onePage 1) twoBytes := by
  refine (sysRead_confined (onePage 1) twoBytes (by decide)).2 ?_
  rintro ⟨f, ptr, n, hargs, -, hneg, -⟩
  have hone : sysReadArgs (onePage 1) twoBytes =
      some (⟨true, .file ⟨[1, 2], by decide⟩ 0⟩, 4095, 1) := rfl
  rw [hone] at hargs
  cases hargs
  exact absurd hneg (by decide)

theorem sysRead_negative :
    sysRead (onePage (-1)) twoBytes = .ok (2, [(4095, 1), (4096, 2)]) ∧ (onePage (-1)).sz = 4096 ∧
      ¬ReadConfined (onePage (-1)) twoBytes := by
  have hread : sysRead (onePage (-1)) twoBytes = .ok (2, [(4095, 1), (4096, 2)]) := rfl
  have hargs : sysReadArgs (onePage (-1)) twoBytes =
      some (⟨true, .file ⟨[1, 2], by decide⟩ 0⟩, 4095, -1) := rfl
  refine ⟨hread, rfl, fun hall => ?_⟩
  have hout := (hall _ _ _ _ _ hargs hread (4096, 2) (by decide)).2.2.2
  exact absurd hout (by decide)

end Xv6
