import Xv6.Proc.Table
import Xv6.Sys.Args

set_option autoImplicit false

/-! # `sys_getprocs` (`sysproc.c`, `proc.c`)

The caller passes a table and the number of its entries. `sys_getprocs` has `argptr` check
`sizeof(struct uproc) * max` bytes, a product of 32 bits; `getprocs` then stores an entry for each
process in use, up to `max` of them. The two bounds are the same only as long as the product does
not wrap round. -/

namespace Xv6

/-- `struct uproc`. -/
structure Uproc where
  pid : Word
  uid : Word
  gid : Word
  ppid : Word
  elapsedTicks : Word
  cpuTotalTicks : Word
  state : String
  size : Word
  name : String
  priority : ℕ
  deriving DecidableEq, Repr

abbrev Uproc.sizeof : ℕ := 96

/-- The names in `states`. -/
def ProcState.text : ProcState → String
  | .unused => "unused"
  | .embryo => "embryo"
  | .sleeping => "sleep "
  | .runnable => "runble"
  | .running => "run   "
  | .zombie => "zombie"

namespace PTable

/-- `getprocs` reports neither free slots nor processes that are being created. -/
def reported (pr : Proc) : Bool := pr.state ≠ .unused ∧ pr.state ≠ .embryo

def uproc (s : PTable) (p : Slot) : Uproc where
  pid := (s.proc p).pid
  uid := (s.proc p).uid
  gid := (s.proc p).gid
  ppid := match (s.proc p).parent with
    | some q => (s.proc q).pid
    | none => (s.proc p).pid
  elapsedTicks := s.ticks - (s.proc p).startTicks
  cpuTotalTicks := (s.proc p).cpuTicksTotal
  state := (s.proc p).state.text
  size := (s.proc p).sz
  name := (s.proc p).name
  priority := (s.proc p).priority

/-- The loop of `getprocs` over the slots `ps`, with `i` entries stored. -/
def getprocsLoop (s : PTable) (max : Int) : List Slot → ℕ → List Uproc
  | [], _ => []
  | p :: ps, i =>
    if max ≤ i then []
    else if reported (s.proc p) then s.uproc p :: getprocsLoop s max ps (i + 1)
    else getprocsLoop s max ps i

/-- The entries that `getprocs` stores, from the first of the table on. -/
def getprocs (s : PTable) (max : Int) : List Uproc := getprocsLoop s max (List.finRange nproc) 0

/-- The processes that `getprocs` may report. -/
def reportedCount (s : PTable) : ℕ := (List.finRange nproc).countP fun p => reported (s.proc p)

theorem length_getprocsLoop (s : PTable) (max : Int) (ps : List Slot) (i : ℕ) :
    (getprocsLoop s max ps i).length =
      min (ps.countP fun p => reported (s.proc p)) (max - i).toNat := by
  induction ps generalizing i with
  | nil => simp [getprocsLoop]
  | cons p ps ih =>
    rw [getprocsLoop, List.countP_cons]
    by_cases hmax : max ≤ i
    · rw [if_pos hmax, List.length_nil]
      omega
    by_cases hp : reported (s.proc p) = true
    · rw [if_neg hmax, if_pos hp, if_pos hp, List.length_cons, ih]
      omega
    · rw [if_neg hmax, if_neg hp, if_neg hp, ih, Nat.add_zero]

theorem length_getprocs (s : PTable) (max : Int) :
    (s.getprocs max).length = min s.reportedCount max.toNat := by
  rw [getprocs, length_getprocsLoop, reportedCount]
  simp

end PTable

variable (p : UserProc)

/-- The checks of `sys_getprocs`: `max` and the table. -/
def sysGetprocsArgs : Option (Word × Word) := do
  let max ← p.argint 0
  let table ← p.argptr 1 (.ofNat 32 Uproc.sizeof * max)
  some (max, table)

variable (s : PTable)

/-- The entries that a call stores, each with its address. -/
def sysGetprocs : List (Word × Uproc) :=
  match sysGetprocsArgs p with
  | none => []
  | some (max, table) =>
    (s.getprocs max.toInt).zipIdx.map fun x => (table + .ofNat 32 (Uproc.sizeof * x.2), x.1)

/-- Every entry that the call stores lies in the process's memory. -/
def GetprocsConfined : Prop :=
  ∀ x ∈ sysGetprocs p s, x.1.toNat + Uproc.sizeof ≤ p.sz.toNat

/-- The size of the table wraps round, and there are more processes than the process has room
    for. -/
def GetprocsOverruns : Prop :=
  ∃ max table, sysGetprocsArgs p = some (max, table) ∧ 0 < max.toInt ∧
    2 ^ 32 ≤ table.toNat + Uproc.sizeof * max.toNat ∧
    p.sz.toNat < table.toNat + Uproc.sizeof * min s.reportedCount max.toNat

theorem argptr_of_sysGetprocsArgs {p : UserProc} {max table : Word}
    (h : sysGetprocsArgs p = some (max, table)) :
    p.argptr 1 (.ofNat 32 Uproc.sizeof * max) = some table := by
  unfold sysGetprocsArgs at h
  simp only [Option.bind_eq_bind, Option.bind_eq_some_iff] at h
  obtain ⟨max', -, table', htable, h⟩ := h
  cases h
  exact htable

theorem reportedCount_le : s.reportedCount ≤ nproc := by
  have := List.countP_le_length (p := fun p => PTable.reported (s.proc p))
      (l := List.finRange nproc)
  rwa [List.length_finRange] at this

/-- The addresses of the entries. -/
theorem mem_sysGetprocs {p : UserProc} {s : PTable} {max table : Word} (hsz : p.sz.toNat < kernbase)
    (hargs : sysGetprocsArgs p = some (max, table)) (a : ℕ) :
    (∃ x ∈ sysGetprocs p s, x.1.toNat = a) ↔
      ∃ i < min s.reportedCount max.toInt.toNat, a = table.toNat + Uproc.sizeof * i := by
  have htable := (argptr_bounds (argptr_of_sysGetprocsArgs hargs)).1
  have haddr (i : ℕ) (hi : i < min s.reportedCount max.toInt.toNat) :
      (table + .ofNat 32 (Uproc.sizeof * i)).toNat = table.toNat + Uproc.sizeof * i := by
    have hcount := reportedCount_le s
    simp only [nproc, kernbase, Uproc.sizeof] at *
    rw [BitVec.toNat_add, BitVec.toNat_ofNat]
    omega
  have hlen := s.length_getprocs max.toInt
  simp only [sysGetprocs, hargs, List.mem_map]
  constructor
  · rintro ⟨_, ⟨⟨u, i⟩, hi, rfl⟩, rfl⟩
    have hlt := (List.getElem?_eq_some_iff.1 (List.mem_zipIdx_iff_getElem?.1 hi)).1
    exact ⟨i, hlen ▸ hlt, haddr i (hlen ▸ hlt)⟩
  · rintro ⟨i, hi, rfl⟩
    have hlt : i < (s.getprocs max.toInt).length := hlen ▸ hi
    exact ⟨_, ⟨((s.getprocs max.toInt)[i], i), List.mem_zipIdx_iff_getElem?.2 (by simp [hlt]), rfl⟩,
      haddr i hi⟩

/-- A call is confined unless the size of the table wraps round and the entries it stores, one for
    each process in use, reach beyond the memory of the caller. -/
theorem sysGetprocs_confined (hsz : p.sz.toNat < kernbase) :
    GetprocsConfined p s ↔ ¬GetprocsOverruns p s := by
  constructor
  · rintro hall ⟨max, table, hargs, hpos, -, hover⟩
    have hmax : max.toInt.toNat = max.toNat := by
      rw [BitVec.toInt_eq_toNat_cond] at hpos ⊢
      split_ifs at hpos ⊢ <;> omega
    -- The last entry reaches beyond the end.
    have htable := (argptr_bounds (argptr_of_sysGetprocsArgs hargs)).1
    have hsome : 0 < min s.reportedCount max.toInt.toNat := by
      rw [hmax]
      simp only [Uproc.sizeof] at hover
      omega
    obtain ⟨x, hx, haddr⟩ := (mem_sysGetprocs (s := s) hsz hargs _).2
      ⟨min s.reportedCount max.toInt.toNat - 1, by omega, rfl⟩
    have hin := hall x hx
    rw [haddr, hmax] at hin
    rw [hmax] at hsome
    simp only [Uproc.sizeof] at hin hover
    omega
  · intro hnot x hx
    cases hargs : sysGetprocsArgs p with
    | none => simp [sysGetprocs, hargs] at hx
    | some args =>
      obtain ⟨max, table⟩ := args
      obtain ⟨i, hi, haddr⟩ := (mem_sysGetprocs hsz hargs _).1 ⟨x, hx, rfl⟩
      have hbound := (argptr_bounds (argptr_of_sysGetprocsArgs hargs)).2
      have hpos : 0 < max.toInt := by omega
      have hmax : max.toInt.toNat = max.toNat := by
        rw [BitVec.toInt_eq_toNat_cond] at hpos ⊢
        split_ifs at hpos ⊢ <;> omega
      by_cases hwrap : 2 ^ 32 ≤ table.toNat + Uproc.sizeof * max.toNat
      · have hfit := not_lt.1 fun hover => hnot ⟨max, table, hargs, hpos, hwrap, hover⟩
        rw [haddr]
        rw [hmax] at hi
        simp only [Uproc.sizeof] at *
        omega
      · rw [haddr]
        rw [hmax] at hi
        rw [BitVec.toNat_mul, BitVec.toNat_ofNat] at hbound
        simp only [Uproc.sizeof] at *
        omega

/-- A process of one page whose stack begins at 0 and holds the two arguments. -/
def getprocsCaller (max table : Word) : UserProc where
  sz := 4096
  esp := 0
  mem addr := ([0, 0, 0, 0] ++ max.bytes ++ table.bytes).getD addr.toNat 0

/-- The caller is the only process. -/
def callerAlone : PTable := (PTable.zero 0).setState 0 .running

theorem sysGetprocs_confined_oneEntry : GetprocsConfined (getprocsCaller 1 0) callerAlone := by
  refine (sysGetprocs_confined _ _ (by decide)).2 ?_
  rintro ⟨max, table, hargs, -, hwrap, -⟩
  have hone : sysGetprocsArgs (getprocsCaller 1 0) = some (1, 0) := rfl
  rw [hone] at hargs
  cases hargs
  exact absurd hwrap (by decide)

/-- `96 * 2 ^ 27` is `3 * 2 ^ 32`: a table of no bytes, at the last byte of the caller's memory. -/
theorem sysGetprocs_wraps :
    (sysGetprocs (getprocsCaller 0x8000000 4095) callerAlone).map Prod.fst = [4095] ∧
      (getprocsCaller 0x8000000 4095).sz = 4096 ∧
      ¬GetprocsConfined (getprocsCaller 0x8000000 4095) callerAlone := by
  have haddr : (sysGetprocs (getprocsCaller 0x8000000 4095) callerAlone).map Prod.fst = [4095] := by
    decide +kernel
  refine ⟨haddr, rfl, fun hall => ?_⟩
  obtain ⟨x, hx, hx4095⟩ := List.mem_map.1 (haddr ▸ List.mem_singleton_self (4095 : Word))
  have hin := hall x hx
  rw [hx4095] at hin
  exact absurd hin (by decide)

end Xv6
