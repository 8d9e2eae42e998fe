import Mathlib.Logic.Function.Basic
import Xv6.Param

set_option autoImplicit false

/-! # The user memory allocator (`umalloc.c`)

The free blocks form a circular list of headers, which `malloc` searches for a block of enough units
and `morecore` extends by what `sbrk` returns. A unit is the eight bytes of a header; headers are
named by their addresses, and all arithmetic on sizes and addresses is that of 32-bit words. -/

namespace Xv6.Malloc

open Function

structure Header where
  ptr : Word
  size : Word

/-- The allocator's memory, and the arguments of the calls of `sbrk` so far, the last one first. -/
structure Heap where
  header : Word → Header
  freep : Word
  asked : List Word

/-- `p + n` for a pointer to headers. -/
def offset (p n : Word) : Word := p + n * 8

namespace Heap

def setPtr (h : Heap) (p ptr : Word) : Heap :=
  { h with header := update h.header p { h.header p with ptr := ptr } }

def setSize (h : Heap) (p size : Word) : Heap :=
  { h with header := update h.header p { h.header p with size := size } }

def ptr (h : Heap) (p : Word) : Word := (h.header p).ptr

def size (h : Heap) (p : Word) : Word := (h.header p).size

/-- The loop of `free` that looks for the place of `bp`, bounded by `fuel` rounds. -/
def findPlace (h : Heap) (bp : Word) : ℕ → Word → Option Word
  | 0, _ => none
  | fuel + 1, p =>
    if p < bp ∧ bp < h.ptr p then some p
    else if h.ptr p ≤ p ∧ (p < bp ∨ bp < h.ptr p) then some p
    else findPlace h bp fuel (h.ptr p)

/-- The rest of `free`: join `bp` with the block above it, and with the block `p` below it. -/
def joinUp (h : Heap) (bp p : Word) : Heap :=
  if offset bp (h.size bp) = h.ptr p then
    let h := h.setSize bp (h.size bp + h.size (h.ptr p))
    h.setPtr bp (h.ptr (h.ptr p))
  else h.setPtr bp (h.ptr p)

def joinDown (h : Heap) (bp p : Word) : Heap :=
  if offset p (h.size p) = bp then
    let h := h.setSize p (h.size p + h.size bp)
    h.setPtr p (h.ptr bp)
  else h.setPtr p bp

/-- `free`, which gives nothing while its loop runs on. -/
def free (fuel : ℕ) (ap : Word) (h : Heap) : Option Heap :=
  let bp := ap - 8
  (h.findPlace bp fuel h.freep).map fun p => { (h.joinUp bp p).joinDown bp p with freep := p }

/-- The number of units `morecore` asks for: 4096 or more. -/
def atLeast (nu : Word) : Word := if nu < 4096 then 4096 else nu

/-- `morecore`, where `sbrk k` is the answer of the `k`-th call. The result is a null pointer if
    `sbrk` fails. -/
def morecore (sbrk : ℕ → Word) (fuel : ℕ) (nu : Word) (h : Heap) : Option Word × Heap :=
  let p := sbrk h.asked.length
  let h := { h with asked := atLeast nu * 8 :: h.asked }
  if p = -1 then (some 0, h)
  else
    match (h.setSize p (atLeast nu)).free fuel (offset p 1) with
    | none => (none, h.setSize p (atLeast nu))
    | some h => (some h.freep, h)

/-- Take `nunits` units from the block `p`: all of it, or its tail end. -/
def take (nunits prevp p : Word) (h : Heap) : Word × Heap :=
  if h.size p = nunits then (offset p 1, { h.setPtr prevp (h.ptr p) with freep := prevp })
  else
    let h := h.setSize p (h.size p - nunits)
    let p := offset p (h.size p)
    (offset p 1, { h.setSize p nunits with freep := prevp })

/-- The loop of `malloc`, bounded by `fuel` rounds; it gives no pointer while it runs on. -/
def search (sbrk : ℕ → Word) (nunits : Word) : ℕ → Word → Word → Heap → Option Word × Heap
  | 0, _, _, h => (none, h)
  | fuel + 1, prevp, p, h =>
    if nunits ≤ h.size p then
      let (r, h) := h.take nunits prevp p
      (some r, h)
    else if p = h.freep then
      match h.morecore sbrk fuel nunits with
      | (none, h) => (none, h)
      | (some p, h) => if p = 0 then (some 0, h) else search sbrk nunits fuel p (h.ptr p) h
    else search sbrk nunits fuel p (h.ptr p) h

/-- The number of units `malloc` looks for. -/
def units (nbytes : Word) : Word := (nbytes + 8 - 1) / 8 + 1

/-- The first lines of `malloc`; the static header is at the address `base`. -/
def init (base : Word) (h : Heap) : Heap :=
  if h.freep = 0 then { (h.setPtr base base).setSize base 0 with freep := base } else h

def malloc (base : Word) (sbrk : ℕ → Word) (fuel : ℕ) (nbytes : Word) (h : Heap) :
    Option Word × Heap :=
  let h := h.init base
  h.search sbrk (units nbytes) fuel h.freep (h.ptr h.freep)

end Heap

open Heap

/-- The argument `arg` of `sbrk` is what `nu` units need, and is not negative as an `int`. -/
def Enough (nu arg : Word) : Prop := 0 ≤ arg.toInt ∧ nu.toNat * 8 ≤ arg.toNat

/-- Whatever the heap and the answers of `sbrk`, a block that `malloc` returns has room for `nbytes`
    behind its header, and every call of `sbrk` asks for enough. -/
def Serves (base nbytes : Word) : Prop :=
  ∀ sbrk fuel (h : Heap), h.asked = [] →
    (∀ p, (h.malloc base sbrk fuel nbytes).1 = some p → p ≠ 0 →
      nbytes.toNat + 8 ≤ ((h.malloc base sbrk fuel nbytes).2.size (p - 8)).toNat * 8) ∧
    ∀ arg ∈ (h.malloc base sbrk fuel nbytes).2.asked, Enough (atLeast (units nbytes)) arg

/-! ## What a search returns -/

theorem asked_free {fuel : ℕ} {ap : Word} {h h' : Heap} (hf : h.free fuel ap = some h') :
    h'.asked = h.asked := by
  obtain ⟨p, -, rfl⟩ := Option.map_eq_some_iff.mp hf
  simp only [joinDown, joinUp]
  split <;> split <;> rfl

theorem asked_morecore (sbrk : ℕ → Word) (fuel : ℕ) (nu : Word) (h : Heap) :
    (h.morecore sbrk fuel nu).2.asked = atLeast nu * 8 :: h.asked := by
  rw [morecore]
  split
  · rfl
  · split
    · rfl
    · rename_i hf
      exact asked_free hf

/-- The header of the block that is taken records the units that were looked for. -/
theorem size_take (nunits prevp p : Word) (h : Heap) :
    (h.take nunits prevp p).2.size ((h.take nunits prevp p).1 - 8) = nunits := by
  have hback : ∀ q, offset q 1 - 8 = q := fun q => BitVec.add_sub_cancel q 8
  rw [take]
  split
  · rename_i hsize
    simp only [hback, Heap.size, setPtr, update_apply]
    split
    · rename_i he
      rw [← he]
      exact hsize
    · exact hsize
  · rw [hback]
    simp only [Heap.size, setSize, update_self]

theorem asked_take (nunits prevp p : Word) (h : Heap) :
    (h.take nunits prevp p).2.asked = h.asked := by
  rw [take]
  split <;> rfl

/-- All calls of `sbrk` in one search ask for the same, and the block it ends with has the size it
    looked for. -/
theorem search_spec (sbrk : ℕ → Word) (nunits : Word) (fuel : ℕ) (prevp p : Word) (h : Heap)
    (hasked : ∀ arg ∈ h.asked, arg = atLeast nunits * 8) :
    (∀ q, (h.search sbrk nunits fuel prevp p).1 = some q → q ≠ 0 →
      (h.search sbrk nunits fuel prevp p).2.size (q - 8) = nunits) ∧
    ∀ arg ∈ (h.search sbrk nunits fuel prevp p).2.asked, arg = atLeast nunits * 8 := by
  induction fuel generalizing prevp p h with
  | zero => exact ⟨nofun, hasked⟩
  | succ fuel ih =>
    rw [search]
    split
    · refine ⟨fun q hq _ => ?_, ?_⟩
      · cases hq
        exact size_take nunits prevp p h
      · rw [asked_take]
        exact hasked
    · split
      · have hmore : ∀ arg ∈ (h.morecore sbrk fuel nunits).2.asked, arg = atLeast nunits * 8 := by
          rw [asked_morecore]
          exact List.forall_mem_cons.mpr ⟨rfl, hasked⟩
        split
        · rename_i heq
          rw [heq] at hmore
          exact ⟨nofun, hmore⟩
        · rename_i heq
          rw [heq] at hmore
          split
          · exact ⟨fun q hq hne => absurd (Option.some.inj hq).symm hne, hmore⟩
          · exact ih _ _ _ hmore
      · exact ih _ _ _ hasked

/-! ## The thresholds -/

/-- The rounding to units wraps for the last seven sizes only. -/
theorem toNat_units (nbytes : Word) :
    (units nbytes).toNat = if nbytes.toNat < 2 ^ 32 - 7 then (nbytes.toNat + 7) / 8 + 1 else 1 := by
  have hsum : (nbytes + 8 - 1).toNat = (nbytes.toNat + 7) % 2 ^ 32 := by bv_omega
  have h8 : (8 : Word).toNat = 8 := rfl
  have h1 : (1 : Word).toNat = 1 := rfl
  rw [units, BitVec.toNat_add, BitVec.toNat_udiv, hsum, h8, h1]
  split <;> omega

/-- The scaling to bytes is negative from 2^28 units on, and 2^29 units wrap to nothing. -/
theorem enough_iff {nu : Word} (h : nu.toNat ≤ 2 ^ 29) :
    Enough (atLeast nu) (atLeast nu * 8) ↔ nu.toNat < 2 ^ 28 := by
  have hn : (atLeast nu).toNat = max nu.toNat 4096 := by
    rw [atLeast]
    split <;> bv_omega
  have h8 : (8 : Word).toNat = 8 := rfl
  rw [Enough, BitVec.toInt_eq_toNat_cond, BitVec.toNat_mul, hn, h8]
  split <;> omega

/-- The heap of a program that has not called `malloc` yet. -/
def fresh : Heap := ⟨fun _ => ⟨0, 0⟩, 0, []⟩

theorem asked_fresh (base nbytes : Word) :
    (fresh.malloc base (fun _ => -1) 1 nbytes).2.asked = [atLeast (units nbytes) * 8] := by
  have hpos : units nbytes ≠ 0#32 := fun h => by
    have hunits := toNat_units nbytes
    rw [h] at hunits
    split at hunits <;> cases hunits
  simp [malloc, search, init, fresh, Heap.ptr, Heap.size, setPtr, setSize, hpos, morecore]

/-- A heap whose only free block, at address 8, has one unit. -/
def oneUnit : Heap := ⟨fun _ => ⟨8, 1⟩, 8, []⟩

/-- `malloc` serves a request in every heap exactly when the units it rounds it to are fewer than
    2^31 bytes. -/
theorem malloc_serves_iff (base nbytes : Word) :
    Serves base nbytes ↔ nbytes.toNat ≤ 2 ^ 31 - 16 := by
  have hunits := toNat_units nbytes
  have hle : (units nbytes).toNat ≤ 2 ^ 29 := by
    split at hunits <;> omega
  constructor
  · intro h
    by_contra hbig
    by_cases hwrap : nbytes.toNat < 2 ^ 32 - 7
    · have hasked := (h (fun _ => -1) 1 fresh rfl).2
      rw [asked_fresh, List.forall_mem_singleton, enough_iff hle, hunits, if_pos hwrap] at hasked
      omega
    · have hone : units nbytes = 1 := by
        rw [if_neg hwrap] at hunits
        exact BitVec.eq_of_toNat_eq hunits
      have hinit : oneUnit.init base = oneUnit := rfl
      have hroom := (h (fun _ => -1) 1 oneUnit rfl).1 16
      rw [malloc, hone, hinit] at hroom
      have hsmall : nbytes.toNat + 8 ≤ 8 := hroom rfl (by decide)
      omega
  · intro h sbrk fuel h0 hasked0
    have hspec := search_spec sbrk (units nbytes) fuel (h0.init base).freep
      ((h0.init base).ptr (h0.init base).freep) (h0.init base)
      (by rw [init]; split <;> simp [hasked0, setPtr, setSize])
    have hwrap : nbytes.toNat < 2 ^ 32 - 7 := by omega
    rw [if_pos hwrap] at hunits
    refine ⟨fun p hp hne => ?_, fun arg harg => ?_⟩
    · rw [malloc, hspec.1 p hp hne]
      omega
    · rw [hspec.2 arg harg, enough_iff hle]
      omega

/-- A request of 2^32 - 1 bytes gets a block of one unit, the header. -/
theorem malloc_too_small : ¬ Serves 8 4294967295 := by
  intro h
  have hroom := (h (fun _ => 4096) 3 fresh rfl).1 36864 (by decide +kernel) (by decide)
  exact absurd hroom (by decide +kernel)

end Xv6.Malloc
