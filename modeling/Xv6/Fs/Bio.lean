import Xv6.Param
import Mathlib.Logic.Function.Basic

set_option autoImplicit false

/-! # The buffer cache (`bio.c`)

A block is its `BSIZE` bytes read as 32-bit words. A buffer holds a copy of a block, with the flag
`B_DIRTY`; `bread` returns the copy if there is one and reads the disk otherwise. `bget` recycles
any buffer that is neither busy nor dirty, so between two calls a clean buffer may or may not still
be cached. That choice is left to a parameter, `evict`, which says for every moment which buffers
are gone by then. The size of the cache and its order of use are not modelled.

`writes` records the writes to the disk in their order. -/

namespace Xv6

open Function

/-- The contents of a disk block. -/
abbrev Block := Fin blockWords → Word

/-- `struct buf`: the data of a valid buffer and its `B_DIRTY` flag. -/
structure Buf where
  data : Block
  dirty : Bool

/-- The disk, the cache, and the writes made so far. -/
structure Dev where
  disk : ℕ → Block
  cache : ℕ → Option Buf
  evict : ℕ → ℕ → Bool
  clock : ℕ
  writes : List (ℕ × Block)

namespace Dev

/-- A device right after boot. -/
def boot (disk : ℕ → Block) (evict : ℕ → ℕ → Bool) : Dev where
  disk := disk
  cache := fun _ => none
  evict := evict
  clock := 0
  writes := []

/-- Forget the clean buffers that have been recycled meanwhile. -/
def recycle (d : Dev) : Dev :=
  { d with
    cache := fun b =>
      match d.cache b with
      | some ⟨data, true⟩ => some ⟨data, true⟩
      | some ⟨data, false⟩ => if d.evict d.clock b then none else some ⟨data, false⟩
      | none => none
    clock := d.clock + 1 }

variable (b : ℕ)

def bread (d : Dev) : Block × Dev :=
  let d := d.recycle
  match d.cache b with
  | some buf => (buf.data, d)
  | none => (d.disk b, { d with cache := update d.cache b (some ⟨d.disk b, false⟩) })

/-- `bwrite` of a buffer that holds `data`. -/
def bwrite (data : Block) (d : Dev) : Dev :=
  { d with
    disk := update d.disk b data
    cache := update d.cache b (some ⟨data, false⟩)
    writes := d.writes ++ [(b, data)] }

/-- Change the contents of a buffer and set `B_DIRTY`, which pins it. -/
def pin (data : Block) (d : Dev) : Dev :=
  { d with cache := update d.cache b (some ⟨data, true⟩) }

/-! ## What readers see -/

/-- The contents that `bread` returns. -/
def view (d : Dev) (b : ℕ) : Block :=
  match d.cache b with
  | some buf => buf.data
  | none => d.disk b

/-- A clean buffer holds what is on the disk. -/
def Coherent (d : Dev) : Prop := ∀ b data, d.cache b = some ⟨data, false⟩ → data = d.disk b

theorem coherent_boot (disk : ℕ → Block) (evict : ℕ → ℕ → Bool) : Coherent (boot disk evict) := by
  intro b data h
  simp [boot] at h

variable {d : Dev}

theorem recycle_view (h : Coherent d) (b : ℕ) : d.recycle.view b = d.view b := by
  unfold view recycle
  cases hc : d.cache b with
  | none => simp [hc]
  | some buf =>
    obtain ⟨data, dirty⟩ := buf
    cases dirty with
    | true => simp [hc]
    | false =>
      by_cases he : d.evict d.clock b
      · simp [hc, he, h b data hc]
      · simp [hc, he]

theorem recycle_coherent (h : Coherent d) : Coherent d.recycle := by
  intro b data hb
  refine h b data ?_
  cases hc : d.cache b with
  | none => simp [recycle, hc] at hb
  | some buf =>
    obtain ⟨data', dirty⟩ := buf
    cases dirty with
    | true => simp [recycle, hc] at hb
    | false =>
      simp only [recycle, hc] at hb
      split at hb
      · exact absurd hb (by simp)
      · exact hb

theorem bread_fst (h : Coherent d) (b : ℕ) : (bread b d).1 = d.view b := by
  rw [← recycle_view h b]
  unfold bread view
  cases hc : d.recycle.cache b <;> simp [hc]

theorem bread_disk (d : Dev) : (bread b d).2.disk = d.disk := by
  simp only [bread]
  split <;> rfl

theorem bread_writes (d : Dev) : (bread b d).2.writes = d.writes := by
  simp only [bread]
  split <;> rfl

theorem bread_view (h : Coherent d) (b x : ℕ) : (bread b d).2.view x = d.view x := by
  rw [← recycle_view h x]
  unfold bread
  cases hc : d.recycle.cache b with
  | some buf => simp [hc]
  | none =>
    by_cases hx : x = b
    · subst hx
      simp [hc, view]
    · simp [hc, view, hx]

theorem bread_coherent (h : Coherent d) (b : ℕ) : Coherent (bread b d).2 := by
  have hr := recycle_coherent h
  unfold bread
  cases hc : d.recycle.cache b with
  | some buf => simpa [hc] using hr
  | none =>
    intro x data hx
    by_cases hxb : x = b
    · subst hxb
      simp only [hc, update_self, Option.some.injEq, Buf.mk.injEq, and_true] at hx
      simp [hc, ← hx]
    · simp only [hc, update_of_ne hxb] at hx
      simpa [hc] using hr x data hx

@[simp] theorem bwrite_view (data : Block) (d : Dev) (x : ℕ) :
    (bwrite b data d).view x = if x = b then data else d.view x := by
  by_cases hx : x = b
  · subst hx; simp [bwrite, view]
  · simp [bwrite, view, hx]

theorem bwrite_coherent (h : Coherent d) (b : ℕ) (data : Block) : Coherent (bwrite b data d) := by
  intro x data' hx
  by_cases hxb : x = b
  · subst hxb
    simp only [bwrite, update_self, Option.some.injEq, Buf.mk.injEq, and_true] at hx
    simp [bwrite, hx]
  · simp only [bwrite, update_of_ne hxb] at hx ⊢
    exact h x data' hx

@[simp] theorem pin_view (data : Block) (d : Dev) (x : ℕ) :
    (pin b data d).view x = if x = b then data else d.view x := by
  by_cases hx : x = b
  · subst hx; simp [pin, view]
  · simp [pin, view, hx]

theorem pin_coherent (h : Coherent d) (b : ℕ) (data : Block) : Coherent (pin b data d) := by
  intro x data' hx
  by_cases hxb : x = b
  · subst hxb
    simp [pin] at hx
  · simp only [pin, update_of_ne hxb] at hx ⊢
    exact h x data' hx

end Dev

end Xv6
