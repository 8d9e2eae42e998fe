import Mathlib.Data.Nat.ModEq

set_option autoImplicit false

/-! # A ring buffer with free-running counters

The ring has `c` cells. Two `w`-bit counters say how many entries were ever taken and stored; they
run freely and wrap around, and an entry's cell is its counter modulo `c`. As long as `c` divides `2
^ w` a wrap of a counter does not move the cells, and as long as `c < 2 ^ w` the difference of the
counters tells a full ring from an empty one. -/

namespace Ring

open Function

variable {w c : ℕ} [NeZero c] {α : Type*}

/-- The cell of the entry with counter `x`. -/
def cell (x : BitVec w) : Fin c := Fin.ofNat c x.toNat

/-- How many entries are stored and not yet taken. -/
def count (r t : BitVec w) : ℕ := (t - r).toNat

/-- The entries that are stored and not yet taken, oldest first. -/
def contents (data : Fin c → α) (r t : BitVec w) : List α :=
  (List.range (count r t)).map fun k => data (cell (r + BitVec.ofNat w k))

@[simp] theorem length_contents (data : Fin c → α) (r t : BitVec w) :
    (contents data r t).length = count r t := by
  simp [contents]

@[simp] theorem count_self (r : BitVec w) : count r r = 0 := by
  simp [count]

variable {r t : BitVec w}

theorem count_eq_zero : count r t = 0 ↔ r = t := by
  rw [count, ← BitVec.toNat_zero (w := w), BitVec.toNat_inj, BitVec.sub_eq_iff_eq_add]
  simp [eq_comm]

/-- The counter of the next entry is `count` after that of the oldest one. -/
theorem add_count (r t : BitVec w) : r + BitVec.ofNat w (count r t) = t := by
  rw [count, BitVec.ofNat_toNat, BitVec.setWidth_eq, BitVec.add_comm, BitVec.sub_add_cancel]

theorem count_add (r : BitVec w) {k : ℕ} (hk : k < 2 ^ w) : count r (r + BitVec.ofNat w k) = k := by
  rw [count, BitVec.add_comm, BitVec.add_sub_cancel, BitVec.toNat_ofNat, Nat.mod_eq_of_lt hk]

omit [NeZero c] in
/-- The ring is full when the counters are `c` apart. -/
theorem eq_add_iff_count (hlt : c < 2 ^ w) (r t : BitVec w) :
    t = r + BitVec.ofNat w c ↔ count r t = c := by
  constructor
  · rintro rfl
    exact count_add r hlt
  · intro h
    rw [← h, add_count]

theorem count_stored (hlt : count r t + 1 < 2 ^ w) : count r (t + 1) = count r t + 1 := by
  have ht : t + 1 = r + BitVec.ofNat w (count r t + 1) := by
    rw [BitVec.ofNat_add, ← BitVec.add_assoc, add_count]
    rfl
  rw [ht, count_add r hlt]

theorem count_taken (h : r ≠ t) : count (r + 1) t = count r t - 1 := by
  have hpos : count r t ≠ 0 := fun h0 => h (count_eq_zero.1 h0)
  have hlt : count r t < 2 ^ w := (t - r).isLt
  have ht : t = (r + 1) + BitVec.ofNat w (count r t - 1) := by
    conv_lhs => rw [← add_count r t, show count r t = 1 + (count r t - 1) by omega,
      BitVec.ofNat_add, ← BitVec.add_assoc]
    rfl
  conv_lhs => rw [ht]
  exact count_add _ (by omega)

/-- Counting from the last entry. -/
theorem count_pred (h : r ≠ t) : count r (t - 1) + 1 = count r t := by
  have hpos : count r t ≠ 0 := fun h0 => h (count_eq_zero.1 h0)
  have hlt : count r t < 2 ^ w := (t - r).isLt
  have ht : t - 1 = r + BitVec.ofNat w (count r t - 1) := by
    rw [BitVec.sub_eq_iff_eq_add, BitVec.add_assoc, show (1 : BitVec w) = BitVec.ofNat w 1 from rfl,
      ← BitVec.ofNat_add, show count r t - 1 + 1 = count r t by omega, add_count]
  rw [ht, count_add r (by omega)]
  omega

/-- The last entry stands apart. -/
theorem contents_snoc (h : r ≠ t) (data : Fin c → α) :
    contents data r t = contents data r (t - 1) ++ [data (cell (t - 1))] := by
  rw [contents, ← count_pred h, List.range_succ, List.map_append, contents, List.map_singleton,
    add_count]

/-- The oldest entries. -/
theorem take_contents {t' : BitVec w} (h : count r t' ≤ count r t) (data : Fin c → α) :
    (contents data r t).take (count r t') = contents data r t' := by
  rw [contents, ← List.map_take, List.take_range, Nat.min_eq_left h, contents]

variable (hdvd : c ∣ 2 ^ w)
include hdvd

theorem cell_add (r : BitVec w) (k : ℕ) :
    ((cell (r + BitVec.ofNat w k) : Fin c) : ℕ) = (r.toNat + k) % c := by
  simp only [cell, Fin.ofNat, BitVec.toNat_add, BitVec.toNat_ofNat, Nat.add_mod_mod]
  exact Nat.mod_mod_of_dvd _ hdvd

/-- Within one revolution different entries have different cells. -/
theorem cell_add_inj (r : BitVec w) {k l : ℕ} (hk : k < c) (hl : l < c)
    (h : (cell (r + BitVec.ofNat w k) : Fin c) = cell (r + BitVec.ofNat w l)) : k = l := by
  have hmod : r.toNat + k ≡ r.toNat + l [MOD c] := by
    have := congrArg Fin.val h
    rwa [cell_add hdvd, cell_add hdvd] at this
  exact Nat.ModEq.eq_of_lt_of_lt (Nat.ModEq.add_left_cancel' _ hmod) hk hl

/-- The cell of the next entry holds none of the stored ones while the ring is not full. -/
theorem cell_ne_of_stored (hroom : count r t < c) {k : ℕ} (hk : k < count r t) :
    (cell (r + BitVec.ofNat w k) : Fin c) ≠ cell t := by
  intro h
  rw [← add_count r t] at h
  have := cell_add_inj hdvd r (hk.trans hroom) hroom h
  omega

/-- Storing an entry appends it. -/
theorem contents_store (hlt : c < 2 ^ w) (hroom : count r t < c) (data : Fin c → α) (b : α) :
    contents (update data (cell t) b) r (t + 1) = contents data r t ++ [b] := by
  have hcount : count r (t + 1) = count r t + 1 := count_stored (by omega)
  rw [contents, hcount, List.range_succ, List.map_append, contents]
  congr 1
  · apply List.map_congr_left
    intro k hk
    exact update_of_ne (cell_ne_of_stored hdvd hroom (List.mem_range.1 hk)) ..
  · simp [add_count]

omit hdvd in
/-- Taking an entry removes the oldest one. -/
theorem contents_take (h : r ≠ t) (data : Fin c → α) :
    contents data r t = data (cell r) :: contents data (r + 1) t := by
  have hpos : count r t ≠ 0 := fun h0 => h (count_eq_zero.1 h0)
  have hcount : count r t = count (r + 1) t + 1 := by
    rw [count_taken h]
    omega
  rw [contents, hcount, List.range_succ_eq_map, List.map_cons, List.map_map, contents]
  congr 1
  · simp
  · apply List.map_congr_left
    intro k _
    rw [Function.comp_apply, Nat.succ_eq_add_one, Nat.add_comm k 1, BitVec.ofNat_add,
      BitVec.add_assoc]
    rfl

end Ring
