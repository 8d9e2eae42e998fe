import Mathlib.Algebra.BigOperators.Group.Finset.Piecewise
import Mathlib.Algebra.Order.BigOperators.Group.Finset

set_option autoImplicit false

/-! # Tallies of a table

A tally adds up what each row of a table counts for. The lemmas say what a tally becomes when one
row is replaced; the old row stands on the left-hand side, so that no subtraction is needed. -/

namespace Tally

open Finset Function

variable {ι β : Type*} [DecidableEq ι]

/-- One row is replaced. -/
theorem sum_update (S : Finset ι) (F : ι → β → ℕ) (table : ι → β) {i : ι} (hi : i ∈ S) (row : β) :
    ∑ j ∈ S, F j (update table i row j) + F i (table i) = ∑ j ∈ S, F j (table j) + F i row := by
  rw [← add_sum_erase S (fun j => F j (update table i row j)) hi,
    ← add_sum_erase S (fun j => F j (table j)) hi, update_self]
  have hrest : ∑ j ∈ S.erase i, F j (update table i row j) = ∑ j ∈ S.erase i, F j (table j) :=
    sum_congr rfl fun j hj => by rw [update_of_ne (ne_of_mem_erase hj)]
  omega

/-- Two different rows are replaced. -/
theorem sum_update2 (S : Finset ι) (F : ι → β → ℕ) (table : ι → β) {i k : ι} (hi : i ∈ S)
    (hk : k ∈ S) (hne : k ≠ i) (x y : β) :
    ∑ j ∈ S, F j (update (update table i x) k y j) + F i (table i) + F k (table k) =
      ∑ j ∈ S, F j (table j) + F i x + F k y := by
  have h1 := sum_update S F table hi x
  have h2 := sum_update S F (update table i x) hk y
  rw [update_of_ne hne] at h2
  omega

/-- Two rows that count for something. -/
theorem two_le_sum {S : Finset ι} {w : ι → ℕ} {i k : ι} (hi : i ∈ S) (hk : k ∈ S) (hne : i ≠ k)
    (hwi : 0 < w i) (hwk : 0 < w k) : 2 ≤ ∑ j ∈ S, w j := by
  have hle : ∑ j ∈ {i, k}, w j ≤ ∑ j ∈ S, w j :=
    sum_le_sum_of_subset (insert_subset hi (singleton_subset_iff.2 hk))
  rw [sum_pair hne] at hle
  omega

end Tally
