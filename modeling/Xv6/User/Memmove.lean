import Mathlib.Logic.Function.Basic
import Xv6.Param

set_option autoImplicit false

/-! # The two `memmove`s (`string.c`, `ulib.c`)

The kernel's `memmove` copies upwards or downwards, whichever reads each source byte before it is
overwritten; the user library's copies upwards only and takes its length as an `int`. Both are run
here on a flat memory. -/

namespace Xv6.Memmove

open Function

/-- The bytes of the address space. -/
abbrev Mem := ℕ → Byte

/-- `while(n-- > 0) *d++ = *s++;` -/
def copyUp : ℕ → ℕ → ℕ → Mem → Mem
  | 0, _, _, m => m
  | n + 1, d, s, m => copyUp n (d + 1) (s + 1) (update m d (m s))

/-- `while(n-- > 0) *--d = *--s;` -/
def copyDown : ℕ → ℕ → ℕ → Mem → Mem
  | 0, _, _, m => m
  | n + 1, d, s, m => copyDown n (d - 1) (s - 1) (update m (d - 1) (m (s - 1)))

/-- The kernel's `memmove`; the end of the source is compared as a 32-bit pointer. -/
def memmove (dst src n : Word) (m : Mem) : Mem :=
  if src < dst ∧ dst < src + n then
    copyDown n.toNat (dst.toNat + n.toNat) (src.toNat + n.toNat) m
  else copyUp n.toNat dst.toNat src.toNat m

/-- The user library's `memmove`: a length that is negative as an `int` copies nothing. -/
def ulibMemmove (dst src n : Word) (m : Mem) : Mem :=
  copyUp n.toInt.toNat dst.toNat src.toNat m

/-- `m'` holds at `dst..dst+n-1` what `m` held at `src..src+n-1`, and elsewhere what `m` held. -/
def Moved (dst src n : ℕ) (m m' : Mem) : Prop :=
  ∀ a, m' a = if dst ≤ a ∧ a < dst + n then m (src + (a - dst)) else m a

/-- The `n` bytes at `p` lie inside the address space. -/
def Inside (p n : Word) : Prop := p.toNat + n.toNat ≤ 2 ^ 32

instance (p n : Word) : Decidable (Inside p n) := inferInstanceAs (Decidable (_ ≤ _))

/-- Both copies are right, whatever the memory holds. -/
def Agree (dst src n : Word) : Prop :=
  ∀ m, Moved dst.toNat src.toNat n.toNat m (memmove dst src n m) ∧
    Moved dst.toNat src.toNat n.toNat m (ulibMemmove dst src n m)

variable {n d s : ℕ}

-- The destination of a step upwards is a source still to be read only if it lies inside the
-- rest of the range.
theorem moved_copyUp (h : d ≤ s ∨ s + n ≤ d) (m : Mem) : Moved d s n m (copyUp n d s m) := by
  induction n generalizing d s m with
  | zero => intro a; rw [copyUp, if_neg (by omega)]
  | succ n ih =>
    intro a
    rw [copyUp, ih (by omega)]
    by_cases ha : d + 1 ≤ a ∧ a < d + 1 + n
    · have hsrc : s + 1 + (a - (d + 1)) = s + (a - d) := by omega
      rw [if_pos ha, if_pos (by omega), hsrc, update_of_ne (by omega)]
    · rw [if_neg ha]
      by_cases had : a = d
      · rw [had, update_self, if_pos (by omega), Nat.sub_self, Nat.add_zero]
      · rw [update_of_ne had, if_neg (by omega)]

theorem moved_copyDown (h : s ≤ d) (m : Mem) : Moved d s n m (copyDown n (d + n) (s + n) m) := by
  induction n generalizing m with
  | zero => intro a; rw [copyDown, if_neg (by omega)]
  | succ n ih =>
    intro a
    rw [copyDown, Nat.add_succ_sub_one, Nat.add_succ_sub_one, ih]
    by_cases ha : d ≤ a ∧ a < d + n
    · rw [if_pos ha, if_pos (by omega), update_of_ne (by omega)]
    · rw [if_neg ha]
      by_cases had : a = d + n
      · rw [had, update_self, if_pos (by omega), Nat.add_sub_cancel_left]
      · rw [update_of_ne had, if_neg (by omega)]

/-- The kernel's `memmove` is right for every overlap. A source that ends at the top of the address
space makes `src + n` wrap, but the destination cannot then lie above it. -/
theorem moved_memmove {dst src n : Word} (hd : Inside dst n) (m : Mem) :
    Moved dst.toNat src.toNat n.toNat m (memmove dst src n m) := by
  rw [memmove]
  rw [Inside] at hd
  split
  · rename_i h
    exact moved_copyDown (BitVec.le_of_lt h.1) m
  · rename_i h
    refine moved_copyUp ?_ m
    rw [BitVec.lt_def, BitVec.lt_def, BitVec.toNat_add] at h
    omega

theorem copyUp_below {n d s a : ℕ} (h : a < d) (m : Mem) : copyUp n d s m a = m a := by
  induction n generalizing d s m with
  | zero => rfl
  | succ n ih => rw [copyUp, ih (by omega), update_of_ne (by omega)]

/-- Copying upwards to a higher address never writes again what it has read, so the copy repeats the
source as the copy leaves it. -/
theorem copyUp_repeats {n d s i : ℕ} (h : s < d) (hi : i < n) (m : Mem) :
    copyUp n d s m (d + i) = copyUp n d s m (s + i) := by
  induction n generalizing d s i m with
  | zero => omega
  | succ n ih =>
    rw [copyUp]
    cases i with
    | zero =>
      rw [copyUp_below (by omega), copyUp_below (by omega)]
      rw [Nat.add_zero, Nat.add_zero, update_self, update_of_ne (Nat.ne_of_lt h)]
    | succ i =>
      have hstep := ih (Nat.succ_lt_succ h) (Nat.lt_of_succ_lt_succ hi) (update m d (m s))
      rwa [Nat.succ_add_eq_add_succ, Nat.succ_add_eq_add_succ] at hstep

/-- A copy upwards into the middle of its source puts the first byte where the byte at `d`
    belongs. -/
theorem eq_of_moved_copyUp {m : Mem} (h : s < d) (hn : d < s + n)
    (hm : Moved d s n m (copyUp n d s m)) : m d = m s := by
  have hd : s + (d - s) = d := by omega
  have hread : copyUp n d s m (d + (d - s)) = m d := by
    rw [hm, if_pos (by omega), Nat.add_sub_cancel_left, hd]
  rw [copyUp_repeats h (by omega), hd] at hread
  have hfirst : copyUp n d s m d = copyUp n d s m s := copyUp_repeats (i := 0) h (by omega) m
  rw [← hread, hfirst, copyUp_below h]

theorem toNat_toInt (n : Word) : n.toInt.toNat = if n.toNat < 2 ^ 31 then n.toNat else 0 := by
  rw [BitVec.toInt_eq_toNat_cond]
  split <;> split <;> omega

/-- Both functions move the bytes exactly when nothing has to move or when the length is not
negative as an `int` and the destination does not begin inside the source. -/
theorem memmove_agree_iff {dst src n : Word} (hd : Inside dst n) (_hs : Inside src n) :
    Agree dst src n ↔ dst = src ∨ n.toNat < 2 ^ 31 ∧
    (dst < src ∨ src.toNat + n.toNat ≤ dst.toNat) := by
  constructor
  · intro h
    by_contra hne
    rw [not_or] at hne
    have hds : dst.toNat ≠ src.toNat := fun he => hne.1 (BitVec.eq_of_toNat_eq he)
    -- a memory that tells the first byte of the source from every other byte
    let m : Mem := update (fun _ => 0) src.toNat 1
    have hm := (h m).2
    have hdiff : m dst.toNat ≠ m src.toNat := by
      simp [m, update_of_ne hds]
    rw [ulibMemmove, toNat_toInt] at hm
    split at hm
    · rename_i hn
      have hlt := hne.2
      rw [BitVec.lt_def] at hlt
      exact hdiff (eq_of_moved_copyUp (by omega) (by omega) hm)
    · have ha := hm dst.toNat
      rw [copyUp, if_pos (by omega), Nat.sub_self, Nat.add_zero] at ha
      exact hdiff ha
  · rintro h m
    refine ⟨moved_memmove hd m, ?_⟩
    rw [ulibMemmove, toNat_toInt]
    rcases h with rfl | ⟨hn, h⟩
    · split
      · exact moved_copyUp (.inl (Nat.le_refl _)) m
      · intro a
        rw [copyUp]
        split
        · rw [Nat.add_sub_of_le (by omega)]
        · rfl
    · rw [if_pos hn]
      refine moved_copyUp ?_ m
      rw [BitVec.lt_def] at h
      omega

/-- Four bytes moved down by two. -/
theorem memmove_agree_down : Agree 0 2 4 :=
  (memmove_agree_iff (by decide) (by decide)).mpr (.inr (by decide))

/-- Two bytes moved up by one: the user library leaves the first byte twice. -/
theorem memmove_disagree : Inside 1 2 ∧ Inside 0 2 ∧ ¬ Agree 1 0 2 := by
  refine ⟨by decide, by decide, fun h => ?_⟩
  exact absurd ((h fun a => BitVec.ofNat 8 a).2 2) (by decide)

end Xv6.Memmove
