import Mathlib.Data.BitVec
import Mathlib.Data.List.TakeWhile
import Mathlib.Tactic.IntervalCases
import Mathlib.Tactic.Ring
import Xv6.Param

set_option autoImplicit false

/-! # The `chmod` command (`chmod.c`)

`main` checks its mode argument character by character and accumulates the octal value in `mode`, a
local variable that it never sets: the value on the stack is an argument of the model. -/

namespace Xv6.Chmod

/-- A string argument, without its final NUL. -/
abbrev Str := List Byte

/-- One round of `n = n*8 + *s - '0'`, where the `char` is sign-extended. -/
def digit (n : Word) (c : Byte) : Word := n * 8 + c.signExtend 32 - 48

/-- The test `'0' <= c && c <= '7'` of `atoo`. -/
def isOctal (c : Byte) : Bool := BitVec.sle 48 c && c.sle 55

/-- The octal value of a string (`ulib.c`). -/
def atoo (s : Str) : Word :=
  let s := s.dropWhile (· == 32)
  let sign : Word := if s.head? = some 45 then -1 else 1
  let s := if s.head? = some 43 ∨ s.head? = some 45 then s.tail else s
  sign * (s.takeWhile isOctal).foldl digit 0

/-- What `main` prints before it exits without the system call. -/
inductive Complaint
  | arguments
  | setuidBit
  | modeBit (i : ℕ)
  deriving DecidableEq

/-- The arguments of the `chmod` system call; a missing third argument is a null pointer. -/
structure Call where
  path : Option Str
  mode : Word
  deriving DecidableEq

/-- The loop over the mode argument, from index `i` on. -/
def modeLoop : ℕ → Str → Word → Except Complaint Word
  | _, [], mode => .ok mode
  | i, c :: cs, mode =>
    if i = 0 ∧ c ≠ 48 ∧ c ≠ 49 then .error .setuidBit
    else if 0 < i ∧ c.slt 48 ∧ BitVec.slt 55 c then .error (.modeBit i)
    else modeLoop (i + 1) cs (digit mode c)

/-- `main` on its arguments, with `stack` the value that `mode` starts from. -/
def main (stack : Word) (argv : List Str) : Except Complaint Call :=
  if argv.length < 2 ∨ 3 < argv.length then .error .arguments
  else do
    let mode ← modeLoop 0 (argv.getD 1 []) stack
    return ⟨argv[2]?, mode⟩

/-- A mode: octal digits, the first of which is the setuid bit. -/
def IsMode (s : Str) : Prop :=
  (∀ c ∈ s, isOctal c) ∧ (s.head? = some 48 ∨ s.head? = some 49)

instance (s : Str) : Decidable (IsMode s) := inferInstanceAs (Decidable (_ ∧ _))

/-- The command makes the system call only for a mode, and with the value of that mode, whatever the
    stack held. -/
def Parses (argv : List Str) (s : Str) : Prop :=
  ∀ stack call, main stack argv = .ok call → IsMode s ∧ call.mode = atoo s

-- A character cannot be below '0' and above '7', so no index past the first is refused.
theorem modeLoop_succ (i : ℕ) (s : Str) (mode : Word) :
    modeLoop (i + 1) s mode = .ok (s.foldl digit mode) := by
  induction s generalizing i mode with
  | nil => rfl
  | cons c cs ih =>
    have hc : ¬ (c.slt 48 ∧ BitVec.slt 55 c) := by
      have h48 : (48 : Byte).toInt = 48 := rfl
      have h55 : (55 : Byte).toInt = 55 := rfl
      rw [BitVec.slt_iff_toInt_lt, BitVec.slt_iff_toInt_lt, h48, h55]
      omega
    rw [modeLoop, if_neg (by simp), if_neg (fun h => hc h.2), ih, List.foldl_cons]

theorem modeLoop_zero (c : Byte) (cs : Str) (mode : Word) :
    modeLoop 0 (c :: cs) mode =
      if c = 48 ∨ c = 49 then .ok ((c :: cs).foldl digit mode) else .error .setuidBit := by
  rw [modeLoop]
  by_cases hc : c = 48 ∨ c = 49
  · rw [if_neg (by tauto), if_neg (by simp), modeLoop_succ, if_pos hc, List.foldl_cons]
  · rw [if_pos (by tauto), if_neg hc]

/-- The digits read so far weigh eight times more with each digit that follows. -/
theorem foldl_digit (s : Str) (n : Word) :
    s.foldl digit n = n * 8 ^ s.length + s.foldl digit 0 := by
  induction s generalizing n with
  | nil => simp
  | cons c cs ih =>
    rw [List.foldl_cons, ih, List.foldl_cons, ih (digit 0 c), digit, digit, List.length_cons]
    ring

theorem atoo_eq {s : Str} (h : IsMode s) : atoo s = s.foldl digit 0 := by
  obtain ⟨hall, hhead⟩ := h
  cases s with
  | nil => simp at hhead
  | cons c cs =>
    have hc : c = 48 ∨ c = 49 := by simpa using hhead
    have hspace : (c :: cs).dropWhile (· == 32) = c :: cs := by
      rcases hc with rfl | rfl <;> rfl
    have htake : (c :: cs).takeWhile isOctal = c :: cs := List.takeWhile_eq_self_iff.mpr hall
    have hminus : c ≠ 45 := by rcases hc with rfl | rfl <;> decide
    have hplus : c ≠ 43 := by rcases hc with rfl | rfl <;> decide
    simp only [atoo, hspace, List.head?_cons, Option.some.injEq, hminus, hplus, or_self, if_false,
      htake, one_mul]

/-- Eleven octal digits fill a word, and then the value the accumulator starts from is shifted
    out. -/
theorem pow_eight_eq_zero (n : ℕ) : (8 : Word) ^ n = 0 ↔ 11 ≤ n := by
  constructor
  · intro h
    by_contra hn
    have hlt : n < 11 := by omega
    interval_cases n <;> revert h <;> decide
  · intro h
    have hbig : (8 : Word) ^ 11 = 0 := by decide
    rw [← Nat.add_sub_of_le h, pow_add, hbig, zero_mul]

/-- The command parses its argument exactly when it refuses its first character, or when the
argument is a mode of at least eleven digits. -/
theorem chmod_parses_iff (name s : Str) (rest : List Str) (hrest : rest.length ≤ 1) :
    Parses (name :: s :: rest) s ↔
      (∃ c cs, s = c :: cs ∧ c ≠ 48 ∧ c ≠ 49) ∨ IsMode s ∧ 11 ≤ s.length := by
  have hmain : ∀ stack, main stack (name :: s :: rest) =
      (modeLoop 0 s stack).map fun mode => ⟨rest[0]?, mode⟩ := by
    intro stack
    rw [main, if_neg (by simp; omega)]
    rfl
  cases s with
  | nil =>
    refine iff_of_false (fun h => ?_) (by simp [IsMode])
    have hmode := h 0 ⟨rest[0]?, 0⟩ (hmain 0)
    simp [IsMode] at hmode
  | cons c cs =>
    simp only [Parses, hmain, modeLoop_zero]
    by_cases hc : c = 48 ∨ c = 49
    · simp only [if_pos hc, Except.map, Except.ok.injEq, forall_eq']
      constructor
      · intro h
        refine .inr ⟨(h 0).1, (pow_eight_eq_zero _).mp ?_⟩
        have h0 := (h 0).2
        have h1 := (h 1).2
        rw [← h0, foldl_digit _ 1] at h1
        simpa using h1
      · rintro (⟨c', cs', heq, hne⟩ | ⟨hm, hlen⟩) stack
        · cases heq
          tauto
        · refine ⟨hm, ?_⟩
          rw [atoo_eq hm]
          simp only [foldl_digit _ stack, (pow_eight_eq_zero _).mpr hlen, mul_zero, zero_add]
    · simp only [if_neg hc, Except.map, reduceCtorEq, false_imp_iff, implies_true, true_iff]
      exact .inl ⟨c, cs, rfl, by tauto⟩

theorem chmod_parses_long : Parses [[], [48, 48, 48, 48, 48, 48, 48, 48, 55, 53, 53], []]
    [48, 48, 48, 48, 48, 48, 48, 48, 55, 53, 53] :=
  (chmod_parses_iff [] _ [[]] (by decide)).mpr (.inr ⟨by decide, by decide⟩)

/-- `chmod 0755 f` with a 1 on the stack asks for mode 010755. -/
theorem chmod_adds_stack : ¬ Parses [[99], [48, 55, 53, 53], [102]] [48, 55, 53, 53] := by
  intro h
  have hcall := h 1 ⟨some [102], 4589⟩ (by decide)
  exact absurd hcall.2 (by decide)

end Xv6.Chmod
