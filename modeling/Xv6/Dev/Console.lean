import Xv6.Proc.Ops
import Xv6.Lib.Ring
import Xv6.Lib.Transition

set_option autoImplicit false

/-! # Console input (`console.c`)

`input` is a ring of 128 bytes with three free-running indices of 32 bits: readers take at `r`, a
line is edited at `e`, and what lies before `w` is committed. `consoleintr` runs with `cons.lock`
for all the keys that its device has; `consoleread` runs with it from `acquire`, or from the return
of `sleep`, to the next `sleep` or to its end. An action of `Console` is one such section. A reader
may be woken at any time, and it looks at `proc->killed` only when there is nothing to read, so that
one truth value says all there is to know of it in a section.

Keys are bytes, as `kbdgetc` and `uartgetc` return them. The echo on the screen is left out. -/

namespace Xv6

abbrev inputBuf : ℕ := 128

structure Input where
  buf : Fin inputBuf → Byte
  r : Word
  w : Word
  e : Word

/-- `C(x)`. -/
def ctrl (x : Char) : Byte := .ofNat 8 (x.toNat - '@'.toNat)

abbrev newline : Byte := 10

/-- The keys that ask for a list of processes. -/
def listing (b : Build) (c : Byte) : Bool :=
  c = ctrl 'P' || b = .p3p4 && (c = ctrl 'R' || c = ctrl 'F' || c = ctrl 'S' || c = ctrl 'Z')

namespace Input

/-- The loop of `^U`, where `e` is `k` after `w`. -/
def killLine : ℕ → Input → Input
  | 0, s => s
  | k + 1, s => if s.buf (Ring.cell (s.e - 1)) = newline then s
      else killLine k { s with e := s.e - 1 }

/-- `input.buf[input.e++ % INPUT_BUF] = c`. -/
def put (c : Byte) (s : Input) : Input :=
  { s with buf := Function.update s.buf (Ring.cell s.e) c, e := s.e + 1 }

/-- The body of the loop of `consoleintr`. -/
def key (b : Build) (c : Byte) (s : Input) : Input :=
  if listing b c then s
  else if c = ctrl 'U' then killLine (s.e - s.w).toNat s
  else if c = ctrl 'H' ∨ c = 0x7f then (if s.e ≠ s.w then { s with e := s.e - 1 } else s)
  else if c ≠ 0 ∧ (s.e - s.r).toNat < inputBuf then
    let c := if c = 13 then newline else c
    let s := s.put c
    if c = newline ∨ c = ctrl 'D' ∨ s.e = s.r + .ofNat 32 inputBuf then { s with w := s.e } else s
  else s

def consoleintr (b : Build) (keys : List Byte) (s : Input) : Input :=
  keys.foldl (fun s c => s.key b c) s

end Input

/-! ## Readers -/

/-- A call of `consoleread`: how many bytes it may return, those it has stored, and what it has
    returned. -/
structure ReadCall where
  target : Int
  dst : List Byte := []
  result : Option Int := none
  deriving DecidableEq, Repr

namespace ReadCall

/-- `return target - n`, where `n` has gone down with every byte. -/
def ret (k : ReadCall) : ReadCall := { k with result := some k.dst.length }

/-- `*dst++ = c`. -/
def store (c : Byte) (k : ReadCall) : ReadCall := { k with dst := k.dst ++ [c] }

/-- The loops of `consoleread` up to `sleep` or the end, with `n` still to read. -/
def loop (killed : Bool) : ℕ → ReadCall → Input → ReadCall × Input
  | 0, k, s => (k.ret, s)
  | n + 1, k, s =>
    if s.r = s.w then (if killed then { k with result := some (-1) } else k, s)
    else
      let c := s.buf (Ring.cell s.r)
      let s := { s with r := s.r + 1 }
      if c = ctrl 'D' then
        -- the caller is to get a result of 0 bytes the next time
        if (n : Int) + 1 < k.target then (k.ret, { s with r := s.r - 1 }) else (k.ret, s)
      else if c = newline then ((k.store c).ret, s)
      else loop killed n (k.store c) s

/-- `n` in a call that is not finished. -/
def left (k : ReadCall) : ℕ := (k.target - k.dst.length).toNat

/-- One section of `consoleread`. -/
def run (killed : Bool) (k : ReadCall) (s : Input) : ReadCall × Input := loop killed k.left k s

end ReadCall

/-! ## What is typed -/

/-- The committed bytes, and the line that is being edited. -/
structure Typed where
  committed : List Byte := []
  line : List Byte := []
  deriving DecidableEq, Repr

namespace Typed

/-- The buffer is full, when `taken` bytes have been read. -/
def full (taken : ℕ) (t : Typed) : Prop := inputBuf ≤ t.committed.length - taken + t.line.length

instance (taken : ℕ) (t : Typed) : Decidable (t.full taken) := inferInstanceAs (Decidable (_ ≤ _))

def commit (t : Typed) : Typed := ⟨t.committed ++ t.line, []⟩

/-- The rules of line editing. -/
def key (b : Build) (taken : ℕ) (c : Byte) (t : Typed) : Typed :=
  if listing b c then t
  else if c = ctrl 'U' then { t with line := [] }
  else if c = ctrl 'H' ∨ c = 0x7f then { t with line := t.line.dropLast }
  else if c = 0 ∨ t.full taken then t
  else
    let c := if c = 13 then newline else c
    let t := { t with line := t.line ++ [c] }
    if c = newline ∨ c = ctrl 'D' ∨ t.full taken then t.commit else t

def keys (b : Build) (taken : ℕ) (cs : List Byte) (t : Typed) : Typed :=
  cs.foldl (fun t c => t.key b taken c) t

end Typed

/-! ## The console -/

/-- The input buffer with the calls of `consoleread` so far, the bytes they have taken out of the
    buffer, each with the number of the call, and what has been typed. -/
structure Console where
  input : Input
  calls : List ReadCall
  consumed : List (ℕ × Byte)
  typed : Typed

inductive ConsoleAct
  | intr (keys : List Byte)
  | read (n : Int) (killed : Bool)
  | wake (i : ℕ) (killed : Bool)
  deriving DecidableEq, Repr

namespace Console

/-- Call number `i` runs as call `k`. What it takes out of the buffer is what `r` moves past. -/
def attempt (i : ℕ) (killed : Bool) (k : ReadCall) (s : Console) :
    ReadCall × Input × List (ℕ × Byte) :=
  let (k', input) := k.run killed s.input
  (k', input, (Ring.contents s.input.buf s.input.r input.r).map (Prod.mk i))

def step (b : Build) (a : ConsoleAct) (s : Console) : Except Unit Console :=
  match a with
  | .intr keys => .ok { s with
      input := s.input.consoleintr b keys, typed := s.typed.keys b s.consumed.length keys }
  | .read n killed =>
    let (k, input, bytes) := s.attempt s.calls.length killed { target := n }
    .ok { s with input := input, calls := s.calls ++ [k], consumed := s.consumed ++ bytes }
  | .wake i killed =>
    match s.calls[i]? with
    | some k =>
      if k.result = none then
        let (k', input, bytes) := s.attempt i killed k
        .ok { s with input := input, calls := s.calls.set i k', consumed := s.consumed ++ bytes }
      else .error ()
    | none => .error ()

/-- Nothing typed. The indices may have come to any value. -/
def Init (s : Console) : Prop :=
  s.input.w = s.input.r ∧ s.input.e = s.input.r ∧ s.calls = [] ∧ s.consumed = [] ∧ s.typed = {}

/-- The bytes that call number `i` has taken. -/
def took (s : Console) (i : ℕ) : List Byte := (s.consumed.filter fun x => x.1 = i).map Prod.snd

end Console

end Xv6
