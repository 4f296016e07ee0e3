import FlowEdit.Text.Basic

/-!
Reading bytes as UTF-8. The decoder takes one byte at a time and is always in a definite state, so
it can be stopped anywhere. Bytes that are no part of a character are replaced: as many of them as
could have begun one by a single replacement character.
-/

namespace FlowEdit.Utf8

/-- Between characters, or inside one that wants `more` further bytes: `value` is what its bytes
have given so far, and the next byte lies between `low` and `high`. -/
inductive State
  | start
  | inside (value more low high : Nat)
  deriving DecidableEq, Repr

def replacement : Char := '\ufffd'

/-- The state behind the first byte of a longer character. The bounds on the second byte exclude
numbers that have a shorter form, surrogates, and numbers past the last character. -/
def lead? (b : Nat) : Option State :=
  if b < 0xc2 then none
  else if b < 0xe0 then some (.inside (b - 0xc0) 1 0x80 0xbf)
  else if b < 0xf0 then
    some (.inside (b - 0xe0) 2 (if b = 0xe0 then 0xa0 else 0x80) (if b = 0xed then 0x9f else 0xbf))
  else if b < 0xf5 then
    some (.inside (b - 0xf0) 3 (if b = 0xf0 then 0x90 else 0x80) (if b = 0xf4 then 0x8f else 0xbf))
  else none

namespace State

/-- A byte that begins a character, or none. -/
def first (b : Nat) : Text × State :=
  if b < 0x80 then ([Char.ofNat b], .start)
  else match lead? b with
    | some s => ([], s)
    | none => ([replacement], .start)

/-- The characters that one more byte completes, and the state behind it. -/
def step (s : State) (byte : UInt8) : Text × State :=
  let b := byte.toNat
  match s with
  | .start => first b
  | .inside value more low high =>
    if low ≤ b ∧ b ≤ high then
      let value := value * 64 + (b - 0x80)
      if more ≤ 1 then ([Char.ofNat value], .start)
      else ([], .inside value (more - 1) 0x80 0xbf)
    else (replacement :: (first b).1, (first b).2)

/-- What is left to write when no more bytes come. -/
def finish : State → Text
  | .start => []
  | .inside .. => [replacement]

end State

end FlowEdit.Utf8
