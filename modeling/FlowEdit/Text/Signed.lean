import FlowEdit.Text.Basic

/-!
Signed offsets: a negative offset counts back from the end of the text. Here are the queries that
accept one without clamping it first; those that read a character fail in front of the text.
Offsets at which a character is read, and lengths, are limited to signed 64-bit numbers.
-/

namespace FlowEdit

namespace Text

def isIndex (n : Int) : Bool := -0x8000000000000000 ≤ n && n < 0x8000000000000000

/-- What is said of a number that is no index. -/
def notAnIndexMessage : String := "cannot fit 'int' into an index-sized integer"

end Text

inductive OffsetError
  | outOfRange
  | notAnIndex
  deriving DecidableEq, Repr

def OffsetError.message : OffsetError → String
  | .outOfRange => "string index out of range"
  | .notAnIndex => Text.notAnIndexMessage

namespace Text

/-- Why nothing can be read at a negative offset, if so. -/
def offsetError? (t : Text) (pos : Int) : Option OffsetError :=
  if !isIndex pos then some .notAnIndex
  else if t.length + pos < 0 then some .outOfRange
  else none

/-- The number of characters of `t` before a signed offset. -/
def cut (t : Text) (pos : Int) : Nat :=
  if 0 ≤ pos then min pos.toNat t.length else (t.length + pos).toNat

/-- The characters met when reading onwards from a signed offset: from a negative one the tail of
the text comes first, then the text from its start. -/
def readFrom (t : Text) (pos : Int) : Except OffsetError Text :=
  if 0 ≤ pos then .ok (t.drop pos.toNat)
  else match offsetError? t pos with
    | some e => .error e
    | none => .ok (t.drop (t.length + pos).toNat ++ t)

def lineStartOf (t : Text) (pos : Int) : Nat := lineStart (t.take (cut t pos))

/-- Distance from the start of the line; it is measured from `pos` as given. -/
def columnOf (t : Text) (pos : Int) : Int := pos - lineStartOf t pos

/-- Offset just past the atom at `pos`, or `pos` itself where no atom stands. -/
def atomEnd (t : Text) (pos : Int) : Except OffsetError Int := do
  let ahead ← readFrom t pos
  return pos + (ahead.takeWhile isAtomChar).length

/-- Characters up to and including the closing quote of a string body, looking at no more than
`budget` characters; an escaped character counts, but is not looked at. -/
def closingQuote : Text → Nat → Except OffsetError (Option Nat)
  | _, 0 => .ok none
  | [], _ + 1 => .error .outOfRange
  | c :: rest, budget + 1 =>
    if c = '"' then .ok (some 1)
    else if c = '\\' then
      match rest, budget with
      | _, 0 => .ok none
      | [], 1 => .ok none
      | [], _ + 2 => .error .outOfRange
      | _ :: rest, budget + 1 => return (← closingQuote rest budget).map (· + 2)
    else return (← closingQuote rest budget).map (· + 1)

/-- Offset just past the string whose opening quote is at `pos`, or `none` if it is not closed
before `limit`. -/
def stringEnd (t : Text) (pos limit : Int) : Except OffsetError (Option Int) :=
  let body := pos + 1
  if limit ≤ body then .ok none
  else if !isIndex body then .error .notAnIndex
  else do
    let ahead ← readFrom t body
    return (← closingQuote ahead (limit - body).toNat).map (body + ·)

end Text

end FlowEdit
