import FlowEdit.Text.Basic
import FlowEdit.Text.CharRange

/-!
A word as it is shown inside a message: in quotes, with everything escaped that could not be told
apart when printed.
-/

namespace FlowEdit.Text

/-- Characters that show nothing of themselves: controls, format characters, separators other than
the space, and private use. -/
def invisible : List CharRange :=
  [⟨0x00, 0x1f⟩, ⟨0x7f, 0xa0⟩, ⟨0xad, 0xad⟩, ⟨0x600, 0x605⟩, ⟨0x61c, 0x61c⟩, ⟨0x6dd, 0x6dd⟩,
   ⟨0x70f, 0x70f⟩, ⟨0x890, 0x891⟩, ⟨0x8e2, 0x8e2⟩, ⟨0x1680, 0x1680⟩, ⟨0x180e, 0x180e⟩,
   ⟨0x2000, 0x200f⟩, ⟨0x2028, 0x202f⟩, ⟨0x205f, 0x2064⟩, ⟨0x2066, 0x206f⟩, ⟨0x3000, 0x3000⟩,
   ⟨0xe000, 0xf8ff⟩, ⟨0xfeff, 0xfeff⟩, ⟨0xfff9, 0xfffb⟩, ⟨0x110bd, 0x110bd⟩, ⟨0x110cd, 0x110cd⟩,
   ⟨0x13430, 0x13438⟩, ⟨0x1bca0, 0x1bca3⟩, ⟨0x1d173, 0x1d17a⟩, ⟨0xe0001, 0xe0001⟩,
   ⟨0xe0020, 0xe007f⟩, ⟨0xf0000, 0xffffd⟩, ⟨0x100000, 0x10fffd⟩]

def isInvisible (c : Char) : Bool := isWithin invisible c

/-- The last `width` hexadecimal digits of a number, lower case. -/
def hexDigits : Nat → Nat → Text
  | 0, _ => []
  | width + 1, n => hexDigits width (n / 16) ++ [Nat.digitChar (n % 16)]

/-- A character escaped by its number, in the shortest of three widths. -/
def escapeNumber (c : Char) : Text :=
  let n := c.toNat
  if n < 0x100 then '\\' :: 'x' :: hexDigits 2 n
  else if n < 0x10000 then '\\' :: 'u' :: hexDigits 4 n
  else '\\' :: 'U' :: hexDigits 8 n

def escapeChar (mark c : Char) : Text :=
  if c = mark ∨ c = '\\' then ['\\', c]
  else if c = '\n' then ['\\', 'n']
  else if c = '\r' then ['\\', 'r']
  else if c = '\t' then ['\\', 't']
  else if isInvisible c then escapeNumber c
  else [c]

/-- Single quotes are used, unless the word has one in it and no double quote. -/
def quoteMark (w : Text) : Char :=
  if w.contains '\x27' && !w.contains '"' then '"' else '\x27'

def quoted (w : Text) : Text :=
  let mark := quoteMark w
  mark :: w.flatMap (escapeChar mark) ++ [mark]

end FlowEdit.Text
