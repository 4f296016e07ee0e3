import FlowEdit.Text.Basic
import FlowEdit.Text.CharRange

/-!
White space in the wide sense of the Unicode standard, used where values come from outside and
not from program text.
-/

namespace FlowEdit.Text

def whiteSpace : List CharRange :=
  [⟨0x09, 0x0d⟩, ⟨0x1c, 0x20⟩, ⟨0x85, 0x85⟩, ⟨0xa0, 0xa0⟩, ⟨0x1680, 0x1680⟩, ⟨0x2000, 0x200a⟩,
   ⟨0x2028, 0x2029⟩, ⟨0x202f, 0x202f⟩, ⟨0x205f, 0x205f⟩, ⟨0x3000, 0x3000⟩]

def isSpace (c : Char) : Bool := isWithin whiteSpace c

/-- The text without the characters of a class at its end. -/
def dropTail (p : Char → Bool) (t : Text) : Text := (t.reverse.dropWhile p).reverse

def trim (t : Text) : Text := dropTail isSpace (t.dropWhile isSpace)

end FlowEdit.Text
