import FlowEdit.Text.Space

/-!
Positions as editors exchange them: a line and a distance from its start in UTF-16 code units, of
which a character outside the basic plane takes two.
-/

namespace FlowEdit

structure Position where
  line : Nat
  character : Nat
  deriving DecidableEq, Repr

namespace Text

def unitsOf (c : Char) : Nat := if 0xffff < c.toNat then 2 else 1

def units : Text → Nat
  | [] => 0
  | c :: t => unitsOf c + units t

/-- Number of characters it takes to cover `target` units, or all characters of the line. -/
def advance : Nat → Text → Nat
  | 0, _ => 0
  | _, [] => 0
  | target + 1, c :: t => 1 + advance (target + 1 - unitsOf c) t

/-- Offset of a position. Carriage returns at the end of a line are not part of it, and a position
beyond a line or the text goes to the end of that. -/
def offsetAt (t : Text) (p : Position) : Nat :=
  match t.lines.drop p.line with
  | [] => t.length
  | l :: _ =>
    (preceding (t.lines.take p.line)).length + advance p.character (dropTail (· == '\r') l)

end Text

end FlowEdit
