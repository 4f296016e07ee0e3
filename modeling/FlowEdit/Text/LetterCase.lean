import FlowEdit.Text.Basic
import FlowEdit.Text.LetterCase.Table

/-!
Lower case by the rules of the Unicode standard. Two capitals need more than the table: a dotted
capital I becomes two characters, and a capital sigma has a form of its own at the end of a word.
-/

namespace FlowEdit.Text

namespace LetterCase

def isCased (c : Char) : Bool := isWithin cased c

def isCaseIgnorable (c : Char) : Bool := isWithin caseIgnorable c

/-- The first character that is not passed over has case. -/
def facesCased (t : Text) : Bool := (t.dropWhile isCaseIgnorable).head?.any isCased

/-- Lower case of one character, which stands behind `before` (last character first) and in front
of `after`. -/
def lowerChar (before : Text) (c : Char) (after : Text) : Text :=
  if c = 'Σ' then [if facesCased before && !facesCased after then 'ς' else 'σ']
  else if c = 'İ' then ['i', '\u0307']
  else match capitals.find? (·.contains c) with
    | some r => [Char.ofNat (r.lower + (c.toNat - r.first))]
    | none => [c]

def lowerAfter (before : Text) : Text → Text
  | [] => []
  | c :: t => lowerChar before c t ++ lowerAfter (c :: before) t

end LetterCase

def lower (t : Text) : Text := LetterCase.lowerAfter [] t

/-- Upper case of the characters whose capital is an ASCII letter: `a` to `z`, the long s and the
dotless i. All others stay. -/
def upperAscii (t : Text) : Text :=
  t.map fun c => if c = 'ſ' then 'S' else if c = 'ı' then 'I' else c.toUpper

end FlowEdit.Text
