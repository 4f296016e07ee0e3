import FlowEdit.Text.Basic

/-!
Numeric literals: an optional sign, a group of digits and, behind a slash, a second group. A group
is hexadecimal behind `0x` and decimal otherwise, where one `0` may stand in front. It has no other
leading zeros, so it never denotes zero.
-/

namespace FlowEdit.Number

/-- One or more digits, of which the first is not `0`. -/
def isPositive (isDigit : Char → Bool) : Text → Bool
  | [] => false
  | d :: ds => d != '0' && isDigit d && ds.all isDigit

def isGroup : Text → Bool
  | '0' :: 'x' :: ds => isPositive Text.isHexDigit ds
  | '0' :: ds => isPositive Char.isDigit ds
  | ds => isPositive Char.isDigit ds

def unsigned : Text → Text
  | '-' :: w => w
  | '+' :: w => w
  | w => w

def isLiteral (w : Text) : Bool :=
  match (unsigned w).split '/' with
  | [numerator] => isGroup numerator
  | [numerator, denominator] => isGroup numerator && isGroup denominator
  | _ => false

end FlowEdit.Number
