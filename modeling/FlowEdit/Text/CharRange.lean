/-!
Classes of characters that a standard gives by the ranges of their numbers.
-/

namespace FlowEdit.Text

/-- The characters numbered from `first` to `last`, both included. -/
structure CharRange where
  first : Nat
  last : Nat
  deriving DecidableEq, Repr

def CharRange.contains (r : CharRange) (c : Char) : Bool :=
  r.first ≤ c.toNat && c.toNat ≤ r.last

def isWithin (ranges : List CharRange) (c : Char) : Bool := ranges.any (·.contains c)

end FlowEdit.Text
