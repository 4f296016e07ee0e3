import FlowEdit.Form.Anchor
import FlowEdit.Form.Head
import FlowEdit.Form.Reader

/-!
The context of a position: the innermost form open there and whether the position is inside a
string literal. A position is given by the text before it and the text after it. The text after it
matters in two ways only: an atom may go on there, and the head of the form may stand there.
-/

namespace FlowEdit

/-- The innermost open form. `depth` counts the open forms, this one included. -/
structure OpenForm where
  start : Nat
  depth : Nat
  head : Option Text
  children : List Nat
  alignTarget : Option Nat
  deriving DecidableEq, Repr

structure Context where
  inString : Bool
  form : Option OpenForm
  deriving DecidableEq, Repr

/-- Finished children behind the first one, which is the head. -/
def OpenForm.argumentCount (f : OpenForm) : Nat := f.children.length - 1

/-- The child under which a further argument is aligned: the first one on the line of the last
child if that line is below the form's own, otherwise the first argument. -/
def alignTarget (t : Text) (start : Nat) (children : List Nat) : Option Nat :=
  match children.getLast? with
  | none => none
  | some last =>
    let line := Text.lineStartAt t last
    if Text.lineStartAt t start < line then children.find? (line ≤ ·) else children[1]?

namespace Context

/-- The context a reader has found in the text `t`. -/
def ofReader (t : Text) (r : Reader) : Context where
  inString := r.mode.inString
  form := match r.frames with
    | [] => none
    | f :: fs => some
      { start := f.start
        depth := fs.length + 1
        head := FlowEdit.head (t.drop (f.start + 1))
        children := f.children
        alignTarget := FlowEdit.alignTarget t f.start f.children }

/-- The context between `before` and `after`, read from the anchor of `before`. -/
def between (before after : Text) : Context :=
  ofReader (before ++ after) (Reader.upTo (anchor before) before after)

end Context

/-- The context at an offset, which is clamped to the text. -/
def contextAt (t : Text) (pos : Int) : Context :=
  let p := Text.clamp t pos
  Context.between (t.take p) (t.drop p)

/-- Offset of the anchor used at a signed offset. -/
def anchorOf (t : Text) (pos : Int) : Nat := anchor (t.take (Text.cut t pos))

/-- The alignment target of the form that opens at `start`, counting children finished before
`pos`. There is none if no form opens at `start` or it is already closed at `pos`. -/
def alignTargetOf (t : Text) (start pos : Int) : Option Nat :=
  let p := Text.clamp t pos
  if 0 ≤ start ∧ start < p ∧ t[start.toNat]? = some '(' then
    match (Reader.upTo start.toNat (t.take p) (t.drop p)).frames.getLast? with
    | some f => if f.start = start.toNat then alignTarget t f.start f.children else none
    | none => none
  else none

end FlowEdit
