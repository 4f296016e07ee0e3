import FlowEdit.Form.Context
import FlowEdit.Layout.Table

/-!
The column at which a line should start, from the context of its beginning.
-/

namespace FlowEdit

/-- Column for a line that starts in an open form. The text is needed for the columns of the
form and of the child to align with. -/
def OpenForm.column (T : RuleTable) (t : Text) (f : OpenForm) : Logged Int :=
  let base : Int := t.columnAt f.start
  match f.head with
  | none => pure (base + 1)
  | some _ => do
    match ← T.resolve f.head with
    | .special count bodyOffset =>
      return if count ≤ f.argumentCount then base + bodyOffset else base + 1
    | .align =>
      match f.alignTarget with
      | none => return base + 1
      | some child => return t.columnAt child

/-- Outside all forms a line starts in column 0. -/
def Context.column (T : RuleTable) (t : Text) (c : Context) : Logged Int :=
  match c.form with
  | none => pure 0
  | some f => f.column T t

/-- Column for the line that holds an offset. -/
def indentAt (T : RuleTable) (t : Text) (pos : Int) : Logged Int :=
  (contextAt t (t.lineStartAt (t.clamp pos))).column T t

end FlowEdit
