import FlowEdit.Layout.Column

/-!
Re-indenting lines. Lines are taken from the top, each one in the text whose earlier lines have
already been moved. A line that starts inside a string literal is left alone, a line of blanks
loses its indentation, and any other line gets the column of its context. A negative column
leaves no indentation.
-/

namespace FlowEdit

/-- Replace the first `width` characters of a line, its old indentation, by `column` spaces. -/
structure LineEdit where
  line : Nat
  width : Nat
  column : Int
  deriving DecidableEq, Repr

/-- Number of spaces and tabs at the beginning of a line. -/
def indentWidth (line : Text) : Nat := (line.takeWhile Text.isIndent).length

def withIndent (column : Int) (line : Text) : Text :=
  Text.spaces column.toNat ++ line.dropWhile Text.isIndent

/-- The column for a line between `before` and `after`, or `none` if it is to be left alone. -/
def planLine (T : RuleTable) (before line after : Text) : Logged (Option Int) :=
  let context := Context.between before (line ++ after)
  if context.inString then pure none
  else if line.all Text.isBlank then pure (some 0)
  else some <$> context.column T (before ++ line ++ after)

/-! ## One line -/

/-- Re-indent one line. Gives the new text and the line's column; a line that is not there has
column 0, and one left alone has the width of its indentation. -/
def indentLine (T : RuleTable) (t : Text) (line : Int) : Logged (Text × Int) :=
  let ls := t.lines
  if line < 0 then pure (t, 0)
  else match ls.drop line.toNat with
    | [] => pure (t, 0)
    | l :: rest => do
      let before := Text.preceding (ls.take line.toNat)
      let after := Text.following rest
      match ← planLine T before l after with
      | none => return (t, (indentWidth l : Int))
      | some column => return (before ++ withIndent column l ++ after, column)

/-! ## Many lines -/

/-- A line as it becomes, with the edit that makes it so if it changes. -/
structure Reflowed where
  line : Text
  edit : Option LineEdit := none
  deriving DecidableEq, Repr

def reflowLine (T : RuleTable) (n : Nat) (before line after : Text) : Logged Reflowed := do
  match ← planLine T before line after with
  | none => return { line }
  | some column =>
    let moved := withIndent column line
    if moved = line then return { line }
    else return { line := moved, edit := some ⟨n, indentWidth line, column⟩ }

/-- Lines `first` to `last`, both included; without `last`, to the end. -/
structure LineRange where
  first : Int := 0
  last : Option Int := none
  deriving DecidableEq, Repr

def LineRange.contains (r : LineRange) (n : Nat) : Bool := r.first ≤ n && r.last.all ((n : Int) ≤ ·)

/-- Take the lines from number `n` on, which stand behind `before`. -/
def reflowFrom (T : RuleTable) (range : LineRange) (n : Nat) (before : Text) :
    List Text → Logged (List Reflowed)
  | [] => pure []
  | line :: rest => do
    let r ← if range.contains n then reflowLine T n before line (Text.following rest)
      else pure { line }
    let rs ← reflowFrom T range (n + 1) (before ++ r.line ++ ['\n']) rest
    return r :: rs

def reflow (T : RuleTable) (t : Text) (range : LineRange := {}) : Logged (List Reflowed) :=
  reflowFrom T range 0 [] t.lines

/-- The edits that re-indent the lines of a range. Each width is that of the line in `t`. -/
def lineEdits (T : RuleTable) (t : Text) (range : LineRange := {}) : Logged (List LineEdit) :=
  return (← reflow T t range).filterMap Reflowed.edit

/-- The text with every line re-indented. -/
def reindent (T : RuleTable) (t : Text) : Logged Text :=
  return Text.unlines ((← reflow T t).map Reflowed.line)

end FlowEdit
