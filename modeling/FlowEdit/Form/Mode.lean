import FlowEdit.Text.Basic

/-!
What a character means depends on what it stands in: code, a line comment, a string literal, or
just behind a backslash in a string literal. Reading is a fold of one step per character, so the
reading of a text is determined by the mode in which it begins.
-/

namespace FlowEdit

inductive Mode
  | code
  | comment
  | string
  | escape
  deriving DecidableEq, Repr

namespace Mode

def step : Mode → Char → Mode
  | .code, c => if c = '"' then .string else if c = ';' then .comment else .code
  | .comment, c => if c = '\n' then .code else .comment
  | .string, c => if c = '\\' then .escape else if c = '"' then .code else .string
  | .escape, _ => .string

def run (m : Mode) (t : Text) : Mode := t.foldl step m

def inString : Mode → Bool
  | .string | .escape => true
  | .code | .comment => false

@[simp]
theorem run_nil (m : Mode) : m.run [] = m := rfl

@[simp]
theorem run_cons (m : Mode) (c : Char) (t : Text) : m.run (c :: t) = (m.step c).run t := rfl

theorem run_append (m : Mode) (t u : Text) : m.run (t ++ u) = (m.run t).run u := by
  simp [run, List.foldl_append]

end Mode

end FlowEdit
