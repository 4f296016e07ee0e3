import FlowEdit.Form.Mode

/-!
Where to start reading. Reading from the beginning of a long text is not needed: a `(` in column 0
normally opens a top-level form. A candidate is trusted unless it stands inside a string literal,
which is judged by reading from the previous candidate, or from the beginning for the first one.
-/

namespace FlowEdit

/-- State of the search for an anchor. `mode` is that of a reading begun at the last candidate. -/
structure AnchorSearch where
  offset : Nat := 0
  anchor : Nat := 0
  mode : Mode := .code
  afterNewline : Bool := false
  deriving DecidableEq, Repr

namespace AnchorSearch

def step (s : AnchorSearch) (c : Char) : AnchorSearch :=
  if s.afterNewline && c == '(' then
    { offset := s.offset + 1
      anchor := if s.mode.inString then s.anchor else s.offset
      mode := .code
      afterNewline := false }
  else
    { offset := s.offset + 1
      anchor := s.anchor
      mode := s.mode.step c
      afterNewline := c == '\n' }

def run (s : AnchorSearch) (t : Text) : AnchorSearch := t.foldl step s

theorem run_append (s : AnchorSearch) (t u : Text) : s.run (t ++ u) = (s.run t).run u := by
  simp [run, List.foldl_append]

end AnchorSearch

/-- Offset in `before` of the last trusted `(` in column 0, or 0 if there is none. -/
def anchor (before : Text) : Nat := (AnchorSearch.run {} before).anchor

end FlowEdit
