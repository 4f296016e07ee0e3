import FlowEdit.Text.Signed

/-!
The head of a form: the atom that comes first inside it, behind any blanks and line comments.
-/

namespace FlowEdit

/-- What is left of a text behind its leading blanks and line comments. -/
def skipGap (inComment : Bool) : Text → Text
  | [] => []
  | c :: t =>
    if inComment then skipGap (c != '\n') t
    else if Text.isBlank c then skipGap false t
    else if c = ';' then skipGap true t
    else c :: t

/-- The atom at the beginning of a text, if there is one. -/
def leadingAtom (t : Text) : Option Text :=
  match t.takeWhile Text.isAtomChar with
  | [] => none
  | atom => some atom

/-- The head of a form whose inside begins with `inside`; `none` if the form is empty or begins
with a string or another form. -/
def head (inside : Text) : Option Text := leadingAtom (skipGap false inside)

/-- The head of a form whose inside begins with `tail`, the end of `t`, and goes on with `t` from
its start. A comment in the tail ends at a newline there, or nothing follows it. A head that is
still going on at the end of the tail continues at the start of `t`, and what is reported of it are
the characters of `t` between its two ends. -/
def headAround (t tail : Text) : Option Text :=
  match tail.dropWhile Text.isBlank with
  | [] => head t
  | c :: rest =>
    if c = ';' then head (rest.dropWhile (· != '\n'))
    else if Text.isDelimiter c then none
    else
      let atom := (c :: rest).takeWhile Text.isAtomChar
      if atom.length < rest.length + 1 then some atom
      else some ((t.takeWhile Text.isAtomChar).drop (t.length - atom.length))

/-- The head of the form that opens at a signed offset. In front of the text there is nothing to
read. -/
def headOf (t : Text) (start : Int) : Except OffsetError (Option Text) :=
  let inside := start + 1
  if 0 ≤ inside then .ok (head (t.drop inside.toNat))
  else match t.offsetError? inside with
    | some e => .error e
    | none => .ok (headAround t (t.drop (t.length + inside).toNat))

end FlowEdit
