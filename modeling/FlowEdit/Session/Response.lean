import FlowEdit.Layout.Reflow
import FlowEdit.Text.Utf16
import FlowEdit.Word.Candidates
import FlowEdit.Word.Span

/-!
What an editor asks of a text, in the form in which it expects the answer: completions, tokens for
highlighting, and edits that re-indent.
-/

namespace FlowEdit

/-! ## Completion -/

inductive ItemKind
  | text
  | function
  | typeName
  | keyword
  deriving DecidableEq, Repr

def ItemKind.number : ItemKind → Nat
  | .text => 1
  | .function => 3
  | .typeName => 7
  | .keyword => 14

def ItemKind.ofCategory : Category → ItemKind
  | .statement | .keyword => .keyword
  | .operator => .function
  | .constructor => .typeName
  | _ => .text

structure CompletionItem where
  label : Text
  kind : ItemKind
  deriving DecidableEq, Repr

/-- An incomplete list has to be asked for again when more is typed. -/
structure Completions where
  items : List CompletionItem := []
  isIncomplete : Bool := false
  deriving DecidableEq, Repr

/-- Completions at a position. The vocabulary does not change, so the list is complete. -/
def completionsAt (t : Text) (p : Position) : Completions where
  items :=
    (Vocabulary.standard.complete (wordBefore t (t.offsetAt p))).words.map fun w =>
      ⟨w, .ofCategory (Vocabulary.standard.classify w)⟩

/-! ## Tokens -/

/-- The name under which an editor knows a category. Plain words have none and are not sent. -/
def Category.tokenType : Category → Option String
  | .statement => some "keyword"
  | .keyword => some "macro"
  | .operator => some "operator"
  | .constructor => some "type"
  | .number => some "number"
  | .boolean => some "enumMember"
  | .globalRef => some "variable"
  | .functionRef => some "function"
  | .labelRef => some "label"
  | .plain => none

/-- The token types in the order in which they are numbered. -/
def legend : List String := Category.all.filterMap Category.tokenType

def Category.tokenIndex (c : Category) : Option Nat := c.tokenType.map legend.idxOf

/-- How far the tokens of a text are sent: the line that has been counted to, the offset at which it
begins, and the position of the last token sent. -/
structure TokenWalk where
  line : Nat := 0
  lineBegin : Nat := 0
  previous : Position := ⟨0, 0⟩
  deriving DecidableEq, Repr

namespace TokenWalk

/-- Take one span. A token is sent as five numbers: lines down from the previous token, columns on
from it if it is on the same line and from the line start otherwise, length, type, and no modifiers.
Newlines are counted from the line of the previous token on. Words are ASCII, so their length in
units is that in characters. -/
def step (t : Text) (w : TokenWalk) (s : Span) : TokenWalk × List Int :=
  match s.category.tokenIndex with
  | none => (w, [])
  | some index =>
    let line := w.line + ((t.take s.start).drop w.lineBegin).count '\n'
    let lineBegin := t.lineStartAt s.start
    let column := Text.units ((t.take s.start).drop lineBegin)
    let down : Int := line - w.previous.line
    let across : Int := if down = 0 then (column : Int) - w.previous.character else column
    ({ line, lineBegin, previous := ⟨line, column⟩ }, [down, across, s.stop - s.start, index, 0])

def run (t : Text) (w : TokenWalk) : List Span → List Int
  | [] => []
  | s :: ss => (w.step t s).2 ++ run t (w.step t s).1 ss

end TokenWalk

/-- The tokens of a text, as they are sent. -/
def tokenData (t : Text) : List Int := TokenWalk.run t {} (Vocabulary.standard.allSpans t)

/-! ## Formatting -/

structure TextEdit where
  start : Position
  stop : Position
  newText : Text
  deriving DecidableEq, Repr

/-- Indentation is ASCII, so its width in units is that in characters. -/
def LineEdit.textEdit (e : LineEdit) : TextEdit :=
  ⟨⟨e.line, 0⟩, ⟨e.line, e.width⟩, Text.spaces e.column.toNat⟩

/-- Edits that re-indent the lines of a range by the rules of the language. -/
def formattingEdits (t : Text) (range : LineRange) : Logged (List TextEdit) :=
  return (← lineEdits RuleTable.standard t range).map LineEdit.textEdit

end FlowEdit
