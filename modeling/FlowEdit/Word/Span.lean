import FlowEdit.Form.Anchor
import FlowEdit.Word.Category

/-!
The words of a text and their categories. Words are the maximal runs of word characters outside
comments and string literals.
-/

namespace FlowEdit

/-- A word and the offset at which it starts. -/
structure Run where
  start : Nat
  word : Text
  deriving DecidableEq, Repr

/-- A classified stretch of text, from `start` up to but not including `stop`. -/
structure Span where
  start : Nat
  stop : Nat
  category : Category
  deriving DecidableEq, Repr

def Run.stop (r : Run) : Nat := r.start + r.word.length

def Run.span (v : Vocabulary) (r : Run) : Span := ⟨r.start, r.stop, v.classify r.word⟩

/-- The run that ends at `offset`, if the characters read for it are any. -/
def endRun (offset : Nat) (word : Text) : List Run :=
  if word = [] then [] else [⟨offset - word.length, word⟩]

/-- The words of a text that begins at `offset` in the given mode, where `word` is the part of a
run that was read just before. A backslash that ends the text inside a string escapes nothing; it
does not belong to the string and is a word. -/
def runsFrom (mode : Mode) (offset : Nat) (word : Text) : Text → List Run
  | [] => endRun offset word ++ if mode = .escape then [⟨offset - 1, ['\\']⟩] else []
  | c :: t =>
    if mode = .code ∧ isWordChar c then runsFrom .code (offset + 1) (word ++ [c]) t
    else endRun offset word ++ runsFrom (mode.step c) (offset + 1) [] t

/-- The words of `t` from `start` on, read as code from there. -/
def runs (t : Text) (start : Nat) : List Run := runsFrom .code start [] (t.drop start)

/-- Spans of the words that overlap the stretch from `first` to `last`, whole even if they reach
out of it; without `last`, to the end. Reading begins at an anchor, so that it does not begin
inside a string. -/
def Vocabulary.spans (v : Vocabulary) (t : Text) (first : Int) (last : Option Int) : List Span :=
  let s := t.clamp first
  let e := (last.map t.clamp).getD t.length
  if e ≤ s then []
  else ((runs t (anchor (t.take s))).filter fun r => r.start < e && s < r.stop).map (·.span v)

/-- Spans of all words of a text. -/
def Vocabulary.allSpans (v : Vocabulary) (t : Text) : List Span := v.spans t 0 none

end FlowEdit
