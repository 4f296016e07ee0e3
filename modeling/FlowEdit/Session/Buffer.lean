import FlowEdit.Layout.Width
import FlowEdit.Word.Candidates
import FlowEdit.Word.Span

/-!
A buffer being edited: commands change its text or ask about it. Offsets in commands are clamped
to the text.
-/

namespace FlowEdit

inductive Command
  | insert (pos : Int) (text : Text)
  | delete (start stop : Int)
  | newline (pos : Int)
  | indentLine (line : Int)
  | reindent
  | edits
  | context (pos : Int)
  | spans (first : Int) (last : Option Int)
  | complete (pos : Int)
  deriving DecidableEq, Repr

inductive Reply
  | done
  | column (column : Int)
  | edits (edits : List LineEdit)
  | context (context : Context)
  | spans (spans : List Span)
  | completion (typed : Text) (words : List Text)
  deriving DecidableEq, Repr

namespace Text

/-- Put `u` in at an offset. -/
def insertAt (t : Text) (pos : Int) (u : Text) : Text :=
  let p := t.clamp pos
  t.take p ++ u ++ t.drop p

/-- Take the characters from `start` up to `stop` out. -/
def deleteBetween (t : Text) (start stop : Int) : Text :=
  let first := t.clamp start
  let last := t.clamp stop
  if last ≤ first then t else t.take first ++ t.drop last

end Text

/-- Indent a line of a buffer. -/
def replyIndented (T : RuleTable) (t : Text) (line : Int) (widest : Nat) :
    Logged (Except WidthError (Text × Reply)) :=
  return (← indentLine? T t line widest).map fun (u, column) => (u, .column column)

/-- The text behind a command on the text `t`, and the reply to it, by the rules of `T` where lines
are indented. A new line is indented as soon as it is begun. -/
def Command.run (T : RuleTable) (t : Text) (widest : Nat) :
    Command → Logged (Except WidthError (Text × Reply))
  | .insert pos u => pure (.ok (t.insertAt pos u, .done))
  | .delete start stop => pure (.ok (t.deleteBetween start stop, .done))
  | .newline pos =>
    replyIndented T (t.insertAt pos ['\n']) ((t.take (t.clamp pos)).count '\n' + 1) widest
  | .indentLine line => replyIndented T t line widest
  | .reindent => return (← reindent? T t widest).map (·, .done)
  | .edits => return (← lineEdits? T t {} widest).map (t, .edits ·)
  | .context pos => pure (.ok (t, .context (contextAt t pos)))
  | .spans first last => pure (.ok (t, .spans (Vocabulary.standard.spans t first last)))
  | .complete pos =>
    let typed := wordBefore t pos
    pure (.ok (t, .completion typed (Vocabulary.standard.complete typed).words))

/-- The text that the next command finds: a command that fails leaves `t` as it is. -/
def textAfter (t : Text) : Except WidthError (Text × Reply) → Text
  | .ok (u, _) => u
  | .error _ => t

/-- Carry out commands one after the other. Each step has the notices of its command only. -/
def Command.runAll (T : RuleTable) (t : Text) (cs : List Command)
    (widest : Nat := usualWidest) : List (Logged (Except WidthError (Text × Reply))) :=
  match cs with
  | [] => []
  | c :: cs =>
    let step := c.run T t widest
    step :: runAll T (textAfter t step.value) cs widest

end FlowEdit
