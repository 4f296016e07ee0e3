import FlowEdit.Word.Vocabulary

/-!
Completing a word that is being typed.
-/

namespace FlowEdit

/-- Words to choose from. Unless they are exclusive, others may be added to them. -/
structure Candidates where
  words : List Text
  exclusive : Bool := false
  deriving DecidableEq, Repr

/-- The words of the vocabulary that begin like this; nothing begins like the empty word. -/
def Vocabulary.complete (v : Vocabulary) (typed : Text) : Candidates :=
  { words := if typed = [] then [] else v.words.filter typed.isPrefixOf }

/-- Characters in front of which a word to be completed begins. -/
def isWordBreak (c : Char) : Bool := " \t\r\n()\";".toList.contains c

/-- The word being typed at the end of `before`. -/
def wordAtEnd (before : Text) : Text := (before.reverse.takeWhile (!isWordBreak ·)).reverse

def wordBefore (t : Text) (pos : Int) : Text := wordAtEnd (t.take (t.clamp pos))

end FlowEdit
