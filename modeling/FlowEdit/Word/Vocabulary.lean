import FlowEdit.Text.Quoted

/-!
The vocabulary of the language: four groups of words. A word is a nonempty run of word characters,
and a vocabulary holds nothing else.
-/

namespace FlowEdit

/-- Letters and digits, the signs of operators, and the marks in front of or behind a name. -/
def isWordChar (c : Char) : Bool := c.isAlphanum || "<>=+*/!_\\?-@:$#".toList.contains c

def isWord (w : Text) : Bool := !w.isEmpty && w.all isWordChar

inductive VocabularyError
  | invalidWord (word : Text)
  deriving DecidableEq, Repr

def VocabularyError.message : VocabularyError → String
  | .invalidWord word => "Invalid vocabulary entry: " ++ String.ofList word.quoted

/-- `statements` transfer control or change a state, `keywords` declare and structure, `operators`
are the functions that are there from the start, and `constructors` build types. -/
structure Vocabulary where
  statements : List Text
  keywords : List Text
  operators : List Text
  constructors : List Text
  all_isWord : (statements ++ keywords ++ operators ++ constructors).all isWord = true

namespace Vocabulary

/-- Every word, in the order of the groups, where it first occurs. -/
def words (v : Vocabulary) : List Text :=
  (v.statements ++ v.keywords ++ v.operators ++ v.constructors).eraseDups

theorem mem_words_iff {v : Vocabulary} {w : Text} :
    w ∈ v.words ↔ w ∈ v.statements ++ v.keywords ++ v.operators ++ v.constructors :=
  List.mem_eraseDups

/-- The vocabulary with the given groups. The first entry that is no word is refused. -/
def ofGroups (statements keywords operators constructors : List Text) :
    Except VocabularyError Vocabulary :=
  match h : (statements ++ keywords ++ operators ++ constructors).find? (!isWord ·) with
  | some w => .error (.invalidWord w)
  | none => .ok
    { statements, keywords, operators, constructors
      all_isWord := by
        rw [List.all_eq_true]
        intro w hw
        simpa using List.find?_eq_none.1 h w hw }

def standard : Vocabulary where
  statements :=
    ["goto", "jump", "branch", "return", "tail-call", "call", "halt", "set!", "store!",
     "assign"].map String.toList
  keywords :=
    ["define", "define-registers", "block", "entry", "the", "if", "if-let", "let",
     "set-registers", "case", "else", "program", "locals", "begin"].map String.toList
  operators :=
    ["+", "-", "*", "/", "<", ">", "<=", ">=", "=", "eq?", "not", "and", "or", "read", "print",
     "vector", "vector-get", "vector-set!", "vector-length", "make-vector", "allocate", "collect",
     "global-value", "zero?", "void"].map String.toList
  constructors :=
    ["Integer", "Boolean", "Void", "Vector", "Fun", "->", "Any"].map String.toList
  all_isWord := by decide +kernel

end Vocabulary

end FlowEdit
