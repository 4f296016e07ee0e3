import FlowEdit.Word.Number
import FlowEdit.Word.Vocabulary

/-!
What a word is, for highlighting. The groups of the vocabulary come first, then literals, then the
marks of references.
-/

namespace FlowEdit

inductive Category
  | statement
  | keyword
  | operator
  | constructor
  | number
  | boolean
  | globalRef
  | functionRef
  | labelRef
  | plain
  deriving DecidableEq, Repr

namespace Category

def name : Category → String
  | .statement => "statement"
  | .keyword => "misc-keyword"
  | .operator => "operator"
  | .constructor => "type-constructor"
  | .number => "numeric-literal"
  | .boolean => "boolean-literal"
  | .globalRef => "global-ref"
  | .functionRef => "function-ref"
  | .labelRef => "label-ref"
  | .plain => "plain-identifier"

def all : List Category :=
  [.statement, .keyword, .operator, .constructor, .number, .boolean, .globalRef, .functionRef,
   .labelRef, .plain]

end Category

def isBoolean (w : Text) : Bool :=
  match w with
  | ['#', c] => "tTfF".toList.contains c
  | _ => false

/-- The category of a word that is in no vocabulary. -/
def categoryByShape (w : Text) : Category :=
  if Number.isLiteral w then .number
  else if isBoolean w then .boolean
  else if w.head? = some '@' then .functionRef
  else if w.head? = some '$' then .globalRef
  else if w.getLast? = some ':' then .labelRef
  else .plain

def Vocabulary.classify (v : Vocabulary) (w : Text) : Category :=
  if v.statements.contains w then .statement
  else if v.keywords.contains w then .keyword
  else if v.operators.contains w then .operator
  else if v.constructors.contains w then .constructor
  else categoryByShape w

end FlowEdit
