import FlowEdit.Keyed
import FlowEdit.Layout.Policy
import FlowEdit.Notice

/-!
The rule table: policies by keyword. An alias stands for the policy of another keyword, which may
be an alias again. `resolve` follows such a chain, and gives up after as many steps as the table
has entries, since a longer chain runs in a circle. `check` refuses a table with a chain that
leaves it or does not end.
-/

namespace FlowEdit

abbrev RuleTable := Keyed Text Policy

inductive TableError
  | unknownTarget (keyword target : Text)
  | cycle (path : List Text)
  | missing (keyword : Text)
  deriving DecidableEq, Repr

def TableError.message : TableError → String
  | .unknownTarget keyword target =>
    "'" ++ String.ofList keyword ++ "' is an alias of unknown keyword '"
      ++ String.ofList target ++ "'"
  | .cycle path => "Alias cycle: " ++ " -> ".intercalate (path.map String.ofList)
  | .missing keyword => String.ofList keyword.quoted

namespace RuleTable

/-! ## Following aliases -/

/-- Where the alias chain of a policy ends, or `none` if it takes more than `hops` steps. A name
that is not in the table ends a chain like an unset policy. -/
def follow (T : RuleTable) : Nat → Policy → Option Layout
  | _, .layout l => some l
  | _, .unset => some .align
  | 0, .aliasOf _ => none
  | hops + 1, .aliasOf keyword => follow T hops ((T.get? keyword).getD .unset)

/-- The layout of a form by its head word. -/
def resolve (T : RuleTable) : Option Text → Logged Layout
  | none => pure .align
  | some keyword =>
    match T.follow T.size ((T.get? keyword).getD .unset) with
    | some l => pure l
    | none => do
      Logged.tell (.aliasLoop keyword)
      return .align

/-! ## Checking aliases -/

private theorem fresh_lt {keys seen : List Text} {k : Text} (hk : k ∈ keys) (hs : k ∉ seen) :
    (keys.filter (· ∉ seen ++ [k])).length < (keys.filter (· ∉ seen)).length := by
  have hsub : keys.filter (· ∉ seen ++ [k]) = (keys.filter (· ∉ seen)).filter (· ≠ k) := by
    simp [List.filter_filter, and_comm]
  rw [hsub]
  exact List.length_filter_lt_length_iff_exists.2 ⟨k, by simp [hk, hs], by simp⟩

/-- Follow the chain on from `keyword`, the last of the keywords seen so far. Each step sees one
more key of the table, so the walk ends. -/
def checkChain (T : RuleTable) (seen : List Text) (keyword : Text) : Except TableError Unit :=
  match T.get? keyword with
  | some (.aliasOf target) =>
    if _hk : target ∈ T.keys then
      if _hs : target ∈ seen then .error (.cycle (seen ++ [target]))
      else checkChain T (seen ++ [target]) target
    else .error (.unknownTarget keyword target)
  | _ => .ok ()
termination_by (T.keys.filter (· ∉ seen)).length
decreasing_by exact fresh_lt _hk _hs

/-- Every alias chain ends at a policy of the table; otherwise the first key whose chain does not
is reported. -/
def check (T : RuleTable) : Except TableError Unit :=
  T.keys.forM fun keyword => T.checkChain [keyword] keyword

/-! ## Building and showing -/

/-- The table with the given rules, checked if `strict`. -/
def build (rules : List (Text × Policy)) (strict : Bool) :
    Except TableError (Logged RuleTable) := do
  let T : RuleTable := Keyed.ofList rules
  if strict then T.check
  return ⟨T, [.tableBuilt T.size]⟩

/-- The policy of a keyword that is expected to be in the table. -/
def get (T : RuleTable) (keyword : Text) : Except TableError Policy :=
  match T.get? keyword with
  | some policy => .ok policy
  | none => .error (.missing keyword)

def renderEntry (entry : Text × Policy) : String :=
  String.ofList entry.1.quoted ++ ": " ++ entry.2.render

def render (T : RuleTable) : String :=
  "IndentRuleTable(\x7b" ++ ", ".intercalate (T.entries.map renderEntry) ++ "\x7d)"

/-! ## The table of the language -/

/-- Forms that define a procedure: its name and its parameter list are set apart. -/
def definition : Layout := .special 2 3

/-- Labelled blocks, bindings and branches: one argument is set apart. -/
def block : Layout := .special 1 1

def standard : RuleTable := Keyed.ofList
  [("define".toList, .layout definition),
   ("define-registers".toList, .aliasOf "define".toList),
   ("block".toList, .layout block),
   ("entry".toList, .layout block),
   ("the".toList, .layout block),
   ("if".toList, .layout block),
   ("if-let".toList, .layout block),
   ("let".toList, .layout block),
   ("set-registers".toList, .layout block),
   ("case".toList, .layout block)]

end RuleTable

end FlowEdit
