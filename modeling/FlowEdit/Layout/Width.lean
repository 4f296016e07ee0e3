import FlowEdit.Layout.Reflow
import FlowEdit.Text.Signed

/-!
Re-indenting by any rules. A rule may ask for a column that no line can have: one that is no index,
or one so wide that the machine has no memory for it. Then the lines above are indented, and the
first line that cannot be ends it with an error. Without such a line the result is that of
re-indenting. How much a machine can hold is a parameter, `widest`.
-/

namespace FlowEdit

inductive WidthError
  | notAnIndex
  | outOfMemory
  deriving DecidableEq, Repr

def WidthError.message : WidthError → String
  | .notAnIndex => Text.notAnIndexMessage
  | .outOfMemory => ""

/-- Why a line cannot start in a column, if so, on a machine that holds indentation up to the width
`widest`. A negative column is no obstacle as long as it is an index. -/
def widthError? (widest : Nat) (column : Int) : Option WidthError :=
  if !Text.isIndex column then some .notAnIndex
  else if widest < column then some .outOfMemory
  else none

/-- A line can always start in column 0. -/
theorem widthError?_zero (widest : Nat) : widthError? widest 0 = none := by
  simp [widthError?, Text.isIndex]

/-- The first obstacle met in re-indenting the lines from number `n` on, which stand behind
`before`. The notices are those given up to there. -/
def obstacleFrom (widest : Nat) (T : RuleTable) (range : LineRange) (n : Nat) (before : Text) :
    List Text → Logged (Option WidthError)
  | [] => pure none
  | line :: rest => do
    let plan ← if range.contains n then planLine T before line (Text.following rest)
      else pure none
    match plan with
    | none => obstacleFrom widest T range (n + 1) (before ++ line ++ ['\n']) rest
    | some column =>
      match widthError? widest column with
      | some e => return some e
      | none =>
        obstacleFrom widest T range (n + 1) (before ++ withIndent column line ++ ['\n']) rest

def obstacle (widest : Nat) (T : RuleTable) (t : Text) (range : LineRange) :
    Logged (Option WidthError) :=
  obstacleFrom widest T range 0 [] t.lines

/-- The result of re-indenting lines of a range, unless there is an obstacle. -/
def unlessObstacle {α : Type} (widest : Nat) (T : RuleTable) (t : Text) (range : LineRange)
    (result : Unit → Logged α) : Logged (Except WidthError α) :=
  let o := obstacle widest T t range
  match o.value with
  | some e => ⟨.error e, o.notices⟩
  | none => .ok <$> result ()

/-- What is taken for the widest where nothing is known of the machine. -/
def usualWidest : Nat := 0x1000000000

def indentLine? (T : RuleTable) (t : Text) (line : Int) (widest : Nat := usualWidest) :
    Logged (Except WidthError (Text × Int)) :=
  unlessObstacle widest T t ⟨line, some line⟩ fun _ => indentLine T t line

def lineEdits? (T : RuleTable) (t : Text) (range : LineRange) (widest : Nat := usualWidest) :
    Logged (Except WidthError (List LineEdit)) :=
  unlessObstacle widest T t range fun _ => lineEdits T t range

def reindent? (T : RuleTable) (t : Text) (widest : Nat := usualWidest) :
    Logged (Except WidthError Text) :=
  unlessObstacle widest T t {} fun _ => reindent T t

theorem value_unlessObstacle {α : Type} (widest : Nat) (T : RuleTable) (t : Text)
    (range : LineRange) (result : Unit → Logged α) :
    (unlessObstacle widest T t range result).value =
      match (obstacle widest T t range).value with
      | some e => .error e
      | none => .ok (result ()).value := by
  unfold unlessObstacle
  cases h : (obstacle widest T t range).value <;> simp [h]

theorem value_unlessObstacle_eq_ok_iff {α : Type} {widest : Nat} {T : RuleTable} {t : Text}
    {range : LineRange} {result : Unit → Logged α} {a : α} :
    (unlessObstacle widest T t range result).value = .ok a ↔
      (obstacle widest T t range).value = none ∧ (result ()).value = a := by
  unfold unlessObstacle
  cases h : (obstacle widest T t range).value <;> simp [h]

end FlowEdit
