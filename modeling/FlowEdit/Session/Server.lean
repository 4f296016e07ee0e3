import FlowEdit.Session.Settings

/-!
The server as a whole: how it presents itself, and how it starts.
-/

namespace FlowEdit.Server

def name : String := "cbl-ls"

def version : String := "0.1.0"

/-- The version as it is told to editors. -/
def versionTag : String := "v" ++ version

/-- Characters that ask for completions when typed. -/
def completionTriggers : List Char := ['(']

/-- The character that asks for a new line to be indented when typed. -/
def indentTrigger : Char := '\n'

/-- Tokens carry no modifiers. -/
def tokenModifiers : List String := []

/-- The level from which on notices are shown. Starting is itself worth a notice, which is shown
if it reaches that level. -/
def start (env : Environment) : Logged Level :=
  let notice := Notice.starting name.toList
  ⟨env.threshold, if env.threshold.rank ≤ notice.level.rank then [notice] else []⟩

end FlowEdit.Server
