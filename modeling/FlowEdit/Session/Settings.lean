import FlowEdit.Notice
import FlowEdit.Text.LetterCase
import FlowEdit.Text.Space
import FlowEdit.Uri.Path
import FlowEdit.Uri.Percent

/-!
Settings come from two environment variables: one lists the extensions of the files to be handled,
the other names the least level of notices to be shown. How a list is written in a variable depends
on the platform.
-/

namespace FlowEdit

inductive Platform
  | posix
  | windows
  deriving DecidableEq, Repr

/-- The character between the values of a list. -/
def Platform.separator : Platform → Char
  | .posix => ':'
  | .windows => ';'

/-- The two variables, as far as they are set. -/
structure Environment where
  fileExtensions : Option Text := none
  logLevel : Option Text := none
  platform : Platform := .posix
  deriving DecidableEq, Repr

namespace Environment

/-- Set or unset a variable; others have no effect. -/
def set (env : Environment) (name : String) (value : Option Text) : Environment :=
  if name = "CBL_FILE_EXTENSIONS" then { env with fileExtensions := value }
  else if name = "CBL_LS_LOG_LEVEL" then { env with logLevel := value }
  else env

def setAll (env : Environment) (changes : List (String × Option Text)) : Environment :=
  changes.foldl (fun env change => env.set change.1 change.2) env

/-- The values listed in a variable, or `defaults` if it is unset or empty. Space around a value
does not count, and neither do empty values. -/
def listOr (value : Option Text) (defaults : List Text) (platform : Platform := .posix) :
    List Text :=
  match value.getD [] with
  | [] => defaults
  | raw => ((raw.split platform.separator).map Text.trim).filter (· ≠ [])

/-- An extension in lower case, with its dot. -/
def normalExtension (e : Text) : Text :=
  if e.head? = some '.' then e.lower else '.' :: e.lower

def extensions (env : Environment) : List Text :=
  (listOr env.fileExtensions [".cbl".toList] env.platform).map normalExtension

/-- Notices below this level are not shown. An unknown name counts as `INFO`. -/
def threshold (env : Environment) : Level :=
  (Level.ofName? (env.logLevel.getD "INFO".toList).trim.upperAscii).getD .info

/-- A path, or a URI with a path, ends in one of the extensions. -/
def handles (env : Environment) (location : Text) : Except UriError Bool := do
  let path ← if Text.hasInfix "://".toList location then Percent.decode <$> Uri.path location
    else pure location
  return env.extensions.any (·.isSuffixOf path.lower)

end Environment

end FlowEdit
