import FlowEdit.Keyed
import FlowEdit.Session.Response
import FlowEdit.Session.Settings

/-!
A session with an editor: the documents it has open and the requests it makes about them.
Documents are kept by their percent-decoded URI. Requests about documents with other extensions
are answered with nothing.
-/

namespace FlowEdit

structure Workspace where
  environment : Environment := {}
  documents : Keyed Text Text := .empty

inductive Request
  | configure (changes : List (String × Option Text))
  | greet (client : Option Text)
  | openDocument (uri text : Text)
  | change (uri text : Text)
  | close (uri : Text)
  | text (uri : Text)
  | complete (uri : Text) (position : Position)
  | tokens (uri : Text)
  | format (uri : Text)
  | formatRange (uri : Text) (start stop : Position)
  | formatLine (uri : Text) (position : Position)
  deriving DecidableEq, Repr

inductive Answer
  | done
  | text (text : Option Text)
  | completions (completions : Completions)
  | tokens (data : List Int)
  | edits (edits : List TextEdit)
  deriving DecidableEq, Repr

inductive RequestError
  | badUri (cause : UriError)
  | notOpen
  deriving DecidableEq, Repr

namespace Workspace

def configure (w : Workspace) (changes : List (String × Option Text)) : Workspace :=
  { w with environment := w.environment.setAll changes }

def put (w : Workspace) (uri text : Text) : Workspace :=
  { w with documents := w.documents.insert (Percent.decode uri) text }

/-- A document can only be opened if its URI has a path. -/
def openDocument (w : Workspace) (uri text : Text) : Except RequestError Workspace :=
  match Uri.path uri with
  | .ok _ => .ok (w.put uri text)
  | .error cause => .error (.badUri cause)

/-- Only an open document can change. -/
def change (w : Workspace) (uri text : Text) : Workspace :=
  if w.documents.contains (Percent.decode uri) then w.put uri text else w

def close (w : Workspace) (uri : Text) : Workspace :=
  { w with documents := w.documents.erase (Percent.decode uri) }

/-- The text of a document, or `none` if its extension is not one to be handled. A document that is
not open has to be looked for at the path of its URI. -/
def documentText (w : Workspace) (uri : Text) : Except RequestError (Logged (Option Text)) :=
  match w.environment.handles uri with
  | .error cause => .error (.badUri cause)
  | .ok false => .ok ⟨none, [.ignored uri]⟩
  | .ok true =>
    match w.documents.get? (Percent.decode uri) with
    | some t => .ok (pure (some t))
    | none =>
      match Uri.path uri with
      | .error cause => .error (.badUri cause)
      | .ok _ => .error .notOpen

/-- Answer a request about a document by its text, or by `nothing` if it is not handled. -/
def answerFrom (w : Workspace) (uri : Text) (nothing : Answer) (f : Text → Logged Answer) :
    Except RequestError (Logged Answer) := do
  let text ← w.documentText uri
  return do
    match ← text with
    | none => return nothing
    | some t => f t

/-- The answer to a request. -/
def answer (w : Workspace) : Request → Except RequestError (Logged Answer)
  | .greet client => .ok ⟨.done, [.ready client w.environment.extensions]⟩
  | .text uri => w.answerFrom uri (.text none) fun t => pure (.text (some t))
  | .complete uri p => w.answerFrom uri (.completions {}) fun t =>
    pure (.completions (completionsAt t p))
  | .tokens uri => w.answerFrom uri (.tokens []) fun t => pure (.tokens (tokenData t))
  | .format uri => w.answerFrom uri (.edits []) fun t => do
    let edits ← formattingEdits t {}
    Logged.tell (.formatted uri edits.length)
    return .edits edits
  | .formatRange uri start stop => w.answerFrom uri (.edits []) fun t =>
    .edits <$> formattingEdits t ⟨start.line, some stop.line⟩
  | .formatLine uri p => w.answerFrom uri (.edits []) fun t =>
    .edits <$> formattingEdits t ⟨p.line, some p.line⟩
  | .openDocument uri text => (w.openDocument uri text).map fun _ => pure .done
  | .configure _ | .change _ _ | .close _ => .ok (pure .done)

/-- What a request does to the session. One that fails does nothing. -/
def update (w : Workspace) : Request → Workspace
  | .configure changes => w.configure changes
  | .openDocument uri text => (w.openDocument uri text).toOption.getD w
  | .change uri text => w.change uri text
  | .close uri => w.close uri
  | _ => w

def run (w : Workspace) : List Request → List (Except RequestError (Logged Answer))
  | [] => []
  | r :: rs => w.answer r :: run (w.update r) rs

end Workspace

end FlowEdit
