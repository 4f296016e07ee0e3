import FlowEdit.Form.Mode

/-!
Reading forms. The reader keeps the forms that are open, innermost first, each with the offsets of
its finished children (atoms, strings and closed forms), and the start of a token it is still in.
A stray `)` is ignored, and so is a finished token outside all forms.
-/

namespace FlowEdit

/-- A form that is still open: the offset of its `(` and of its finished children, in order. -/
structure Frame where
  start : Nat
  children : List Nat := []
  deriving DecidableEq, Repr

structure Reader where
  offset : Nat
  mode : Mode := .code
  token : Option Nat := none
  frames : List Frame := []
  deriving DecidableEq, Repr

namespace Frame

def addChild (f : Frame) (child : Nat) : Frame := { f with children := f.children ++ [child] }

/-- A finished child belongs to the innermost open form. -/
def addInnermost (child : Nat) : List Frame → List Frame
  | [] => []
  | f :: fs => f.addChild child :: fs

/-- Close the innermost form, which becomes a child of the next one out. -/
def close : List Frame → List Frame
  | [] => []
  | f :: fs => addInnermost f.start fs

end Frame

namespace Reader

/-- The token the reader is in, if any, is complete. -/
def finishToken (r : Reader) : Reader :=
  match r.token with
  | none => r
  | some start => { r with token := none, frames := Frame.addInnermost start r.frames }

def readCode (r : Reader) (c : Char) : Reader :=
  if Text.isAtomChar c then { r with token := some (r.token.getD r.offset) }
  else
    let r := r.finishToken
    if c = '(' then { r with frames := { start := r.offset } :: r.frames }
    else if c = ')' then { r with frames := Frame.close r.frames }
    else if c = '"' then { r with token := some r.offset }
    else r

def readString (r : Reader) (c : Char) : Reader := if c = '"' then r.finishToken else r

def step (r : Reader) (c : Char) : Reader :=
  let read := match r.mode with
    | .code => r.readCode c
    | .string => r.readString c
    | .comment | .escape => r
  { read with offset := r.offset + 1, mode := r.mode.step c }

def run (r : Reader) (t : Text) : Reader := t.foldl step r

/-- Stop in front of `after`. An atom that goes on there is cut, not complete. -/
def settle (r : Reader) (after : Text) : Reader :=
  if r.mode = .code ∧ !after.head?.any Text.isAtomChar then r.finishToken else r

/-- Read `before`, which is followed by `after`, starting at offset `start`. -/
def upTo (start : Nat) (before after : Text) : Reader :=
  (run { offset := start } (before.drop start)).settle after

theorem run_append (r : Reader) (t u : Text) : r.run (t ++ u) = (r.run t).run u := by
  simp [run, List.foldl_append]

theorem mode_step (r : Reader) (c : Char) : (r.step c).mode = r.mode.step c := rfl

theorem offset_step (r : Reader) (c : Char) : (r.step c).offset = r.offset + 1 := rfl

theorem mode_run (r : Reader) (t : Text) : (r.run t).mode = r.mode.run t := by
  induction t generalizing r with
  | nil => rfl
  | cons c t ih => exact ih (r.step c)

end Reader

end FlowEdit
