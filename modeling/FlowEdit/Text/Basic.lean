/-!
Text as an editor holds it: a list of characters. Offsets count characters, and only `'\n'` ends
a line. A position inside a text is mostly given by the stretch before it, so line starts and
columns are functions of that stretch.
-/

namespace FlowEdit

abbrev Text := List Char

namespace Text

/-! ## Character classes -/

def blanks : Text := [' ', '\t', '\r', '\n', '\x0c', '\x0b']

def delimiters : Text := ['(', ')', ';', '"']

def isBlank (c : Char) : Bool := blanks.contains c

def isDelimiter (c : Char) : Bool := delimiters.contains c

/-- An atom is a maximal run of these. -/
def isAtomChar (c : Char) : Bool := !isBlank c && !isDelimiter c

/-- Indentation is made of spaces and tabs; the other blanks belong to the line's content. -/
def isIndent (c : Char) : Bool := c == ' ' || c == '\t'

def isHexDigit (c : Char) : Bool :=
  c.isDigit || ('a' ≤ c && c ≤ 'f') || ('A' ≤ c && c ≤ 'F')

/-- The value of a decimal or hexadecimal digit. -/
def digitValue (c : Char) : Nat :=
  if c.isDigit then c.toNat - '0'.toNat
  else if 'a' ≤ c then c.toNat - 'a'.toNat + 10
  else c.toNat - 'A'.toNat + 10

def spaces (n : Nat) : Text := List.replicate n ' '

/-! ## Offsets -/

/-- The offset inside `t` nearest to `pos`. -/
def clamp (t : Text) (pos : Int) : Nat := min pos.toNat t.length

/-- Column reached by reading one more character. -/
def columnStep (column : Nat) (c : Char) : Nat := if c = '\n' then 0 else column + 1

/-- Column of the end of `before`: the number of characters after its last newline. -/
def column (before : Text) : Nat := before.foldl columnStep 0

/-- Offset at which the last line of `before` starts. -/
def lineStart (before : Text) : Nat := before.length - column before

def columnAt (t : Text) (offset : Nat) : Nat := column (t.take offset)

def lineStartAt (t : Text) (offset : Nat) : Nat := lineStart (t.take offset)

/-! ## Pieces -/

/-- The pieces of a text between the separators; there is always at least one. -/
def split (sep : Char) : Text → List Text
  | [] => [[]]
  | c :: t =>
    if c = sep then [] :: split sep t
    else match split sep t with
      | [] => [[c]]
      | piece :: pieces => (c :: piece) :: pieces

def lines (t : Text) : List Text := split '\n' t

/-- The text whose lines are the given ones. -/
def unlines : List Text → Text
  | [] => []
  | [l] => l
  | l :: ls => l ++ '\n' :: unlines ls

/-- What follows a line whose later lines are `ls`. -/
def following : List Text → Text
  | [] => []
  | ls => '\n' :: unlines ls

/-- What precedes a line whose earlier lines are `ls`. -/
def preceding (ls : List Text) : Text := ls.flatMap (· ++ ['\n'])

/-- The part in front of the first `stop`, or all of it. -/
def upToChar (stop : Char) (t : Text) : Text := t.takeWhile (· != stop)

/-- The part behind the last `sep`, or all of it. -/
def afterLast (sep : Char) (t : Text) : Text := (t.reverse.takeWhile (· != sep)).reverse

/-- Some stretch of the text reads `w`. -/
def hasInfix (w : Text) : Text → Bool
  | [] => w.isEmpty
  | c :: t => w.isPrefixOf (c :: t) || hasInfix w t

/-! ## Small facts -/

theorem toNat_lt_of_isAlphanum {c : Char} (h : c.isAlphanum = true) : c.toNat < 128 := by
  have hval : c.val ≤ 'z'.val := by
    rcases Bool.or_eq_true_iff.mp h with halpha | hdigit
    · rcases Bool.or_eq_true_iff.mp halpha with hupper | hlower
      · exact UInt32.le_trans (of_decide_eq_true hupper).2 (by decide)
      · exact of_decide_eq_true (Bool.and_eq_true_iff.mp hlower).2
    · exact UInt32.le_trans (of_decide_eq_true (Bool.and_eq_true_iff.mp hdigit).2) (by decide)
  have hz : c.toNat ≤ 122 := UInt32.le_iff_toNat_le.mp hval
  omega

@[simp]
theorem column_nil : column [] = 0 := rfl

theorem column_append_singleton (t : Text) (c : Char) :
    column (t ++ [c]) = columnStep (column t) c := by
  simp [column]

theorem clamp_le (t : Text) (pos : Int) : clamp t pos ≤ t.length := Nat.min_le_right _ _

theorem clamp_natCast {t : Text} {n : Nat} (h : n ≤ t.length) : clamp t n = n := by
  rw [clamp, Int.toNat_natCast, Nat.min_eq_left h]

theorem length_take_clamp (t : Text) (pos : Int) : (t.take (clamp t pos)).length = clamp t pos := by
  rw [List.length_take, Nat.min_eq_left (clamp_le t pos)]

theorem split_ne_nil (sep : Char) (t : Text) : split sep t ≠ [] := by
  cases t with
  | nil => simp [split]
  | cons c t =>
    rw [split]
    split
    · simp
    · split <;> simp

theorem unlines_cons (l : Text) (ls : List Text) : unlines (l :: ls) = l ++ following ls := by
  cases ls <;> simp [unlines, following]

theorem unlines_lines (t : Text) : unlines (lines t) = t := by
  unfold lines
  induction t with
  | nil => rfl
  | cons c t ih =>
    rw [split]
    split
    next h =>
      subst h
      have hne := split_ne_nil '\n' t
      revert ih hne
      cases split '\n' t <;> simp [unlines]
    next h =>
      have hne := split_ne_nil '\n' t
      revert ih hne
      cases split '\n' t with
      | nil => simp
      | cons piece pieces =>
        intro ih _
        rw [unlines_cons] at ih ⊢
        simp [← ih]

theorem hasInfix_iff {w t : Text} : hasInfix w t = true ↔ w <:+: t := by
  induction t with
  | nil => simp [hasInfix]
  | cons c t ih => rw [hasInfix, Bool.or_eq_true, List.isPrefixOf_iff_prefix, ih, List.infix_cons_iff]

end Text

end FlowEdit
