import FlowEdit.Proofs.IndexedForms
import FlowEdit.Proofs.TypedWord

/-!
The queries of an editor by offsets: the context of a position, the child to align with, the column
and the width of a line, and the word being typed. Each of them asks for characters one by one and
fails if it asks for one that is not there. At no text, position and rule table does one fail, and
each says what the query on the text says.
-/

namespace FlowEdit.Indexed

open Text

/-! ## Contexts -/

/-- The context at an offset, which is clamped to the text. -/
def context (t : Text) (pos : Int) : Except OffsetError Context := do
  let stop := clamp t pos
  let start ← anchorBefore t stop
  let (frames, inString) ← scan t stop start []
  match frames with
  | [] => return { inString, form := none }
  | f :: fs =>
    let head ← headFrom t (f.start + 1)
    return {
      inString
      form := some {
        start := f.start
        depth := fs.length + 1
        head
        children := f.children
        alignTarget := FlowEdit.alignTarget t f.start f.children } }

theorem ok_bind {α β : Type} (a : α) (f : α → Except OffsetError β) :
    (Except.ok a >>= f) = f a := rfl

theorem scan_start {t : Text} {stop : Nat} (hstop : stop ≤ t.length) (start : Nat) :
    scan t stop start [] = .ok (Reader.upTo start (t.take stop) (t.drop stop)).found :=
  scan_eq hstop start []

theorem headFrom_natCast (t : Text) (start : Nat) :
    headFrom t (start + 1) = .ok (head (t.drop (start + 1))) := by
  have hnonneg : (0 : Int) ≤ start + 1 := by omega
  have hinside : ((start : Int) + 1).toNat = start + 1 := by omega
  rw [headFrom_of_nonneg hnonneg, drop_cut_of_nonneg hnonneg, hinside]

theorem context_eq (t : Text) (pos : Int) : context t pos = .ok (contextAt t pos) := by
  have hstop := clamp_le t pos
  simp only [context, contextAt, Context.between, anchorBefore_eq hstop, ok_bind, scan_start hstop,
    List.take_append_drop]
  generalize Reader.upTo (anchor (t.take (clamp t pos))) (t.take (clamp t pos))
    (t.drop (clamp t pos)) = r
  obtain ⟨offset, mode, token, frames⟩ := r
  cases frames with
  | nil => rfl
  | cons f fs =>
    show (headFrom t (f.start + 1) >>= _) = _
    rw [headFrom_natCast]
    rfl

/-! ## Children to align with -/

/-- The child to align with in the form that opens at `start`, as far as it is read at `pos`. -/
def alignTarget (t : Text) (start pos : Int) : Except OffsetError (Option Nat) := do
  let stop := clamp t pos
  if 0 ≤ start ∧ start < stop then
    if (← charAt t start) = '(' then
      let (frames, _) ← scan t stop start.toNat []
      match frames.getLast? with
      | some f =>
        return if f.start = start.toNat then FlowEdit.alignTarget t f.start f.children else none
      | none => return none
    else return none
  else return none

theorem alignTarget_eq (t : Text) (start pos : Int) :
    alignTarget t start pos = .ok (alignTargetOf t start pos) := by
  have hstop := clamp_le t pos
  unfold alignTarget alignTargetOf
  simp only
  by_cases hin : 0 ≤ start ∧ start < clamp t pos
  · obtain ⟨hstart, hlt⟩ := hin
    lift start to Nat using hstart
    have hlen : start < t.length := by omega
    have hchar : charAt t start = .ok t[start] := charAt_of_drop (List.drop_eq_getElem_cons hlen)
    have hget : t[start]? = some t[start] := List.getElem?_eq_getElem hlen
    simp only [hchar, ok_bind, hget, Int.toNat_natCast, Option.some.injEq]
    by_cases hopen : t[start] = '('
    · rw [if_pos ⟨by omega, hlt⟩, if_pos hopen, if_pos ⟨by omega, hlt, hopen⟩, scan_start hstop]
      generalize Reader.upTo start (t.take (clamp t pos)) (t.drop (clamp t pos)) = r
      show (match r.frames.getLast? with | some f => _ | none => _) = _
      cases r.frames.getLast? <;> rfl
    · rw [if_pos ⟨by omega, hlt⟩, if_neg hopen, if_neg fun h => hopen h.2.2]
      rfl
  · rw [if_neg hin, if_neg fun h => hin ⟨h.1, h.2.1⟩]
    rfl

/-! ## Words -/

/-- Where the word begins that ends at an offset. -/
def wordStart (t : Text) : Nat → Except OffsetError Nat
  | 0 => .ok 0
  | i + 1 =>
    match charAt t i with
    | .error e => .error e
    | .ok c => if isWordBreak c then .ok (i + 1) else wordStart t i

def word (t : Text) (pos : Int) : Except OffsetError Text := do
  let stop := clamp t pos
  let start ← wordStart t stop
  return (t.take stop).drop start

theorem wordStart_eq {t : Text} {i : Nat} (h : i ≤ t.length) :
    wordStart t i = .ok (i - (wordAtEnd (t.take i)).length) := by
  induction i with
  | zero => rfl
  | succ i ih =>
    have hchar : charAt t i = .ok t[i] := charAt_of_drop (List.drop_eq_getElem_cons h)
    rw [wordStart, hchar, List.take_succ_eq_append_getElem h, wordAtEnd_eq_rtakeWhile]
    by_cases hbreak : isWordBreak t[i] = true
    · rw [List.rtakeWhile_concat_neg _ _ _ (by simp [hbreak])]
      simp [hbreak]
    · rw [List.rtakeWhile_concat_pos _ _ _ (by simp [hbreak]), List.length_append,
        List.length_singleton, Nat.add_sub_add_right]
      simp only [hbreak]
      exact ih (Nat.le_of_lt h)

theorem word_eq (t : Text) (pos : Int) : word t pos = .ok (wordBefore t pos) := by
  have hstop := clamp_le t pos
  have hword : wordBefore t pos = _ := List.suffix_iff_eq_drop.mp (List.rtakeWhile_suffix _ _)
  rw [word, wordStart_eq hstop, hword, length_take_clamp]
  rfl

/-! ## Lines -/

/-- The column for the line that holds an offset. -/
def indent (T : RuleTable) (t : Text) (pos : Int) : Except OffsetError Int := do
  let c ← context t (t.lineStartAt (t.clamp pos))
  return (c.column T t).value

theorem indent_eq (T : RuleTable) (t : Text) (pos : Int) :
    indent T t pos = .ok (indentAt T t pos).value := by
  rw [indent, context_eq]
  rfl

/-- The width of the indentation of the line that starts at an offset, and its column, or `none` if
it is to be left alone. -/
def plan (T : RuleTable) (t : Text) (start : Nat) : Except OffsetError (Nat × Option Int) := do
  let stop ← passWhile isIndent t start
  let width := stop.toNat - start
  let c ← context t start
  if c.inString then return (width, none)
  else if (upToChar '\n' (t.drop stop.toNat)).all isBlank then return (width, some 0)
  else return (width, some (c.column T t).value)

/-- Indentation ends at the newline at the latest. -/
theorem indentWidth_upToChar (t : Text) : indentWidth (upToChar '\n' t) = indentWidth t := by
  have hindent : ∀ c, (decide (isIndent c = true ∧ (c != '\n') = true)) = isIndent c := by
    intro c
    by_cases hc : c = '\n'
    · subst hc
      rfl
    · simp [hc]
  rw [indentWidth, upToChar, List.takeWhile_takeWhile]
  simp only [hindent]
  rfl

theorem upToChar_drop {stop : Char} {t : Text} {n : Nat} (h : n ≤ (upToChar stop t).length) :
    upToChar stop (t.drop n) = (upToChar stop t).drop n := by
  induction n generalizing t with
  | zero => rfl
  | succ n ih =>
    cases t with
    | nil => simp [upToChar] at h
    | cons c t =>
      by_cases hc : c = stop
      · simp [upToChar, hc] at h
      · simp only [upToChar, List.takeWhile_cons, bne_iff_ne.mpr hc, if_true,
          List.length_cons] at h ⊢
        exact ih (Nat.le_of_succ_le_succ h)

/-- The width and the column of the line that starts at an offset. -/
theorem plan_eq (T : RuleTable) {t : Text} {start : Nat} (h : start ≤ t.length) :
    let line := upToChar '\n' (t.drop start)
    let after := (t.drop start).dropWhile (· != '\n')
    plan T t start = .ok (indentWidth line, (planLine T (t.take start) line after).value) := by
  intro line after
  have hsplit : t.drop start = line ++ after := (List.takeWhile_append_dropWhile).symm
  have hwidth : ((t.drop start).takeWhile isIndent).length = indentWidth line :=
    (indentWidth_upToChar _).symm
  have hbare : upToChar '\n' (t.drop (start + indentWidth line)) = bare line := by
    have hle : indentWidth line ≤ line.length := (List.takeWhile_sublist isIndent).length_le
    rw [← List.drop_drop, upToChar_drop hle, drop_indentWidth]
  have hcontext : contextAt t start = Context.between (t.take start) (line ++ after) := by
    rw [contextAt, clamp_natCast h, hsplit]
  unfold plan planLine
  rw [passWhile_natCast, hwidth]
  simp only [ok_bind, context_eq, hcontext, Int.toNat_natCast, Nat.add_sub_cancel_left, hbare,
    all_isBlank_bare, List.append_assoc, ← hsplit, List.take_append_drop]
  split
  · rfl
  · split <;> rfl

end FlowEdit.Indexed
