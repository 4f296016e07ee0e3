import Mathlib.Data.List.DropRight
import Mathlib.Order.Bounds.Basic
import FlowEdit.Proofs.Formatting
import FlowEdit.Proofs.Positions

/-!
Offsets of positions. On a line, a position goes to the least offset at which enough units have been
passed (`isLeast_offsetAt`); the rest follows from this. A later position on a line has fewer
offsets to choose from, so offsets grow with positions (`offsetAt_mono`). The position of an offset
leads back to it unless the offset is behind one of the carriage returns at the end of a line
(`offsetAt_positionAfter_iff`). Main statement: `offsetAt_faithful`.
-/

namespace FlowEdit

namespace Text

/-! ## Carriage returns at the end of a line -/

/-- What positions see of a line: the carriage returns at its end are not part of it. -/
def withoutReturns (line : Text) : Text := dropTail (· == '\r') line

theorem exists_returns (line : Text) :
    ∃ returns, line = withoutReturns line ++ returns ∧ ∀ c ∈ returns, c = '\r' := by
  refine ⟨line.rtakeWhile (· == '\r'), List.rdropWhile_append_rtakeWhile.symm, fun c hc => ?_⟩
  simpa using List.mem_rtakeWhile_imp hc

theorem getLast?_withoutReturns (line : Text) : (withoutReturns line).getLast? ≠ some '\r' := by
  intro h
  have hne : withoutReturns line ≠ [] := by
    intro hnil
    simp [hnil] at h
  have hlast := List.rdropWhile_last_not (· == '\r') line hne
  rw [List.getLast?_eq_some_getLast hne, Option.some_inj] at h
  exact hlast (beq_iff_eq.mpr h)

/-- The end of `before` is behind one of the carriage returns at the end of its line: there is one
in front of it, and nothing else is left of the line. -/
def BehindReturn (before after : Text) : Prop :=
  before.getLast? = some '\r' ∧ ∀ c ∈ upToChar '\n' after, c = '\r'

instance (before after : Text) : Decidable (BehindReturn before after) :=
  have : Decidable (∀ c ∈ upToChar '\n' after, c = '\r') := List.decidableBAll _ _
  inferInstanceAs (Decidable (_ ∧ _))

/-- The beginning of a line is cut into by its end exactly behind a carriage return that is followed
by nothing else. -/
theorem prefix_withoutReturns_iff {l r : Text} :
    l <+: withoutReturns (l ++ r) ↔ ¬ (l.getLast? = some '\r' ∧ ∀ c ∈ r, c = '\r') := by
  obtain ⟨returns, hsplit, hreturns⟩ := exists_returns (l ++ r)
  have hlast := getLast?_withoutReturns (l ++ r)
  generalize withoutReturns (l ++ r) = body at hsplit hlast
  constructor
  · rintro ⟨x, rfl⟩ ⟨hl, hr⟩
    have hx : ∀ c ∈ x, c = '\r' := by
      rw [List.append_assoc, List.append_cancel_left_eq] at hsplit
      exact fun c hc => hr c (by simp [hsplit, hc])
    cases hend : x.getLast? with
    | none =>
      rw [List.getLast?_append, hend, Option.none_or] at hlast
      exact hlast hl
    | some c =>
      rw [List.getLast?_append, hend, Option.some_or, hx c (List.mem_of_getLast? hend)] at hlast
      exact hlast rfl
  · intro h
    rcases List.append_eq_append_iff.mp hsplit with ⟨x, rfl, -⟩ | ⟨x, rfl, rfl⟩
    · exact List.prefix_append l x
    · cases hend : x.getLast? with
      | none =>
        obtain rfl := List.getLast?_eq_none_iff.mp hend
        simp
      | some c =>
        have hc : c = '\r' := hreturns c (by simp [List.mem_of_getLast? hend])
        refine absurd ⟨?_, fun d hd => hreturns d (by simp [hd])⟩ h
        rw [List.getLast?_append, hend, hc, Option.some_or]

/-! ## Counting units -/

/-- The characters that cover a number of units are as few as possible. -/
theorem isLeast_advance (target : Nat) (t : Text) :
    IsLeast {k | k ≤ t.length ∧ (target ≤ units (t.take k) ∨ k = t.length)} (advance target t) := by
  fun_induction advance target t with
  | case1 t => exact ⟨⟨Nat.zero_le _, .inl (Nat.zero_le _)⟩, fun k _ => Nat.zero_le k⟩
  | case2 target => exact ⟨⟨Nat.le_refl 0, .inr rfl⟩, fun k _ => Nat.zero_le k⟩
  | case3 target c t ih =>
    obtain ⟨⟨hle, hcovers⟩, hleast⟩ := ih
    have hcons : ∀ k, units ((c :: t).take (1 + k)) = unitsOf c + units (t.take k) := by
      intro k
      rw [Nat.add_comm 1, List.take_succ_cons, units]
    constructor
    · rw [Set.mem_ofPred_eq, hcons, List.length_cons]
      omega
    · rintro k ⟨hk, hk'⟩
      cases k with
      | zero => simp [units] at hk'
      | succ k =>
        rw [Nat.add_comm k, hcons, List.length_cons] at hk'
        rw [List.length_cons] at hk
        have hrest := hleast (a := k) ⟨by omega, by omega⟩
        omega

theorem advance_units_add (a : Text) (n : Nat) (t : Text) :
    advance (units a + n) (a ++ t) = a.length + advance n t := by
  induction a with
  | nil => simp [units]
  | cons c a ih =>
    obtain ⟨k, hk⟩ := Nat.exists_eq_succ_of_ne_zero (Nat.ne_of_gt (unitsOf_pos c))
    have hunits : units (c :: a) + n = (k + units a + n) + 1 := by
      rw [units, hk]
      omega
    have hrest : (k + units a + n) + 1 - unitsOf c = units a + n := by omega
    rw [hunits, List.cons_append, advance, hrest, ih, List.length_cons]
    omega

end Text

open Text

/-! ## Positions on a line -/

section

variable {t line : Text} {n : Nat}

theorem take_drop_lineOffset (h : t.lines[n]? = some line) {k : Nat}
    (hk : k ≤ (withoutReturns line).length) :
    (t.take (lineOffset t n + k)).drop (lineOffset t n) = (withoutReturns line).take k := by
  obtain ⟨returns, hline, -⟩ := exists_returns line
  rw [List.drop_take, Nat.add_sub_cancel_left, drop_lineOffset h]
  conv => lhs; rw [hline]
  rw [List.append_assoc, List.take_append_of_le_length hk]

theorem length_withoutReturns_le (line : Text) : (withoutReturns line).length ≤ line.length :=
  (List.rdropWhile_prefix (· == '\r') line).length_le

theorem lineOffset_add_le (h : t.lines[n]? = some line) :
    lineOffset t n + (withoutReturns line).length ≤ t.length := by
  have hdrop := congrArg List.length (drop_lineOffset h)
  have hle := lineOffset_le_length h
  have hline := length_withoutReturns_le line
  rw [List.length_drop, List.length_append] at hdrop
  omega

end

section

variable {t line : Text} {p q : Position}

/-- A position goes to the first offset of its line that has enough units in front of it, or to the
end of the line. -/
theorem isLeast_offsetAt (h : t.lines[p.line]? = some line) :
    let start := lineOffset t p.line
    let stop := start + (withoutReturns line).length
    IsLeast {o | start ≤ o ∧ o ≤ stop ∧ (p.character ≤ units ((t.take o).drop start) ∨ o = stop)}
      (t.offsetAt p) := by
  intro start stop
  obtain ⟨⟨hle, hcovers⟩, hleast⟩ := isLeast_advance p.character (withoutReturns line)
  have hoffset : t.offsetAt p = start + advance p.character (withoutReturns line) :=
    offsetAt_eq h p.character
  rw [hoffset]
  constructor
  · refine ⟨Nat.le_add_right _ _, Nat.add_le_add_left hle _, ?_⟩
    rw [take_drop_lineOffset h hle]
    exact hcovers.imp_right fun heq => congrArg (start + ·) heq
  · rintro o ⟨hstart, hstop, ho⟩
    obtain ⟨k, rfl⟩ := Nat.exists_eq_add_of_le hstart
    have hk : k ≤ (withoutReturns line).length := Nat.add_le_add_iff_left.mp hstop
    rw [take_drop_lineOffset h hk] at ho
    exact Nat.add_le_add_left (hleast ⟨hk, ho.imp_right Nat.add_left_cancel⟩) _

theorem offsetAt_past_end (h : t.lines.length ≤ p.line) : t.offsetAt p = t.length := by
  unfold offsetAt
  rw [List.drop_eq_nil_iff.mpr h]

theorem offsetAt_le_length (t : Text) (p : Position) : t.offsetAt p ≤ t.length := by
  cases h : t.lines[p.line]? with
  | none => exact Nat.le_of_eq (offsetAt_past_end (List.getElem?_eq_none_iff.mp h))
  | some line => exact (isLeast_offsetAt h).1.2.1.trans (lineOffset_add_le h)

/-- Later positions have later offsets. -/
theorem offsetAt_mono (hpq : p.Le q) : t.offsetAt p ≤ t.offsetAt q := by
  cases hq : t.lines[q.line]? with
  | none =>
    rw [offsetAt_past_end (List.getElem?_eq_none_iff.mp hq)]
    exact offsetAt_le_length t p
  | some line =>
    obtain ⟨⟨hstart, hstop, hcovers⟩, -⟩ := isLeast_offsetAt hq
    rcases hpq with hlt | ⟨heq, hle⟩
    · have hp : p.line < t.lines.length := hlt.trans (List.getElem?_eq_some_iff.mp hq).1
      have hline := List.getElem?_eq_getElem hp
      have hend := (isLeast_offsetAt hline).1.2.1
      have hbody := length_withoutReturns_le t.lines[p.line]
      have hnext := lineOffset_succ hline
      have hmono := lineOffset_mono t (show p.line + 1 ≤ q.line from hlt)
      omega
    · -- what is far enough for the later position is far enough for the earlier one
      rw [← heq] at hq hstart hstop hcovers
      exact (isLeast_offsetAt hq).2 ⟨hstart, hstop, hcovers.imp_left hle.trans⟩

/-- A position inside a character goes to the end of it. -/
theorem offsetAt_inside {a b : Text} {c : Char} {k : Nat} (h : t.lines[p.line]? = some line)
    (hline : withoutReturns line = a ++ c :: b) (hk : 0 < k) (hc : k ≤ unitsOf c)
    (hp : p.character = units a + k) : t.offsetAt p = lineOffset t p.line + a.length + 1 := by
  have hoffset : t.offsetAt p = lineOffset t p.line + advance p.character (withoutReturns line) :=
    offsetAt_eq h p.character
  obtain ⟨m, rfl⟩ := Nat.exists_eq_succ_of_ne_zero (Nat.ne_of_gt hk)
  have hrest : m + 1 - unitsOf c = 0 := by omega
  rw [hoffset, hline, hp, advance_units_add, advance, hrest, advance]
  omega

end

/-! ## Positions of offsets -/

/-- The position of the end of a text leads back there, unless it is behind a carriage return at the
end of a line. -/
theorem offsetAt_positionAfter_iff (before after : Text) :
    (before ++ after).offsetAt (positionAfter before) = before.length ↔
      ¬ BehindReturn before after := by
  obtain ⟨ls, l, hls, hl, rfl⟩ := exists_preceding_append before
  have hlast : (preceding ls ++ l).getLast? = some '\r' ↔ l.getLast? = some '\r' := by
    rw [List.getLast?_append]
    cases l.getLast? with
    | some c => rfl
    | none =>
      rcases preceding_eq_nil_or_concat ls with hnil | ⟨x, hx⟩
      · simp [hnil]
      · simp [hx]
  rw [BehindReturn, hlast, ← prefix_withoutReturns_iff]
  constructor
  · intro h
    obtain ⟨ms, hlines⟩ := lines_append_of_not_mem hl after
    have hline : (preceding ls ++ l ++ after).lines[ls.length]? =
        some (l ++ upToChar '\n' after) := by
      rw [List.append_assoc, lines_preceding_append hls, hlines]
      simp
    have hstart : lineOffset (preceding ls ++ l ++ after) ls.length = (preceding ls).length := by
      rw [lineOffset, List.append_assoc, lines_preceding_append hls, List.take_left]
    rw [positionAfter_preceding_append hl ls hls] at h
    have hstop := (isLeast_offsetAt (p := ⟨ls.length, units l⟩) hline).1.2.1
    rw [h, hstart, List.length_append] at hstop
    obtain ⟨returns, hsplit, -⟩ := exists_returns (l ++ upToChar '\n' after)
    refine List.prefix_of_prefix_length_le (List.prefix_append l (upToChar '\n' after)) ?_
      (Nat.add_le_add_iff_left.mp hstop)
    exact ⟨returns, hsplit.symm⟩
  · intro h
    apply offsetAt_positionAfter
    rw [afterLast_preceding_append hl]
    exact h

/-- Offsets and positions. The position of an offset leads back to it, unless the offset is behind
one of the carriage returns at the end of its line. Every position has an offset in the text: on a
line that there is, the least one from the start of the line to its end, carriage returns excluded,
that has at least as many units of the line in front of it as the position says, or that end; so a
position between the two units of a character goes to just behind it. Offsets grow with positions.
-/
theorem offsetAt_faithful (t : Text) :
    (∀ o ≤ t.length, t.offsetAt ⟨(t.take o).count '\n', units (afterLast '\n' (t.take o))⟩ = o ↔
        ¬ BehindReturn (t.take o) (t.drop o)) ∧
      (∀ p, t.offsetAt p ≤ t.length ∧ (t.lines.length ≤ p.line → t.offsetAt p = t.length)) ∧
      (∀ p line, t.lines[p.line]? = some line →
        let start := lineOffset t p.line
        let stop := start + (withoutReturns line).length
        IsLeast {o | start ≤ o ∧ o ≤ stop ∧
            (p.character ≤ units ((t.take o).drop start) ∨ o = stop)} (t.offsetAt p) ∧
          ∀ a c b, withoutReturns line = a ++ c :: b → unitsOf c = 2 →
            p.character = units a + 1 → t.offsetAt p = start + a.length + 1) ∧
      ∀ p q, p.Le q → t.offsetAt p ≤ t.offsetAt q := by
  refine ⟨fun o ho => ?_, fun p => ⟨offsetAt_le_length t p, offsetAt_past_end⟩,
    fun p line h => ⟨isLeast_offsetAt h, fun a c b hline hc hp => ?_⟩, fun p q => offsetAt_mono⟩
  · have hinverse := offsetAt_positionAfter_iff (t.take o) (t.drop o)
    rwa [List.take_append_drop, positionAfter_eq, List.length_take_of_le ho] at hinverse
  · exact offsetAt_inside h hline Nat.one_pos (by omega) hp

/-- A character of two units, a carriage return inside a line, and two at the end of it. -/
theorem offsetAt_faithful_surrogates :
    let t : Text := "x😀\ry\r\r\nz".toList
    ¬ BehindReturn (t.take 3) (t.drop 3) ∧ t.offsetAt ⟨0, 4⟩ = 3 ∧
      BehindReturn (t.take 5) (t.drop 5) ∧ t.offsetAt ⟨0, 6⟩ ≠ 5 ∧
      unitsOf '😀' = 2 ∧ t.offsetAt ⟨0, 2⟩ = 2 ∧
      Position.Le ⟨0, 9⟩ ⟨1, 0⟩ ∧ t.offsetAt ⟨0, 9⟩ ≤ t.offsetAt ⟨1, 0⟩ ∧
      t.offsetAt ⟨7, 0⟩ = t.length := by
  intro t
  obtain ⟨hinverse, hbound, hline, hmono⟩ := offsetAt_faithful t
  have hle : Position.Le ⟨0, 9⟩ ⟨1, 0⟩ := .inl Nat.one_pos
  have hinside := (hline ⟨0, 2⟩ "x😀\ry\r\r".toList (by decide)).2 ['x'] '😀' ['\r', 'y']
    (by decide) (by decide) (by decide)
  have hinner : ¬ BehindReturn (t.take 3) (t.drop 3) := by decide
  have htrailing : BehindReturn (t.take 5) (t.drop 5) := by decide
  exact ⟨hinner, (hinverse 3 (by decide)).mpr hinner, htrailing,
    fun h => (hinverse 5 (by decide)).mp h htrailing, by decide, hinside, hle, hmono _ _ hle,
    (hbound ⟨7, 0⟩).2 (by decide)⟩

end FlowEdit
