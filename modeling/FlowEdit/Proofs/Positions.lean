import Mathlib.Data.List.Induction
import FlowEdit.Proofs.Lines
import FlowEdit.Text.Utf16

/-!
Positions of offsets. Every text is some whole lines and the beginning of another
(`exists_preceding_append`), and its end has the number of those lines and the length of that
beginning, in units, for its position (`positionAfter_preceding_append`). Positions grow with the
text (`positionAfter_le_append`), and the offset of a position is where the text ends that has it,
unless that is among carriage returns at the end of a line (`offsetAt_positionAfter`).
-/

namespace FlowEdit

/-- The order of positions: by line, and on one line by character. -/
def Position.Le (p q : Position) : Prop :=
  p.line < q.line ∨ p.line = q.line ∧ p.character ≤ q.character

theorem Position.Le.refl (p : Position) : p.Le p := .inr ⟨rfl, Nat.le_refl _⟩

theorem Position.Le.trans {p q r : Position} (h : p.Le q) (h' : q.Le r) : p.Le r := by
  unfold Position.Le at *
  omega

namespace Text

/-- Position of the end of `before`. -/
def positionAfter (before : Text) : Position where
  line := before.count '\n'
  character := units (before.drop (lineStart before))

/-! ## Units -/

theorem unitsOf_pos (c : Char) : 0 < unitsOf c := by
  unfold unitsOf
  split <;> omega

/-- Covering the units of a text takes its characters. -/
theorem advance_units (t u : Text) : advance (units t) (t ++ u) = t.length := by
  induction t with
  | nil => simp [units, advance]
  | cons c t ih =>
    obtain ⟨n, hn⟩ := Nat.exists_eq_succ_of_ne_zero (Nat.ne_of_gt (unitsOf_pos c))
    have hunits : units (c :: t) = (n + units t) + 1 := by
      rw [units, hn]
      omega
    have hrest : (n + units t) + 1 - unitsOf c = units t := by omega
    rw [hunits, List.cons_append, advance, hrest, ih, List.length_cons, Nat.add_comm]

/-! ## Whole lines and the beginning of one -/

theorem exists_preceding_append (t : Text) :
    ∃ ls l, AllLines ls ∧ '\n' ∉ l ∧ t = preceding ls ++ l := by
  obtain ⟨ls, l, hlines⟩ := (List.eq_nil_or_concat t.lines).resolve_left (lines_ne_nil t)
  rw [List.concat_eq_append] at hlines
  have hall : ∀ m ∈ ls ++ [l], '\n' ∉ m := by
    rw [← hlines]
    exact allLines_lines t
  refine ⟨ls, l, fun m hm => hall m (by simp [hm]), hall l (by simp), ?_⟩
  rw [← unlines_lines t, hlines, unlines_append ls (by simp)]
  rfl

theorem count_preceding {ls : List Text} (h : AllLines ls) :
    (preceding ls).count '\n' = ls.length := by
  induction ls with
  | nil => rfl
  | cons l ls ih =>
    have hcons : preceding (l :: ls) = l ++ ['\n'] ++ preceding ls := rfl
    rw [hcons, List.count_append, List.count_append, ih h.tail,
      List.count_eq_zero.mpr h.head, List.count_singleton_self, List.length_cons]
    omega

section

variable {l : Text} (hl : '\n' ∉ l) (ls : List Text)
include hl

theorem column_preceding_append : column (preceding ls ++ l) = l.length := by
  induction l using List.reverseRecOn with
  | nil =>
    rw [List.append_nil]
    rcases preceding_eq_nil_or_concat ls with hnil | ⟨before, hconcat⟩
    · rw [hnil]
      rfl
    · rw [hconcat, column_append_singleton]
      rfl
  | append_singleton l c ih =>
    simp only [List.mem_append, List.mem_singleton, not_or] at hl
    rw [← List.append_assoc, column_append_singleton, ih hl.1, columnStep,
      if_neg (Ne.symm hl.2), List.length_append]
    rfl

theorem lineStart_preceding_append : lineStart (preceding ls ++ l) = (preceding ls).length := by
  unfold lineStart
  rw [column_preceding_append hl, List.length_append, Nat.add_sub_cancel]

theorem drop_lineStart_preceding_append :
    (preceding ls ++ l).drop (lineStart (preceding ls ++ l)) = l := by
  rw [lineStart_preceding_append hl, List.drop_left]

theorem afterLast_preceding_append : afterLast '\n' (preceding ls ++ l) = l := by
  have hkeep : ∀ c ∈ l.reverse, (c != '\n') = true := by
    intro c hc
    rw [bne_iff_ne]
    rintro rfl
    exact hl (List.mem_reverse.mp hc)
  have hstop : (preceding ls).reverse.takeWhile (· != '\n') = [] := by
    rcases preceding_eq_nil_or_concat ls with hnil | ⟨before, hconcat⟩
    · rw [hnil]
      rfl
    · rw [hconcat]
      simp
  unfold afterLast
  rw [List.reverse_append, List.takeWhile_append_of_pos hkeep, hstop, List.append_nil,
    List.reverse_reverse]

theorem positionAfter_preceding_append (hls : AllLines ls) :
    positionAfter (preceding ls ++ l) = ⟨ls.length, units l⟩ := by
  unfold positionAfter
  rw [drop_lineStart_preceding_append hl, List.count_append, count_preceding hls,
    List.count_eq_zero.mpr hl, Nat.add_zero]

end

theorem positionAfter_eq (t : Text) :
    positionAfter t = ⟨t.count '\n', units (afterLast '\n' t)⟩ := by
  obtain ⟨ls, l, -, hl, rfl⟩ := exists_preceding_append t
  unfold positionAfter
  rw [drop_lineStart_preceding_append hl, afterLast_preceding_append hl]

/-- Newlines can be counted from the start of an earlier line on. -/
theorem count_append_eq_add_count_drop (t u : Text) :
    (t ++ u).count '\n' = t.count '\n' + ((t ++ u).drop (lineStart t)).count '\n' := by
  obtain ⟨ls, l, -, hl, rfl⟩ := exists_preceding_append t
  have hdrop : (preceding ls ++ l ++ u).drop (lineStart (preceding ls ++ l)) = l ++ u := by
    rw [lineStart_preceding_append hl, List.append_assoc, List.drop_left]
  have hbegun : (l ++ u).count '\n' = u.count '\n' := by
    rw [List.count_append, List.count_eq_zero.mpr hl, Nat.zero_add]
  rw [hdrop, hbegun, List.count_append]

/-! ## Reading on -/

theorem not_mem_upToChar (c : Char) (t : Text) : c ∉ upToChar c t := by
  intro hmem
  have hc := List.mem_takeWhile_imp hmem
  simp at hc

/-- The first line of a text goes up to the first newline. -/
theorem lines_append_of_not_mem {l : Text} (hl : '\n' ∉ l) (u : Text) :
    ∃ ls, (l ++ u).lines = (l ++ upToChar '\n' u) :: ls := by
  have hnot : '\n' ∉ l ++ upToChar '\n' u := by
    simp [hl, not_mem_upToChar]
  have hsplit : l ++ u = l ++ upToChar '\n' u ++ u.dropWhile (· != '\n') := by
    rw [List.append_assoc, upToChar, List.takeWhile_append_dropWhile]
  cases hrest : u.dropWhile (· != '\n') with
  | nil =>
    rw [hrest, List.append_nil] at hsplit
    exact ⟨[], by rw [hsplit, lines_of_not_mem hnot]⟩
  | cons c v =>
    have hc : c = '\n' := by
      have hne : u.dropWhile (· != '\n') ≠ [] := by simp [hrest]
      have hhead := List.head_dropWhile_not (· != '\n') hne
      simpa [hrest] using hhead
    rw [hrest, hc] at hsplit
    exact ⟨lines v, by rw [hsplit, lines_append_newline hnot]⟩

/-- The position of the end of `t` leads back there, unless the carriage returns at the end of the
line reach back across it. -/
theorem offsetAt_positionAfter {t u : Text}
    (h : afterLast '\n' t <+: dropTail (· == '\r') (afterLast '\n' t ++ upToChar '\n' u)) :
    (t ++ u).offsetAt (positionAfter t) = t.length := by
  obtain ⟨ls, l, hls, hl, rfl⟩ := exists_preceding_append t
  rw [afterLast_preceding_append hl] at h
  obtain ⟨rest, hrest⟩ := h
  obtain ⟨ms, hlines⟩ := lines_append_of_not_mem hl u
  rw [positionAfter_preceding_append hl ls hls, List.append_assoc]
  unfold offsetAt
  rw [lines_preceding_append hls, List.drop_left, List.take_left, hlines]
  show (preceding ls).length + advance (units l) (dropTail (· == '\r') _) = _
  rw [← hrest, advance_units, List.length_append]

end Text

end FlowEdit
