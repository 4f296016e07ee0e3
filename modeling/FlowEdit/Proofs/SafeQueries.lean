import FlowEdit.Proofs.IndexedWalk
import FlowEdit.Proofs.PlannedColumns

/-!
No query reads outside the text, whatever the position, the line and the rule table are. Each of
them, asking for one character at a time, gives the answer that is found on the text
(`ReadsInside`). Only those that move lines can fail, at a column in which no line can start, and
the head of a form at an offset in front of the text. Main statement: `queries_stay_in_text`.
-/

namespace FlowEdit

open Text

/-! ## Reading by offsets -/

/-- The queries, as they ask for the characters of a text by their offsets, give the answers that
are found on the text. None of them asks for a character that is not there, apart from the head of a
form where that is the answer. -/
structure ReadsInside (widest : Nat) (T : RuleTable) (t : Text) : Prop where
  context : ∀ pos, Indexed.context t pos = .ok (contextAt t pos)
  alignTarget : ∀ start pos, Indexed.alignTarget t start pos = .ok (alignTargetOf t start pos)
  indent : ∀ pos, Indexed.indent T t pos = .ok (indentAt T t pos).value
  indentLine : ∀ line,
    Indexed.indentLine widest T t line = (indentLine? T t line widest).value.mapError .width
  lineEdits : ∀ range,
    Indexed.lineEdits widest T t range = (lineEdits? T t range widest).value.mapError .width
  reindent : Indexed.reindent widest T t = (reindent? T t widest).value.mapError .width
  anchor : ∀ pos, Indexed.anchorBefore t (clamp t pos) = .ok (anchor (t.take (clamp t pos)))
  word : ∀ pos, Indexed.word t pos = .ok (wordBefore t pos)
  head : ∀ start, Indexed.headFrom t (start + 1) = headOf t start

theorem readsInside (widest : Nat) (T : RuleTable) (t : Text) : ReadsInside widest T t where
  context := Indexed.context_eq t
  alignTarget := Indexed.alignTarget_eq t
  indent := Indexed.indent_eq T t
  indentLine := Indexed.indentLine_eq widest T t
  lineEdits := Indexed.lineEdits_eq widest T t
  reindent := Indexed.reindent_eq widest T t
  anchor pos := Indexed.anchorBefore_eq (clamp_le t pos)
  word := Indexed.word_eq t
  head := Indexed.headFrom_eq t

/-- There is no head to read exactly if the form is said to open too far in front of the text. -/
theorem headOf_eq_error_iff {t : Text} (h : isIndex t.length = true) (start : Int) :
    (∃ e, headOf t start = .error e) ↔ start + 1 < -t.length := by
  unfold headOf
  simp only
  split
  next hnonneg =>
    constructor
    · rintro ⟨e, he⟩
      cases he
    · omega
  next hneg =>
    have herror : offsetError? t (start + 1) = none ↔ -(t.length : Int) ≤ start + 1 := by
      rw [Indexed.offsetError?_eq_none_iff]
      simp only [isIndex, Bool.and_eq_true, decide_eq_true_eq] at h ⊢
      omega
    cases hfound : offsetError? t (start + 1) with
    | some e =>
      have hfront : ¬ -(t.length : Int) ≤ start + 1 := by simp [← herror, hfound]
      exact ⟨fun _ => Int.not_le.mp hfront, fun _ => ⟨e, rfl⟩⟩
    | none =>
      have hinside := herror.mp hfound
      constructor
      · rintro ⟨e, he⟩
        cases he
      · omega

theorem isStretch_of_mem_runs {t : Text} {start : Nat} (hstart : start ≤ t.length) {r : Run}
    (h : r ∈ runs t start) : r.IsStretch t := by
  have hlen : (t.take start).length = start := by
    rw [List.length_take, Nat.min_eq_left hstart]
  have hread : r ∈ runsFrom .code (t.take start).length [] (t.drop start) := by
    rw [hlen]
    exact h
  have hstretch := isStretch_runsFrom List.nil_suffix (by simp) hread
  rwa [List.take_append_drop] at hstretch

/-- The spans of a region lie in the text. -/
theorem bounds_of_mem_spans {v : Vocabulary} {t : Text} {first : Int} {last : Option Int} {s : Span}
    (h : s ∈ v.spans t first last) : s.start < s.stop ∧ s.stop ≤ t.length := by
  simp only [Vocabulary.spans] at h
  split at h
  · cases h
  · obtain ⟨r, hr, rfl⟩ := List.mem_map.mp h
    have hanchor : FlowEdit.anchor (t.take (clamp t first)) ≤ t.length := by
      have hle := anchor_le_length (t.take (clamp t first))
      have hclamp := clamp_le t first
      rw [length_take_clamp] at hle
      omega
    exact (isStretch_of_mem_runs hanchor (List.mem_filter.mp hr).1).bounds

/-! ## Columns -/

theorem nonneg_indentLine {T : RuleTable} (hT : T.AllSpecial fun _ bodyOffset => 0 ≤ bodyOffset)
    (t : Text) (line : Int) : 0 ≤ (indentLine T t line).value.2 := by
  unfold indentLine
  simp only
  split
  · exact Int.le_refl 0
  · split
    · exact Int.le_refl 0
    next l rest _ =>
      rw [Logged.value_bind]
      cases hplan : (planLine T (preceding (t.lines.take line.toNat)) l (following rest)).value with
      | none => exact Int.natCast_nonneg _
      | some column => exact nonneg_of_value_planLine hT hplan

/-- At every text, position, line, range and rule table, the queries read inside the text, and spans
lie in it. Those that move lines fail exactly at a column planned for one of their lines in which no
line can start, which is one that is no index or that the machine has no memory for. With bounded
body offsets there is none unless the text is huge. With body offsets that are not negative, no
column is. There is no head to read exactly if the form is said to open too far in front of the
text. -/
theorem queries_stay_in_text (widest : Nat) (T : RuleTable) (v : Vocabulary) (t : Text) :
    ReadsInside widest T t ∧
      (∀ first last, ∀ s ∈ v.spans t first last, s.start < s.stop ∧ s.stop ≤ t.length) ∧
      (∀ line, FailsAt widest (plannedColumns T t ⟨line, some line⟩) (indentLine T t line).value
        (indentLine? T t line widest).value) ∧
      (∀ range, FailsAt widest (plannedColumns T t range) (lineEdits T t range).value
        (lineEdits? T t range widest).value) ∧
      FailsAt widest (plannedColumns T t {}) (reindent T t).value (reindent? T t widest).value ∧
      (∀ B : Nat, T.AllSpecial (fun _ bodyOffset => bodyOffset.natAbs ≤ B) →
        isIndex (t.length + 1 + t.lines.length * (B + 1) : Nat) = true →
        t.length + 1 + t.lines.length * (B + 1) ≤ widest →
        ∀ range, ∀ column ∈ plannedColumns T t range, Placeable widest column) ∧
      (T.AllSpecial (fun _ bodyOffset => 0 ≤ bodyOffset) →
        (∀ pos, 0 ≤ (indentAt T t pos).value) ∧ (∀ line, 0 ≤ (indentLine T t line).value.2) ∧
        ∀ range, ∀ e ∈ (lineEdits T t range).value, 0 ≤ e.column) ∧
      (isIndex t.length = true →
        ∀ start, (∃ e, headOf t start = .error e) ↔ start + 1 < -t.length) := by
  refine ⟨readsInside widest T t, fun _ _ _ hs => bounds_of_mem_spans hs, ?_, ?_, ?_, ?_, ?_,
    headOf_eq_error_iff⟩
  · intro line
    exact failsAt_unlessObstacle widest T t ⟨line, some line⟩ fun _ => indentLine T t line
  · intro range
    exact failsAt_unlessObstacle widest T t range fun _ => lineEdits T t range
  · exact failsAt_unlessObstacle widest T t {} fun _ => reindent T t
  · intro B hT hindex hle range
    exact placeable_of_bounded hT hindex hle
  · intro hT
    refine ⟨fun pos => Context.column_nonneg hT t _, nonneg_indentLine hT t, ?_⟩
    intro range e he
    exact nonneg_of_mem_plannedFrom hT _ (column_mem_plannedFrom he)

/-- A text that ends in a string, behind a backslash: the standard rules re-indent it, also a range
of lines that begins in front of it, where there is memory for 80 columns. The form of a head is
looked for in all of its tail. -/
theorem queries_stay_in_text_standard :
    let t : Text := "(if ; \"\n\t(f \"\\\"\n) x\")\n(the \"\\".toList
    ReadsInside 80 RuleTable.standard t ∧
      (∀ range, (lineEdits? RuleTable.standard t range 80).value =
        .ok (lineEdits RuleTable.standard t range).value) ∧
      (∀ e ∈ (lineEdits RuleTable.standard t ⟨-1, some 2⟩).value, 0 ≤ e.column) ∧
      (∃ e, headOf t (-t.length - 2) = .error e) ∧
      ¬ ∃ e, headOf t (-t.length - 1) = .error e := by
  intro t
  obtain ⟨hread, -, -, hedits, -, hplaceable, hnonneg, hhead⟩ :=
    queries_stay_in_text 80 RuleTable.standard Vocabulary.standard t
  have hindex : isIndex t.length = true := by decide
  refine ⟨hread, fun range => ?_, ?_, ?_, ?_⟩
  · exact (hedits range).ok_iff.mpr (hplaceable 3 (by decide) (by decide) (by decide) range)
  · exact (hnonneg (by decide)).2.2 ⟨-1, some 2⟩
  · exact (hhead hindex _).mpr (by decide)
  · rw [hhead hindex]
    decide

/-- With a body offset that is no index, the line under the form cannot be moved on any machine. -/
theorem huge_offset_fails :
    let T : RuleTable := Keyed.ofList [("a".toList, .layout (.special 0 0x8000000000000000))]
    let t : Text := "(a\nb".toList
    T.AllSpecial (fun _ bodyOffset => 0 ≤ bodyOffset) ∧
      ∀ widest, (lineEdits? T t {} widest).value = .error .notAnIndex ∧
        (reindent? T t widest).value = .error .notAnIndex ∧
        (indentLine? T t 1 widest).value = .error .notAnIndex := by
  intro T t
  refine ⟨by decide, fun widest => ?_⟩
  have hall : plannedColumns T t {} = [0, 0x8000000000000000] := by decide
  have hline : plannedColumns T t ⟨1, some 1⟩ = [0x8000000000000000] := by decide
  have hcolumn : widthError? widest 0x8000000000000000 = some .notAnIndex := by
    simp [widthError?, isIndex]
  refine ⟨((failsAt_unlessObstacle widest T t {} _).error_iff _).mpr ?_,
    ((failsAt_unlessObstacle widest T t {} _).error_iff _).mpr ?_,
    ((failsAt_unlessObstacle widest T t ⟨1, some 1⟩ _).error_iff _).mpr ?_⟩
  · simp [hall, widthError?_zero, hcolumn]
  · simp [hall, widthError?_zero, hcolumn]
  · simp [hline, hcolumn]

end FlowEdit
