import Mathlib.Data.List.Basic
import FlowEdit.Proofs.AboveLine
import FlowEdit.Proofs.Formatting
import FlowEdit.Proofs.LineByLine
import FlowEdit.Session.Workspace

/-!
What an editor is told to do with a line that has just been begun. Its edits are those of the walk
over that line alone. Outside strings the line is put in the column of its beginning if there is
something on it; a line of blanks loses its indentation whatever that column is. So a line on which
nothing has been typed yet is in its place only if it belongs in column 0. Main statement:
`formatLine_indents_new_line`.
-/

namespace FlowEdit

open Text

/-! ## The line -/

/-- The plan for a line that begins outside strings. -/
theorem value_planLine_of_code (T : RuleTable) {t line : Text} {n : Nat}
    (hline : t.lines[n]? = some line)
    (hcode : (contextAt t (lineOffset t n)).inString = false) :
    (planLine T (preceding (t.lines.take n)) line (following (t.lines.drop (n + 1)))).value =
      some (if line.all isBlank then 0 else (indentAt T t (lineOffset t n)).value) := by
  have hs := lineOffset_le_length hline
  have hbegins : LineBegins (t.take (lineOffset t n)) := by
    rw [take_lineOffset hline]
    exact lineBegins_preceding _
  have hindent := hbegins.indentAt_eq hs T
  rw [contextAt_eq_between hs] at hcode
  rw [take_lineOffset hline, drop_lineOffset hline] at hcode hindent
  rw [hindent, planLine, hcode]
  by_cases hblank : line.all isBlank = true
  · simp [hblank]
  · simp [hblank, (lineBegins_preceding _).column_between T]

/-! ## The request -/

theorem documentText_put {w : Workspace} {uri : Text} (h : w.environment.handles uri = .ok true)
    (t : Text) : (w.put uri t).documentText uri = .ok (pure (some t)) := by
  have hget : (w.put uri t).documents.get? (Percent.decode uri) = some t := by
    simp [Workspace.put, Keyed.get?_insert]
  have hhandles : (w.put uri t).environment.handles uri = .ok true := h
  simp only [Workspace.documentText, hhandles, hget]

theorem answer_formatLine {w : Workspace} {uri t : Text}
    (h : w.documentText uri = .ok (pure (some t))) (p : Position) :
    w.answer (.formatLine uri p) = .ok (.edits <$> formattingEdits t ⟨p.line, some p.line⟩) := by
  simp only [Workspace.answer, Workspace.answerFrom, h]
  rfl

/-- The answer for a line that begins outside strings, made to an open document. It changes that
line only, and only its indentation. With something on it the line begins in the column of its
context, with spaces and nothing else in front. A line of blanks has no indentation left, so it
begins in that column just if this is column 0. -/
theorem formatLine_indents_new_line {w : Workspace} {uri t line : Text} {n : Nat}
    (hdoc : w.documentText uri = .ok (pure (some t))) (hline : t.lines[n]? = some line)
    (hcode : (contextAt t (lineOffset t n)).inString = false) (character : Nat) :
    let column := (indentAt .standard t (lineOffset t n)).value
    ∃ answer edits new, w.answer (.formatLine uri ⟨n, character⟩) = .ok answer ∧
      answer.value = .edits edits ∧
      (applyTextEdits t edits).lines = t.lines.set n new ∧
      bare new = bare line ∧
      new.takeWhile isIndent = spaces (if line.all isBlank then 0 else column.toNat) ∧
      0 ≤ column ∧
      (new.takeWhile isIndent = spaces column.toNat ↔ line.all isBlank = false ∨ column = 0) := by
  intro column
  have hnonneg : 0 ≤ column := Context.column_nonneg (by decide) t _
  have hwalk := lines_reflowed_single .standard hline
  rw [value_planLine_of_code .standard hline hcode] at hwalk
  have hset : (reflowed .standard ⟨n, some n⟩ t).lines =
      t.lines.set n (withIndent (if line.all isBlank then 0 else column) line) := by
    rw [hwalk, List.set_eq_take_append_cons_drop, if_pos (List.getElem?_eq_some_iff.mp hline).1]
    rfl
  refine ⟨_, _, withIndent (if line.all isBlank then 0 else column) line,
    answer_formatLine hdoc ⟨n, character⟩, rfl, ?_, bare_withIndent _ line, ?_, hnonneg, ?_⟩
  · rw [applyTextEdits_formattingEdits]
    exact hset
  · rw [takeWhile_withIndent]
    split <;> rfl
  · rw [takeWhile_withIndent, spaces, spaces, List.replicate_left_inj]
    by_cases hblank : line.all isBlank = true
    · simp only [hblank, if_true, Bool.true_eq_false, false_or]
      omega
    · simp [hblank]

/-- The body of a definition goes three columns to the right of it. -/
theorem formatLine_indents_body_line :
    let uri := "file:///a.cbl".toList
    let t := "(define f (x)\n\t(print x))".toList
    let w := Workspace.put {} uri t
    ∃ answer edits new, w.answer (.formatLine uri ⟨1, 0⟩) = .ok answer ∧
      answer.value = .edits edits ∧ (applyTextEdits t edits).lines = (lines t).set 1 new ∧
      bare new = "(print x))".toList ∧ new.takeWhile isIndent = "   ".toList := by
  intro uri t w
  have hdoc : w.documentText uri = .ok (pure (some t)) := documentText_put rfl t
  obtain ⟨answer, edits, new, hanswer, hedits, hlines, hbare, hindent, -, -⟩ :=
    formatLine_indents_new_line (n := 1) hdoc rfl (by decide) 0
  exact ⟨answer, edits, new, hanswer, hedits, hlines, hbare, hindent.trans (by decide)⟩

/-- With nothing typed on it yet, the line belongs in the same column, and no edit puts it there. -/
theorem formatLine_leaves_empty_line :
    let uri := "file:///a.cbl".toList
    let t := "(define f (x)\n".toList
    let w := Workspace.put {} uri t
    (lines t)[1]? = some [] ∧ (contextAt t (lineOffset t 1)).inString = false ∧
      (indentAt .standard t (lineOffset t 1)).value = 3 ∧
      w.answer (.formatLine uri ⟨1, 0⟩) = .ok ⟨.edits [], []⟩ ∧
      (applyTextEdits t []).lines[1]? = some [] := by
  intro uri t w
  refine ⟨rfl, by decide, by decide, ?_, by decide⟩
  have hdoc : w.documentText uri = .ok (pure (some t)) := documentText_put rfl t
  have hedits : formattingEdits t ⟨1, some 1⟩ = ⟨[], []⟩ := by decide
  rw [answer_formatLine hdoc]
  exact congrArg (fun edits => Except.ok (Answer.edits <$> edits)) hedits

end FlowEdit
