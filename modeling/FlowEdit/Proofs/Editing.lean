import FlowEdit.Proofs.Lexeme
import FlowEdit.Proofs.LineByLine
import FlowEdit.Session.Buffer

/-!
Editing a buffer. Commands that type nothing ask about the text or move its lines
(`Command.textAfter_cases`), so behind any number of them the buffer says what it said before
(`Command.lexemes_textBehind`). Once its lines are in their places it is not changed by them at all
(`Settled.textBehind_eq`), and re-indenting puts them there (`settled_of_reindent`). Main statement:
behind re-indenting there are no edits left to make until something is typed
(`Command.edits_behind_reindent`).
-/

namespace FlowEdit

open Text

variable {T : RuleTable} {widest : Nat} {t u : Text}

namespace Command

/-- The command puts nothing into the text and takes nothing out of it but indentation. -/
def typesNothing : Command → Bool
  | .insert _ _ | .delete _ _ | .newline _ => false
  | _ => true

/-- The text behind commands. -/
def textBehind (T : RuleTable) (widest : Nat) (t : Text) (cs : List Command) : Text :=
  cs.foldl (fun t c => textAfter t (c.run T t widest).value) t

theorem runAll_append (T : RuleTable) (widest : Nat) (t : Text) (cs cs' : List Command) :
    runAll T t (cs ++ cs') widest =
      runAll T t cs widest ++ runAll T (textBehind T widest t cs) cs' widest := by
  induction cs generalizing t with
  | nil => rfl
  | cons c cs ih => exact congrArg (c.run T t widest :: ·) (ih _)

/-! ## One command -/

/-- With an obstacle the text is left alone, and otherwise it is that of the result. -/
theorem textAfter_unlessObstacle {α : Type} (range : LineRange) (result : Unit → Logged α)
    (f : α → Text × Reply) :
    textAfter t ((unlessObstacle widest T t range result).value.map f) = t ∨
      textAfter t ((unlessObstacle widest T t range result).value.map f) =
        (f (result ()).value).1 := by
  rw [value_unlessObstacle]
  cases (obstacle widest T t range).value with
  | some e => exact .inl rfl
  | none => exact .inr rfl

/-- A command that types nothing leaves the text as it is or re-indents lines of it. -/
theorem textAfter_cases {c : Command} (hc : c.typesNothing = true) (T : RuleTable) (widest : Nat)
    (t : Text) :
    textAfter t (c.run T t widest).value = t ∨
      ∃ range, textAfter t (c.run T t widest).value = reflowed T range t := by
  cases c with
  | insert | delete | newline => cases hc
  | indentLine line =>
    refine (textAfter_unlessObstacle ⟨line, some line⟩ (fun _ => FlowEdit.indentLine T t line)
      fun moved => (moved.1, .column moved.2)).imp id fun h => ⟨⟨line, some line⟩, ?_⟩
    rw [← value_indentLine_fst]
    exact h
  | reindent =>
    exact (textAfter_unlessObstacle {} (fun _ => FlowEdit.reindent T t) (·, .done)).imp id
      fun h => ⟨{}, h⟩
  | edits =>
    exact .inl ((textAfter_unlessObstacle {} (fun _ => lineEdits T t {})
      (t, .edits ·)).elim id id)
  | context | spans | complete => exact .inl rfl

theorem unindent_textAfter {c : Command} (hc : c.typesNothing = true) :
    unindent (textAfter t (c.run T t widest).value) = unindent t := by
  rcases textAfter_cases hc T widest t with h | ⟨range, h⟩
  · rw [h]
  · rw [h, unindent_reflowed]

/-! ## Many commands -/

theorem unindent_textBehind {cs : List Command} (hcs : ∀ c ∈ cs, c.typesNothing = true) :
    unindent (textBehind T widest t cs) = unindent t := by
  induction cs generalizing t with
  | nil => rfl
  | cons c cs ih =>
    rw [List.forall_mem_cons] at hcs
    exact (ih hcs.2).trans (unindent_textAfter hcs.1)

/-- Behind commands that type nothing the buffer says what it said before: it has the same lexemes,
where a string may differ in indentation, and the same words with their categories. -/
theorem lexemes_textBehind {cs : List Command} (hcs : ∀ c ∈ cs, c.typesNothing = true) :
    (lexemes (textBehind T widest t cs)).map Lexeme.unindented =
        (lexemes t).map Lexeme.unindented ∧
      ∀ v : Vocabulary,
        (v.allSpans (textBehind T widest t cs)).map
            (fun s => (s.text (textBehind T widest t cs), s.category)) =
          (v.allSpans t).map (fun s => (s.text t, s.category)) := by
  have hu : unindent (textBehind T widest t cs) = unindent t := unindent_textBehind hcs
  constructor
  · rw [← lexemes_unindent, ← lexemes_unindent, hu]
  · intro v
    exact map_text_allSpans_congr v hu

end Command

/-! ## Lines in their places -/

/-- Every line of the text is in its place. -/
def Settled (T : RuleTable) (t : Text) : Prop := (reindent T t).value = t

theorem settled_of_reindent (h : (reindent? T t widest).value = .ok u) : Settled T u := by
  obtain ⟨-, rfl⟩ := value_unlessObstacle_eq_ok_iff.mp h
  exact reindent_reflowed T t

namespace Settled

variable (h : Settled T t)

include h

theorem lineEdits_eq (range : LineRange) : (lineEdits T t range).value = [] := by
  have hall : ∀ n, range.contains n = true → LineRange.contains {} n = true := fun n _ => by
    simp [LineRange.contains]
  have hnone := lineEdits_reflowed T hall t
  rwa [← value_reindent, h] at hnone

theorem reflowed_eq (range : LineRange) : reflowed T range t = t := by
  rw [← applyEdits_lineEdits, h.lineEdits_eq range]
  exact unlines_lines t

theorem textAfter_eq {c : Command} (hc : c.typesNothing = true) :
    textAfter t (c.run T t widest).value = t := by
  rcases Command.textAfter_cases hc T widest t with hsame | ⟨range, hmoved⟩
  · exact hsame
  · rw [hmoved, h.reflowed_eq]

/-- Commands that type nothing do not change a text whose lines are in their places. -/
theorem textBehind_eq {cs : List Command} (hcs : ∀ c ∈ cs, c.typesNothing = true) :
    Command.textBehind T widest t cs = t := by
  induction cs with
  | nil => rfl
  | cons c cs ih =>
    rw [List.forall_mem_cons] at hcs
    show Command.textBehind T widest (textAfter t (c.run T t widest).value) cs = t
    rw [h.textAfter_eq hcs.1]
    exact ih hcs.2

end Settled

/-- Once a buffer is re-indented, there are no edits to be made behind any commands that type
nothing, and its text is still the one that came out then. -/
theorem Command.edits_behind_reindent {cs : List Command} (hcs : ∀ c ∈ cs, c.typesNothing = true)
    (h : (reindent? T t widest).value = .ok u) :
    ((runAll T t (.reindent :: cs ++ [.edits]) widest).getLast?.map Logged.value) =
      some (.ok (u, .edits [])) := by
  have hsettled := settled_of_reindent h
  have htext : textBehind T widest t (.reindent :: cs) = u := by
    have hfirst : textAfter t (Command.reindent.run T t widest).value = u := by
      show textAfter t ((reindent? T t widest).value.map (·, .done)) = u
      rw [h]
      rfl
    show textBehind T widest (textAfter t (Command.reindent.run T t widest).value) cs = u
    rw [hfirst]
    exact hsettled.textBehind_eq hcs
  have hedits : (lineEdits? T u {} widest).value = .ok [] := by
    obtain ⟨hnone, rfl⟩ := value_unlessObstacle_eq_ok_iff.mp h
    exact value_unlessObstacle_eq_ok_iff.mpr
      ⟨obstacle_reflowed T (fun _ hn => hn) hnone, hsettled.lineEdits_eq {}⟩
  have hreply : (Command.edits.run T u widest).value = .ok (u, .edits []) := by
    show (lineEdits? T u {} widest).value.map (u, Reply.edits ·) = _
    rw [hedits]
    rfl
  have hlast : runAll T u [.edits] widest = [Command.edits.run T u widest] := rfl
  rw [runAll_append, htext, hlast, List.getLast?_concat, Option.map_some, hreply]

end FlowEdit
