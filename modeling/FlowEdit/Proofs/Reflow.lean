import FlowEdit.Proofs.LineStart

/-!
The walk over the lines of a text. A step takes one line: it makes a plan for it, puts it in its
place and goes on behind it. The lemmas here say what one step does (`reflowFrom_cons`), what the
walk keeps of the lines (`map_bare_reflowedLines`), and that the edits it reports, applied to the
text, give the text it has made (`applyEdits_lineEdits`).
-/

namespace FlowEdit

open Text

/-! ## One step -/

/-- The plan that the walk makes for line `n`; a line out of range is left alone. -/
def planInRange (T : RuleTable) (range : LineRange) (n : Nat) (before line after : Text) :
    Logged (Option Int) :=
  if range.contains n then planLine T before line after else pure none

/-- A line in the place given by a plan. -/
def placed : Option Int → Text → Text
  | none, line => line
  | some column, line => withIndent column line

/-- The edit that puts line `n` in its place, if it is not there yet. -/
def editFor (n : Nat) (line : Text) : Option Int → Option LineEdit
  | none => none
  | some column =>
    if withIndent column line = line then none else some ⟨n, indentWidth line, column⟩

theorem bare_placed (plan : Option Int) (line : Text) : bare (placed plan line) = bare line := by
  cases plan with
  | none => rfl
  | some column => exact bare_withIndent column line

theorem placed_placed (plan : Option Int) (line : Text) :
    placed plan (placed plan line) = placed plan line := by
  cases plan with
  | none => rfl
  | some column => exact withIndent_withIndent column column line

theorem not_mem_placed {line : Text} (plan : Option Int) (h : '\n' ∉ line) :
    '\n' ∉ placed plan line := by
  cases plan with
  | none => exact h
  | some column => exact not_mem_withIndent column h

theorem editFor_of_placed_eq {n : Nat} {line : Text} {plan : Option Int}
    (h : placed plan line = line) : editFor n line plan = none := by
  cases plan with
  | none => rfl
  | some column => exact if_pos h

theorem value_reflowLine (T : RuleTable) (n : Nat) (before line after : Text) :
    (reflowLine T n before line after).value =
      ⟨placed (planLine T before line after).value line,
        editFor n line (planLine T before line after).value⟩ := by
  unfold reflowLine
  rw [Logged.value_bind]
  cases (planLine T before line after).value with
  | none => rfl
  | some column =>
    by_cases h : withIndent column line = line
    · simp [placed, editFor, h]
    · simp [placed, editFor, h]

/-- One step of the walk. -/
theorem reflowFrom_cons (T : RuleTable) (range : LineRange) (n : Nat) (before line : Text)
    (rest : List Text) :
    let plan := (planInRange T range n before line (following rest)).value
    (reflowFrom T range n before (line :: rest)).value =
      ⟨placed plan line, editFor n line plan⟩ ::
        (reflowFrom T range (n + 1) (before ++ placed plan line ++ ['\n']) rest).value := by
  unfold planInRange
  by_cases h : range.contains n = true
  · simp [reflowFrom, h, value_reflowLine]
  · simp [reflowFrom, h, placed, editFor]

theorem edits_reflowFrom_cons (T : RuleTable) (range : LineRange) (n : Nat) (before line : Text)
    (rest : List Text) :
    let plan := (planInRange T range n before line (following rest)).value
    (reflowFrom T range n before (line :: rest)).value.filterMap Reflowed.edit =
      (editFor n line plan).toList ++ (reflowFrom T range (n + 1)
        (before ++ placed plan line ++ ['\n']) rest).value.filterMap Reflowed.edit := by
  intro plan
  rw [reflowFrom_cons, List.filterMap_cons]
  cases editFor n line plan <;> rfl

/-! ## The lines of a walk -/

/-- The lines as the walk leaves them. -/
def reflowedLines (T : RuleTable) (range : LineRange) (n : Nat) (before : Text)
    (ls : List Text) : List Text :=
  (reflowFrom T range n before ls).value.map Reflowed.line

theorem reflowedLines_cons (T : RuleTable) (range : LineRange) (n : Nat) (before line : Text)
    (rest : List Text) :
    let plan := (planInRange T range n before line (following rest)).value
    reflowedLines T range n before (line :: rest) = placed plan line ::
      reflowedLines T range (n + 1) (before ++ placed plan line ++ ['\n']) rest := by
  simp [reflowedLines, reflowFrom_cons]

/-- The walk moves lines and does nothing else to them. -/
theorem map_bare_reflowedLines (T : RuleTable) (range : LineRange) (n : Nat) (before : Text)
    (ls : List Text) : (reflowedLines T range n before ls).map bare = ls.map bare := by
  induction ls generalizing n before with
  | nil => rfl
  | cons line rest ih => simp [reflowedLines_cons, bare_placed, ih]

theorem length_reflowedLines (T : RuleTable) (range : LineRange) (n : Nat) (before : Text)
    (ls : List Text) : (reflowedLines T range n before ls).length = ls.length := by
  have h := congrArg List.length (map_bare_reflowedLines T range n before ls)
  simpa using h

theorem allLines_reflowedLines (T : RuleTable) (range : LineRange) (n : Nat) (before : Text)
    {ls : List Text} (h : AllLines ls) : AllLines (reflowedLines T range n before ls) := by
  induction ls generalizing n before with
  | nil => exact h
  | cons line rest ih =>
    rw [reflowedLines_cons]
    intro m hm
    rcases List.mem_cons.mp hm with rfl | hm
    · exact not_mem_placed _ h.head
    · exact ih _ _ h.tail m hm

/-- Each line is put in the place planned for it behind the lines that the walk has left above. -/
theorem getElem?_reflowedLines (T : RuleTable) (range : LineRange) (n : Nat) (before : Text)
    (ls : List Text) (i : Nat) :
    (reflowedLines T range n before ls)[i]? = ls[i]?.map fun line =>
      placed (planInRange T range (n + i)
        (before ++ preceding ((reflowedLines T range n before ls).take i)) line
        (following (ls.drop (i + 1)))).value line := by
  induction ls generalizing n before i with
  | nil => rfl
  | cons line rest ih =>
    rw [reflowedLines_cons]
    cases i with
    | zero => simp
    | succ i =>
      have hn : n + 1 + i = n + (i + 1) := by omega
      simp [ih, hn, preceding]

/-- The text with the lines of a range re-indented. -/
def reflowed (T : RuleTable) (range : LineRange) (t : Text) : Text :=
  unlines (reflowedLines T range 0 [] t.lines)

theorem value_reindent (T : RuleTable) (t : Text) : (reindent T t).value = reflowed T {} t := rfl

theorem lines_reflowed (T : RuleTable) (range : LineRange) (t : Text) :
    (reflowed T range t).lines = reflowedLines T range 0 [] t.lines := by
  apply lines_unlines
  · intro h
    have hlen := length_reflowedLines T range 0 [] t.lines
    rw [h] at hlen
    exact lines_ne_nil t (List.length_eq_zero_iff.mp hlen.symm)
  · exact allLines_reflowedLines T range 0 [] (allLines_lines t)

theorem map_bare_lines_reflowed (T : RuleTable) (range : LineRange) (t : Text) :
    (reflowed T range t).lines.map bare = t.lines.map bare := by
  rw [lines_reflowed, map_bare_reflowedLines]

/-- Re-indenting changes indentation only. -/
theorem unindent_reflowed (T : RuleTable) (range : LineRange) (t : Text) :
    unindent (reflowed T range t) = unindent t := by
  rw [unindent_eq_unlines_bare, unindent_eq_unlines_bare, map_bare_lines_reflowed]

/-! ## Applying edits -/

/-- The line with its first characters replaced as the edit says. -/
def LineEdit.replace (e : LineEdit) (line : Text) : Text :=
  spaces e.column.toNat ++ line.drop e.width

/-- The text with edits made to its lines, one after the other. -/
def applyEdits (t : Text) (edits : List LineEdit) : Text :=
  unlines (edits.foldl (fun ls e => ls.modify e.line e.replace) t.lines)

theorem replace_indentWidth (n : Nat) (column : Int) (line : Text) :
    LineEdit.replace ⟨n, indentWidth line, column⟩ line = withIndent column line := by
  simp only [LineEdit.replace, drop_indentWidth]
  rfl

theorem editFor_eq_some {n : Nat} {line : Text} {plan : Option Int} {e : LineEdit}
    (h : editFor n line plan = some e) :
    e.line = n ∧ e.width = indentWidth line ∧ e.replace line = placed plan line ∧
      placed plan line ≠ line := by
  cases plan with
  | none => simp [editFor] at h
  | some column =>
    by_cases hm : withIndent column line = line
    · simp [editFor, hm] at h
    · simp only [editFor, hm, if_false, Option.some.injEq] at h
      subst h
      exact ⟨rfl, rfl, replace_indentWidth n column line, hm⟩

theorem placed_eq_of_editFor_eq_none {n : Nat} {line : Text} {plan : Option Int}
    (h : editFor n line plan = none) : placed plan line = line := by
  cases plan with
  | none => rfl
  | some column =>
    by_cases hm : withIndent column line = line
    · exact hm
    · simp [editFor, hm] at h

/-- Making one edit to the line for which it is meant. -/
theorem modify_append_cons {α : Type} (done : List α) (a : α) (rest : List α) (f : α → α) :
    (done ++ a :: rest).modify done.length f = done ++ f a :: rest :=
  List.modifyTailIdx_add (List.modifyHead f) 0 done (a :: rest)

/-- The edits of a walk from line `n` on leave the lines above it alone. -/
theorem foldl_modify_reflowFrom (T : RuleTable) (range : LineRange) (before : Text)
    (done ls : List Text) :
    ((reflowFrom T range done.length before ls).value.filterMap Reflowed.edit).foldl
        (fun ls e => ls.modify e.line e.replace) (done ++ ls) =
      done ++ reflowedLines T range done.length before ls := by
  induction ls generalizing done before with
  | nil => rfl
  | cons line rest ih =>
    have hlen : ∀ l : Text, done.length + 1 = (done ++ [l]).length := by simp
    rw [reflowFrom_cons, reflowedLines_cons]
    generalize (planInRange T range done.length before line (following rest)).value = plan
    have hrest := ih (before ++ placed plan line ++ ['\n']) (done ++ [placed plan line])
    rw [← hlen, List.append_assoc, List.append_assoc] at hrest
    cases he : editFor done.length line plan with
    | none =>
      rw [placed_eq_of_editFor_eq_none he] at hrest ⊢
      simpa [he] using hrest
    | some e =>
      obtain ⟨hline, -, hreplace, -⟩ := editFor_eq_some he
      have hmodify : (done ++ line :: rest).modify e.line e.replace =
          done ++ placed plan line :: rest := by
        rw [hline, modify_append_cons, hreplace]
      simpa [he, hmodify] using hrest

/-- The edits reported by the walk make the text that the walk makes. -/
theorem applyEdits_lineEdits (T : RuleTable) (range : LineRange) (t : Text) :
    applyEdits t (lineEdits T t range).value = reflowed T range t := by
  have h := foldl_modify_reflowFrom T range [] [] t.lines
  unfold applyEdits reflowed
  exact congrArg unlines h

end FlowEdit
