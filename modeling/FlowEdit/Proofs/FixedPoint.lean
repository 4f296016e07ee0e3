import FlowEdit.Layout.Width
import FlowEdit.Proofs.Reflow

/-!
Re-indenting reaches a fixed point in one pass. The second pass meets each line behind the same
text as the first one did, since what is above has already been settled, and with the same
unindented text from there on. So it makes the same plan, and the line is already in its place.
This holds for a part of the first range too, and with it that the second pass meets no obstacle.
-/

namespace FlowEdit

open Text

/-! ## One line -/

/-- The plan for a line does not depend on how it and the lines below it are indented. -/
theorem planLine_eq_of_map_bare {before : Text} (h : LineBegins before) (T : RuleTable)
    {line line' : Text} {rest rest' : List Text} (hl : AllLines (line :: rest))
    (hl' : AllLines (line' :: rest'))
    (hbare : (line :: rest).map bare = (line' :: rest').map bare) :
    planLine T before line (following rest) = planLine T before line' (following rest') := by
  apply planLine_congr h
  · rw [← unlines_cons, ← unlines_cons]
    exact unindent_unlines_congr hl hl' hbare
  · have hline : bare line = bare line' := by
      simp only [List.map_cons, List.cons.injEq] at hbare
      exact hbare.1
    rw [← all_isBlank_bare line, ← all_isBlank_bare line', hline]

section

variable (T : RuleTable) {range sub : LineRange} {widest : Nat}

/-- Meeting a line again that has been put in its place, with all lines below it re-indented, the
walk plans the same for it, if it plans anything. -/
theorem planInRange_again {n : Nat} {before line : Text} {rest : List Text}
    (hsub : sub.contains n = true → range.contains n = true) (h : LineBegins before)
    (hl : AllLines (line :: rest)) :
    let plan := (planInRange T range n before line (following rest)).value
    let below := reflowedLines T range (n + 1) (before ++ placed plan line ++ ['\n']) rest
    (planInRange T sub n before (placed plan line) (following below)).value =
      if sub.contains n then plan else none := by
  intro plan below
  have hwalk : placed plan line :: below = reflowedLines T range n before (line :: rest) :=
    (reflowedLines_cons T range n before line rest).symm
  have hagain : planLine T before (placed plan line) (following below) =
      planLine T before line (following rest) := by
    apply planLine_eq_of_map_bare h T _ hl
    · rw [hwalk, map_bare_reflowedLines]
    · rw [hwalk]
      exact allLines_reflowedLines T range n before hl
  by_cases hn : sub.contains n = true
  · have hplan : (planLine T before line (following rest)).value = plan := by
      simp [plan, planInRange, hsub hn]
    simp [planInRange, hn, hagain, hplan]
  · simp [planInRange, hn]

theorem placed_again (n : Nat) (plan : Option Int) (line : Text) :
    placed (if sub.contains n then plan else none) (placed plan line) = placed plan line := by
  by_cases hn : sub.contains n = true
  · rw [if_pos hn, placed_placed]
  · rw [if_neg hn]
    rfl

/-! ## All lines -/

/-- A second walk leaves the lines of the first one where they are. -/
theorem reflowFrom_reflowedLines (hsub : ∀ n, sub.contains n = true → range.contains n = true)
    {ls : List Text} (hl : AllLines ls) (n : Nat) {before : Text} (h : LineBegins before) :
    (reflowFrom T sub n before (reflowedLines T range n before ls)).value =
      (reflowedLines T range n before ls).map fun line => { line } := by
  induction ls generalizing n before with
  | nil => rfl
  | cons line rest ih =>
    have hplan := planInRange_again T (hsub n) h hl
    have hrest := ih hl.tail (n + 1) (lineBegins_concat
      (before ++ placed (planInRange T range n before line (following rest)).value line))
    rw [reflowedLines_cons, reflowFrom_cons, hplan, placed_again,
      editFor_of_placed_eq (placed_again n _ line), hrest]
    rfl

theorem obstacleFrom_cons (n : Nat) (before line : Text) (rest : List Text) :
    let plan := (planInRange T range n before line (following rest)).value
    (obstacleFrom widest T range n before (line :: rest)).value =
      (plan.bind (widthError? widest)).or
        (obstacleFrom widest T range (n + 1) (before ++ placed plan line ++ ['\n'])
          rest).value := by
  unfold planInRange
  by_cases hn : range.contains n = true
  · simp only [obstacleFrom, hn, if_true, Logged.value_bind]
    cases (planLine T before line (following rest)).value with
    | none => rfl
    | some column => cases hw : widthError? widest column <;> simp [hw, placed]
  · simp [obstacleFrom, hn, placed]

/-- A second walk meets no obstacle where the first one has met none. -/
theorem obstacleFrom_reflowedLines (hsub : ∀ n, sub.contains n = true → range.contains n = true)
    {ls : List Text} (hl : AllLines ls) (n : Nat) {before : Text} (h : LineBegins before)
    (hfirst : (obstacleFrom widest T range n before ls).value = none) :
    (obstacleFrom widest T sub n before (reflowedLines T range n before ls)).value = none := by
  induction ls generalizing n before with
  | nil => rfl
  | cons line rest ih =>
    rw [obstacleFrom_cons, Option.or_eq_none_iff] at hfirst
    obtain ⟨hwidth, hbelow⟩ := hfirst
    have hplan := planInRange_again T (hsub n) h hl
    have hrest := ih hl.tail (n + 1) (lineBegins_concat _) hbelow
    rw [reflowedLines_cons, obstacleFrom_cons, hplan, placed_again, hrest]
    by_cases hn : sub.contains n = true
    · simp [hn, hwidth]
    · simp [hn]

/-! ## Texts -/

theorem reflow_reflowed (hsub : ∀ n, sub.contains n = true → range.contains n = true) (t : Text) :
    (reflow T (reflowed T range t) sub).value =
      (reflowed T range t).lines.map fun line => { line } := by
  unfold reflow
  rw [lines_reflowed]
  exact reflowFrom_reflowedLines T hsub (allLines_lines t) 0 lineBegins_nil

theorem lineEdits_reflowed (hsub : ∀ n, sub.contains n = true → range.contains n = true)
    (t : Text) : (lineEdits T (reflowed T range t) sub).value = [] := by
  have h : (lineEdits T (reflowed T range t) sub).value =
      (reflow T (reflowed T range t) sub).value.filterMap Reflowed.edit := rfl
  rw [h, reflow_reflowed T hsub, List.filterMap_map]
  simp

theorem reindent_reflowed (t : Text) : (reindent T (reflowed T {} t)).value = reflowed T {} t := by
  have h : (reindent T (reflowed T {} t)).value =
      unlines ((reflow T (reflowed T {} t) {}).value.map Reflowed.line) := rfl
  rw [h, reflow_reflowed T (fun _ hn => hn), List.map_map]
  simp [Function.comp_def, unlines_lines]

theorem obstacle_reflowed (hsub : ∀ n, sub.contains n = true → range.contains n = true)
    {t : Text} (h : (obstacle widest T t range).value = none) :
    (obstacle widest T (reflowed T range t) sub).value = none := by
  unfold obstacle at h ⊢
  rw [lines_reflowed]
  exact obstacleFrom_reflowedLines T hsub (allLines_lines t) 0 lineBegins_nil h

end

/-- Once the edits for a range of lines are made, none are left for any part of that range, also
where columns that no line can have are refused; so re-indenting a text twice is re-indenting it
once. -/
theorem lineEdits_applyEdits_eq_nil (widest : Nat) (T : RuleTable) (t : Text)
    (range sub : LineRange) (hsub : ∀ n, sub.contains n = true → range.contains n = true) :
    (lineEdits T (applyEdits t (lineEdits T t range).value) sub).value = [] ∧
      (∀ edits, (lineEdits? T t range widest).value = .ok edits →
        (lineEdits? T (applyEdits t edits) sub widest).value = .ok []) ∧
      applyEdits t (lineEdits T t).value = (reindent T t).value ∧
      (reindent T (reindent T t).value).value = (reindent T t).value ∧
      ∀ u, (reindent? T t widest).value = .ok u → (reindent? T u widest).value = .ok u := by
  refine ⟨?_, ?_, applyEdits_lineEdits T {} t, reindent_reflowed T t, ?_⟩
  · rw [applyEdits_lineEdits]
    exact lineEdits_reflowed T hsub t
  · intro edits h
    obtain ⟨hnone, rfl⟩ := value_unlessObstacle_eq_ok_iff.mp h
    rw [applyEdits_lineEdits]
    exact value_unlessObstacle_eq_ok_iff.mpr
      ⟨obstacle_reflowed T hsub hnone, lineEdits_reflowed T hsub t⟩
  · intro u h
    obtain ⟨hnone, rfl⟩ := value_unlessObstacle_eq_ok_iff.mp h
    exact value_unlessObstacle_eq_ok_iff.mpr
      ⟨obstacle_reflowed T (fun _ hn => hn) hnone, reindent_reflowed T t⟩

/-- A nested form in column 0, a line of blanks, a tab, and a line inside a string: three edits from
line 1 on, and nothing left to do on lines 2 and 3. -/
theorem lineEdits_applyEdits_nested_form :
    let t := "(define f (x)\n(let ((y 1))\n  \n\t(print \"a\n  b\")))".toList
    let edits : List LineEdit := [⟨1, 0, 3⟩, ⟨2, 2, 0⟩, ⟨3, 1, 4⟩]
    (∀ n, LineRange.contains ⟨2, some 3⟩ n = true → LineRange.contains ⟨1, none⟩ n = true) ∧
      (lineEdits RuleTable.standard t ⟨1, none⟩).value = edits ∧
      (lineEdits RuleTable.standard (applyEdits t edits) ⟨2, some 3⟩).value = [] := by
  intro t edits
  have hsub : ∀ n, LineRange.contains ⟨2, some 3⟩ n = true →
      LineRange.contains ⟨1, none⟩ n = true := by
    intro n hn
    simp [LineRange.contains] at hn ⊢
    omega
  have hedits : (lineEdits RuleTable.standard t ⟨1, none⟩).value = edits := by decide
  have h := (lineEdits_applyEdits_eq_nil 0 RuleTable.standard t ⟨1, none⟩ ⟨2, some 3⟩ hsub).1
  rw [hedits] at h
  exact ⟨hsub, hedits, h⟩

end FlowEdit
