import FlowEdit.Proofs.FixedPoint
import FlowEdit.Proofs.Relocation
import FlowEdit.Proofs.Rules

/-!
The columns that a walk plans for its lines. Re-indenting fails exactly if one of them is a column
in which no line can start (`failsAt_unlessObstacle`). The edits have their columns from them, so
these are not negative if no body goes to the left of its form (`nonneg_of_mem_plannedFrom`). A line
goes at most a body offset to the right of what stands above it; so with bounded offsets the columns
are bounded by the size of the text (`plannedColumns_bounds`), and re-indenting does not fail on a
text that is not huge (`placeable_of_bounded`).
-/

namespace FlowEdit

open Text

variable {T : RuleTable} {range : LineRange}

/-! ## Columns of a walk -/

/-- The columns planned for the lines from number `n` on, which stand behind `before`, each in the
text whose earlier lines have been moved. -/
def plannedFrom (T : RuleTable) (range : LineRange) (n : Nat) (before : Text) :
    List Text → List Int
  | [] => []
  | line :: rest =>
    let plan := (planInRange T range n before line (following rest)).value
    plan.toList ++ plannedFrom T range (n + 1) (before ++ placed plan line ++ ['\n']) rest

def plannedColumns (T : RuleTable) (t : Text) (range : LineRange) : List Int :=
  plannedFrom T range 0 [] t.lines

theorem value_obstacleFrom (widest : Nat) (n : Nat) (before : Text) (ls : List Text) :
    (obstacleFrom widest T range n before ls).value =
      (plannedFrom T range n before ls).findSome? (widthError? widest) := by
  induction ls generalizing n before with
  | nil => rfl
  | cons line rest ih =>
    rw [obstacleFrom_cons, ih, plannedFrom, List.findSome?_append]
    cases (planInRange T range n before line (following rest)).value <;> simp

/-- A line can start in the column, on a machine that holds indentation up to the width `widest`. -/
def Placeable (widest : Nat) (column : Int) : Prop := isIndex column = true ∧ column ≤ widest

theorem widthError?_eq_none_iff {widest : Nat} {column : Int} :
    widthError? widest column = none ↔ Placeable widest column := by
  unfold widthError? Placeable
  cases isIndex column <;> simp

/-- The answer is `a`, unless there is a column in which no line can start; the first of them says
what the failure is. -/
structure FailsAt {α : Type} (widest : Nat) (columns : List Int) (a : α)
    (answer : Except WidthError α) : Prop where
  error_iff : ∀ e, answer = .error e ↔ columns.findSome? (widthError? widest) = some e
  ok_iff : answer = .ok a ↔ ∀ column ∈ columns, Placeable widest column

theorem failsAt_unlessObstacle {α : Type} (widest : Nat) (T : RuleTable) (t : Text)
    (range : LineRange) (result : Unit → Logged α) :
    FailsAt widest (plannedColumns T t range) (result ()).value
      (unlessObstacle widest T t range result).value := by
  have hplaceable : (plannedColumns T t range).findSome? (widthError? widest) = none ↔
      ∀ column ∈ plannedColumns T t range, Placeable widest column := by
    rw [List.findSome?_eq_none_iff]
    exact forall₂_congr fun _ _ => widthError?_eq_none_iff
  have hobstacle : (obstacle widest T t range).value =
      (plannedColumns T t range).findSome? (widthError? widest) :=
    value_obstacleFrom widest 0 [] t.lines
  rw [value_unlessObstacle, hobstacle]
  constructor
  · intro e
    cases (plannedColumns T t range).findSome? (widthError? widest) <;> simp
  · rw [← hplaceable]
    cases (plannedColumns T t range).findSome? (widthError? widest) <;> simp

/-! ## Columns of edits -/

theorem column_of_editFor {n : Nat} {line : Text} {plan : Option Int} {e : LineEdit}
    (h : editFor n line plan = some e) : plan = some e.column := by
  cases plan with
  | none => cases h
  | some column =>
    rw [editFor] at h
    split at h
    · cases h
    · rw [← Option.some.inj h]

/-- Every edit goes to a planned column. -/
theorem column_mem_plannedFrom {n : Nat} {before : Text} {ls : List Text} {e : LineEdit}
    (he : e ∈ (reflowFrom T range n before ls).value.filterMap Reflowed.edit) :
    e.column ∈ plannedFrom T range n before ls := by
  induction ls generalizing n before with
  | nil => simp [reflowFrom] at he
  | cons line rest ih =>
    rw [edits_reflowFrom_cons, List.mem_append] at he
    rw [plannedFrom]
    apply List.mem_append.mpr
    rcases he with hfirst | hrest
    · exact .inl (Option.mem_toList.mpr (column_of_editFor (Option.mem_toList.mp hfirst)))
    · exact .inr (ih hrest)

/-- A line is planned in column 0 or in the column of its context. -/
theorem value_planLine_cases {before line after : Text} {column : Int}
    (h : (planLine T before line after).value = some column) :
    column = 0 ∨ column =
      ((Context.between before (line ++ after)).column T (before ++ line ++ after)).value := by
  unfold planLine at h
  simp only at h
  split at h
  · cases h
  · split at h
    · exact .inl (Option.some.inj h).symm
    · exact .inr (Option.some.inj h).symm

theorem value_planLine_of_inRange {n : Nat} {before line after : Text} {column : Int}
    (h : (planInRange T range n before line after).value = some column) :
    (planLine T before line after).value = some column := by
  unfold planInRange at h
  split at h
  · exact h
  · cases h

theorem nonneg_of_value_planLine (hT : T.AllSpecial fun _ bodyOffset => 0 ≤ bodyOffset)
    {before line after : Text} {column : Int}
    (h : (planLine T before line after).value = some column) : 0 ≤ column := by
  rcases value_planLine_cases h with rfl | rfl
  · exact Int.le_refl 0
  · exact Context.column_nonneg hT _ _

theorem nonneg_of_mem_plannedFrom (hT : T.AllSpecial fun _ bodyOffset => 0 ≤ bodyOffset) {n : Nat}
    {before : Text} {ls : List Text} : ∀ column ∈ plannedFrom T range n before ls, 0 ≤ column := by
  induction ls generalizing n before with
  | nil => simp [plannedFrom]
  | cons line rest ih =>
    intro column hc
    rw [plannedFrom] at hc
    rcases List.mem_append.mp hc with hfirst | hrest
    · exact nonneg_of_value_planLine hT
        (value_planLine_of_inRange (Option.mem_toList.mp hfirst))
    · exact ih column hrest

/-! ## Bounds -/

section

variable {B : Nat} (hT : T.AllSpecial fun _ bodyOffset => bodyOffset.natAbs ≤ B)

include hT

/-- A line goes at most a body offset from the columns of the text above. -/
theorem value_planLine_bounds {before : Text} (hb : LineBegins before) {W : Nat}
    (hW : ∀ k, before.columnAt k ≤ W) {line after : Text} {column : Int}
    (h : (planLine T before line after).value = some column) :
    -B ≤ column ∧ column ≤ W + B + 1 := by
  rcases value_planLine_cases h with rfl | rfl
  · omega
  · unfold Context.column
    cases hform : (Context.between before (line ++ after)).form with
    | none =>
      show -(B : Int) ≤ 0 ∧ (0 : Int) ≤ W + B + 1
      omega
    | some f =>
      obtain ⟨hstart, hchild⟩ := hb.form_below hform
      have habove : ∀ {k}, k < before.length → columnAt (before ++ line ++ after) k ≤ W := by
        intro k hk
        rw [List.append_assoc, columnAt_append (Nat.le_of_lt hk)]
        exact hW k
      have hbase := habove hstart
      dsimp only
      obtain hone | ⟨_, bodyOffset, hbody, hcol⟩ | ⟨child, htarget, hcol⟩ :=
        f.value_column_cases hT (before ++ line ++ after)
      · omega
      · omega
      · have hunder := habove (hchild child htarget)
        omega

omit hT in
theorem length_placed_le {plan : Option Int} {m : Nat}
    (h : ∀ column, plan = some column → column ≤ m) (line : Text) :
    (placed plan line).length ≤ m + line.length := by
  cases plan with
  | none => exact Nat.le_add_left _ _
  | some column =>
    have hcolumn := h column rfl
    have hbare : (line.dropWhile isIndent).length ≤ line.length := List.length_dropWhile_le _ _
    rw [placed, withIndent, List.length_append, spaces, List.length_replicate]
    omega

omit hT in
/-- The columns of a text with one more line. -/
theorem columnAt_append_line {before : Text} (hb : LineBegins before) {W : Nat}
    (hW : ∀ k, before.columnAt k ≤ W) {line : Text} (hline : line.length + 1 ≤ W) (k : Nat) :
    columnAt (before ++ line ++ ['\n']) k ≤ W := by
  rw [List.append_assoc]
  by_cases hk : k ≤ before.length
  · rw [columnAt_append hk]
    exact hW k
  · obtain ⟨m, rfl⟩ := Nat.exists_eq_add_of_le (Nat.le_of_not_le hk)
    rw [hb.columnAt_append_left]
    calc columnAt (line ++ ['\n']) m
        ≤ ((line ++ ['\n']).take m).length := column_le_length _
      _ ≤ (line ++ ['\n']).length := (List.take_sublist _ _).length_le
      _ ≤ W := by simpa using hline

/-- The columns of a walk, behind a text in which no column is beyond `W`. -/
theorem plannedFrom_bounds {n : Nat} {before : Text} (hb : LineBegins before) {W : Nat}
    (hW : ∀ k, before.columnAt k ≤ W) {ls : List Text} :
    ∀ column ∈ plannedFrom T range n before ls,
      -B ≤ column ∧ column ≤ (W + (preceding ls).length + ls.length * (B + 1) : Nat) := by
  induction ls generalizing n before W with
  | nil => simp [plannedFrom]
  | cons line rest ih =>
    intro column hc
    rw [plannedFrom] at hc
    have hplan : ∀ first, (planInRange T range n before line (following rest)).value = some first →
        -B ≤ first ∧ first ≤ W + B + 1 :=
      fun first h => value_planLine_bounds hT hb hW (value_planLine_of_inRange h)
    generalize (planInRange T range n before line (following rest)).value = plan at hc hplan
    have hlen : (preceding (line :: rest)).length = line.length + 1 + (preceding rest).length := by
      rw [preceding, List.flatMap_cons, List.length_append, List.length_append]
      rfl
    have hmul : (line :: rest).length * (B + 1) = rest.length * (B + 1) + (B + 1) :=
      Nat.succ_mul _ _
    rw [hlen, hmul]
    rcases List.mem_append.mp hc with hfirst | hrest
    · have hbounds := hplan column (Option.mem_toList.mp hfirst)
      omega
    · -- the moved line is in the columns of the text above and a body offset more
      have hplaced := length_placed_le (m := W + B + 1)
        (fun first h => by have := hplan first h; omega) line
      have hbounds := ih (lineBegins_concat _) (W := W + B + 1 + line.length + 1)
        (columnAt_append_line hb (fun k => Nat.le_trans (hW k) (by omega)) (by omega)) column hrest
      omega

theorem plannedColumns_bounds (t : Text) : ∀ column ∈ plannedColumns T t range,
    -B ≤ column ∧ column ≤ (t.length + 1 + t.lines.length * (B + 1) : Nat) := by
  have hnone : ∀ k, columnAt [] k ≤ 0 := fun k => by simp [columnAt]
  have hlen : (preceding t.lines).length = t.length + 1 := by
    rw [preceding_lines, List.length_append]
    rfl
  intro column hc
  have hbounds := plannedFrom_bounds hT lineBegins_nil hnone column hc
  rwa [hlen, Nat.zero_add] at hbounds

/-- With bounded offsets every line finds its place in a text that is not huge. -/
theorem placeable_of_bounded {t : Text} {widest : Nat}
    (hindex : isIndex (t.length + 1 + t.lines.length * (B + 1) : Nat) = true)
    (h : (t.length + 1 + t.lines.length * (B + 1) : Nat) ≤ widest) :
    ∀ column ∈ plannedColumns T t range, Placeable widest column := by
  intro column hc
  obtain ⟨hlow, hhigh⟩ := plannedColumns_bounds hT t column hc
  have hlines : B + 1 ≤ t.lines.length * (B + 1) :=
    Nat.le_mul_of_pos_left _ (List.length_pos_iff.mpr (lines_ne_nil t))
  refine ⟨?_, Int.le_trans hhigh (Int.ofNat_le.mpr h)⟩
  simp only [isIndex, Bool.and_eq_true, decide_eq_true_eq] at hindex ⊢
  omega

end

end FlowEdit
