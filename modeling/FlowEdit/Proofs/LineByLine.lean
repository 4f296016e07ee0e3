import Mathlib.Data.Int.Range
import FlowEdit.Proofs.FixedPoint

/-!
Re-indenting a range of lines is re-indenting its lines one after the other. A walk over the range
can stop behind its first line and start again from the top of the text made so far: the second walk
passes over the lines above, as the first one did, and goes on behind the same text
(`reflowed_uncons`). Both stop at the same line if one of its columns is refused
(`reflowed?_uncons`). Indenting a single line is the walk over that line alone, and numbers that are
no lines of the text change nothing.
-/

namespace FlowEdit

open Text

section

variable (T : RuleTable) {range range' : LineRange} {widest : Nat}

/-! ## Lines out of range -/

theorem planInRange_out {n : Nat} (h : range.contains n = false) (before line after : Text) :
    (planInRange T range n before line after).value = none := by
  simp [planInRange, h]

/-- Lines out of range are passed over. -/
theorem reflowedLines_append {done : List Text} {n : Nat}
    (h : ∀ m, n ≤ m → m < n + done.length → range.contains m = false) (before : Text)
    (ls : List Text) :
    reflowedLines T range n before (done ++ ls) =
      done ++ reflowedLines T range (n + done.length) (before ++ preceding done) ls := by
  induction done generalizing n before with
  | nil => simp
  | cons line done ih =>
    rw [List.length_cons] at h ⊢
    have hrest : ∀ m, n + 1 ≤ m → m < n + 1 + done.length → range.contains m = false :=
      fun m hle hlt => h m (by omega) (by omega)
    have hlen : n + 1 + done.length = n + (done.length + 1) := by omega
    rw [List.cons_append, reflowedLines_cons, planInRange_out T (h n (by omega) (by omega)),
      ih hrest, hlen]
    simp [placed, preceding]

theorem reflowedLines_eq_self {ls : List Text} {n : Nat}
    (h : ∀ m, n ≤ m → m < n + ls.length → range.contains m = false) (before : Text) :
    reflowedLines T range n before ls = ls := by
  have hskip := reflowedLines_append T h before []
  rw [List.append_nil] at hskip
  rw [hskip]
  exact List.append_nil ls

theorem obstacleFrom_eq_none {ls : List Text} {n : Nat}
    (h : ∀ m, n ≤ m → m < n + ls.length → range.contains m = false) (before : Text) :
    (obstacleFrom widest T range n before ls).value = none := by
  induction ls generalizing n before with
  | nil => rfl
  | cons line rest ih =>
    rw [List.length_cons] at h
    have hrest : ∀ m, n + 1 ≤ m → m < n + 1 + rest.length → range.contains m = false :=
      fun m hle hlt => h m (by omega) (by omega)
    rw [obstacleFrom_cons, planInRange_out T (h n (by omega) (by omega)), ih hrest]
    rfl

/-! ## Ranges with the same lines -/

theorem planInRange_congr {n : Nat} (h : range.contains n = range'.contains n)
    (before line after : Text) :
    planInRange T range n before line after = planInRange T range' n before line after := by
  simp [planInRange, h]

theorem reflowedLines_congr {ls : List Text} {n : Nat}
    (h : ∀ m, n ≤ m → m < n + ls.length → range.contains m = range'.contains m) (before : Text) :
    reflowedLines T range n before ls = reflowedLines T range' n before ls := by
  induction ls generalizing n before with
  | nil => rfl
  | cons line rest ih =>
    rw [List.length_cons] at h
    have hrest : ∀ m, n + 1 ≤ m → m < n + 1 + rest.length → range.contains m = range'.contains m :=
      fun m hle hlt => h m (by omega) (by omega)
    rw [reflowedLines_cons, reflowedLines_cons,
      planInRange_congr T (h n (by omega) (by omega)), ih hrest]

theorem obstacleFrom_congr {ls : List Text} {n : Nat}
    (h : ∀ m, n ≤ m → m < n + ls.length → range.contains m = range'.contains m) (before : Text) :
    (obstacleFrom widest T range n before ls).value =
      (obstacleFrom widest T range' n before ls).value := by
  induction ls generalizing n before with
  | nil => rfl
  | cons line rest ih =>
    rw [List.length_cons] at h
    have hrest : ∀ m, n + 1 ≤ m → m < n + 1 + rest.length → range.contains m = range'.contains m :=
      fun m hle hlt => h m (by omega) (by omega)
    rw [obstacleFrom_cons, obstacleFrom_cons,
      planInRange_congr T (h n (by omega) (by omega)), ih hrest]

end

/-! ## The first line of a range -/

namespace LineRange

variable {first last : Int} {n : Nat}

theorem contains_eq_true_iff :
    contains ⟨first, some last⟩ n = true ↔ first ≤ n ∧ (n : Int) ≤ last := by
  simp [contains]

theorem contains_eq_false_iff :
    contains ⟨first, some last⟩ n = false ↔ (n : Int) < first ∨ last < n := by
  rw [← Bool.not_eq_true, contains_eq_true_iff]
  omega

theorem contains_eq_of_le (hrange : first ≤ last) (h : (n : Int) ≤ first) :
    contains ⟨first, some last⟩ n = contains ⟨first, some first⟩ n := by
  rw [Bool.eq_iff_iff, contains_eq_true_iff, contains_eq_true_iff]
  omega

theorem contains_eq_of_lt (h : first < (n : Int)) :
    contains ⟨first, some last⟩ n = contains ⟨first + 1, some last⟩ n := by
  rw [Bool.eq_iff_iff, contains_eq_true_iff, contains_eq_true_iff]
  omega

end LineRange

section

variable (T : RuleTable) {first last : Int} {widest : Nat}

/-- The walk over a range is the walk over its first line and then the one over the others. Down to
that line the second walk has nothing to do, and below it the first one. -/
theorem reflowedLines_uncons (hrange : first ≤ last) (n : Nat) (before : Text) (ls : List Text) :
    reflowedLines T ⟨first, some last⟩ n before ls =
      reflowedLines T ⟨first + 1, some last⟩ n before
        (reflowedLines T ⟨first, some first⟩ n before ls) := by
  induction ls generalizing n before with
  | nil => rfl
  | cons line rest ih =>
    by_cases hn : (n : Int) ≤ first
    · have hout : LineRange.contains ⟨first + 1, some last⟩ n = false :=
        LineRange.contains_eq_false_iff.mpr (by omega)
      rw [reflowedLines_cons, reflowedLines_cons, reflowedLines_cons, planInRange_out T hout,
        planInRange_congr T (LineRange.contains_eq_of_le hrange hn), ih]
      rfl
    · have hbelow : ∀ m, n ≤ m → m < n + (line :: rest).length →
          LineRange.contains ⟨first, some first⟩ m = false :=
        fun m hle _ => LineRange.contains_eq_false_iff.mpr (by omega)
      rw [reflowedLines_eq_self T hbelow]
      exact reflowedLines_congr T (fun m hle _ => LineRange.contains_eq_of_lt (by omega)) before

/-- The obstacle on the first line of a range, or else the one met by the walk over the others. -/
theorem obstacleFrom_uncons (hrange : first ≤ last) (n : Nat) (before : Text) (ls : List Text) :
    (obstacleFrom widest T ⟨first, some last⟩ n before ls).value =
      (obstacleFrom widest T ⟨first, some first⟩ n before ls).value.or
        (obstacleFrom widest T ⟨first + 1, some last⟩ n before
          (reflowedLines T ⟨first, some first⟩ n before ls)).value := by
  induction ls generalizing n before with
  | nil => rfl
  | cons line rest ih =>
    by_cases hn : (n : Int) ≤ first
    · have hout : LineRange.contains ⟨first + 1, some last⟩ n = false :=
        LineRange.contains_eq_false_iff.mpr (by omega)
      rw [obstacleFrom_cons, reflowedLines_cons, obstacleFrom_cons, obstacleFrom_cons,
        planInRange_out T hout, planInRange_congr T (LineRange.contains_eq_of_le hrange hn), ih,
        Option.or_assoc]
      rfl
    · have hbelow : ∀ m, n ≤ m → m < n + (line :: rest).length →
          LineRange.contains ⟨first, some first⟩ m = false :=
        fun m hle _ => LineRange.contains_eq_false_iff.mpr (by omega)
      rw [reflowedLines_eq_self T hbelow, obstacleFrom_eq_none T hbelow, Option.none_or]
      exact obstacleFrom_congr T (fun m hle _ => LineRange.contains_eq_of_lt (by omega)) before

/-! ## Texts -/

/-- The text with the lines of a range re-indented, where columns that no line can have are
refused. -/
def reflowed? (widest : Nat) (T : RuleTable) (range : LineRange) (t : Text) :
    Except WidthError Text :=
  (unlessObstacle widest T t range fun _ => pure (reflowed T range t)).value

theorem map_value_unlessObstacle {α : Type} {t : Text} {range : LineRange}
    {result : Unit → Logged α} {f : α → Text} (h : f (result ()).value = reflowed T range t) :
    (unlessObstacle widest T t range result).value.map f = reflowed? widest T range t := by
  rw [reflowed?, value_unlessObstacle, value_unlessObstacle]
  cases (obstacle widest T t range).value with
  | some e => rfl
  | none => exact congrArg Except.ok h

theorem value_reindent? (t : Text) : (reindent? T t widest).value = reflowed? widest T {} t := by
  rw [reindent?, reflowed?, value_unlessObstacle, value_unlessObstacle, value_reindent]
  rfl

theorem reflowed_eq_self {t : Text} {range : LineRange}
    (h : ∀ m < t.lines.length, range.contains m = false) : reflowed T range t = t := by
  rw [reflowed, reflowedLines_eq_self T (fun m _ hlt => h m (by omega)), unlines_lines]

theorem reflowed?_eq_self {t : Text} {range : LineRange}
    (h : ∀ m < t.lines.length, range.contains m = false) : reflowed? widest T range t = .ok t := by
  have hnone : (obstacle widest T t range).value = none :=
    obstacleFrom_eq_none T (fun m _ hlt => h m (by omega)) []
  exact value_unlessObstacle_eq_ok_iff.mpr ⟨hnone, reflowed_eq_self T h⟩

theorem reflowed_uncons (hrange : first ≤ last) (t : Text) :
    reflowed T ⟨first, some last⟩ t =
      reflowed T ⟨first + 1, some last⟩ (reflowed T ⟨first, some first⟩ t) := by
  rw [reflowed, reflowedLines_uncons T hrange, ← lines_reflowed]
  rfl

theorem reflowed?_uncons (hrange : first ≤ last) (t : Text) :
    reflowed? widest T ⟨first, some last⟩ t =
      reflowed? widest T ⟨first, some first⟩ t >>= reflowed? widest T ⟨first + 1, some last⟩ := by
  have hobstacle : (obstacle widest T t ⟨first, some last⟩).value =
      (obstacle widest T t ⟨first, some first⟩).value.or
        (obstacle widest T (reflowed T ⟨first, some first⟩ t) ⟨first + 1, some last⟩).value := by
    unfold obstacle
    rw [obstacleFrom_uncons T hrange, ← lines_reflowed]
  rw [reflowed?, reflowed?, value_unlessObstacle, value_unlessObstacle, hobstacle]
  cases (obstacle widest T t ⟨first, some first⟩).value with
  | some e => rfl
  | none =>
    change _ = reflowed? widest T ⟨first + 1, some last⟩ (reflowed T ⟨first, some first⟩ t)
    rw [reflowed?, value_unlessObstacle, Option.none_or]
    simp only [Logged.value_pure, reflowed_uncons T hrange]

/-! ## One line -/

/-- A walk over a single line puts that line in its place. -/
theorem lines_reflowed_single {t line : Text} {n : Nat} (h : t.lines[n]? = some line) :
    (reflowed T ⟨n, some n⟩ t).lines =
      t.lines.take n ++ placed (planLine T (preceding (t.lines.take n)) line
        (following (t.lines.drop (n + 1)))).value line :: t.lines.drop (n + 1) := by
  have hlen : (t.lines.take n).length = n :=
    List.length_take_of_le (Nat.le_of_lt (List.getElem?_eq_some_iff.mp h).1)
  have habove : ∀ m, 0 ≤ m → m < 0 + (t.lines.take n).length →
      LineRange.contains ⟨n, some n⟩ m = false :=
    fun m _ hlt => LineRange.contains_eq_false_iff.mpr (by omega)
  have hbelow : ∀ m, n + 1 ≤ m → m < n + 1 + (t.lines.drop (n + 1)).length →
      LineRange.contains ⟨n, some n⟩ m = false :=
    fun m hle _ => LineRange.contains_eq_false_iff.mpr (by omega)
  have hin : LineRange.contains ⟨n, some n⟩ n = true :=
    LineRange.contains_eq_true_iff.mpr ⟨le_rfl, le_rfl⟩
  calc (reflowed T ⟨n, some n⟩ t).lines
      = reflowedLines T ⟨n, some n⟩ 0 [] (t.lines.take n ++ line :: t.lines.drop (n + 1)) := by
        rw [← lines_eq_append_cons h, lines_reflowed]
    _ = _ := by
        rw [reflowedLines_append T habove, hlen, Nat.zero_add, List.nil_append,
          reflowedLines_cons, reflowedLines_eq_self T hbelow, planInRange, if_pos hin]

theorem reflowed_single {t line : Text} {n : Nat} (h : t.lines[n]? = some line) :
    reflowed T ⟨n, some n⟩ t =
      preceding (t.lines.take n) ++ (placed (planLine T (preceding (t.lines.take n)) line
        (following (t.lines.drop (n + 1)))).value line ++ following (t.lines.drop (n + 1))) := by
  rw [← unlines_append_cons, ← lines_reflowed_single T h, unlines_lines]

/-- Indenting one line is the walk over that line. -/
theorem value_indentLine_fst (t : Text) (line : Int) :
    (indentLine T t line).value.1 = reflowed T ⟨line, some line⟩ t := by
  unfold indentLine
  by_cases hneg : line < 0
  · rw [if_pos hneg]
    exact (reflowed_eq_self T fun m _ => LineRange.contains_eq_false_iff.mpr (by omega)).symm
  · obtain ⟨n, rfl⟩ := Int.eq_ofNat_of_zero_le (not_lt.mp hneg)
    rw [if_neg hneg, Int.toNat_natCast]
    cases hdrop : t.lines.drop n with
    | nil =>
      have hlen : t.lines.length ≤ n := List.drop_eq_nil_iff.mp hdrop
      have hself : reflowed T ⟨n, some n⟩ t = t :=
        reflowed_eq_self T fun m hm => LineRange.contains_eq_false_iff.mpr (by omega)
      exact hself.symm
    | cons l rest =>
      have hline : t.lines[n]? = some l := by
        rw [← List.head?_drop, hdrop]
        rfl
      obtain rfl : t.lines.drop (n + 1) = rest := by
        rw [← List.drop_drop, hdrop]
        rfl
      rw [reflowed_single T hline, ← List.append_assoc]
      simp only [Logged.value_bind]
      cases (planLine T (preceding (t.lines.take n)) l (following (t.lines.drop (n + 1)))).value with
      | none =>
        change t = preceding (t.lines.take n) ++ l ++ following (t.lines.drop (n + 1))
        rw [List.append_assoc, preceding_append_line hline]
      | some column => rfl

/-! ## Line by line -/

theorem Int.range_eq_nil {m n : Int} (h : n ≤ m) : Int.range m n = [] := by
  simp [Int.range, h]

theorem Int.range_eq_cons {m n : Int} (h : m < n) : Int.range m n = m :: Int.range (m + 1) n := by
  have hlen : (n - m).toNat = (n - (m + 1)).toNat + 1 := by omega
  have hshift : ∀ k : Nat, m + (k + 1 : Int) = m + 1 + k := by omega
  simp [Int.range, hlen, List.range_succ_eq_map, hshift]

theorem foldl_reflowed_single (t : Text) :
    (Int.range first (last + 1)).foldl (fun u line => reflowed T ⟨line, some line⟩ u) t =
      reflowed T ⟨first, some last⟩ t := by
  generalize hk : (last + 1 - first).toNat = k
  induction k generalizing first t with
  | zero =>
    rw [Int.range_eq_nil (by omega)]
    exact (reflowed_eq_self T fun m _ => LineRange.contains_eq_false_iff.mpr (by omega)).symm
  | succ k ih =>
    rw [Int.range_eq_cons (by omega), List.foldl_cons, ih _ (by omega),
      ← reflowed_uncons T (by omega)]

theorem foldlM_reflowed?_single (t : Text) :
    (Int.range first (last + 1)).foldlM (fun u line => reflowed? widest T ⟨line, some line⟩ u) t =
      reflowed? widest T ⟨first, some last⟩ t := by
  generalize hk : (last + 1 - first).toNat = k
  induction k generalizing first t with
  | zero =>
    rw [Int.range_eq_nil (by omega)]
    exact (reflowed?_eq_self T fun m _ => LineRange.contains_eq_false_iff.mpr (by omega)).symm
  | succ k ih =>
    have hrest : (fun u => (Int.range (first + 1) (last + 1)).foldlM
        (fun u line => reflowed? widest T ⟨line, some line⟩ u) u) =
          reflowed? widest T ⟨first + 1, some last⟩ :=
      funext fun u => ih u (by omega)
    rw [Int.range_eq_cons (by omega), List.foldlM_cons, hrest, ← reflowed?_uncons T (by omega)]

/-- All lines of a text are those from number 0 on, as many as there are. -/
theorem contains_all_lines {t : Text} {m : Nat} (h : m < t.lines.length) :
    LineRange.contains {} m = LineRange.contains ⟨0, some (t.lines.length - 1)⟩ m := by
  rw [Bool.eq_iff_iff, LineRange.contains_eq_true_iff]
  simp [LineRange.contains]
  omega

theorem reflowed_all_lines (t : Text) :
    reflowed T {} t = reflowed T ⟨0, some (t.lines.length - 1)⟩ t := by
  have hlines : reflowedLines T {} 0 [] t.lines =
      reflowedLines T ⟨0, some (t.lines.length - 1)⟩ 0 [] t.lines :=
    reflowedLines_congr T (fun m _ hlt => contains_all_lines (by omega)) []
  exact congrArg unlines hlines

theorem reflowed?_all_lines (t : Text) :
    reflowed? widest T {} t = reflowed? widest T ⟨0, some (t.lines.length - 1)⟩ t := by
  have hobstacle : (obstacle widest T t {}).value =
      (obstacle widest T t ⟨0, some (t.lines.length - 1)⟩).value :=
    obstacleFrom_congr T (fun m _ hlt => contains_all_lines (by omega)) []
  rw [reflowed?, reflowed?, value_unlessObstacle, value_unlessObstacle, hobstacle,
    reflowed_all_lines]

/-- Lines out of range stay as they are. -/
theorem getElem?_lines_reflowed {range : LineRange} {n : Nat} (h : range.contains n = false)
    (t : Text) : (reflowed T range t).lines[n]? = t.lines[n]? := by
  rw [lines_reflowed, getElem?_reflowedLines, Nat.zero_add]
  simp [planInRange_out T h, placed]

end

/-- Re-indenting a range of lines, by making the edits reported for it, gives the text that comes
out when its lines are indented one after the other, each in the text left by the one before; where
columns that no line can have are refused, both fail with the same error or neither does.
Re-indenting a text is indenting all its lines in this way. Lines out of range stay as they are, and
numbers that are no lines of a text leave it as it is. -/
theorem applyEdits_lineEdits_eq_foldl_indentLine (widest : Nat) (T : RuleTable) (t : Text)
    (first last : Int) :
    applyEdits t (lineEdits T t ⟨first, some last⟩).value =
        (Int.range first (last + 1)).foldl (fun u line => (indentLine T u line).value.1) t ∧
      (lineEdits? T t ⟨first, some last⟩ widest).value.map (applyEdits t) =
        (Int.range first (last + 1)).foldlM
          (fun u line => (indentLine? T u line widest).value.map Prod.fst) t ∧
      (reindent T t).value =
        (Int.range 0 t.lines.length).foldl (fun u line => (indentLine T u line).value.1) t ∧
      (reindent? T t widest).value =
        (Int.range 0 t.lines.length).foldlM
          (fun u line => (indentLine? T u line widest).value.map Prod.fst) t ∧
      (∀ n : Nat, n < first ∨ last < n →
        (applyEdits t (lineEdits T t ⟨first, some last⟩).value).lines[n]? = t.lines[n]?) ∧
      ∀ u line, line < 0 ∨ (u.lines.length : Int) ≤ line → (indentLine T u line).value.1 = u := by
  have hline : (fun u line => (indentLine T u line).value.1) =
      fun u line => reflowed T ⟨line, some line⟩ u :=
    funext fun u => funext fun line => value_indentLine_fst T u line
  have hline? : (fun u line => (indentLine? T u line widest).value.map Prod.fst) =
      fun u line => reflowed? widest T ⟨line, some line⟩ u :=
    funext fun u => funext fun line => map_value_unlessObstacle T (value_indentLine_fst T u line)
  have hall : (t.lines.length : Int) = (t.lines.length - 1 : Int) + 1 := by omega
  rw [hline, hline?, applyEdits_lineEdits, foldl_reflowed_single, foldlM_reflowed?_single]
  refine ⟨rfl, map_value_unlessObstacle T (applyEdits_lineEdits T _ t), ?_, ?_, ?_, ?_⟩
  · rw [hall, foldl_reflowed_single, value_reindent, reflowed_all_lines]
  · rw [hall, foldlM_reflowed?_single, value_reindent?, reflowed?_all_lines]
  · intro n hn
    exact getElem?_lines_reflowed T (LineRange.contains_eq_false_iff.mpr hn) t
  · intro u line hout
    rw [value_indentLine_fst]
    exact reflowed_eq_self T fun m hm => LineRange.contains_eq_false_iff.mpr (by omega)

/-- Lines -1 to 2: there is no line -1, line 0 is in its place, line 1 is moved, line 2 loses its
blanks, and line 3 is left for another time. -/
theorem foldl_indentLine_nested_form :
    let t := "(define f (x)\n(let ((y 1))\n  \n\t(print \"a\n  b\")))".toList
    let u := "(define f (x)\n   (let ((y 1))\n\n\t(print \"a\n  b\")))".toList
    (Int.range (-1) 3).foldl (fun u line => (indentLine .standard u line).value.1) t = u ∧
      (2 : Int) < (3 : Nat) ∧ (lines u)[3]? = (lines t)[3]? := by
  intro t u
  have hedits : applyEdits t (lineEdits .standard t ⟨-1, some 2⟩).value = u := by decide
  obtain ⟨hfold, -, -, -, hout, -⟩ :=
    applyEdits_lineEdits_eq_foldl_indentLine 0 .standard t (-1) 2
  rw [hedits] at hfold hout
  exact ⟨hfold.symm, by decide, hout 3 (.inr (by decide))⟩

end FlowEdit
