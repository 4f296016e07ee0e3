import FlowEdit.Proofs.IndexedQueries
import FlowEdit.Proofs.LineByLine

/-!
Re-indenting by offsets. The walk keeps the text made so far and the offset of the next line in it;
it moves that line and looks for the newline behind it, in a text that may have grown. What it has
still to read becomes shorter all the same (`length_sub_lt_of_move`), so it ends. It fails only at a
column in which no line can start, and otherwise makes the text and reports the edits of
re-indenting (`walk_eq`).
-/

namespace FlowEdit.Indexed

open Text

/-- What can go wrong where lines are moved: a character is asked for that is not there, or a column
is one in which no line can start. -/
inductive Failure
  | offset (e : OffsetError)
  | width (e : WidthError)
  deriving DecidableEq, Repr

/-! ## One line -/

/-- Move the line that starts at an offset. Gives the new text, and the edit if it changes. -/
def moveLine (widest : Nat) (T : RuleTable) (n : Nat) (t : Text) (start : Nat) :
    Except Failure (Text × Option LineEdit) :=
  match plan T t start with
  | .error e => .error (.offset e)
  | .ok (_, none) => .ok (t, none)
  | .ok (width, some column) =>
    match widthError? widest column with
    | some e => .error (.width e)
    | none =>
      if (t.drop start).take width = spaces column.toNat then .ok (t, none)
      else .ok (t.take start ++ spaces column.toNat ++ t.drop (start + width),
        some ⟨n, width, column⟩)

/-- With spaces in the place of its indentation a line is moved. -/
theorem replace_indent (before line after : Text) (column : Int) :
    (before ++ (line ++ after)).take before.length ++ spaces column.toNat ++
        (before ++ (line ++ after)).drop (before.length + indentWidth line) =
      before ++ (withIndent column line ++ after) := by
  have hle : indentWidth line ≤ line.length := (List.takeWhile_sublist isIndent).length_le
  rw [List.take_left, ← List.drop_drop, List.drop_left, List.drop_append_of_le_length hle,
    drop_indentWidth]
  simp [withIndent, bare]

section

variable {line : Text} (hline : '\n' ∉ line)

include hline

theorem upToChar_append_following (rest : List Text) :
    upToChar '\n' (line ++ following rest) = line := by
  apply takeWhile_append_of_head
  · rw [List.all_eq_true]
    intro c hc
    exact bne_iff_ne.mpr fun h => hline (h ▸ hc)
  · cases rest <;> rfl

theorem dropWhile_append_following (rest : List Text) :
    (line ++ following rest).dropWhile (· != '\n') = following rest := by
  have hsplit := List.takeWhile_append_dropWhile (p := (· != '\n')) (l := line ++ following rest)
  change upToChar '\n' (line ++ following rest) ++ _ = _ at hsplit
  rw [upToChar_append_following hline] at hsplit
  exact List.append_cancel_left hsplit

/-- What is planned for a line in its text. -/
theorem plan_append (T : RuleTable) (before : Text) (rest : List Text) :
    plan T (before ++ (line ++ following rest)) before.length =
      .ok (indentWidth line, (planLine T before line (following rest)).value) := by
  have hle : before.length ≤ (before ++ (line ++ following rest)).length := by simp
  have hplan := plan_eq T hle
  simpa only [List.drop_left, List.take_left, upToChar_append_following hline,
    dropWhile_append_following hline] using hplan

omit hline in
theorem withIndent_eq_self_iff {column : Int} :
    withIndent column line = line ↔ line.takeWhile isIndent = spaces column.toNat := by
  constructor
  · intro h
    rw [← h]
    exact takeWhile_withIndent column line
  · intro h
    rw [withIndent, ← h]
    exact takeWhile_append_bare line

/-- A line is moved to its place, unless it cannot start there. -/
theorem moveLine_append {widest : Nat} {T : RuleTable} {before : Text} {rest : List Text}
    {plan : Option Int} (hplan : (planLine T before line (following rest)).value = plan) (n : Nat) :
    moveLine widest T n (before ++ (line ++ following rest)) before.length =
      match plan.bind (widthError? widest) with
      | some e => .error (.width e)
      | none => .ok (before ++ (placed plan line ++ following rest), editFor n line plan) := by
  rw [moveLine, plan_append hline, hplan]
  cases plan with
  | none => rfl
  | some column =>
    simp only [Option.bind_some]
    cases widthError? widest column with
    | some e => rfl
    | none =>
      have hold : ((before ++ (line ++ following rest)).drop before.length).take
          (indentWidth line) = line.takeWhile isIndent := by
        rw [List.drop_left, take_indentWidth]
      simp only [hold, placed, editFor, withIndent_eq_self_iff]
      split
      next hsame => rw [withIndent_eq_self_iff.mpr hsame]
      next => rw [replace_indent]

end

/-! ## The next newline -/

theorem newlineFrom_length (before rest : Text) :
    newlineFrom (before ++ rest) before.length =
      before.length + (upToChar '\n' rest).length := by
  have hcut : cut (before ++ rest) before.length = before.length := by
    rw [cut_of_nonneg (Int.natCast_nonneg _), Int.toNat_natCast]
    simp
  rw [newlineFrom, hcut, List.drop_left]

theorem newlineFrom_append {line : Text} (hline : '\n' ∉ line) (before : Text) (rest : List Text) :
    newlineFrom (before ++ (line ++ following rest)) before.length = (before ++ line).length := by
  rw [newlineFrom_length, upToChar_append_following hline, List.length_append]

/-- It is behind the spaces in front of a line. -/
theorem le_newlineFrom (before rest : Text) (k : Nat) :
    before.length + k ≤ newlineFrom (before ++ (spaces k ++ rest)) before.length := by
  have hspaces : ∀ c ∈ spaces k, (c != '\n') = true := by
    intro c hc
    rw [List.eq_of_mem_replicate hc]
    rfl
  have hlen : (spaces k).length = k := List.length_replicate
  rw [newlineFrom_length, upToChar, List.takeWhile_append_of_pos hspaces, List.length_append, hlen]
  omega

theorem le_newlineFrom_of_lt {t : Text} {i : Nat} (h : newlineFrom t i < t.length) :
    i ≤ newlineFrom t i := by
  have hcut : cut t i ≤ newlineFrom t i := Nat.le_add_right _ _
  rw [cut_of_nonneg (Int.natCast_nonneg i), Int.toNat_natCast] at hcut
  omega

/-! ## The walk -/

/-- Move a line if it is not above the range. -/
def moveInRange (widest : Nat) (T : RuleTable) (range : LineRange) (n : Nat) (t : Text)
    (start : Nat) : Except Failure (Text × Option LineEdit) :=
  if range.first ≤ n then moveLine widest T n t start else .ok (t, none)

/-- In front of a line something is replaced by spaces. -/
theorem exists_of_moveInRange {widest : Nat} {T : RuleTable} {range : LineRange} {n : Nat}
    {t u : Text} {start : Nat} {edit : Option LineEdit}
    (h : moveInRange widest T range n t start = .ok (u, edit)) :
    ∃ k width, u = t.take start ++ (spaces k ++ t.drop (start + width)) := by
  have hkept : t = t.take start ++ (spaces 0 ++ t.drop (start + 0)) :=
    (List.take_append_drop start t).symm
  unfold moveInRange moveLine at h
  split at h
  · split at h
    · cases h
    · obtain ⟨rfl, -⟩ := Prod.mk.inj (Except.ok.inj h)
      exact ⟨0, 0, hkept⟩
    next width column _ =>
      split at h
      · cases h
      · split at h
        · obtain ⟨rfl, -⟩ := Prod.mk.inj (Except.ok.inj h)
          exact ⟨0, 0, hkept⟩
        · obtain ⟨rfl, -⟩ := Prod.mk.inj (Except.ok.inj h)
          exact ⟨column.toNat, width, List.append_assoc _ _ _⟩
  · obtain ⟨rfl, -⟩ := Prod.mk.inj (Except.ok.inj h)
    exact ⟨0, 0, hkept⟩

/-- Behind the next newline there is less to read than there was, also in a text that has grown. -/
theorem length_sub_lt_of_move {widest : Nat} {T : RuleTable} {range : LineRange} {n : Nat}
    {t u : Text} {start : Nat} {edit : Option LineEdit} (hstart : start ≤ t.length)
    (h : moveInRange widest T range n t start = .ok (u, edit))
    (hu : newlineFrom u start < u.length) :
    u.length - (newlineFrom u start + 1) < t.length - start := by
  obtain ⟨k, width, rfl⟩ := exists_of_moveInRange h
  have hlen : (t.take start).length = start := List.length_take_of_le hstart
  have hspaces : (spaces k).length = k := List.length_replicate
  have hle := le_newlineFrom (t.take start) (t.drop (start + width)) k
  rw [hlen] at hle
  simp only [List.length_append, hlen, hspaces, List.length_drop] at hu ⊢
  omega

/-- Take the lines from number `n` on, the first of which starts at an offset in the text made so
far. Gives the text at the end and the edits. -/
def walk (widest : Nat) (T : RuleTable) (range : LineRange) (n : Nat) (t : Text) (start : Nat)
    (_hstart : start ≤ t.length) : Except Failure (Text × List LineEdit) :=
  if range.last.all ((n : Int) ≤ ·) then
    match _h : moveInRange widest T range n t start with
    | .error e => .error e
    | .ok (u, edit) =>
      if hu : newlineFrom u start < u.length then
        (walk widest T range (n + 1) u (newlineFrom u start + 1) hu).map
          fun (v, edits) => (v, edit.toList ++ edits)
      else .ok (u, edit.toList)
  else .ok (t, [])
termination_by t.length - start
decreasing_by exact length_sub_lt_of_move _hstart _h hu

/-- Where a line can be moved, the walk goes on behind it. -/
theorem walk_of_move {widest : Nat} {T : RuleTable} {range : LineRange} {n : Nat} {t u : Text}
    {start : Nat} {edit : Option LineEdit} (hstart : start ≤ t.length)
    (hlast : range.last.all ((n : Int) ≤ ·) = true)
    (h : moveInRange widest T range n t start = .ok (u, edit)) :
    walk widest T range n t start hstart =
      if hu : newlineFrom u start < u.length then
        (walk widest T range (n + 1) u (newlineFrom u start + 1) hu).map
          fun (v, edits) => (v, edit.toList ++ edits)
      else .ok (u, edit.toList) := by
  rw [walk, if_pos hlast]
  split
  next e he => cases h.symm.trans he
  next u' edit' h' =>
    obtain ⟨rfl, rfl⟩ := Prod.mk.inj (Except.ok.inj (h.symm.trans h'))
    rfl

theorem walk_of_error {widest : Nat} {T : RuleTable} {range : LineRange} {n : Nat} {t : Text}
    {start : Nat} {e : Failure} (hstart : start ≤ t.length)
    (hlast : range.last.all ((n : Int) ≤ ·) = true)
    (h : moveInRange widest T range n t start = .error e) :
    walk widest T range n t start hstart = .error e := by
  rw [walk, if_pos hlast]
  split
  next e' he => rw [Except.error.inj (he.symm.trans h)]
  next u edit h' => cases h.symm.trans h'

/-! ## What the walk does -/

section

variable {widest : Nat} {T : RuleTable} {range : LineRange} {n : Nat}

/-- Behind the last line of a range there are no more lines of it. -/
theorem contains_of_last_lt (h : range.last.all ((n : Int) ≤ ·) = false) {m : Nat} (hm : n ≤ m) :
    range.contains m = false := by
  obtain ⟨first, last⟩ := range
  cases last with
  | none => cases h
  | some last =>
    rw [LineRange.contains_eq_false_iff]
    simp at h
    omega

theorem edits_eq_nil {ls : List Text} (h : ∀ m, n ≤ m → range.contains m = false) (before : Text) :
    (reflowFrom T range n before ls).value.filterMap Reflowed.edit = [] := by
  induction ls generalizing n before with
  | nil => rfl
  | cons line rest ih =>
    rw [edits_reflowFrom_cons, planInRange_out T (h n (Nat.le_refl n))]
    exact ih (fun m hm => h m (Nat.le_of_succ_le hm)) _

theorem moveInRange_append (widest : Nat) (hlast : range.last.all ((n : Int) ≤ ·) = true)
    {line : Text} (hline : '\n' ∉ line) {before : Text} {rest : List Text} {plan : Option Int}
    (hplan : (planInRange T range n before line (following rest)).value = plan) :
    moveInRange widest T range n (before ++ (line ++ following rest)) before.length =
      match plan.bind (widthError? widest) with
      | some e => .error (.width e)
      | none => .ok (before ++ (placed plan line ++ following rest), editFor n line plan) := by
  have hcontains : range.contains n = decide (range.first ≤ n) := by
    rw [LineRange.contains, hlast, Bool.and_true]
  rw [moveInRange]
  rw [planInRange, hcontains] at hplan
  by_cases hfirst : range.first ≤ n
  · rw [if_pos hfirst]
    exact moveLine_append hline (by simpa [hfirst] using hplan) n
  · obtain rfl : plan = none := by simpa [hfirst] using hplan.symm
    rw [if_neg hfirst]
    rfl

/-- The walk over the lines behind `before` makes the text and the edits of re-indenting, or fails
at the first column in which no line can start. -/
theorem walk_eq {ls : List Text} (hne : ls ≠ []) (hl : AllLines ls) {before t : Text} {start : Nat}
    (ht : t = before ++ unlines ls) (hs : start = before.length) (hstart : start ≤ t.length) :
    walk widest T range n t start hstart =
      match (obstacleFrom widest T range n before ls).value with
      | some e => .error (.width e)
      | none => .ok (before ++ unlines (reflowedLines T range n before ls),
          (reflowFrom T range n before ls).value.filterMap Reflowed.edit) := by
  -- `t` is the text made so far, so it changes from line to line along with `before`
  induction ls generalizing n before t start with
  | nil => exact absurd rfl hne
  | cons line rest ih =>
    by_cases hlast : range.last.all ((n : Int) ≤ ·) = true
    · rw [unlines_cons] at ht
      subst ht hs
      obtain ⟨plan, hplan⟩ : ∃ plan, (planInRange T range n before line (following rest)).value =
        plan := ⟨_, rfl⟩
      have hmove := moveInRange_append widest hlast hl.head hplan
      have hnewline := newlineFrom_append (not_mem_placed plan hl.head) before rest
      rw [obstacleFrom_cons, reflowedLines_cons, edits_reflowFrom_cons, hplan]
      cases hwidth : plan.bind (widthError? widest) with
      | some e =>
        rw [hwidth] at hmove
        rw [walk_of_error hstart hlast hmove]
        rfl
      | none =>
        rw [hwidth] at hmove
        rw [walk_of_move hstart hlast hmove, Option.none_or]
        cases rest with
        | nil =>
          rw [dif_neg (by rw [hnewline]; simp [following])]
          simp [obstacleFrom, reflowedLines, reflowFrom, unlines, following]
        | cons l ls =>
          have htext : before ++ (placed plan line ++ following (l :: ls)) =
              before ++ placed plan line ++ ['\n'] ++ unlines (l :: ls) := by
            simp [following]
          have hnext : newlineFrom (before ++ (placed plan line ++ following (l :: ls)))
              before.length + 1 = (before ++ placed plan line ++ ['\n']).length := by
            rw [hnewline]
            simp [Nat.add_assoc]
          rw [dif_pos (by rw [hnewline]; simp [following]), ih (by simp) hl.tail htext hnext]
          cases (obstacleFrom widest T range (n + 1) (before ++ placed plan line ++ ['\n'])
            (l :: ls)).value with
          | some e => rfl
          | none =>
            rw [reflowedLines_cons]
            simp [Except.map, unlines]
    · have hout : ∀ m, n ≤ m → range.contains m = false :=
        fun m hm => contains_of_last_lt (by simpa using hlast) hm
      rw [walk, if_neg hlast, obstacleFrom_eq_none T fun m hm _ => hout m hm,
        reflowedLines_eq_self T fun m hm _ => hout m hm, edits_eq_nil hout, ht]

end

/-! ## All lines -/

/-- The edits of the lines of a range. -/
def lineEdits (widest : Nat) (T : RuleTable) (t : Text) (range : LineRange) :
    Except Failure (List LineEdit) :=
  (walk widest T range 0 t 0 (Nat.zero_le _)).map Prod.snd

/-- The text with every line moved. -/
def reindent (widest : Nat) (T : RuleTable) (t : Text) : Except Failure Text :=
  (walk widest T {} 0 t 0 (Nat.zero_le _)).map Prod.fst

theorem walk_lines (widest : Nat) (T : RuleTable) (range : LineRange) (t : Text) :
    walk widest T range 0 t 0 (Nat.zero_le _) =
      match (obstacle widest T t range).value with
      | some e => .error (.width e)
      | none => .ok (reflowed T range t, (FlowEdit.lineEdits T t range).value) := by
  have ht : t = [] ++ unlines t.lines := (unlines_lines t).symm
  have hs : 0 = ([] : Text).length := rfl
  exact walk_eq (lines_ne_nil t) (allLines_lines t) ht hs _

theorem lineEdits_eq (widest : Nat) (T : RuleTable) (t : Text) (range : LineRange) :
    lineEdits widest T t range = (lineEdits? T t range widest).value.mapError .width := by
  rw [lineEdits, walk_lines, lineEdits?, value_unlessObstacle]
  cases (obstacle widest T t range).value <;> rfl

theorem reindent_eq (widest : Nat) (T : RuleTable) (t : Text) :
    reindent widest T t = (reindent? T t widest).value.mapError .width := by
  rw [reindent, walk_lines, reindent?, value_unlessObstacle]
  cases (obstacle widest T t {}).value <;> rfl

/-! ## A single line -/

/-- The offsets at which the lines start, from the one at `i` on. -/
def lineStarts (t : Text) (i : Nat) : List Nat :=
  i :: if _h : newlineFrom t i < t.length then lineStarts t (newlineFrom t i + 1) else []
termination_by t.length - i
decreasing_by
  have := le_newlineFrom_of_lt _h
  omega

theorem getElem?_lineStarts {ls : List Text} (hne : ls ≠ []) (hl : AllLines ls) {before t : Text}
    {i : Nat} (ht : t = before ++ unlines ls) (hi : i = before.length) (k : Nat) :
    (lineStarts t i)[k]? = ls[k]?.map fun _ => (before ++ preceding (ls.take k)).length := by
  induction ls generalizing before i k with
  | nil => exact absurd rfl hne
  | cons line rest ih =>
    subst hi
    have hnewline := newlineFrom_append hl.head before rest
    rw [← unlines_cons, ← ht] at hnewline
    rw [lineStarts]
    cases k with
    | zero => simp
    | succ k =>
      cases rest with
      | nil =>
        rw [dif_neg (by rw [hnewline, ht]; simp [unlines])]
        simp
      | cons l ls =>
        have htext : t = before ++ line ++ ['\n'] ++ unlines (l :: ls) := by
          rw [ht]
          simp [unlines]
        have hnext : newlineFrom t before.length + 1 = (before ++ line ++ ['\n']).length := by
          rw [hnewline]
          simp [Nat.add_assoc]
        rw [dif_pos (by rw [hnewline, htext]; simp), List.getElem?_cons_succ,
          ih (by simp) hl.tail htext hnext]
        simp [preceding]

/-- Move one line. Gives the new text and the line's column. -/
def indentLine (widest : Nat) (T : RuleTable) (t : Text) (line : Int) :
    Except Failure (Text × Int) :=
  if line < 0 then .ok (t, 0)
  else match (lineStarts t 0)[line.toNat]? with
    | none => .ok (t, 0)
    | some start =>
      match plan T t start with
      | .error e => .error (.offset e)
      | .ok (width, none) => .ok (t, width)
      | .ok (width, some column) =>
        match widthError? widest column with
        | some e => .error (.width e)
        | none => .ok (t.take start ++ spaces column.toNat ++ t.drop (start + width), column)

theorem obstacleFrom_append_out {widest : Nat} {T : RuleTable} {range : LineRange}
    {done : List Text} {n : Nat}
    (h : ∀ m, n ≤ m → m < n + done.length → range.contains m = false) (before : Text)
    (ls : List Text) :
    (obstacleFrom widest T range n before (done ++ ls)).value =
      (obstacleFrom widest T range (n + done.length) (before ++ preceding done) ls).value := by
  induction done generalizing n before with
  | nil => simp
  | cons line done ih =>
    rw [List.length_cons] at h ⊢
    have hrest : ∀ m, n + 1 ≤ m → m < n + 1 + done.length → range.contains m = false :=
      fun m hle hlt => h m (by omega) (by omega)
    have hlen : n + 1 + done.length = n + (done.length + 1) := by omega
    rw [List.cons_append, obstacleFrom_cons, planInRange_out T (h n (by omega) (by omega)),
      ih hrest, hlen]
    simp [placed, preceding]

theorem obstacle_single {widest : Nat} {T : RuleTable} {t line : Text} {n : Nat}
    (h : t.lines[n]? = some line) :
    (obstacle widest T t ⟨n, some n⟩).value =
      (planLine T (preceding (t.lines.take n)) line
        (following (t.lines.drop (n + 1)))).value.bind (widthError? widest) := by
  have hlen : (t.lines.take n).length = n :=
    List.length_take_of_le (Nat.le_of_lt (List.getElem?_eq_some_iff.mp h).1)
  have habove : ∀ m, 0 ≤ m → m < 0 + (t.lines.take n).length →
      LineRange.contains ⟨n, some n⟩ m = false :=
    fun m _ hlt => LineRange.contains_eq_false_iff.mpr (by omega)
  have hbelow : ∀ m, n + 1 ≤ m → m < n + 1 + (t.lines.drop (n + 1)).length →
      LineRange.contains ⟨n, some n⟩ m = false :=
    fun m hle _ => LineRange.contains_eq_false_iff.mpr (by omega)
  have hin : LineRange.contains ⟨n, some n⟩ n = true :=
    LineRange.contains_eq_true_iff.mpr ⟨le_rfl, le_rfl⟩
  calc (obstacle widest T t ⟨n, some n⟩).value
      = (obstacleFrom widest T ⟨n, some n⟩ 0 []
          (t.lines.take n ++ line :: t.lines.drop (n + 1))).value := by
        rw [← lines_eq_append_cons h]
        rfl
    _ = _ := by
        rw [obstacleFrom_append_out habove, hlen, Nat.zero_add, List.nil_append, obstacleFrom_cons,
          obstacleFrom_eq_none T hbelow, Option.or_none, planInRange, if_pos hin]

theorem indentLine_eq (widest : Nat) (T : RuleTable) (t : Text) (line : Int) :
    indentLine widest T t line = (indentLine? T t line widest).value.mapError .width := by
  rw [indentLine, indentLine?, value_unlessObstacle]
  unfold FlowEdit.indentLine
  by_cases hneg : line < 0
  · have hnone : (obstacle widest T t ⟨line, some line⟩).value = none :=
      obstacleFrom_eq_none T (fun m _ _ => LineRange.contains_eq_false_iff.mpr (by omega)) []
    simp only [hnone, if_pos hneg]
    rfl
  · lift line to Nat using not_lt.mp hneg
    have ht : t = [] ++ unlines t.lines := (unlines_lines t).symm
    have hs : 0 = ([] : Text).length := rfl
    have hstart := getElem?_lineStarts (lines_ne_nil t) (allLines_lines t) ht hs line
    simp only [if_neg hneg, Int.toNat_natCast, hstart]
    cases hline : t.lines[line]? with
    | none =>
      have hlen : t.lines.length ≤ line := List.getElem?_eq_none_iff.mp hline
      have hnone : (obstacle widest T t ⟨line, some line⟩).value = none :=
        obstacleFrom_eq_none T (fun m _ _ => LineRange.contains_eq_false_iff.mpr (by omega)) []
      rw [hnone, List.drop_eq_nil_of_le hlen]
      rfl
    | some l =>
      obtain ⟨hlt, hget⟩ := List.getElem?_eq_some_iff.mp hline
      have hplan := plan_append (not_mem_of_mem_lines (List.mem_of_getElem? hline)) T
        (preceding (t.lines.take line)) (t.lines.drop (line + 1))
      have hmoved := replace_indent (preceding (t.lines.take line)) l
        (following (t.lines.drop (line + 1)))
      rw [preceding_append_line hline] at hplan hmoved
      rw [obstacle_single hline, List.drop_eq_getElem_cons hlt, hget]
      simp only [Option.map_some, List.nil_append, hplan, Logged.value_bind]
      generalize (planLine T (preceding (t.lines.take line)) l
        (following (t.lines.drop (line + 1)))).value = plan
      cases plan with
      | none => rfl
      | some column =>
        simp only [Option.bind_some, hmoved]
        cases widthError? widest column with
        | some e => rfl
        | none =>
          rw [← List.append_assoc]
          rfl

end FlowEdit.Indexed
