import FlowEdit.Proofs.Reflow
import FlowEdit.Session.Response

/-!
The edits sent to an editor. The walk finds them one after the other in a text that moves, while
an editor makes them all at once, at positions of the text that it has. The two agree since the
edits of a line are at its beginning and the lines come in order, so that an edit never moves a
position of a later one. Main statement: `formattingEdits_denote_reindent`.
-/

namespace FlowEdit

open Text

/-! ## The edits of a walk -/

section

variable {T : RuleTable} {range : LineRange}

/-- Every edit of a walk replaces the whole indentation of its line, and by something else. -/
theorem mem_edits_reflowFrom {n : Nat} {before : Text} {ls : List Text} {e : LineEdit}
    (he : e ∈ (reflowFrom T range n before ls).value.filterMap Reflowed.edit) :
    ∃ i line, ls[i]? = some line ∧ e.line = n + i ∧ e.width = indentWidth line ∧
      e.replace line ≠ line := by
  induction ls generalizing n before with
  | nil => simp [reflowFrom] at he
  | cons line rest ih =>
    rw [reflowFrom_cons, List.filterMap_cons] at he
    generalize (planInRange T range n before line (following rest)).value = plan at he
    have hbelow : e ∈ (reflowFrom T range (n + 1) (before ++ placed plan line ++ ['\n'])
        rest).value.filterMap Reflowed.edit →
        ∃ i l, (line :: rest)[i]? = some l ∧ e.line = n + i ∧ e.width = indentWidth l ∧
          e.replace l ≠ l := by
      intro hrest
      obtain ⟨i, l, hl, hline, hwidth, hne⟩ := ih hrest
      exact ⟨i + 1, l, by simpa using hl, by omega, hwidth, hne⟩
    cases hedit : editFor n line plan with
    | none => exact hbelow (by simpa [hedit] using he)
    | some first =>
      simp only [hedit, List.mem_cons] at he
      rcases he with rfl | hrest
      · obtain ⟨hline, hwidth, hreplace, hne⟩ := editFor_eq_some hedit
        exact ⟨0, line, rfl, by simpa using hline, hwidth, by rw [hreplace]; exact hne⟩
      · exact hbelow hrest

/-- The edits of a walk come in the order of their lines, with at most one for each. -/
theorem pairwise_edits_reflowFrom (n : Nat) (before : Text) (ls : List Text) :
    ((reflowFrom T range n before ls).value.filterMap Reflowed.edit).Pairwise
      fun e f => e.line < f.line := by
  induction ls generalizing n before with
  | nil => exact List.Pairwise.nil
  | cons line rest ih =>
    rw [reflowFrom_cons, List.filterMap_cons]
    generalize (planInRange T range n before line (following rest)).value = plan
    cases hedit : editFor n line plan with
    | none => simpa [hedit] using ih _ _
    | some first =>
      simp only
      refine List.Pairwise.cons ?_ (ih _ _)
      intro e he
      obtain ⟨i, -, -, hline, -⟩ := mem_edits_reflowFrom he
      have hfirst := (editFor_eq_some hedit).1
      omega

end

/-! ## Positions -/

/-- Offset at which a line starts. -/
def lineOffset (t : Text) (n : Nat) : Nat := (preceding (t.lines.take n)).length

theorem lineOffset_mono (t : Text) {n m : Nat} (h : n ≤ m) : lineOffset t n ≤ lineOffset t m := by
  unfold lineOffset
  obtain ⟨rest, hrest⟩ := List.take_prefix_take_left (l := t.lines) h
  rw [← hrest, preceding_append, List.length_append]
  omega

theorem unitsOf_isIndent {c : Char} (h : isIndent c = true) : unitsOf c = 1 := by
  simp only [isIndent, Bool.or_eq_true, beq_iff_eq] at h
  rcases h with rfl | rfl <;> rfl

/-- Indentation takes one unit for each character. -/
theorem advance_indent {run : Text} (h : ∀ c ∈ run, isIndent c = true) (rest : Text) :
    advance run.length (run ++ rest) = run.length := by
  induction run with
  | nil => simp [advance]
  | cons c run ih =>
    have hc : unitsOf c = 1 := unitsOf_isIndent (h c (by simp))
    have hrest := ih fun d hd => h d (by simp [hd])
    simp only [List.length_cons, List.cons_append, advance, hc, Nat.add_sub_cancel, hrest]
    omega

/-- Dropping carriage returns from the end of a line leaves its indentation. -/
theorem dropTail_indent {run : Text} (h : ∀ c ∈ run, isIndent c = true) (rest : Text) :
    ∃ rest', dropTail (· == '\r') (run ++ rest) = run ++ rest' := by
  have hkeep : run.reverse.dropWhile (· == '\r') = run.reverse := by
    rw [List.dropWhile_eq_self_iff]
    intro hpos hc
    have hmem : run.reverse[0] ∈ run := List.mem_reverse.mp (List.getElem_mem hpos)
    have hindent := h _ hmem
    rw [beq_iff_eq.mp hc] at hindent
    exact absurd hindent (by decide)
  unfold dropTail
  rw [List.reverse_append, List.dropWhile_append, hkeep]
  split
  · exact ⟨[], by simp⟩
  · exact ⟨(rest.reverse.dropWhile (· == '\r')).reverse, by simp⟩

theorem advance_indentWidth (line : Text) :
    advance (indentWidth line) (dropTail (· == '\r') line) = indentWidth line := by
  have hrun : ∀ c ∈ line.takeWhile isIndent, isIndent c = true :=
    fun c hc => List.mem_takeWhile_imp hc
  obtain ⟨rest, hrest⟩ := dropTail_indent hrun (bare line)
  rw [takeWhile_append_bare] at hrest
  rw [hrest]
  exact advance_indent hrun rest

section

variable {t line : Text} {n : Nat}

theorem offsetAt_eq (h : t.lines[n]? = some line) (character : Nat) :
    t.offsetAt ⟨n, character⟩ = lineOffset t n + advance character (dropTail (· == '\r') line) := by
  obtain ⟨hn, hline⟩ := List.getElem?_eq_some_iff.mp h
  unfold offsetAt
  rw [List.drop_eq_getElem_cons hn, hline]
  rfl

theorem offsetAt_lineStart (h : t.lines[n]? = some line) : t.offsetAt ⟨n, 0⟩ = lineOffset t n := by
  rw [offsetAt_eq h]
  simp [advance]

theorem offsetAt_indentEnd (h : t.lines[n]? = some line) :
    t.offsetAt ⟨n, indentWidth line⟩ = lineOffset t n + indentWidth line := by
  rw [offsetAt_eq h, advance_indentWidth]

/-- A line and what follows it stand at its offset. -/
theorem drop_lineOffset (h : t.lines[n]? = some line) :
    t.drop (lineOffset t n) = line ++ following (t.lines.drop (n + 1)) := by
  have hdrop : (preceding (t.lines.take n) ++
      (line ++ following (t.lines.drop (n + 1)))).drop (lineOffset t n) =
        line ++ following (t.lines.drop (n + 1)) := List.drop_left
  rwa [preceding_append_line h] at hdrop

theorem take_lineOffset (h : t.lines[n]? = some line) :
    t.take (lineOffset t n) = preceding (t.lines.take n) := by
  have htake : (preceding (t.lines.take n) ++
      (line ++ following (t.lines.drop (n + 1)))).take (lineOffset t n) =
        preceding (t.lines.take n) := List.take_left
  rwa [preceding_append_line h] at htake

theorem lineOffset_le_length (h : t.lines[n]? = some line) : lineOffset t n ≤ t.length := by
  have hlen := congrArg List.length (take_lineOffset h)
  rw [List.length_take] at hlen
  unfold lineOffset at hlen ⊢
  omega

theorem lineOffset_succ (h : t.lines[n]? = some line) :
    lineOffset t (n + 1) = lineOffset t n + line.length + 1 := by
  obtain ⟨hn, hline⟩ := List.getElem?_eq_some_iff.mp h
  unfold lineOffset
  rw [List.take_succ_eq_append_getElem hn, hline, preceding_concat]
  simp only [List.length_append, List.length_singleton]

end

/-! ## Making edits all at once -/

/-- What edits make of the text from the offset `done` on. All positions are those of the text as
it is; the edits come in its order, and what lies between them stays. -/
def TextEdit.applyFrom (t : Text) (done : Nat) : List TextEdit → Text
  | [] => t.drop done
  | e :: es =>
    (t.take (t.offsetAt e.start)).drop done ++ e.newText ++ applyFrom t (t.offsetAt e.stop) es

/-- The text with all edits made at once. -/
def applyTextEdits (t : Text) (edits : List TextEdit) : Text := TextEdit.applyFrom t 0 edits

theorem take_drop_append {t : Text} {k m : Nat} (hkm : k ≤ m) {o : Nat} (hmo : m ≤ o) :
    (t.take o).drop k = (t.take m).drop k ++ (t.take o).drop m := by
  have hlen : o - k = (m - k) + (o - m) := by omega
  have hmid : k + (m - k) = m := by omega
  rw [List.drop_take, List.drop_take, List.drop_take, hlen, List.take_add, List.drop_drop, hmid]

/-- The text in front of the first edit stays. -/
theorem applyFrom_skip {t : Text} {k m : Nat} (hkm : k ≤ m) {es : List TextEdit}
    (h : ∀ e ∈ es, m ≤ t.offsetAt e.start) :
    TextEdit.applyFrom t k es = (t.take m).drop k ++ TextEdit.applyFrom t m es := by
  cases es with
  | nil =>
    have hsplit := take_drop_append (t := t) hkm (Nat.le_max_left m t.length)
    have hall : t.take (max m t.length) = t := List.take_of_length_le (Nat.le_max_right _ _)
    rw [hall] at hsplit
    exact hsplit
  | cons e es =>
    have he := h e (by simp)
    simp only [TextEdit.applyFrom, take_drop_append hkm he, List.append_assoc]

theorem take_one_following {rest rest' : List Text} (h : rest.length = rest'.length) :
    (following rest).take 1 ++ unlines rest' = following rest' := by
  cases rest with
  | nil =>
    have hnil : rest' = [] := List.length_eq_zero_iff.mp h.symm
    simp [hnil, following, unlines]
  | cons l ls =>
    cases rest' with
    | nil => simp at h
    | cons m ms => simp [following]

theorem take_drop_line {t line : Text} {n w : Nat} (h : t.lines[n]? = some line)
    (hw : w ≤ line.length) :
    (t.take (lineOffset t (n + 1))).drop (lineOffset t n + w) =
      line.drop w ++ (following (t.lines.drop (n + 1))).take 1 := by
  have hlen : lineOffset t (n + 1) - (lineOffset t n + w) = (line.drop w).length + 1 := by
    rw [lineOffset_succ h, List.length_drop]
    omega
  rw [List.drop_take, hlen, ← List.drop_drop, drop_lineOffset h,
    List.drop_append_of_le_length hw, List.take_length_add_append]

theorem length_le_lineOffset {t : Text} {n : Nat} (h : t.lines.length ≤ n) :
    t.length ≤ lineOffset t n := by
  unfold lineOffset
  rw [List.take_of_length_le h, preceding_eq_unlines_concat (lines_ne_nil t), unlines_lines,
    List.length_append]
  omega

/-- The edits of a walk from line `n` on are not above it. -/
theorem lineOffset_le_offsetAt_start {T : RuleTable} {range : LineRange} {t before : Text} {n : Nat}
    {e : TextEdit} (he : e ∈ ((reflowFrom T range n before (t.lines.drop n)).value.filterMap
      Reflowed.edit).map LineEdit.textEdit) : lineOffset t n ≤ t.offsetAt e.start := by
  obtain ⟨f, hf, rfl⟩ := List.mem_map.mp he
  obtain ⟨i, l, hl, hnumber, -, -⟩ := mem_edits_reflowFrom hf
  have hline : t.lines[f.line]? = some l := by
    rw [← hl, List.getElem?_drop, hnumber]
  show lineOffset t n ≤ t.offsetAt ⟨f.line, 0⟩
  rw [offsetAt_lineStart hline]
  exact lineOffset_mono t (by omega)

/-- The edit of a line, made at its beginning. -/
theorem applyFrom_textEdit {t line : Text} {n : Nat} (hline : t.lines[n]? = some line)
    {plan : Option Int} {e : LineEdit} (hedit : editFor n line plan = some e) {es : List TextEdit}
    {below : Text} (hbelow : TextEdit.applyFrom t (lineOffset t n + indentWidth line) es =
      line.drop (indentWidth line) ++ below) :
    TextEdit.applyFrom t (lineOffset t n) (e.textEdit :: es) = placed plan line ++ below := by
  obtain ⟨hnumber, hwidth, hreplace, -⟩ := editFor_eq_some hedit
  have hstart : t.offsetAt ⟨e.line, 0⟩ = lineOffset t n := by
    rw [hnumber, offsetAt_lineStart hline]
  have hstop : t.offsetAt ⟨e.line, e.width⟩ = lineOffset t n + indentWidth line := by
    rw [hnumber, hwidth, offsetAt_indentEnd hline]
  simp only [TextEdit.applyFrom, LineEdit.textEdit, hstart, hstop, hbelow]
  rw [← hreplace, LineEdit.replace, hwidth]
  simp

/-- Making the edits of a walk from a line on at once, the text from that line on becomes that of
the walk. -/
theorem applyFrom_reflowFrom (T : RuleTable) (range : LineRange) (t : Text) (n : Nat)
    (before : Text) {ls : List Text} (h : t.lines.drop n = ls) :
    TextEdit.applyFrom t (lineOffset t n)
        (((reflowFrom T range n before ls).value.filterMap Reflowed.edit).map LineEdit.textEdit) =
      unlines (reflowedLines T range n before ls) := by
  induction ls generalizing n before with
  | nil =>
    have hend := length_le_lineOffset (List.drop_eq_nil_iff.mp h)
    simpa [reflowFrom, TextEdit.applyFrom, reflowedLines, unlines] using hend
  | cons line rest ih =>
    have hline : t.lines[n]? = some line := by
      rw [← List.head?_drop, h]
      rfl
    have hrest : t.lines.drop (n + 1) = rest := by
      rw [← List.drop_drop, h]
      rfl
    rw [reflowFrom_cons, reflowedLines_cons, List.filterMap_cons, unlines_cons]
    generalize (planInRange T range n before line (following rest)).value = plan
    -- the rest of the line, from any place in it, is followed by the lines of the walk
    have hfrom : ∀ w, w ≤ line.length →
        TextEdit.applyFrom t (lineOffset t n + w) (((reflowFrom T range (n + 1)
          (before ++ placed plan line ++ ['\n']) rest).value.filterMap Reflowed.edit).map
            LineEdit.textEdit) = line.drop w ++ following (reflowedLines T range (n + 1)
              (before ++ placed plan line ++ ['\n']) rest) := by
      intro w hw
      have hlines := ih (n + 1) (before ++ placed plan line ++ ['\n']) hrest
      subst hrest
      rw [applyFrom_skip (by rw [lineOffset_succ hline]; omega)
        (fun e he => lineOffset_le_offsetAt_start he), take_drop_line hline hw, hlines,
        List.append_assoc, take_one_following (length_reflowedLines ..).symm]
    cases hedit : editFor n line plan with
    | none =>
      rw [placed_eq_of_editFor_eq_none hedit] at hfrom ⊢
      exact hfrom 0 (Nat.zero_le _)
    | some e =>
      have hle : indentWidth line ≤ line.length := (List.takeWhile_sublist isIndent).length_le
      exact applyFrom_textEdit hline hedit (hfrom _ hle)

theorem applyTextEdits_formattingEdits (t : Text) (range : LineRange) :
    applyTextEdits t (formattingEdits t range).value = reflowed RuleTable.standard range t :=
  applyFrom_reflowFrom RuleTable.standard range t 0 [] rfl

/-! ## What the edits are -/

theorem mem_formattingEdits {t : Text} {range : LineRange} {e : TextEdit}
    (h : e ∈ (formattingEdits t range).value) :
    ∃ n line, t.lines[n]? = some line ∧ e.start = ⟨n, 0⟩ ∧ e.stop = ⟨n, indentWidth line⟩ ∧
      e.newText ≠ line.takeWhile isIndent := by
  obtain ⟨f, hf, rfl⟩ := List.mem_map.mp h
  obtain ⟨i, line, hline, hnumber, hwidth, hne⟩ := mem_edits_reflowFrom hf
  rw [Nat.zero_add] at hnumber
  refine ⟨f.line, line, by rw [hnumber]; exact hline, rfl, by rw [← hwidth]; rfl, ?_⟩
  intro hsame
  have hspaces : spaces f.column.toNat = line.takeWhile isIndent := hsame
  apply hne
  rw [LineEdit.replace, hwidth, drop_indentWidth, hspaces, takeWhile_append_bare]

/-- An edit that starts on a line ends before any later line does. -/
theorem offsetAt_indentEnd_lt {t line line' : Text} {n m : Nat} (h : t.lines[n]? = some line)
    (h' : t.lines[m]? = some line') (hnm : n < m) :
    t.offsetAt ⟨n, indentWidth line⟩ < t.offsetAt ⟨m, 0⟩ := by
  have hle : indentWidth line ≤ line.length := (List.takeWhile_sublist isIndent).length_le
  have hmono := lineOffset_mono t (show n + 1 ≤ m from hnm)
  rw [lineOffset_succ h] at hmono
  rw [offsetAt_indentEnd h, offsetAt_lineStart h']
  omega

theorem pairwise_formattingEdits (t : Text) (range : LineRange) :
    (formattingEdits t range).value.Pairwise fun e f =>
      e.start.line < f.start.line ∧ t.offsetAt e.stop < t.offsetAt f.start := by
  have hlines : (formattingEdits t range).value.Pairwise
      fun e f => e.start.line < f.start.line := by
    show (((reflowFrom RuleTable.standard range 0 [] t.lines).value.filterMap
      Reflowed.edit).map LineEdit.textEdit).Pairwise _
    rw [List.pairwise_map]
    exact pairwise_edits_reflowFrom 0 [] t.lines
  refine hlines.imp_of_mem ?_
  intro e f he hf hlt
  obtain ⟨n, line, hline, hstart, hstop, -⟩ := mem_formattingEdits he
  obtain ⟨m, line', hline', hstart', -, -⟩ := mem_formattingEdits hf
  refine ⟨hlt, ?_⟩
  rw [hstart, hstart'] at hlt
  rw [hstop, hstart']
  exact offsetAt_indentEnd_lt hline hline' hlt

/-- The edits of a document, made all at once at positions of the text as it is, give the
re-indented text. They come in the order of their lines, at most one for each, and each replaces
all of the indentation of its line and nothing else, by something else. So the lines of the two
texts are the same but for their indentation. -/
theorem formattingEdits_denote_reindent (t : Text) :
    let edits := (formattingEdits t {}).value
    let u := (reindent RuleTable.standard t).value
    applyTextEdits t edits = u ∧
      edits.Pairwise (fun e f =>
        e.start.line < f.start.line ∧ t.offsetAt e.stop < t.offsetAt f.start) ∧
      (∀ e ∈ edits, ∃ n line, t.lines[n]? = some line ∧ e.start.line = n ∧ e.stop.line = n ∧
        t.offsetAt e.start = (preceding (t.lines.take n)).length ∧
        (t.take (t.offsetAt e.stop)).drop (t.offsetAt e.start) = line.takeWhile isIndent ∧
        e.newText ≠ line.takeWhile isIndent) ∧
      u.lines.length = t.lines.length ∧
      u.lines.map (List.dropWhile isIndent) = t.lines.map (List.dropWhile isIndent) := by
  intro edits u
  have hbare : u.lines.map bare = t.lines.map bare :=
    map_bare_lines_reflowed RuleTable.standard {} t
  refine ⟨applyTextEdits_formattingEdits t {}, pairwise_formattingEdits t {}, ?_, ?_, hbare⟩
  · intro e he
    obtain ⟨n, line, hline, hstart, hstop, hne⟩ := mem_formattingEdits he
    refine ⟨n, line, hline, by rw [hstart], by rw [hstop], ?_, ?_, hne⟩
    · rw [hstart, offsetAt_lineStart hline]
      rfl
    · rw [hstart, hstop, offsetAt_lineStart hline, offsetAt_indentEnd hline, List.drop_take,
        Nat.add_sub_cancel_left, drop_lineOffset hline, take_indentWidth]
  · have hlen := congrArg List.length hbare
    simpa using hlen

theorem formattingEdits_denote_crlf_lines :
    let t : Text := "(a 😀\r\n\t b\r\n  \r\n \"x\n y\")".toList
    let edits := (formattingEdits t {}).value
    let e : TextEdit := ⟨⟨1, 0⟩, ⟨1, 2⟩, "   ".toList⟩
    e ∈ edits ∧
      applyTextEdits t edits = "(a 😀\r\n   b\r\n\r\n   \"x\n y\")".toList ∧
      ∃ n line, t.lines[n]? = some line ∧ e.start.line = n ∧
        (t.take (t.offsetAt e.stop)).drop (t.offsetAt e.start) = line.takeWhile isIndent := by
  intro t edits e
  have he : e ∈ edits := by decide
  obtain ⟨hdenote, -, hcover, -, -⟩ := formattingEdits_denote_reindent t
  obtain ⟨n, line, hline, hstart, -, -, hrun, -⟩ := hcover e he
  refine ⟨he, hdenote.trans ?_, n, line, hline, hstart, hrun⟩
  decide

end FlowEdit
