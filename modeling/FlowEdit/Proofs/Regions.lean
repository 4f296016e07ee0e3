import FlowEdit.Proofs.QuotedParens
import FlowEdit.Proofs.WordRuns

/-!
The words of a region. They are read from an anchor, and the words of a whole text from its
beginning. Once two readings are in the same mode they find the same words
(`ReadAlike.filter_runs`), so the words of a region are those of the text that overlap it if the two
readings agree where the region begins, and not otherwise. They agree unless two parens in column 0
above are inside strings. Main statement: `spans_region`.
-/

namespace FlowEdit

open Text

/-! ## Reading on from a cut -/

/-- A word character is read in code exactly if code goes on behind it. -/
theorem Mode.step_eq_code_iff_of_isWordChar {m : Mode} {c : Char} (hc : isWordChar c = true) :
    m.step c = .code ↔ m = .code := by
  have hne : ∀ d : Char, isWordChar d = false → c ≠ d := by
    rintro d hd rfl
    rw [hc] at hd
    exact Bool.noConfusion hd
  have hn := hne '\n' (by decide)
  have hq := hne '"' (by decide)
  have hs := hne ';' (by decide)
  simp [Mode.step_eq_code_iff, hn, hq, hs]

/-- The part of a word that ends with a text, if reading began in the given mode behind `word`. -/
def wordAfter (mode : Mode) (word : Text) : Text → Text
  | [] => word
  | c :: t =>
    if mode = .code ∧ isWordChar c then wordAfter .code (word ++ [c]) t
    else wordAfter (mode.step c) [] t

theorem wordAfter_append (mode : Mode) (word x y : Text) :
    wordAfter mode word (x ++ y) = wordAfter (mode.run x) (wordAfter mode word x) y := by
  induction x generalizing mode word with
  | nil => rfl
  | cons c x ih =>
    rw [List.cons_append, wordAfter, wordAfter, Mode.run_cons]
    split
    next hc =>
      rw [ih, hc.1, Mode.step_code_of_isAtomChar (isAtomChar_of_isWordChar hc.2)]
    next => exact ih _ _

theorem wordAfter_concat (mode : Mode) (word x : Text) (c : Char) :
    wordAfter mode word (x ++ [c]) =
      if mode.run x = .code ∧ isWordChar c then wordAfter mode word x ++ [c] else [] := by
  rw [wordAfter_append]
  rfl

theorem LineBegins.wordAfter_eq_nil {before : Text} (h : LineBegins before) :
    wordAfter .code [] before = [] := by
  rcases h with rfl | ⟨t, rfl⟩
  · rfl
  · have hn : isWordChar '\n' = false := by decide
    simp [wordAfter_concat, hn]

/-- Readings that end in the same mode end in the same word. -/
theorem wordAfter_congr {m m' : Mode} {x : Text} (h : m.run x = m'.run x) :
    wordAfter m [] x = wordAfter m' [] x := by
  induction x using List.reverseRecOn with
  | nil => rfl
  | append_singleton x c ih =>
    rw [wordAfter_concat, wordAfter_concat]
    by_cases hc : isWordChar c = true
    · rw [Mode.run_append, Mode.run_append] at h
      -- the word goes on in both readings, or in none
      have hstep : (m.run x).step c = (m'.run x).step c := h
      have hcode : m.run x = .code ↔ m'.run x = .code := by
        rw [← Mode.step_eq_code_iff_of_isWordChar hc, hstep,
          Mode.step_eq_code_iff_of_isWordChar hc]
      by_cases hm : m.run x = .code
      · have hm' := hcode.mp hm
        simp only [hm, hm', hc, and_self, if_true, ih (hm.trans hm'.symm)]
      · have hm' : m'.run x ≠ .code := fun h => hm (hcode.mpr h)
        simp only [hm, hm', false_and, if_false]
    · simp [hc]

/-- The words of a text that is cut somewhere: those that end in front of the cut, and those found
by reading on from there. -/
theorem exists_runsFrom_append (mode : Mode) {offset : Nat} {word : Text}
    (hword : word.length ≤ offset) (x : Text) :
    ∃ out, (∀ r ∈ out, r.stop ≤ offset + x.length) ∧ ∀ y,
      runsFrom mode offset word (x ++ y) =
        out ++ runsFrom (mode.run x) (offset + x.length) (wordAfter mode word x) y := by
  induction x generalizing mode offset word with
  | nil => exact ⟨[], by simp, fun y => rfl⟩
  | cons c x ih =>
    have hoffset : offset + (c :: x).length = offset + 1 + x.length := by
      rw [List.length_cons]
      omega
    rw [hoffset]
    by_cases hc : mode = .code ∧ isWordChar c = true
    · obtain ⟨rfl, hword'⟩ := hc
      have hstep := Mode.step_code_of_isAtomChar (isAtomChar_of_isWordChar hword')
      have hlen : (word ++ [c]).length ≤ offset + 1 := by
        rw [List.length_append]
        exact Nat.succ_le_succ hword
      obtain ⟨out, hout, hrest⟩ := ih .code hlen
      refine ⟨out, hout, fun y => ?_⟩
      rw [List.cons_append, runsFrom, if_pos ⟨rfl, hword'⟩, hrest, Mode.run_cons, hstep, wordAfter,
        if_pos ⟨rfl, hword'⟩]
    · have hlen : ([] : Text).length ≤ offset + 1 := Nat.zero_le _
      obtain ⟨out, hout, hrest⟩ := ih (mode.step c) hlen
      refine ⟨endRun offset word ++ out, fun r hr => ?_, fun y => ?_⟩
      · rcases List.mem_append.mp hr with hend | hr
        · obtain ⟨-, rfl⟩ := mem_endRun hend
          show offset - word.length + word.length ≤ _
          omega
        · exact hout r hr
      · rw [List.cons_append, runsFrom, if_neg hc, hrest, Mode.run_cons, wordAfter, if_neg hc,
          List.append_assoc]

/-! ## Two readings of one position -/

/-- The mode in which the end of a text is read from its anchor is the one in which it is read from
the beginning. -/
def ReadAlike (before : Text) : Prop :=
  Mode.code.run (before.drop (anchor before)) = Mode.code.run before

instance (before : Text) : Decidable (ReadAlike before) :=
  inferInstanceAs (Decidable (_ = _))

/-- The word overlaps the stretch from `s` to `e`. -/
def Run.overlaps (s e : Nat) (r : Run) : Bool := r.start < e && s < r.stop

/-- The words that overlap a stretch behind `before` are found by reading on from there. -/
theorem filter_runs_append {before : Text} {start : Nat} (h : start ≤ before.length)
    (after : Text) (e : Nat) :
    (runs (before ++ after) start).filter (Run.overlaps before.length e) =
      (runsFrom (Mode.code.run (before.drop start)) before.length
        (wordAfter .code [] (before.drop start)) after).filter (Run.overlaps before.length e) := by
  obtain ⟨out, hout, hread⟩ :=
    exists_runsFrom_append .code (show ([] : Text).length ≤ start from Nat.zero_le _)
      (before.drop start)
  have hend : start + (before.drop start).length = before.length := by
    rw [List.length_drop]
    omega
  have hnone : out.filter (Run.overlaps before.length e) = [] := by
    rw [List.filter_eq_nil_iff]
    intro r hr hover
    have hstop := hout r hr
    simp only [Run.overlaps, Bool.and_eq_true, decide_eq_true_eq] at hover
    omega
  rw [runs, List.drop_append_of_le_length h, hread, List.filter_append, hend, hnone,
    List.nil_append]

/-- Where the two readings are in the same mode they are in the same word, too. -/
theorem ReadAlike.wordAfter_eq {before : Text} (h : ReadAlike before) :
    wordAfter .code [] (before.drop (anchor before)) = wordAfter .code [] before := by
  have hsplit := List.take_append_drop (anchor before) before
  have hbegins : LineBegins (before.take (anchor before)) := (searched before).begins
  have hmode : (Mode.code.run (before.take (anchor before))).run (before.drop (anchor before)) =
      Mode.code.run (before.drop (anchor before)) := by
    rw [← Mode.run_append, hsplit, h]
  calc wordAfter .code [] (before.drop (anchor before))
      = wordAfter (Mode.code.run (before.take (anchor before)))
          (wordAfter .code [] (before.take (anchor before))) (before.drop (anchor before)) := by
        rw [hbegins.wordAfter_eq_nil, wordAfter_congr hmode]
    _ = wordAfter .code [] before := by rw [← wordAfter_append, hsplit]

theorem ReadAlike.filter_runs {before : Text} (h : ReadAlike before) (after : Text) (e : Nat) :
    (runs (before ++ after) (anchor before)).filter (Run.overlaps before.length e) =
      (runs (before ++ after) 0).filter (Run.overlaps before.length e) := by
  have hmode : Mode.code.run (before.drop (anchor before)) = Mode.code.run before := h
  rw [filter_runs_append (anchor_le_length before), filter_runs_append (Nat.zero_le _),
    h.wordAfter_eq, hmode, List.drop_zero]

/-- The two readings agree unless two parens in column 0 are inside strings. -/
theorem readAlike_or_exists_quotedAt (before : Text) :
    ReadAlike before ∨ ∃ a b, a.length < b.length ∧ QuotedAt before a ∧ QuotedAt before b :=
  (searched before).anchor.imp_left run_drop_anchor

theorem readAlike_of_quotedParen {before : Text}
    (h : ∀ i < before.lines.length, ∀ j < before.lines.length,
      QuotedParen before i → QuotedParen before j → i = j) : ReadAlike before := by
  rcases readAlike_or_exists_quotedAt before with halike | ⟨a, b, hab, ha, hb⟩
  · exact halike
  · have hlt := ha.lines_lt hb hab
    obtain ⟨han, hpa⟩ := ha.quotedParen_lines
    obtain ⟨hbn, hpb⟩ := hb.quotedParen_lines
    exact absurd (h _ han _ hbn hpa hpb) (Nat.ne_of_lt hlt)

/-! ## Telling two readings apart -/

/-- Modes are told apart by a character that leads to code from one of them only. -/
theorem Mode.eq_of_step_eq_code {m m' : Mode}
    (h : ∀ c, isWordChar c = false → (m.step c = .code ↔ m'.step c = .code)) : m = m' := by
  have hspace := h ' ' (by decide)
  have hnewline := h '\n' (by decide)
  have hquote := h '"' (by decide)
  revert hspace hnewline hquote
  cases m <;> cases m' <;> decide

theorem runsFrom_letter (m : Mode) (offset : Nat) :
    runsFrom m offset [] ['a'] = if m = .code then [⟨offset, ['a']⟩] else [] := by
  cases m with
  | code =>
    have hword : isWordChar 'a' = true := by decide
    simp [runsFrom, hword, endRun]
  | comment => rfl
  | string => rfl
  | escape => rfl

/-- A letter behind a character that is in no word is found exactly if the character leads to
code. -/
theorem exists_start_eq_iff {m : Mode} {c : Char} (hc : isWordChar c = false) (offset : Nat)
    (word : Text) :
    (∃ r ∈ runsFrom m offset word [c, 'a'], r.start = offset + 1) ↔ m.step c = .code := by
  have hend : ∀ r ∈ endRun offset word, r.start ≠ offset + 1 := by
    intro r hr
    obtain ⟨-, rfl⟩ := mem_endRun hr
    show offset - word.length ≠ offset + 1
    omega
  rw [runsFrom, if_neg (by simp [hc]), runsFrom_letter]
  constructor
  · rintro ⟨r, hr, hstart⟩
    rcases List.mem_append.mp hr with hr | hr
    · exact absurd hstart (hend r hr)
    · by_contra hcode
      simp [hcode] at hr
  · intro hcode
    exact ⟨⟨offset + 1, ['a']⟩, by simp [hcode], rfl⟩

/-- The same for a reading that comes from above: the letter behind `before` and the character is
among the words found if the character leads to code. -/
theorem mem_map_start_filter_iff {before : Text} {start : Nat} (h : start ≤ before.length) {c : Char}
    (hc : isWordChar c = false) :
    before.length + 1 ∈ ((runs (before ++ [c, 'a']) start).filter
      (Run.overlaps before.length (before ++ [c, 'a']).length)).map Run.start ↔
        (Mode.code.run (before.drop start)).step c = .code := by
  rw [filter_runs_append h, ← exists_start_eq_iff hc before.length, List.mem_map]
  refine exists_congr fun r => ?_
  rw [List.mem_filter, and_assoc]
  refine and_congr_right fun _ => ⟨And.right, fun hstart => ⟨?_, hstart⟩⟩
  simp only [Run.overlaps, Run.stop, hstart, List.length_append, List.length_cons, List.length_nil,
    Bool.and_eq_true, decide_eq_true_eq]
  omega

/-! ## Spans of a region -/

/-- The spans that overlap the stretch from `s` to `e`. -/
def overlapping (s e : Nat) (spans : List Span) : List Span :=
  spans.filter fun w => w.start < e && s < w.stop

theorem overlapping_spans (v : Vocabulary) (t : Text) (s e : Nat) :
    overlapping s e (v.spans t 0 none) =
      ((runs t 0).filter (Run.overlaps s e)).map (·.span v) := by
  have hall : v.spans t 0 none = (runs t 0).map (·.span v) := allSpans_eq_map_runs v t
  rw [overlapping, hall, List.filter_map]
  rfl

theorem spans_eq_map_filter_runs (v : Vocabulary) {t : Text} {first : Int} {last : Option Int}
    (h : t.clamp first < (last.map t.clamp).getD t.length) :
    v.spans t first last = ((runs t (anchor (t.take (t.clamp first)))).filter
      (Run.overlaps (t.clamp first) ((last.map t.clamp).getD t.length))).map (·.span v) := by
  unfold Vocabulary.spans
  rw [if_neg (Nat.not_le.mpr h)]
  rfl

theorem ReadAlike.spans_eq {v : Vocabulary} {t : Text} {first : Int} {last : Option Int}
    (halike : ReadAlike (t.take (t.clamp first)))
    (h : t.clamp first < (last.map t.clamp).getD t.length) :
    v.spans t first last =
      overlapping (t.clamp first) ((last.map t.clamp).getD t.length) (v.spans t 0 none) := by
  have hfilter := halike.filter_runs (t.drop (t.clamp first))
    ((last.map t.clamp).getD t.length)
  rw [List.take_append_drop, length_take_clamp] at hfilter
  rw [spans_eq_map_filter_runs v h, overlapping_spans, hfilter]

/-- Regions that have the spans of the whole text, however the text goes on behind `before`, begin
where it is read alike. -/
theorem readAlike_of_spans_eq {v : Vocabulary} {before : Text}
    (h : ∀ after, after ≠ [] → v.spans (before ++ after) before.length none =
      overlapping before.length (before ++ after).length (v.spans (before ++ after) 0 none)) :
    ReadAlike before := by
  apply Mode.eq_of_step_eq_code
  intro c hc
  have hclamp : (before ++ [c, 'a']).clamp before.length = before.length :=
    clamp_natCast (by simp)
  have hlt : (before ++ [c, 'a']).clamp before.length <
      ((none : Option Int).map (before ++ [c, 'a']).clamp).getD (before ++ [c, 'a']).length := by
    simp [hclamp]
  have hspans := h [c, 'a'] (List.cons_ne_nil _ _)
  rw [spans_eq_map_filter_runs v hlt, overlapping_spans, hclamp, List.take_left] at hspans
  -- the words found start at the same offsets, and one of these tells whether `c` leads to code
  have hstarts : ∀ rs : List Run, (rs.map (·.span v)).map Span.start = rs.map Run.start :=
    fun rs => List.map_map
  have hsame := congrArg (List.map Span.start) hspans
  rw [hstarts, hstarts] at hsame
  have hstart := mem_map_start_filter_iff (anchor_le_length before) hc
  have hzero := mem_map_start_filter_iff (Nat.zero_le before.length) hc
  rw [List.drop_zero] at hzero
  rw [← hstart, ← hzero]
  exact iff_of_eq (congrArg (before.length + 1 ∈ ·) hsame)

/-- The spans of a region, from `s` to `e`. They are the spans of the whole text that overlap the
region, if the position `s` is read alike from its anchor and from the beginning. It is so read if at
most one line above begins with a `(` inside a string, and it is the only way: otherwise the text
above `s` goes on, in some text, with a region whose spans are others. -/
theorem spans_region (v : Vocabulary) (t : Text) (first : Int) (last : Option Int) :
    let s := t.clamp first
    let e := (last.map t.clamp).getD t.length
    let above : Text := t.take s
    (s < e → ReadAlike above → v.spans t first last = overlapping s e (v.spans t 0 none)) ∧
      ((∀ i < above.lines.length, ∀ j < above.lines.length,
        QuotedParen above i → QuotedParen above j → i = j) → ReadAlike above) ∧
      (ReadAlike above ↔ ∀ after, after ≠ [] →
        v.spans (above ++ after) s none =
          overlapping s (above ++ after).length (v.spans (above ++ after) 0 none)) := by
  intro s e above
  have hlen : above.length = s := length_take_clamp t first
  refine ⟨fun hlt halike => halike.spans_eq hlt, readAlike_of_quotedParen, fun halike after hne => ?_,
    fun h => ?_⟩
  · have hclamp : (above ++ after).clamp (s : Int) = s := clamp_natCast (by simp [hlen])
    have hspans := @ReadAlike.spans_eq v (above ++ after) s none
    rw [hclamp, List.take_left' hlen] at hspans
    refine hspans halike ?_
    have hpos := List.length_pos_iff.mpr hne
    show s < (above ++ after).length
    rw [List.length_append, hlen]
    omega
  · rw [← hlen] at h
    exact readAlike_of_spans_eq h

theorem spans_region_behind_quoted_paren :
    let t : Text := "(print \"x\n(goto y\") z".toList
    QuotedParen (t.take 12) 1 ∧ Vocabulary.standard.spans t 12 none =
      overlapping 12 21 (Vocabulary.standard.spans t 0 none) ∧
        Vocabulary.standard.spans t 12 none = [⟨20, 21, .plain⟩] := by
  intro t
  obtain ⟨hspans, halike, -⟩ := spans_region .standard t 12 none
  exact ⟨by decide, hspans (by decide) (halike (by decide)), by decide⟩

/-- Behind two parens in a string, a word of the string is found. -/
theorem spans_region_in_string :
    let t : Text := "\"\n(a\n(b\n  x\"".toList
    Vocabulary.standard.spans t 8 none = [⟨10, 11, .plain⟩] ∧
      overlapping 8 t.length (Vocabulary.standard.spans t 0 none) = [] := by
  decide

end FlowEdit
