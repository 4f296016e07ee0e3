import FlowEdit.Proofs.Reflow

/-!
Lines that begin inside a string literal. The walk leaves a line alone if the reading from its
anchor says so, not if the reading from the beginning of the text does. The two agree as long as
the anchor is not in a string itself. It can be: a `(` in column 0 is judged from the previous one,
which is read as code even if it stands in a string. So it takes two such parens in strings to
mislead the walk (`exists_quotedAt_of_inString`). Main statement: `reindent_line_in_string`.
-/

namespace FlowEdit

open Text

/-! ## Readings from an anchor -/

theorem Mode.idle_run {before : Text} (h : LineBegins before) : (Mode.code.run before).Idle := by
  rcases h with rfl | ⟨t, rfl⟩
  · exact .inl rfl
  · rw [Mode.run_append]
    exact Mode.idle_step_newline _

theorem Mode.eq_code_of_idle {m : Mode} (h : m.Idle) (hs : m.inString = false) : m = .code := by
  rcases h with rfl | rfl
  · rfl
  · exact Bool.noConfusion hs

/-- Behind `above` and a newline there is a `(`, inside a string as the text is read from its
beginning. -/
def QuotedAt (t above : Text) : Prop :=
  above ++ ['\n', '('] <+: t ∧ (Mode.code.run (above ++ ['\n'])).inString = true

theorem QuotedAt.append {t above : Text} (h : QuotedAt t above) (u : Text) :
    QuotedAt (t ++ u) above :=
  ⟨h.1.trans (List.prefix_append t u), h.2⟩

theorem QuotedAt.length_lt {t above : Text} (h : QuotedAt t above) :
    above.length + 1 < t.length := by
  have := h.1.length_le
  simp at this
  omega

/-- What the search for an anchor knows behind the text `t`. Its mode is that of the reading from
the beginning unless it has read on from a paren in a string, and its anchor is in code unless it
has met two of them. -/
structure Searched (t : Text) (s : AnchorSearch) : Prop where
  offset : s.offset = t.length
  afterNewline : s.afterNewline = true → ∃ a, t = a ++ ['\n']
  mode : s.mode = Mode.code.run t ∨ ∃ a, QuotedAt t a
  anchor_le : s.anchor ≤ t.length
  begins : LineBegins (t.take s.anchor)
  anchor : (Mode.code.run (t.take s.anchor)).inString = false ∨
    ∃ a b, a.length < b.length ∧ QuotedAt t a ∧ QuotedAt t b

theorem searched_nil : Searched [] {} :=
  ⟨rfl, by simp, .inl rfl, Nat.le_refl 0, .inl rfl, .inl rfl⟩

/-- What stays true of an anchor that is kept. -/
theorem Searched.keep {t : Text} {s : AnchorSearch} (h : Searched t s) (c : Char) :
    s.anchor ≤ (t ++ [c]).length ∧ LineBegins ((t ++ [c]).take s.anchor) ∧
      ((Mode.code.run ((t ++ [c]).take s.anchor)).inString = false ∨
        ∃ a b, a.length < b.length ∧ QuotedAt (t ++ [c]) a ∧ QuotedAt (t ++ [c]) b) := by
  have htake : (t ++ [c]).take s.anchor = t.take s.anchor :=
    List.take_append_of_le_length h.anchor_le
  refine ⟨?_, ?_, ?_⟩
  · have := h.anchor_le
    simp only [List.length_append]
    omega
  · rw [htake]
    exact h.begins
  · rw [htake]
    rcases h.anchor with hcode | ⟨a, b, hab, ha, hb⟩
    · exact .inl hcode
    · exact .inr ⟨a, b, hab, ha.append [c], hb.append [c]⟩

/-- Behind a `(` in column 0 the search reads on as code, which is right unless the paren is in a
string. -/
theorem code_eq_run_or_quotedAt (a : Text) :
    Mode.code = Mode.code.run (a ++ ['\n', '(']) ∨ QuotedAt (a ++ ['\n', '(']) a := by
  have hsplit : a ++ ['\n', '('] = (a ++ ['\n']) ++ ['('] := by simp
  have hidle : (Mode.code.run (a ++ ['\n'])).Idle := Mode.idle_run (lineBegins_concat a)
  cases hs : (Mode.code.run (a ++ ['\n'])).inString with
  | true => exact .inr ⟨List.prefix_rfl, hs⟩
  | false =>
    left
    rw [hsplit, Mode.run_append, Mode.eq_code_of_idle hidle hs]
    rfl

/-- A `(` in column 0 that the search takes for code is in code unless the search has misread
before, and then this is the second paren in a string. -/
theorem Searched.inString_concat {a : Text} {s : AnchorSearch} (h : Searched (a ++ ['\n']) s)
    (hs : s.mode.inString = false) :
    (Mode.code.run (a ++ ['\n'])).inString = false ∨
      ∃ b, b.length < a.length ∧ QuotedAt (a ++ ['\n', '(']) b ∧ QuotedAt (a ++ ['\n', '(']) a := by
  cases htrue : (Mode.code.run (a ++ ['\n'])).inString with
  | false => exact .inl rfl
  | true =>
    right
    rcases h.mode with hm | ⟨b, hb⟩
    · rw [hm, htrue] at hs
      exact Bool.noConfusion hs
    · have hlt := hb.length_lt
      have happend := hb.append ['(']
      rw [List.append_assoc] at happend
      exact ⟨b, by simp at hlt; omega, happend, List.prefix_rfl, htrue⟩

/-- The search meets a `(` in column 0. -/
theorem Searched.paren {a : Text} {s : AnchorSearch} (h : Searched (a ++ ['\n']) s) :
    Searched (a ++ ['\n', '('])
      { offset := s.offset + 1
        anchor := if s.mode.inString then s.anchor else s.offset
        mode := .code
        afterNewline := false } := by
  have hsplit : a ++ ['\n', '('] = (a ++ ['\n']) ++ ['('] := by simp
  have hmode : Mode.code = Mode.code.run (a ++ ['\n', '(']) ∨ ∃ b, QuotedAt (a ++ ['\n', '(']) b :=
    (code_eq_run_or_quotedAt a).imp_right fun hquoted => ⟨a, hquoted⟩
  cases hs : s.mode.inString with
  | true =>
    obtain ⟨hle, hbegins, hanchor⟩ := h.keep '('
    rw [← hsplit] at hle hbegins hanchor
    exact ⟨by simp [h.offset], by simp, hmode, hle, hbegins, hanchor⟩
  | false =>
    have htake : (a ++ ['\n', '(']).take s.offset = a ++ ['\n'] := by
      rw [hsplit, h.offset, List.take_left]
    refine ⟨by simp [h.offset], by simp, hmode, by simp [h.offset], ?_, ?_⟩
    · show LineBegins ((a ++ ['\n', '(']).take s.offset)
      rw [htake]
      exact lineBegins_concat a
    · show (Mode.code.run ((a ++ ['\n', '(']).take s.offset)).inString = false ∨ _
      rw [htake]
      exact (h.inString_concat hs).imp_right fun ⟨b, hlt, hb, ha⟩ => ⟨b, a, hlt, hb, ha⟩

theorem Searched.step {t : Text} {s : AnchorSearch} (h : Searched t s) (c : Char) :
    Searched (t ++ [c]) (s.step c) := by
  unfold AnchorSearch.step
  split
  next hc =>
    obtain ⟨hafter, hparen⟩ := Bool.and_eq_true_iff.mp hc
    obtain ⟨a, rfl⟩ := h.afterNewline hafter
    rw [beq_iff_eq.mp hparen]
    simpa using h.paren
  next =>
    obtain ⟨hle, hbegins, hanchor⟩ := h.keep c
    refine ⟨by simp [h.offset], ?_, ?_, hle, hbegins, hanchor⟩
    · intro hn
      exact ⟨t, by rw [beq_iff_eq.mp hn]⟩
    · rcases h.mode with hm | ⟨a, ha⟩
      · left
        rw [Mode.run_append, ← hm]
        rfl
      · exact .inr ⟨a, ha.append [c]⟩

theorem Searched.run {t : Text} {s : AnchorSearch} (h : Searched t s) (u : Text) :
    Searched (t ++ u) (s.run u) := by
  induction u generalizing t s with
  | nil =>
    rw [List.append_nil]
    exact h
  | cons c u ih =>
    have hrest := ih (h.step c)
    rwa [List.append_assoc] at hrest

theorem searched (t : Text) : Searched t (AnchorSearch.run {} t) := searched_nil.run t

/-- Reading from an anchor that is outside strings is reading from the beginning. -/
theorem run_drop_anchor {before : Text}
    (h : (Mode.code.run (before.take (anchor before))).inString = false) :
    Mode.code.run (before.drop (anchor before)) = Mode.code.run before := by
  have hcode : Mode.code.run (before.take (anchor before)) = .code :=
    Mode.eq_code_of_idle (Mode.idle_run (searched before).begins) h
  conv => rhs; rw [← List.take_append_drop (anchor before) before, Mode.run_append, hcode]

/-- If the reading from the anchor disagrees with that from the beginning about a string, two
parens in column 0 are inside strings. -/
theorem exists_quotedAt_of_inString {before : Text}
    (h : (Mode.code.run (before.drop (anchor before))).inString ≠
      (Mode.code.run before).inString) :
    ∃ a b, a.length < b.length ∧ QuotedAt before a ∧ QuotedAt before b := by
  rcases (searched before).anchor with hcode | htwo
  · exact absurd (by rw [run_drop_anchor hcode]) h
  · exact htwo

/-! ## Parens in strings, by line -/

/-- Line `n` begins with a `(`, and it begins inside a string as the text is read from its
beginning. -/
def QuotedParen (t : Text) (n : Nat) : Prop :=
  (Mode.code.run (preceding (t.lines.take n))).inString = true ∧
    t.lines[n]?.bind List.head? = some '('

instance (t : Text) (n : Nat) : Decidable (QuotedParen t n) :=
  inferInstanceAs (Decidable (_ ∧ _))

theorem exists_lines_cons {c : Char} (hc : c ≠ '\n') (t : Text) :
    ∃ l ls, lines (c :: t) = (c :: l) :: ls := by
  unfold lines
  rw [split, if_neg hc]
  split
  · exact ⟨[], [], rfl⟩
  next l ls _ => exact ⟨l, ls, rfl⟩

/-- A paren in column 0 is the first character of a line. -/
theorem QuotedAt.line {ls : List Text} (hl : AllLines ls) {a : Text}
    (h : QuotedAt (preceding ls) a) :
    a.lines.length < ls.length ∧ ls.take a.lines.length = a.lines ∧
      ls[a.lines.length]?.bind List.head? = some '(' := by
  obtain ⟨⟨b, hb⟩, -⟩ := h
  obtain ⟨l, ms, hparen⟩ := exists_lines_cons (show '(' ≠ '\n' by decide) b
  have hlines : a.lines ++ ('(' :: l) :: ms = ls ++ [[]] := by
    calc a.lines ++ ('(' :: l) :: ms = lines (preceding a.lines ++ '(' :: b) := by
          rw [lines_preceding_append (allLines_lines a), hparen]
      _ = lines (preceding ls ++ []) := by
          rw [preceding_lines, List.append_nil, ← hb]
          simp
      _ = ls ++ [[]] := lines_preceding_append hl []
  have hget : (ls ++ [[]])[a.lines.length]? = some ('(' :: l) := by
    rw [← hlines]
    simp
  have hlt : a.lines.length < ls.length := by
    have hlen := congrArg List.length hlines
    simp only [List.length_append, List.length_cons, List.length_nil] at hlen
    by_contra hge
    have heq : a.lines.length = ls.length := by omega
    rw [heq] at hget
    simp at hget
  refine ⟨hlt, ?_, ?_⟩
  · have htake := congrArg (List.take a.lines.length) hlines
    rw [List.take_left, List.take_append_of_le_length (Nat.le_of_lt hlt)] at htake
    exact htake.symm
  · rw [List.getElem?_append_left hlt] at hget
    rw [hget]
    rfl

theorem QuotedAt.lines_lt {t a b : Text} (ha : QuotedAt t a) (hb : QuotedAt t b)
    (hab : a.length < b.length) : a.lines.length < b.lines.length := by
  have hnewline : a ++ ['\n'] <+: a ++ ['\n', '('] := ⟨['('], by simp⟩
  have hpa : a ++ ['\n'] <+: t := hnewline.trans ha.1
  have hpb : b <+: t := (List.prefix_append b _).trans hb.1
  obtain ⟨x, rfl⟩ := List.prefix_of_prefix_length_le hpa hpb (by simp; omega)
  rw [← preceding_lines, lines_preceding_append (allLines_lines a), List.length_append]
  have := List.length_pos_iff.mpr (lines_ne_nil x)
  omega

/-! ## Plans for lines in strings -/

theorem LineBegins.inString_between {before : Text} (h : LineBegins before) (after : Text) :
    (Context.between before after).inString =
      (Mode.code.run (before.drop (anchor before))).inString := by
  rw [h.between_eq, Reader.upTo_eq_run h]
  unfold Context.ofReader
  rw [Reader.mode_run]

/-- A line is left alone if the reading from its anchor puts its beginning inside a string. -/
theorem planLine_eq_none_iff {before : Text} (h : LineBegins before) (T : RuleTable)
    (line after : Text) :
    (planLine T before line after).value = none ↔
      (Mode.code.run (before.drop (anchor before))).inString = true := by
  simp only [planLine, h.inString_between]
  cases (Mode.code.run (before.drop (anchor before))).inString with
  | true => simp
  | false =>
    simp only [Bool.false_eq_true, if_false, iff_false]
    split <;> simp

theorem getElem?_lines_reindent (T : RuleTable) (t : Text) (n : Nat) :
    let u := (reindent T t).value
    u.lines[n]? = t.lines[n]?.map fun line =>
      placed (planLine T (preceding (u.lines.take n)) line
        (following (t.lines.drop (n + 1)))).value line := by
  show (reflowed T {} t).lines[n]? = _
  rw [lines_reflowed, getElem?_reflowedLines]
  simp [planInRange, LineRange.contains, value_reindent, lines_reflowed]

/-- Whether a line begins inside a string is not changed by re-indenting. -/
theorem run_preceding_reindent (T : RuleTable) (t : Text) (n : Nat) :
    Mode.code.run (preceding ((reindent T t).value.lines.take n)) =
      Mode.code.run (preceding (t.lines.take n)) := by
  have hall : ∀ x : Text, AllLines (x.lines.take n) :=
    fun x l hl => allLines_lines x l (List.mem_of_mem_take hl)
  rw [← Mode.run_code_unindent, ← Mode.run_code_unindent (preceding (t.lines.take n)),
    unindent_preceding (hall _), unindent_preceding (hall _), List.map_take, List.map_take,
    value_reindent, map_bare_lines_reflowed]

/-! ## What happens to lines in strings -/

theorem placed_eq_self_iff {plan : Option Int} {line : Text} :
    placed plan line = line ↔
      plan = none ∨ ∃ column, plan = some column ∧ withIndent column line = line := by
  cases plan with
  | none => simp [placed]
  | some column => simp [placed]

theorem QuotedAt.quotedParen {u a : Text} {n : Nat}
    (h : QuotedAt (preceding (u.lines.take n)) a) :
    a.lines.length < n ∧ QuotedParen u a.lines.length := by
  have hall : AllLines (u.lines.take n) :=
    fun l hl => allLines_lines u l (List.mem_of_mem_take hl)
  obtain ⟨hlt, htake, hhead⟩ := h.line hall
  have hn : a.lines.length < n := by
    rw [List.length_take] at hlt
    omega
  rw [List.take_take, Nat.min_eq_left (Nat.le_of_lt hn)] at htake
  rw [List.getElem?_take_of_lt hn] at hhead
  refine ⟨hn, ?_, hhead⟩
  rw [htake, preceding_lines]
  exact h.2

/-- The walk is misled about a line only behind two lines that begin with a `(` in a string. -/
theorem exists_quotedParen {u : Text} {n : Nat} {above : Text}
    (habove : above = preceding (u.lines.take n))
    (h : (Mode.code.run (above.drop (anchor above))).inString ≠
      (Mode.code.run above).inString) :
    ∃ i < n, ∃ j < n, i ≠ j ∧ QuotedParen u i ∧ QuotedParen u j := by
  obtain ⟨a, b, hab, ha, hb⟩ := exists_quotedAt_of_inString h
  have hlt := ha.lines_lt hb hab
  subst habove
  obtain ⟨han, hpa⟩ := ha.quotedParen
  obtain ⟨hbn, hpb⟩ := hb.quotedParen
  exact ⟨a.lines.length, han, b.lines.length, hbn, Nat.ne_of_lt hlt, hpa, hpb⟩

/-- With at most one such line above, a line that begins inside a string stays as it is. -/
theorem getElem?_lines_reindent_of_inString (T : RuleTable) {t : Text} {n : Nat}
    (hone : ∀ i < n, ∀ j < n, QuotedParen t i → QuotedParen t j → i = j)
    (hstring : (Mode.code.run (preceding (t.lines.take n))).inString = true) :
    (reindent T t).value.lines[n]? = t.lines[n]? := by
  induction n using Nat.strongRecOn with
  | ind n ih =>
    -- lines above that begin in a string are unmoved, so their parens are in `t` as well
    have hquoted : ∀ i < n, QuotedParen (reindent T t).value i → QuotedParen t i := by
      rintro i hi ⟨hi_string, hi_head⟩
      rw [run_preceding_reindent] at hi_string
      have hsame := ih i hi
        (fun j hj k hk => hone j (by omega) k (by omega)) hi_string
      exact ⟨hi_string, hsame ▸ hi_head⟩
    have hread : (Mode.code.run ((preceding ((reindent T t).value.lines.take n)).drop
        (anchor (preceding ((reindent T t).value.lines.take n))))).inString = true := by
      by_contra hmisread
      rw [← hstring, ← run_preceding_reindent T t n] at hmisread
      obtain ⟨i, hi, j, hj, hij, hpi, hpj⟩ := exists_quotedParen rfl hmisread
      exact hij (hone i hi j hj (hquoted i hi hpi) (hquoted j hj hpj))
    rw [getElem?_lines_reindent]
    cases t.lines[n]? with
    | none => rfl
    | some line =>
      rw [Option.map_some, (planLine_eq_none_iff (lineBegins_preceding _) T line _).mpr hread]
      rfl

/-- A line that begins inside a string, as the text is read from its beginning, is left alone
exactly if the reading from the anchor above it sees the string too, or it is in place already.
That is so if at most one line above begins with a `(` inside a string. -/
theorem reindent_line_in_string (T : RuleTable) {t line : Text} {n : Nat}
    (hline : t.lines[n]? = some line)
    (hstring : (Mode.code.run (preceding (t.lines.take n))).inString = true) :
    let u := (reindent T t).value
    let above := preceding (u.lines.take n)
    (u.lines[n]? = some line ↔
      (Mode.code.run (above.drop (anchor above))).inString = true ∨
        ∃ column, (planLine T above line (following (t.lines.drop (n + 1)))).value = some column ∧
          withIndent column line = line) ∧
      ((∀ i < n, ∀ j < n, QuotedParen t i → QuotedParen t j → i = j) →
        u.lines[n]? = some line) := by
  intro u above
  constructor
  · rw [getElem?_lines_reindent, hline, Option.map_some, Option.some_inj, placed_eq_self_iff,
      planLine_eq_none_iff (lineBegins_preceding _)]
  · intro hone
    rw [← hline]
    exact getElem?_lines_reindent_of_inString T hone hstring

theorem reindent_line_behind_quoted_paren :
    let t : Text := "(print \"a\n(b ; \\\"\n   c\")".toList
    QuotedParen t 1 ∧ t.lines[2]? = some "   c\")".toList ∧
      (reindent .standard t).value.lines[2]? = some "   c\")".toList :=
  ⟨by decide, by decide, (reindent_line_in_string .standard (by decide) (by decide)).2 (by decide)⟩

/-- Behind two parens in a string, a line of the string is moved. -/
theorem reindent_moves_line_in_string :
    let t : Text := "\"\n(a\n(b\n  x\"".toList
    t.lines[3]? = some "  x\"".toList ∧
      (Mode.code.run (preceding (t.lines.take 3))).inString = true ∧
      (reindent .standard t).value.lines[3]? = some " x\"".toList := by
  decide

end FlowEdit
