import FlowEdit.Proofs.Anchored
import FlowEdit.Proofs.FixedPoint
import FlowEdit.Proofs.QuotedParens
import FlowEdit.Proofs.Rules

/-!
Re-indented text can be read from its anchors. The walk puts every line that begins inside a form
at least one column to the right, so no form but an outermost one and no child of a form is in
column 0 (`Reader.Indented`), and so no later line is aligned with column 0 either. A `(` in column
0 is then outside all forms. This takes rules that do not put a body in the column of its form, and
strings without a `(` in column 0. Main statement: `contextAt_reindent_from_start`.
-/

namespace FlowEdit

open Text

/-! ## Readers of indented text -/

/-- Apart from an outermost form, nothing on record is in column 0 of the text. -/
structure FramesIndented (t : Text) (frames : List Frame) : Prop where
  children : ∀ f ∈ frames, ∀ child ∈ f.children, 0 < t.columnAt child
  starts : ∀ f ∈ frames.dropLast, 0 < t.columnAt f.start

namespace FramesIndented

variable {t : Text} {frames : List Frame} {k : Nat}

theorem nil (t : Text) : FramesIndented t [] := ⟨by simp, by simp⟩

theorem tail {f : Frame} (h : FramesIndented t (f :: frames)) : FramesIndented t frames := by
  refine ⟨fun g hg => h.children g (by simp [hg]), fun g hg => h.starts g ?_⟩
  cases frames with
  | nil => simp at hg
  | cons g' gs => simp [hg]

theorem addInnermost (h : FramesIndented t frames) (hk : frames ≠ [] → 0 < t.columnAt k) :
    FramesIndented t (Frame.addInnermost k frames) := by
  cases frames with
  | nil => exact h
  | cons f fs =>
    refine ⟨fun g hg child hc => ?_, fun g hg => ?_⟩
    · rcases List.mem_cons.mp hg with rfl | hg
      · rcases List.mem_append.mp hc with hc | hc
        · exact h.children f (by simp) child hc
        · rw [List.mem_singleton.mp hc]
          exact hk (by simp)
      · exact h.children g (by simp [hg]) child hc
    · cases fs with
      | nil => simp [Frame.addInnermost] at hg
      | cons f' fs =>
        rw [Frame.addInnermost, List.dropLast_cons_cons] at hg
        rcases List.mem_cons.mp hg with rfl | hg
        · exact h.starts f (by simp)
        · exact h.starts g (by simp [hg])

theorem close (h : FramesIndented t frames) : FramesIndented t (Frame.close frames) := by
  cases frames with
  | nil => exact h
  | cons f fs =>
    apply h.tail.addInnermost
    intro hne
    cases fs with
    | nil => exact absurd rfl hne
    | cons g gs => exact h.starts f (by simp)

theorem opening (h : FramesIndented t frames) (hk : frames ≠ [] → 0 < t.columnAt k) :
    FramesIndented t ({ start := k } :: frames) := by
  refine ⟨fun f hf child hc => ?_, fun f hf => ?_⟩
  · rcases List.mem_cons.mp hf with rfl | hf
    · simp at hc
    · exact h.children f hf child hc
  · cases frames with
    | nil => simp at hf
    | cons g gs =>
      rw [List.dropLast_cons_cons] at hf
      rcases List.mem_cons.mp hf with rfl | hf
      · exact hk (by simp)
      · exact h.starts f hf

end FramesIndented

theorem Frame.addInnermost_eq_nil_iff {k : Nat} {frames : List Frame} :
    Frame.addInnermost k frames = [] ↔ frames = [] := by
  cases frames <;> simp [Frame.addInnermost]

namespace Reader

/-- Nothing that the reader has on record is in column 0, apart from what is outside all forms. -/
structure Indented (t : Text) (r : Reader) : Prop where
  frames : FramesIndented t r.frames
  token : ∀ k, r.token = some k → r.frames ≠ [] → 0 < t.columnAt k

theorem finishToken_frames_eq_nil_iff (r : Reader) : r.finishToken.frames = [] ↔ r.frames = [] := by
  unfold finishToken
  cases r.token with
  | none => rfl
  | some k => exact Frame.addInnermost_eq_nil_iff

theorem Indented.finishToken {t : Text} {r : Reader} (h : r.Indented t) :
    FramesIndented t r.finishToken.frames := by
  unfold Reader.finishToken
  cases ht : r.token with
  | none => exact h.frames
  | some k => exact h.frames.addInnermost (h.token k ht)

/-- A character of code that is not blank is not in column 0 inside a form. -/
theorem Indented.readCode {t : Text} {r : Reader} (h : r.Indented t) {c : Char}
    (hc : isBlank c = false → r.frames ≠ [] → 0 < t.columnAt r.offset) :
    FramesIndented t (r.readCode c).frames ∧
      ∀ k, (r.readCode c).token = some k → (r.readCode c).frames ≠ [] → 0 < t.columnAt k := by
  have hf := h.finishToken
  have hne : r.finishToken.frames ≠ [] → r.frames ≠ [] :=
    fun hn hnil => hn ((finishToken_frames_eq_nil_iff r).mpr hnil)
  unfold Reader.readCode
  by_cases hatom : isAtomChar c = true
  · simp only [hatom, if_true]
    refine ⟨h.frames, fun k hk hn => ?_⟩
    cases ht : r.token with
    | none =>
      have hblank : isBlank c = false := by simp_all [isAtomChar]
      obtain rfl : r.offset = k := by simpa [ht] using hk
      exact hc hblank hn
    | some j =>
      obtain rfl : j = k := by simpa [ht] using hk
      exact h.token j ht hn
  · simp only [hatom, Bool.false_eq_true, if_false]
    by_cases hopen : c = '('
    · simp only [hopen, if_true, offset_finishToken]
      refine ⟨hf.opening fun hn => hc (by rw [hopen]; rfl) (hne hn), by simp⟩
    · simp only [hopen, if_false]
      by_cases hclose : c = ')'
      · simp only [hclose, if_true]
        exact ⟨hf.close, by simp⟩
      · simp only [hclose, if_false]
        by_cases hquote : c = '"'
        · simp only [hquote, if_true, offset_finishToken]
          refine ⟨hf, fun k hk hn => ?_⟩
          obtain rfl : r.offset = k := by simpa using hk
          exact hc (by rw [hquote]; rfl) (hne hn)
        · simp only [hquote, if_false]
          exact ⟨hf, by simp⟩

theorem Indented.step {t : Text} {r : Reader} (h : r.Indented t) {c : Char}
    (hc : r.mode = .code → isBlank c = false → r.frames ≠ [] → 0 < t.columnAt r.offset) :
    (r.step c).Indented t := by
  cases hm : r.mode with
  | code =>
    obtain ⟨hf, ht⟩ := h.readCode (hc hm)
    exact ⟨by simpa [Reader.step, hm] using hf, by simpa [Reader.step, hm] using ht⟩
  | comment =>
    exact ⟨by simpa [Reader.step, hm] using h.frames, by simpa [Reader.step, hm] using h.token⟩
  | string =>
    by_cases hquote : c = '"'
    · have hf := h.finishToken
      exact ⟨by simpa [Reader.step, hm, readString, hquote] using hf,
        by simp [Reader.step, hm, readString, hquote]⟩
    · exact ⟨by simpa [Reader.step, hm, readString, hquote] using h.frames,
        by simpa [Reader.step, hm, readString, hquote] using h.token⟩
  | escape =>
    exact ⟨by simpa [Reader.step, hm] using h.frames, by simpa [Reader.step, hm] using h.token⟩

end Reader

/-! ## Indented text -/

theorem column_eq_zero_iff (t : Text) : column t = 0 ↔ LineBegins t := by
  rcases List.eq_nil_or_concat t with rfl | ⟨s, c, rfl⟩
  · simp [LineBegins]
  · rw [List.concat_eq_append, column_append_singleton, columnStep]
    by_cases hc : c = '\n'
    · simp [hc, lineBegins_concat]
    · simp [hc, LineBegins]

/-- Every line that begins in code and inside a form begins with a blank. -/
def IndentedText (t : Text) : Prop :=
  ∀ a c, LineBegins a → a ++ [c] <+: t → (Reader.ofText a).mode = .code →
    (Reader.ofText a).frames ≠ [] → isBlank c = true

theorem indentedText_nil : IndentedText [] := by
  intro a c _ hpre
  simp at hpre

theorem IndentedText.mono {t before : Text} (h : IndentedText t) (hb : before <+: t) :
    IndentedText before :=
  fun a c ha hpre => h a c ha (hpre.trans hb)

/-- What one step keeps is kept by the reading of a text from its beginning. -/
theorem IndentedText.reader {t : Text} (h : IndentedText t) : (Reader.ofText t).Indented t := by
  have hall : ∀ before, before <+: t → (Reader.ofText before).Indented t := by
    intro before
    induction before using List.reverseRecOn with
    | nil => exact fun _ => ⟨FramesIndented.nil t, by simp [Reader.ofText, Reader.run]⟩
    | append_singleton a c ih =>
      intro hpre
      have ha : a <+: t := (List.prefix_append a [c]).trans hpre
      rw [Reader.ofText_append]
      apply (ih ha).step
      intro hcode hblank hne
      rw [Reader.offset_ofText, columnAt, ← List.prefix_iff_eq_take.mp ha]
      by_contra hzero
      have hbegins : LineBegins a := (column_eq_zero_iff a).mp (by omega)
      rw [h a c hbegins hpre hcode hne] at hblank
      exact Bool.noConfusion hblank
  exact hall t List.prefix_rfl

theorem IndentedText.topLevelParens {t : Text} (h : IndentedText t)
    (hq : ∀ a, ¬ QuotedAt t a) : TopLevelParens t := by
  intro a ha
  have hidle : (Mode.code.run (a ++ ['\n'])).Idle := Mode.idle_run (lineBegins_concat a)
  have hcode : (Reader.ofText (a ++ ['\n'])).mode = .code := by
    rw [Reader.mode_ofText]
    apply Mode.eq_code_of_idle hidle
    by_contra hstring
    exact hq a ⟨ha, by simpa using hstring⟩
  refine ⟨hcode, ?_⟩
  by_contra hne
  have hblank := h (a ++ ['\n']) '(' (lineBegins_concat a) (by simpa using ha) hcode hne
  exact absurd hblank (by decide)

/-- One more line. -/
theorem IndentedText.append_line {before line : Text} (h : IndentedText before) (hl : '\n' ∉ line)
    (hfirst : (Reader.ofText before).mode = .code → (Reader.ofText before).frames ≠ [] →
      ∀ c, (line ++ ['\n']).head? = some c → isBlank c = true) :
    IndentedText (before ++ line ++ ['\n']) := by
  intro a c ha hpre hcode hne
  have hall : before <+: before ++ line ++ ['\n'] := by
    rw [List.append_assoc]
    exact List.prefix_append before _
  by_cases hlen : a.length < before.length
  · have hin : a ++ [c] <+: before :=
      List.prefix_of_prefix_length_le hpre hall (by simp; omega)
    exact h a c ha hin hcode hne
  · -- `a` ends where the new line begins, as there is no newline in it but the last
    obtain ⟨x, rfl⟩ := List.prefix_of_prefix_length_le hall
      ((List.prefix_append a [c]).trans hpre) (by omega)
    have hx : x ++ [c] <+: line ++ ['\n'] := by
      rwa [List.append_assoc, List.append_assoc, List.prefix_append_right_inj] at hpre
    have hnil : x = [] := by
      by_contra hxne
      obtain ⟨y, d, hd⟩ := (List.eq_nil_or_concat x).resolve_left hxne
      rw [List.concat_eq_append] at hd
      subst hd
      have hnewline : d = '\n' := by
        rcases ha with hnil | ⟨z, hz⟩
        · simp at hnil
        · rw [← List.append_assoc] at hz
          simpa using (List.append_inj' hz rfl).2
      have hline : y ++ [d] <+: line := by
        apply List.prefix_of_prefix_length_le ((List.prefix_append _ [c]).trans hx)
          (List.prefix_append line ['\n'])
        have := hx.length_le
        simp at this ⊢
        omega
      exact hl (hline.subset (by simp [hnewline]))
    subst hnil
    rw [List.append_nil] at hcode hne
    obtain ⟨z, hz⟩ := hx
    exact hfirst hcode hne c (by rw [← hz]; rfl)

/-! ## Formatted text -/

section

variable {T : RuleTable} (hT : T.AllSpecial fun _ bodyOffset => 1 ≤ bodyOffset)

include hT

/-- A line that begins in code inside a form and is not blank gets a column other than 0. -/
theorem planLine_pos {before line : Text} (after : Text) (hb : LineBegins before)
    (hparens : TopLevelParens before) (hindented : IndentedText before)
    (hcode : (Reader.ofText before).mode = .code) (hne : (Reader.ofText before).frames ≠ [])
    (hline : line.all isBlank = false) :
    ∃ column, (planLine T before line after).value = some column ∧ 0 < column := by
  have hcontext : Context.between before (line ++ after) =
      Context.ofReader (before ++ (line ++ after)) (Reader.ofText before) := by
    rw [hparens.between_eq, ← Reader.upTo_zero, Reader.upTo_eq_run hb]
    rfl
  have hstring : (Context.between before (line ++ after)).inString = false := by
    rw [hcontext]
    show (Reader.ofText before).mode.inString = false
    rw [hcode]
    rfl
  refine ⟨((Context.between before (line ++ after)).column T before).value, ?_, ?_⟩
  · simp [planLine, hstring, hline, hb.column_between]
  · rw [hcontext]
    obtain ⟨f, fs, hf⟩ := List.exists_cons_of_ne_nil hne
    simp only [Context.column, Context.ofReader, hf]
    apply OpenForm.column_pos hT
    intro child hchild
    exact hindented.reader.frames.children f (by simp [hf]) child
      (mem_of_alignTarget_eq_some hchild)

/-- A line that re-indenting leaves in its place begins with a blank, if it begins in code inside a
form. -/
theorem isBlank_head_of_placed_eq {before line after : Text} (hb : LineBegins before)
    (hparens : TopLevelParens before) (hindented : IndentedText before)
    (hplaced : placed (planLine T before line after).value line = line)
    (hcode : (Reader.ofText before).mode = .code) (hne : (Reader.ofText before).frames ≠ [])
    {c : Char} (hc : (line ++ ['\n']).head? = some c) : isBlank c = true := by
  cases hline : line.all isBlank with
  | true =>
    have hall : (line ++ ['\n']).all isBlank = true := by
      rw [List.all_append, hline]
      rfl
    exact List.all_eq_true.mp hall c (List.mem_of_head? hc)
  | false =>
    obtain ⟨column, hplan, hpos⟩ :=
      planLine_pos hT after hb hparens hindented hcode hne hline
    obtain ⟨n, hn⟩ : ∃ n, column.toNat = n + 1 := ⟨column.toNat - 1, by omega⟩
    rw [hplan, placed, withIndent, hn] at hplaced
    rw [← hplaced] at hc
    obtain rfl : ' ' = c := by simpa [spaces, List.replicate_succ] using hc
    rfl

/-- A text that re-indenting leaves as it is has indented lines. -/
theorem indentedText_of_reindent_eq {u : Text} (hu : (reindent T u).value = u)
    (hq : ∀ a, ¬ QuotedAt u a) : IndentedText u := by
  have hlines : ∀ n, IndentedText (preceding (u.lines.take n)) := by
    intro n
    induction n with
    | zero => exact indentedText_nil
    | succ n ih =>
      by_cases hn : n < u.lines.length
      · have hpre : preceding (u.lines.take n) <+: u := by
          refine ⟨unlines (u.lines.drop n), ?_⟩
          rw [← unlines_append _ (by simpa using hn), List.take_append_drop, unlines_lines]
        have hparens : TopLevelParens (preceding (u.lines.take n)) :=
          ih.topLevelParens fun a ha => hq a ⟨ha.1.trans hpre, ha.2⟩
        have hplaced := getElem?_lines_reindent T u n
        simp only [hu, List.getElem?_eq_getElem hn, Option.map_some, Option.some_inj] at hplaced
        rw [List.take_succ_eq_append_getElem hn, preceding_concat]
        apply ih.append_line (allLines_lines u _ (List.getElem_mem hn))
        intro hcode hne c hc
        exact isBlank_head_of_placed_eq hT (lineBegins_preceding _) hparens ih hplaced.symm hcode
          hne hc
      · rw [List.take_of_length_le (by omega)] at ih ⊢
        exact ih
  have hall := hlines u.lines.length
  rw [List.take_length, preceding_lines] at hall
  exact hall.mono (List.prefix_append u ['\n'])

end

/-- On re-indented text the reading from an anchor is the one from the beginning, at every position,
and every `(` in column 0 outside strings is outside all forms. The rules must put bodies to the
right of their forms, and no string of the text may have a `(` in column 0. -/
theorem contextAt_reindent_from_start {T : RuleTable}
    (hT : T.AllSpecial fun _ bodyOffset => 1 ≤ bodyOffset) {t : Text} (ht : StringsClear t) :
    let u := (reindent T t).value
    (∀ pos : Nat, pos ≤ u.length →
      contextAt u pos = Context.ofReader u (Reader.upTo 0 (u.take pos) (u.drop pos))) ∧
      ∀ a b, u = a ++ '\n' :: '(' :: b → (Mode.code.run (a ++ ['\n'])).inString = false →
        (Reader.upTo 0 (a ++ ['\n']) ('(' :: b)).frames = [] := by
  intro u
  have hq : ∀ a, ¬ QuotedAt u a := not_quotedAt_reindent T ht.not_quotedAt
  have hparens : TopLevelParens u :=
    (indentedText_of_reindent_eq hT (reindent_reflowed T t) hq).topLevelParens hq
  refine ⟨fun pos hpos => hparens.contextAt_eq hpos, fun a b hu _ => ?_⟩
  rw [Reader.upTo_eq_run (lineBegins_concat a)]
  exact (hparens a ⟨b, by rw [hu]; simp⟩).2

/-- A body and an argument in column 0, a string whose second line starts with a quoted blank and
a `(`: the nested forms move to the right, and the context in the last of them is read from the
beginning. -/
theorem contextAt_reindent_from_start_nested :
    let t : Text := "(define f (x)\n(let ((y 1))\n(print \"a\n (\" y)\n(g y)))\n(h)".toList
    let u := (reindent .standard t).value
    StringsClear t ∧
      u = "(define f (x)\n   (let ((y 1))\n    (print \"a\n (\" y)\n    (g y)))\n(h)".toList ∧
      contextAt u 57 = Context.ofReader u (Reader.upTo 0 (u.take 57) (u.drop 57)) := by
  intro t u
  have ht : StringsClear t := by
    rw [StringsClear, lexemes_eq_lexemesFrom]
    decide
  have hT : RuleTable.standard.AllSpecial fun _ bodyOffset => 1 ≤ bodyOffset := by decide
  exact ⟨ht, by decide, (contextAt_reindent_from_start hT ht).1 57 (by decide)⟩

end FlowEdit
