import FlowEdit.Proofs.Lines

/-!
What can be seen from the beginning of a line. The reader has finished every token there and all
offsets it has recorded lie above, so the plan for a line depends on the text above it, on whether
the line is blank, and on the unindented text from the line on. The last is read for the head of a
form whose `(` is the last thing above. `planLine_congr` is the statement that the rest builds on.
-/

namespace FlowEdit

open Text

/-! ## Modes -/

namespace Mode

/-- A mode in which indentation is passed over: that of the beginning of a line. -/
def Idle (m : Mode) : Prop := m = .code ∨ m = .string

theorem idle_step_newline (m : Mode) : (m.step '\n').Idle := by
  cases m
  · exact .inl rfl
  · exact .inl rfl
  · exact .inr rfl
  · exact .inr rfl

theorem step_isIndent {m : Mode} (hm : m.Idle) {c : Char} (hc : isIndent c = true) :
    m.step c = m := by
  simp only [isIndent, Bool.or_eq_true, beq_iff_eq] at hc
  rcases hm with rfl | rfl <;> rcases hc with rfl | rfl <;> rfl

theorem step_eq_comment_iff {m : Mode} {c : Char} :
    m.step c = .comment ↔ m = .code ∧ c = ';' ∨ m = .comment ∧ c ≠ '\n' := by
  fun_cases step m c <;> simp_all

theorem step_eq_escape_iff {m : Mode} {c : Char} : m.step c = .escape ↔ m = .string ∧ c = '\\' := by
  fun_cases step m c <;> simp_all

/-- Indentation does not change how a text is read. -/
theorem run_unindentFrom {fresh : Bool} {m : Mode} (hm : fresh = true → m.Idle) (t : Text) :
    m.run (unindentFrom fresh t) = m.run t := by
  induction t generalizing fresh m with
  | nil => rfl
  | cons c t ih =>
    by_cases hc : (fresh && isIndent c) = true
    · have hidle : m.Idle := hm (by simp_all)
      have hstep : m.step c = m := step_isIndent hidle (by simp_all)
      simp only [unindentFrom, hc, if_true, run_cons, hstep]
      exact ih fun _ => hidle
    · simp only [unindentFrom, hc, run_cons]
      apply ih
      intro hn
      rw [beq_iff_eq.mp hn]
      exact idle_step_newline m

theorem run_code_unindent (t : Text) : code.run (unindent t) = code.run t :=
  run_unindentFrom (fun _ => .inl rfl) t

end Mode

/-! ## The beginning of a line -/

/-- A line begins behind the text. -/
def LineBegins (before : Text) : Prop := before = [] ∨ ∃ t, before = t ++ ['\n']

theorem lineBegins_nil : LineBegins [] := .inl rfl

theorem lineBegins_concat (t : Text) : LineBegins (t ++ ['\n']) := .inr ⟨t, rfl⟩

theorem lineBegins_preceding (ls : List Text) : LineBegins (preceding ls) :=
  preceding_eq_nil_or_concat ls

theorem LineBegins.drop {before : Text} (h : LineBegins before) (k : Nat) :
    LineBegins (before.drop k) := by
  rcases h with rfl | ⟨t, rfl⟩
  · simp [LineBegins]
  · by_cases hk : k ≤ t.length
    · rw [List.drop_append_of_le_length hk]
      exact lineBegins_concat _
    · left
      rw [List.drop_eq_nil_iff]
      simp
      omega

theorem LineBegins.freshAfter {before : Text} (h : LineBegins before) :
    Text.freshAfter true before = true := by
  rcases h with rfl | ⟨t, rfl⟩
  · rfl
  · simp

theorem LineBegins.unindent_append {before : Text} (h : LineBegins before) (t : Text) :
    unindent (before ++ t) = unindent before ++ unindent t := by
  unfold unindent
  rw [unindentFrom_append, h.freshAfter]

/-! ## The head of a form -/

theorem takeWhile_isAtomChar_unindentFrom (t : Text) :
    (unindentFrom false t).takeWhile isAtomChar = t.takeWhile isAtomChar := by
  induction t with
  | nil => rfl
  | cons c t ih =>
    by_cases hc : isAtomChar c = true
    · have hn : (c == '\n') = false := by
        rw [beq_eq_false_iff_ne]
        rintro rfl
        exact absurd hc (by decide)
      simp [unindentFrom, hn, hc, ih]
    · simp [unindentFrom, hc]

/-- The search for a head passes over indentation, and a head ends with its line. -/
theorem leadingAtom_skipGap_unindentFrom {fresh inComment : Bool}
    (h : fresh = true → inComment = false) (t : Text) :
    leadingAtom (skipGap inComment (unindentFrom fresh t)) = leadingAtom (skipGap inComment t) := by
  induction t generalizing fresh inComment with
  | nil => rfl
  | cons c t ih =>
    by_cases hc : (fresh && isIndent c) = true
    · have hcode : inComment = false := h (by simp_all)
      have hblank : isBlank c = true := isBlank_of_isIndent (by simp_all)
      subst hcode
      simp only [unindentFrom, hc, if_true, skipGap, hblank, Bool.false_eq_true, if_false]
      exact ih fun _ => rfl
    · cases inComment with
      | true =>
        simp only [unindentFrom, hc, skipGap, if_true]
        exact ih (by simp)
      | false =>
        simp only [unindentFrom, hc, if_false, skipGap, Bool.false_eq_true]
        by_cases hblank : isBlank c = true
        · simp only [hblank, if_true]
          exact ih fun _ => rfl
        · simp only [hblank, Bool.false_eq_true, if_false]
          by_cases hsemi : c = ';'
          · subst hsemi
            exact ih (by decide)
          · have hn : (c == '\n') = false := by
              rw [beq_eq_false_iff_ne]
              rintro rfl
              exact hblank rfl
            simp only [hsemi, if_false, hn, leadingAtom]
            by_cases hatom : isAtomChar c = true
            · simp [hatom, takeWhile_isAtomChar_unindentFrom]
            · simp [hatom]

theorem head_unindent (t : Text) : head (unindent t) = head t :=
  leadingAtom_skipGap_unindentFrom (fun _ => rfl) t

theorem LineBegins.head_append {before : Text} (h : LineBegins before) {after after' : Text}
    (ha : unindent after = unindent after') : head (before ++ after) = head (before ++ after') := by
  rw [← head_unindent (before ++ after), ← head_unindent (before ++ after'), h.unindent_append,
    h.unindent_append, ha]

/-! ## Readers -/

/-- Everything recorded in the frames lies in front of the offset `n`. -/
def FramesBelow (n : Nat) (frames : List Frame) : Prop :=
  ∀ f ∈ frames, f.start < n ∧ ∀ child ∈ f.children, child < n

theorem FramesBelow.mono {n m : Nat} (hnm : n ≤ m) {frames : List Frame}
    (h : FramesBelow n frames) : FramesBelow m frames := by
  intro f hf
  obtain ⟨hs, hc⟩ := h f hf
  refine ⟨by omega, fun child hchild => ?_⟩
  have := hc child hchild
  omega

theorem FramesBelow.addInnermost {n child : Nat} {frames : List Frame} (h : FramesBelow n frames)
    (hc : child < n) : FramesBelow n (Frame.addInnermost child frames) := by
  cases frames with
  | nil => exact h
  | cons f fs =>
    intro g hg
    rcases List.mem_cons.mp hg with rfl | hg
    · obtain ⟨hs, hcs⟩ := h f (by simp)
      refine ⟨hs, fun k hk => ?_⟩
      rcases List.mem_append.mp hk with hk | hk
      · exact hcs k hk
      · rw [List.mem_singleton.mp hk]
        exact hc
    · exact h g (by simp [hg])

theorem FramesBelow.close {n : Nat} {frames : List Frame} (h : FramesBelow n frames) :
    FramesBelow n (Frame.close frames) := by
  cases frames with
  | nil => exact h
  | cons f fs =>
    have hfs : FramesBelow n fs := fun g hg => h g (by simp [hg])
    exact hfs.addInnermost (h f (by simp)).1

theorem FramesBelow.opening {n : Nat} {frames : List Frame} (h : FramesBelow n frames) :
    FramesBelow (n + 1) ({ start := n } :: frames) := by
  intro f hf
  rcases List.mem_cons.mp hf with rfl | hf
  · exact ⟨Nat.lt_succ_self n, by simp⟩
  · exact h.mono (Nat.le_succ n) f hf

namespace Reader

/-- What a reader has recorded lies behind it, and in a comment it is in no token. -/
structure Sound (r : Reader) : Prop where
  token_lt : ∀ start, r.token = some start → start < r.offset
  frames : FramesBelow r.offset r.frames
  comment : r.mode = .comment → r.token = none

theorem sound_at (start : Nat) : Sound { offset := start } :=
  ⟨by simp, by simp [FramesBelow], by simp⟩

@[simp]
theorem token_finishToken (r : Reader) : r.finishToken.token = none := by
  unfold finishToken
  cases h : r.token <;> simp [h]

@[simp]
theorem offset_finishToken (r : Reader) : r.finishToken.offset = r.offset := by
  unfold finishToken
  cases h : r.token <;> simp

theorem Sound.frames_finishToken {r : Reader} (h : r.Sound) :
    FramesBelow r.offset r.finishToken.frames := by
  unfold finishToken
  cases ht : r.token with
  | none => exact h.frames
  | some start => exact h.frames.addInnermost (h.token_lt start ht)

theorem finishToken_of_none {r : Reader} (h : r.token = none) : r.finishToken = r := by
  unfold finishToken
  rw [h]

/-- One character in code. The only token that can be open behind it starts at or before it. -/
theorem Sound.readCode {r : Reader} (h : r.Sound) (c : Char) :
    (∀ start, (r.readCode c).token = some start → start < r.offset + 1) ∧
      FramesBelow (r.offset + 1) (r.readCode c).frames := by
  have hf : FramesBelow (r.offset + 1) r.finishToken.frames :=
    h.frames_finishToken.mono (Nat.le_succ _)
  unfold Reader.readCode
  by_cases hatom : isAtomChar c = true
  · simp only [hatom, if_true]
    refine ⟨fun start hs => ?_, h.frames.mono (Nat.le_succ _)⟩
    cases ht : r.token with
    | none => simp_all
    | some k =>
      have := h.token_lt k ht
      simp_all
      omega
  · simp only [hatom, Bool.false_eq_true, if_false]
    by_cases hopen : c = '('
    · simp only [hopen, if_true, offset_finishToken]
      exact ⟨by simp, h.frames_finishToken.opening⟩
    · simp only [hopen, if_false]
      by_cases hclose : c = ')'
      · simp only [hclose, if_true]
        exact ⟨by simp, hf.close⟩
      · simp only [hclose, if_false]
        by_cases hquote : c = '"'
        · simp only [hquote, if_true, offset_finishToken]
          exact ⟨by simp, hf⟩
        · simp only [hquote, if_false]
          exact ⟨by simp, hf⟩

theorem Sound.readString {r : Reader} (h : r.Sound) (c : Char) :
    (∀ start, (r.readString c).token = some start → start < r.offset + 1) ∧
      FramesBelow (r.offset + 1) (r.readString c).frames := by
  unfold Reader.readString
  by_cases hquote : c = '"'
  · simp only [hquote, if_true]
    exact ⟨by simp, h.frames_finishToken.mono (Nat.le_succ _)⟩
  · simp only [hquote, if_false]
    exact ⟨fun start hs => Nat.lt_succ_of_lt (h.token_lt start hs), h.frames.mono (Nat.le_succ _)⟩

theorem Sound.step {r : Reader} (h : r.Sound) (c : Char) : (r.step c).Sound := by
  cases hm : r.mode with
  | code =>
    obtain ⟨ht, hf⟩ := h.readCode c
    refine ⟨by simpa [Reader.step, hm] using ht, by simpa [Reader.step, hm] using hf, ?_⟩
    intro hcomment
    -- only a semicolon leads from code into a comment, and it ends a token
    have hc : c = ';' := by
      rw [mode_step, hm, Mode.step_eq_comment_iff] at hcomment
      simpa using hcomment
    subst hc
    simp [Reader.step, hm, Reader.readCode, isAtomChar, isDelimiter, delimiters]
  | comment =>
    have ht := h.comment hm
    refine ⟨by simp [Reader.step, hm, ht], ?_, fun _ => by simpa [Reader.step, hm] using ht⟩
    simpa [Reader.step, hm] using h.frames.mono (Nat.le_succ _)
  | string =>
    obtain ⟨ht, hf⟩ := h.readString c
    refine ⟨by simpa [Reader.step, hm] using ht, by simpa [Reader.step, hm] using hf, ?_⟩
    intro hcomment
    rw [mode_step, hm, Mode.step_eq_comment_iff] at hcomment
    simp at hcomment
  | escape =>
    refine ⟨?_, ?_, by simp [Reader.step, hm, Mode.step]⟩
    · intro start hs
      exact Nat.lt_succ_of_lt (h.token_lt start (by simpa [Reader.step, hm] using hs))
    · simpa [Reader.step, hm] using h.frames.mono (Nat.le_succ _)

theorem Sound.run {r : Reader} (h : r.Sound) (t : Text) : (r.run t).Sound := by
  induction t generalizing r with
  | nil => exact h
  | cons c t ih => exact ih (h.step c)

theorem offset_run (r : Reader) (t : Text) : (r.run t).offset = r.offset + t.length := by
  induction t generalizing r with
  | nil => rfl
  | cons c t ih =>
    have hrest := ih (r.step c)
    rw [offset_step] at hrest
    show ((r.step c).run t).offset = _
    rw [hrest, List.length_cons]
    omega

/-- A newline ends every token of code. -/
theorem Sound.token_step_newline {r : Reader} (h : r.Sound)
    (hcode : (r.step '\n').mode = .code) : (r.step '\n').token = none := by
  cases hm : r.mode with
  | code => simp [Reader.step, hm, Reader.readCode, isAtomChar, isBlank, blanks]
  | comment => simpa [Reader.step, hm] using h.comment hm
  | string => simp [Reader.step, hm, Mode.step] at hcode
  | escape => simp [Reader.step, hm, Mode.step] at hcode

/-- At the beginning of a line there is no token left to settle. -/
theorem upTo_eq_run {before : Text} (h : LineBegins before) (start : Nat) (after : Text) :
    upTo start before after = run { offset := start } (before.drop start) := by
  have htoken : (run { offset := start } (before.drop start)).mode = .code →
      (run { offset := start } (before.drop start)).token = none := by
    rcases h.drop start with hnil | ⟨t, ht⟩
    · intro _
      rw [hnil]
      rfl
    · rw [ht, run_append]
      exact ((sound_at start).run t).token_step_newline
  unfold upTo settle
  split
  next hc => exact finishToken_of_none (htoken hc.1)
  next => rfl

theorem sound_upTo {before : Text} (h : LineBegins before) {start : Nat}
    (hstart : start ≤ before.length) (after : Text) :
    (upTo start before after).Sound ∧ (upTo start before after).offset = before.length := by
  rw [upTo_eq_run h]
  refine ⟨(sound_at start).run _, ?_⟩
  rw [offset_run, List.length_drop]
  show start + (before.length - start) = before.length
  omega

end Reader

/-! ## Anchors -/

namespace AnchorSearch

theorem offset_step (s : AnchorSearch) (c : Char) : (s.step c).offset = s.offset + 1 := by
  unfold step
  split <;> rfl

theorem anchor_step_le {s : AnchorSearch} (h : s.anchor ≤ s.offset) (c : Char) :
    (s.step c).anchor ≤ (s.step c).offset := by
  unfold step
  split
  · dsimp only
    split <;> omega
  · dsimp only
    omega

theorem anchor_run_le {s : AnchorSearch} (h : s.anchor ≤ s.offset) (t : Text) :
    (s.run t).anchor ≤ (s.run t).offset := by
  induction t generalizing s with
  | nil => exact h
  | cons c t ih => exact ih (anchor_step_le h c)

theorem offset_run (s : AnchorSearch) (t : Text) : (s.run t).offset = s.offset + t.length := by
  induction t generalizing s with
  | nil => rfl
  | cons c t ih =>
    have hrest := ih (s.step c)
    rw [offset_step] at hrest
    show ((s.step c).run t).offset = _
    rw [hrest, List.length_cons]
    omega

end AnchorSearch

theorem anchor_le_length (before : Text) : anchor before ≤ before.length := by
  have h := AnchorSearch.anchor_run_le (s := {}) (Nat.le_refl 0) before
  rw [AnchorSearch.offset_run] at h
  simpa [anchor] using h

/-! ## Contexts -/

theorem columnAt_append {before : Text} {k : Nat} (hk : k ≤ before.length) (after : Text) :
    columnAt (before ++ after) k = columnAt before k := by
  simp [columnAt, List.take_append_of_le_length hk]

theorem lineStartAt_append {before : Text} {k : Nat} (hk : k ≤ before.length) (after : Text) :
    lineStartAt (before ++ after) k = lineStartAt before k := by
  simp [lineStartAt, List.take_append_of_le_length hk]

theorem alignTarget_append {before : Text} {start : Nat} {children : List Nat}
    (hs : start ≤ before.length) (hc : ∀ child ∈ children, child ≤ before.length) (after : Text) :
    alignTarget (before ++ after) start children = alignTarget before start children := by
  unfold alignTarget
  cases h : children.getLast? with
  | none => rfl
  | some last =>
    have hlast : last ≤ before.length := hc last (List.mem_of_getLast? h)
    simp only [lineStartAt_append hs, lineStartAt_append hlast]

theorem mem_of_alignTarget_eq_some {t : Text} {start child : Nat} {children : List Nat}
    (h : alignTarget t start children = some child) : child ∈ children := by
  unfold alignTarget at h
  split at h
  · exact absurd h (by simp)
  · dsimp only at h
    split at h
    · exact List.mem_of_find?_eq_some h
    · exact List.mem_of_getElem? h

/-- The reading of a line's context, which is that of the text above the line. -/
theorem LineBegins.between_eq {before : Text} (h : LineBegins before) (after : Text) :
    Context.between before after =
      Context.ofReader (before ++ after) (Reader.upTo (anchor before) before []) := by
  unfold Context.between
  rw [Reader.upTo_eq_run h, Reader.upTo_eq_run h]

/-- Everything in the context of a line but the head of the form is found above the line. -/
theorem LineBegins.form_below {before : Text} (h : LineBegins before) {after : Text} {f : OpenForm}
    (hf : (Context.between before after).form = some f) :
    f.start < before.length ∧ ∀ child, f.alignTarget = some child → child < before.length := by
  obtain ⟨hsound, hoffset⟩ := Reader.sound_upTo h (anchor_le_length before) []
  have hbelow := hsound.frames
  rw [hoffset] at hbelow
  rw [h.between_eq] at hf
  unfold Context.ofReader at hf
  cases hframes : (Reader.upTo (anchor before) before []).frames with
  | nil => simp [hframes] at hf
  | cons g gs =>
    rw [hframes] at hbelow
    obtain ⟨hstart, hchildren⟩ := hbelow g (by simp)
    simp only [hframes, Option.some.injEq] at hf
    subst hf
    exact ⟨hstart, fun child hc => hchildren child (mem_of_alignTarget_eq_some hc)⟩

/-- The text behind the beginning of a line is read for the head of the innermost form only. -/
theorem LineBegins.between_eq_of_head {before : Text} (h : LineBegins before) {after after' : Text}
    (hhead : ∀ g gs, (Reader.upTo (anchor before) before []).frames = g :: gs →
      g.start + 1 ≤ before.length →
      head ((before ++ after).drop (g.start + 1)) = head ((before ++ after').drop (g.start + 1))) :
    Context.between before after = Context.between before after' := by
  obtain ⟨hsound, hoffset⟩ := Reader.sound_upTo h (anchor_le_length before) []
  have hbelow := hsound.frames
  rw [hoffset] at hbelow
  rw [h.between_eq, h.between_eq]
  unfold Context.ofReader
  cases hframes : (Reader.upTo (anchor before) before []).frames with
  | nil => rfl
  | cons g gs =>
    rw [hframes] at hbelow
    obtain ⟨hstart, hchildren⟩ := hbelow g (by simp)
    have hle : ∀ child ∈ g.children, child ≤ before.length :=
      fun child hc => Nat.le_of_lt (hchildren child hc)
    simp only [hhead g gs hframes hstart, alignTarget_append (Nat.le_of_lt hstart) hle]

theorem LineBegins.between_congr {before : Text} (h : LineBegins before) {after after' : Text}
    (ha : unindent after = unindent after') :
    Context.between before after = Context.between before after' := by
  apply h.between_eq_of_head
  intro g gs _ hle
  rw [List.drop_append_of_le_length hle, List.drop_append_of_le_length hle]
  exact (h.drop _).head_append ha

/-! ## Plans -/

theorem OpenForm.column_append {before : Text} {f : OpenForm} (hs : f.start ≤ before.length)
    (hc : ∀ child, f.alignTarget = some child → child ≤ before.length) (T : RuleTable)
    (after : Text) : f.column T (before ++ after) = f.column T before := by
  unfold OpenForm.column
  simp only [columnAt_append hs]
  cases ht : f.alignTarget with
  | none => rfl
  | some child => simp only [columnAt_append (hc child ht)]

theorem LineBegins.column_between {before : Text} (h : LineBegins before) (T : RuleTable)
    (after after' : Text) : (Context.between before after).column T (before ++ after') =
      (Context.between before after).column T before := by
  unfold Context.column
  cases hf : (Context.between before after).form with
  | none => rfl
  | some f =>
    obtain ⟨hs, hc⟩ := h.form_below hf
    exact OpenForm.column_append (Nat.le_of_lt hs) (fun child ht => Nat.le_of_lt (hc child ht)) T _

theorem planLine_eq_of_between {before : Text} (h : LineBegins before) (T : RuleTable)
    {line line' after after' : Text}
    (hcontext : Context.between before (line ++ after) = Context.between before (line' ++ after'))
    (hb : line.all isBlank = line'.all isBlank) :
    planLine T before line after = planLine T before line' after' := by
  unfold planLine
  simp only [List.append_assoc, h.column_between T]
  rw [hcontext, hb]

/-- The plan for a line, notices included, depends on the text above, on whether the line is blank
and on the unindented rest. -/
theorem planLine_congr {before : Text} (h : LineBegins before) (T : RuleTable)
    {line line' after after' : Text}
    (hu : unindent (line ++ after) = unindent (line' ++ after'))
    (hb : line.all isBlank = line'.all isBlank) :
    planLine T before line after = planLine T before line' after' :=
  planLine_eq_of_between h T (h.between_congr hu) hb

end FlowEdit
