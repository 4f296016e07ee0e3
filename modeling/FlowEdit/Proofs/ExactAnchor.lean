import FlowEdit.Proofs.Anchored
import FlowEdit.Proofs.OpenParens
import FlowEdit.Proofs.ReadPieces

/-!
When the anchor is exact. The search for an anchor judges each `(` in column 0 by a reading from the
one before. If none of them is inside a string, as the text is read from its beginning, all these
readings are parts of that one reading, so the search trusts every paren and ends with the last one
(`isGreatest_anchor`). Whether a text ends inside a string is said here by a reader that jumps over
comments and strings; it agrees with the reading in modes (`endsInString_eq`). Main statement:
`anchorOf_last_paren`.
-/

namespace FlowEdit

open Text

/-! ## Reading by jumps -/

/-- Whether a text that begins in code ends inside a string. A comment is passed over up to its
newline, a string up to its closing quote. -/
def endsInString : Text → Bool
  | [] => false
  | c :: t =>
    if c = ';' then endsInString (t.dropWhile (· != '\n'))
    else if c = '"' then
      match closingQuote t t.length with
      | .ok (some k) => endsInString (t.drop k)
      | _ => true
    else endsInString t
termination_by t => t.length
decreasing_by
  all_goals simp only [List.length_cons, List.length_drop]
  · exact Nat.lt_succ_of_le (List.length_dropWhile_le _ t)
  · omega
  · omega

/-- A comment is left at its newline. -/
theorem Mode.inString_run_comment (t : Text) :
    (Mode.comment.run t).inString = (Mode.code.run (t.dropWhile (· != '\n'))).inString := by
  induction t with
  | nil => rfl
  | cons c t ih =>
    by_cases hc : c = '\n'
    · subst hc
      rfl
    · have hstep : Mode.comment.step c = .comment := by simp [Mode.step, hc]
      rw [Mode.run_cons, hstep, ih, List.dropWhile_cons_of_pos (by simpa using hc)]

/-- A string is left behind its closing quote, and not at all without one. -/
theorem Mode.inString_run_string (t : Text) :
    (Mode.string.run t).inString =
      match closingQuote t t.length with
      | .ok (some k) => (Mode.code.run (t.drop k)).inString
      | _ => true := by
  cases quoteSearch t with
  | closed body rest isBody text found =>
    have hbody : Mode.string.run body = .string := Mode.run_isStringBody isBody
    have hdrop : t.drop (body.length + 1) = rest := by
      rw [text, ← List.drop_drop, List.drop_left]
      rfl
    simp only [found, hdrop]
    rw [text, Mode.run_append, hbody]
    rfl
  | unclosed body isBody text found =>
    have hbody : Mode.string.run body = .string := Mode.run_isStringBody isBody
    simp only [found]
    rcases text with rfl | rfl
    · rw [hbody]
      rfl
    · rw [Mode.run_append, hbody]
      rfl

theorem endsInString_eq (t : Text) : endsInString t = (Mode.code.run t).inString := by
  fun_induction endsInString t with
  | case1 => rfl
  | case2 t ih =>
    rw [ih, ← Mode.inString_run_comment]
    rfl
  | case3 t k hfound _ ih =>
    have hstring := Mode.inString_run_string t
    simp only [hfound] at hstring
    rw [ih, ← hstring]
    rfl
  | case4 t hopen =>
    have hstring := Mode.inString_run_string t
    split at hstring
    next k hfound => exact absurd hfound (hopen k)
    next => exact hstring.symm
  | case5 c t hsemi hquote ih =>
    have hcode : Mode.code.step c = .code := by simp [Mode.step, hsemi, hquote]
    rw [ih, Mode.run_cons, hcode]

/-! ## Parens in column 0 -/

/-- A `(` stands at the offset, and a newline right in front of it. -/
def ParenInColumnZero (t : Text) (c : Nat) : Prop :=
  0 < c ∧ t[c - 1]? = some '\n' ∧ t[c]? = some '('

instance (t : Text) (c : Nat) : Decidable (ParenInColumnZero t c) :=
  inferInstanceAs (Decidable (_ ∧ _))

theorem parenInColumnZero_iff {t : Text} {c : Nat} :
    ParenInColumnZero t c ↔ ∃ a, a ++ ['\n', '('] <+: t ∧ c = a.length + 1 := by
  constructor
  · rintro ⟨hpos, hnewline, hparen⟩
    obtain ⟨k, rfl⟩ := Nat.exists_eq_add_one_of_ne_zero (Nat.ne_of_gt hpos)
    rw [Nat.add_sub_cancel] at hnewline
    obtain ⟨hk, hget⟩ := List.getElem?_eq_some_iff.mp hnewline
    obtain ⟨hk', hget'⟩ := List.getElem?_eq_some_iff.mp hparen
    have htake : t.take (k + 2) = t.take k ++ ['\n', '('] := by
      rw [List.take_succ_eq_append_getElem hk', List.take_succ_eq_append_getElem hk, hget, hget']
      simp
    refine ⟨t.take k, htake ▸ List.take_prefix _ t, ?_⟩
    rw [List.length_take, Nat.min_eq_left (Nat.le_of_lt hk)]
  · rintro ⟨a, ⟨b, rfl⟩, rfl⟩
    simp [ParenInColumnZero]

/-- The text in front of a paren in column 0. -/
theorem take_of_isPrefix {t a : Text} (h : a ++ ['\n', '('] <+: t) :
    t.take (a.length + 1) = a ++ ['\n'] := by
  have hline : a ++ ['\n'] <+: t := List.IsPrefix.trans ⟨['('], by simp⟩ h
  rw [List.prefix_iff_eq_take.mp hline]
  simp

/-! ## The search -/

namespace AnchorSearch

theorem anchor_le_step {s : AnchorSearch} (h : s.anchor ≤ s.offset) (c : Char) :
    s.anchor ≤ (s.step c).anchor := by
  unfold step
  split
  · dsimp only
    split <;> omega
  · exact Nat.le_refl _

theorem anchor_le_run {s : AnchorSearch} (h : s.anchor ≤ s.offset) (t : Text) :
    s.anchor ≤ (s.run t).anchor := by
  induction t generalizing s with
  | nil => exact Nat.le_refl _
  | cons c t ih => exact (anchor_le_step h c).trans (ih (anchor_step_le h c))

theorem afterNewline_run_concat (s : AnchorSearch) (t : Text) :
    (s.run (t ++ ['\n'])).afterNewline = true := by
  rw [run_append]
  simp [run, step]

end AnchorSearch

theorem anchor_le_anchor_append (t u : Text) : anchor t ≤ anchor (t ++ u) := by
  unfold anchor
  rw [AnchorSearch.run_append]
  exact AnchorSearch.anchor_le_run (AnchorSearch.anchor_run_le (Nat.le_refl 0) t) u

/-- A paren in column 0 becomes the anchor if it is outside strings and so are those before it. -/
theorem anchor_concat_paren {a : Text} (h : ∀ b, ¬ QuotedAt (a ++ ['\n', '(']) b) :
    anchor (a ++ ['\n', '(']) = a.length + 1 := by
  have hsplit : a ++ ['\n', '('] = (a ++ ['\n']) ++ ['('] := by simp
  have hsearched := searched (a ++ ['\n'])
  -- the search has read the text in front of the paren as it is read from its beginning
  have hmode : (AnchorSearch.run {} (a ++ ['\n'])).mode = Mode.code.run (a ++ ['\n']) := by
    refine hsearched.mode.resolve_right ?_
    rintro ⟨b, hb⟩
    exact h b (hsplit ▸ hb.append ['('])
  have hcode : (Mode.code.run (a ++ ['\n'])).inString = false :=
    Bool.eq_false_iff.mpr fun hstring => h a ⟨List.prefix_rfl, hstring⟩
  have hafter := AnchorSearch.afterNewline_run_concat {} a
  have hoffset := hsearched.offset
  rw [hsplit, anchor, AnchorSearch.run_append]
  show ((AnchorSearch.run {} (a ++ ['\n'])).step '(').anchor = _
  simp [AnchorSearch.step, hafter, hmode, hcode, hoffset]

/-- If no paren in column 0 is inside a string, the anchor is the last of them. -/
theorem isGreatest_anchor {before : Text} (h : ∀ a, ¬ QuotedAt before a) :
    IsGreatest {c | c = 0 ∨ ParenInColumnZero before c} (anchor before) := by
  constructor
  · refine (anchor_eq_zero_or before).imp_right ?_
    rintro ⟨a, ha, hanchor⟩
    exact parenInColumnZero_iff.mpr ⟨a, ha, hanchor⟩
  · rintro c (rfl | hparen)
    · exact Nat.zero_le _
    · obtain ⟨a, ⟨b, rfl⟩, rfl⟩ := parenInColumnZero_iff.mp hparen
      rw [← anchor_concat_paren fun a' hquoted => h a' (hquoted.append b)]
      exact anchor_le_anchor_append _ b

/-! ## Positions -/

theorem Context.inString_between (before after : Text) :
    (Context.between before after).inString =
      (Mode.code.run (before.drop (anchor before))).inString := by
  show (Reader.upTo (anchor before) before after).mode.inString = _
  rw [Reader.upTo, Reader.mode_settle, Reader.mode_run]

theorem parenInColumnZero_take_iff {t : Text} {pos c : Nat} :
    ParenInColumnZero (t.take pos) c ↔ c < pos ∧ ParenInColumnZero t c := by
  unfold ParenInColumnZero
  grind

/-- The parens in column 0 before a position are all outside strings, as the text is read from its
beginning. Then the anchor of the position is the last of them, or 0 if there are none, and reading
from it tells as reading from the beginning does whether the position is inside a string. -/
theorem anchorOf_last_paren {t : Text} {pos : Nat} (hpos : pos ≤ t.length)
    (h : ∀ c < pos, ParenInColumnZero t c → endsInString (t.take c) = false) :
    IsGreatest {c | c = 0 ∨ c < pos ∧ ParenInColumnZero t c} (anchorOf t pos) ∧
      (contextAt t pos).inString = endsInString (t.take pos) := by
  have hclear : ∀ a, ¬ QuotedAt (t.take pos) a := by
    rintro a ⟨hbegin, hstring⟩
    obtain ⟨hlt, hparen⟩ :=
      parenInColumnZero_take_iff.mp (parenInColumnZero_iff.mpr ⟨a, hbegin, rfl⟩)
    have hcode := h _ hlt hparen
    rw [take_of_isPrefix (hbegin.trans (List.take_prefix pos t)), endsInString_eq, hstring] at hcode
    exact Bool.noConfusion hcode
  have hclamp := clamp_natCast hpos
  have hanchor := anchorOf_clamp t pos
  rw [hclamp] at hanchor
  constructor
  · simpa only [hanchor, parenInColumnZero_take_iff] using isGreatest_anchor hclear
  · have hsame : (Mode.code.run ((t.take pos).drop (anchor (t.take pos)))).inString =
        (Mode.code.run (t.take pos)).inString := by
      by_contra hne
      obtain ⟨a, b, -, ha, -⟩ := exists_quotedAt_of_inString hne
      exact hclear a ha
    simp only [contextAt, hclamp]
    rw [Context.inString_between, hsame, endsInString_eq]

/-- A string over two lines, an escaped quote, a quote in a comment, and a string that is open at the
end. -/
theorem anchorOf_last_paren_behind_strings :
    let t : Text := "(a \"x\\\"\n y\")\n(b) ; \"\n(c\n (d \"(\n z".toList
    ParenInColumnZero t 13 ∧ ParenInColumnZero t 21 ∧ anchorOf t 33 = 21 ∧
      IsGreatest {c | c = 0 ∨ c < 33 ∧ ParenInColumnZero t c} (anchorOf t 33) ∧
      (contextAt t 33).inString = true ∧ endsInString (t.take 33) = true := by
  intro t
  have hparens : ∀ c < 33, ParenInColumnZero t c → endsInString (t.take c) = false := by
    simp only [endsInString_eq]
    decide
  obtain ⟨hlast, hstring⟩ := anchorOf_last_paren (t := t) (by decide) hparens
  have hopen : (contextAt t 33).inString = true := by decide
  exact ⟨by decide, by decide, by decide, hlast, hopen, hstring.symm.trans hopen⟩

end FlowEdit
