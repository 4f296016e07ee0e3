import FlowEdit.Proofs.LineStart
import FlowEdit.Word.Span

/-!
The words of a text as they are found for highlighting. Each is a stretch of the text
(`isStretch_runs`), so the spans of a whole text are the spans of its words, none left out
(`allSpans_eq_map_runs`). Indentation holds no words and does not change how a text is read, so
the words are those of the unindented text (`map_word_runs_unindent`).
-/

namespace FlowEdit

open Text

theorem not_isWordChar_of_isIndent {c : Char} (h : isIndent c = true) : isWordChar c = false := by
  simp only [isIndent, Bool.or_eq_true, beq_iff_eq] at h
  rcases h with rfl | rfl <;> decide

theorem mem_endRun {offset : Nat} {word : Text} {r : Run} (h : r ∈ endRun offset word) :
    word ≠ [] ∧ r = ⟨offset - word.length, word⟩ := by
  unfold endRun at h
  split at h
  · simp at h
  next hne => exact ⟨hne, List.mem_singleton.mp h⟩

/-! ## Words as stretches of the text -/

/-- A nonempty stretch of `t` reads the word of the run, at the place the run says. -/
def Run.IsStretch (t : Text) (r : Run) : Prop :=
  r.word ≠ [] ∧ ∃ a b, t = a ++ r.word ++ b ∧ a.length = r.start

theorem isStretch_endRun {before t word : Text} (hword : word <:+ before) {r : Run}
    (h : r ∈ endRun before.length word) : r.IsStretch (before ++ t) := by
  obtain ⟨hne, rfl⟩ := mem_endRun h
  obtain ⟨a, rfl⟩ := hword
  exact ⟨hne, a, t, by simp, by simp⟩

/-- Every word is a stretch of the text read, from the part `word` of it that was read before. In
an escape the last character read was a backslash, which is a word if the text ends there. -/
theorem isStretch_runsFrom {mode : Mode} {before word t : Text} (hword : word <:+ before)
    (hescape : mode = .escape → ['\\'] <:+ before) {r : Run}
    (h : r ∈ runsFrom mode before.length word t) : r.IsStretch (before ++ t) := by
  induction t generalizing mode before word with
  | nil =>
    rcases List.mem_append.mp h with hend | hlast
    · exact isStretch_endRun hword hend
    · split at hlast
      next hmode =>
        obtain ⟨a, ha⟩ := hescape hmode
        rw [List.mem_singleton.mp hlast]
        exact ⟨by simp, a, [], by simp [ha], by simp [← ha]⟩
      next => simp at hlast
  | cons c t ih =>
    have hsplit : before ++ c :: t = (before ++ [c]) ++ t := by simp
    have hlen : before.length + 1 = (before ++ [c]).length := by simp
    rw [runsFrom] at h
    split at h
    next hc =>
      rw [hlen] at h
      rw [hsplit]
      obtain ⟨a, ha⟩ := hword
      exact ih ⟨a, by rw [← ha]; simp⟩ (by simp) h
    next hc =>
      rcases List.mem_append.mp h with hend | hrest
      · exact isStretch_endRun hword hend
      · rw [hlen] at hrest
        rw [hsplit]
        apply ih List.nil_suffix _ hrest
        intro hmode
        have hbackslash : c = '\\' := (Mode.step_eq_escape_iff.mp hmode).2
        exact ⟨before, by rw [hbackslash]⟩

theorem isStretch_runs {t : Text} {r : Run} (h : r ∈ runs t 0) : r.IsStretch t := by
  have hread : r ∈ runsFrom .code ([] : Text).length [] t := h
  exact isStretch_runsFrom List.nil_suffix (by simp) hread

theorem Run.IsStretch.start_lt {t : Text} {r : Run} (h : r.IsStretch t) : r.start < t.length := by
  obtain ⟨hne, a, b, rfl, hstart⟩ := h
  have hpos := List.length_pos_iff.mpr hne
  simp only [List.length_append]
  omega

theorem Run.IsStretch.stop_pos {t : Text} {r : Run} (h : r.IsStretch t) : 0 < r.stop := by
  have hpos := List.length_pos_iff.mpr h.1
  unfold Run.stop
  omega

theorem Run.IsStretch.bounds {t : Text} {r : Run} (h : r.IsStretch t) :
    r.start < r.stop ∧ r.stop ≤ t.length := by
  obtain ⟨hne, a, b, rfl, hstart⟩ := h
  have hpos := List.length_pos_iff.mpr hne
  unfold Run.stop
  simp only [List.length_append]
  omega

/-- The characters of a span. -/
def Span.text (t : Text) (s : Span) : Text := (t.drop s.start).take (s.stop - s.start)

theorem Run.IsStretch.text_span {t : Text} {r : Run} (h : r.IsStretch t) (v : Vocabulary) :
    (r.span v).text t = r.word := by
  obtain ⟨-, a, b, rfl, hstart⟩ := h
  simp [Span.text, Run.span, Run.stop, ← hstart]

/-- The spans of a text are those of its words. -/
theorem allSpans_eq_map_runs (v : Vocabulary) (t : Text) :
    v.allSpans t = (runs t 0).map (·.span v) := by
  have hanchor : anchor (t.take 0) = 0 := by simp [anchor, AnchorSearch.run]
  have hclamp : t.clamp 0 = 0 := by simp [clamp]
  unfold Vocabulary.allSpans Vocabulary.spans
  simp only [hclamp, Option.map_none, Option.getD_none, hanchor]
  split
  next hempty =>
    have hnil : t = [] := List.length_eq_zero_iff.mp (Nat.le_zero.mp hempty)
    subst hnil
    rfl
  next =>
    congr 1
    rw [List.filter_eq_self]
    intro r hr
    have hstretch := isStretch_runs hr
    simp [hstretch.start_lt, hstretch.stop_pos]

/-! ## Words without indentation -/

theorem map_word_endRun (offset offset' : Nat) (word : Text) :
    (endRun offset word).map Run.word = (endRun offset' word).map Run.word := by
  unfold endRun
  split <;> rfl

theorem map_word_runsFrom_unindentFrom {fresh : Bool} {mode : Mode} {word : Text}
    (h : fresh = true → mode.Idle ∧ word = []) (offset offset' : Nat) (t : Text) :
    (runsFrom mode offset' word (unindentFrom fresh t)).map Run.word =
      (runsFrom mode offset word t).map Run.word := by
  induction t generalizing fresh mode word offset offset' with
  | nil =>
    simp only [unindentFrom, runsFrom, List.map_append]
    rw [map_word_endRun offset' offset]
    split <;> rfl
  | cons c t ih =>
    by_cases hc : (fresh && isIndent c) = true
    · obtain ⟨hfresh, hindent⟩ := Bool.and_eq_true_iff.mp hc
      obtain ⟨hidle, rfl⟩ := h hfresh
      have hrest : (runsFrom mode offset' [] (unindentFrom true t)).map Run.word =
          (runsFrom mode (offset + 1) [] t).map Run.word :=
        ih (fun _ => ⟨hidle, rfl⟩) (offset + 1) offset'
      simp only [unindentFrom, hc, if_true, hrest]
      simp [runsFrom, not_isWordChar_of_isIndent hindent, Mode.step_isIndent hidle hindent, endRun]
    · simp only [unindentFrom, hc, Bool.false_eq_true, if_false]
      rw [runsFrom, runsFrom]
      split
      next hword =>
        apply ih
        intro hn
        rw [beq_iff_eq.mp hn] at hword
        exact absurd hword.2 (by decide)
      next =>
        rw [List.map_append, List.map_append, map_word_endRun offset' offset]
        congr 1
        apply ih
        intro hn
        rw [beq_iff_eq.mp hn]
        exact ⟨Mode.idle_step_newline mode, rfl⟩

theorem map_word_runs_unindent (t : Text) :
    (runs (unindent t) 0).map Run.word = (runs t 0).map Run.word :=
  map_word_runsFrom_unindentFrom (fun _ => ⟨.inl rfl, rfl⟩) 0 0 t

/-- The words of a text with their categories, in order, do not depend on indentation. -/
theorem map_text_allSpans_congr (v : Vocabulary) {t u : Text} (h : unindent t = unindent u) :
    (v.allSpans t).map (fun s => (s.text t, s.category)) =
      (v.allSpans u).map (fun s => (s.text u, s.category)) := by
  have hwords : ∀ x : Text, (v.allSpans x).map (fun s => (s.text x, s.category)) =
      ((runs (unindent x) 0).map Run.word).map fun w => (w, v.classify w) := by
    intro x
    rw [allSpans_eq_map_runs, map_word_runs_unindent, List.map_map, List.map_map]
    apply List.map_congr_left
    intro r hr
    simp only [Function.comp_apply, (isStretch_runs hr).text_span v]
    rfl
  rw [hwords t, hwords u, h]

end FlowEdit
