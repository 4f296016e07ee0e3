import FlowEdit.Proofs.StringBody
import FlowEdit.Proofs.WordRuns

/-!
The words of a text by a lexer that jumps: over a comment to the newline, over a string to where it
ends, over a word to its end. It meets the words that are found character by character
(`runs_eq_wordsFrom`), apart from a backslash that ends an unclosed string.
-/

namespace FlowEdit

open Text

/-- The words met from `i` on, where the text is in code. -/
def wordsFrom (t : Text) (i : Nat) : List Run :=
  match h : t.drop i with
  | [] => []
  | c :: rest =>
    if c = ';' then wordsFrom t (i + 1 + (upToChar '\n' rest).length)
    else if c = '"' then
      match _hs : stringStop t i with
      | some j => wordsFrom t j
      | none => []
    else if isWordChar c then
      ⟨i, c :: rest.takeWhile isWordChar⟩ ::
        wordsFrom t (i + 1 + (rest.takeWhile isWordChar).length)
    else wordsFrom t (i + 1)
termination_by t.length - i
decreasing_by
  all_goals
    have hlt : i < t.length := by
      by_contra hge
      rw [List.drop_eq_nil_of_le (Nat.le_of_not_lt hge)] at h
      cases h
  · omega
  · have := lt_of_stringStop _hs
    omega
  · omega
  · omega

/-! ## Pieces of text without words -/

theorem runsFrom_skip {mode : Mode} {c : Char} (h : ¬ (mode = .code ∧ isWordChar c = true))
    (offset : Nat) (t : Text) :
    runsFrom mode offset [] (c :: t) = runsFrom (mode.step c) (offset + 1) [] t := by
  rw [runsFrom, if_neg h]
  rfl

theorem runsFrom_comment (offset : Nat) (t : Text) :
    runsFrom .comment offset [] t =
      runsFrom .code (offset + (upToChar '\n' t).length) [] (t.dropWhile (· != '\n')) := by
  induction t generalizing offset with
  | nil => rfl
  | cons c t ih =>
    rw [runsFrom_skip (by simp)]
    by_cases hc : c = '\n'
    · subst hc
      exact (runsFrom_skip (by decide) offset t).symm
    · have hstep : Mode.comment.step c = .comment := by simp [Mode.step, hc]
      rw [hstep, ih]
      simp [upToChar, hc, Nat.add_assoc, Nat.add_comm]

theorem backslashBefore_comment (t : Text) (n : Nat) :
    backslashBefore (Mode.comment.run t) n =
      backslashBefore (Mode.code.run (t.dropWhile (· != '\n'))) n := by
  induction t with
  | nil => rfl
  | cons c t ih =>
    by_cases hc : c = '\n'
    · subst hc
      rfl
    · have hstep : Mode.comment.step c = .comment := by simp [Mode.step, hc]
      rw [Mode.run_cons, hstep, ih]
      simp [hc]

theorem runsFrom_isStringBody {escaped : Bool} {b : Text} (h : isStringBody escaped b = true)
    (offset : Nat) (t : Text) :
    runsFrom (bodyMode escaped) offset [] (b ++ t) =
      runsFrom .string (offset + b.length) [] t := by
  induction b generalizing escaped offset with
  | nil =>
    obtain rfl : escaped = false := by simpa [isStringBody] using h
    rfl
  | cons c b ih =>
    obtain ⟨k, hk, hstep, -⟩ := step_bodyMode h
    have hne : bodyMode escaped ≠ .code := by cases escaped <;> simp [bodyMode]
    rw [List.cons_append, runsFrom_skip (by simp [hne]), hstep, ih hk, List.length_cons]
    congr 1
    omega

/-! ## The two readings agree -/

theorem drop_length_takeWhile (p : Char → Bool) (t : Text) :
    t.drop (t.takeWhile p).length = t.dropWhile p := by
  calc t.drop (t.takeWhile p).length
      = (t.takeWhile p ++ t.dropWhile p).drop (t.takeWhile p).length := by
        rw [List.takeWhile_append_dropWhile]
    _ = t.dropWhile p := List.drop_left

theorem drop_of_drop_eq_cons {t rest : Text} {c : Char} {i : Nat} (h : t.drop i = c :: rest)
    (k : Nat) : t.drop (i + 1 + k) = rest.drop k := by
  rw [Nat.add_assoc, ← List.drop_drop, h, Nat.add_comm 1 k]
  rfl

/-- What is read from `i` on: the words that the lexer meets from there, and the backslash that
ends the text if it escapes nothing. -/
def MeetsWords (t : Text) (i : Nat) (words : List Run) : Prop :=
  runsFrom .code i [] (t.drop i) = words ++ backslashBefore (Mode.code.run (t.drop i)) t.length

theorem meetsWords_comment {t rest : Text} {i : Nat} {words : List Run}
    (hdrop : t.drop i = ';' :: rest)
    (h : MeetsWords t (i + 1 + (upToChar '\n' rest).length) words) : MeetsWords t i words := by
  have hrest : rest.drop (upToChar '\n' rest).length = rest.dropWhile (· != '\n') :=
    drop_length_takeWhile _ rest
  unfold MeetsWords at h ⊢
  rw [drop_of_drop_eq_cons hdrop, hrest] at h
  rw [hdrop, runsFrom_skip (by decide), Mode.run_cons]
  show runsFrom .comment _ _ _ = words ++ backslashBefore (Mode.comment.run rest) _
  rw [runsFrom_comment, h, backslashBefore_comment]

theorem meetsWords_string {t body rest : Text} {i : Nat} {words : List Run}
    (hdrop : t.drop i = '"' :: (body ++ '"' :: rest)) (hbody : isStringBody false body = true)
    (h : MeetsWords t (i + 1 + (body.length + 1)) words) : MeetsWords t i words := by
  have hrest : (body ++ '"' :: rest).drop (body.length + 1) = rest := by
    rw [← List.drop_drop, List.drop_left]
    rfl
  have hmode : Mode.code.run ('"' :: (body ++ '"' :: rest)) = Mode.code.run rest := by
    show Mode.string.run _ = _
    rw [Mode.run_append, show Mode.string.run body = .string from Mode.run_isStringBody hbody]
    rfl
  unfold MeetsWords at h ⊢
  rw [drop_of_drop_eq_cons hdrop, hrest] at h
  rw [hdrop, hmode, ← h, runsFrom_skip (by decide)]
  show runsFrom (bodyMode false) _ _ _ = _
  rw [runsFrom_isStringBody hbody, runsFrom_skip (by decide)]
  rfl

/-- An unclosed string swallows the rest. -/
theorem meetsWords_unclosed {t body rest : Text} {i : Nat} (hdrop : t.drop i = '"' :: rest)
    (hbody : isStringBody false body = true) (hrest : rest = body ∨ rest = body ++ ['\\']) :
    MeetsWords t i [] := by
  have hlen : t.length = i + 1 + rest.length := by
    have := congrArg List.length hdrop
    rw [List.length_drop, List.length_cons] at this
    omega
  have hrun : Mode.string.run body = .string := Mode.run_isStringBody hbody
  have hread : ∀ u, runsFrom .string (i + 1) [] (body ++ u) =
      runsFrom .string (i + 1 + body.length) [] u := runsFrom_isStringBody hbody (i + 1)
  unfold MeetsWords
  rw [hdrop, runsFrom_skip (by decide), Mode.run_cons, List.nil_append]
  show runsFrom .string _ _ _ = backslashBefore (Mode.string.run rest) _
  rcases hrest with rfl | rfl
  · have hnil := hread []
    rw [List.append_nil] at hnil
    rw [hnil, hrun]
    rfl
  · rw [hread, Mode.run_append, hrun, hlen, List.length_append]
    rfl

theorem meetsWords_word {t rest : Text} {c : Char} {i : Nat} {words : List Run}
    (hdrop : t.drop i = c :: rest) (hc : isWordChar c = true)
    (h : MeetsWords t (i + 1 + (rest.takeWhile isWordChar).length) words) :
    MeetsWords t i (⟨i, c :: rest.takeWhile isWordChar⟩ :: words) := by
  have hmode : Mode.code.run (c :: rest) = Mode.code.run (rest.dropWhile isWordChar) := by
    have hstep := Mode.step_code_of_isAtomChar (isAtomChar_of_isWordChar hc)
    have hword : Mode.code.run (rest.takeWhile isWordChar) = .code :=
      Mode.run_code_of_isAtomChar (all_isAtomChar_of_isWordChar (by simp))
    calc Mode.code.run (c :: rest)
        = Mode.code.run (rest.takeWhile isWordChar ++ rest.dropWhile isWordChar) := by
          rw [Mode.run_cons, hstep, List.takeWhile_append_dropWhile]
      _ = Mode.code.run (rest.dropWhile isWordChar) := by rw [Mode.run_append, hword]
  unfold MeetsWords at h ⊢
  rw [drop_of_drop_eq_cons hdrop, drop_length_takeWhile] at h
  rw [hdrop, runsFrom_cons_word hc, h, hmode]
  rfl

theorem stringStop_eq {t rest : Text} {c : Char} {i : Nat} {found : Option Nat}
    (hdrop : t.drop i = c :: rest) (h : closingQuote rest rest.length = .ok found) :
    stringStop t i = found.map (i + 1 + ·) := by
  have hrest : t.drop (i + 1) = rest := drop_of_drop_eq_cons hdrop 0
  unfold stringStop
  rw [hrest, h]
  cases found <;> rfl

/-- The lexer meets the words that are found character by character. -/
theorem meetsWords_wordsFrom (t : Text) (i : Nat) : MeetsWords t i (wordsFrom t i) := by
  fun_induction wordsFrom t i with
  | case1 i h => simp [h, MeetsWords, runsFrom, endRun, backslashBefore]
  | case2 i rest h ih => exact meetsWords_comment h ih
  | case3 i rest j hs h _ ih =>
    cases quoteSearch rest with
    | closed body tail isBody text found =>
      rw [stringStop_eq h found] at hs
      obtain rfl : i + 1 + (body.length + 1) = j := Option.some.inj hs
      rw [text] at h
      exact meetsWords_string h isBody ih
    | unclosed body isBody text found =>
      rw [stringStop_eq h found] at hs
      cases hs
  | case4 i rest hs h _ =>
    cases quoteSearch rest with
    | closed body tail isBody text found =>
      rw [stringStop_eq h found] at hs
      cases hs
    | unclosed body isBody text found => exact meetsWords_unclosed h isBody text
  | case5 i c rest h _ _ hc ih => exact meetsWords_word h hc ih
  | case6 i c rest h hsemi hquote hc ih =>
    have hstep : Mode.code.step c = .code := Mode.step_eq_code_iff.mpr (.inl ⟨rfl, hquote, hsemi⟩)
    have hrest : t.drop (i + 1) = rest := drop_of_drop_eq_cons h 0
    unfold MeetsWords at ih ⊢
    rw [hrest] at ih
    rw [h, runsFrom_skip (by simpa using hc), Mode.run_cons, hstep, ih]

theorem runs_eq_wordsFrom (t : Text) : runs t 0 = wordsFrom t 0 ++ danglingBackslash t :=
  meetsWords_wordsFrom t 0

/-- The words met are the maximal runs of word characters in code, all of them. -/
theorem mem_wordsFrom_iff {t : Text} {r : Run} : r ∈ wordsFrom t 0 ↔ r.IsWord t := by
  have hmem : r ∈ runs t 0 ↔ r ∈ wordsFrom t 0 ∨ r ∈ danglingBackslash t := by
    rw [runs_eq_wordsFrom, List.mem_append]
  constructor
  · intro h
    rcases mem_runs_cases (hmem.mpr (.inl h)) with hword | hlast
    · exact hword
    · -- both in front of the backslash and the backslash itself
      have hpairwise := pairwise_runs t
      rw [runs_eq_wordsFrom, List.pairwise_append] at hpairwise
      have hlt : r.stop < r.start := hpairwise.2.2 r h r hlast
      exact absurd hlt (Nat.not_lt.mpr (Nat.le_add_right _ _))
  · intro h
    rcases hmem.mp h.mem_runs with hword | hlast
    · exact hword
    · -- a word ends in code, and behind the backslash the reader is in an escape
      obtain ⟨hescape, rfl⟩ := mem_danglingBackslash_iff.mp hlast
      have hcode : (Reader.ofText (t.take (Run.stop ⟨t.length - 1, ['\\']⟩))).mode = .code :=
        h.inAtom.1
      have hall : t.take (Run.stop ⟨t.length - 1, ['\\']⟩) = t := by
        apply List.take_of_length_le
        show t.length ≤ t.length - 1 + 1
        omega
      rw [hall, Reader.mode_ofText, hescape] at hcode
      cases hcode

/-- The spans of a text, from its beginning to its end. They are those of the words that the lexer
meets, and one more if the text ends with a string that is not closed and, in it, a backslash that
escapes nothing. The lexer skips strings as `stringEnd` finds their ends. The words it meets are the
maximal runs of word characters in code, each of them in one atom. -/
theorem spans_eq_map_wordsFrom (v : Vocabulary) (t : Text) :
    v.spans t 0 none = (wordsFrom t 0 ++ danglingBackslash t).map (·.span v) ∧
      (∀ i : Nat, isIndex (i + 1) = true →
        t.stringEnd i t.length = .ok ((stringStop t i).map Int.ofNat)) ∧
      (∀ r, r ∈ danglingBackslash t ↔ r = ⟨t.length - 1, ['\\']⟩ ∧
        ∃ a b, t = a ++ '"' :: (b ++ ['\\']) ∧ Mode.code.run a = .code ∧
          isStringBody false b = true) ∧
      (∀ r, r ∈ wordsFrom t 0 ↔ r.IsWord t) ∧
      (∀ r ∈ wordsFrom t 0, r.InAtom t) ∧
      ((v.spans t 0 none).Pairwise fun s s' => s.stop < s'.start) ∧
      ∀ s ∈ v.spans t 0 none, s.start < s.stop ∧ s.stop ≤ t.length := by
  have hspans : v.spans t 0 none = (runs t 0).map (·.span v) := allSpans_eq_map_runs v t
  refine ⟨by rw [hspans, runs_eq_wordsFrom], fun i hi => stringEnd_length hi, fun r => ?_,
    fun r => mem_wordsFrom_iff, fun r hr => (mem_wordsFrom_iff.mp hr).inAtom, ?_, ?_⟩
  · rw [mem_danglingBackslash_iff, run_eq_escape_iff, and_comm]
  · rw [hspans, List.pairwise_map]
    exact pairwise_runs t
  · intro s hs
    rw [hspans] at hs
    obtain ⟨r, hr, rfl⟩ := List.mem_map.mp hs
    exact (isStretch_runs hr).bounds

end FlowEdit
