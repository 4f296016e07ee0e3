import FlowEdit.Proofs.Lexeme
import FlowEdit.Proofs.StringLines

/-!
Parens in column 0 inside strings, in three ways: as parts of string lexemes (`StringsClear` says
that there are none), as places in the text (`QuotedAt`), and by the line that begins there
(`QuotedParen`). Re-indenting brings none about (`not_quotedAt_reindent`).
-/

namespace FlowEdit

open Text

/-! ## In lexemes -/

/-- The lexeme is a string with a newline in it that has a `(` right behind. -/
def Lexeme.hasQuotedParen : Lexeme → Bool
  | .string body _ => hasInfix ['\n', '('] body
  | _ => false

/-- No string of the text, closed or not, has a `(` in column 0. -/
def StringsClear (t : Text) : Prop := ∀ l ∈ lexemes t, l.hasQuotedParen = false

/-- One character read: the lexemes it ends, and what is left of the one it is in. -/
theorem lexemesFrom_cons (mode : Mode) (part : Text) (c : Char) :
    ∃ out part', (∀ t, lexemesFrom mode part (c :: t) = out ++ lexemesFrom (mode.step c) part' t) ∧
      ((mode.step c).inString = true → mode.inString = true → part' = part ++ [c]) := by
  cases mode with
  | code =>
    by_cases hatom : isAtomChar c = true
    · have hcode : Mode.step .code c = .code := by
        have hq : c ≠ '"' := by rintro rfl; exact absurd hatom (by decide)
        have hs : c ≠ ';' := by rintro rfl; exact absurd hatom (by decide)
        simp [Mode.step, hq, hs]
      exact ⟨[], part ++ [c], fun t => by simp [lexemesFrom, hatom, hcode], fun _ _ => rfl⟩
    · refine ⟨endAtom part ++ parenLexeme c, [], fun t => ?_, by simp [Mode.inString]⟩
      simp [lexemesFrom, hatom]
  | comment =>
    by_cases hn : c = '\n'
    · subst hn
      exact ⟨[.comment part], [], fun t => rfl, by simp [Mode.inString]⟩
    · exact ⟨[], part ++ [c], fun t => by simp [lexemesFrom, Mode.step, hn], fun _ _ => rfl⟩
  | string =>
    by_cases hq : c = '"'
    · subst hq
      exact ⟨[.string part true], [], fun t => rfl, by simp [Mode.step, Mode.inString]⟩
    · exact ⟨[], part ++ [c], fun t => by simp [lexemesFrom, hq], fun _ _ => rfl⟩
  | escape => exact ⟨[], part ++ [c], fun t => rfl, fun _ _ => rfl⟩

theorem lexemesFrom_append (mode : Mode) (part x : Text) :
    ∃ out part', ∀ t, lexemesFrom mode part (x ++ t) = out ++ lexemesFrom (mode.run x) part' t := by
  induction x generalizing mode part with
  | nil => exact ⟨[], part, fun t => rfl⟩
  | cons c x ih =>
    obtain ⟨first, part₁, hfirst, -⟩ := lexemesFrom_cons mode part c
    obtain ⟨out, part', hout⟩ := ih (mode.step c) part₁
    refine ⟨first ++ out, part', fun t => ?_⟩
    rw [List.cons_append, hfirst, hout, List.append_assoc]
    rfl

/-- What has been read of a string is the beginning of its body. -/
theorem exists_string_mem_lexemesFrom (part t : Text) :
    ∃ rest closed, Lexeme.string (part ++ rest) closed ∈ lexemesFrom .string part t := by
  rw [lexemesFrom_string, stringLexemes]
  split
  next k _ => exact ⟨t.take (k - 1), true, by simp⟩
  next => exact ⟨t, false, by simp⟩

/-- A `(` in column 0 that is read inside a string is in a string lexeme. -/
theorem StringsClear.not_quotedAt {t : Text} (h : StringsClear t) (a : Text) : ¬ QuotedAt t a := by
  rintro ⟨⟨b, rfl⟩, hstring⟩
  obtain ⟨out, part, hout⟩ := lexemesFrom_append .code [] a
  obtain ⟨last, part', hlast, hpart⟩ := lexemesFrom_cons (Mode.code.run a) part '\n'
  rw [Mode.run_append] at hstring
  have hbefore : (Mode.code.run a).inString = true := by
    cases hm : Mode.code.run a with
    | code => simp [hm, Mode.step, Mode.inString] at hstring
    | comment => simp [hm, Mode.step, Mode.inString] at hstring
    | string => rfl
    | escape => rfl
  have hmode : (Mode.code.run a).step '\n' = .string := by
    rcases Mode.idle_step_newline (Mode.code.run a) with hcode | hstring'
    · have hno : ((Mode.code.run a).step '\n').inString = true := hstring
      simp [hcode, Mode.inString] at hno
    · exact hstring'
  have hread : lexemes (a ++ ['\n', '('] ++ b) =
      out ++ last ++ lexemesFrom .string (part ++ ['\n', '(']) b := by
    have hsplit : a ++ ['\n', '('] ++ b = a ++ ('\n' :: '(' :: b) := by simp
    have hopen : lexemesFrom .string part' ('(' :: b) =
        lexemesFrom .string (part' ++ ['(']) b := rfl
    rw [lexemes_eq_lexemesFrom, hsplit, hout, hlast, hmode, hopen, hpart hstring hbefore]
    simp
  obtain ⟨rest, closed, hmem⟩ := exists_string_mem_lexemesFrom (part ++ ['\n', '(']) b
  have hclear := h (.string (part ++ ['\n', '('] ++ rest) closed)
    (by rw [hread]; exact List.mem_append_right _ hmem)
  have hinfix : hasInfix ['\n', '('] (part ++ ['\n', '('] ++ rest) = true :=
    hasInfix_iff.mpr ⟨part, rest, rfl⟩
  rw [Lexeme.hasQuotedParen, hinfix] at hclear
  exact Bool.noConfusion hclear

/-! ## By place and by line -/

theorem QuotedAt.quotedParen_lines {u a : Text} (h : QuotedAt u a) :
    a.lines.length < u.lines.length ∧ QuotedParen u a.lines.length := by
  have hend := h.append ['\n']
  rw [← preceding_lines, ← List.take_length (l := u.lines)] at hend
  exact hend.quotedParen

theorem QuotedAt.exists_quotedParen {u a : Text} (h : QuotedAt u a) : ∃ n, QuotedParen u n :=
  ⟨_, h.quotedParen_lines.2⟩

theorem QuotedParen.exists_quotedAt {t : Text} {n : Nat} (h : QuotedParen t n) :
    ∃ a, QuotedAt t a := by
  obtain ⟨hstring, hhead⟩ := h
  obtain ⟨line, hline, hparen⟩ := Option.bind_eq_some_iff.mp hhead
  obtain ⟨rest, rfl⟩ := List.head?_eq_some_iff.mp hparen
  have htext := preceding_append_line hline
  rcases lineBegins_preceding (t.lines.take n) with hnil | ⟨a, ha⟩
  · rw [hnil] at hstring
    exact Bool.noConfusion hstring
  · rw [ha] at htext hstring
    refine ⟨a, ⟨rest ++ following (t.lines.drop (n + 1)), ?_⟩, hstring⟩
    refine Eq.trans ?_ htext
    simp

/-- Re-indenting brings no `(` into column 0 inside a string. -/
theorem not_quotedAt_reindent (T : RuleTable) {t : Text} (ht : ∀ a, ¬ QuotedAt t a) (a : Text) :
    ¬ QuotedAt (reindent T t).value a := by
  intro h
  have hclear : ∀ n, ¬ QuotedParen t n := by
    intro n hn
    obtain ⟨b, hb⟩ := hn.exists_quotedAt
    exact ht b hb
  obtain ⟨n, hstring, hhead⟩ := h.exists_quotedParen
  rw [run_preceding_reindent] at hstring
  have hsame := getElem?_lines_reindent_of_inString T
    (fun i _ j _ hi _ => absurd hi (hclear i)) hstring
  rw [hsame] at hhead
  exact hclear n ⟨hstring, hhead⟩

end FlowEdit
