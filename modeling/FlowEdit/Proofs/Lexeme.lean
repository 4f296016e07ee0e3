import FlowEdit.Proofs.Reflow
import FlowEdit.Proofs.Words
import FlowEdit.Text.Signed

/-!
What a program text says: its sequence of lexemes. `lexemes` takes them off the text one by one,
each as far as it reaches. `lexemesFrom` finds the same ones character by character, in a mode,
which is how indentation is compared. Indentation is outside all lexemes but strings, and there it
shows in the body only, so re-indenting keeps the lexemes (`reindent_keeps_lexemes`). This does not
depend on where the walk takes a line to be: also a line moved by mistake inside a string is moved
by blanks at its beginning.
-/

namespace FlowEdit

open Text

/-! ## Lexemes -/

/-- A piece of program text, apart from blanks. A string has its body as it is written; the last
one may not be closed. -/
inductive Lexeme
  | opening
  | closing
  | atom (text : Text)
  | comment (text : Text)
  | string (body : Text) (closed : Bool)
  deriving DecidableEq, Repr

/-- The lexemes of a text, read from its beginning. -/
def lexemes : Text → List Lexeme
  | [] => []
  | c :: t =>
    if isBlank c then lexemes t
    else if c = '(' then .opening :: lexemes t
    else if c = ')' then .closing :: lexemes t
    else if c = ';' then
      .comment (t.takeWhile (· != '\n')) :: lexemes (t.dropWhile (· != '\n'))
    else if c = '"' then
      match closingQuote t t.length with
      | .ok (some k) => .string (t.take (k - 1)) true :: lexemes (t.drop k)
      | _ => [.string t false]
    else .atom (c :: t.takeWhile isAtomChar) :: lexemes (t.dropWhile isAtomChar)
termination_by t => t.length
decreasing_by
  all_goals simp only [List.length_cons, List.length_drop]
  all_goals first
    | omega
    | exact Nat.lt_succ_of_le (List.length_dropWhile_le _ t)

/-- The atom whose characters have been read, if there are any. -/
def endAtom (part : Text) : List Lexeme := if part = [] then [] else [.atom part]

def parenLexeme (c : Char) : List Lexeme :=
  if c = '(' then [.opening] else if c = ')' then [.closing] else []

/-- The lexemes of a text that is read in a mode, where `part` is what was read before of the
lexeme at its beginning. -/
def lexemesFrom (mode : Mode) (part : Text) : Text → List Lexeme
  | [] =>
    match mode with
    | .code => endAtom part
    | .comment => [.comment part]
    | .string | .escape => [.string part false]
  | c :: t =>
    match mode with
    | .code =>
      if isAtomChar c then lexemesFrom .code (part ++ [c]) t
      else endAtom part ++ parenLexeme c ++ lexemesFrom (Mode.step .code c) [] t
    | .comment =>
      if c = '\n' then .comment part :: lexemesFrom .code [] t
      else lexemesFrom .comment (part ++ [c]) t
    | .string =>
      if c = '"' then .string part true :: lexemesFrom .code [] t
      else lexemesFrom (Mode.step .string c) (part ++ [c]) t
    | .escape => lexemesFrom .string (part ++ [c]) t

/-! ## The two readings agree -/

theorem lexemesFrom_comment (part t : Text) :
    lexemesFrom .comment part t = .comment (part ++ t.takeWhile (· != '\n')) ::
      lexemesFrom .code [] (t.dropWhile (· != '\n')) := by
  induction t generalizing part with
  | nil => simp [lexemesFrom, endAtom]
  | cons c t ih =>
    by_cases hc : c = '\n'
    · subst hc
      simp [lexemesFrom, isAtomChar, isBlank, blanks, endAtom, parenLexeme, Mode.step]
    · simp [lexemesFrom, hc, ih]

theorem lexemesFrom_atom {part : Text} (hne : part ≠ []) (t : Text) :
    lexemesFrom .code part t = .atom (part ++ t.takeWhile isAtomChar) ::
      lexemesFrom .code [] (t.dropWhile isAtomChar) := by
  induction t generalizing part with
  | nil => simp [lexemesFrom, endAtom, hne]
  | cons c t ih =>
    by_cases hc : isAtomChar c = true
    · rw [lexemesFrom]
      simp only [hc, if_true]
      rw [ih (by simp)]
      simp [hc]
    · simp [lexemesFrom, hc, endAtom, hne]

theorem closingQuote_quote (t : Text) : closingQuote ('"' :: t) (t.length + 1) = .ok (some 1) := by
  unfold closingQuote
  simp

theorem closingQuote_escape (c : Char) (t : Text) :
    closingQuote ('\\' :: c :: t) (t.length + 2) =
      (closingQuote t t.length).map (Option.map (· + 2)) := by
  simp [closingQuote, bind, Except.bind, pure, Except.pure, Except.map]

theorem closingQuote_other {c : Char} (hq : c ≠ '"') (hb : c ≠ '\\') (t : Text) :
    closingQuote (c :: t) (t.length + 1) = (closingQuote t t.length).map (Option.map (· + 1)) := by
  rw [closingQuote.eq_def]
  simp only [hq, hb, if_false]
  cases closingQuote t t.length <;> rfl

/-- The string that goes on with `t`, of which `part` was read before, and what follows it. -/
def stringLexemes (part t : Text) : List Lexeme :=
  match closingQuote t t.length with
  | .ok (some k) => .string (part ++ t.take (k - 1)) true :: lexemesFrom .code [] (t.drop k)
  | _ => [.string (part ++ t) false]

theorem le_of_map_add {x : Except OffsetError (Option Nat)} {n k : Nat}
    (h : x.map (Option.map (· + n)) = .ok (some k)) : n ≤ k := by
  cases x with
  | error e => simp [Except.map] at h
  | ok o =>
    simp only [Except.map, Except.ok.injEq, Option.map_eq_some_iff] at h
    omega

/-- A closing quote is found behind at least one character, itself. -/
theorem closingQuote_pos {t : Text} {k : Nat} (h : closingQuote t t.length = .ok (some k)) :
    1 ≤ k := by
  cases t with
  | nil => simp [closingQuote] at h
  | cons c t =>
    rw [List.length_cons] at h
    by_cases hq : c = '"'
    · rw [hq, closingQuote_quote] at h
      cases h
      omega
    · by_cases hb : c = '\\'
      · subst hb
        cases t with
        | nil => simp [closingQuote] at h
        | cons d t =>
          rw [List.length_cons, closingQuote_escape] at h
          have := le_of_map_add h
          omega
      · rw [closingQuote_other hq hb] at h
        exact le_of_map_add h

theorem stringLexemes_quote (part t : Text) :
    stringLexemes part ('"' :: t) = .string part true :: lexemesFrom .code [] t := by
  unfold stringLexemes
  rw [List.length_cons, closingQuote_quote]
  simp

/-- Characters in front of the closing quote belong to the body. -/
theorem stringLexemes_append {w t : Text}
    (h : closingQuote (w ++ t) (w ++ t).length =
      (closingQuote t t.length).map (Option.map (· + w.length))) (part : Text) :
    stringLexemes part (w ++ t) = stringLexemes (part ++ w) t := by
  unfold stringLexemes
  rw [h]
  cases hrest : closingQuote t t.length with
  | error e => simp [Except.map]
  | ok o =>
    cases o with
    | none => simp [Except.map]
    | some k =>
      have hpos := closingQuote_pos hrest
      have hbody : (w ++ t).take (k + w.length - 1) = w ++ t.take (k - 1) := by
        rw [show k + w.length - 1 = w.length + (k - 1) by omega, List.take_length_add_append]
      have hbehind : (w ++ t).drop (k + w.length) = t.drop k := by
        rw [Nat.add_comm, List.drop_length_add_append]
      simp only [Except.map, Option.map_some, hbody, hbehind, List.append_assoc]

theorem stringLexemes_escape (part : Text) (c : Char) (t : Text) :
    stringLexemes part ('\\' :: c :: t) = stringLexemes (part ++ ['\\', c]) t :=
  stringLexemes_append (w := ['\\', c]) (closingQuote_escape c t) part

theorem stringLexemes_other (part : Text) {c : Char} (hq : c ≠ '"') (hb : c ≠ '\\') (t : Text) :
    stringLexemes part (c :: t) = stringLexemes (part ++ [c]) t :=
  stringLexemes_append (w := [c]) (closingQuote_other hq hb t) part

/-- Reading a string character by character finds its closing quote. -/
theorem lexemesFrom_string : ∀ part t : Text, lexemesFrom .string part t = stringLexemes part t
  | part, [] => by simp [lexemesFrom, stringLexemes, closingQuote]
  | part, [c] => by
    by_cases hq : c = '"'
    · rw [hq, stringLexemes_quote]
      simp [lexemesFrom]
    · by_cases hb : c = '\\'
      · subst hb
        simp [lexemesFrom, stringLexemes, closingQuote, Mode.step]
      · rw [stringLexemes_other part hq hb]
        simp [lexemesFrom, hq, hb, Mode.step, stringLexemes, closingQuote]
  | part, c :: d :: t => by
    by_cases hq : c = '"'
    · rw [hq, stringLexemes_quote]
      simp [lexemesFrom]
    · by_cases hb : c = '\\'
      · subst hb
        have hrest := lexemesFrom_string (part ++ ['\\', d]) t
        rw [stringLexemes_escape, ← hrest]
        simp [lexemesFrom, Mode.step]
      · have hrest := lexemesFrom_string (part ++ [c]) (d :: t)
        rw [stringLexemes_other part hq hb, ← hrest, lexemesFrom]
        simp [hq, hb, Mode.step]

theorem lexemesFrom_blank {c : Char} (h : isBlank c = true) (t : Text) :
    lexemesFrom .code [] (c :: t) = lexemesFrom .code [] t := by
  have hne : ∀ d : Char, isBlank d = false → c ≠ d := by
    rintro d hd rfl
    rw [h] at hd
    exact Bool.noConfusion hd
  have hatom : isAtomChar c = false := by simp [isAtomChar, h]
  simp [lexemesFrom, hatom, endAtom, parenLexeme, Mode.step, hne '(' rfl, hne ')' rfl, hne '"' rfl,
    hne ';' rfl]

theorem lexemes_eq_lexemesFrom (t : Text) : lexemes t = lexemesFrom .code [] t := by
  fun_induction lexemes t with
  | case1 => rfl
  | case2 c t hblank ih => rw [lexemesFrom_blank hblank, ih]
  | case3 t hblank ih => rw [ih]; rfl
  | case4 t hblank hopen ih => rw [ih]; rfl
  | case5 t hblank hopen hclose ih =>
    rw [ih]
    exact (lexemesFrom_comment [] t).symm
  | case6 t k hk _ _ _ _ ih =>
    have hstring : lexemesFrom .code [] ('"' :: t) = lexemesFrom .string [] t := rfl
    rw [hstring, lexemesFrom_string, stringLexemes, hk, ih]
    rfl
  | case7 t hnone _ _ _ _ =>
    have hstring : lexemesFrom .code [] ('"' :: t) = lexemesFrom .string [] t := rfl
    rw [hstring, lexemesFrom_string, stringLexemes]
    split
    next k hk => exact absurd hk (hnone k)
    next => rfl
  | case8 c t hblank hopen hclose hsemi hquote ih =>
    have hatom : isAtomChar c = true := by
      simp [isAtomChar, isDelimiter, delimiters, hblank, hopen, hclose, hsemi, hquote]
    have hstart : lexemesFrom .code [] (c :: t) = lexemesFrom .code [c] t := by
      simp [lexemesFrom, hatom]
    rw [hstart, lexemesFrom_atom (by simp), ih]
    rfl

/-! ## Lexemes without indentation -/

/-- The lexeme with the indentation of the lines that begin in it deleted. Only a string holds the
beginning of a line. -/
def Lexeme.unindented : Lexeme → Lexeme
  | .string body closed => .string (unindentFrom false body) closed
  | l => l

theorem map_unindented_endAtom (part : Text) :
    (endAtom part).map Lexeme.unindented = endAtom part := by
  unfold endAtom
  split <;> rfl

theorem map_unindented_parenLexeme (c : Char) :
    (parenLexeme c).map Lexeme.unindented = parenLexeme c := by
  unfold parenLexeme
  split
  · rfl
  · split <;> rfl

/-- What was read before of a lexeme, `part`, fits the place in the text: a line begins there only
in code, outside an atom, or in a string, where `part` tells whether one does. -/
def Fits (fresh : Bool) : Mode → Text → Prop
  | .code, part => fresh = true → part = []
  | .comment, _ => fresh = false
  | .string, part => freshAfter false part = fresh
  | .escape, part => freshAfter false part = fresh ∧ fresh = false

/-- What was read of a lexeme, without the indentation of lines. -/
def partUnindented : Mode → Text → Text
  | .string, part | .escape, part => unindentFrom false part
  | .code, part | .comment, part => part

theorem freshAfter_concat (part : Text) (c : Char) :
    freshAfter false (part ++ [c]) = ((freshAfter false part && isIndent c) || c == '\n') := by
  simp [freshAfter]

/-- Passing over a character of indentation leaves the reading where it is. -/
theorem Fits.skip {mode : Mode} {part : Text} (h : Fits true mode part) {c : Char}
    (hc : isIndent c = true) (t : Text) :
    ∃ part', lexemesFrom mode part (c :: t) = lexemesFrom mode part' t ∧ Fits true mode part' ∧
      partUnindented mode part' = partUnindented mode part := by
  cases mode with
  | code =>
    have hpart : part = [] := h rfl
    subst hpart
    exact ⟨[], lexemesFrom_blank (isBlank_of_isIndent hc) t, h, rfl⟩
  | comment => exact Bool.noConfusion h
  | string =>
    have hfresh : freshAfter false part = true := h
    have hne : ∀ d : Char, isIndent d = false → c ≠ d := by
      rintro d hd rfl
      rw [hc] at hd
      exact Bool.noConfusion hd
    refine ⟨part ++ [c], ?_, ?_, ?_⟩
    · simp [lexemesFrom, Mode.step, hne '"' rfl, hne '\\' rfl]
    · simp [Fits, freshAfter_concat, hfresh, hc]
    · simp [partUnindented, unindentFrom_append, hfresh, unindentFrom, hc]
  | escape => exact Bool.noConfusion h.2

theorem partUnindented_nil (mode : Mode) : partUnindented mode [] = [] := by
  cases mode <;> rfl

theorem fits_step_code (c : Char) : Fits (c == '\n') (Mode.step .code c) [] := by
  by_cases hq : c = '"'
  · subst hq
    rfl
  · by_cases hs : c = ';'
    · subst hs
      rfl
    · simp [Mode.step, hq, hs, Fits]

/-- A character of a string that is not indentation, added to what was read before. -/
theorem keep_in_string {fresh : Bool} {part : Text} (h : freshAfter false part = fresh) {c : Char}
    (hc : (fresh && isIndent c) = false) :
    freshAfter false (part ++ [c]) = (c == '\n') ∧
      unindentFrom false (part ++ [c]) = unindentFrom false part ++ [c] := by
  constructor
  · rw [freshAfter_concat, h, hc, Bool.false_or]
  · rw [unindentFrom_append, h]
    simp [unindentFrom, hc]

theorem fits_step_string {c : Char} (hq : c ≠ '"') {part : Text}
    (hfresh : freshAfter false part = (c == '\n')) :
    Fits (c == '\n') (Mode.step .string c) part := by
  by_cases hb : c = '\\'
  · subst hb
    exact ⟨hfresh, rfl⟩
  · simpa [Mode.step, hq, hb, Fits] using hfresh

theorem partUnindented_step_string {c : Char} (hq : c ≠ '"') (part : Text) :
    partUnindented (Mode.step .string c) part = unindentFrom false part := by
  by_cases hb : c = '\\'
  · subst hb
    rfl
  · simp [Mode.step, hq, hb, partUnindented]

/-- A character that is not indentation is read in the same way behind what was read before,
unindented or not. -/
theorem Fits.keep {fresh : Bool} {mode : Mode} {part : Text} (h : Fits fresh mode part) {c : Char}
    (hc : (fresh && isIndent c) = false) :
    ∃ out mode' part', Fits (c == '\n') mode' part' ∧
      (∀ t, lexemesFrom mode part (c :: t) = out ++ lexemesFrom mode' part' t) ∧
      ∀ t, lexemesFrom mode (partUnindented mode part) (c :: t) =
        out.map Lexeme.unindented ++ lexemesFrom mode' (partUnindented mode' part') t := by
  cases mode with
  | code =>
    by_cases hatom : isAtomChar c = true
    · refine ⟨[], .code, part ++ [c], ?_, ?_, ?_⟩
      · intro hn
        rw [beq_iff_eq.mp hn] at hatom
        exact absurd hatom (by decide)
      · intro t
        simp [lexemesFrom, hatom]
      · intro t
        simp [lexemesFrom, hatom, partUnindented]
    · refine ⟨endAtom part ++ parenLexeme c, Mode.step .code c, [], fits_step_code c, ?_, ?_⟩
      · intro t
        simp [lexemesFrom, hatom]
      · intro t
        rw [partUnindented_nil]
        simp [lexemesFrom, hatom, map_unindented_endAtom, map_unindented_parenLexeme,
          partUnindented]
  | comment =>
    by_cases hn : c = '\n'
    · subst hn
      exact ⟨[.comment part], .code, [], fun _ => rfl, fun _ => rfl, fun _ => rfl⟩
    · refine ⟨[], .comment, part ++ [c], by simpa [Fits] using hn, ?_, ?_⟩
      · intro t
        simp [lexemesFrom, hn]
      · intro t
        simp [lexemesFrom, hn, partUnindented]
  | string =>
    obtain ⟨hfresh, hpart⟩ := keep_in_string h hc
    by_cases hq : c = '"'
    · subst hq
      exact ⟨[.string part true], .code, [], fun _ => rfl, fun _ => rfl, fun _ => rfl⟩
    · refine ⟨[], Mode.step .string c, part ++ [c], fits_step_string hq hfresh, ?_, ?_⟩
      · intro t
        simp [lexemesFrom, hq]
      · intro t
        rw [partUnindented_step_string hq, hpart]
        simp [lexemesFrom, hq, partUnindented]
  | escape =>
    obtain ⟨hfresh, hpart⟩ := keep_in_string h.1 hc
    refine ⟨[], .string, part ++ [c], hfresh, fun _ => rfl, ?_⟩
    intro t
    simp [lexemesFrom, partUnindented, hpart]

/-- The lexemes of the unindented text are those of the text, unindented. -/
theorem map_unindented_lexemesFrom {fresh : Bool} {mode : Mode} {part : Text}
    (h : Fits fresh mode part) (t : Text) :
    (lexemesFrom mode part t).map Lexeme.unindented =
      lexemesFrom mode (partUnindented mode part) (unindentFrom fresh t) := by
  induction t generalizing fresh mode part with
  | nil =>
    cases mode with
    | code => exact map_unindented_endAtom part
    | comment => rfl
    | string => rfl
    | escape => rfl
  | cons c t ih =>
    by_cases hc : (fresh && isIndent c) = true
    · obtain ⟨rfl, hindent⟩ := Bool.and_eq_true_iff.mp hc
      obtain ⟨part', hread, hfits, hsame⟩ := h.skip hindent t
      rw [hread, ih hfits, hsame]
      simp [unindentFrom, hindent]
    · obtain ⟨out, mode', part', hfits, hread, hread'⟩ := h.keep (by simpa using hc)
      rw [hread, List.map_append, ih hfits]
      simp only [unindentFrom, hc, Bool.false_eq_true, if_false, hread']

theorem lexemes_unindent (t : Text) : lexemes (unindent t) = (lexemes t).map Lexeme.unindented := by
  have hfits : Fits true .code [] := fun _ => rfl
  rw [lexemes_eq_lexemesFrom, lexemes_eq_lexemesFrom]
  exact (map_unindented_lexemesFrom hfits t).symm

/-- Re-indenting keeps what a text says: its lexemes, where a string may differ in the indentation
of the lines that begin in it, and its words with their categories. -/
theorem reindent_keeps_lexemes (T : RuleTable) (t : Text) :
    let u := (reindent T t).value
    (lexemes u).map Lexeme.unindented = (lexemes t).map Lexeme.unindented ∧
      ∀ v : Vocabulary, (v.allSpans u).map (fun s => (s.text u, s.category)) =
        (v.allSpans t).map (fun s => (s.text t, s.category)) := by
  intro u
  have hu : unindent u = unindent t := unindent_reflowed T {} t
  constructor
  · rw [← lexemes_unindent, ← lexemes_unindent, hu]
  · intro v
    exact map_text_allSpans_congr v hu

end FlowEdit
