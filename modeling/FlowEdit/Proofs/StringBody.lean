import Mathlib.Data.List.Induction
import FlowEdit.Proofs.Lexeme

/-!
The bodies of string literals, as what stands between two quotes: pairs of a backslash and any
character, and other characters. Reading in modes and looking for the closing quote agree on them:
the quote is found behind a body (`quoteSearch`), and a text ends behind a backslash that
escapes nothing exactly if it ends with an opening quote, a body and that backslash
(`run_eq_escape_iff`).
-/

namespace FlowEdit

open Text

/-- Pairs of a backslash and any character, and characters that are neither backslash nor quote.
The text begins behind the backslash of a pair if `escaped`. -/
def isStringBody (escaped : Bool) : Text → Bool
  | [] => !escaped
  | c :: t =>
    if escaped then isStringBody false t
    else if c = '\\' then isStringBody true t
    else c != '"' && isStringBody false t

/-- The mode inside a body. -/
def bodyMode (escaped : Bool) : Mode := if escaped then .escape else .string

theorem inString_bodyMode (escaped : Bool) : (bodyMode escaped).inString = true := by
  cases escaped <;> rfl

/-- One character of a body. -/
theorem step_bodyMode {escaped : Bool} {c : Char} {t : Text}
    (h : isStringBody escaped (c :: t) = true) :
    ∃ k, isStringBody k t = true ∧ (bodyMode escaped).step c = bodyMode k ∧
      (escaped = false → c ≠ '"') := by
  rw [isStringBody] at h
  cases escaped with
  | true => exact ⟨false, by simpa using h, rfl, by simp⟩
  | false =>
    by_cases hb : c = '\\'
    · subst hb
      exact ⟨true, by simpa using h, rfl, by decide⟩
    · simp only [Bool.false_eq_true, if_false, hb, Bool.and_eq_true, bne_iff_ne] at h
      exact ⟨false, h.2, by simp [bodyMode, Mode.step, hb, h.1], fun _ => h.1⟩

theorem isStringBody_append {escaped : Bool} {b : Text} (h : isStringBody escaped b = true)
    (t : Text) : isStringBody escaped (b ++ t) = isStringBody false t := by
  induction b generalizing escaped with
  | nil =>
    obtain rfl : escaped = false := by simpa [isStringBody] using h
    rfl
  | cons c b ih =>
    rw [isStringBody] at h
    rw [List.cons_append, isStringBody]
    cases escaped with
    | true =>
      simp only [if_true] at h ⊢
      exact ih h
    | false =>
      simp only [Bool.false_eq_true, if_false] at h ⊢
      by_cases hb : c = '\\'
      · simp only [hb, if_true] at h ⊢
        exact ih h
      · simp only [hb, if_false, Bool.and_eq_true] at h ⊢
        rw [h.1, Bool.true_and, ih h.2]

theorem Mode.run_isStringBody {escaped : Bool} {b : Text} (h : isStringBody escaped b = true) :
    (bodyMode escaped).run b = .string := by
  induction b generalizing escaped with
  | nil =>
    obtain rfl : escaped = false := by simpa [isStringBody] using h
    rfl
  | cons c b ih =>
    obtain ⟨k, hk, hstep, -⟩ := step_bodyMode h
    rw [Mode.run_cons, hstep, ih hk]

/-! ## The closing quote -/

/-- What the search for the closing quote says of the text behind an opening one. The quote stands
behind a body. Without one, the text is a body, or a body and a backslash that escapes nothing. -/
inductive QuoteSearch (t : Text) : Prop
  | closed (body rest : Text) (isBody : isStringBody false body = true)
      (text : t = body ++ '"' :: rest)
      (found : closingQuote t t.length = .ok (some (body.length + 1)))
  | unclosed (body : Text) (isBody : isStringBody false body = true)
      (text : t = body ∨ t = body ++ ['\\'])
      (found : closingQuote t t.length = .ok none)

/-- A piece of a body in front. -/
theorem QuoteSearch.append {w t : Text} (h : QuoteSearch t)
    (hw : ∀ b, isStringBody false b = true → isStringBody false (w ++ b) = true)
    (hq : closingQuote (w ++ t) (w ++ t).length =
      (closingQuote t t.length).map (Option.map (· + w.length))) : QuoteSearch (w ++ t) := by
  cases h with
  | closed body rest isBody text found =>
    refine .closed (w ++ body) rest (hw body isBody) (by rw [text, List.append_assoc]) ?_
    rw [hq, found, List.length_append]
    simp only [Except.map, Option.map_some]
    congr 2
    omega
  | unclosed body isBody text found =>
    refine .unclosed (w ++ body) (hw body isBody) ?_ (by rw [hq, found]; rfl)
    rcases text with rfl | rfl
    · exact .inl rfl
    · exact .inr (by simp)

theorem quoteSearch : ∀ t : Text, QuoteSearch t
  | [] => .unclosed [] rfl (.inl rfl) (by simp [closingQuote])
  | c :: t => by
    by_cases hq : c = '"'
    · subst hq
      exact .closed [] t rfl rfl (closingQuote_quote t)
    · by_cases hb : c = '\\'
      · subst hb
        cases t with
        | nil => exact .unclosed [] rfl (.inr rfl) (by simp [closingQuote])
        | cons d t =>
          exact (quoteSearch t).append (w := ['\\', d]) (fun _ hb => hb) (closingQuote_escape d t)
      · refine (quoteSearch t).append (w := [c]) (fun b hbody => ?_) (closingQuote_other hq hb t)
        simp [isStringBody, hq, hb, hbody]

/-! ## Offsets -/

/-- Offset just past the string that opens at `i`, if it is closed. -/
def stringStop (t : Text) (i : Nat) : Option Nat :=
  match closingQuote (t.drop (i + 1)) (t.drop (i + 1)).length with
  | .ok (some k) => some (i + 1 + k)
  | _ => none

theorem lt_of_stringStop {t : Text} {i j : Nat} (h : stringStop t i = some j) : i < j := by
  unfold stringStop at h
  split at h
  next k _ =>
    have := Option.some.inj h
    omega
  next => simp at h

/-- The end of a string, as it is asked for by offsets that are indices. -/
theorem stringEnd_length {t : Text} {i : Nat} (hi : isIndex (i + 1) = true) :
    t.stringEnd i t.length = .ok ((stringStop t i).map Int.ofNat) := by
  unfold stringEnd
  by_cases hlimit : (t.length : Int) ≤ (i : Int) + 1
  · have hdrop : t.drop (i + 1) = [] := by
      rw [List.drop_eq_nil_iff]
      omega
    simp [hlimit, stringStop, hdrop, closingQuote]
  · have hbudget : ((t.length : Int) - ((i : Int) + 1)).toNat = (t.drop (i + 1)).length := by
      rw [List.length_drop]
      omega
    have hread : readFrom t ((i : Int) + 1) = .ok (t.drop (i + 1)) := by
      have hnonneg : (0 : Int) ≤ (i : Int) + 1 := by omega
      simp only [readFrom, hnonneg, if_true]
      congr 1
    simp only [hlimit, if_false, hi, hread, Bool.not_true, Bool.false_eq_true, bind, Except.bind,
      hbudget, stringStop]
    cases quoteSearch (t.drop (i + 1)) with
    | closed body rest isBody text found =>
      rw [found]
      simp [pure, Except.pure]
    | unclosed body isBody text found =>
      rw [found]
      rfl

/-! ## A backslash at the end -/

theorem Mode.step_eq_string_iff {m : Mode} {c : Char} :
    m.step c = .string ↔
      m = .code ∧ c = '"' ∨ m = .string ∧ c ≠ '\\' ∧ c ≠ '"' ∨ m = .escape := by
  fun_cases Mode.step m c <;> simp_all

/-- In front of a place inside a string there are an opening quote and a body, and a backslash if
the place is behind one that escapes. -/
theorem exists_body_of_run_eq {t : Text} {escaped : Bool} (h : Mode.code.run t = bodyMode escaped) :
    ∃ a b, t = a ++ '"' :: (b ++ if escaped then ['\\'] else []) ∧ Mode.code.run a = .code ∧
      isStringBody false b = true := by
  induction t using List.reverseRecOn generalizing escaped with
  | nil => cases escaped <;> cases h
  | append_singleton t c ih =>
    rw [Mode.run_append] at h
    cases escaped with
    | true =>
      obtain ⟨hstring, rfl⟩ := Mode.step_eq_escape_iff.mp h
      obtain ⟨a, b, rfl, ha, hb⟩ := ih (show _ = bodyMode false from hstring)
      exact ⟨a, b, by simp, ha, hb⟩
    | false =>
      rcases Mode.step_eq_string_iff.mp h with ⟨hcode, rfl⟩ | ⟨hstring, hback, hquote⟩ | hescape
      · exact ⟨t, [], by simp, hcode, rfl⟩
      · obtain ⟨a, b, rfl, ha, hb⟩ := ih (show _ = bodyMode false from hstring)
        refine ⟨a, b ++ [c], by simp, ha, ?_⟩
        rw [isStringBody_append hb]
        simp [isStringBody, hback, hquote]
      · obtain ⟨a, b, rfl, ha, hb⟩ := ih (show _ = bodyMode true from hescape)
        refine ⟨a, b ++ ['\\', c], by simp, ha, ?_⟩
        rw [isStringBody_append hb]
        rfl

/-- A text ends behind a backslash that escapes nothing if it ends with an opening quote in code, a
body and the backslash. -/
theorem run_eq_escape_iff {t : Text} :
    Mode.code.run t = .escape ↔ ∃ a b, t = a ++ '"' :: (b ++ ['\\']) ∧ Mode.code.run a = .code ∧
      isStringBody false b = true := by
  constructor
  · intro h
    exact exists_body_of_run_eq (show _ = bodyMode true from h)
  · rintro ⟨a, b, rfl, ha, hb⟩
    have hbody : Mode.string.run b = .string := Mode.run_isStringBody hb
    rw [Mode.run_append, ha, Mode.run_cons]
    show Mode.string.run (b ++ ['\\']) = .escape
    rw [Mode.run_append, hbody]
    rfl

end FlowEdit
