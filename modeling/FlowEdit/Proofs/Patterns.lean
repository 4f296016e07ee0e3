import FlowEdit.Proofs.Numerals
import FlowEdit.Proofs.WordLexer
import FlowEdit.Text.Space

/-!
Words and numbers by patterns. A pattern is matched by trying its alternatives one after the other
and going back where what follows fails; `Pattern.rests` has what can be left of a text behind a
match, in the order in which it is tried. A text can be matched in every way that the pattern
describes, and in no other (`Pattern.mem_rests_iff`). So a word is a numeric literal exactly if the
pattern of numbers matches all of it (`Number.isLiteral_iff_fullMatch`). The pattern of words has
five alternatives, which are tried at the end of each match. The words of a text are what the fourth
of them matches (`runs_eq_matches`), and it tells what can be a word at all
(`isWord_iff_fullMatch`).
-/

namespace FlowEdit

open Text

inductive Pattern
  | char (p : Char → Bool)
  | nothing
  | seq (a b : Pattern)
  | either (a b : Pattern)
  | many (a : Pattern)

namespace Pattern

/-- As many times as possible, then fewer. -/
def repeated (step : Text → List Text) (t : Text) : List Text :=
  (step t).flatMap (fun rest => if _h : rest.length < t.length then repeated step rest else []) ++
    [t]
termination_by t.length

/-- What can be left of a text behind a match at its beginning, the preferred match first. -/
def rests : Pattern → Text → List Text
  | .char _, [] => []
  | .char p, c :: t => if p c then [t] else []
  | .nothing, t => [t]
  | .seq a b, t => (a.rests t).flatMap b.rests
  | .either a b, t => a.rests t ++ b.rests t
  | .many a, t => repeated a.rests t

def only (c : Char) : Pattern := char (· == c)

def anyChar : Pattern := char fun _ => true

/-- The character is in one of the ranges, given by their first and last characters. -/
def inRanges (ranges : List (Char × Char)) (c : Char) : Bool :=
  isWithin (ranges.map fun r => ⟨r.1.toNat, r.2.toNat⟩) c

def oneOf (ranges : List (Char × Char)) : Pattern := char (inRanges ranges)

def optional (a : Pattern) : Pattern := either a nothing

def oneOrMore (a : Pattern) : Pattern := seq a (many a)

/-- The whole text can be matched. -/
def FullMatch (a : Pattern) (t : Text) : Prop := [] ∈ a.rests t

/-- What is left behind the preferred match. -/
def first (a : Pattern) (t : Text) : Option Text := (a.rests t).head?

/-! ## What a pattern describes -/

/-- The texts that a pattern describes. -/
def Describes : Pattern → Text → Prop
  | .char p, u => ∃ c, p c = true ∧ u = [c]
  | .nothing, u => u = []
  | .seq a b, u => ∃ v w, a.Describes v ∧ b.Describes w ∧ u = v ++ w
  | .either a b, u => a.Describes u ∨ b.Describes u
  | .many a, u => ∃ vs : List Text, (∀ v ∈ vs, a.Describes v) ∧ u = vs.flatten

theorem mem_repeated_iff {step : Text → List Text} {L : Text → Prop}
    (hstep : ∀ t r, r ∈ step t ↔ ∃ u, L u ∧ t = u ++ r) {t r : Text} :
    r ∈ repeated step t ↔ ∃ vs : List Text, (∀ v ∈ vs, L v) ∧ t = vs.flatten ++ r := by
  constructor
  · intro h
    fun_induction repeated step t with
    | case1 t ih =>
      rcases List.mem_append.mp h with hmore | hstop
      · obtain ⟨rest, hrest, hr⟩ := List.mem_flatMap.mp hmore
        split at hr
        next hlt =>
          obtain ⟨u, hu, rfl⟩ := (hstep _ _).mp hrest
          obtain ⟨vs, hvs, rfl⟩ := ih rest hlt hr
          exact ⟨u :: vs, List.forall_mem_cons.mpr ⟨hu, hvs⟩, by simp⟩
        next => cases hr
      · exact ⟨[], by simp, (List.mem_singleton.mp hstop).symm⟩
  · rintro ⟨vs, hvs, rfl⟩
    induction vs with
    | nil =>
      rw [repeated]
      exact List.mem_append_right _ (List.mem_singleton_self _)
    | cons v vs ih =>
      rw [List.forall_mem_cons] at hvs
      have hrest := ih hvs.2
      -- an empty match gets nowhere, and is left out
      cases v with
      | nil => exact hrest
      | cons c v =>
        rw [List.flatten_cons, List.append_assoc, repeated]
        have hmem := (hstep _ (vs.flatten ++ r)).mpr ⟨c :: v, hvs.1, rfl⟩
        refine List.mem_append_left _ (List.mem_flatMap.mpr ⟨_, hmem, ?_⟩)
        have hlt : (vs.flatten ++ r).length < (c :: v ++ (vs.flatten ++ r)).length := by
          rw [List.length_append, List.length_append, List.length_append, List.length_cons]
          omega
        rw [dif_pos hlt]
        exact hrest

/-- A text is matched in the ways that the pattern describes. -/
theorem mem_rests_iff {a : Pattern} {t r : Text} :
    r ∈ a.rests t ↔ ∃ u, a.Describes u ∧ t = u ++ r := by
  induction a generalizing t r with
  | char p =>
    cases t with
    | nil => simp [rests, Describes]
    | cons c t =>
      rw [rests]
      constructor
      · intro h
        split at h
        next hp => exact ⟨[c], ⟨c, hp, rfl⟩, by rw [List.mem_singleton.mp h]; rfl⟩
        next => cases h
      · rintro ⟨_, ⟨d, hd, rfl⟩, h⟩
        obtain ⟨rfl, rfl⟩ := List.cons.inj h
        simp [hd]
  | nothing => simp [rests, Describes, eq_comm]
  | seq a b iha ihb =>
    simp only [rests, List.mem_flatMap, iha, ihb, Describes]
    constructor
    · rintro ⟨_, ⟨v, hv, rfl⟩, w, hw, rfl⟩
      exact ⟨v ++ w, ⟨v, w, hv, hw, rfl⟩, by simp⟩
    · rintro ⟨_, ⟨v, w, hv, hw, rfl⟩, rfl⟩
      exact ⟨w ++ r, ⟨v, hv, by simp⟩, w, hw, rfl⟩
  | either a b iha ihb =>
    simp only [rests, List.mem_append, iha, ihb, Describes, or_and_right, exists_or]
  | many a ih =>
    rw [rests, mem_repeated_iff fun _ _ => ih]
    simp only [Describes]
    constructor
    · rintro ⟨vs, hvs, rfl⟩
      exact ⟨vs.flatten, ⟨vs, hvs, rfl⟩, rfl⟩
    · rintro ⟨_, ⟨vs, hvs, rfl⟩, rfl⟩
      exact ⟨vs, hvs, rfl⟩

theorem fullMatch_iff {a : Pattern} {t : Text} : a.FullMatch t ↔ a.Describes t := by
  rw [FullMatch, mem_rests_iff]
  simp

theorem describes_either {a b : Pattern} {u : Text} :
    (either a b).Describes u ↔ a.Describes u ∨ b.Describes u := Iff.rfl

theorem describes_only_seq {c : Char} {b : Pattern} {u : Text} :
    (seq (only c) b).Describes u ↔ ∃ w, b.Describes w ∧ u = c :: w := by
  simp [only, Describes]

theorem describes_optional {a : Pattern} {u : Text} :
    (optional a).Describes u ↔ a.Describes u ∨ u = [] := Iff.rfl

theorem describes_optional_seq {a b : Pattern} {u : Text} :
    (seq (optional a) b).Describes u ↔ (seq a b).Describes u ∨ b.Describes u := by
  constructor
  · rintro ⟨v, w, hv | rfl, hw, rfl⟩
    · exact .inl ⟨v, w, hv, hw, rfl⟩
    · exact .inr hw
  · rintro (⟨v, w, hv, hw, rfl⟩ | hw)
    · exact ⟨v, w, .inl hv, hw, rfl⟩
    · exact ⟨[], u, .inr rfl, hw, rfl⟩

theorem describes_many_char {p : Char → Bool} {u : Text} :
    (many (char p)).Describes u ↔ u.all p = true := by
  constructor
  · rintro ⟨vs, hvs, rfl⟩
    rw [List.all_eq_true]
    intro c hc
    obtain ⟨v, hv, hcv⟩ := List.mem_flatten.mp hc
    obtain ⟨d, hd, rfl⟩ := hvs v hv
    rw [List.mem_singleton.mp hcv]
    exact hd
  · intro h
    refine ⟨u.map ([·]), ?_, (List.flatMap_singleton' u).symm⟩
    intro v hv
    obtain ⟨c, hc, rfl⟩ := List.mem_map.mp hv
    exact ⟨c, List.all_eq_true.mp h c hc, rfl⟩

theorem describes_char_many {p q : Char → Bool} {u : Text} :
    (seq (char p) (many (char q))).Describes u ↔
      ∃ c w, u = c :: w ∧ p c = true ∧ w.all q = true := by
  constructor
  · rintro ⟨_, w, ⟨c, hc, rfl⟩, hw, rfl⟩
    exact ⟨c, w, rfl, hc, describes_many_char.mp hw⟩
  · rintro ⟨c, w, rfl, hc, hw⟩
    exact ⟨[c], w, ⟨c, hc, rfl⟩, describes_many_char.mpr hw, rfl⟩

/-! ## The preferred match -/

theorem first_char (p : Char → Bool) (c : Char) (t : Text) :
    (char p).first (c :: t) = if p c then some t else none := by
  unfold first
  rw [rests]
  split <;> rfl

theorem first_only (c : Char) (t : Text) : (only c).first (c :: t) = some t := by
  simp [only, first_char]

theorem first_only_of_ne {c d : Char} (h : d ≠ c) (t : Text) : (only c).first (d :: t) = none := by
  simp [only, first_char, h]

theorem first_either (a b : Pattern) (t : Text) :
    (either a b).first t = (a.first t).or (b.first t) := List.head?_append

theorem first_seq {a b : Pattern} {t r r' : Text} (ha : a.first t = some r)
    (hb : b.first r = some r') : (seq a b).first t = some r' := by
  unfold first at ha hb ⊢
  obtain ⟨rs, hrs⟩ := List.head?_eq_some_iff.mp ha
  rw [rests, hrs, List.flatMap_cons, List.head?_append, hb]
  rfl

theorem first_seq_eq_none {a : Pattern} {t : Text} (ha : a.first t = none) (b : Pattern) :
    (seq a b).first t = none := by
  unfold first at ha ⊢
  rw [rests, List.head?_eq_none_iff.mp ha]
  rfl

theorem exists_first_many (a : Pattern) (t : Text) : ∃ r, (many a).first t = some r := by
  unfold first
  rw [rests, repeated, List.head?_append]
  cases List.head? _ with
  | none => exact ⟨t, rfl⟩
  | some r => exact ⟨r, rfl⟩

theorem first_many_of_eq_none {a : Pattern} {t : Text} (h : a.first t = none) :
    (many a).first t = some t := by
  unfold first at h ⊢
  rw [rests, repeated, List.head?_eq_none_iff.mp h]
  rfl

/-- One more time, if that gets anywhere. -/
theorem first_many_of_eq_some {a : Pattern} {t r : Text} (h : a.first t = some r)
    (hlt : r.length < t.length) : (many a).first t = (many a).first r := by
  obtain ⟨r', hr'⟩ := exists_first_many a r
  rw [hr']
  unfold first at h hr' ⊢
  obtain ⟨rs, hrs⟩ := List.head?_eq_some_iff.mp h
  rw [rests] at hr' ⊢
  rw [repeated, hrs, List.flatMap_cons, dif_pos hlt, List.append_assoc, List.head?_append, hr']
  rfl

theorem first_many_char (p : Char → Bool) (t : Text) :
    (many (char p)).first t = some (t.dropWhile p) := by
  induction t with
  | nil => exact first_many_of_eq_none rfl
  | cons c t ih =>
    have hfirst := first_char p c t
    by_cases hc : p c = true
    · rw [if_pos hc] at hfirst
      rw [first_many_of_eq_some hfirst (by simp), ih, List.dropWhile_cons_of_pos hc]
    · rw [if_neg hc] at hfirst
      rw [first_many_of_eq_none hfirst, List.dropWhile_cons_of_neg hc]

theorem first_oneOrMore_char (p : Char → Bool) (c : Char) (t : Text) :
    (oneOrMore (char p)).first (c :: t) = if p c then some (t.dropWhile p) else none := by
  have hfirst := first_char p c t
  split
  next hc => exact first_seq (hfirst.trans (if_pos hc)) (first_many_char p t)
  next hc => exact first_seq_eq_none (hfirst.trans (if_neg hc)) _

end Pattern

/-! ## Numbers -/

namespace Number

open Pattern

/-- `0x[1-9A-Fa-f][0-9A-Fa-f]*`, or else `0?[1-9][0-9]*`. -/
def groupPattern : Pattern :=
  either
    (seq (only '0') (seq (only 'x') (seq (oneOf [('1', '9'), ('A', 'F'), ('a', 'f')])
      (many (oneOf [('0', '9'), ('A', 'F'), ('a', 'f')])))))
    (seq (optional (only '0')) (seq (oneOf [('1', '9')]) (many (oneOf [('0', '9')]))))

/-- `[-+]?`, a group, and a slash and a second group if there is one. -/
def pattern : Pattern :=
  seq (optional (char ['-', '+'].contains))
    (seq groupPattern (optional (seq (only '/') groupPattern)))

/-! ### Groups of digits -/

theorem inRanges_iff {ranges : List (Char × Char)} {c : Char} :
    inRanges ranges c = true ↔ ∃ r ∈ ranges, r.1.toNat ≤ c.toNat ∧ c.toNat ≤ r.2.toNat := by
  simp [inRanges, isWithin, CharRange.contains]

theorem isHexDigit_iff_toNat {c : Char} :
    isHexDigit c = true ↔ 48 ≤ c.toNat ∧ c.toNat ≤ 57 ∨ 97 ≤ c.toNat ∧ c.toNat ≤ 102 ∨
      65 ≤ c.toNat ∧ c.toNat ≤ 70 := by
  rw [isHexDigit, Bool.or_assoc, Bool.or_eq_true, Char.isDigit_iff_toNat, Bool.or_eq_true,
    Bool.and_eq_true, Bool.and_eq_true, decide_eq_true_eq, decide_eq_true_eq, decide_eq_true_eq,
    decide_eq_true_eq]
  rfl

theorem inRanges_digit (c : Char) : inRanges [('0', '9')] c = c.isDigit := by
  rw [Bool.eq_iff_iff, inRanges_iff, Char.isDigit_iff_toNat]
  simp

theorem inRanges_hexDigit (c : Char) :
    inRanges [('0', '9'), ('A', 'F'), ('a', 'f')] c = isHexDigit c := by
  rw [Bool.eq_iff_iff, inRanges_iff, isHexDigit_iff_toNat]
  simp only [List.mem_cons, List.not_mem_nil, or_false, exists_eq_or_imp, exists_eq_left,
    Char.reduceToNat]
  omega

theorem inRanges_positiveDigit (c : Char) :
    inRanges [('1', '9')] c = (c != '0' && c.isDigit) := by
  rw [Bool.eq_iff_iff, inRanges_iff, Bool.and_eq_true, bne_iff_ne, Char.isDigit_iff_toNat, Ne,
    ← Char.toNat_inj]
  simp only [List.mem_cons, List.not_mem_nil, or_false, exists_eq_left, Char.reduceToNat]
  omega

theorem inRanges_positiveHexDigit (c : Char) :
    inRanges [('1', '9'), ('A', 'F'), ('a', 'f')] c = (c != '0' && isHexDigit c) := by
  rw [Bool.eq_iff_iff, inRanges_iff, Bool.and_eq_true, bne_iff_ne, isHexDigit_iff_toNat, Ne,
    ← Char.toNat_inj]
  simp only [List.mem_cons, List.not_mem_nil, or_false, exists_eq_or_imp, exists_eq_left,
    Char.reduceToNat]
  omega

/-- A digit that is not `0`, and digits. -/
theorem describes_digits {positive all : List (Char × Char)} {isDigit : Char → Bool}
    (hpositive : ∀ c, inRanges positive c = (c != '0' && isDigit c))
    (hall : ∀ c, inRanges all c = isDigit c) {u : Text} :
    (seq (oneOf positive) (many (oneOf all))).Describes u ↔ isPositive isDigit u = true := by
  rw [oneOf, oneOf, describes_char_many, isPositive_iff, funext hall]
  simp only [hpositive, Bool.and_eq_true, bne_iff_ne, List.all_cons, and_assoc]

theorem isGroup_iff {u : Text} :
    isGroup u = true ↔ ∃ r : Radix, ∃ ds, isPositive r.isDigit ds = true ∧ u = r.mark ++ ds := by
  constructor
  · intro h
    rw [isGroup_eq] at h
    exact ⟨_, _, h, (mark_append_digitsOf u).symm⟩
  · rintro ⟨r, ds, hds, rfl⟩
    obtain ⟨d, ds, rfl, hd, hall⟩ := isPositive_iff.mp hds
    exact DigitGroup.isGroup_text ⟨r, d, ds, hd, hall⟩

theorem describes_groupPattern {u : Text} : groupPattern.Describes u ↔ isGroup u = true := by
  simp only [groupPattern, describes_either, describes_only_seq, describes_optional_seq,
    describes_digits inRanges_positiveHexDigit inRanges_hexDigit,
    describes_digits inRanges_positiveDigit inRanges_digit, isGroup_iff]
  constructor
  · rintro (⟨_, ⟨ds, hds, rfl⟩, rfl⟩ | ⟨ds, hds, rfl⟩ | hds)
    · exact ⟨.hexadecimal, ds, hds, rfl⟩
    · exact ⟨.zeroDecimal, ds, hds, rfl⟩
    · exact ⟨.decimal, u, hds, rfl⟩
  · rintro ⟨r, ds, hds, rfl⟩
    cases r with
    | hexadecimal => exact .inl ⟨_, ⟨ds, hds, rfl⟩, rfl⟩
    | decimal => exact .inr (.inr hds)
    | zeroDecimal => exact .inr (.inl ⟨ds, hds, rfl⟩)

/-! ### Literals -/

theorem describes_sign {u : Text} :
    (optional (char ['-', '+'].contains)).Describes u ↔ ∃ s : Sign, u = s.text := by
  rw [describes_optional]
  constructor
  · rintro (⟨c, hc, rfl⟩ | rfl)
    · obtain rfl | rfl : c = '-' ∨ c = '+' := by simpa using hc
      · exact ⟨.minus, rfl⟩
      · exact ⟨.plus, rfl⟩
    · exact ⟨.absent, rfl⟩
  · rintro ⟨s, rfl⟩
    cases s with
    | absent => exact .inr rfl
    | plus => exact .inl ⟨'+', rfl, rfl⟩
    | minus => exact .inl ⟨'-', rfl, rfl⟩

theorem text_fraction (s : Sign) (g d : DigitGroup) :
    Numeral.text ⟨s, g, some d⟩ = s.text ++ (g.text ++ '/' :: d.text) := by
  simp [Numeral.text, Numeral.groups, List.intercalate]

theorem describes_pattern {w : Text} : pattern.Describes w ↔ ∃ n : Numeral, n.text = w := by
  constructor
  · rintro ⟨_, _, hsign, ⟨u, v, hu, hv, rfl⟩, rfl⟩
    obtain ⟨s, rfl⟩ := describes_sign.mp hsign
    obtain ⟨g, rfl⟩ := exists_group (describes_groupPattern.mp hu)
    rcases describes_optional.mp hv with hslash | rfl
    · obtain ⟨x, hx, rfl⟩ := describes_only_seq.mp hslash
      obtain ⟨d, rfl⟩ := exists_group (describes_groupPattern.mp hx)
      exact ⟨⟨s, g, some d⟩, text_fraction s g d⟩
    · exact ⟨⟨s, g, none⟩, rfl⟩
  · rintro ⟨⟨s, g, d⟩, rfl⟩
    have hgroup : ∀ g : DigitGroup, groupPattern.Describes g.text := fun g =>
      describes_groupPattern.mpr g.isGroup_text
    have hsign := describes_sign.mpr ⟨s, rfl⟩
    cases d with
    | none => exact ⟨s.text, _, hsign, ⟨g.text, [], hgroup g, .inr rfl, rfl⟩, rfl⟩
    | some d =>
      have hslash : (seq (only '/') groupPattern).Describes ('/' :: d.text) :=
        describes_only_seq.mpr ⟨d.text, hgroup d, rfl⟩
      exact ⟨s.text, _, hsign, ⟨g.text, _, hgroup g, .inl hslash, rfl⟩, text_fraction s g d⟩

/-- A word is a numeric literal if the pattern matches all of it. -/
theorem isLiteral_iff_fullMatch {w : Text} : isLiteral w = true ↔ pattern.FullMatch w := by
  rw [isLiteral_iff, fullMatch_iff, describes_pattern]

end Number

/-! ## Words -/

open Pattern

/-- The alternatives of the pattern of words. -/
inductive PieceKind
  | space
  | comment
  | string
  | word
  | other
  deriving DecidableEq, Repr

/-- An escaped character, or one that is neither backslash nor quote. -/
def bodyPiece : Pattern :=
  either (seq (only '\\') anyChar) (char fun c => c != '\\' && c != '"')

def PieceKind.pattern : PieceKind → Pattern
  | .space => oneOrMore (char isSpace)
  | .comment => seq (only ';') (many (char (· != '\n')))
  | .string => seq (only '"') (seq (many bodyPiece) (optional (only '"')))
  | .word => oneOrMore (char isWordChar)
  | .other => anyChar

/-- In the order in which they are tried. -/
def PieceKind.all : List PieceKind := [.space, .comment, .string, .word, .other]

/-- The first alternative with a match, and what is left behind the match. -/
def scanAt (t : Text) : Option (PieceKind × Text) :=
  PieceKind.all.findSome? fun kind => (kind.pattern.first t).map (kind, ·)

structure Match where
  kind : PieceKind
  start : Nat
  text : Text
  deriving DecidableEq, Repr

/-- The matches in a text that begins at `offset`. There is one at each place but the end, since the
last alternative matches any character, and none is empty; so they come one behind the other. -/
def matchesFrom (offset : Nat) (t : Text) : List Match :=
  match scanAt t with
  | none => []
  | some (kind, rest) =>
    if _h : rest.length < t.length then
      ⟨kind, offset, t.take (t.length - rest.length)⟩ ::
        matchesFrom (offset + (t.length - rest.length)) rest
    else []
termination_by t.length

def Match.run? (m : Match) : Option Run :=
  if m.kind = .word then some ⟨m.start, m.text⟩ else none

/-- The words that a vocabulary can have are those that the fourth alternative matches in full. -/
theorem isWord_iff_fullMatch {w : Text} : isWord w = true ↔ PieceKind.word.pattern.FullMatch w := by
  rw [fullMatch_iff, PieceKind.pattern, oneOrMore, describes_char_many]
  cases w with
  | nil => simp [isWord]
  | cons c w => simp [isWord]

/-! ### The alternatives -/

theorem first_space (c : Char) (t : Text) :
    PieceKind.space.pattern.first (c :: t) =
      if isSpace c then some (t.dropWhile isSpace) else none :=
  first_oneOrMore_char isSpace c t

theorem first_comment (t : Text) :
    PieceKind.comment.pattern.first (';' :: t) = some (t.dropWhile (· != '\n')) :=
  first_seq (first_only ';' t) (first_many_char _ t)

theorem first_word (c : Char) (t : Text) :
    PieceKind.word.pattern.first (c :: t) =
      if isWordChar c then some (t.dropWhile isWordChar) else none :=
  first_oneOrMore_char isWordChar c t

/-- The pieces of the body of a string are taken as long as there are any. -/
theorem first_bodyPieces {t : Text} (ht : bodyPiece.first t = none) :
    ∀ {b : Text}, isStringBody false b = true → (many bodyPiece).first (b ++ t) = some t
  | [], _ => first_many_of_eq_none ht
  | c :: b, hb => by
    by_cases hc : c = '\\'
    · subst hc
      cases b with
      | nil => cases hb
      | cons d b =>
        have hpiece : bodyPiece.first ('\\' :: d :: (b ++ t)) = some (b ++ t) := rfl
        have hlt : (b ++ t).length < ('\\' :: d :: (b ++ t)).length := by
          rw [List.length_cons, List.length_cons]
          omega
        rw [List.cons_append, List.cons_append, first_many_of_eq_some hpiece hlt]
        exact first_bodyPieces ht hb
    · have hbody : c ≠ '"' ∧ isStringBody false b = true := by
        simpa [isStringBody, hc] using hb
      have hpiece : bodyPiece.first (c :: (b ++ t)) = some (b ++ t) := by
        rw [bodyPiece, first_either, first_seq_eq_none (first_only_of_ne hc _), first_char]
        simp [hc, hbody.1]
      rw [List.cons_append, first_many_of_eq_some hpiece (by simp)]
      exact first_bodyPieces ht hbody.2

/-! ### One match -/

/-- The text begins with a match `u` of this kind, and `rest` is behind it. The words of the text
are the match, if it is one, and the words of the rest. -/
structure Scanned (t : Text) (kind : PieceKind) (u rest : Text) : Prop where
  text : t = u ++ rest
  ne_nil : u ≠ []
  scan : scanAt t = some (kind, rest)
  runs : ∀ i, runsFrom .code i [] t =
    (Match.run? ⟨kind, i, u⟩).toList ++ runsFrom .code (i + u.length) [] rest

theorem isWordChar_of_isSpace {c : Char} (h : isSpace c = true) : isWordChar c = false := by
  have hascii : ∀ n < 128, isSpace (Char.ofNat n) = true → isWordChar (Char.ofNat n) = false := by
    decide
  by_contra hword
  have hlt := toNat_lt_of_isWordChar (Bool.of_not_eq_false hword)
  have hc := hascii c.toNat hlt
  rw [Char.ofNat_toNat] at hc
  exact hword (hc h)

theorem runsFrom_space {c : Char} (h : isSpace c = true) (i : Nat) (t : Text) :
    runsFrom .code i [] (c :: t) = runsFrom .code (i + 1) [] t := by
  have hquote : c ≠ '"' := by rintro rfl; exact absurd h (by decide)
  have hsemi : c ≠ ';' := by rintro rfl; exact absurd h (by decide)
  rw [runsFrom_skip (by simp [isWordChar_of_isSpace h]),
    Mode.step_eq_code_iff.mpr (.inl ⟨rfl, hquote, hsemi⟩)]

theorem runsFrom_dropWhile_isSpace (i : Nat) (t : Text) :
    runsFrom .code i [] t =
      runsFrom .code (i + (t.takeWhile isSpace).length) [] (t.dropWhile isSpace) := by
  induction t generalizing i with
  | nil => rfl
  | cons c t ih =>
    by_cases hc : isSpace c = true
    · rw [runsFrom_space hc, ih, List.takeWhile_cons_of_pos hc, List.dropWhile_cons_of_pos hc,
        List.length_cons, Nat.add_assoc, Nat.add_comm 1]
    · rw [List.takeWhile_cons_of_neg hc, List.dropWhile_cons_of_neg hc]
      rfl

theorem scanned_space {c : Char} (hc : isSpace c = true) (t : Text) :
    Scanned (c :: t) .space (c :: t.takeWhile isSpace) (t.dropWhile isSpace) := by
  refine ⟨by simp, by simp, ?_, fun i => ?_⟩
  · simp [scanAt, PieceKind.all, first_space, hc]
  · rw [runsFrom_space hc, runsFrom_dropWhile_isSpace, List.length_cons, Nat.add_assoc,
      Nat.add_comm 1]
    rfl

theorem scanned_comment (t : Text) :
    Scanned (';' :: t) .comment (';' :: upToChar '\n' t) (t.dropWhile (· != '\n')) := by
  refine ⟨by simp [upToChar], by simp, ?_, fun i => ?_⟩
  · have hspace : PieceKind.space.pattern.first (';' :: t) = none := first_space ';' t
    simp [scanAt, PieceKind.all, hspace, first_comment]
  · rw [runsFrom_skip (by decide), List.length_cons]
    show runsFrom .comment _ _ _ = _
    rw [runsFrom_comment, Nat.add_assoc, Nat.add_comm 1]
    rfl

/-- A string ends with `q`, which is its closing quote or nothing. -/
theorem scanned_string {b q rest : Text} (hb : isStringBody false b = true)
    (hend : bodyPiece.first (q ++ rest) = none)
    (hquote : (optional (only '"')).first (q ++ rest) = some rest)
    (hread : ∀ i, runsFrom .string i [] (q ++ rest) = runsFrom .code (i + q.length) [] rest) :
    Scanned ('"' :: (b ++ (q ++ rest))) .string ('"' :: (b ++ q)) rest := by
  refine ⟨by simp, by simp, ?_, fun i => ?_⟩
  · have hspace : PieceKind.space.pattern.first ('"' :: (b ++ (q ++ rest))) = none :=
      first_space '"' _
    have hcomment : PieceKind.comment.pattern.first ('"' :: (b ++ (q ++ rest))) = none :=
      first_seq_eq_none (first_only_of_ne (by decide) _) _
    have hstring : PieceKind.string.pattern.first ('"' :: (b ++ (q ++ rest))) = some rest :=
      first_seq (first_only '"' _) (first_seq (first_bodyPieces hend hb) hquote)
    simp [scanAt, PieceKind.all, hspace, hcomment, hstring]
  · rw [runsFrom_skip (by decide)]
    show runsFrom (bodyMode false) _ _ _ = _
    rw [runsFrom_isStringBody hb, hread, List.length_cons, List.length_append]
    show _ = runsFrom _ _ _ _
    congr 1
    omega

/-- In front of neither space, comment nor string. -/
theorem scanAt_atom {c : Char} (hspace : isSpace c = false) (hsemi : c ≠ ';') (hquote : c ≠ '"')
    (t : Text) :
    scanAt (c :: t) =
      some (if isWordChar c then (.word, t.dropWhile isWordChar) else (.other, t)) := by
  have hspace' : PieceKind.space.pattern.first (c :: t) = none := by
    rw [first_space, hspace]
    rfl
  have hcomment : PieceKind.comment.pattern.first (c :: t) = none :=
    first_seq_eq_none (first_only_of_ne hsemi t) _
  have hstring : PieceKind.string.pattern.first (c :: t) = none :=
    first_seq_eq_none (first_only_of_ne hquote t) _
  have hother : PieceKind.other.pattern.first (c :: t) = some t := rfl
  by_cases hword : isWordChar c = true <;>
    simp [scanAt, PieceKind.all, hspace', hcomment, hstring, first_word, hother, hword]

theorem scanned_word {c : Char} (hc : isWordChar c = true) (t : Text) :
    Scanned (c :: t) .word (c :: t.takeWhile isWordChar) (t.dropWhile isWordChar) := by
  have hspace : isSpace c = false := by
    by_contra hspace
    rw [isWordChar_of_isSpace (Bool.of_not_eq_false hspace)] at hc
    cases hc
  have hsemi : c ≠ ';' := by rintro rfl; exact absurd hc (by decide)
  have hquote : c ≠ '"' := by rintro rfl; exact absurd hc (by decide)
  refine ⟨by simp, by simp, ?_, fun i => ?_⟩
  · rw [scanAt_atom hspace hsemi hquote, if_pos hc]
  · rw [runsFrom_cons_word hc, List.length_cons, Nat.add_assoc, Nat.add_comm 1]
    rfl

theorem scanned_other {c : Char} (hspace : isSpace c = false) (hsemi : c ≠ ';') (hquote : c ≠ '"')
    (hword : isWordChar c = false) (t : Text) : Scanned (c :: t) .other [c] t := by
  refine ⟨rfl, by simp, ?_, fun i => ?_⟩
  · rw [scanAt_atom hspace hsemi hquote, hword]
    rfl
  · rw [runsFrom_skip (by simp [hword]), Mode.step_eq_code_iff.mpr (.inl ⟨rfl, hquote, hsemi⟩)]
    rfl

theorem exists_scanned (c : Char) (t : Text) : ∃ kind u rest, Scanned (c :: t) kind u rest := by
  by_cases hspace : isSpace c = true
  · exact ⟨_, _, _, scanned_space hspace t⟩
  by_cases hsemi : c = ';'
  · subst hsemi
    exact ⟨_, _, _, scanned_comment t⟩
  by_cases hquote : c = '"'
  · subst hquote
    cases quoteSearch t with
    | closed body rest isBody text found =>
      subst text
      exact ⟨_, _, _, scanned_string (q := ['"']) isBody rfl rfl fun i => rfl⟩
    | unclosed body isBody text found =>
      rcases text with rfl | rfl
      · have hstring : Scanned ('"' :: (t ++ ([] ++ []))) .string ('"' :: (t ++ [])) [] :=
          scanned_string isBody rfl rfl fun i => rfl
        rw [List.append_nil, List.append_nil] at hstring
        exact ⟨_, _, _, hstring⟩
      · exact ⟨_, _, _, scanned_string (q := []) isBody rfl rfl fun i => rfl⟩
  by_cases hword : isWordChar c = true
  · exact ⟨_, _, _, scanned_word hword t⟩
  · rw [Bool.not_eq_true] at hspace hword
    exact ⟨_, _, _, scanned_other hspace hsemi hquote hword t⟩

/-! ### All matches -/

theorem Scanned.matchesFrom_eq {t u rest : Text} {kind : PieceKind} (h : Scanned t kind u rest)
    (i : Nat) : matchesFrom i t = ⟨kind, i, u⟩ :: matchesFrom (i + u.length) rest := by
  have hlength : t.length = u.length + rest.length := by rw [h.text, List.length_append]
  have hpos : 0 < u.length := List.length_pos_iff.mpr h.ne_nil
  have hu : t.length - rest.length = u.length := by omega
  have htake : t.take u.length = u := by rw [h.text, List.take_left]
  rw [matchesFrom, h.scan]
  simp only [hu, htake]
  rw [dif_pos (by omega)]

theorem runsFrom_eq_matchesFrom (i : Nat) (t : Text) :
    runsFrom .code i [] t = (matchesFrom i t).filterMap Match.run? := by
  induction hn : t.length using Nat.strongRecOn generalizing i t with
  | ind n ih =>
    cases t with
    | nil =>
      have hscan : scanAt [] = none := rfl
      rw [matchesFrom, hscan]
      rfl
    | cons c t =>
      obtain ⟨kind, u, rest, h⟩ := exists_scanned c t
      have hlt : rest.length < n := by
        have hlength := congrArg List.length h.text
        have hpos := List.length_pos_iff.mpr h.ne_nil
        rw [List.length_append] at hlength
        omega
      rw [h.runs, ih _ hlt _ _ rfl, h.matchesFrom_eq]
      cases hrun : Match.run? ⟨kind, i, u⟩ with
      | none => rw [List.filterMap_cons_none hrun]; rfl
      | some r => rw [List.filterMap_cons_some hrun]; rfl

/-- The words of a text are the matches of the fourth alternative. -/
theorem runs_eq_matches (t : Text) (start : Nat) :
    runs t start = (matchesFrom start (t.drop start)).filterMap Match.run? :=
  runsFrom_eq_matchesFrom start (t.drop start)

end FlowEdit
