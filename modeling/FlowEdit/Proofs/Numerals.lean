import Mathlib.Algebra.Order.Field.Rat
import FlowEdit.Proofs.Lines
import FlowEdit.Word.Category

/-!
Numeric literals and what they denote. A literal is taken apart into a sign and one or two groups of
digits (`Numeral`), and its text determines the parts (`Numeral.text_injective`). The words that are
recognised as numbers are the texts of numerals (`isLiteral_iff`). The first digit of a group is not
`0`, so a group denotes no zero (`DigitGroup.value_pos`). Main statement:
`Vocabulary.classify_number_grammar`.
-/

namespace FlowEdit

namespace Number

open Text

/-! ## Numerals -/

/-- How the digits of a group are to be read. -/
inductive Radix
  | hexadecimal
  | decimal
  | zeroDecimal
  deriving DecidableEq, Repr

namespace Radix

/-- What stands in front of the digits. -/
def mark : Radix → Text
  | .hexadecimal => ['0', 'x']
  | .decimal => []
  | .zeroDecimal => ['0']

def base : Radix → Nat
  | .hexadecimal => 16
  | .decimal | .zeroDecimal => 10

def isDigit : Radix → Char → Bool
  | .hexadecimal => isHexDigit
  | .decimal | .zeroDecimal => Char.isDigit

theorem isHexDigit_of_isDigit {r : Radix} {c : Char} (h : r.isDigit c = true) :
    isHexDigit c = true := by
  cases r with
  | hexadecimal => exact h
  | decimal | zeroDecimal => simp_all [isHexDigit, isDigit]

end Radix

/-- A group of digits, the first of which is not `0`. -/
structure DigitGroup where
  radix : Radix
  first : Char
  rest : Text
  first_ne_zero : first ≠ '0'
  all_isDigit : (first :: rest).all radix.isDigit = true

inductive Sign
  | absent
  | plus
  | minus
  deriving DecidableEq, Repr

/-- A numeric literal, taken apart. -/
structure Numeral where
  sign : Sign
  numerator : DigitGroup
  denominator : Option DigitGroup

def Sign.text : Sign → Text
  | .absent => []
  | .plus => ['+']
  | .minus => ['-']

namespace DigitGroup

def digits (g : DigitGroup) : Text := g.first :: g.rest

def text (g : DigitGroup) : Text := g.radix.mark ++ g.digits

end DigitGroup

namespace Numeral

def groups (n : Numeral) : List DigitGroup := n.numerator :: n.denominator.toList

/-- The literal: a slash separates the groups. -/
def text (n : Numeral) : Text := n.sign.text ++ ['/'].intercalate (n.groups.map DigitGroup.text)

end Numeral

/-! ## Groups -/

/-- How a group that begins like this is to be read. -/
def radixOf : Text → Radix
  | '0' :: 'x' :: _ => .hexadecimal
  | '0' :: _ => .zeroDecimal
  | _ => .decimal

/-- The digits of a group that begins like this. -/
def digitsOf (w : Text) : Text := w.drop (radixOf w).mark.length

theorem mark_append_digitsOf (w : Text) : (radixOf w).mark ++ digitsOf w = w := by
  unfold digitsOf
  fun_cases radixOf w <;> rfl

theorem isGroup_eq (w : Text) : isGroup w = isPositive (radixOf w).isDigit (digitsOf w) := by
  unfold digitsOf
  fun_cases radixOf w with
  | case1 ds => rfl
  | case2 ds hx =>
    rw [isGroup]
    · rfl
    · exact hx
  | case3 w hx hzero =>
    rw [isGroup]
    · rfl
    · exact hx
    · exact hzero

theorem isPositive_iff {isDigit : Char → Bool} {w : Text} :
    isPositive isDigit w = true ↔
      ∃ d ds, w = d :: ds ∧ d ≠ '0' ∧ (d :: ds).all isDigit = true := by
  cases w <;> simp [isPositive, and_assoc]

namespace DigitGroup

theorem isDigit_of_mem_digits {g : DigitGroup} {c : Char} (h : c ∈ g.digits) :
    g.radix.isDigit c = true :=
  List.all_eq_true.mp g.all_isDigit c h

theorem first_mem_digits (g : DigitGroup) : g.first ∈ g.digits := List.mem_cons_self

theorem mem_text {g : DigitGroup} {c : Char} (h : c ∈ g.text) :
    c = 'x' ∨ isHexDigit c = true := by
  rcases List.mem_append.mp h with hmark | hdigits
  · have hzero : isHexDigit '0' = true := by decide
    cases hr : g.radix with
    | hexadecimal =>
      obtain rfl | rfl : c = '0' ∨ c = 'x' := by simpa [hr, Radix.mark] using hmark
      · exact .inr hzero
      · exact .inl rfl
    | decimal => simp [hr, Radix.mark] at hmark
    | zeroDecimal =>
      obtain rfl : c = '0' := by simpa [hr, Radix.mark] using hmark
      exact .inr hzero
  · exact .inr (Radix.isHexDigit_of_isDigit (isDigit_of_mem_digits hdigits))

theorem exists_text_eq_cons (g : DigitGroup) : ∃ c u, g.text = c :: u ∧ c.isDigit = true := by
  have hfirst := isDigit_of_mem_digits g.first_mem_digits
  unfold text digits
  cases hr : g.radix with
  | hexadecimal => exact ⟨'0', _, rfl, rfl⟩
  | decimal =>
    rw [hr] at hfirst
    exact ⟨g.first, g.rest, rfl, hfirst⟩
  | zeroDecimal => exact ⟨'0', _, rfl, rfl⟩

/-- The mark of a group can be told from its text, since the first digit is neither `0` nor `x`. -/
theorem radixOf_text (g : DigitGroup) : radixOf g.text = g.radix := by
  have hzero := g.first_ne_zero
  have hdigit := isDigit_of_mem_digits g.first_mem_digits
  unfold text digits
  cases hr : g.radix with
  | hexadecimal => rfl
  | decimal =>
    show radixOf (g.first :: g.rest) = .decimal
    rw [radixOf]
    · simp [hzero]
    · simp [hzero]
  | zeroDecimal =>
    have hx : g.first ≠ 'x' := by
      intro hx
      rw [hr, hx] at hdigit
      exact absurd hdigit (by decide)
    show radixOf ('0' :: g.first :: g.rest) = .zeroDecimal
    rw [radixOf]
    simp [hx]

theorem digitsOf_text (g : DigitGroup) : digitsOf g.text = g.digits := by
  unfold digitsOf
  rw [radixOf_text, text, List.drop_left]

theorem isGroup_text (g : DigitGroup) : isGroup g.text = true := by
  rw [isGroup_eq, radixOf_text, digitsOf_text, isPositive_iff]
  exact ⟨g.first, g.rest, rfl, g.first_ne_zero, g.all_isDigit⟩

theorem text_injective {g h : DigitGroup} (heq : g.text = h.text) : g = h := by
  have hradix : g.radix = h.radix := by rw [← radixOf_text, heq, radixOf_text]
  have hdigits : g.digits = h.digits := by rw [← digitsOf_text, heq, digitsOf_text]
  cases g
  cases h
  simp_all [digits]

end DigitGroup

theorem exists_group {w : Text} (h : isGroup w = true) : ∃ g : DigitGroup, g.text = w := by
  rw [isGroup_eq, isPositive_iff] at h
  obtain ⟨d, ds, hdigits, hd, hall⟩ := h
  refine ⟨⟨radixOf w, d, ds, hd, hall⟩, ?_⟩
  show (radixOf w).mark ++ d :: ds = w
  rw [← hdigits, mark_append_digitsOf]

/-! ## Literals -/

theorem exists_sign (w : Text) : ∃ s : Sign, s.text ++ unsigned w = w := by
  fun_cases unsigned w with
  | case1 w => exact ⟨.minus, rfl⟩
  | case2 w => exact ⟨.plus, rfl⟩
  | case3 w _ _ => exact ⟨.absent, rfl⟩

theorem unsigned_sign_append (s : Sign) {c : Char} (hc : c.isDigit = true) (u : Text) :
    unsigned (s.text ++ c :: u) = c :: u := by
  have hminus : c ≠ '-' := by rintro rfl; exact absurd hc (by decide)
  have hplus : c ≠ '+' := by rintro rfl; exact absurd hc (by decide)
  cases s with
  | absent =>
    show unsigned (c :: u) = c :: u
    rw [unsigned]
    · simp [hminus]
    · simp [hplus]
  | plus => rfl
  | minus => rfl

namespace Numeral

theorem unsigned_text (n : Numeral) :
    unsigned n.text = ['/'].intercalate (n.groups.map DigitGroup.text) := by
  obtain ⟨c, u, hcu, hc⟩ := n.numerator.exists_text_eq_cons
  obtain ⟨v, hv⟩ : ∃ v, ['/'].intercalate (n.groups.map DigitGroup.text) = c :: v := by
    unfold groups
    cases n.denominator <;> simp [hcu, List.intercalate]
  rw [text, hv, unsigned_sign_append n.sign hc]

/-- No group has a slash in it, so the pieces between slashes are the groups. -/
theorem split_unsigned_text (n : Numeral) :
    split '/' (unsigned n.text) = n.groups.map DigitGroup.text := by
  rw [unsigned_text, split_eq_splitOn, List.splitOn_intercalate]
  · intro l hl hslash
    obtain ⟨g, -, rfl⟩ := List.mem_map.mp hl
    exact absurd (g.mem_text hslash) (by decide)
  · simp [groups]

theorem isLiteral_text (n : Numeral) : isLiteral n.text = true := by
  unfold isLiteral
  rw [split_unsigned_text, groups]
  cases n.denominator <;> simp [DigitGroup.isGroup_text]

theorem text_injective {n m : Numeral} (h : n.text = m.text) : n = m := by
  have hgroups : n.groups = m.groups := by
    have hsplit : n.groups.map DigitGroup.text = m.groups.map DigitGroup.text := by
      rw [← split_unsigned_text, h, split_unsigned_text]
    exact (List.map_inj_right fun _ _ => DigitGroup.text_injective).mp hsplit
  have hsign : n.sign = m.sign := by
    rw [text, text, hgroups, List.append_cancel_right_eq] at h
    revert h
    cases n.sign <;> cases m.sign <;> simp [Sign.text]
  obtain ⟨s, g, d⟩ := n
  obtain ⟨s', g', d'⟩ := m
  cases d <;> cases d' <;> simp_all [groups]

theorem mem_text {n : Numeral} {c : Char} (h : c ∈ n.text) :
    c ∈ ['+', '-', '/', 'x'] ∨ isHexDigit c = true := by
  rcases List.mem_append.mp h with hsign | hgroups
  · left
    cases hs : n.sign <;> simp_all [Sign.text]
  · have hmem : c = '/' ∨ ∃ g : DigitGroup, c ∈ g.text := by
      unfold groups at hgroups
      cases hd : n.denominator with
      | none =>
        rw [hd] at hgroups
        exact .inr ⟨n.numerator, by simpa using hgroups⟩
      | some d =>
        have hcases : c ∈ n.numerator.text ∨ c = '/' ∨ c ∈ d.text := by
          simpa [hd, List.intercalate] using hgroups
        rcases hcases with hnum | hslash | hden
        · exact .inr ⟨_, hnum⟩
        · exact .inl hslash
        · exact .inr ⟨_, hden⟩
    rcases hmem with rfl | ⟨g, hg⟩
    · simp
    · exact g.mem_text hg |>.imp_left (by rintro rfl; simp)

end Numeral

theorem exists_numeral {w : Text} (h : isLiteral w = true) : ∃ n : Numeral, n.text = w := by
  obtain ⟨s, hs⟩ := exists_sign w
  have hjoin : ['/'].intercalate (split '/' (unsigned w)) = unsigned w := by
    rw [split_eq_splitOn, List.intercalate_splitOn]
  unfold isLiteral at h
  split at h
  next a hsplit =>
    obtain ⟨g, rfl⟩ := exists_group h
    refine ⟨⟨s, g, none⟩, ?_⟩
    rw [← hs, ← hjoin, hsplit]
    rfl
  next a b hsplit =>
    obtain ⟨ha, hb⟩ := Bool.and_eq_true_iff.mp h
    obtain ⟨g, rfl⟩ := exists_group ha
    obtain ⟨d, rfl⟩ := exists_group hb
    refine ⟨⟨s, g, some d⟩, ?_⟩
    rw [← hs, ← hjoin, hsplit]
    rfl
  next => cases h

theorem isLiteral_iff {w : Text} : isLiteral w = true ↔ ∃ n : Numeral, n.text = w := by
  constructor
  · exact exists_numeral
  · rintro ⟨n, rfl⟩
    exact n.isLiteral_text

/-! ## Values -/

/-- The number that digits denote, behind digits that denote `n`. -/
def valueFrom (base n : Nat) (ds : Text) : Nat := ds.foldl (fun n d => base * n + digitValue d) n

def DigitGroup.value (g : DigitGroup) : Nat := valueFrom g.radix.base 0 g.digits

def Sign.factor : Sign → ℚ
  | .minus => -1
  | .absent | .plus => 1

def Numeral.value (n : Numeral) : ℚ :=
  n.sign.factor * n.numerator.value / (n.denominator.map DigitGroup.value).getD 1

theorem digitValue_pos {c : Char} (hzero : c ≠ '0') : 0 < digitValue c := by
  unfold digitValue
  split
  next hc =>
    have hle := (Char.isDigit_iff_toNat.mp hc).1
    have hne : c.toNat ≠ '0'.toNat := fun h => hzero (Char.toNat_inj.mp h)
    omega
  next => split <;> omega

theorem le_valueFrom {base : Nat} (hbase : 0 < base) (n : Nat) (ds : Text) :
    n ≤ valueFrom base n ds := by
  induction ds generalizing n with
  | nil => exact Nat.le_refl n
  | cons d ds ih =>
    calc n ≤ base * n := Nat.le_mul_of_pos_left n hbase
      _ ≤ base * n + digitValue d := Nat.le_add_right _ _
      _ ≤ valueFrom base (base * n + digitValue d) ds := ih _

/-- A group denotes at least its first digit. -/
theorem DigitGroup.value_pos (g : DigitGroup) : 0 < g.value := by
  have hbase : 0 < g.radix.base := by cases g.radix <;> decide
  have hfirst := digitValue_pos g.first_ne_zero
  have hle := le_valueFrom hbase (g.radix.base * 0 + digitValue g.first) g.rest
  show 0 < valueFrom g.radix.base (g.radix.base * 0 + digitValue g.first) g.rest
  omega

theorem Numeral.value_ne_zero (n : Numeral) : n.value ≠ 0 := by
  have hsign : n.sign.factor ≠ 0 := by cases n.sign <;> simp [Sign.factor]
  have hnum : (n.numerator.value : ℚ) ≠ 0 :=
    Nat.cast_ne_zero.mpr (Nat.ne_of_gt n.numerator.value_pos)
  have hden : (((n.denominator.map DigitGroup.value).getD 1 : Nat) : ℚ) ≠ 0 := by
    cases n.denominator with
    | none => simp
    | some d => simpa using Nat.ne_of_gt d.value_pos
  exact div_ne_zero (mul_ne_zero hsign hnum) hden

/-! ## Integers -/

theorem head?_toDigits_ne_zero {n : Nat} (h : 0 < n) : (Nat.toDigits 10 n).head? ≠ some '0' := by
  induction n using Nat.strongRecOn with
  | ind n ih =>
    rw [Nat.toDigits_eq_if (by decide)]
    split
    next hlt =>
      have hdigit : ∀ m < 10, 0 < m → m.digitChar ≠ '0' := by decide
      simpa using hdigit n hlt h
    next hge =>
      rw [List.head?_append, Option.or_of_isSome (by simp [Nat.toDigits_ne_nil])]
      exact ih (n / 10) (Nat.div_lt_self h (by decide)) (by omega)

theorem valueFrom_ten {ds : Text} (h : ds.all Char.isDigit = true) (n : Nat) :
    valueFrom 10 n ds = Nat.ofDigitChars 10 ds n := by
  induction ds generalizing n with
  | nil => rfl
  | cons d ds ih =>
    simp only [List.all_cons, Bool.and_eq_true] at h
    rw [Nat.ofDigitChars_cons, ← ih h.2]
    show valueFrom 10 (10 * n + digitValue d) ds = _
    rw [digitValue, if_pos h.1]

theorem exists_group_toDigits {n : Nat} (h : 0 < n) :
    ∃ g : DigitGroup, g.text = Nat.toDigits 10 n ∧ g.value = n := by
  have hall : (Nat.toDigits 10 n).all Char.isDigit = true :=
    List.all_eq_true.mpr fun c hc => Nat.isDigit_of_mem_toDigits (by decide) (by decide) hc
  have hhead := head?_toDigits_ne_zero h
  have hvalue := valueFrom_ten hall 0
  rw [Nat.ofDigitChars_ten_toDigits] at hvalue
  cases hdigits : Nat.toDigits 10 n with
  | nil => exact absurd hdigits Nat.toDigits_ne_nil
  | cons d ds =>
    rw [hdigits] at hall hhead hvalue
    exact ⟨⟨.decimal, d, ds, by simpa using hhead, hall⟩, rfl, hvalue⟩

/-- The decimal notation of an integer is the text of a numeral that denotes it. -/
theorem exists_numeral_toString {i : Int} (h : i ≠ 0) :
    ∃ n : Numeral, n.text = (toString i).toList ∧ n.value = i := by
  obtain ⟨g, htext, hvalue⟩ := exists_group_toDigits (Int.natAbs_pos.mpr h)
  rw [Int.toString_eq_repr, Int.repr_eq_if]
  split
  next hi =>
    obtain ⟨k, rfl⟩ := Int.eq_ofNat_of_zero_le hi
    refine ⟨⟨.absent, g, none⟩, ?_, ?_⟩
    · rw [Int.toNat_natCast, Nat.toList_repr]
      simpa [Numeral.text, Numeral.groups, Sign.text] using htext
    · simpa [Numeral.value, Sign.factor] using hvalue
  next hi =>
    obtain ⟨k, rfl⟩ := Int.exists_eq_neg_ofNat (Int.le_of_not_le hi)
    refine ⟨⟨.minus, g, none⟩, ?_, ?_⟩
    · rw [Int.neg_neg, Int.toNat_natCast, String.toList_append, Nat.toList_repr]
      simpa [Numeral.text, Numeral.groups, Sign.text] using htext
    · simpa [Numeral.value, Sign.factor] using hvalue

end Number

/-! ## Words -/

namespace Vocabulary

open Number

theorem classify_eq_number_iff {v : Vocabulary} {w : Text} :
    v.classify w = .number ↔ w ∉ v.words ∧ isLiteral w = true := by
  have hshape : categoryByShape w = .number ↔ isLiteral w = true := by
    unfold categoryByShape
    by_cases hlit : isLiteral w = true
    · simp [hlit]
    · simp only [hlit, Bool.false_eq_true, if_false, iff_false]
      repeat' split
      all_goals simp
  rw [mem_words_iff, ← hshape]
  unfold classify
  grind

/-- Numeric words. A word outside the vocabulary is a number exactly if it can be taken apart as a
numeral, which is possible in one way only. Every group of digits of a numeral has a positive value,
the denominator too, and a numeral does not denote zero. In decimal notation every integer but zero
is a number, and denotes itself. A word with `@` or `$` in front, or with a colon or a newline at
its end, is never a number. -/
theorem classify_number_grammar (v : Vocabulary) :
    (∀ w ∉ v.words, v.classify w = .number ↔ ∃! n : Numeral, n.text = w) ∧
      (∀ n : Numeral, (∀ g ∈ n.groups, 0 < g.value) ∧ n.value ≠ 0) ∧
      (∀ i : Int, i ≠ 0 → (toString i).toList ∉ v.words →
        v.classify (toString i).toList = .number ∧
          ∃ n : Numeral, n.text = (toString i).toList ∧ n.value = i) ∧
      ∀ w : Text, w.head? = some '@' ∨ w.head? = some '$' ∨ w.getLast? = some ':' ∨
        w.getLast? = some '\n' → v.classify w ≠ .number := by
  refine ⟨fun w hw => ?_, fun n => ⟨fun g _ => g.value_pos, n.value_ne_zero⟩, fun i hi hw => ?_,
    fun w hw hnumber => ?_⟩
  · rw [classify_eq_number_iff, isLiteral_iff]
    constructor
    · rintro ⟨-, n, rfl⟩
      exact ⟨n, rfl, fun m => Numeral.text_injective⟩
    · rintro ⟨n, hn, -⟩
      exact ⟨hw, n, hn⟩
  · obtain ⟨n, htext, hvalue⟩ := exists_numeral_toString hi
    exact ⟨classify_eq_number_iff.mpr ⟨hw, isLiteral_iff.mpr ⟨n, htext⟩⟩, n, htext, hvalue⟩
  · obtain ⟨-, n, rfl⟩ := (classify_eq_number_iff.trans (and_congr_right' isLiteral_iff)).mp hnumber
    rcases hw with hc | hc | hc | hc
    · exact absurd (n.mem_text (List.mem_of_mem_head? hc)) (by decide)
    · exact absurd (n.mem_text (List.mem_of_mem_head? hc)) (by decide)
    · exact absurd (n.mem_text (List.mem_of_getLast? hc)) (by decide)
    · exact absurd (n.mem_text (List.mem_of_getLast? hc)) (by decide)

theorem classify_number_hexadecimal_fraction :
    let v := Vocabulary.standard
    let w : Text := "-0x1F/02".toList
    w ∉ v.words ∧ v.classify w = .number ∧ (∃! n : Numeral, n.text = w) ∧
      v.classify (toString (-40 : Int)).toList = .number ∧
      ("12:".toList.getLast? = some ':' ∧ v.classify "12:".toList ≠ .number) := by
  intro v w
  obtain ⟨hiff, -, hint, hmarks⟩ := classify_number_grammar v
  have hw : w ∉ v.words := by
    rw [mem_words_iff]
    decide +kernel
  have hinteger : (toString (-40 : Int)).toList ∉ v.words := by
    rw [mem_words_iff]
    decide +kernel
  have hnumber : v.classify w = .number := by decide +kernel
  exact ⟨hw, hnumber, (hiff w hw).mp hnumber, (hint (-40) (by decide) hinteger).1, rfl,
    hmarks _ (by decide)⟩

end Vocabulary

end FlowEdit
