import Mathlib.Data.List.DropRight
import FlowEdit.Proofs.Atoms
import FlowEdit.Word.Candidates

/-!
The word being typed and the atom it is part of. The word ends where the cursor is and reaches back
to the last break (`exists_eq_append_wordAtEnd`). A break is a blank or a delimiter, but a form feed
and a vertical tab are blanks and no breaks (`isAtomChar_eq_false_iff`), so the word may reach back
across one of these and then is no part of an atom. Main statement: `wordBefore_part_of_atom`.
-/

namespace FlowEdit

open Text

/-! ## The end of a text -/

/-- A text ends in its longest stretch of a class, and in front of that is nothing of the class. -/
theorem exists_eq_append_rtakeWhile (p : Char → Bool) (t : Text) :
    ∃ front, t = front ++ t.rtakeWhile p ∧ ∀ c, front.getLast? = some c → p c = false := by
  refine ⟨t.rdropWhile p, List.rdropWhile_append_rtakeWhile.symm, fun c hlast => ?_⟩
  have hne : t.rdropWhile p ≠ [] := by
    intro hnil
    simp [hnil] at hlast
  have hc := List.rdropWhile_last_not p t hne
  rw [List.getLast?_eq_some_getLast hne, Option.some_inj] at hlast
  simpa [hlast] using hc

theorem wordAtEnd_eq_rtakeWhile (before : Text) :
    wordAtEnd before = before.rtakeWhile (!isWordBreak ·) := rfl

/-- The word at the end has no break in it, and there is one in front of it. -/
theorem exists_eq_append_wordAtEnd (before : Text) :
    ∃ front, before = front ++ wordAtEnd before ∧
      (∀ c ∈ wordAtEnd before, isWordBreak c = false) ∧
      ∀ c, front.getLast? = some c → isWordBreak c = true := by
  obtain ⟨front, hfront, hlast⟩ := exists_eq_append_rtakeWhile (!isWordBreak ·) before
  refine ⟨front, hfront, fun c hc => ?_, fun c hc => ?_⟩
  · simpa using List.mem_rtakeWhile_imp hc
  · simpa using hlast c hc

/-- Of the blanks and delimiters all but two are breaks. -/
theorem isAtomChar_eq_false_iff {c : Char} :
    isAtomChar c = false ↔ isWordBreak c = true ∨ c = '\x0c' ∨ c = '\x0b' := by
  simp only [isAtomChar, isBlank, isDelimiter, blanks, delimiters, isWordBreak]
  grind

theorem all_isAtomChar_iff {word : Text} (h : ∀ c ∈ word, isWordBreak c = false) :
    word.all isAtomChar = true ↔ '\x0c' ∉ word ∧ '\x0b' ∉ word := by
  rw [List.all_eq_true]
  constructor
  · intro hall
    exact ⟨fun hmem => absurd (hall _ hmem) (by decide),
      fun hmem => absurd (hall _ hmem) (by decide)⟩
  · rintro ⟨hfeed, htab⟩ c hc
    by_contra hnot
    rcases isAtomChar_eq_false_iff.mp (Bool.not_eq_true _ ▸ hnot) with hbreak | rfl | rfl
    · simp [h c hc] at hbreak
    · exact hfeed hc
    · exact htab hc

/-! ## Parts of atoms -/

/-- The stretch from `start` to `stop` is the part of an atom in front of `stop`: it has no blank
and no delimiter in it, and one of them is in front of it unless it begins the text. -/
structure PartOfAtom (t : Text) (start stop : Nat) : Prop where
  inside : ∀ c ∈ (t.take stop).drop start, isBlank c = false ∧ isDelimiter c = false
  front : start = 0 ∨ ∃ c, t[start - 1]? = some c ∧ (isBlank c = true ∨ isDelimiter c = true)

/-- What is known of the character in front of an offset, unless it begins the text. -/
theorem front_iff {P : Char → Prop} {t front word : Text} {p : Nat}
    (h : t.take p = front ++ word) :
    (front.length = 0 ∨ ∃ c, t[front.length - 1]? = some c ∧ P c) ↔
      ∀ c, front.getLast? = some c → P c := by
  rcases List.eq_nil_or_concat front with rfl | ⟨x, d, rfl⟩
  · simp
  · have hlt : x.length < p := by
      have hlen := congrArg List.length h
      simp at hlen
      omega
    have hlast : t[x.length]? = some d := by
      rw [← List.getElem?_take_of_lt hlt, h]
      simp
    simp [hlast]

theorem partOfAtom_iff {t front word : Text} {p : Nat} (h : t.take p = front ++ word) :
    PartOfAtom t front.length p ↔
      word.all isAtomChar = true ∧ ∀ c, front.getLast? = some c → isAtomChar c = false := by
  have hword : (t.take p).drop front.length = word := by rw [h, List.drop_left]
  have hinside : ∀ c, isAtomChar c = true ↔ isBlank c = false ∧ isDelimiter c = false := by
    simp [isAtomChar]
  have hfront : ∀ c, isAtomChar c = false ↔ isBlank c = true ∨ isDelimiter c = true := by
    simp [isAtomChar, or_iff_not_imp_left]
  simp only [List.all_eq_true, hinside, hfront, ← front_iff h]
  constructor
  · rintro ⟨hchars, hbegin⟩
    exact ⟨hword ▸ hchars, hbegin⟩
  · rintro ⟨hchars, hbegin⟩
    exact ⟨hword.symm ▸ hchars, hbegin⟩

/-- Atom characters lead into code only from code. -/
theorem Mode.eq_code_of_run_isAtomChar {m : Mode} {w : Text} (hw : w.all isAtomChar = true)
    (hcode : m.run w = .code) : m = .code := by
  induction w generalizing m with
  | nil => exact hcode
  | cons c w ih =>
    simp only [List.all_cons, Bool.and_eq_true] at hw
    rcases step_eq_code_iff.mp (ih hw.2 hcode) with ⟨hm, -⟩ | ⟨-, rfl⟩ | ⟨-, rfl⟩
    · exact hm
    · exact absurd hw.1 (by decide)
    · exact absurd hw.1 (by decide)

/-- In code the part of an atom at the end of a text is the token that the reader is in. -/
theorem Reader.token_ofText_append {front word : Text} (hne : word ≠ [])
    (hword : word.all isAtomChar = true)
    (hfront : ∀ c, front.getLast? = some c → isAtomChar c = false)
    (hcode : Mode.code.run (front ++ word) = .code) :
    (ofText (front ++ word)).token = some front.length := by
  have hmode : (ofText front).mode = .code := by
    rw [Mode.run_append] at hcode
    rw [mode_ofText]
    exact Mode.eq_code_of_run_isAtomChar hword hcode
  have htoken : (ofText front).token = none := by
    rcases List.eq_nil_or_concat front with rfl | ⟨x, d, rfl⟩
    · rfl
    · have hd : isAtomChar d = false := hfront d (by simp)
      rw [List.concat_eq_append, ofText_append] at hmode ⊢
      exact token_step_of_not_isAtomChar (sound_ofText x) (fun _ => hd) hmode
  rw [ofText_append, run_isAtomChar hmode hne hword, htoken, offset_ofText]
  rfl

/-- A part of an atom is its beginning, and the atom ends at the end of the part or behind it. -/
theorem exists_atomEnd {t front word : Text} {p : Nat} (hp : p ≤ t.length)
    (h : t.take p = front ++ word) (hword : word.all isAtomChar = true) :
    ∃ (stop : Nat) (rest : Text), t.atomEnd front.length = .ok stop ∧ p ≤ stop ∧
      (t.take stop).drop front.length = word ++ rest ∧ (word ++ rest).all isAtomChar = true := by
  have hlen : p = front.length + word.length := by
    rw [← List.length_append, ← h, List.length_take_of_le hp]
  have hdrop : t.drop front.length = word ++ t.drop p := by
    conv => lhs; rw [← List.take_append_drop p t, h, List.append_assoc, List.drop_left]
  have hatom : (t.drop front.length).takeWhile isAtomChar =
      word ++ (t.drop p).takeWhile isAtomChar := by
    rw [hdrop, List.takeWhile_append_of_pos (List.all_eq_true.mp hword)]
  refine ⟨front.length + ((t.drop front.length).takeWhile isAtomChar).length,
    (t.drop p).takeWhile isAtomChar, rfl, ?_, ?_, ?_⟩
  · rw [hatom, List.length_append]
    omega
  · rw [List.drop_take, Nat.add_sub_cancel_left, ← hatom]
    exact (List.prefix_iff_eq_take.mp (List.takeWhile_prefix isAtomChar)).symm
  · rw [← hatom]
    exact List.all_takeWhile

/-- What is left of a word behind its last form feed or vertical tab is part of an atom. -/
theorem exists_partOfAtom {t front word : Text} {p : Nat} (hp : p ≤ t.length)
    (h : t.take p = front ++ word) (hword : ∀ c ∈ word, isWordBreak c = false)
    (hfront : ∀ c, front.getLast? = some c → isAtomChar c = false) :
    ∃ passed token, word = passed ++ token ∧ PartOfAtom t (p - token.length) p ∧
      ∀ c, passed.getLast? = some c → c = '\x0c' ∨ c = '\x0b' := by
  obtain ⟨passed, hsplit, hlast⟩ := exists_eq_append_rtakeWhile isAtomChar word
  have hall : (word.rtakeWhile isAtomChar).all isAtomChar = true :=
    List.all_eq_true.mpr fun c hc => List.mem_rtakeWhile_imp hc
  generalize word.rtakeWhile isAtomChar = token at hsplit hall
  have htake : t.take p = (front ++ passed) ++ token := by
    rw [h, hsplit, List.append_assoc]
  have hlen : p - token.length = (front ++ passed).length := by
    have hsum := congrArg List.length htake
    rw [List.length_take_of_le hp, List.length_append] at hsum
    omega
  refine ⟨passed, token, hsplit, ?_, fun c hc => ?_⟩
  · rw [hlen, partOfAtom_iff htake]
    refine ⟨hall, fun c hc => ?_⟩
    rw [List.getLast?_append] at hc
    rcases Option.or_eq_some_iff.mp hc with hpassed | ⟨-, hin⟩
    · exact hlast c hpassed
    · exact hfront c hin
  · have hmem : c ∈ word := by
      rw [hsplit]
      exact List.mem_append_left _ (List.mem_of_getLast? hc)
    have hcases := isAtomChar_eq_false_iff.mp (hlast c hc)
    rwa [hword c hmem, Bool.false_eq_true, false_or] at hcases

/-! ## The word before a position -/

/-- The word being typed at a position. It has no break in it, and there is one in front of it. It
is part of an atom exactly if it has no form feed and no vertical tab in it. Then the atom begins
with it, if there is a word, and ends at the position or behind it, and in code it is the token that
the reader is in. In any case a part of an atom is what is left of the word behind the last of these
two characters. -/
theorem wordBefore_part_of_atom (t : Text) (pos : Int) :
    let p := t.clamp pos
    let word := wordBefore t pos
    let start := p - word.length
    ((t.take p).drop start = word ∧ (∀ c ∈ word, isWordBreak c = false) ∧
        (start = 0 ∨ ∃ c, t[start - 1]? = some c ∧ isWordBreak c = true)) ∧
      (PartOfAtom t start p ↔ '\x0c' ∉ word ∧ '\x0b' ∉ word) ∧
      (PartOfAtom t start p → word ≠ [] →
        (∃ (stop : Nat) (rest : Text), t.atomEnd start = .ok stop ∧ p ≤ stop ∧
          (t.take stop).drop start = word ++ rest ∧ (word ++ rest).all isAtomChar = true) ∧
        (Mode.code.run (t.take p) = .code → (Reader.ofText (t.take p)).token = some start)) ∧
      ∃ passed token, word = passed ++ token ∧ PartOfAtom t (p - token.length) p ∧
        ∀ c, passed.getLast? = some c → c = '\x0c' ∨ c = '\x0b' := by
  intro p word start
  have hp : p ≤ t.length := clamp_le t pos
  obtain ⟨front, htake, hword, hfront⟩ := exists_eq_append_wordAtEnd (t.take p)
  change t.take p = front ++ word at htake
  change ∀ c ∈ word, isWordBreak c = false at hword
  have hstart : start = front.length := by
    have hlen := congrArg List.length htake
    rw [length_take_clamp, List.length_append] at hlen
    omega
  have hbegin : ∀ c, front.getLast? = some c → isAtomChar c = false :=
    fun c hc => isAtomChar_eq_false_iff.mpr (.inl (hfront c hc))
  have hpart : PartOfAtom t front.length p ↔ word.all isAtomChar = true :=
    (partOfAtom_iff htake).trans (and_iff_left hbegin)
  rw [hstart]
  refine ⟨⟨by rw [htake, List.drop_left], hword, (front_iff htake).mpr hfront⟩,
    hpart.trans (all_isAtomChar_iff hword), fun h hne => ?_,
    exists_partOfAtom hp htake hword hbegin⟩
  have hall := hpart.mp h
  refine ⟨exists_atomEnd hp htake hall, fun hcode => ?_⟩
  rw [htake] at hcode ⊢
  exact Reader.token_ofText_append hne hall hbegin hcode

/-- The beginning of an operator, in code. -/
theorem wordBefore_part_of_operator :
    let t : Text := "(vector-get v)".toList
    wordBefore t 4 = "vec".toList ∧ PartOfAtom t 1 4 ∧
      (∃ (stop : Nat) (rest : Text), t.atomEnd 1 = .ok stop ∧ 4 ≤ stop ∧
        (t.take stop).drop 1 = "vec".toList ++ rest ∧
          ("vec".toList ++ rest).all isAtomChar = true) ∧
      (Reader.ofText (t.take 4)).token = some 1 := by
  intro t
  have hword : wordBefore t 4 = "vec".toList := by decide
  obtain ⟨-, hpart, hatom, -⟩ := wordBefore_part_of_atom t 4
  have h : PartOfAtom t 1 4 := hpart.mpr (by decide)
  obtain ⟨hend, htoken⟩ := hatom h (by decide)
  exact ⟨hword, h, hend, htoken (by decide)⟩

/-- The word before a position may reach back across a form feed, which is a blank. It is then no
part of an atom: the one that it begins with has ended, and what is typed is another one. -/
theorem wordBefore_across_form_feed :
    let t : Text := "(a\x0cvec".toList
    let word := wordBefore t 6
    isBlank '\x0c' = true ∧ '\x0c' ∈ word ∧ ¬ PartOfAtom t (6 - word.length) 6 ∧
      t.atomEnd (6 - word.length : Nat) = .ok 2 ∧ PartOfAtom t 3 6 := by
  intro t word
  have hblank : isBlank '\x0c' = true := by decide
  have hmem : '\x0c' ∈ (t.take 6).drop (6 - word.length) := by decide
  have hnot : ¬ PartOfAtom t (6 - word.length) 6 := by
    intro h
    have hinside := (h.inside '\x0c' hmem).1
    rw [hblank] at hinside
    cases hinside
  have htyped : PartOfAtom t 3 6 := by
    have htake : t.take 6 = ['(', 'a', '\x0c'] ++ ['v', 'e', 'c'] := rfl
    refine (partOfAtom_iff htake).mpr ⟨by decide, fun c hc => ?_⟩
    obtain rfl : '\x0c' = c := by simpa using hc
    decide
  exact ⟨hblank, by decide, hnot, rfl, htyped⟩

end FlowEdit
