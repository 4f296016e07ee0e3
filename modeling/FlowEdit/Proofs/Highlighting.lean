import FlowEdit.Proofs.WordRuns

/-!
Every word that a vocabulary admits is highlighted. A vocabulary is refused for the first entry that
is empty or has a character in it that no word has (`Vocabulary.ofGroups_eq_error_iff`). What is
admitted is a run of word characters, so wherever it stands in code, between characters of no word,
it is the one word of the text that starts there (`filter_start_runs`). Its category is that of its
group, whatever else it looks like (`Vocabulary.FirstGroup.classify_eq`). Main statement:
`Vocabulary.ofGroups_highlights`.
-/

namespace FlowEdit

open Text

/-! ## What is refused -/

/-- No word is spelt like this. -/
def Misspelt (w : Text) : Prop := w = [] ∨ ∃ c ∈ w, isWordChar c = false

theorem misspelt_iff {w : Text} : Misspelt w ↔ isWord w = false := by
  simp [Misspelt, isWord, or_iff_not_imp_left]

/-- The first of the entries that is misspelt. -/
def FirstMisspelt (entries : List Text) (w : Text) : Prop :=
  ∃ front rest, entries = front ++ w :: rest ∧ Misspelt w ∧ ∀ u ∈ front, ¬ Misspelt u

theorem firstMisspelt_iff {entries : List Text} {w : Text} :
    FirstMisspelt entries w ↔ entries.find? (!isWord ·) = some w := by
  rw [List.find?_eq_some_iff_append]
  simp only [FirstMisspelt, misspelt_iff, Bool.not_eq_eq_eq_not, Bool.not_true, Bool.not_eq_false]
  constructor
  · rintro ⟨front, rest, rfl, hw, hfront⟩
    exact ⟨hw, front, rest, rfl, hfront⟩
  · rintro ⟨hw, front, rest, rfl, hfront⟩
    exact ⟨front, rest, rfl, hw, hfront⟩

namespace Vocabulary

variable {statements keywords operators constructors : List Text}

/-- A vocabulary is refused for its first misspelt entry. -/
theorem ofGroups_eq_error_iff {e : VocabularyError} :
    ofGroups statements keywords operators constructors = .error e ↔
      ∃ w, FirstMisspelt (statements ++ keywords ++ operators ++ constructors) w ∧
        e = .invalidWord w := by
  simp only [firstMisspelt_iff]
  unfold ofGroups
  split
  next w hfound =>
    rw [hfound]
    constructor
    · intro he
      exact ⟨w, rfl, (Except.error.inj he).symm⟩
    · rintro ⟨w', hw', rfl⟩
      rw [Option.some.inj hw']
  next hnone =>
    constructor
    · intro he
      cases he
    · rintro ⟨w, hw, -⟩
      cases hnone.symm.trans hw

theorem exists_ofGroups_eq_error_iff :
    (∃ e, ofGroups statements keywords operators constructors = .error e) ↔
      ∃ w ∈ statements ++ keywords ++ operators ++ constructors, Misspelt w := by
  constructor
  · rintro ⟨e, he⟩
    obtain ⟨w, ⟨front, rest, hentries, hw, -⟩, -⟩ := ofGroups_eq_error_iff.mp he
    exact ⟨w, by rw [hentries]; simp, hw⟩
  · rintro ⟨w, hmem, hw⟩
    have hsome : ((statements ++ keywords ++ operators ++ constructors).find?
        (!isWord ·)).isSome := by
      rw [List.find?_isSome]
      exact ⟨w, hmem, by simpa using misspelt_iff.mp hw⟩
    obtain ⟨u, hu⟩ := Option.isSome_iff_exists.mp hsome
    exact ⟨_, ofGroups_eq_error_iff.mpr ⟨u, firstMisspelt_iff.mpr hu, rfl⟩⟩

/-! ## Groups -/

/-- The groups in their order, each with the category of its words. -/
def groups (v : Vocabulary) : List (Category × List Text) :=
  [(.statement, v.statements), (.keyword, v.keywords), (.operator, v.operators),
   (.constructor, v.constructors)]

/-- The first group that has the word in it is that of category `c`. -/
def FirstGroup (v : Vocabulary) (w : Text) (c : Category) : Prop :=
  ∃ front members rest, v.groups = front ++ (c, members) :: rest ∧ w ∈ members ∧
    ∀ g ∈ front, w ∉ g.2

variable {v : Vocabulary} {w : Text}

theorem groups_of_ofGroups_eq_ok (h : ofGroups statements keywords operators constructors = .ok v) :
    v.groups = [(.statement, statements), (.keyword, keywords), (.operator, operators),
      (.constructor, constructors)] := by
  unfold ofGroups at h
  split at h
  next => cases h
  next =>
    cases h
    rfl

/-- Entries that are all words make a vocabulary, in which the groups are as given. -/
theorem exists_ofGroups_eq_ok
    (h : ¬ ∃ w ∈ statements ++ keywords ++ operators ++ constructors, Misspelt w) :
    ∃ v, ofGroups statements keywords operators constructors = .ok v ∧
      v.groups = [(.statement, statements), (.keyword, keywords), (.operator, operators),
        (.constructor, constructors)] := by
  cases hbuilt : ofGroups statements keywords operators constructors with
  | error e => exact absurd (exists_ofGroups_eq_error_iff.mp ⟨e, hbuilt⟩) h
  | ok v => exact ⟨v, rfl, groups_of_ofGroups_eq_ok hbuilt⟩

theorem classify_eq_find? (v : Vocabulary) (w : Text) :
    v.classify w =
      ((v.groups.find? fun g => g.2.contains w).map Prod.fst).getD (categoryByShape w) := by
  unfold classify groups
  simp only [List.find?_cons, List.find?_nil]
  grind

theorem FirstGroup.classify_eq {c : Category} (h : v.FirstGroup w c) : v.classify w = c := by
  obtain ⟨front, members, rest, hgroups, hw, hfront⟩ := h
  have hfound : v.groups.find? (fun g => g.2.contains w) = some (c, members) := by
    rw [List.find?_eq_some_iff_append]
    exact ⟨by simpa using hw, front, rest, hgroups, by simpa using hfront⟩
  rw [classify_eq_find?, hfound]
  rfl

theorem mem_words_iff_groups : w ∈ v.words ↔ ∃ g ∈ v.groups, w ∈ g.2 := by
  simp [mem_words_iff, groups]

theorem exists_firstGroup (h : w ∈ v.words) : ∃ c, v.FirstGroup w c := by
  have hsome : (v.groups.find? fun g => g.2.contains w).isSome := by
    rw [List.find?_isSome]
    simpa using mem_words_iff_groups.mp h
  obtain ⟨⟨c, members⟩, hfound⟩ := Option.isSome_iff_exists.mp hsome
  obtain ⟨hw, front, rest, hgroups, hfront⟩ := List.find?_eq_some_iff_append.mp hfound
  exact ⟨c, front, members, rest, hgroups, by simpa using hw, by simpa using hfront⟩

theorem isWord_of_mem_words (h : w ∈ v.words) : isWord w = true :=
  List.all_eq_true.mp v.all_isWord w (mem_words_iff.mp h)

end Vocabulary

/-! ## Where a word stands -/

theorem Run.isWord_between {a w b : Text} (hw : isWord w = true) (ha : Mode.code.run a = .code)
    (hends : EndsNoWord a) (hbegins : BeginsNoWord b) :
    Run.IsWord (a ++ w ++ b) ⟨a.length, w⟩ := by
  simp only [isWord, Bool.and_eq_true, Bool.not_eq_true', List.isEmpty_eq_false_iff] at hw
  exact ⟨hw.1, hw.2, a, b, List.append_assoc a w b, rfl, ha, hends, hbegins⟩

/-- No two words of a text start at the same offset. -/
theorem filter_start_runs {t : Text} {r : Run} (h : r ∈ runs t 0) :
    (runs t 0).filter (·.start = r.start) = [r] := by
  obtain ⟨front, rest, hruns⟩ := List.append_of_mem h
  have hpairwise := pairwise_runs t
  rw [hruns, List.pairwise_append, List.pairwise_cons] at hpairwise
  obtain ⟨-, ⟨hrest, -⟩, hfront⟩ := hpairwise
  have hfront' : front.filter (·.start = r.start) = [] := by
    rw [List.filter_eq_nil_iff]
    intro r' hr' hstart
    have hlt : r'.stop < r.start := hfront r' hr' r List.mem_cons_self
    have hle : r'.start ≤ r'.stop := Nat.le_add_right _ _
    rw [decide_eq_true_eq] at hstart
    omega
  have hrest' : rest.filter (·.start = r.start) = [] := by
    rw [List.filter_eq_nil_iff]
    intro r' hr' hstart
    have hlt : r.stop < r'.start := hrest r' hr'
    have hle : r.start ≤ r.stop := Nat.le_add_right _ _
    rw [decide_eq_true_eq] at hstart
    omega
  rw [hruns, List.filter_append, List.filter_cons_of_pos (by simp), hfront', hrest',
    List.nil_append]

/-- The spans that start at an offset. -/
def spansAt (v : Vocabulary) (t : Text) (start : Nat) : List Span :=
  (v.spans t 0 none).filter (·.start = start)

theorem spansAt_eq {v : Vocabulary} {t : Text} {r : Run} (h : r ∈ runs t 0) :
    spansAt v t r.start = [r.span v] := by
  have hspans : v.spans t 0 none = (runs t 0).map (·.span v) := allSpans_eq_map_runs v t
  unfold spansAt
  rw [hspans, List.filter_map]
  have hstart : (fun s : Span => decide (s.start = r.start)) ∘ (·.span v) =
      fun r' : Run => decide (r'.start = r.start) := rfl
  rw [hstart, filter_start_runs h]
  rfl

/-! ## Highlighting -/

/-- A vocabulary is refused exactly if some entry is empty or has a character in it that no word
has, and the first of these is reported. Otherwise each of its words is highlighted, where it stands
in code and the characters next to it are of no word: one span starts there, it covers the word, and
its category is that of the first group with the word in it. -/
theorem Vocabulary.ofGroups_highlights (statements keywords operators constructors : List Text) :
    let entries := statements ++ keywords ++ operators ++ constructors
    let built := ofGroups statements keywords operators constructors
    ((∃ e, built = .error e) ↔ ∃ w ∈ entries, Misspelt w) ∧
      (∀ e, built = .error e ↔ ∃ w, FirstMisspelt entries w ∧ e = .invalidWord w) ∧
      ((¬ ∃ w ∈ entries, Misspelt w) → ∃ v, built = .ok v ∧
        v.groups = [(.statement, statements), (.keyword, keywords), (.operator, operators),
          (.constructor, constructors)] ∧
        ∀ w ∈ v.words, ∃ c, v.FirstGroup w c ∧
          ∀ a b, Mode.code.run a = .code → EndsNoWord a → BeginsNoWord b →
            spansAt v (a ++ w ++ b) a.length = [⟨a.length, a.length + w.length, c⟩]) := by
  intro entries built
  refine ⟨exists_ofGroups_eq_error_iff, fun e => ofGroups_eq_error_iff, fun h => ?_⟩
  obtain ⟨v, hbuilt, hgroups⟩ := exists_ofGroups_eq_ok h
  refine ⟨v, hbuilt, hgroups, fun w hw => ?_⟩
  obtain ⟨c, hc⟩ := exists_firstGroup hw
  refine ⟨c, hc, fun a b ha hends hbegins => ?_⟩
  have hrun := Run.isWord_between (isWord_of_mem_words hw) ha hends hbegins
  have hspan := spansAt_eq (v := v) hrun.mem_runs
  rwa [Run.span, hc.classify_eq] at hspan

/-- A number that is also in two groups, behind a quote in a comment and an escaped quote in a
string. -/
theorem Vocabulary.ofGroups_highlights_number :
    let a : Text := "; \"\n\"\\\"\" (".toList
    ∃ v, ofGroups [] ["0x1F".toList] ["0x1F".toList, "a:".toList] [] = .ok v ∧
      v.FirstGroup "0x1F".toList .keyword ∧ Number.isLiteral "0x1F".toList = true ∧
        spansAt v (a ++ "0x1F".toList ++ ")".toList) a.length = [⟨10, 14, .keyword⟩] := by
  intro a
  obtain ⟨-, -, hbuild⟩ := ofGroups_highlights [] ["0x1F".toList] ["0x1F".toList, "a:".toList] []
  obtain ⟨v, hbuilt, hgroups, hwords⟩ := hbuild (by simp only [misspelt_iff]; decide)
  have hkeyword : v.FirstGroup "0x1F".toList .keyword :=
    ⟨[(.statement, [])], ["0x1F".toList], _, hgroups, by decide, by simp⟩
  have hmem : "0x1F".toList ∈ v.words := by
    rw [mem_words_iff_groups, hgroups]
    decide
  obtain ⟨c, hc, hspans⟩ := hwords _ hmem
  obtain rfl : c = .keyword := hc.classify_eq.symm.trans hkeyword.classify_eq
  exact ⟨v, hbuilt, hkeyword, by decide, hspans a _ (by decide) rfl rfl⟩

end FlowEdit
