import FlowEdit.Proofs.Atoms
import FlowEdit.Proofs.Words

/-!
Where the words of a text are. Each is a maximal run of word characters in code
(`mem_runs_cases`), all of these are words (`Run.IsWord.mem_runs`), they come one behind the other
(`pairwise_runs`), and each is part of one atom (`Run.IsWord.inAtom`). The one exception is a
backslash at the end of a text that ends in a string, if it escapes nothing.
-/

namespace FlowEdit

open Text

/-- No word goes on across the end of `before`. -/
def EndsNoWord (before : Text) : Prop := before.getLast?.any isWordChar = false

/-- No word goes on across the beginning of `after`. -/
def BeginsNoWord (after : Text) : Prop := after.head?.any isWordChar = false

theorem endsNoWord_concat_iff {t : Text} {c : Char} :
    EndsNoWord (t ++ [c]) ↔ isWordChar c = false := by
  simp [EndsNoWord]

theorem EndsNoWord.of_append {t u : Text} (h : EndsNoWord (t ++ u)) : EndsNoWord u :=
  any_getLast?_of_append h

/-- A maximal run of word characters in code. -/
structure Run.IsWord (t : Text) (r : Run) : Prop where
  ne_nil : r.word ≠ []
  all_isWordChar : r.word.all isWordChar = true
  maximal : ∃ a b, t = a ++ (r.word ++ b) ∧ a.length = r.start ∧ Mode.code.run a = .code ∧
    EndsNoWord a ∧ BeginsNoWord b

/-- The run of a backslash in front of `offset`, where a text ends in `mode`: there is one if it
escapes nothing. -/
def backslashBefore (mode : Mode) (offset : Nat) : List Run :=
  if mode = .escape then [⟨offset - 1, ['\\']⟩] else []

/-- The backslash that ends a text inside a string and escapes nothing. -/
def danglingBackslash (t : Text) : List Run := backslashBefore (Mode.code.run t) t.length

theorem mem_danglingBackslash_iff {t : Text} {r : Run} :
    r ∈ danglingBackslash t ↔ Mode.code.run t = .escape ∧ r = ⟨t.length - 1, ['\\']⟩ := by
  unfold danglingBackslash backslashBefore
  split <;> simp_all

theorem isAtomChar_of_isWordChar {c : Char} (h : isWordChar c = true) : isAtomChar c = true := by
  have hnone : (blanks ++ delimiters).all (!isWordChar ·) = true := by decide
  by_contra hatom
  have hmem : c ∈ blanks ++ delimiters := by
    simpa [isAtomChar, isBlank, isDelimiter, or_iff_not_imp_left] using hatom
  have hc := List.all_eq_true.mp hnone c hmem
  simp [h] at hc

theorem toNat_lt_of_isWordChar {c : Char} (h : isWordChar c = true) : c.toNat < 128 := by
  have hsigns : "<>=+*/!_\\?-@:$#".toList.all (·.toNat < 128) = true := by decide
  rcases Bool.or_eq_true_iff.mp h with hletter | hsign
  · exact toNat_lt_of_isAlphanum hletter
  · simpa using List.all_eq_true.mp hsigns c (List.contains_iff_mem.mp hsign)

theorem all_isAtomChar_of_isWordChar {w : Text} (h : w.all isWordChar = true) :
    w.all isAtomChar = true := by
  rw [List.all_eq_true] at h ⊢
  exact fun c hc => isAtomChar_of_isWordChar (h c hc)

/-! ## A word is maximal -/

/-- What is known behind `before`, read from the beginning of a text: the mode, and the part of a
word that ends there. -/
structure ReadWords (before : Text) (mode : Mode) (word : Text) : Prop where
  mode_eq : Mode.code.run before = mode
  code : word ≠ [] → mode = .code
  all_isWordChar : word.all isWordChar = true
  maximal : ∃ a, before = a ++ word ∧ (mode = .code → Mode.code.run a = .code ∧ EndsNoWord a)

namespace ReadWords

variable {before : Text} {mode : Mode} {word : Text}

theorem nil : ReadWords [] .code [] :=
  ⟨rfl, by simp, rfl, [], rfl, by simp [EndsNoWord]⟩

theorem concat_word (h : ReadWords before .code word) {c : Char} (hc : isWordChar c = true) :
    ReadWords (before ++ [c]) .code (word ++ [c]) := by
  obtain ⟨a, ha, hmax⟩ := h.maximal
  refine ⟨?_, fun _ => rfl, by simp [h.all_isWordChar, hc], a, by rw [ha, List.append_assoc], hmax⟩
  rw [Mode.run_append, h.mode_eq]
  exact Mode.step_code_of_isAtomChar (isAtomChar_of_isWordChar hc)

/-- Behind any other character a new word may begin: what leads into code is no word character. -/
theorem concat_other (h : ReadWords before mode word) {c : Char}
    (hc : ¬ (mode = .code ∧ isWordChar c = true)) :
    ReadWords (before ++ [c]) (mode.step c) [] := by
  have hmode : Mode.code.run (before ++ [c]) = mode.step c := by
    rw [Mode.run_append, h.mode_eq]
    rfl
  refine ⟨hmode, by simp, rfl, before ++ [c], by simp, fun hcode => ⟨hmode.trans hcode, ?_⟩⟩
  rw [endsNoWord_concat_iff]
  rcases Mode.step_eq_code_iff.mp hcode with ⟨hm, -, -⟩ | ⟨-, rfl⟩ | ⟨-, rfl⟩
  · simpa [hm] using hc
  · decide
  · decide

/-- The word read is a word if the next character does not go on with it. -/
theorem isWord_of_mem_endRun (h : ReadWords before mode word) {t : Text}
    (ht : mode = .code → BeginsNoWord t) {r : Run} (hr : r ∈ endRun before.length word) :
    r.IsWord (before ++ t) := by
  obtain ⟨hne, rfl⟩ := mem_endRun hr
  obtain ⟨a, rfl, hmax⟩ := h.maximal
  have hcode := h.code hne
  obtain ⟨ha, hends⟩ := hmax hcode
  exact ⟨hne, h.all_isWordChar, a, t, by simp, by simp, ha, hends, ht hcode⟩

/-- A run found by reading on is a word, or the backslash at the end. -/
theorem mem_runsFrom_cases (h : ReadWords before mode word) {t : Text} {r : Run}
    (hr : r ∈ runsFrom mode before.length word t) :
    r.IsWord (before ++ t) ∨ r ∈ danglingBackslash (before ++ t) := by
  induction t generalizing before mode word with
  | nil =>
    rcases List.mem_append.mp hr with hend | hlast
    · exact .inl (h.isWord_of_mem_endRun (by simp [BeginsNoWord]) hend)
    · split at hlast
      next hmode =>
        right
        rw [List.append_nil, mem_danglingBackslash_iff]
        exact ⟨h.mode_eq.trans hmode, List.mem_singleton.mp hlast⟩
      next => simp at hlast
  | cons c t ih =>
    have hsplit : before ++ c :: t = (before ++ [c]) ++ t := by simp
    have hlen : before.length + 1 = (before ++ [c]).length := by simp
    rw [runsFrom, hlen] at hr
    split at hr
    next hc =>
      rw [hc.1] at h
      rw [hsplit]
      exact ih (h.concat_word hc.2) hr
    next hc =>
      rcases List.mem_append.mp hr with hend | hrest
      · refine .inl (h.isWord_of_mem_endRun (fun hcode => ?_) hend)
        simpa [BeginsNoWord, hcode] using hc
      · rw [hsplit]
        exact ih (h.concat_other hc) hrest

end ReadWords

theorem mem_runs_cases {t : Text} {r : Run} (h : r ∈ runs t 0) :
    r.IsWord t ∨ r ∈ danglingBackslash t :=
  ReadWords.nil.mem_runsFrom_cases (show r ∈ runsFrom .code ([] : Text).length [] t from h)

/-! ## Every maximal run is a word -/

/-- The run that begins with `word` goes on as long as there are word characters. -/
theorem runsFrom_word {word : Text} (hne : word ≠ []) (offset : Nat) (t : Text) :
    runsFrom .code offset word t =
      ⟨offset - word.length, word ++ t.takeWhile isWordChar⟩ ::
        runsFrom .code (offset + (t.takeWhile isWordChar).length) [] (t.dropWhile isWordChar) := by
  induction t generalizing word offset with
  | nil => simp [runsFrom, endRun, hne]
  | cons c t ih =>
    by_cases hc : isWordChar c = true
    · have hne' : word ++ [c] ≠ [] := by simp
      have hrest := ih hne' (offset + 1)
      simp only [runsFrom, hc, List.takeWhile_cons, List.dropWhile_cons, if_true, and_self, hrest,
        List.length_append, List.length_cons, List.length_nil, List.append_assoc, List.cons_append,
        List.nil_append]
      congr 2 <;> omega
    · simp [runsFrom, hc, endRun, hne]

theorem runsFrom_cons_word {c : Char} (hc : isWordChar c = true) (offset : Nat) (t : Text) :
    runsFrom .code offset [] (c :: t) =
      ⟨offset, c :: t.takeWhile isWordChar⟩ ::
        runsFrom .code (offset + 1 + (t.takeWhile isWordChar).length) []
          (t.dropWhile isWordChar) := by
  have hread : runsFrom .code offset [] (c :: t) = runsFrom .code (offset + 1) [c] t := by
    simp [runsFrom, hc]
  rw [hread, runsFrom_word (by simp)]
  rfl

/-- A text is cut in code where no word goes on. -/
theorem runsFrom_append {mode : Mode} {word x : Text} (hw : word.all isWordChar = true)
    (hx : mode.run x = .code) (hends : EndsNoWord (word ++ x)) (offset : Nat) (y : Text) :
    runsFrom mode offset word (x ++ y) =
      runsFrom mode offset word x ++ runsFrom .code (offset + x.length) [] y := by
  induction x generalizing mode word offset with
  | nil =>
    obtain rfl : mode = .code := hx
    rw [List.append_nil] at hends
    rcases List.eq_nil_or_concat word with rfl | ⟨init, c, rfl⟩
    · rfl
    · rw [List.concat_eq_append, endsNoWord_concat_iff] at hends
      simp [hends] at hw
  | cons c x ih =>
    have hoffset : offset + (c :: x).length = offset + 1 + x.length := by
      rw [List.length_cons]
      omega
    rw [List.cons_append, runsFrom, runsFrom, hoffset]
    split
    next hc =>
      rw [hc.1, Mode.run_cons, Mode.step_code_of_isAtomChar (isAtomChar_of_isWordChar hc.2)] at hx
      exact ih (by simp [hw, hc.2]) hx (by simpa using hends) (offset + 1)
    next hc =>
      rw [List.append_assoc]
      congr 1
      have hrest : EndsNoWord ([] ++ x) := by
        rw [List.append_cons] at hends
        exact hends.of_append
      exact ih rfl hx hrest (offset + 1)

theorem Run.IsWord.mem_runs {t : Text} {r : Run} (h : r.IsWord t) : r ∈ runs t 0 := by
  obtain ⟨a, b, rfl, hstart, hcode, hends, hbegins⟩ := h.maximal
  have hcut : runs (a ++ (r.word ++ b)) 0 =
      runsFrom .code 0 [] a ++ runsFrom .code (0 + a.length) [] (r.word ++ b) :=
    runsFrom_append rfl hcode (by simpa using hends) 0 (r.word ++ b)
  rw [hcut, List.mem_append, Nat.zero_add, hstart]
  right
  have hne := h.ne_nil
  have hall := h.all_isWordChar
  cases r with
  | mk start word =>
    cases word with
    | nil => exact absurd rfl hne
    | cons c w =>
      simp only [List.all_cons, Bool.and_eq_true] at hall
      rw [List.cons_append, runsFrom_cons_word hall.1,
        takeWhile_append_of_head hall.2 hbegins]
      exact List.mem_cons_self

/-! ## Order -/

theorem le_start_of_mem_endRun {offset : Nat} {word : Text} {r : Run}
    (h : r ∈ endRun offset word) : offset ≤ r.start + word.length := by
  obtain ⟨-, rfl⟩ := mem_endRun h
  show offset ≤ offset - word.length + word.length
  omega

/-- No run found by reading on starts before the part of a word that was read, or before the
backslash that was. -/
theorem le_start_of_mem_runsFrom {mode : Mode} {offset : Nat} {word t : Text} {r : Run}
    (h : r ∈ runsFrom mode offset word t) :
    offset ≤ r.start + word.length ∨ mode = .escape ∧ offset ≤ r.start + 1 := by
  induction t generalizing mode offset word with
  | nil =>
    rcases List.mem_append.mp h with hend | hlast
    · exact .inl (le_start_of_mem_endRun hend)
    · split at hlast
      next hmode =>
        rw [List.mem_singleton.mp hlast]
        exact .inr ⟨hmode, by show offset ≤ offset - 1 + 1; omega⟩
      next => simp at hlast
  | cons c t ih =>
    rw [runsFrom] at h
    split at h
    next =>
      rcases ih h with hle | ⟨hmode, -⟩
      · left
        simp only [List.length_append, List.length_cons, List.length_nil] at hle
        omega
      · cases hmode
    next =>
      left
      rcases List.mem_append.mp h with hend | hrest
      · exact le_start_of_mem_endRun hend
      · rcases ih hrest with hle | ⟨-, hle⟩
        · simp only [List.length_nil] at hle
          omega
        · omega

theorem pairwise_endRun (offset : Nat) (word : Text) (R : Run → Run → Prop) :
    (endRun offset word).Pairwise R := by
  unfold endRun
  split <;> simp

theorem pairwise_runsFrom {mode : Mode} {offset : Nat} {word : Text}
    (hcode : word ≠ [] → mode = .code) (hlen : word.length ≤ offset) (t : Text) :
    (runsFrom mode offset word t).Pairwise fun r r' => r.stop < r'.start := by
  induction t generalizing mode offset word with
  | nil =>
    rw [runsFrom]
    split
    next hmode =>
      have hnil : word = [] := by
        by_contra hne
        rw [hcode hne] at hmode
        cases hmode
      simp [hnil, endRun]
    next => simpa using pairwise_endRun offset word _
  | cons c t ih =>
    rw [runsFrom]
    split
    next => exact ih (fun _ => rfl) (by rw [List.length_append]; exact Nat.succ_le_succ hlen)
    next =>
      rw [List.pairwise_append]
      refine ⟨pairwise_endRun offset word _, ih (by simp) (by simp), ?_⟩
      intro r hr r' hr'
      obtain ⟨hne, rfl⟩ := mem_endRun hr
      have hstop : Run.stop ⟨offset - word.length, word⟩ = offset := by
        show offset - word.length + word.length = offset
        omega
      rw [hstop]
      rcases le_start_of_mem_runsFrom hr' with hle | ⟨hescape, -⟩
      · exact hle
      · rw [hcode hne, Mode.step_eq_escape_iff] at hescape
        exact absurd hescape.1 (by simp)

theorem pairwise_runs (t : Text) : (runs t 0).Pairwise fun r r' => r.stop < r'.start :=
  pairwise_runsFrom (by simp) (Nat.le_refl 0) _

/-! ## A word is part of an atom -/

/-- The reader that stops behind the run is in code, in a token that starts at or before the run
and is an atom that reaches at least as far. -/
def Run.InAtom (t : Text) (r : Run) : Prop :=
  (Reader.ofText (t.take r.stop)).mode = .code ∧
    ∃ start stop : Nat, (Reader.ofText (t.take r.stop)).token = some start ∧ start ≤ r.start ∧
      t.atomEnd start = .ok stop ∧ r.stop ≤ stop

/-- Behind a word the reader is in the token of an atom, and the whole word belongs to that. -/
theorem Run.IsWord.inAtom {t : Text} {r : Run} (h : r.IsWord t) : r.InAtom t := by
  obtain ⟨a, b, rfl, hstart, hcode, -, -⟩ := h.maximal
  have hatom := all_isAtomChar_of_isWordChar h.all_isWordChar
  have hstop : (a ++ r.word).length = r.stop := by
    rw [List.length_append, hstart]
    rfl
  have htake : (a ++ (r.word ++ b)).take r.stop = a ++ r.word := by
    rw [← List.append_assoc, ← hstop, List.take_left]
  have hmode : (Reader.ofText (a ++ r.word)).mode = .code := by
    rw [Reader.mode_ofText, Mode.run_append, hcode, Mode.run_code_of_isAtomChar hatom]
  have htoken : (Reader.ofText (a ++ r.word)).token =
      some ((Reader.ofText a).token.getD r.start) := by
    rw [← Reader.mode_ofText] at hcode
    rw [Reader.ofText_append, Reader.run_isAtomChar hcode h.ne_nil hatom, Reader.offset_ofText,
      hstart]
  have hle : (Reader.ofText a).token.getD r.start ≤ r.start := by
    cases hk : (Reader.ofText a).token with
    | none => exact Nat.le_refl _
    | some k =>
      have hlt := (Reader.sound_ofText a).token_lt k hk
      rw [Reader.offset_ofText, hstart] at hlt
      exact Nat.le_of_lt hlt
  have hall := Reader.all_isAtomChar_of_token hmode htoken
  rw [Run.InAtom, htake]
  generalize (Reader.ofText a).token.getD r.start = start at htoken hle hall
  have hdrop : (a ++ (r.word ++ b)).drop start = (a ++ r.word).drop start ++ b := by
    rw [← List.append_assoc, List.drop_append_of_le_length]
    rw [hstop]
    exact Nat.le_trans hle (Nat.le_add_right _ _)
  refine ⟨hmode, start, start + (((a ++ (r.word ++ b)).drop start).takeWhile isAtomChar).length,
    htoken, hle, rfl, ?_⟩
  rw [hdrop, List.takeWhile_append_of_pos (List.all_eq_true.mp hall), List.length_append,
    List.length_drop, hstop]
  omega

end FlowEdit
