import FlowEdit.Proofs.ExactAnchor
import FlowEdit.Proofs.WordLexer

/-!
Scanning by offsets. The loops here ask for one character at a time by its offset and fail if there
is none, and they jump: over what a backslash escapes, over comments to the newline and over strings
to their ends. None of them fails up to a limit inside the text, and each finds what the functions
on the text say: the closing quote (`closeFrom_eq`), whether a string is open (`inString_eq`) and
the anchor (`anchorBefore_eq`), going back from one `(` in column 0 to the one before.
-/

namespace FlowEdit

open Text

namespace Indexed

/-! ## Single characters -/

/-- The character at an offset, which may be negative. Outside the text there is none. -/
def charAt (t : Text) (i : Int) : Except OffsetError Char :=
  match readFrom t i with
  | .error e => .error e
  | .ok [] => .error .outOfRange
  | .ok (c :: _) => .ok c

theorem readFrom_natCast (t : Text) (i : Nat) : readFrom t i = .ok (t.drop i) := by
  simp [readFrom]

theorem charAt_of_drop {t rest : Text} {c : Char} {i : Nat} (h : t.drop i = c :: rest) :
    charAt t i = .ok c := by
  rw [charAt, readFrom_natCast, h]

theorem drop_take_of_le {t : Text} {i stop : Nat} (h : stop ≤ i) : (t.take stop).drop i = [] := by
  rw [List.drop_eq_nil_iff, List.length_take]
  omega

section

variable {t : Text} {i stop : Nat} (hi : i < stop) (hstop : stop ≤ t.length)

include hi hstop

/-- In front of a limit inside the text there is a character to read. -/
theorem charAt_ne_error (e : OffsetError) : charAt t i ≠ .error e := by
  have hdrop := List.drop_eq_getElem_cons (Nat.lt_of_lt_of_le hi hstop)
  rw [charAt_of_drop hdrop]
  nofun

theorem drop_of_charAt {c : Char} (h : charAt t i = .ok c) :
    (t.take stop).drop i = c :: (t.take stop).drop (i + 1) := by
  have hlt : i < (t.take stop).length := by
    rw [List.length_take]
    omega
  have hdrop := List.drop_eq_getElem_cons (Nat.lt_of_lt_of_le hi hstop)
  rw [charAt_of_drop hdrop] at h
  rw [List.drop_eq_getElem_cons hlt, List.getElem_take, Except.ok.inj h]

end

theorem readFrom_of_length_le {t : Text} {i : Int} (h : (t.length : Int) ≤ i) :
    readFrom t i = .ok [] := by
  have hnonneg : 0 ≤ i := by omega
  have hdrop : t.drop i.toNat = [] := by
    rw [List.drop_eq_nil_iff]
    omega
  simp [readFrom, hnonneg, hdrop]

theorem offsetError?_eq_none_iff {t : Text} {i : Int} :
    offsetError? t i = none ↔ isIndex i = true ∧ 0 ≤ t.length + i := by
  unfold offsetError?
  cases isIndex i <;> simp

theorem offsetError?_succ {t : Text} {i : Int} (hi : i + 1 < 0) (h : offsetError? t i = none) :
    offsetError? t (i + 1) = none := by
  rw [offsetError?_eq_none_iff] at h ⊢
  simp only [isIndex, Bool.and_eq_true, decide_eq_true_eq] at h ⊢
  omega

theorem readFrom_neg {t : Text} {i : Int} (hi : i < 0) (h : offsetError? t i = none) :
    readFrom t i = .ok (t.drop (t.length + i).toNat ++ t) := by
  rw [readFrom, if_neg (by omega), h]

/-- What is met from an offset on is the character there and what is met behind it. From -1 on this
is the last character, and then the text from its start. -/
theorem readFrom_cases {t : Text} {i : Int} (h : i < t.length) :
    (∃ e, readFrom t i = .error e) ∨
      ∃ c rest, readFrom t i = .ok (c :: rest) ∧ readFrom t (i + 1) = .ok rest := by
  by_cases hi : 0 ≤ i
  · right
    lift i to Nat using hi
    have hlt : i < t.length := Int.ofNat_lt.mp h
    refine ⟨t[i], t.drop (i + 1), ?_, readFrom_natCast t (i + 1)⟩
    rw [readFrom_natCast, List.drop_eq_getElem_cons hlt]
  · cases herror : offsetError? t i with
    | some e => exact .inl ⟨e, by simp [readFrom, hi, herror]⟩
    | none =>
      right
      have hfront := (offsetError?_eq_none_iff.mp herror).2
      have hlt : (t.length + i).toNat < t.length := by omega
      refine ⟨t[(t.length + i).toNat], t.drop ((t.length + i).toNat + 1) ++ t, ?_, ?_⟩
      · rw [readFrom_neg (by omega) herror, List.drop_eq_getElem_cons hlt]
        rfl
      · by_cases hlast : i = -1
        · have hnil : t.drop ((t.length + i).toNat + 1) = [] := by
            rw [List.drop_eq_nil_iff]
            omega
          rw [hnil, hlast]
          exact readFrom_natCast t 0
        · rw [readFrom_neg (by omega) (offsetError?_succ (by omega) herror)]
          congr 3
          omega

theorem readFrom_of_charAt_error {t : Text} {i : Int} {e : OffsetError} (hi : i < t.length)
    (h : charAt t i = .error e) : readFrom t i = .error e := by
  unfold charAt at h
  rcases readFrom_cases hi with ⟨e', hread⟩ | ⟨c, rest, hread, -⟩
  · rw [hread] at h
    rw [hread, Except.error.inj h]
  · rw [hread] at h
    cases h

theorem readFrom_of_charAt {t : Text} {i : Int} {c : Char} (hi : i < t.length)
    (h : charAt t i = .ok c) :
    ∃ rest, readFrom t i = .ok (c :: rest) ∧ readFrom t (i + 1) = .ok rest := by
  unfold charAt at h
  rcases readFrom_cases hi with ⟨e', hread⟩ | ⟨c', rest, hread, hnext⟩
  · rw [hread] at h
    cases h
  · rw [hread] at h
    obtain rfl : c' = c := Except.ok.inj h
    exact ⟨rest, hread, hnext⟩

/-! ## Passing over characters of a class -/

/-- The first offset from `i` on at which no character of the class stands. -/
def passWhile (p : Char → Bool) (t : Text) (i : Int) : Except OffsetError Int :=
  if i < t.length then
    match charAt t i with
    | .error e => .error e
    | .ok c => if p c then passWhile p t (i + 1) else .ok i
  else .ok i
termination_by (t.length - i).toNat

theorem passWhile_eq (p : Char → Bool) (t : Text) (i : Int) :
    passWhile p t i = (readFrom t i).map fun ahead => i + (ahead.takeWhile p).length := by
  fun_induction passWhile p t i with
  | case1 i hi e he =>
    rw [readFrom_of_charAt_error hi he]
    rfl
  | case2 i hi c hc hp ih =>
    obtain ⟨rest, hread, hnext⟩ := readFrom_of_charAt hi hc
    rw [ih, hread, hnext]
    simp [Except.map, hp]
    omega
  | case3 i hi c hc hp =>
    obtain ⟨rest, hread, -⟩ := readFrom_of_charAt hi hc
    rw [hread]
    simp [Except.map, hp]
  | case4 i hi =>
    rw [readFrom_of_length_le (Int.not_lt.mp hi)]
    simp [Except.map]

theorem passWhile_natCast (p : Char → Bool) (t : Text) (i : Nat) :
    passWhile p t i = .ok (i + ((t.drop i).takeWhile p).length : Nat) := by
  rw [passWhile_eq, readFrom_natCast]
  rfl

/-! ## Closing quotes -/

/-- Offset just past the closing quote of a string, looking at the offsets from `j` on in front of
`limit`. What a backslash escapes is not looked at. -/
def closeFrom (t : Text) (limit j : Nat) : Except OffsetError (Option Nat) :=
  if j < limit then
    match charAt t j with
    | .error e => .error e
    | .ok c =>
      if c = '\\' then closeFrom t limit (j + 2)
      else if c = '"' then .ok (some (j + 1))
      else closeFrom t limit (j + 1)
  else .ok none
termination_by limit - j

theorem lt_of_closeFrom {t : Text} {limit j k : Nat} (h : closeFrom t limit j = .ok (some k)) :
    j < k := by
  fun_induction closeFrom t limit j with
  | case1 => cases h
  | case2 j _ _ ih => exact Nat.lt_trans (by omega) (ih h)
  | case3 j =>
    have := Option.some.inj (Except.ok.inj h)
    omega
  | case4 j _ c _ _ _ ih => exact Nat.lt_trans (by omega) (ih h)
  | case5 => cases h

theorem map_map_add (found : Except OffsetError (Option Nat)) (j m : Nat) :
    (found.map (Option.map (· + m))).map (Option.map (j + ·)) =
      found.map (Option.map (j + m + ·)) := by
  cases found with
  | error e => rfl
  | ok k =>
    have hadd : ((j + ·) ∘ (· + m) : Nat → Nat) = (j + m + ·) := by
      funext k
      show j + (k + m) = j + m + k
      omega
    simp only [Except.map, Option.map_map, hadd]

theorem closeFrom_eq {t : Text} {limit : Nat} (hlimit : limit ≤ t.length) (j : Nat) :
    closeFrom t limit j = (closingQuote ((t.take limit).drop j) ((t.take limit).drop j).length).map
      (Option.map (j + ·)) := by
  fun_induction closeFrom t limit j with
  | case1 j hj e he => exact absurd he (charAt_ne_error hj hlimit e)
  | case2 j hj hc ih =>
    have hnext : (t.take limit).drop (j + 2) = ((t.take limit).drop (j + 1)).drop 1 := by
      rw [List.drop_drop]
    rw [ih, drop_of_charAt hj hlimit hc, hnext]
    generalize (t.take limit).drop (j + 1) = rest
    cases rest with
    | nil => simp [closingQuote, Except.map]
    | cons d rest =>
      simp only [List.drop_succ_cons, List.drop_zero, List.length_cons]
      rw [closingQuote_escape, map_map_add]
  | case3 j hj hc =>
    rw [drop_of_charAt hj hlimit hc, List.length_cons, closingQuote_quote]
    rfl
  | case4 j hj c hc hb hq ih =>
    rw [ih, drop_of_charAt hj hlimit hc, List.length_cons, closingQuote_other hq hb, map_map_add]
  | case5 j hj =>
    rw [drop_take_of_le (Nat.le_of_not_lt hj)]
    rfl

section

variable {t : Text} {limit j : Nat} (hlimit : limit ≤ t.length)

include hlimit

/-- The search for the closing quote does not look past the limit. -/
theorem closeFrom_ne_error (e : OffsetError) : closeFrom t limit j ≠ .error e := by
  rw [closeFrom_eq hlimit]
  cases quoteSearch ((t.take limit).drop j) with
  | closed body rest isBody text found =>
    rw [found]
    nofun
  | unclosed body isBody text found =>
    rw [found]
    nofun

/-- A closing quote is found behind a string body. -/
theorem text_of_closeFrom {k : Nat} (h : closeFrom t limit j = .ok (some k)) :
    ∃ body, isStringBody false body = true ∧ k = j + body.length + 1 ∧
      (t.take limit).drop j = body ++ '"' :: (t.take limit).drop k := by
  rw [closeFrom_eq hlimit] at h
  cases quoteSearch ((t.take limit).drop j) with
  | closed body rest isBody text found =>
    rw [found] at h
    obtain rfl : j + (body.length + 1) = k := Option.some.inj (Except.ok.inj h)
    refine ⟨body, isBody, rfl, ?_⟩
    rw [← List.drop_drop, text, ← List.drop_drop, List.drop_left]
    rfl
  | unclosed body isBody text found =>
    rw [found] at h
    cases h

/-- Without a closing quote there is a body up to the limit, or a body and a backslash. -/
theorem text_of_closeFrom_none (h : closeFrom t limit j = .ok none) :
    ∃ body, isStringBody false body = true ∧
      ((t.take limit).drop j = body ∨ (t.take limit).drop j = body ++ ['\\']) := by
  rw [closeFrom_eq hlimit] at h
  cases quoteSearch ((t.take limit).drop j) with
  | closed body rest isBody text found =>
    rw [found] at h
    cases h
  | unclosed body isBody text found => exact ⟨body, isBody, text⟩

end

/-! ## Inside a string or not -/

/-- Offset of the newline that ends a comment, looking from `i` on, or `stop` if there is none in
front of it. -/
def lineEnd (t : Text) (stop i : Nat) : Nat := i + (upToChar '\n' ((t.take stop).drop i)).length

/-- Whether `stop` is inside a string, where the text is in code at `i`. -/
def inString (t : Text) (stop i : Nat) : Except OffsetError Bool :=
  if i < stop then
    match charAt t i with
    | .error e => .error e
    | .ok c =>
      if c = ';' then inString t stop (lineEnd t stop (i + 1))
      else if c = '"' then
        match _h : closeFrom t stop (i + 1) with
        | .error e => .error e
        | .ok none => .ok true
        | .ok (some j) => inString t stop j
      else inString t stop (i + 1)
  else .ok false
termination_by stop - i
decreasing_by
  · unfold lineEnd
    omega
  · have := lt_of_closeFrom _h
    omega
  · omega

theorem drop_lineEnd (t : Text) (stop i : Nat) :
    (t.take stop).drop (lineEnd t stop i) = ((t.take stop).drop i).dropWhile (· != '\n') := by
  rw [lineEnd, ← List.drop_drop]
  exact drop_length_takeWhile _ _

theorem inString_eq {t : Text} {stop : Nat} (hstop : stop ≤ t.length) (i : Nat) :
    inString t stop i = .ok (Mode.code.run ((t.take stop).drop i)).inString := by
  fun_induction inString t stop i with
  | case1 i hi e he => exact absurd he (charAt_ne_error hi hstop e)
  | case2 i hi hc ih =>
    rw [ih, drop_lineEnd, drop_of_charAt hi hstop hc, ← Mode.inString_run_comment]
    rfl
  | case3 i hi e he => exact absurd he (closeFrom_ne_error hstop e)
  | case4 i hi hnone hc =>
    obtain ⟨body, hbody, htext⟩ := text_of_closeFrom_none hstop hnone
    have hrun : Mode.string.run body = .string := Mode.run_isStringBody hbody
    rw [drop_of_charAt hi hstop hc]
    show _ = Except.ok (Mode.string.run _).inString
    rcases htext with htext | htext
    · rw [htext, hrun]
      rfl
    · rw [htext, Mode.run_append, hrun]
      rfl
  | case5 i hi j hsome hc _ ih =>
    obtain ⟨body, hbody, -, htext⟩ := text_of_closeFrom hstop hsome
    have hrun : Mode.string.run body = .string := Mode.run_isStringBody hbody
    rw [ih, drop_of_charAt hi hstop hc]
    show _ = Except.ok (Mode.string.run _).inString
    rw [htext, Mode.run_append, hrun]
    rfl
  | case6 i hi c hc hsemi hquote ih =>
    have hcode : Mode.code.step c = .code := Mode.step_eq_code_iff.mpr (.inl ⟨rfl, hquote, hsemi⟩)
    rw [ih, drop_of_charAt hi hstop hc, Mode.run_cons, hcode]
  | case7 i hi =>
    rw [drop_take_of_le (Nat.le_of_not_lt hi)]
    rfl

/-! ## Anchors -/

/-- The last `(` in column 0 in front of `stop`. -/
def lastParen (t : Text) : Nat → Option Nat
  | 0 => none
  | stop + 1 => if ParenInColumnZero t stop then some stop else lastParen t stop

theorem lt_of_lastParen {t : Text} {stop c : Nat} (h : lastParen t stop = some c) : c < stop := by
  induction stop with
  | zero => cases h
  | succ stop ih =>
    rw [lastParen] at h
    split at h
    · exact Nat.lt_succ_of_le (Nat.le_of_eq (Option.some.inj h).symm)
    · exact Nat.lt_succ_of_lt (ih h)

/-- The last `(` in column 0 in front of `stop` that is not inside a string, as the text is read
from the one before. -/
def anchorBefore (t : Text) (stop : Nat) : Except OffsetError Nat :=
  match _h : lastParen t stop with
  | none => .ok 0
  | some c =>
    match inString t c ((lastParen t (c - 1)).getD 0) with
    | .error e => .error e
    | .ok false => .ok c
    | .ok true => anchorBefore t (c - 1)
termination_by stop
decreasing_by
  have := lt_of_lastParen _h
  omega

/-- The state of the search for an anchor at an offset. -/
def searchAt (t : Text) (n : Nat) : AnchorSearch := AnchorSearch.run {} (t.take n)

theorem searchAt_succ {t : Text} {n : Nat} (h : n < t.length) :
    searchAt t (n + 1) = (searchAt t n).step t[n] := by
  rw [searchAt, List.take_succ_eq_append_getElem h, AnchorSearch.run_append]
  rfl

theorem afterNewline_searchAt {t : Text} {n : Nat} (h : n ≤ t.length) :
    (searchAt t n).afterNewline = true ↔ 0 < n ∧ t[n - 1]? = some '\n' := by
  cases n with
  | zero => simp [searchAt, AnchorSearch.run]
  | succ n =>
    have hget : t[n]? = some t[n] := List.getElem?_eq_getElem h
    rw [searchAt_succ h, AnchorSearch.step, Nat.add_sub_cancel, hget]
    split
    next hparen =>
      have hchar : t[n] = '(' := by simpa using (Bool.and_eq_true_iff.mp hparen).2
      simp [hchar]
    next => simp

theorem searchAt_succ_eq {t : Text} {n : Nat} (h : n < t.length) :
    searchAt t (n + 1) =
      if ParenInColumnZero t n then
        { offset := n + 1
          anchor := if (searchAt t n).mode.inString then (searchAt t n).anchor else n }
      else
        { offset := n + 1
          anchor := (searchAt t n).anchor
          mode := (searchAt t n).mode.step t[n]
          afterNewline := t[n] == '\n' } := by
  have hoffset : (searchAt t n).offset = n := by
    have := (searched (t.take n)).offset
    rw [List.length_take] at this
    exact this.trans (by omega)
  have hparen : ((searchAt t n).afterNewline && t[n] == '(') = true ↔ ParenInColumnZero t n := by
    rw [Bool.and_eq_true, afterNewline_searchAt (Nat.le_of_lt h), ParenInColumnZero, and_assoc]
    simp [h]
  rw [searchAt_succ h, AnchorSearch.step, hoffset]
  simp only [hparen]

theorem lastParen_getD_le (t : Text) (n : Nat) : (lastParen t n).getD 0 ≤ n := by
  cases h : lastParen t n with
  | none => exact Nat.zero_le n
  | some c => exact Nat.le_of_lt (lt_of_lastParen h)

/-- The search is in the mode that is read from the last candidate on. -/
theorem mode_searchAt {t : Text} {n : Nat} (h : n ≤ t.length) :
    (searchAt t n).mode = Mode.code.run ((t.take n).drop ((lastParen t n).getD 0)) := by
  induction n with
  | zero => rfl
  | succ n ih =>
    rw [searchAt_succ_eq h, lastParen, List.take_succ_eq_append_getElem h]
    have hlen : (t.take n).length = n := by
      rw [List.length_take]
      omega
    split
    next hparen =>
      obtain ⟨_, hchar⟩ := List.getElem?_eq_some_iff.mp hparen.2.2
      have hdrop : (t.take n ++ [t[n]]).drop n = ['('] := by rw [hchar, List.drop_left' hlen]
      rw [Option.getD_some, hdrop]
      rfl
    next =>
      have hle : (lastParen t n).getD 0 ≤ (t.take n).length := by
        rw [hlen]
        exact lastParen_getD_le t n
      rw [List.drop_append_of_le_length hle, Mode.run_append, ← ih (Nat.le_of_lt h)]
      rfl

/-- Behind the last candidate the anchor stays what that one has made it. -/
theorem anchor_searchAt {t : Text} {n : Nat} (h : n ≤ t.length) :
    (searchAt t n).anchor =
      match lastParen t n with
      | none => 0
      | some c => if (searchAt t c).mode.inString then (searchAt t c).anchor else c := by
  induction n with
  | zero => rfl
  | succ n ih =>
    rw [searchAt_succ_eq h, lastParen]
    split
    next => rfl
    next => exact ih (Nat.le_of_lt h)

theorem parenInColumnZero_of_lastParen {t : Text} {stop c : Nat} (h : lastParen t stop = some c) :
    ParenInColumnZero t c := by
  induction stop with
  | zero => cases h
  | succ stop ih =>
    rw [lastParen] at h
    split at h
    next hparen =>
      obtain rfl : stop = c := Option.some.inj h
      exact hparen
    next => exact ih h

/-- The newline in front of a candidate is no candidate. -/
theorem before_candidate {t : Text} {c : Nat} (h : ParenInColumnZero t c) :
    lastParen t c = lastParen t (c - 1) ∧ (searchAt t c).anchor = (searchAt t (c - 1)).anchor := by
  obtain ⟨hpos, hnewline, hparen⟩ := h
  obtain ⟨k, rfl⟩ := Nat.exists_eq_add_one_of_ne_zero (Nat.ne_of_gt hpos)
  obtain ⟨hlt, -⟩ := List.getElem?_eq_some_iff.mp hparen
  rw [Nat.add_sub_cancel] at hnewline ⊢
  have hno : ¬ ParenInColumnZero t k := by
    rintro ⟨-, -, hk⟩
    rw [hnewline] at hk
    exact absurd (Option.some.inj hk) (by decide)
  constructor
  · rw [lastParen, if_neg hno]
  · rw [searchAt_succ_eq (Nat.lt_of_succ_lt hlt), if_neg hno]

/-- Whether a candidate is inside a string is found by a reading from the candidate before. -/
theorem inString_lastParen {t : Text} {stop c : Nat} (hstop : stop ≤ t.length)
    (h : lastParen t stop = some c) :
    inString t c ((lastParen t (c - 1)).getD 0) = .ok (searchAt t c).mode.inString := by
  have hc : c ≤ t.length := Nat.le_trans (Nat.le_of_lt (lt_of_lastParen h)) hstop
  rw [inString_eq hc, mode_searchAt hc,
    (before_candidate (parenInColumnZero_of_lastParen h)).1]

/-- Going back from candidate to candidate finds the anchor of the search. -/
theorem anchorBefore_eq {t : Text} {stop : Nat} (hstop : stop ≤ t.length) :
    anchorBefore t stop = .ok (anchor (t.take stop)) := by
  show anchorBefore t stop = .ok (searchAt t stop).anchor
  have hanchor := anchor_searchAt hstop
  fun_induction anchorBefore t stop with
  | case1 stop hnone =>
    rw [hanchor, hnone]
  | case2 stop c hsome e he => cases (inString_lastParen hstop hsome).symm.trans he
  | case3 stop c hsome hfalse =>
    have hcode := Except.ok.inj ((inString_lastParen hstop hsome).symm.trans hfalse)
    rw [hanchor, hsome]
    simp only [hcode, Bool.false_eq_true, if_false]
  | case4 stop c hsome htrue ih =>
    -- the search has kept its anchor at `c`, and at the newline in front of it
    have hstring := Except.ok.inj ((inString_lastParen hstop hsome).symm.trans htrue)
    have hle : c - 1 ≤ t.length := by
      have := lt_of_lastParen hsome
      omega
    rw [ih hle (anchor_searchAt hle), hanchor, hsome]
    simp only [hstring, if_true, (before_candidate (parenInColumnZero_of_lastParen hsome)).2]

end Indexed

end FlowEdit
