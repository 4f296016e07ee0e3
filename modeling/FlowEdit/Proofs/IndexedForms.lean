import FlowEdit.Proofs.IndexedScan

/-!
Reading forms by offsets. The scanner keeps the open forms and jumps from the end of one tree to the
next, also past the position if an atom is cut there. It finds what the reader finds character by
character (`Indexed.scan_eq`), and so do the queries that are built on it.
-/

namespace FlowEdit

open Text

/-! ## Reading a comment, a string or an atom -/

namespace Reader

/-- What a reader has found: the open forms, and whether it is inside a string. -/
def found (r : Reader) : List Frame × Bool := (r.frames, r.mode.inString)

theorem step_blank {c : Char} (h : isBlank c = true) (offset : Nat) (frames : List Frame) :
    (idle offset frames).step c = idle (offset + 1) frames := by
  have hgap : isGap false [c] = true := by
    have hsemi : c ≠ ';' := by
      rintro rfl
      exact absurd h (by decide)
    simp [isGap, hsemi, h]
  obtain ⟨k, hk, hstep⟩ := step_isGap hgap offset frames
  obtain rfl : k = false := by simpa [isGap] using hk
  exact hstep

/-- A comment is left at its newline. Without one it goes on to the end, where nothing is found that
was not found before. -/
theorem found_comment (offset : Nat) (frames : List Frame) (t after : Text) :
    ((({ offset, mode := .comment, frames } : Reader).run t).settle after).found =
      (((idle (offset + (upToChar '\n' t).length) frames).run
        (t.dropWhile (· != '\n'))).settle after).found := by
  induction t generalizing offset with
  | nil =>
    rw [settle_of_token_eq_none rfl, settle_of_token_eq_none rfl]
    rfl
  | cons c t ih =>
    by_cases hc : c = '\n'
    · subst hc
      rfl
    · have hstep : ({ offset, mode := .comment, frames } : Reader).step c =
          { offset := offset + 1, mode := .comment, frames } := by
        simp [step, Mode.step, hc]
      rw [run_cons, hstep, ih]
      simp [upToChar, hc, Nat.add_assoc, Nat.add_comm 1]

/-- A string that is not closed is no child. -/
theorem found_unclosed {body rest : Text} (hbody : isStringBody false body = true)
    (hrest : rest = body ∨ rest = body ++ ['\\']) (offset : Nat) (frames : List Frame)
    (after : Text) :
    (((idle offset frames).run ('"' :: rest)).settle after).found = (frames, true) := by
  have hclosed : isStringBody false (body ++ []) = true := by rwa [List.append_nil]
  obtain ⟨k, hk, hrun⟩ := run_open_string hclosed offset frames
  obtain rfl : k = false := by simpa [isStringBody] using hk
  rcases hrest with rfl | rfl
  · rw [hrun, settle_of_inString rfl]
    rfl
  · rw [← List.cons_append, run_append, hrun]
    exact congrArg found (settle_of_inString rfl after)

theorem run_closed {body : Text} (hbody : isStringBody false body = true) (offset : Nat)
    (frames : List Frame) (rest : Text) :
    (idle offset frames).run ('"' :: (body ++ '"' :: rest)) =
      (idle (offset + 1 + body.length + 1) (Frame.addInnermost offset frames)).run rest := by
  have hsplit : '"' :: (body ++ '"' :: rest) = '"' :: (body ++ ['"']) ++ rest := by simp
  rw [hsplit, run_append, run_string ⟨body, hbody⟩, show offset + body.length + 2 =
    offset + 1 + body.length + 1 by omega]

section

variable {x y : Text} {n : Nat}

/-- An atom that ends in front of the cut is a child. -/
theorem found_atom (hn : ((x ++ y).takeWhile isAtomChar).length = n) (hpos : 0 < n)
    (hle : n ≤ x.length) (offset : Nat) (frames : List Frame) :
    (((idle offset frames).run x).settle y).found =
      (((idle (offset + n) (Frame.addInnermost offset frames)).run (x.drop n)).settle y).found := by
  have hatom : (x ++ y).takeWhile isAtomChar = x.take n := by
    have hprefix := List.prefix_iff_eq_take.mp (List.takeWhile_prefix isAtomChar (l := x ++ y))
    rw [hn, List.take_append_of_le_length hle] at hprefix
    exact hprefix
  have hall : (x.take n).all isAtomChar = true := by
    rw [← hatom]
    exact List.all_takeWhile
  have hne : x.take n ≠ [] := List.ne_nil_of_length_pos (by rw [List.length_take]; omega)
  have hends : EndsAtom (x.drop n ++ y) := by
    have hdrop : x.drop n ++ y = (x ++ y).dropWhile isAtomChar := by
      rw [← List.drop_append_of_le_length hle, ← hn, drop_length_takeWhile]
    have hhead := List.head?_dropWhile_not isAtomChar (x ++ y)
    rw [EndsAtom, hdrop]
    cases hc : ((x ++ y).dropWhile isAtomChar).head? with
    | none => rfl
    | some c => simpa [hc] using hhead
  have hrun : (idle offset frames).run x =
      ({ offset := offset + n, token := some offset, frames } : Reader).run (x.drop n) := by
    conv_lhs => rw [← List.take_append_drop n x, run_append, run_atom hne hall]
    rw [List.length_take, Nat.min_eq_left hle]
  rw [hrun, settle_run_finishToken rfl hends]
  rfl

/-- An atom that goes on behind the cut is none. -/
theorem found_cut_atom (h : x.length < ((x ++ y).takeWhile isAtomChar).length) (hne : x ≠ [])
    (offset : Nat) (frames : List Frame) :
    (((idle offset frames).run x).settle y).found = (frames, false) := by
  rw [List.takeWhile_append] at h
  split at h
  next hlen =>
    have hall : x.all isAtomChar = true := by
      have hself : x.takeWhile isAtomChar = x := (List.takeWhile_prefix _).eq_of_length hlen
      rw [← hself]
      exact List.all_takeWhile
    have hgoes : y.head?.any isAtomChar = true := by
      cases y with
      | nil => simp at h
      | cons c y =>
        by_contra hc
        simp_all
    rw [run_atom hne hall, settle, hgoes]
    rfl
  next =>
    have := (List.takeWhile_sublist isAtomChar (l := x)).length_le
    omega

end

end Reader

/-! ## The scanner -/

namespace Indexed

theorem le_of_passWhile {p : Char → Bool} {t : Text} {i : Nat} {j : Int}
    (h : passWhile p t i = .ok j) : i ≤ j.toNat := by
  rw [passWhile_natCast] at h
  have := Except.ok.inj h
  omega

/-- The forms open at `stop`, and whether `stop` is inside a string, where the text is in code at
`i` and the given forms are open. -/
def scan (t : Text) (stop i : Nat) (frames : List Frame) :
    Except OffsetError (List Frame × Bool) :=
  if i < stop then
    match charAt t i with
    | .error e => .error e
    | .ok c =>
      if isBlank c then scan t stop (i + 1) frames
      else if c = ';' then scan t stop (lineEnd t stop (i + 1)) frames
      else if c = '"' then
        match _h : closeFrom t stop (i + 1) with
        | .error e => .error e
        | .ok none => .ok (frames, true)
        | .ok (some j) => scan t stop j (Frame.addInnermost i frames)
      else if c = '(' then scan t stop (i + 1) ({ start := i } :: frames)
      else if c = ')' then scan t stop (i + 1) (Frame.close frames)
      else
        match _h : passWhile isAtomChar t (i + 1 : Nat) with
        | .error e => .error e
        | .ok j => scan t stop j.toNat (if j ≤ stop then Frame.addInnermost i frames else frames)
  else .ok (frames, false)
termination_by stop - i
decreasing_by
  all_goals try omega
  · unfold lineEnd
    omega
  · have := lt_of_closeFrom _h
    omega
  · have := le_of_passWhile _h
    omega

theorem scan_of_le {t : Text} {stop i : Nat} (h : stop ≤ i) (frames : List Frame) :
    scan t stop i frames = .ok (frames, false) := by
  rw [scan, if_neg (Nat.not_lt.mpr h)]

theorem drop_take_append_drop {t : Text} {i stop : Nat} (hi : i ≤ stop) (hstop : stop ≤ t.length) :
    (t.take stop).drop i ++ t.drop stop = t.drop i := by
  have hle : i ≤ (t.take stop).length := by
    rw [List.length_take]
    omega
  rw [← List.drop_append_of_le_length hle, List.take_append_drop]

/-- Passing over an atom reaches its end, also if that is behind `stop`. -/
theorem exists_length_atom {t : Text} {i stop : Nat} {c : Char} {j : Int} (hi : i < stop)
    (hstop : stop ≤ t.length) (hc : charAt t i = .ok c) (hatom : isAtomChar c = true)
    (hj : passWhile isAtomChar t (i + 1 : Nat) = .ok j) :
    ∃ n, 0 < n ∧ j = (i + n : Nat) ∧
      (((t.take stop).drop i ++ t.drop stop).takeWhile isAtomChar).length = n := by
  have htext := drop_of_charAt (Nat.lt_of_lt_of_le hi hstop) (Nat.le_refl _) hc
  rw [List.take_length] at htext
  rw [passWhile_natCast] at hj
  refine ⟨_, ?_, ?_, rfl⟩
  all_goals
    rw [drop_take_append_drop (Nat.le_of_lt hi) hstop, htext, List.takeWhile_cons_of_pos hatom,
      List.length_cons]
  · omega
  · have := Except.ok.inj hj
    omega

/-- The scanner does not fail, and finds what the reader finds. -/
theorem scan_eq {t : Text} {stop : Nat} (hstop : stop ≤ t.length) (i : Nat)
    (frames : List Frame) :
    scan t stop i frames =
      .ok (((Reader.idle i frames).run ((t.take stop).drop i)).settle (t.drop stop)).found := by
  fun_induction scan t stop i frames with
  | case1 i frames hi e he => exact absurd he (charAt_ne_error hi hstop e)
  | case2 i frames hi c hc hblank ih =>
    rw [ih, drop_of_charAt hi hstop hc, Reader.run_cons, Reader.step_blank hblank]
  | case3 i frames hi hc _ ih =>
    rw [ih, drop_lineEnd, drop_of_charAt hi hstop hc, lineEnd, ← Reader.found_comment]
    rfl
  | case4 i frames hi e he => exact absurd he (closeFrom_ne_error hstop e)
  | case5 i frames hi hnone hc =>
    obtain ⟨body, hbody, htext⟩ := text_of_closeFrom_none hstop hnone
    rw [drop_of_charAt hi hstop hc, Reader.found_unclosed hbody htext]
  | case6 i frames hi j hsome hc _ _ ih =>
    obtain ⟨body, hbody, rfl, htext⟩ := text_of_closeFrom hstop hsome
    rw [ih, drop_of_charAt hi hstop hc, htext, Reader.run_closed hbody]
  | case7 i frames hi hc _ _ _ ih =>
    rw [ih, drop_of_charAt hi hstop hc]
    rfl
  | case8 i frames hi hc _ _ _ _ ih =>
    rw [ih, drop_of_charAt hi hstop hc]
    rfl
  | case9 i frames hi c hc _ _ _ _ _ e he =>
    rw [passWhile_natCast] at he
    cases he
  | case10 i frames hi c hc hblank hsemi hquote hopen hclose j hj ih =>
    have hatom : isAtomChar c = true := by
      simp [isAtomChar, hblank, isDelimiter, delimiters, hsemi, hquote, hopen, hclose]
    obtain ⟨n, hpos, rfl, hn⟩ := exists_length_atom hi hstop hc hatom hj
    have hlen : ((t.take stop).drop i).length = stop - i := by
      rw [List.length_drop, List.length_take, Nat.min_eq_left hstop]
    by_cases hle : ((i + n : Nat) : Int) ≤ stop
    · simp only [hle, dif_pos] at ih
      rw [if_pos hle, ih, Reader.found_atom hn hpos (by omega), List.drop_drop, Int.toNat_natCast]
    · -- the atom is cut at `stop` and was passed over whole, so the scan ends with it
      have hne : (t.take stop).drop i ≠ [] := List.ne_nil_of_length_pos (by omega)
      rw [if_neg hle, scan_of_le (by omega), Reader.found_cut_atom (by omega) hne]
  | case11 i frames hi =>
    have hidle : (Reader.idle i frames).token = none := rfl
    rw [drop_take_of_le (Nat.le_of_not_lt hi)]
    exact congrArg (Except.ok ·.found) (Reader.settle_of_token_eq_none hidle _).symm

/-! ## Heads -/

/-- Offset of the first newline from a signed offset on, or the length of the text. A newline behind
a negative offset is looked for in the tail of the text only. -/
def newlineFrom (t : Text) (i : Int) : Nat := cut t i + (upToChar '\n' (t.drop (cut t i))).length

/-- The characters between two signed offsets. -/
def slice (t : Text) (i j : Int) : Text := (t.take (cut t j)).drop (cut t i)

theorem cut_of_nonneg {t : Text} {i : Int} (hi : 0 ≤ i) : cut t i = min i.toNat t.length :=
  if_pos hi

theorem cut_neg {t : Text} {i : Int} (hi : i < 0) : cut t i = (t.length + i).toNat :=
  if_neg (Int.not_le.mpr hi)

/-- A character that can be read is followed by the rest of the text. -/
theorem drop_cut_of_charAt {t : Text} {i : Int} {c : Char} (hi : i < t.length)
    (h : charAt t i = .ok c) : t.drop (cut t i) = c :: t.drop (cut t i + 1) := by
  by_cases hneg : i < 0
  · obtain ⟨rest, hread, -⟩ := readFrom_of_charAt hi h
    cases herror : offsetError? t i with
    | some e => simp [readFrom, Int.not_le.mpr hneg, herror] at hread
    | none =>
      have hlt : (t.length + i).toNat < t.length := by
        have := (offsetError?_eq_none_iff.mp herror).2
        omega
      have hcut := List.drop_eq_getElem_cons hlt
      rw [readFrom_neg hneg herror, hcut] at hread
      have hc : t[(t.length + i).toNat] = c := (List.cons.inj (Except.ok.inj hread)).1
      rw [cut_neg hneg, hcut, hc]
  · lift i to Nat using Int.not_lt.mp hneg
    have hlt : i < t.length := Int.ofNat_lt.mp hi
    have hdrop := drop_of_charAt hlt (Nat.le_refl _) h
    rw [cut_of_nonneg (Int.natCast_nonneg i), Int.toNat_natCast, Nat.min_eq_left (Nat.le_of_lt hlt)]
    rwa [List.take_length] at hdrop

theorem lt_newlineFrom {t : Text} {i : Int} (hi : i < t.length) (h : charAt t i = .ok ';') :
    i < newlineFrom t i := by
  unfold newlineFrom
  rw [drop_cut_of_charAt hi h]
  by_cases hneg : i < 0
  · omega
  · have hcut : (cut t i : Int) = i := by
      rw [cut_of_nonneg (Int.not_lt.mp hneg)]
      omega
    simp only [upToChar, List.takeWhile_cons]
    simp
    omega

/-- The head of a form whose inside begins at a signed offset. -/
def headFrom (t : Text) (i : Int) : Except OffsetError (Option Text) :=
  if _hi : i < t.length then
    match _h : charAt t i with
    | .error e => .error e
    | .ok c =>
      if isBlank c then headFrom t (i + 1)
      else if _hc : c = ';' then headFrom t (newlineFrom t i)
      else if isDelimiter c then .ok none
      else
        match passWhile isAtomChar t i with
        | .error e => .error e
        | .ok j => .ok (some (slice t i j))
  else .ok none
termination_by (t.length - i).toNat
decreasing_by
  · omega
  · subst _hc
    have := lt_newlineFrom _hi _h
    omega

/-! ## What the head of a text is -/

theorem skipGap_true (t : Text) : skipGap true t = skipGap false (t.dropWhile (· != '\n')) := by
  induction t with
  | nil => rfl
  | cons c t ih =>
    by_cases hc : c = '\n'
    · subst hc
      rfl
    · have hstill : (c != '\n') = true := by simpa using hc
      rw [skipGap, if_pos rfl, hstill, ih, List.dropWhile_cons_of_pos (by exact hstill)]

theorem head_comment (t : Text) : head (';' :: t) = head (t.dropWhile (· != '\n')) := by
  rw [head, head, ← skipGap_true]
  rfl

theorem head_blank {c : Char} (h : isBlank c = true) (t : Text) : head (c :: t) = head t := by
  simp [head, skipGap, h]

theorem headAround_blank {c : Char} (h : isBlank c = true) (t tail : Text) :
    headAround t (c :: tail) = headAround t tail := by
  unfold headAround
  rw [List.dropWhile_cons_of_pos h]

section

variable {c : Char} (hblank : isBlank c = false) (hsemi : c ≠ ';')

include hblank hsemi

theorem head_delimiter (h : isDelimiter c = true) (t : Text) : head (c :: t) = none := by
  simp [head, skipGap, hblank, hsemi, leadingAtom, isAtomChar, h]

theorem head_atom (h : isDelimiter c = false) (t : Text) :
    head (c :: t) = some ((c :: t).takeWhile isAtomChar) := by
  have hatom : isAtomChar c = true := by simp [isAtomChar, hblank, h]
  simp [head, skipGap, hblank, hsemi, leadingAtom, hatom]

theorem headAround_atom (h : isDelimiter c = false) (t rest : Text) :
    let atom := (c :: rest).takeWhile isAtomChar
    headAround t (c :: rest) = some (if atom.length < (c :: rest).length then atom
      else (t.takeWhile isAtomChar).drop (t.length - atom.length)) := by
  intro atom
  have hkeep : (c :: rest).dropWhile isBlank = c :: rest := by simp [hblank]
  rw [headAround, hkeep, apply_ite some]
  simp [hsemi, h, atom]

end

/-! ## Finding the head -/

theorem drop_newlineFrom {t : Text} {i : Int} (hi : i < t.length) (h : charAt t i = .ok ';') :
    t.drop (newlineFrom t i) = (t.drop (cut t i + 1)).dropWhile (· != '\n') := by
  rw [newlineFrom, ← List.drop_drop, upToChar, drop_length_takeWhile, drop_cut_of_charAt hi h]
  rfl

theorem drop_cut_of_nonneg {t : Text} {i : Int} (h : 0 ≤ i) :
    t.drop (cut t i) = t.drop i.toNat := by
  rw [cut_of_nonneg h]
  by_cases hle : i.toNat ≤ t.length
  · rw [Nat.min_eq_left hle]
  · rw [Nat.min_eq_right (by omega), List.drop_length, List.drop_eq_nil_of_le (by omega)]

theorem cut_add_of_nonneg {t : Text} {i : Int} {n : Nat} (h : 0 ≤ i)
    (hn : cut t i + n ≤ t.length) : cut t (i + n) = cut t i + n := by
  rw [cut_of_nonneg h] at hn ⊢
  rw [cut_of_nonneg (by omega)]
  omega

theorem cut_add_of_neg {t : Text} {i : Int} {n : Nat} (h : i + n < 0) (hi : 0 ≤ t.length + i) :
    cut t (i + n) = cut t i + n := by
  rw [cut_neg h, cut_neg (by omega)]
  omega

theorem slice_eq_take {t : Text} {i : Int} {n : Nat} (h : cut t (i + n) = cut t i + n) :
    slice t i (i + n) = (t.drop (cut t i)).take n := by
  rw [slice, h, List.drop_take, Nat.add_sub_cancel_left]

/-- From an offset in the text on, the head of what is to come is found. -/
theorem headFrom_of_nonneg {t : Text} {i : Int} (h : 0 ≤ i) :
    headFrom t i = .ok (head (t.drop (cut t i))) := by
  fun_induction headFrom t i with
  | case1 i hi e he =>
    lift i to Nat using h
    exact absurd he (charAt_ne_error (Int.ofNat_lt.mp hi) (Nat.le_refl _) e)
  | case2 i hi c hc hblank ih =>
    have hnext : cut t (i + 1) = cut t i + 1 := by
      apply cut_add_of_nonneg h (n := 1)
      rw [cut_of_nonneg h]
      omega
    rw [ih (by omega), drop_cut_of_charAt hi hc, head_blank hblank, hnext]
  | case3 i hi hc hblank ih =>
    rw [ih (by omega), drop_cut_of_charAt hi hc, head_comment,
      drop_cut_of_nonneg (Int.natCast_nonneg _), Int.toNat_natCast, drop_newlineFrom hi hc]
  | case4 i hi c hc hblank hsemi hdelim =>
    rw [drop_cut_of_charAt hi hc, head_delimiter (by simpa using hblank) hsemi hdelim]
  | case5 i hi c hc hblank hsemi hdelim e he =>
    rw [passWhile_eq, readFrom, if_pos h] at he
    cases he
  | case6 i hi c hc hblank hsemi hdelim j hj =>
    rw [passWhile_eq, readFrom, if_pos h, ← drop_cut_of_nonneg h] at hj
    obtain rfl := Except.ok.inj hj
    have hlen := (List.takeWhile_sublist isAtomChar (l := t.drop (cut t i))).length_le
    rw [List.length_drop] at hlen
    have hle : cut t i ≤ t.length := by
      rw [cut_of_nonneg h]
      exact Nat.min_le_right _ _
    rw [slice_eq_take (cut_add_of_nonneg h (by omega)),
      ← List.prefix_iff_eq_take.mp (List.takeWhile_prefix isAtomChar),
      drop_cut_of_charAt hi hc, head_atom (by simpa using hblank) hsemi (by simpa using hdelim)]
  | case7 i hi =>
    rw [drop_cut_of_nonneg h, List.drop_eq_nil_of_le (by omega)]
    rfl

/-- An atom in the tail, or what is between the two ends of one that goes on at the start. -/
theorem slice_around {t : Text} {i : Int} (hneg : i < 0) (hfront : 0 ≤ t.length + i) :
    let tail := t.drop (cut t i)
    let atom := tail.takeWhile isAtomChar
    slice t i (i + ((tail ++ t).takeWhile isAtomChar).length) =
      if atom.length < tail.length then atom
      else (t.takeWhile isAtomChar).drop (t.length - atom.length) := by
  intro tail atom
  have hcut : cut t i = (t.length + i).toNat := cut_neg hneg
  have hlen : (tail.length : Int) = -i := by
    rw [List.length_drop]
    omega
  have hle : atom.length ≤ tail.length := (List.takeWhile_sublist isAtomChar).length_le
  have hread : (tail ++ t).takeWhile isAtomChar =
      if atom.length = tail.length then tail ++ t.takeWhile isAtomChar else atom :=
    List.takeWhile_append
  rw [hread]
  split
  next hall =>
    have hstart : i + ((tail ++ t.takeWhile isAtomChar).length : Int) =
        (t.takeWhile isAtomChar).length := by
      rw [List.length_append]
      omega
    have hsub := (List.takeWhile_sublist isAtomChar (l := t)).length_le
    rw [if_neg (by omega), hstart, slice, cut_of_nonneg (Int.natCast_nonneg _), Int.toNat_natCast,
      Nat.min_eq_left hsub, ← List.prefix_iff_eq_take.mp (List.takeWhile_prefix isAtomChar)]
    congr 1
    omega
  next hsome =>
    rw [if_pos (by omega), slice_eq_take (cut_add_of_neg (by omega) hfront)]
    exact (List.prefix_iff_eq_take.mp (List.takeWhile_prefix isAtomChar)).symm

/-- In the tail the head is found as it is from a position before the text. -/
theorem headFrom_of_neg {t : Text} {i : Int} (hneg : i < 0) (h : offsetError? t i = none) :
    headFrom t i = .ok (headAround t (t.drop (cut t i))) := by
  fun_induction headFrom t i with
  | case1 i hi e he =>
    have hread := readFrom_of_charAt_error hi he
    rw [readFrom_neg hneg h] at hread
    cases hread
  | case2 i hi c hc hblank ih =>
    rw [drop_cut_of_charAt hi hc, headAround_blank hblank]
    by_cases hlast : i = -1
    · -- the next offset is 0: the tail is used up, and the text is met from its start
      subst hlast
      have hnil : t.drop (cut t (-1) + 1) = [] := by
        rw [List.drop_eq_nil_iff]
        unfold cut
        split <;> omega
      rw [hnil, headFrom_of_nonneg (by decide)]
      rfl
    · have hnext : cut t (i + 1) = cut t i + 1 := by
        have hfront := (offsetError?_eq_none_iff.mp h).2
        apply cut_add_of_neg (n := 1)
        · omega
        · exact hfront
      rw [ih (by omega) (offsetError?_succ (by omega) h), hnext]
  | case3 i hi hc hblank ih =>
    -- the newline is found at an offset in the text, so from here on none is negative
    rw [headFrom_of_nonneg (Int.natCast_nonneg _), drop_cut_of_nonneg (Int.natCast_nonneg _),
      Int.toNat_natCast, drop_newlineFrom hi hc, drop_cut_of_charAt hi hc]
    rfl
  | case4 i hi c hc hblank hsemi hdelim =>
    rw [drop_cut_of_charAt hi hc, headAround]
    simp [hblank, hsemi, hdelim]
  | case5 i hi c hc hblank hsemi hdelim e he =>
    rw [passWhile_eq, readFrom_neg hneg h] at he
    cases he
  | case6 i hi c hc hblank hsemi hdelim j hj =>
    rw [passWhile_eq, readFrom_neg hneg h, ← cut_neg hneg] at hj
    obtain rfl := Except.ok.inj hj
    rw [slice_around hneg (offsetError?_eq_none_iff.mp h).2, drop_cut_of_charAt hi hc,
      headAround_atom (by simpa using hblank) hsemi (by simpa using hdelim)]
  | case7 i hi => omega

theorem headFrom_of_offsetError {t : Text} {i : Int} {e : OffsetError} (hneg : i < 0)
    (h : offsetError? t i = some e) : headFrom t i = .error e := by
  have hi : i < t.length := by omega
  have hread : readFrom t i = .error e := by simp [readFrom, Int.not_le.mpr hneg, h]
  have hchar : charAt t i = .error e := by rw [charAt, hread]
  rw [headFrom, dif_pos hi]
  split
  next e' he => rw [Except.error.inj (he.symm.trans hchar)]
  next c hc => cases hchar.symm.trans hc

/-- The loop over offsets finds the head of the form, or fails as it is said to. -/
theorem headFrom_eq (t : Text) (start : Int) : headFrom t (start + 1) = headOf t start := by
  unfold headOf
  simp only
  split
  next h => rw [headFrom_of_nonneg h, drop_cut_of_nonneg h]
  next h =>
    cases herror : offsetError? t (start + 1) with
    | some e => exact headFrom_of_offsetError (Int.not_le.mp h) herror
    | none =>
      rw [headFrom_of_neg (Int.not_le.mp h) herror, cut_neg (Int.not_le.mp h)]

end Indexed

end FlowEdit
