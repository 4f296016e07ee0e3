import FlowEdit.Proofs.ReadPieces

/-!
The reader finds the trees of a text that was laid out from them. A whole forest adds its trees to
the children of the form it stands in (`settle_run_render`). A cut at any offset leaves open the
lists that the offset is in, each with the children that end before it (`found_settle_run`): the
cut is in the first gap, in the first tree or behind it. Main statement: `contextAt_render`.
-/

namespace FlowEdit

open Text

/-! ## Heads -/

theorem skipGap_append {inComment : Bool} {g : Text} (h : isGap inComment g = true) (t : Text) :
    skipGap inComment (g ++ t) = skipGap false t := by
  induction g generalizing inComment with
  | nil =>
    obtain rfl : inComment = false := by simpa [isGap] using h
    rfl
  | cons c g ih =>
    rw [isGap] at h
    rw [List.cons_append, skipGap]
    cases inComment with
    | true =>
      simp only [if_true] at h ⊢
      exact ih h
    | false =>
      simp only [Bool.false_eq_true, if_false] at h ⊢
      by_cases hs : c = ';'
      · subst hs
        exact ih (by simpa using h)
      · simp only [hs, if_false, Bool.and_eq_true] at h
        simp only [h.1, if_true]
        exact ih h.2

namespace Forest

/-- A forest that does not begin with an atom ends one in front of it. -/
theorem endsAtom_render {f : Forest} (hf : f.beginsWithAtom = false) {tail : Text}
    (ht : EndsAtom tail) : EndsAtom (f.render ++ tail) := by
  have hgap : ∀ (gap : Gap) (t : Text), (gap.text = [] → EndsAtom t) →
      EndsAtom (gap.text ++ t) := by
    intro gap t hnil
    have hg := gap.isGap_text
    cases htext : gap.text with
    | nil => exact hnil htext
    | cons c g =>
      rw [htext, isGap] at hg
      simp only [Bool.false_eq_true, if_false] at hg
      by_cases hs : c = ';'
      · subst hs
        rfl
      · simp only [hs, if_false, Bool.and_eq_true] at hg
        simp [EndsAtom, isAtomChar, hg.1]
  cases f with
  | nil gap => exact hgap gap tail fun _ => ht
  | atom gap word rest =>
    rw [render, List.append_assoc]
    apply hgap gap
    intro hnil
    simp [beginsWithAtom, hnil] at hf
  | string gap body rest =>
    rw [render, List.append_assoc]
    exact hgap gap _ fun _ => rfl
  | list gap inner rest =>
    rw [render, List.append_assoc]
    exact hgap gap _ fun _ => rfl

theorem head_render {f : Forest} (hf : f.Separated) (tail : Text) :
    head (f.render ++ ')' :: tail) = f.headWord := by
  unfold head
  cases f with
  | nil gap =>
    rw [render, skipGap_append gap.isGap_text]
    rfl
  | atom gap word rest =>
    have hends : EndsAtom (rest.render ++ ')' :: tail) := endsAtom_render hf.1 rfl
    rw [render, List.append_assoc, List.append_assoc, skipGap_append gap.isGap_text]
    have htake := takeWhile_append_of_head word.isAtomChar_text hends
    have hword := word.ne_nil
    have hchars := word.isAtomChar_text
    cases hw : word.text with
    | nil => exact absurd hw hword
    | cons c w =>
      rw [hw] at htake hchars
      have hc : isAtomChar c = true := by
        simp only [List.all_cons, Bool.and_eq_true] at hchars
        exact hchars.1
      have hblank : isBlank c = false := by simp_all [isAtomChar]
      have hs : c ≠ ';' := by rintro rfl; exact absurd hc (by decide)
      have hskip : skipGap false (c :: w ++ (rest.render ++ ')' :: tail)) =
          c :: w ++ (rest.render ++ ')' :: tail) := by
        simp [skipGap, hblank, hs]
      rw [hskip, leadingAtom, htake, headWord, hw]
  | string gap body rest =>
    rw [render, List.append_assoc, skipGap_append gap.isGap_text]
    rfl
  | list gap inner rest =>
    rw [render, List.append_assoc, skipGap_append gap.isGap_text]
    rfl

/-- The head that is read for a list is the word of its first child. -/
theorem head_drop_of_mem_lists {f : Forest} (hf : f.Separated) {l : ListAt} (before tail : Text)
    (hl : l ∈ f.lists before.length) :
    head ((before ++ (f.render ++ tail)).drop (l.start + 1)) = l.head := by
  induction f generalizing before tail with
  | nil gap => simp [lists] at hl
  | atom gap word rest ih =>
    have hrest := ih hf.2 (before ++ gap.text ++ word.text) tail
      (by simpa [lists, Nat.add_assoc] using hl)
    simpa [render] using hrest
  | string gap body rest ih =>
    have hrest := ih hf (before ++ gap.text ++ '"' :: (body.text ++ ['"'])) tail
      (by simpa [lists, Nat.add_assoc] using hl)
    simpa [render] using hrest
  | list gap inner rest ihi ihr =>
    rcases List.mem_cons.mp hl with rfl | hl
    · have hsplit : before ++ (render (list gap inner rest) ++ tail) =
          (before ++ gap.text ++ ['(']) ++ (inner.render ++ ')' :: (rest.render ++ tail)) := by
        simp [render]
      have hlen : (before ++ gap.text ++ ['(']).length = before.length + gap.text.length + 1 := by
        simp
        omega
      rw [hsplit, List.drop_left' hlen]
      exact head_render hf.1 _
    · rcases List.mem_append.mp hl with hl | hl
      · have hinner := ihi hf.1 (before ++ gap.text ++ ['(']) (')' :: (rest.render ++ tail))
          (by simpa [Nat.add_assoc] using hl)
        simpa [render] using hinner
      · have hrest := ihr hf.2 (before ++ gap.text ++ '(' :: (inner.render ++ [')'])) tail
          (by simpa [Nat.add_assoc] using hl)
        simpa [render] using hrest

/-! ## Whole forests -/

/-- Reading a list, if its inside is read as a forest. -/
theorem run_list {inner : Forest} {offset : Nat} {frames : List Frame}
    (h : ((Reader.idle (offset + 1) ({ start := offset } :: frames)).run inner.render).settle [] =
      Reader.idle (offset + 1 + inner.render.length)
        (Frame.addChildren ((inner.children (offset + 1)).map Extent.start)
          ({ start := offset } :: frames))) :
    (Reader.idle offset frames).run ('(' :: (inner.render ++ [')'])) =
      Reader.idle (offset + inner.render.length + 2) (Frame.addInnermost offset frames) := by
  have hopen : (Reader.idle offset frames).step '(' =
      Reader.idle (offset + 1) ({ start := offset } :: frames) := rfl
  rw [Reader.run_cons, hopen, Reader.run_append]
  generalize (Reader.idle (offset + 1) ({ start := offset } :: frames)).run inner.render = r at h
  have hcode : r.mode = .code := by
    rw [← Reader.mode_settle r [], h]
    rfl
  rw [Reader.settle_of_endsAtom hcode endsAtom_nil] at h
  have hend : offset + 1 + inner.render.length + 1 = offset + inner.render.length + 2 := by omega
  show r.step ')' = _
  rw [← Reader.step_finishToken hcode rfl, h, ← hend]
  rfl

/-- Reading a forest adds its trees to the form it stands in. -/
theorem settle_run_render {f : Forest} (hf : f.Separated) (offset : Nat) (frames : List Frame) :
    ((Reader.idle offset frames).run f.render).settle [] =
      Reader.idle (offset + f.render.length)
        (Frame.addChildren ((f.children offset).map Extent.start) frames) := by
  induction f generalizing offset frames with
  | nil gap =>
    rw [render, Reader.run_gap, Reader.settle_of_token_eq_none rfl]
    simp [children]
  | atom gap word rest ih =>
    rw [add_length_render_atom, render, Reader.run_append, Reader.run_gap, Reader.run_append,
      Reader.run_atom word.ne_nil word.isAtomChar_text,
      Reader.settle_run_finishToken rfl (endsAtom_render hf.1 endsAtom_nil)]
    simp only [children, List.map_cons, Frame.addChildren_cons]
    exact ih hf.2 _ _
  | string gap body rest ih =>
    rw [add_length_render_string, render, Reader.run_append, Reader.run_gap, Reader.run_append,
      Reader.run_string, ih hf]
    simp only [children, List.map_cons, Frame.addChildren_cons]
  | list gap inner rest ihi ihr =>
    rw [add_length_render_list, render, Reader.run_append, Reader.run_gap, Reader.run_append,
      run_list (ihi hf.1 _ _), ihr hf.2]
    simp only [children, List.map_cons, Frame.addChildren_cons]

/-! ## Cuts -/

/-- What the reader has found in a forest up to an offset, if it began to read the forest inside the
given open forms. -/
structure Found (f : Forest) (offset pos : Nat) (frames : List Frame) (r : Reader) : Prop where
  frames : r.frames = ((f.openLists offset pos).map fun l =>
      { start := l.start, children := finished pos l.children }).reverse ++
    Frame.addChildren (finished pos (f.children offset)) frames
  inString : r.mode.inString = f.inString offset pos

section

variable {f : Forest} {offset pos : Nat} {frames : List Frame} {r : Reader}

/-- Nothing is found before the first tree. -/
theorem found_of_le_firstGap (h : pos ≤ offset + f.firstGap.text.length) (hf : r.frames = frames)
    (hs : r.mode.inString = false) : f.Found offset pos frames r := by
  obtain ⟨hopen, hfinished, hstring⟩ := of_le_firstGap h
  constructor
  · simp [hopen, hfinished, hf]
  · rw [hs, hstring]

/-- A cut in the gap in front of the first tree. -/
theorem found_settle_run_gap (f : Forest) {x y : Text} (h : f.firstGap.text = x ++ y)
    (after : Text) :
    f.Found offset (offset + x.length) frames
      (((Reader.idle offset frames).run x).settle after) := by
  have hgap := f.firstGap.isGap_text
  have hlen := congrArg List.length h
  rw [List.length_append] at hlen
  rw [h] at hgap
  obtain ⟨k, -, hrun⟩ := Reader.run_isGap hgap offset frames
  have hread : (Reader.idle offset frames).run x =
      { offset := offset + x.length, mode := Reader.gapMode k, frames } := hrun
  have hcode : (Reader.gapMode k).inString = false := by cases k <;> rfl
  rw [hread, Reader.settle_of_token_eq_none rfl]
  exact found_of_le_firstGap (by omega) rfl hcode

/-- A cut right in front of the first tree. -/
theorem found_settle_idle (f : Forest) (after : Text) :
    f.Found offset (offset + f.firstGap.text.length) frames
      ((Reader.idle (offset + f.firstGap.text.length) frames).settle after) := by
  rw [Reader.settle_of_token_eq_none rfl]
  exact found_of_le_firstGap (Nat.le_refl _) rfl rfl

end

section

variable {gap : Gap} {rest : Forest} {offset pos : Nat} {frames : List Frame} {r : Reader}

/-- Behind an atom. -/
theorem Found.atom {word : Atom} (hpos : offset + gap.text.length + word.text.length ≤ pos)
    (h : rest.Found (offset + gap.text.length + word.text.length) pos
      (Frame.addInnermost (offset + gap.text.length) frames) r) :
    (Forest.atom gap word rest).Found offset pos frames r := by
  obtain ⟨hframes, hstring⟩ := h
  constructor
  · simpa [openLists, lists, finished, children, hpos] using hframes
  · exact hstring

/-- Behind a string. -/
theorem Found.string {body : StringBody}
    (hpos : offset + gap.text.length + body.text.length + 2 ≤ pos)
    (h : rest.Found (offset + gap.text.length + body.text.length + 2) pos
      (Frame.addInnermost (offset + gap.text.length) frames) r) :
    (Forest.string gap body rest).Found offset pos frames r := by
  obtain ⟨hframes, hstring⟩ := h
  have hout : ¬ pos < offset + gap.text.length + body.text.length + 2 := by omega
  constructor
  · simpa [openLists, lists, finished, children, hpos] using hframes
  · simpa [Forest.inString, strings, hout] using hstring

/-- Behind a list. -/
theorem Found.list {inner : Forest}
    (hpos : offset + gap.text.length + inner.render.length + 2 ≤ pos)
    (h : rest.Found (offset + gap.text.length + inner.render.length + 2) pos
      (Frame.addInnermost (offset + gap.text.length) frames) r) :
    (Forest.list gap inner rest).Found offset pos frames r := by
  obtain ⟨hframes, hstring⟩ := h
  have hpassed : offset + gap.text.length + 1 + inner.render.length ≤ pos := by omega
  obtain ⟨hopen, hinner⟩ := of_length_render_le hpassed
  have hout : ¬ pos ≤ offset + gap.text.length + inner.render.length + 1 := by omega
  constructor
  · unfold openLists at hopen hframes
    simpa [openLists, lists, finished, children, hpos, hout, hopen] using hframes
  · unfold Forest.inString at hinner hstring
    rw [hstring, Forest.inString, strings, List.any_append, hinner, Bool.false_or]

/-- Inside a list. -/
theorem Found.inside {inner : Forest} (hlt : offset + gap.text.length < pos)
    (hle : pos ≤ offset + gap.text.length + inner.render.length + 1)
    (h : inner.Found (offset + gap.text.length + 1) pos
      ({ start := offset + gap.text.length } :: frames) r) :
    (Forest.list gap inner rest).Found offset pos frames r := by
  obtain ⟨hframes, hstring⟩ := h
  have hahead : pos ≤ offset + gap.text.length + inner.render.length + 2 +
      rest.firstGap.text.length := by omega
  obtain ⟨hopen, hfinished, hrest⟩ := of_le_firstGap hahead
  have hnone : finished pos ((Forest.list gap inner rest).children offset) = [] := by
    have hout : ¬ offset + gap.text.length + inner.render.length + 2 ≤ pos := by omega
    unfold finished at hfinished
    simp [finished, children, hout, hfinished]
  constructor
  · unfold openLists at hopen
    rw [hframes, hnone, Frame.addChildren_nil]
    simp [openLists, lists, hlt, hle, hopen, Frame.addChildren]
  · unfold Forest.inString at hrest hstring
    rw [hstring, Forest.inString, strings, List.any_append, hrest, Bool.or_false]

end

section

variable {gap : Gap} {rest : Forest} {offset : Nat} {frames : List Frame} {x m : Text}

/-- A cut in an atom, which is not complete then. -/
theorem found_settle_run_atom {word : Atom} (h : word.text = x ++ m) (hm : m ≠ []) (after : Text) :
    (Forest.atom gap word rest).Found offset (offset + gap.text.length + x.length) frames
      (((Reader.idle (offset + gap.text.length) frames).run x).settle (m ++ after)) := by
  have hchars := word.isAtomChar_text
  rw [h, List.all_append, Bool.and_eq_true] at hchars
  obtain ⟨c, m, rfl⟩ := List.exists_cons_of_ne_nil hm
  have hc : isAtomChar c = true := by
    have := hchars.2
    simp only [List.all_cons, Bool.and_eq_true] at this
    exact this.1
  have hlen := congrArg List.length h
  simp only [List.length_append, List.length_cons] at hlen
  -- the frames are those of the beginning, whether some of the atom was read or nothing
  have hread : ∃ token, ((Reader.idle (offset + gap.text.length) frames).run x).settle
      (c :: m ++ after) = { offset := offset + gap.text.length + x.length, token, frames } := by
    by_cases hx : x = []
    · subst hx
      exact ⟨none, Reader.settle_of_token_eq_none rfl _⟩
    · rw [Reader.run_atom hx hchars.1]
      exact ⟨some (offset + gap.text.length), by simp [Reader.settle, hc]⟩
  obtain ⟨token, hread⟩ := hread
  have hahead : offset + gap.text.length + x.length ≤
      offset + gap.text.length + word.text.length + rest.firstGap.text.length := by omega
  obtain ⟨hopen, hfinished, hstring⟩ := of_le_firstGap hahead
  have hnone : finished (offset + gap.text.length + x.length)
      ((Forest.atom gap word rest).children offset) = [] := by
    have hout : ¬ word.text.length ≤ x.length := by omega
    unfold finished at hfinished
    simp [finished, children, hout, hfinished]
  rw [hread]
  constructor
  · unfold openLists at hopen
    simp [openLists, lists, hopen, hnone]
  · exact hstring.symm

/-- A cut in a string, behind its opening quote. -/
theorem found_settle_run_string {body : StringBody} (h : body.text = x ++ m) (after : Text) :
    (Forest.string gap body rest).Found offset (offset + gap.text.length + 1 + x.length) frames
      (((Reader.idle (offset + gap.text.length) frames).run ('"' :: x)).settle after) := by
  have hbody := body.isStringBody_text
  rw [h] at hbody
  obtain ⟨k, -, hrun⟩ := Reader.run_open_string hbody (offset + gap.text.length) frames
  have hlen := congrArg List.length h
  rw [List.length_append] at hlen
  have hahead : offset + gap.text.length + 1 + x.length ≤
      offset + gap.text.length + body.text.length + 2 + rest.firstGap.text.length := by omega
  obtain ⟨hopen, hfinished, -⟩ := of_le_firstGap hahead
  have hnone : finished (offset + gap.text.length + 1 + x.length)
      ((Forest.string gap body rest).children offset) = [] := by
    have hout : ¬ offset + gap.text.length + body.text.length + 2 ≤
        offset + gap.text.length + 1 + x.length := by omega
    unfold finished at hfinished
    simp [finished, children, hout, hfinished]
  rw [hrun, Reader.settle_of_inString (inString_bodyMode k)]
  constructor
  · unfold openLists at hopen
    simp [openLists, lists, hopen, hnone]
  · have hstart : offset + gap.text.length < offset + gap.text.length + 1 + x.length := by omega
    have hstop : offset + gap.text.length + 1 + x.length <
        offset + gap.text.length + body.text.length + 2 := by omega
    simp [Forest.inString, strings, hstart, hstop, inString_bodyMode]

end

/-- A cut in a text of two parts is behind the first one or in it. -/
theorem append_eq_append_cases {a b x y : Text} (h : a ++ b = x ++ y) :
    (∃ z, x = a ++ z ∧ b = z ++ y) ∨ ∃ m, m ≠ [] ∧ a = x ++ m ∧ y = m ++ b := by
  rcases List.append_eq_append_iff.mp h with ⟨z, hx, hb⟩ | ⟨m, ha, hy⟩
  · exact .inl ⟨z, hx, hb⟩
  · by_cases hm : m = []
    · subst hm
      exact .inl ⟨[], by simpa using ha.symm, by simpa using hy.symm⟩
    · exact .inr ⟨m, hm, ha, hy⟩

/-- A cut in something that stands between two characters, behind the first of them. -/
theorem enclosed_eq_append {c d : Char} {w x m : Text} (h : c :: (w ++ [d]) = x ++ m)
    (hm : m ≠ []) : x = [] ∨ ∃ z k, x = c :: z ∧ w = z ++ k ∧ m = k ++ [d] := by
  cases x with
  | nil => exact .inl rfl
  | cons e x =>
    right
    obtain ⟨rfl, hw⟩ := List.cons.inj h
    rcases append_eq_append_cases hw with ⟨z, rfl, hz⟩ | ⟨k, -, hk, hm⟩
    · obtain rfl : z = [] := by
        cases z with
        | nil => rfl
        | cons _ z => simp_all
      exact ⟨w, [], by simp, by simp, by simpa using hz.symm⟩
    · exact ⟨x, k, rfl, hk, hm⟩

/-- What the reader has found at a cut anywhere in a forest. -/
theorem found_settle_run {f : Forest} (hf : f.Separated) {tail : Text} (ht : EndsAtom tail)
    {x y : Text} (h : f.render ++ tail = x ++ y) (hx : x.length ≤ f.render.length) (offset : Nat)
    (frames : List Frame) :
    f.Found offset (offset + x.length) frames (((Reader.idle offset frames).run x).settle y) := by
  induction f generalizing offset frames x y tail with
  | nil gap =>
    obtain ⟨m, hm⟩ : ∃ m, gap.text = x ++ m := by
      rcases List.append_eq_append_iff.mp h with ⟨z, hxz, -⟩ | ⟨m, hm, -⟩
      · have hlen := congrArg List.length hxz
        simp only [render, List.length_append] at hx hlen
        obtain rfl : z = [] := List.length_eq_zero_iff.mp (by omega)
        exact ⟨[], by simpa [render] using hxz.symm⟩
      · exact ⟨m, hm⟩
    exact found_settle_run_gap (nil gap) hm y
  | atom gap word rest ih =>
    rw [render, List.append_assoc, List.append_assoc] at h
    simp only [render, List.length_append] at hx
    rcases append_eq_append_cases h with ⟨z, rfl, hz⟩ | ⟨m, -, hm, -⟩
    · rw [Reader.run_append, Reader.run_gap, List.length_append, ← Nat.add_assoc]
      simp only [List.length_append] at hx
      rcases append_eq_append_cases hz with ⟨z, rfl, hrest⟩ | ⟨m, hm, hword, rfl⟩
      · have hends : EndsAtom (z ++ y) := hrest ▸ endsAtom_render hf.1 ht
        rw [Reader.run_append, Reader.run_atom word.ne_nil word.isAtomChar_text,
          Reader.settle_run_finishToken rfl hends, List.length_append, ← Nat.add_assoc]
        simp only [List.length_append] at hx
        exact (ih hf.2 ht hrest (by omega) _ _).atom (by omega)
      · exact found_settle_run_atom hword hm _
    · exact found_settle_run_gap (atom gap word rest) hm y
  | string gap body rest ih =>
    rw [render, List.append_assoc, List.append_assoc] at h
    simp only [render, List.length_append, List.length_cons, List.length_nil] at hx
    rcases append_eq_append_cases h with ⟨z, rfl, hz⟩ | ⟨m, -, hm, -⟩
    · rw [Reader.run_append, Reader.run_gap, List.length_append, ← Nat.add_assoc]
      simp only [List.length_append] at hx
      rcases append_eq_append_cases hz with ⟨z, rfl, hrest⟩ | ⟨m, hm, hquoted, rfl⟩
      · have hpos : offset + gap.text.length + ('"' :: (body.text ++ ['"']) ++ z).length =
            offset + gap.text.length + body.text.length + 2 + z.length := by
          simp
          omega
        simp only [List.length_append, List.length_cons, List.length_nil] at hx
        rw [Reader.run_append, Reader.run_string, hpos]
        exact (ih hf ht hrest (by omega) _ _).string (by omega)
      · rcases enclosed_eq_append hquoted hm with rfl | ⟨w, k, rfl, hbody, -⟩
        · exact found_settle_idle (string gap body rest) _
        · rw [List.length_cons, Nat.add_comm w.length, ← Nat.add_assoc]
          exact found_settle_run_string hbody _
    · exact found_settle_run_gap (string gap body rest) hm y
  | list gap inner rest ihi ihr =>
    rw [render, List.append_assoc, List.append_assoc] at h
    simp only [render, List.length_append, List.length_cons, List.length_nil] at hx
    rcases append_eq_append_cases h with ⟨z, rfl, hz⟩ | ⟨m, -, hm, -⟩
    · rw [Reader.run_append, Reader.run_gap, List.length_append, ← Nat.add_assoc]
      simp only [List.length_append] at hx
      rcases append_eq_append_cases hz with ⟨z, rfl, hrest⟩ | ⟨m, hm, hparens, rfl⟩
      · have hpos : offset + gap.text.length + ('(' :: (inner.render ++ [')']) ++ z).length =
            offset + gap.text.length + inner.render.length + 2 + z.length := by
          simp
          omega
        simp only [List.length_append, List.length_cons, List.length_nil] at hx
        rw [Reader.run_append, run_list (settle_run_render hf.1 _ _), hpos]
        exact (ihr hf.2 ht hrest (by omega) _ _).list (by omega)
      · rcases enclosed_eq_append hparens hm with rfl | ⟨w, k, rfl, hinner, rfl⟩
        · exact found_settle_idle (list gap inner rest) _
        · have hcut : inner.render ++ ')' :: (rest.render ++ tail) =
              w ++ (k ++ [')'] ++ (rest.render ++ tail)) := by
            simp [hinner]
          have hlen := congrArg List.length hinner
          rw [List.length_append] at hlen
          rw [List.length_cons, Nat.add_comm w.length, ← Nat.add_assoc]
          exact (ihi hf.1 (endsAtom_cons_iff.mpr rfl) hcut (by omega) _ _).inside (by omega)
            (by omega)
    · exact found_settle_run_gap (list gap inner rest) hm y

/-! ## Contexts in a forest -/

theorem le_of_mem_outerLists {f : Forest} {offset pos : Nat} (h : pos ∈ f.outerLists offset) :
    offset ≤ pos := by
  induction f generalizing offset with
  | nil gap => simp [outerLists] at h
  | atom gap word rest ih =>
    have := ih h
    omega
  | string gap body rest ih =>
    have := ih h
    omega
  | list gap inner rest _ ih =>
    rcases List.mem_cons.mp h with rfl | h
    · omega
    · have := ih h
      omega

/-- Nothing is open where a list begins that is in no other list. -/
theorem of_mem_outerLists {f : Forest} {offset pos : Nat} (h : pos ∈ f.outerLists offset) :
    f.openLists offset pos = [] ∧ f.inString offset pos = false := by
  induction f generalizing offset with
  | nil gap => simp [outerLists] at h
  | atom gap word rest ih => exact ih h
  | string gap body rest ih =>
    have hrest : pos ∈ rest.outerLists (offset + gap.text.length + body.text.length + 2) := h
    have hle := le_of_mem_outerLists hrest
    have hout : ¬ pos < offset + gap.text.length + body.text.length + 2 := by omega
    obtain ⟨hopen, hstring⟩ := ih hrest
    refine ⟨hopen, ?_⟩
    unfold inString at hstring
    simp [inString, strings, hout, hstring]
  | list gap inner rest _ ih =>
    rcases List.mem_cons.mp h with rfl | h
    · have hfirst : offset + gap.text.length ≤
          offset + (list gap inner rest).firstGap.text.length := Nat.le_refl _
      exact ⟨(of_le_firstGap hfirst).1, (of_le_firstGap hfirst).2.2⟩
    · have hle := le_of_mem_outerLists h
      have hpassed : offset + gap.text.length + 1 + inner.render.length ≤ pos := by omega
      have hout : ¬ pos ≤ offset + gap.text.length + inner.render.length + 1 := by omega
      obtain ⟨hopen, hstring⟩ := ih h
      obtain ⟨hopen', hstring'⟩ := of_length_render_le hpassed
      unfold openLists at hopen hopen'
      unfold inString at hstring hstring'
      exact ⟨by simp [openLists, lists, hout, hopen, hopen'],
        by rw [inString, strings, List.any_append, hstring, hstring']; rfl⟩

section

variable {f : Forest} (hf : f.Separated)

include hf

theorem found_ofText {x y : Text} (h : f.render = x ++ y) :
    f.Found 0 x.length [] ((Reader.ofText x).settle y) := by
  have hlen := congrArg List.length h
  rw [List.length_append] at hlen
  have hcut : f.render ++ [] = x ++ y := by rw [List.append_nil, h]
  have hfound := found_settle_run hf endsAtom_nil hcut (by omega) 0 []
  rwa [Nat.zero_add] at hfound

theorem topLevelParens_render
    (hparens : ∀ i < f.render.length, f.render[i]? = some '\n' → f.render[i + 1]? = some '(' →
      i + 1 ∈ f.outerLists 0) : TopLevelParens f.render := by
  rintro a ⟨b, hb⟩
  have htext : f.render = (a ++ ['\n']) ++ '(' :: b := by simp [← hb]
  have houter : a.length + 1 ∈ f.outerLists 0 :=
    hparens a.length (by simp [htext]) (by simp [htext]) (by simp [htext])
  have hread : (Reader.ofText (a ++ ['\n'])).settle ('(' :: b) = Reader.ofText (a ++ ['\n']) := by
    rw [← Reader.upTo_zero, Reader.upTo_eq_run (lineBegins_concat a)]
    rfl
  obtain ⟨hframes, hstring⟩ := found_ofText hf htext
  obtain ⟨hopen, hcode⟩ := of_mem_outerLists houter
  rw [hread, List.length_append, List.length_singleton] at hframes hstring
  constructor
  · have hidle : (Mode.code.run (a ++ ['\n'])).Idle := Mode.idle_run (lineBegins_concat a)
    rw [hcode, Reader.mode_ofText] at hstring
    rw [Reader.mode_ofText]
    exact Mode.eq_code_of_idle hidle hstring
  · rw [hframes, hopen]
    rfl

end

end Forest

/-- The context at any offset of a text that was laid out from a forest, with a gap between any two
atoms and no `(` in column 0 but that of a list which is in no other list. The offset is inside a
string exactly if it is strictly inside one of the forest. It is in as many forms as there are
lists that begin before it and do not end before it. The innermost one of these has the head, and
as children those that end before the offset. -/
theorem contextAt_render {f : Forest} (hf : f.Separated)
    (hparens : ∀ i < f.render.length, f.render[i]? = some '\n' → f.render[i + 1]? = some '(' →
      i + 1 ∈ f.outerLists 0) {pos : Nat} (hpos : pos ≤ f.render.length) :
    let context := contextAt f.render pos
    let opened := (f.lists 0).filter fun l => l.start < pos ∧ pos ≤ l.close
    (context.inString = true ↔ ∃ s ∈ f.strings 0, s.start < pos ∧ pos < s.stop) ∧
      (context.form = none ↔ opened = []) ∧
      ∀ form, context.form = some form → form.depth = opened.length ∧
        ∃ l ∈ opened, (∀ m ∈ opened, m.start ≤ l.start) ∧ form.start = l.start ∧
          form.head = l.head ∧
          form.children = (l.children.filter (·.stop ≤ pos)).map Extent.start := by
  intro context opened
  have hcontext : context = _ := (Forest.topLevelParens_render hf hparens).contextAt_eq hpos
  have htext : f.render = f.render.take pos ++ f.render.drop pos := (List.take_append_drop ..).symm
  obtain ⟨hframes, hstring⟩ := Forest.found_ofText hf htext
  rw [List.length_take, Nat.min_eq_left hpos] at hframes hstring
  have hopened : f.openLists 0 pos = opened := by
    unfold Forest.openLists opened
    simp
  have hnested : opened.Pairwise fun l m => l.start < m.start := (f.pairwise_lists 0).filter _
  rw [hopened] at hframes
  have hinside : context.inString = f.inString 0 pos := by
    rw [hcontext, ← hstring]
    rfl
  refine ⟨by simp [hinside, Forest.inString], ?_⟩
  rcases List.eq_nil_or_concat opened with hnil | ⟨outer, l, hlast⟩
  · have hnone : context.form = none := by
      simp only [hcontext, Context.ofReader, hframes, hnil]
      rfl
    simp [hnone, hnil]
  · rw [List.concat_eq_append] at hlast
    have hl : l ∈ opened := by simp [hlast]
    have hhead : head (f.render.drop (l.start + 1)) = l.head := by
      have := Forest.head_drop_of_mem_lists hf [] [] (List.mem_filter.mp hl).1
      simpa using this
    have hform : context.form = some
        { start := l.start
          depth := opened.length
          head := l.head
          children := Forest.finished pos l.children
          alignTarget := alignTarget f.render l.start (Forest.finished pos l.children) } := by
      simp [hcontext, Context.ofReader, hframes, hlast, hhead, Frame.addChildren]
    refine ⟨by simp [hform, hlast], ?_⟩
    intro form hsome
    obtain rfl := Option.some.inj (hform.symm.trans hsome)
    refine ⟨rfl, l, hl, ?_, rfl, rfl, rfl⟩
    intro m hm
    rw [hlast] at hnested hm
    rcases List.mem_append.mp hm with hm | hm
    · exact Nat.le_of_lt ((List.pairwise_append.mp hnested).2.2 m hm l (by simp))
    · rw [List.mem_singleton.mp hm]

/-- Behind the first word of a list in a list, with a comment that has a paren in it, a string with
a quote in it, and a second list in column 0. -/
theorem contextAt_render_nested_list :
    let g : Gap := { text := [] }
    let blank : Gap := { text := [' '] }
    let inner : Forest := .atom g { text := ['g'] } (.atom blank { text := ['x'] } (.nil g))
    let quoted : Forest :=
      .string { text := " ; (c\n ".toList } { text := "a\\\"".toList } (.list blank inner (.nil g))
    let f : Forest :=
      .list g (.atom g { text := "if".toList } quoted) (.list { text := ['\n'] } (.nil g) (.nil g))
    f.render = "(if ; (c\n \"a\\\"\" (g x))\n()".toList ∧ f.Separated ∧
      ∃ form, (contextAt f.render 19).form = some form ∧ form.depth = 2 ∧ form.start = 16 ∧
        form.head = some ['g'] ∧ form.children = [17] := by
  intro g blank inner quoted f
  have hf : f.Separated := by decide
  have hpos : 19 ≤ f.render.length := by decide
  have hopened : ((f.lists 0).filter fun l => l.start < 19 ∧ 19 ≤ l.close) =
      [⟨0, 21, some "if".toList, [⟨1, 3⟩, ⟨10, 15⟩, ⟨16, 21⟩]⟩,
        ⟨16, 20, some ['g'], [⟨17, 18⟩, ⟨19, 20⟩]⟩] := by decide
  obtain ⟨-, hnone, hform⟩ := contextAt_render hf (by decide) hpos
  rw [hopened] at hnone hform
  refine ⟨by decide, hf, ?_⟩
  cases hc : (contextAt f.render 19).form with
  | none => exact absurd (hnone.mp hc) (by simp)
  | some form =>
    obtain ⟨hdepth, l, hl, hinnermost, hstart, hhead, hchildren⟩ := hform form hc
    rcases List.mem_cons.mp hl with rfl | hl
    · exact absurd (hinnermost _ (List.mem_cons_of_mem _ (List.mem_singleton_self _))) (by decide)
    · obtain rfl := List.mem_singleton.mp hl
      exact ⟨form, rfl, hdepth, hstart, hhead, hchildren⟩

end FlowEdit
