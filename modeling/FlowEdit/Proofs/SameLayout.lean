import FlowEdit.Proofs.AboveLine
import FlowEdit.Proofs.OpenParens
import FlowEdit.Proofs.Relocation

/-!
Head words with the same special layout. Replacing the head of a form by another word moves all that
is behind it. The search for an anchor and the reader go through either word in the same way, and
from there on they read the same characters at other offsets (`anchor_replace_word`,
`Reader.run_replace_word`). A special layout asks for the column of the form and for the number of
its arguments, which are not touched. Main statement: `indentAt_of_same_layout`.
-/

namespace FlowEdit

open Text

/-! ## Plain words -/

/-- A word that is read through in every mode. A backslash would escape the character behind it, if
the word is in a string. -/
structure PlainWord (w : Text) : Prop where
  ne_nil : w ≠ []
  atoms : w.all isAtomChar = true
  not_mem : '\\' ∉ w

/-- The mode behind a plain word. Its first character may be an escaped one. -/
def Mode.afterWord : Mode → Mode
  | .escape => .string
  | m => m

theorem Mode.afterWord_afterWord (m : Mode) : m.afterWord.afterWord = m.afterWord := by
  cases m <;> rfl

theorem ne_of_isAtomChar {c d : Char} (hc : isAtomChar c = true) (hd : isAtomChar d = false) :
    c ≠ d := by
  rintro rfl
  rw [hc] at hd
  exact Bool.noConfusion hd

theorem Mode.step_plain {c : Char} (hatom : isAtomChar c = true) (hc : c ≠ '\\') (m : Mode) :
    m.step c = m.afterWord := by
  have hnewline : c ≠ '\n' := ne_of_isAtomChar hatom (by decide)
  have hquote : c ≠ '"' := ne_of_isAtomChar hatom (by decide)
  cases m with
  | code => exact step_code_of_isAtomChar hatom
  | comment => simp [step, afterWord, hnewline]
  | string => simp [step, afterWord, hc, hquote]
  | escape => rfl

namespace AnchorSearch

theorem step_plain (s : AnchorSearch) {c : Char} (hatom : isAtomChar c = true) (hc : c ≠ '\\') :
    s.step c =
      { s with offset := s.offset + 1, mode := s.mode.afterWord, afterNewline := false } := by
  have hparen : c ≠ '(' := ne_of_isAtomChar hatom (by decide)
  have hnewline : c ≠ '\n' := ne_of_isAtomChar hatom (by decide)
  simp [step, hparen, hnewline, Mode.step_plain hatom hc]

/-- There is no candidate in a plain word. -/
theorem run_plain {w : Text} (h : PlainWord w) (s : AnchorSearch) :
    s.run w =
      { s with offset := s.offset + w.length, mode := s.mode.afterWord, afterNewline := false } := by
  induction w generalizing s with
  | nil => exact absurd rfl h.ne_nil
  | cons c w ih =>
    obtain ⟨hc, hw⟩ := Bool.and_eq_true_iff.mp h.atoms
    obtain ⟨hbackslash, hnot⟩ := not_or.mp (List.mem_cons.not.mp h.not_mem)
    have hstep := s.step_plain hc (Ne.symm hbackslash)
    show (s.step c).run w = _
    rw [hstep]
    by_cases hnil : w = []
    · subst hnil
      rfl
    · rw [ih ⟨hnil, hw, hnot⟩]
      simp [Mode.afterWord_afterWord, Nat.add_assoc, Nat.add_comm 1]

end AnchorSearch

/-! ## Replacing a word -/

/-- Where an offset goes when the word at `start`, of `m` characters, is replaced by one of `n`. -/
def replaceWord (start m n k : Nat) : Nat := if k ≤ start then k else k - m + n

theorem replaceWord_of_le {start k : Nat} (h : k ≤ start) (m n : Nat) :
    replaceWord start m n k = k := if_pos h

theorem replaceWord_end {m : Nat} (hm : 0 < m) (start n : Nat) :
    replaceWord start m n (start + m) = start + n := by
  rw [replaceWord, if_neg (by omega)]
  omega

theorem replaceWord_add {m : Nat} (hm : 0 < m) (start n k : Nat) :
    replaceWord start m n (start + m + k) = replaceWord start m n (start + m) + k := by
  rw [replaceWord_end hm, replaceWord, if_neg (by omega)]
  omega

section

variable {w v : Text} (hw : PlainWord w) (hv : PlainWord v)

include hw hv

theorem AnchorSearch.run_replace_word {s : AnchorSearch} (hs : s.anchor ≤ s.offset) (t : Text) :
    s.run (v ++ t) = (s.run (w ++ t)).relocate (replaceWord s.offset w.length v.length) := by
  have hpos := List.length_pos_iff.mpr hw.ne_nil
  have hword : s.run v = (s.run w).relocate (replaceWord s.offset w.length v.length) := by
    rw [run_plain hw, run_plain hv]
    simp only [relocate, replaceWord_of_le hs, replaceWord_end hpos]
  rw [run_append, run_append, hword, run_relocate]
  intro k
  rw [offset_run]
  exact replaceWord_add hpos _ _ k

theorem anchor_replace_word (x t : Text) :
    anchor (x ++ (v ++ t)) =
      replaceWord x.length w.length v.length (anchor (x ++ (w ++ t))) := by
  have hle := AnchorSearch.anchor_run_le (s := {}) (Nat.le_refl 0) x
  have hoffset := (searched x).offset
  unfold anchor
  rw [AnchorSearch.run_append {} x, AnchorSearch.run_append {} x,
    AnchorSearch.run_replace_word hw hv hle, hoffset]
  rfl

/-- In code both words become the token that the reader is in. -/
theorem Reader.run_replace_word {r : Reader} (hr : r.Sound) (hcode : r.mode = .code) (t : Text) :
    r.run (v ++ t) = (r.run (w ++ t)).relocate (replaceWord r.offset w.length v.length) := by
  have hpos := List.length_pos_iff.mpr hw.ne_nil
  have hword : r.run v = (r.run w).relocate (replaceWord r.offset w.length v.length) := by
    have htoken : r.token.getD r.offset ≤ r.offset := by
      cases h : r.token with
      | none => exact Nat.le_refl _
      | some k => exact Nat.le_of_lt (hr.token_lt k h)
    have hframes : r.frames.map (Frame.relocate (replaceWord r.offset w.length v.length)) =
        r.frames :=
      Frame.map_relocate_eq_self hr.frames fun k hk => replaceWord_of_le (Nat.le_of_lt hk) _ _
    rw [run_isAtomChar hcode hw.ne_nil hw.atoms,
      run_isAtomChar hcode hv.ne_nil hv.atoms]
    simp only [relocate, Option.map_some, replaceWord_of_le htoken, hframes, replaceWord_end hpos]
  rw [run_append, run_append, hword, run_relocate]
  intro k
  rw [offset_run]
  exact replaceWord_add hpos _ _ k

/-- Behind the `(` of a form that is open, its head can be replaced. The anchor is not behind the
`(`, so the reading starts where it did. -/
theorem Reader.upTo_replace_word {a t after : Text} :
    let before := a ++ ['('] ++ (w ++ t)
    let before' := a ++ ['('] ++ (v ++ t)
    a.length ∈ (upTo (anchor before) before after).starts →
      upTo (anchor before') before' after =
        (upTo (anchor before) before after).relocate
          (replaceWord (a.length + 1) w.length v.length) := by
  intro before before' hopen
  obtain ⟨x, y, hdrop, hstart, hcode⟩ := exists_of_mem_starts hopen
  have hle : anchor before ≤ a.length := by omega
  have hdrops : ∀ u, (a ++ ['('] ++ u).drop (anchor before) =
      a.drop (anchor before) ++ ['('] ++ u := by
    intro u
    rw [List.append_assoc, List.drop_append_of_le_length hle, List.append_assoc]
  have hx : a.drop (anchor before) = x := by
    rw [hdrops, List.append_assoc] at hdrop
    exact List.append_inj_left hdrop (by rw [List.length_drop]; omega)
  have hanchor : anchor before' = anchor before := by
    rw [anchor_replace_word hw hv]
    apply replaceWord_of_le
    rw [List.length_append]
    exact Nat.le_succ_of_le hle
  -- the reader that has just read the `(`
  generalize hr : run { offset := anchor before } (a.drop (anchor before) ++ ['(']) = r
  have hsound : r.Sound := hr ▸ (sound_at _).run _
  have hmode : r.mode = .code := by
    rw [← hr, mode_run, Mode.run_append, hx]
    exact congrArg (fun m => Mode.step m '(') hcode
  have hoffset : r.offset = a.length + 1 := by
    rw [← hr, offset_run, List.length_append, hx, hstart]
    rfl
  unfold upTo
  rw [hanchor, hdrops, hdrops, run_append _ _ (v ++ t), run_append _ _ (w ++ t), hr,
    run_replace_word hw hv hsound hmode, hoffset, settle_relocate]

end

/-! ## Columns -/

theorem PlainWord.head_append {w t : Text} (hw : PlainWord w) (ht : EndsAtom t) :
    head (w ++ t) = some w := by
  have htake := takeWhile_append_of_head hw.atoms ht
  have hatoms := hw.atoms
  have hne := hw.ne_nil
  cases w with
  | nil => exact absurd rfl hne
  | cons c w =>
    obtain ⟨hc, -⟩ := Bool.and_eq_true_iff.mp hatoms
    have hblank : isBlank c = false := by simp_all [isAtomChar]
    have hsemi : c ≠ ';' := ne_of_isAtomChar hc (by decide)
    rw [head, List.cons_append, Forest.skipGap_cons hblank hsemi, leadingAtom, ← List.cons_append,
      htake]

theorem RuleTable.resolve_eq_of_special {T : RuleTable} {word : Option Text}
    {count bodyOffset : Int} (h : (T.resolve word).value = .special count bodyOffset) :
    T.resolve word = pure (.special count bodyOffset) := by
  cases word with
  | none => cases h
  | some keyword =>
    unfold resolve at h ⊢
    cases hfollow : T.follow T.size ((T.get? keyword).getD .unset) with
    | none => simp [hfollow] at h
    | some l =>
      simp only [hfollow, Logged.value_pure] at h
      simp only [hfollow, h]

/-- The column by a special layout, from the column of the form and the number of its children. -/
def specialColumn (count bodyOffset : Int) (base children : Nat) : Int :=
  if count ≤ (children - 1 : Nat) then base + bodyOffset else base + 1

theorem OpenForm.column_of_special {T : RuleTable} {f : OpenForm} {word : Text}
    {count bodyOffset : Int} (hhead : f.head = some word)
    (h : (T.resolve (some word)).value = .special count bodyOffset) (t : Text) :
    f.column T t = pure (specialColumn count bodyOffset (t.columnAt f.start) f.children.length) := by
  simp only [OpenForm.column, hhead, RuleTable.resolve_eq_of_special h, pure_bind]
  rfl

/-! ## Texts -/

theorem Reader.exists_frame_of_starts {r : Reader} {k : Nat} (h : r.starts.head? = some k) :
    ∃ g gs, r.frames = g :: gs ∧ g.start = k := by
  rw [starts, List.head?_map, Option.map_eq_some_iff] at h
  obtain ⟨g, hg, hstart⟩ := h
  obtain ⟨gs, hframes⟩ := List.head?_eq_some_iff.mp hg
  exact ⟨g, gs, hframes, hstart⟩

theorem contextAt_append (before after : Text) :
    contextAt (before ++ after) before.length = Context.between before after := by
  rw [contextAt_eq_between (by simp), List.take_left, List.drop_left]

theorem LineBegins.indentAt_append {before : Text} (h : LineBegins before) (T : RuleTable)
    (after : Text) :
    indentAt T (before ++ after) before.length = (Context.between before after).column T before := by
  have hbegins : LineBegins ((before ++ after).take before.length) := by
    rw [List.take_left]
    exact h
  rw [hbegins.indentAt_eq (by simp), List.take_left, List.drop_left]

/-- The column of a line in a form with a special layout, from what the reader has on record. -/
theorem LineBegins.indentAt_of_frames {T : RuleTable} {a w t after : Text} {count bodyOffset : Int}
    (h : LineBegins (a ++ ['('] ++ (w ++ t))) (hw : PlainWord w) (ht : EndsAtom (t ++ after))
    (hT : (T.resolve (some w)).value = .special count bodyOffset) {g : Frame} {gs : List Frame}
    (hframes : (Reader.upTo (anchor (a ++ ['('] ++ (w ++ t))) (a ++ ['('] ++ (w ++ t))
      after).frames = g :: gs)
    (hstart : g.start = a.length) :
    indentAt T (a ++ ['('] ++ (w ++ t) ++ after) (a ++ ['('] ++ (w ++ t)).length =
      pure (specialColumn count bodyOffset (column a) g.children.length) := by
  have hhead : head ((a ++ ['('] ++ (w ++ t) ++ after).drop (g.start + 1)) = some w := by
    have hlen : g.start + 1 = (a ++ ['(']).length := by
      rw [hstart]
      simp
    rw [hlen, List.append_assoc, List.drop_left, List.append_assoc]
    exact hw.head_append ht
  have hcolumn : columnAt (a ++ ['('] ++ (w ++ t)) g.start = column a := by
    rw [hstart, columnAt, List.append_assoc, List.take_left]
  rw [h.indentAt_append, Context.between, Context.column, Context.ofReader, hframes]
  dsimp only
  rw [OpenForm.column_of_special hhead hT, hcolumn]

/-- Two words with the same special layout, each at the head of the form in which a line begins.
What is in front of the form and behind the head is the same and arbitrary. The line belongs in the
same column. -/
theorem indentAt_of_same_layout {T : RuleTable} {w v a b : Text} {count bodyOffset : Int} {q : Nat}
    (hw : PlainWord w) (hv : PlainWord v)
    (hTw : (T.resolve (some w)).value = .special count bodyOffset)
    (hTv : (T.resolve (some v)).value = .special count bodyOffset)
    (hb : EndsAtom b) (hq : 0 < q) (hnewline : b[q - 1]? = some '\n')
    (hopen : (contextAt (a ++ '(' :: (w ++ b)) (a.length + 1 + w.length + q : Nat)).form.map
      OpenForm.start = some a.length) :
    indentAt T (a ++ '(' :: (w ++ b)) (a.length + 1 + w.length + q : Nat) =
      indentAt T (a ++ '(' :: (v ++ b)) (a.length + 1 + v.length + q : Nat) := by
  obtain ⟨hle, hbegins⟩ := lineBegins_take (.inr hnewline)
  have hsplit : ∀ u, a ++ '(' :: (u ++ b) = a ++ ['('] ++ (u ++ b.take q) ++ b.drop q := by
    intro u
    simp
  have hlength : ∀ u : Text, a.length + 1 + u.length + q =
      (a ++ ['('] ++ (u ++ b.take q)).length := by
    intro u
    simp only [List.length_append, List.length_take, Nat.min_eq_left hle, List.length_singleton]
    omega
  have hline : ∀ u, LineBegins (a ++ ['('] ++ (u ++ b.take q)) := by
    intro u
    rcases hbegins with hnil | ⟨x, hx⟩
    · rcases List.take_eq_nil_iff.mp hnil with hzero | rfl
      · omega
      · simp at hnewline
    · rw [hx, ← List.append_assoc, ← List.append_assoc]
      exact lineBegins_concat _
  have hend : EndsAtom (b.take q ++ b.drop q) := by
    rw [List.take_append_drop]
    exact hb
  rw [hsplit, hlength, contextAt_append, Context.between, Context.start_ofReader] at hopen
  have hreplaced := Reader.upTo_replace_word hw hv (List.mem_of_head? hopen)
  obtain ⟨g, gs, hframes, hstart⟩ := Reader.exists_frame_of_starts hopen
  have hframes' := congrArg Reader.frames hreplaced
  rw [Reader.relocate, hframes, List.map_cons] at hframes'
  have hstart' : replaceWord (a.length + 1) w.length v.length g.start = a.length := by
    rw [hstart]
    exact replaceWord_of_le (Nat.le_succ _) _ _
  rw [hsplit, hsplit, hlength, hlength,
    (hline w).indentAt_of_frames hw hend hTw hframes hstart,
    (hline v).indentAt_of_frames hv hend hTv hframes' hstart', Frame.relocate, List.length_map]

/-- The two words that define a procedure, behind a stray paren and a string with a paren in
column 0, in front of a comment with a paren and a form that is left open. -/
theorem indentAt_of_same_layout_definitions :
    let a : Text := ") \"s\n(\" (block b\n  ".toList
    let b : Text := " f (x) ; (\n\t(y".toList
    indentAt .standard (a ++ '(' :: ("define".toList ++ b)) 37 = pure 5 ∧
      indentAt .standard (a ++ '(' :: ("define-registers".toList ++ b)) 47 = pure 5 := by
  intro a b
  have hword : PlainWord "define".toList := ⟨by decide, by decide, by decide⟩
  have hword' : PlainWord "define-registers".toList := ⟨by decide, by decide, by decide⟩
  have hsame := indentAt_of_same_layout (T := .standard) (a := a) (b := b) (q := 11) hword hword'
    rfl rfl rfl (by decide) (by decide) (by decide +kernel)
  have hcolumn : indentAt .standard (a ++ '(' :: ("define".toList ++ b)) 37 = pure 5 := by
    decide +kernel
  exact ⟨hcolumn, hsame.symm.trans hcolumn⟩

end FlowEdit
