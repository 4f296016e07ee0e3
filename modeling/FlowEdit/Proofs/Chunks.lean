import FlowEdit.Proofs.AboveLine
import FlowEdit.Proofs.ExactAnchor
import FlowEdit.Proofs.LineByLine
import FlowEdit.Proofs.QuotedParens
import FlowEdit.Proofs.Relocation

/-!
Chunks of whole lines that are re-indented on their own. A text is complete if it ends with a line
and nothing is open behind it, neither a form nor a string, as it is read from its anchor
(`Complete`). Behind a complete text every line has the context that it has without it, moved along
(`Complete.between_append`). The other way round, what follows a complete text is not seen from its
lines: the head of a form is the only thing that is read past a line, and the form has to be closed
again in front of the end (`Complete.not_isGap`). So the walk over two chunks in a row is a walk over
each of them. Main statement: `reindent_append`.
-/

namespace FlowEdit

open Text

/-! ## Complete texts -/

/-- Whole lines, no paren in column 0 inside a string, and a reading from the anchor that ends with
nothing on record. -/
structure Complete (t : Text) : Prop where
  begins : LineBegins t
  clear : ∀ a, ¬ QuotedAt t a
  read : Reader.run { offset := anchor t } (t.drop (anchor t)) = { offset := t.length }

/-- What the context of the end of a text says about it. -/
theorem complete_of_between {t : Text} (h : LineBegins t) (hclear : ∀ a, ¬ QuotedAt t a)
    (hdepth : (Context.between t []).depth = 0) (hstring : (Context.between t []).inString = false) :
    Complete t := by
  refine ⟨h, hclear, ?_⟩
  have hupTo := Reader.upTo_eq_run h (anchor t) []
  have hframes : (Reader.upTo (anchor t) t []).frames = [] := by
    rw [Context.between, Context.depth_ofReader, Reader.starts, List.length_map] at hdepth
    exact List.length_eq_zero_iff.mp hdepth
  have hmode : (Reader.upTo (anchor t) t []).mode = .code := by
    rw [h.inString_between] at hstring
    rw [hupTo, Reader.mode_run]
    exact Mode.eq_code_of_idle (Mode.idle_run (h.drop _)) hstring
  have htoken : (Reader.upTo (anchor t) t []).token = none := by
    have hsettled := Reader.settle_of_endsAtom (hupTo ▸ hmode) endsAtom_nil
    rw [Reader.upTo, hsettled, Reader.token_finishToken]
  have hoffset := (Reader.sound_upTo h (anchor_le_length t) []).2
  rw [← hupTo]
  generalize Reader.upTo (anchor t) t [] = r at hframes hmode htoken hoffset
  cases r
  simp_all

/-! ## Behind a complete text -/

namespace AnchorSearch

/-- The search at the beginning of a line, in code. -/
def behind (offset anchor : Nat) : AnchorSearch :=
  { offset, anchor, mode := .code, afterNewline := true }

/-- A paren is in column 0 there, and trusted. -/
theorem step_behind_paren (n a : Nat) :
    (behind n a).step '(' = (step {} '(').relocate (n + ·) := by
  simp [behind, step, relocate, Mode.inString, Mode.step]

theorem step_behind {c : Char} (hc : c ≠ '(') (n a : Nat) :
    (behind n a).step c = (step {} c).relocate fun k => if k = 0 then a else n + k := by
  simp [behind, step, relocate, hc]

end AnchorSearch

namespace Complete

variable {t : Text} (h : Complete t)

include h

theorem mode_search : (AnchorSearch.run {} t).mode = .code := by
  have hsearched := searched t
  have hcode : (Mode.code.run (t.take (anchor t))).inString = false :=
    hsearched.anchor.resolve_right fun ⟨a, _, _, ha, _⟩ => h.clear a ha
  have hread : Mode.code.run (t.drop (anchor t)) = .code := by
    have hmode := congrArg Reader.mode h.read
    rwa [Reader.mode_run] at hmode
  rw [hsearched.mode.resolve_right fun ⟨a, ha⟩ => h.clear a ha, ← run_drop_anchor hcode, hread]

theorem run_search (hne : t ≠ []) :
    AnchorSearch.run {} t = .behind t.length (anchor t) := by
  obtain ⟨x, hx⟩ := h.begins.resolve_left hne
  have hafter : (AnchorSearch.run {} t).afterNewline = true := by
    rw [hx]
    exact AnchorSearch.afterNewline_run_concat {} x
  have hoffset := (searched t).offset
  have hmode := h.mode_search
  unfold anchor AnchorSearch.behind
  generalize AnchorSearch.run {} t = s at hafter hoffset hmode
  cases s
  simp_all

/-- The anchor behind a complete text is where it is without it, or else there is none without it
and it is the one of the complete text. -/
theorem anchor_append (u : Text) :
    anchor (t ++ u) = t.length + anchor u ∨ anchor u = 0 ∧ anchor (t ++ u) = anchor t := by
  by_cases hne : t = []
  · subst hne
    exact .inl (Nat.zero_add _).symm
  cases u with
  | nil =>
    rw [List.append_nil]
    exact .inr ⟨rfl, rfl⟩
  | cons c u =>
    have hfresh : anchor (c :: u) = ((AnchorSearch.step {} c).run u).anchor := rfl
    have hbehind : anchor (t ++ c :: u) =
        ((AnchorSearch.behind t.length (anchor t)).step c |>.run u).anchor := by
      rw [anchor, AnchorSearch.run_append, h.run_search hne]
      rfl
    rw [hbehind, hfresh]
    by_cases hc : c = '('
    · left
      rw [hc, AnchorSearch.step_behind_paren, AnchorSearch.run_relocate fun k => by omega]
      rfl
    · have hone : (AnchorSearch.step {} c).offset = 1 := AnchorSearch.offset_step {} c
      rw [AnchorSearch.step_behind hc, AnchorSearch.run_relocate fun k => by
        rw [hone, if_neg (by omega), if_neg (by omega)]
        omega]
      by_cases hzero : ((AnchorSearch.step {} c).run u).anchor = 0
      · exact .inr ⟨hzero, if_pos hzero⟩
      · exact .inl (if_neg hzero)

/-- What is read behind a complete text is read as it is without it. -/
theorem upTo_append (u after : Text) :
    Reader.upTo (anchor (t ++ u)) (t ++ u) after =
      (Reader.upTo (anchor u) u after).relocate (t.length + ·) := by
  have hrun : ∀ k, Reader.run { offset := t.length + k } (u.drop k) =
      (Reader.run { offset := k } (u.drop k)).relocate (t.length + ·) := by
    intro k
    rw [← Reader.run_relocate fun _ => by rw [Nat.add_assoc]]
    rfl
  unfold Reader.upTo
  rw [← Reader.settle_relocate, ← hrun]
  rcases h.anchor_append u with hanchor | ⟨hzero, hanchor⟩
  · rw [hanchor, List.drop_length_add_append]
  · rw [hanchor, hzero, List.drop_append_of_le_length (anchor_le_length t), Reader.run_append,
      h.read]
    rfl

/-- Behind a complete text every context is the one without it, moved along. -/
theorem between_append (u after : Text) :
    Context.between (t ++ u) after = (Context.between u after).relocate t.length := by
  rw [Context.between, Context.between, h.upTo_append, List.append_assoc,
    h.begins.ofReader_relocate]

theorem planLine_append (T : RuleTable) (u line after : Text) :
    planLine T (t ++ u) line after = planLine T u line after := by
  have hstring : (Context.between (t ++ u) (line ++ after)).inString =
      (Context.between u (line ++ after)).inString := by
    rw [h.between_append]
    rfl
  have hcolumn : (Context.between (t ++ u) (line ++ after)).column T (t ++ u ++ line ++ after) =
      (Context.between u (line ++ after)).column T (u ++ line ++ after) := by
    rw [h.between_append, List.append_assoc, List.append_assoc, ← List.append_assoc u,
      h.begins.context_column_relocate]
  unfold planLine
  simp only [hstring, hcolumn]

end Complete

/-! ## Heads -/

/-- No paren of a gap is in column 0: a comment ends with its line. -/
theorem not_isInfix_of_isGap {t : Text} (h : isGap false t = true) : ¬ ['\n', '('] <:+: t := by
  rintro ⟨x, y, rfl⟩
  have hsplit : x ++ ['\n', '('] ++ y = (x ++ ['\n']) ++ '(' :: y := by simp
  rw [hsplit] at h
  obtain ⟨k, hk, hrun⟩ := Reader.run_isGap h 0 []
  have hmode : Mode.code.run (x ++ ['\n']) = Reader.gapMode k := by
    have hread := congrArg Reader.mode hrun
    rw [Reader.mode_run] at hread
    exact hread
  have hidle := Mode.idle_run (lineBegins_concat x)
  rw [hmode] at hidle
  cases k with
  | true => rcases hidle with hcode | hstring <;> contradiction
  | false => simp [isGap, isBlank, blanks] at hk

/-- A head that is found in whole lines does not go on behind them. -/
theorem leadingAtom_skipGap_append {inComment : Bool} {x : Text}
    (h : isGap inComment (x ++ ['\n']) = false) (y : Text) :
    leadingAtom (skipGap inComment (x ++ '\n' :: y)) =
      leadingAtom (skipGap inComment (x ++ ['\n'])) := by
  induction x generalizing inComment with
  | nil => cases inComment <;> simp [isGap, isBlank, blanks] at h
  | cons c x ih =>
    rw [List.cons_append, isGap] at h
    rw [List.cons_append, List.cons_append, skipGap, skipGap]
    cases inComment with
    | true =>
      simp only [if_true] at h ⊢
      exact ih h
    | false =>
      simp only [Bool.false_eq_true, if_false] at h ⊢
      by_cases hblank : isBlank c = true
      · have hsemi : c ≠ ';' := by
          rintro rfl
          exact absurd hblank (by decide)
        simp only [hblank, if_true]
        exact ih (by simpa [hsemi, hblank] using h)
      · simp only [hblank, Bool.false_eq_true, if_false]
        by_cases hsemi : c = ';'
        · subst hsemi
          exact ih (by simpa using h)
        · have hn : isAtomChar '\n' = false := by decide
          simp only [hsemi, if_false, leadingAtom]
          rw [← List.cons_append, ← List.cons_append, takeWhile_append_cons hn,
            takeWhile_append_cons hn]

theorem LineBegins.head_append_of_not_isGap {t : Text} (h : LineBegins t)
    (hgap : isGap false t = false) (u : Text) : head (t ++ u) = head t := by
  rcases h with rfl | ⟨x, rfl⟩
  · simp [isGap] at hgap
  · rw [List.append_assoc]
    exact leadingAtom_skipGap_append hgap u

/-- Behind a paren of the text above there is no paren in column 0, so the anchor stays. -/
theorem anchor_append_of_not_isInfix {before rest : Text}
    (hclear : ∀ a, ¬ QuotedAt (before ++ rest) a) {k : Nat} (hk : before[k]? = some '(')
    (hnone : ¬ ['\n', '('] <:+: (before ++ rest).drop (k + 1)) :
    anchor (before ++ rest) = anchor before := by
  have hlt := (List.getElem?_eq_some_iff.mp hk).1
  refine Nat.le_antisymm ?_ (anchor_le_anchor_append before rest)
  rcases anchor_eq_zero_or (before ++ rest) with hzero | ⟨a, ha, hanchor⟩
  · rw [hzero]
    exact Nat.zero_le _
  have hparen : ParenInColumnZero (before ++ rest) (a.length + 1) :=
    parenInColumnZero_iff.mpr ⟨a, ha, rfl⟩
  rw [hanchor]
  by_cases hle : a.length + 1 ≤ k
  · have hbefore : ParenInColumnZero ((before ++ rest).take before.length) (a.length + 1) :=
      parenInColumnZero_take_iff.mpr ⟨by omega, hparen⟩
    rw [List.take_left] at hbefore
    exact (isGreatest_anchor fun b hb => hclear b (hb.append rest)).2 (.inr hbefore)
  · have hne : a.length ≠ k := by
      rintro rfl
      have hnewline := hparen.2.1
      rw [Nat.add_sub_cancel, List.getElem?_append_left hlt, hk] at hnewline
      exact absurd hnewline (by decide)
    obtain ⟨z, hz⟩ := ha
    refine absurd ⟨a.drop (k + 1), z, ?_⟩ hnone
    rw [← hz, List.append_assoc, List.append_assoc, List.drop_append_of_le_length (by omega)]

theorem Reader.step_open {r : Reader} (hr : r.mode = .code) :
    r.step '(' =
      { offset := r.offset + 1, frames := { start := r.offset } :: r.finishToken.frames } := by
  have hatom : isAtomChar '(' = false := by decide
  simp [step, hr, readCode, hatom, Mode.step]

/-- A form that is open above a line of a complete text is closed in it, so there is something
inside. -/
theorem Complete.not_isGap {before rest : Text} (h : Complete (before ++ rest)) {k : Nat}
    (hk : k ∈ (Reader.upTo (anchor before) before []).starts) :
    isGap false ((before ++ rest).drop (k + 1)) = false := by
  by_contra hgap
  rw [Bool.not_eq_false] at hgap
  obtain ⟨x, y, hdrop, rfl, hcode⟩ := Reader.exists_of_mem_starts hk
  have hparen : before[anchor before + x.length]? = some '(' := by
    rw [← List.getElem?_drop, hdrop]
    simp
  have hanchor := anchor_append_of_not_isInfix h.clear hparen (not_isInfix_of_isGap hgap)
  have hafter : (before ++ rest).drop (anchor before) = x ++ '(' :: (y ++ rest) := by
    rw [List.drop_append_of_le_length (anchor_le_length before), hdrop]
    simp
  have hinside : (before ++ rest).drop (anchor before + x.length + 1) = y ++ rest := by
    rw [Nat.add_assoc, ← List.drop_drop, hafter, ← List.drop_drop, List.drop_left]
    rfl
  rw [hinside, ← List.append_nil (y ++ rest)] at hgap
  -- the reading of the whole text opens the form and then finds nothing to close it
  have hread := h.read
  generalize hr : Reader.run { offset := anchor before } x = r at hread
  have hmode : r.mode = .code := by
    rw [← hr, Reader.mode_run]
    exact hcode
  obtain ⟨j, -, hrun⟩ := Reader.run_isGap hgap (r.offset + 1)
    ({ start := r.offset } :: r.finishToken.frames)
  rw [hanchor, hafter, Reader.run_append, hr, Reader.run_cons, Reader.step_open hmode] at hread
  have hframes := congrArg Reader.frames (hrun.symm.trans hread)
  exact absurd hframes (List.cons_ne_nil _ _)

/-! ## Lines of a complete text -/

/-- What follows a complete text is not seen from its lines. -/
theorem Complete.between_left {before rest : Text} (h : Complete (before ++ rest))
    (hbefore : LineBegins before) (u : Text) :
    Context.between before (rest ++ u) = Context.between before rest := by
  apply hbefore.between_eq_of_head
  intro g gs hframes hle
  have hgap := h.not_isGap (k := g.start) (by simp [Reader.starts, hframes])
  have hle' : g.start + 1 ≤ (before ++ rest).length := by
    rw [List.length_append]
    omega
  rw [← List.append_assoc, List.drop_append_of_le_length hle']
  exact (h.begins.drop _).head_append_of_not_isGap hgap u

/-- The plan for a line of a complete text does not depend on the lines that follow the text. -/
theorem Complete.planLine_left {before line : Text} {rest : List Text}
    (h : Complete (before ++ preceding (line :: rest))) (hbefore : LineBegins before)
    (T : RuleTable) {ms : List Text} (hne : ms ≠ []) :
    planLine T before line (following (rest ++ ms)) =
      planLine T before line (following (rest ++ [[]])) := by
  have htext : ∀ ms, ms ≠ [] →
      line ++ following (rest ++ ms) = preceding (line :: rest) ++ unlines ms := by
    intro ms hms
    rw [← unlines_cons, ← List.cons_append, unlines_append _ hms]
  apply planLine_eq_of_between hbefore T ?_ rfl
  rw [htext ms hne, htext [[]] (by simp), h.between_left hbefore, h.between_left hbefore]

/-! ## Walks -/

section

variable {widest : Nat} (T : RuleTable)

theorem planInRange_all (n : Nat) (before line after : Text) :
    planInRange T {} n before line after = planLine T before line after := by
  simp [planInRange, LineRange.contains]

/-- Behind a complete text the walk is the one without it. -/
theorem Complete.reflowedLines_right {t : Text} (h : Complete t) (n m : Nat) (before : Text)
    (ls : List Text) :
    reflowedLines T {} n (t ++ before) ls = reflowedLines T {} m before ls := by
  induction ls generalizing n m before with
  | nil => rfl
  | cons line rest ih =>
    rw [reflowedLines_cons, reflowedLines_cons, planInRange_all, planInRange_all,
      h.planLine_append]
    simp only [List.append_assoc, ih (n + 1) (m + 1)]

theorem Complete.obstacleFrom_right {t : Text} (h : Complete t) (n m : Nat) (before : Text)
    (ls : List Text) :
    (obstacleFrom widest T {} n (t ++ before) ls).value =
      (obstacleFrom widest T {} m before ls).value := by
  induction ls generalizing n m before with
  | nil => rfl
  | cons line rest ih =>
    rw [obstacleFrom_cons, obstacleFrom_cons, planInRange_all, planInRange_all, h.planLine_append]
    simp only [List.append_assoc, ih (n + 1) (m + 1)]

/-- A line with nothing on it stays so. -/
theorem value_planLine_nil (before after : Text) :
    (planLine T before [] after).value = none ∨ (planLine T before [] after).value = some 0 := by
  cases h : (Context.between before after).inString with
  | true => exact .inl (by simp [planLine, h])
  | false => exact .inr (by simp [planLine, h])

theorem reflowedLines_empty (n : Nat) (before : Text) :
    reflowedLines T {} n before [[]] = [[]] := by
  rw [reflowedLines_cons, planInRange_all]
  rcases value_planLine_nil T before (following []) with hplan | hplan
  · rw [hplan]
    rfl
  · rw [hplan]
    rfl

theorem obstacleFrom_empty (n : Nat) (before : Text) :
    (obstacleFrom widest T {} n before [[]]).value = none := by
  rw [obstacleFrom_cons, planInRange_all]
  rcases value_planLine_nil T before (following []) with hplan | hplan
  · rw [hplan]
    rfl
  · rw [hplan, Option.bind_some, widthError?_zero]
    rfl

/-- The lines as the walk leaves them if the text ends with them. -/
def settledLines (before : Text) : List Text → List Text
  | [] => []
  | line :: rest =>
    let settled := placed (planLine T before line (following (rest ++ [[]]))).value line
    settled :: settledLines (before ++ settled ++ ['\n']) rest

theorem reflowedLines_concat_nil (n : Nat) (before : Text) (ls : List Text) :
    reflowedLines T {} n before (ls ++ [[]]) = settledLines T before ls ++ [[]] := by
  induction ls generalizing n before with
  | nil => exact reflowedLines_empty T n before
  | cons line rest ih =>
    rw [List.cons_append, reflowedLines_cons, planInRange_all, ih]
    rfl

theorem map_bare_settledLines (before : Text) (ls : List Text) :
    (settledLines T before ls).map bare = ls.map bare := by
  have hbare := map_bare_reflowedLines T {} 0 before (ls ++ [[]])
  rw [reflowedLines_concat_nil, List.map_append, List.map_append] at hbare
  exact List.append_cancel_right hbare

theorem allLines_settledLines (before : Text) {ls : List Text} (h : AllLines ls) :
    AllLines (settledLines T before ls) := by
  have hreflowed := allLines_reflowedLines T {} 0 before (h.append allLines_nil_line)
  rw [reflowedLines_concat_nil] at hreflowed
  exact fun l hl => hreflowed l (List.mem_append_left _ hl)

variable {T}

/-- One line of a text that will be complete when the walk is through. -/
theorem Complete.planLine_settled {before line : Text} {rest ms : List Text}
    (h : Complete (before ++ preceding (settledLines T before (line :: rest))))
    (hbefore : LineBegins before) (hl : AllLines (line :: rest)) (hms : AllLines ms)
    (hne : ms ≠ []) :
    planLine T before line (following (rest ++ ms)) =
      planLine T before line (following (rest ++ [[]])) := by
  obtain ⟨line', rest', hsettled⟩ : ∃ line' rest', settledLines T before (line :: rest) =
      line' :: rest' := ⟨_, _, rfl⟩
  have hl' := allLines_settledLines T before hl
  have hbare := map_bare_settledLines T before (line :: rest)
  rw [hsettled] at h hl' hbare
  -- below the line the text is taken as the walk will leave it
  have hbelow : ∀ ms, AllLines ms → planLine T before line (following (rest ++ ms)) =
      planLine T before line' (following (rest' ++ ms)) := by
    intro ms hms
    have hmap : (line :: rest ++ ms).map bare = (line' :: rest' ++ ms).map bare := by
      rw [List.map_append, List.map_append, hbare]
    exact planLine_eq_of_map_bare hbefore T (hl.append hms) (hl'.append hms) hmap
  rw [hbelow ms hms, hbelow [[]] allLines_nil_line, h.planLine_left hbefore T hne]

/-- A walk over a text that it makes complete, and on behind it. -/
theorem Complete.reflowedLines_append {before : Text} {ls ms : List Text}
    (h : Complete (before ++ preceding (settledLines T before ls))) (hbefore : LineBegins before)
    (hl : AllLines ls) (hms : AllLines ms) (hne : ms ≠ []) (n : Nat) :
    reflowedLines T {} n before (ls ++ ms) =
      settledLines T before ls ++ reflowedLines T {} 0 [] ms := by
  induction ls generalizing n before with
  | nil =>
    have hright := h.reflowedLines_right T n 0 [] ms
    simpa [settledLines] using hright
  | cons line rest ih =>
    have hplan := h.planLine_settled hbefore hl hms hne
    rw [settledLines, preceding] at h
    rw [List.cons_append, reflowedLines_cons, planInRange_all, hplan, ih _ (lineBegins_concat _)
      hl.tail]
    · rfl
    · simpa [preceding] using h

/-- It meets the obstacles of both parts, those of the first one first. -/
theorem Complete.obstacleFrom_append {before : Text} {ls ms : List Text}
    (h : Complete (before ++ preceding (settledLines T before ls))) (hbefore : LineBegins before)
    (hl : AllLines ls) (hms : AllLines ms) (hne : ms ≠ []) (n : Nat) :
    (obstacleFrom widest T {} n before (ls ++ ms)).value =
      (obstacleFrom widest T {} n before (ls ++ [[]])).value.or
        (obstacleFrom widest T {} 0 [] ms).value := by
  induction ls generalizing n before with
  | nil =>
    have hright : (obstacleFrom widest T {} n (_ ++ []) ms).value = _ :=
      h.obstacleFrom_right T n 0 [] ms
    rw [List.nil_append, List.nil_append, obstacleFrom_empty, Option.none_or, ← hright]
    simp [settledLines]
  | cons line rest ih =>
    have hplan := h.planLine_settled hbefore hl hms hne
    rw [settledLines, preceding] at h
    rw [List.cons_append, List.cons_append, obstacleFrom_cons, obstacleFrom_cons, planInRange_all,
      planInRange_all, hplan, ih _ (lineBegins_concat _) hl.tail, Option.or_assoc]
    simpa [preceding] using h

end

/-! ## Texts -/

theorem LineBegins.exists_preceding {t : Text} (h : LineBegins t) :
    ∃ ls, AllLines ls ∧ t = preceding ls := by
  rcases h with rfl | ⟨x, rfl⟩
  · exact ⟨[], by simp [AllLines], rfl⟩
  · exact ⟨x.lines, allLines_lines x, (preceding_lines x).symm⟩

theorem value_reindent_preceding (T : RuleTable) {ls : List Text} (h : AllLines ls) :
    (reindent T (preceding ls)).value = preceding (settledLines T [] ls) := by
  rw [value_reindent, reflowed, lines_preceding h, reflowedLines_concat_nil,
    unlines_append _ (List.cons_ne_nil _ _)]
  exact List.append_nil _

/-- Two chunks in a row are re-indented as each is on its own, and refused if one of them is. The
first one is made of whole lines and has no paren in column 0 inside a string; once it is
re-indented, the context of its end is outside all forms and strings. Nothing is asked of the second
one. -/
theorem reindent_append (widest : Nat) {T : RuleTable} {a b : Text} (ha : LineBegins a)
    (hclear : StringsClear a)
    (hdepth : (contextAt (reindent T a).value (reindent T a).value.length).depth = 0)
    (hstring : (contextAt (reindent T a).value (reindent T a).value.length).inString = false) :
    (reindent T (a ++ b)).value = (reindent T a).value ++ (reindent T b).value ∧
      (reindent? T (a ++ b) widest).value = do
        let x ← (reindent? T a widest).value
        let y ← (reindent? T b widest).value
        return x ++ y := by
  obtain ⟨ls, hl, rfl⟩ := ha.exists_preceding
  have hquoted := not_quotedAt_reindent T hclear.not_quotedAt
  have hreindent := value_reindent_preceding T hl
  rw [contextAt_eq_between le_rfl, List.take_length, List.drop_length] at hdepth hstring
  rw [hreindent] at hquoted hdepth hstring
  have hcomplete : Complete ([] ++ preceding (settledLines T [] ls)) :=
    complete_of_between (lineBegins_preceding _) hquoted hdepth hstring
  have hb := allLines_lines b
  have hne := lines_ne_nil b
  have hlines := lines_preceding_append hl b
  have htext : (reindent T (preceding ls ++ b)).value =
      (reindent T (preceding ls)).value ++ (reindent T b).value := by
    have hne' : reflowedLines T {} 0 [] b.lines ≠ [] := by
      rw [← lines_reflowed]
      exact lines_ne_nil _
    rw [hreindent, value_reindent, reflowed, hlines,
      hcomplete.reflowedLines_append lineBegins_nil hl hb hne, unlines_append _ hne']
    rfl
  refine ⟨htext, ?_⟩
  have hobstacle : (obstacle widest T (preceding ls ++ b) {}).value =
      (obstacle widest T (preceding ls) {}).value.or (obstacle widest T b {}).value := by
    unfold obstacle
    rw [hlines, lines_preceding hl]
    exact hcomplete.obstacleFrom_append lineBegins_nil hl hb hne 0
  unfold reindent?
  rw [value_unlessObstacle, value_unlessObstacle, value_unlessObstacle, hobstacle, htext]
  cases (obstacle widest T (preceding ls) {}).value with
  | some e => rfl
  | none =>
    cases (obstacle widest T b {}).value with
    | some e => rfl
    | none => rfl

/-- A definition with a string over two lines and a comment behind it. Then a branch that is left
open, with a paren in column 0 inside a string. -/
theorem reindent_append_definition_and_branch :
    let a : Text := "(define f (x)\n(print \"a\n b\")) ; (\n".toList
    let b : Text := "(if x\ny \"\n(\" z".toList
    let a' : Text := "(define f (x)\n   (print \"a\n b\")) ; (\n".toList
    let b' : Text := "(if x\n y \"\n(\" z".toList
    (reindent .standard (a ++ b)).value = a' ++ b' ∧
      (reindent? .standard (a ++ b) 80).value = .ok (a' ++ b') := by
  intro a b a' b'
  have ha : (reindent .standard a).value = a' := by decide +kernel
  have hb : (reindent .standard b).value = b' := by decide +kernel
  have ha? : (reindent? .standard a 80).value = .ok a' :=
    value_unlessObstacle_eq_ok_iff.mpr ⟨by decide +kernel, ha⟩
  have hb? : (reindent? .standard b 80).value = .ok b' :=
    value_unlessObstacle_eq_ok_iff.mpr ⟨by decide +kernel, hb⟩
  have hclear : StringsClear a := by
    rw [StringsClear, lexemes_eq_lexemesFrom]
    decide +kernel
  have happend := reindent_append 80 (T := .standard) (a := a) (b := b) (.inr ⟨a.dropLast, rfl⟩)
    hclear (by rw [ha]; decide +kernel) (by rw [ha]; decide +kernel)
  rw [ha, hb, ha?, hb?] at happend
  exact happend

end FlowEdit
