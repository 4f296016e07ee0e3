import FlowEdit.Proofs.Atoms
import FlowEdit.Proofs.Forest

/-!
Reading the pieces of a laid out forest: a gap leaves the reader where it was, an atom or a string
becomes a child. Each comes in two lemmas, for the whole piece and for a cut in it. An atom is
complete only when something ends it, so a reader that has just read one may be compared with the
one that takes it for complete (`settle_run_finishToken`).
-/

namespace FlowEdit

open Text

/-- A text in front of which an atom ends. -/
def EndsAtom (t : Text) : Prop := t.head?.any isAtomChar = false

theorem endsAtom_nil : EndsAtom [] := rfl

theorem endsAtom_cons_iff {c : Char} {t : Text} : EndsAtom (c :: t) ↔ isAtomChar c = false := by
  simp [EndsAtom]

/-- Several finished children belong to the innermost open form. -/
def Frame.addChildren (children : List Nat) : List Frame → List Frame
  | [] => []
  | f :: fs => { f with children := f.children ++ children } :: fs

@[simp]
theorem Frame.addChildren_nil (frames : List Frame) : Frame.addChildren [] frames = frames := by
  cases frames <;> simp [Frame.addChildren]

@[simp]
theorem Frame.addChildren_cons (child : Nat) (children : List Nat) (frames : List Frame) :
    Frame.addChildren (child :: children) frames =
      Frame.addChildren children (Frame.addInnermost child frames) := by
  cases frames <;> simp [Frame.addChildren, Frame.addInnermost, Frame.addChild]

namespace Reader

/-! ## Settling -/

theorem mode_finishToken (r : Reader) : r.finishToken.mode = r.mode := by
  unfold finishToken
  cases r.token <;> rfl

theorem mode_settle (r : Reader) (after : Text) : (r.settle after).mode = r.mode := by
  unfold settle
  split
  · exact mode_finishToken r
  · rfl

theorem settle_of_token_eq_none {r : Reader} (h : r.token = none) (after : Text) :
    r.settle after = r := by
  unfold settle
  split
  · exact finishToken_of_none h
  · rfl

theorem settle_of_inString {r : Reader} (h : r.mode.inString = true) (after : Text) :
    r.settle after = r := by
  unfold settle
  split
  next hc =>
    rw [hc.1] at h
    exact Bool.noConfusion h
  next => rfl

theorem finishToken_finishToken (r : Reader) : r.finishToken.finishToken = r.finishToken :=
  finishToken_of_none (token_finishToken r)

theorem settle_of_endsAtom {r : Reader} (hr : r.mode = .code) {after : Text}
    (h : EndsAtom after) : r.settle after = r.finishToken := by
  have hafter : after.head?.any isAtomChar = false := h
  simp [settle, hr, hafter]

/-- A character that ends an atom takes it for complete. -/
theorem step_finishToken {r : Reader} (hr : r.mode = .code) {c : Char}
    (hc : isAtomChar c = false) : r.finishToken.step c = r.step c := by
  simp [step, hr, mode_finishToken, readCode, hc, finishToken_finishToken]

/-- An atom that does not go on can be taken for complete at once. -/
theorem settle_run_finishToken {r : Reader} (hr : r.mode = .code) {x y : Text}
    (h : EndsAtom (x ++ y)) : (r.run x).settle y = (r.finishToken.run x).settle y := by
  cases x with
  | nil =>
    have hmode : r.finishToken.mode = .code := by rw [mode_finishToken, hr]
    rw [List.nil_append] at h
    show r.settle y = r.finishToken.settle y
    rw [settle_of_endsAtom hr h, settle_of_endsAtom hmode h, finishToken_finishToken]
  | cons c x =>
    rw [run_cons, run_cons, step_finishToken hr (endsAtom_cons_iff.mp h)]

/-! ## Reading a gap, an atom or a string -/

/-- The reader between two trees. -/
def idle (offset : Nat) (frames : List Frame) : Reader := { offset, frames }

def gapMode (inComment : Bool) : Mode := if inComment then .comment else .code

theorem step_isGap {inComment : Bool} {c : Char} {t : Text} (h : isGap inComment (c :: t) = true)
    (offset : Nat) (frames : List Frame) :
    ∃ k, isGap k t = true ∧ ({ offset, mode := gapMode inComment, frames } : Reader).step c =
      { offset := offset + 1, mode := gapMode k, frames } := by
  rw [isGap] at h
  cases inComment with
  | true =>
    refine ⟨c != '\n', by simpa using h, ?_⟩
    by_cases hn : c = '\n'
    · subst hn
      rfl
    · simp [gapMode, step, Mode.step, hn]
  | false =>
    by_cases hs : c = ';'
    · subst hs
      exact ⟨true, by simpa using h, rfl⟩
    · simp only [Bool.false_eq_true, if_false, hs, Bool.and_eq_true] at h
      refine ⟨false, h.2, ?_⟩
      have hne : ∀ d : Char, isBlank d = false → c ≠ d := by
        rintro d hd rfl
        rw [h.1] at hd
        exact Bool.noConfusion hd
      simp [gapMode, step, readCode, isAtomChar, h.1, finishToken, Mode.step, hs, hne '(' rfl,
        hne ')' rfl, hne '"' rfl]

theorem run_isGap {inComment : Bool} {x y : Text} (h : isGap inComment (x ++ y) = true)
    (offset : Nat) (frames : List Frame) :
    ∃ k, isGap k y = true ∧ ({ offset, mode := gapMode inComment, frames } : Reader).run x =
      { offset := offset + x.length, mode := gapMode k, frames } := by
  induction x generalizing inComment offset with
  | nil => exact ⟨inComment, h, rfl⟩
  | cons c x ih =>
    obtain ⟨j, hj, hstep⟩ := step_isGap h offset frames
    obtain ⟨k, hk, hrun⟩ := ih hj (offset + 1)
    refine ⟨k, hk, ?_⟩
    rw [run_cons, hstep, hrun, List.length_cons, Nat.add_assoc, Nat.add_comm 1]

theorem run_gap (gap : Gap) (offset : Nat) (frames : List Frame) :
    (idle offset frames).run gap.text = idle (offset + gap.text.length) frames := by
  have h : isGap false (gap.text ++ []) = true := by
    rw [List.append_nil]
    exact gap.isGap_text
  obtain ⟨k, hk, hrun⟩ := run_isGap h offset frames
  obtain rfl : k = false := by simpa [isGap] using hk
  exact hrun

theorem run_atom {x : Text} (hne : x ≠ []) (h : x.all isAtomChar = true) (offset : Nat)
    (frames : List Frame) :
    (idle offset frames).run x = { offset := offset + x.length, token := some offset, frames } :=
  run_isAtomChar rfl hne h

theorem step_isStringBody {escaped : Bool} {c : Char} {t : Text}
    (h : isStringBody escaped (c :: t) = true) (offset : Nat) (token : Option Nat)
    (frames : List Frame) :
    ∃ k, isStringBody k t = true ∧
      ({ offset, mode := bodyMode escaped, token, frames } : Reader).step c =
        { offset := offset + 1, mode := bodyMode k, token, frames } := by
  obtain ⟨k, hk, hmode, hquote⟩ := step_bodyMode h
  refine ⟨k, hk, ?_⟩
  rw [← hmode]
  cases escaped with
  | true => rfl
  | false => simp [step, bodyMode, readString, hquote rfl]

theorem run_isStringBody {escaped : Bool} {x y : Text} (h : isStringBody escaped (x ++ y) = true)
    (offset : Nat) (token : Option Nat) (frames : List Frame) :
    ∃ k, isStringBody k y = true ∧
      ({ offset, mode := bodyMode escaped, token, frames } : Reader).run x =
        { offset := offset + x.length, mode := bodyMode k, token, frames } := by
  induction x generalizing escaped offset with
  | nil => exact ⟨escaped, h, rfl⟩
  | cons c x ih =>
    obtain ⟨j, hj, hstep⟩ := step_isStringBody h offset token frames
    obtain ⟨k, hk, hrun⟩ := ih hj (offset + 1)
    refine ⟨k, hk, ?_⟩
    rw [run_cons, hstep, hrun, List.length_cons, Nat.add_assoc, Nat.add_comm 1]

theorem step_quote (offset : Nat) (frames : List Frame) :
    (idle offset frames).step '"' =
      { offset := offset + 1, mode := .string, token := some offset, frames } := rfl

/-- A string up to a cut in it. -/
theorem run_open_string {x y : Text} (h : isStringBody false (x ++ y) = true) (offset : Nat)
    (frames : List Frame) :
    ∃ k, isStringBody k y = true ∧ (idle offset frames).run ('"' :: x) =
      { offset := offset + 1 + x.length, mode := bodyMode k, token := some offset, frames } := by
  rw [run_cons, step_quote]
  exact run_isStringBody h (offset + 1) (some offset) frames

theorem run_string (body : StringBody) (offset : Nat) (frames : List Frame) :
    (idle offset frames).run ('"' :: (body.text ++ ['"'])) =
      idle (offset + body.text.length + 2) (Frame.addInnermost offset frames) := by
  have h : isStringBody false (body.text ++ []) = true := by
    rw [List.append_nil]
    exact body.isStringBody_text
  obtain ⟨k, hk, hrun⟩ := run_open_string h offset frames
  obtain rfl : k = false := by simpa [isStringBody] using hk
  rw [← List.cons_append, run_append, hrun]
  simp [run, step, readString, bodyMode, finishToken, idle, Mode.step]
  omega

end Reader

end FlowEdit
