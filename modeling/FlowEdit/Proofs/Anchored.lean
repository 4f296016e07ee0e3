import Mathlib.Data.List.Induction
import FlowEdit.Proofs.StringLines

/-!
When reading from an anchor is reading from the beginning. An anchor is the beginning of the text
or a `(` in column 0 (`anchor_eq_zero_or`). Where such a paren is in code and outside all forms, a
reader that comes from the beginning has nothing on record there, so it is in the state in which a
reader starts. If all of them are like that, the context of every position is the one read from the
beginning (`TopLevelParens.contextAt_eq`).
-/

namespace FlowEdit

open Text

/-- The reader that has read a text from its beginning. -/
def Reader.ofText (t : Text) : Reader := run { offset := 0 } t

/-- Every `(` in column 0 behind a newline is in code and outside all forms, as the text is read
from its beginning. -/
def TopLevelParens (t : Text) : Prop :=
  ∀ a, a ++ ['\n', '('] <+: t →
    (Reader.ofText (a ++ ['\n'])).mode = .code ∧ (Reader.ofText (a ++ ['\n'])).frames = []

theorem TopLevelParens.mono {t before : Text} (h : TopLevelParens t) (hb : before <+: t) :
    TopLevelParens before :=
  fun a ha => h a (ha.trans hb)

/-! ## Reading from the beginning -/

namespace Reader

theorem ofText_append (t u : Text) : ofText (t ++ u) = (ofText t).run u :=
  run_append _ t u

theorem mode_ofText (t : Text) : (ofText t).mode = Mode.code.run t := mode_run _ t

theorem offset_ofText (t : Text) : (ofText t).offset = t.length := by
  unfold ofText
  rw [offset_run, Nat.zero_add]

theorem sound_ofText (t : Text) : (ofText t).Sound := (sound_at 0).run t

theorem upTo_zero (before after : Text) : upTo 0 before after = (ofText before).settle after := rfl

/-- At the beginning of a line in code, outside all forms, nothing is on record. -/
theorem ofText_eq_start {before : Text} (h : LineBegins before)
    (hcode : (ofText before).mode = .code) (hframes : (ofText before).frames = []) :
    ofText before = { offset := before.length } := by
  have htoken : (ofText before).token = none := by
    rcases h with rfl | ⟨t, rfl⟩
    · rfl
    · rw [ofText_append] at hcode ⊢
      exact (sound_ofText t).token_step_newline hcode
  have hoffset := offset_ofText before
  cases hr : ofText before with
  | mk offset mode token frames =>
    simp_all

end Reader

/-! ## Reading from an anchor -/

/-- An anchor is the beginning of the text or a `(` in column 0. -/
theorem anchor_eq_zero_or (before : Text) :
    anchor before = 0 ∨ ∃ a, a ++ ['\n', '('] <+: before ∧ anchor before = a.length + 1 := by
  unfold anchor
  induction before using List.reverseRecOn with
  | nil => exact .inl rfl
  | append_singleton t c ih =>
    have hs := searched t
    have hkept : (AnchorSearch.run {} t).anchor = 0 ∨
        ∃ a, a ++ ['\n', '('] <+: t ++ [c] ∧ (AnchorSearch.run {} t).anchor = a.length + 1 := by
      refine ih.imp_right ?_
      rintro ⟨a, ha, hanchor⟩
      exact ⟨a, ha.trans (List.prefix_append t [c]), hanchor⟩
    have hstep : AnchorSearch.run {} (t ++ [c]) = (AnchorSearch.run {} t).step c :=
      AnchorSearch.run_append {} t [c]
    rw [hstep]
    generalize AnchorSearch.run {} t = s at hs hkept
    unfold AnchorSearch.step
    split
    next hc =>
      obtain ⟨hafter, hparen⟩ := Bool.and_eq_true_iff.mp hc
      obtain ⟨a, rfl⟩ := hs.afterNewline hafter
      have hpos := hs.offset
      cases hstring : s.mode.inString with
      | true => simpa using hkept
      | false =>
        right
        refine ⟨a, ?_, by simpa using hpos⟩
        rw [beq_iff_eq.mp hparen]
        simp
    next => exact hkept

namespace TopLevelParens

variable {before : Text}

/-- A reader that comes from the beginning is at an anchor as one that starts there. -/
theorem ofText_take_anchor (h : TopLevelParens before) :
    Reader.ofText (before.take (anchor before)) = { offset := anchor before } := by
  rcases anchor_eq_zero_or before with hzero | ⟨a, ha, hanchor⟩
  · rw [hzero]
    rfl
  · obtain ⟨hcode, hframes⟩ := h a ha
    have hlen : (a ++ ['\n']).length = a.length + 1 := by simp
    have htake : before.take (anchor before) = a ++ ['\n'] := by
      have hline : a ++ ['\n'] <+: before := List.IsPrefix.trans ⟨['('], by simp⟩ ha
      rw [hanchor, ← hlen]
      exact (List.prefix_iff_eq_take.mp hline).symm
    rw [htake, Reader.ofText_eq_start (lineBegins_concat a) hcode hframes, hlen, hanchor]

theorem upTo_anchor (h : TopLevelParens before) (after : Text) :
    Reader.upTo (anchor before) before after = Reader.upTo 0 before after := by
  have hread : Reader.ofText before =
      Reader.run { offset := anchor before } (before.drop (anchor before)) := by
    rw [← h.ofText_take_anchor, ← Reader.ofText_append, List.take_append_drop]
  rw [Reader.upTo_zero, hread]
  rfl

theorem between_eq (h : TopLevelParens before) (after : Text) :
    Context.between before after =
      Context.ofReader (before ++ after) ((Reader.ofText before).settle after) := by
  unfold Context.between
  rw [h.upTo_anchor, Reader.upTo_zero]

/-- Every position of the text has the context that is read from the beginning. -/
theorem contextAt_eq {t : Text} (h : TopLevelParens t) {pos : Nat} (hpos : pos ≤ t.length) :
    contextAt t pos = Context.ofReader t ((Reader.ofText (t.take pos)).settle (t.drop pos)) := by
  unfold contextAt
  simp only [clamp_natCast hpos]
  rw [(h.mono (List.take_prefix pos t)).between_eq, List.take_append_drop]

end TopLevelParens

end FlowEdit
