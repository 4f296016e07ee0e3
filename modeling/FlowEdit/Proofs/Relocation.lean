import Mathlib.Data.List.Induction
import FlowEdit.Proofs.LineStart

/-!
Reading the same characters at other offsets. Readers and the search for an anchor record offsets
and never look at them, so a reading commutes with a renaming of offsets that goes on by one where
the reading goes on by one (`Reader.run_relocate`, `AnchorSearch.run_relocate`). A context then
moves with a text that is put behind whole lines (`LineBegins.ofReader_relocate`), and a column does
not change at all, since it is counted from the beginning of a line
(`LineBegins.context_column_relocate`).
-/

namespace FlowEdit

open Text

/-! ## Renaming offsets -/

def Frame.relocate (f : Nat → Nat) (g : Frame) : Frame :=
  { start := f g.start, children := g.children.map f }

/-- The reader with its offsets renamed. -/
def Reader.relocate (f : Nat → Nat) (r : Reader) : Reader :=
  { offset := f r.offset
    mode := r.mode
    token := r.token.map f
    frames := r.frames.map (Frame.relocate f) }

/-- The search with its offsets renamed. -/
def AnchorSearch.relocate (f : Nat → Nat) (s : AnchorSearch) : AnchorSearch :=
  { s with offset := f s.offset, anchor := f s.anchor }

section

variable (f : Nat → Nat)

namespace Frame

theorem addInnermost_relocate (k : Nat) (frames : List Frame) :
    addInnermost (f k) (frames.map (relocate f)) = (addInnermost k frames).map (relocate f) := by
  cases frames with
  | nil => rfl
  | cons g gs => simp [addInnermost, addChild, relocate]

theorem close_relocate (frames : List Frame) :
    close (frames.map (relocate f)) = (close frames).map (relocate f) := by
  cases frames with
  | nil => rfl
  | cons g gs => exact addInnermost_relocate f g.start gs

variable {f}

theorem map_relocate_eq_self {n : Nat} {frames : List Frame} (h : FramesBelow n frames)
    (hf : ∀ k < n, f k = k) : frames.map (relocate f) = frames := by
  have hg : ∀ g ∈ frames, relocate f g = g := by
    intro g hg
    obtain ⟨hstart, hchildren⟩ := h g hg
    have hmap : g.children.map f = g.children :=
      (List.map_congr_left fun k hk => hf k (hchildren k hk)).trans (List.map_id g.children)
    rw [relocate, hf g.start hstart, hmap]
  exact (List.map_congr_left hg).trans (List.map_id frames)

end Frame

namespace Reader

theorem finishToken_relocate (r : Reader) :
    (r.relocate f).finishToken = r.finishToken.relocate f := by
  unfold finishToken
  cases h : r.token with
  | none => simp [relocate, h]
  | some k => simp [relocate, h, Frame.addInnermost_relocate]

theorem readCode_relocate (r : Reader) (c : Char) :
    (r.relocate f).readCode c = (r.readCode c).relocate f := by
  unfold readCode
  simp only [finishToken_relocate]
  by_cases hatom : isAtomChar c = true
  · cases h : r.token <;> simp [hatom, relocate, h]
  · simp only [hatom, Bool.false_eq_true, if_false]
    split
    · simp [relocate, Frame.relocate]
    · split
      · simp [relocate, Frame.close_relocate]
      · split
        · simp [relocate]
        · rfl

theorem readString_relocate (r : Reader) (c : Char) :
    (r.relocate f).readString c = (r.readString c).relocate f := by
  unfold readString
  split
  · exact finishToken_relocate f r
  · rfl

variable {f}

theorem step_relocate {r : Reader} (h : f (r.offset + 1) = f r.offset + 1) (c : Char) :
    (r.relocate f).step c = (r.step c).relocate f := by
  have hmode : (r.relocate f).mode = r.mode := rfl
  unfold step
  rw [hmode]
  cases r.mode with
  | code =>
    simp only [readCode_relocate]
    simp [relocate, h]
  | comment => simp [relocate, h]
  | string =>
    simp only [readString_relocate]
    simp [relocate, h]
  | escape => simp [relocate, h]

theorem run_relocate {r : Reader} (h : ∀ k, f (r.offset + k) = f r.offset + k) (t : Text) :
    (r.relocate f).run t = (r.run t).relocate f := by
  induction t generalizing r with
  | nil => rfl
  | cons c t ih =>
    have hnext : ∀ k, f ((r.step c).offset + k) = f (r.step c).offset + k := by
      intro k
      rw [offset_step, Nat.add_assoc, h, h, Nat.add_assoc]
    have hstep := step_relocate (h 1) c
    show ((r.relocate f).step c).run t = ((r.step c).run t).relocate f
    rw [hstep, ih hnext]

theorem settle_relocate (r : Reader) (after : Text) :
    (r.relocate f).settle after = (r.settle after).relocate f := by
  have hmode : (r.relocate f).mode = r.mode := rfl
  unfold settle
  rw [hmode]
  split
  · exact finishToken_relocate f r
  · rfl

end Reader

namespace AnchorSearch

variable {f}

theorem step_relocate {s : AnchorSearch} (h : f (s.offset + 1) = f s.offset + 1) (c : Char) :
    (s.relocate f).step c = (s.step c).relocate f := by
  unfold step relocate
  dsimp only
  split
  · cases s.mode.inString <;> simp [h]
  · simp [h]

theorem run_relocate {s : AnchorSearch} (h : ∀ k, f (s.offset + k) = f s.offset + k) (t : Text) :
    (s.relocate f).run t = (s.run t).relocate f := by
  induction t generalizing s with
  | nil => rfl
  | cons c t ih =>
    have hnext : ∀ k, f ((s.step c).offset + k) = f (s.step c).offset + k := by
      intro k
      rw [offset_step, Nat.add_assoc, h, h, Nat.add_assoc]
    have hstep := step_relocate (h 1) c
    show ((s.relocate f).step c).run t = ((s.step c).run t).relocate f
    rw [hstep, ih hnext]

end AnchorSearch

end

/-! ## Behind whole lines -/

/-- The open form, in a text with `n` more characters in front. -/
def OpenForm.relocate (n : Nat) (f : OpenForm) : OpenForm :=
  { start := n + f.start
    depth := f.depth
    head := f.head
    children := f.children.map (n + ·)
    alignTarget := f.alignTarget.map (n + ·) }

/-- The context, in a text with `n` more characters in front. -/
def Context.relocate (n : Nat) (c : Context) : Context :=
  { inString := c.inString, form := c.form.map (OpenForm.relocate n) }

theorem Text.column_le_length (t : Text) : column t ≤ t.length := by
  induction t using List.reverseRecOn with
  | nil => exact Nat.le_refl 0
  | append_singleton t c ih =>
    rw [column_append_singleton, columnStep, List.length_append, List.length_singleton]
    split <;> omega

section

variable {above : Text} (h : LineBegins above)

include h

theorem LineBegins.column_append_left (t : Text) : column (above ++ t) = column t := by
  have hzero : column above = 0 := by
    rcases h with rfl | ⟨x, rfl⟩
    · rfl
    · rw [column_append_singleton]
      rfl
  unfold column at hzero ⊢
  rw [List.foldl_append, hzero]

theorem LineBegins.columnAt_append_left (t : Text) (k : Nat) :
    columnAt (above ++ t) (above.length + k) = columnAt t k := by
  rw [columnAt, List.take_length_add_append, h.column_append_left]
  rfl

theorem LineBegins.lineStartAt_append_left (t : Text) (k : Nat) :
    lineStartAt (above ++ t) (above.length + k) = above.length + lineStartAt t k := by
  have hle := column_le_length (t.take k)
  unfold lineStartAt lineStart
  rw [List.take_length_add_append, h.column_append_left, List.length_append]
  omega

theorem LineBegins.alignTarget_append_left (t : Text) (start : Nat) (children : List Nat) :
    alignTarget (above ++ t) (above.length + start) (children.map (above.length + ·)) =
      (alignTarget t start children).map (above.length + ·) := by
  unfold alignTarget
  rw [List.getLast?_map]
  cases children.getLast? with
  | none => rfl
  | some last =>
    simp only [Option.map_some, h.lineStartAt_append_left, Nat.add_lt_add_iff_left]
    split
    · rw [List.find?_map]
      simp only [Function.comp_def, Nat.add_le_add_iff_left]
    · rw [List.getElem?_map]

theorem LineBegins.ofReader_relocate (t : Text) (r : Reader) :
    Context.ofReader (above ++ t) (r.relocate (above.length + ·)) =
      (Context.ofReader t r).relocate above.length := by
  unfold Context.ofReader Reader.relocate
  cases r.frames with
  | nil => rfl
  | cons g gs =>
    have hhead : (above ++ t).drop (above.length + g.start + 1) = t.drop (g.start + 1) := by
      rw [Nat.add_assoc, List.drop_length_add_append]
    simp [Context.relocate, OpenForm.relocate, Frame.relocate, h.alignTarget_append_left, hhead]

/-- Columns are counted from the beginning of a line, which moves along. -/
theorem LineBegins.openForm_column_relocate (T : RuleTable) (t : Text) (f : OpenForm) :
    (f.relocate above.length).column T (above ++ t) = f.column T t := by
  have hcount : (f.relocate above.length).argumentCount = f.argumentCount := by
    simp [OpenForm.argumentCount, OpenForm.relocate]
  unfold OpenForm.column
  rw [hcount]
  simp only [OpenForm.relocate, h.columnAt_append_left]
  cases f.alignTarget with
  | none => rfl
  | some child => simp only [Option.map_some, h.columnAt_append_left]

theorem LineBegins.context_column_relocate (T : RuleTable) (t : Text) (c : Context) :
    (c.relocate above.length).column T (above ++ t) = c.column T t := by
  unfold Context.column Context.relocate
  cases c.form with
  | none => rfl
  | some f => exact h.openForm_column_relocate T t f

end

end FlowEdit
