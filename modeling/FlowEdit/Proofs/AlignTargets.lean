import FlowEdit.Proofs.Chunks
import FlowEdit.Proofs.ColumnZero

/-!
Alignment targets, read from the `(` of a form alone. A form that is open is found by a reader that
starts at its `(` as it is found by one that comes from further out: the latter has the outer forms
open as well, and they take part in nothing until the form is closed (`Reader.upTo_eq_within`). A
form that is closed is not found again, since a later form begins further on. Main statement:
`alignTargetOf_agrees`.
-/

namespace FlowEdit

open Text

/-! ## Outer forms -/

namespace Frame

variable {frames : List Frame}

theorem addInnermost_append (h : frames ≠ []) (child : Nat) (outer : List Frame) :
    addInnermost child (frames ++ outer) = addInnermost child frames ++ outer := by
  cases frames with
  | nil => exact absurd rfl h
  | cons f fs => rfl

theorem close_append (h : close frames ≠ []) (outer : List Frame) :
    close (frames ++ outer) = close frames ++ outer := by
  cases frames with
  | nil => exact absurd rfl h
  | cons f fs => exact addInnermost_append (mt addInnermost_eq_nil_iff.mpr h) f.start outer

end Frame

namespace Reader

/-- The reader with further forms open around those that it has open. -/
def within (r : Reader) (outer : List Frame) : Reader := { r with frames := r.frames ++ outer }

variable {r : Reader} {outer : List Frame}

theorem starts_within :
    (r.within outer).starts = r.starts ++ outer.map Frame.start := List.map_append

theorem finishToken_within (h : r.frames ≠ []) :
    (r.within outer).finishToken = r.finishToken.within outer := by
  unfold finishToken
  cases ht : r.token with
  | none => simp [within, ht]
  | some k => simp [within, ht, Frame.addInnermost_append h]

theorem readCode_within (h : r.frames ≠ []) {c : Char} (hread : (r.readCode c).frames ≠ []) :
    (r.within outer).readCode c = (r.readCode c).within outer := by
  unfold readCode at hread ⊢
  simp only [finishToken_within h]
  by_cases hatom : isAtomChar c = true
  · simp only [hatom, if_true]
    rfl
  · simp only [hatom, Bool.false_eq_true, if_false] at hread ⊢
    split
    · rfl
    · split
      · have hclose : Frame.close r.finishToken.frames ≠ [] := by simp_all
        simp [within, Frame.close_append hclose]
      · split <;> rfl

theorem readString_within (h : r.frames ≠ []) (c : Char) :
    (r.within outer).readString c = (r.readString c).within outer := by
  unfold readString
  split
  · exact finishToken_within h
  · rfl

/-- As long as a form is open, what is further out does not matter. -/
theorem step_within (h : r.frames ≠ []) {c : Char} (hstep : (r.step c).frames ≠ []) :
    (r.within outer).step c = (r.step c).within outer := by
  have hmode : (r.within outer).mode = r.mode := rfl
  unfold step at hstep ⊢
  rw [hmode]
  cases hm : r.mode with
  | code =>
    have hread : (r.readCode c).frames ≠ [] := by simpa [hm] using hstep
    simp only [readCode_within h hread]
    rfl
  | string =>
    simp only [readString_within h]
    rfl
  | comment => rfl
  | escape => rfl

theorem settle_within (h : r.frames ≠ []) (after : Text) :
    (r.within outer).settle after = (r.settle after).within outer := by
  have hmode : (r.within outer).mode = r.mode := rfl
  unfold settle
  rw [hmode]
  split
  · exact finishToken_within h
  · rfl

/-- Closing the outermost form leaves the forms that are further out. -/
theorem starts_step_within (h : r.frames ≠ []) {c : Char} (hstep : (r.step c).frames = []) :
    ((r.within outer).step c).starts = outer.map Frame.start := by
  have hmode : (r.within outer).mode = r.mode := rfl
  have hne : r.starts ≠ [] := by simpa [starts] using h
  have hnil : (r.step c).starts = [] := by simp [starts, hstep]
  rw [starts_step] at hnil
  rw [starts_step, hmode, starts_within]
  split at hnil
  · exact absurd hnil (List.cons_ne_nil _ _)
  · split at hnil
    · simp_all [List.tail_append_of_ne_nil]
    · exact absurd hnil hne

/-- A form that is open behind a text and began in front of it was open there. -/
theorem mem_starts_of_run {u : Text} {k : Nat} (hk : k < r.offset)
    (h : k ∈ (r.run u).starts) : k ∈ r.starts := by
  induction u generalizing r with
  | nil => exact h
  | cons c u ih =>
    have hstep := ih (Nat.lt_succ_of_lt hk) h
    rw [starts_step] at hstep
    split at hstep
    · exact (List.mem_cons.mp hstep).resolve_left (Nat.ne_of_lt hk)
    · split at hstep
      · exact List.mem_of_mem_tail hstep
      · exact hstep

/-- The forms that are further out do not matter up to where one of the inner ones is still open. -/
theorem run_within {u : Text} {k : Nat} (hne : r.frames ≠ []) (hk : k < r.offset)
    (houter : k ∉ outer.map Frame.start) (h : k ∈ ((r.within outer).run u).starts) :
    (r.run u).frames ≠ [] ∧ (r.within outer).run u = (r.run u).within outer := by
  induction u generalizing r with
  | nil => exact ⟨hne, rfl⟩
  | cons c u ih =>
    -- if the last inner form were closed here, only outer ones would be left to find the form among
    have hstep : (r.step c).frames ≠ [] := by
      intro hnil
      have hopen : k ∈ ((r.within outer).step c).starts :=
        mem_starts_of_run (Nat.lt_succ_of_lt hk) h
      rw [starts_step_within hne hnil] at hopen
      exact houter hopen
    rw [run_cons, step_within hne hstep] at h
    rw [run_cons, run_cons, step_within hne hstep]
    exact ih hstep (Nat.lt_succ_of_lt hk) h

/-! ## Forms that are open -/

/-- The reader that has read the `(` at `k` and nothing else. -/
def opened (k : Nat) : Reader := { offset := k + 1, frames := [{ start := k }] }

theorem step_open_eq_within (hr : r.mode = .code) :
    r.step '(' = (opened r.offset).within r.finishToken.frames := step_open hr

theorem upTo_of_drop {k : Nat} {before y : Text} (h : before.drop k = '(' :: y) (after : Text) :
    upTo k before after = ((opened k).run y).settle after := by
  rw [upTo, h, run_cons, step_open rfl]
  rfl

/-- A reader that starts at the `(` of an open form finds what one that comes from further out finds
inside the form. -/
theorem upTo_eq_within {start k : Nat} {before after : Text}
    (h : k ∈ (upTo start before after).starts) :
    ∃ y outer, before.drop k = '(' :: y ∧ (upTo k before after).starts ≠ [] ∧
      upTo start before after = (upTo k before after).within outer := by
  obtain ⟨x, y, hdrop, rfl, hcode⟩ := exists_of_mem_starts h
  have hdrop' : before.drop (start + x.length) = '(' :: y := by
    rw [← List.drop_drop, hdrop, List.drop_left]
  generalize hr : run { offset := start } x = r
  have hmode : r.mode = .code := by
    rw [← hr, mode_run]
    exact hcode
  have hoffset : r.offset = start + x.length := by rw [← hr, offset_run]
  have hsound : r.Sound := hr ▸ (sound_at start).run x
  rw [← hoffset] at h hdrop' ⊢
  -- the outer forms are those that are open in front of the `(`
  have houter : r.offset ∉ r.finishToken.frames.map Frame.start := by
    intro hmem
    obtain ⟨f, hf, hstart⟩ := List.mem_map.mp hmem
    exact Nat.ne_of_lt (hsound.frames_finishToken f hf).1 hstart
  have hrun : run { offset := start } (before.drop start) =
      ((opened r.offset).within r.finishToken.frames).run y := by
    rw [hdrop, run_append, hr, run_cons, step_open_eq_within hmode]
  rw [upTo, starts_settle, hrun] at h
  obtain ⟨hne, hwithin⟩ := run_within (List.cons_ne_nil _ _) (Nat.lt_succ_self _) houter h
  refine ⟨y, r.finishToken.frames, hdrop', ?_, ?_⟩
  · rw [upTo_of_drop hdrop', starts_settle]
    simpa [starts] using hne
  · rw [upTo_of_drop hdrop', upTo, hrun, hwithin, settle_within hne]

end Reader

/-- Where a sequence begins with the last `(` that is open, no other one is. -/
theorem Nested.eq_nil_of_cons {k : Nat} {ks : List Nat} {ps : List Paren}
    (h : Nested (k :: ks) (⟨k, true⟩ :: ps)) (hps : ⟨k, true⟩ ∉ ps) : ks = [] := by
  generalize hall : (⟨k, true⟩ :: ps : List Paren) = all at h
  cases h with
  | @inside _ front inner outer _ _ =>
    cases front with
    | cons p front =>
      obtain ⟨-, rfl⟩ := List.cons.inj hall
      simp at hps
    | nil =>
      cases ks with
      | nil => rfl
      | cons j ks => exact absurd (outer.mem List.mem_cons_self) List.not_mem_nil

/-- From the `(` of the innermost form on, this form alone is open. -/
theorem Reader.frames_upTo_start {start : Nat} {before after : Text} {g : Frame} {gs : List Frame}
    (h : (upTo start before after).frames = g :: gs) :
    (∃ y, before.drop g.start = '(' :: y) ∧ (upTo g.start before after).frames = [g] := by
  have hopen : g.start ∈ (upTo start before after).starts := by simp [starts, h]
  obtain ⟨y, outer, hdrop, hne, hwithin⟩ := upTo_eq_within hopen
  refine ⟨⟨y, hdrop⟩, ?_⟩
  have hnested := nested_upTo g.start before after
  rw [hwithin] at h
  have hframes : (upTo g.start before after).frames ++ outer = g :: gs := h
  rw [hdrop] at hnested
  unfold starts at hne hnested
  cases hinner : (upTo g.start before after).frames with
  | nil => simp [hinner] at hne
  | cons f fs =>
    rw [hinner] at hframes hnested
    obtain ⟨rfl, -⟩ := List.cons.inj hframes
    have hlater : ⟨f.start, true⟩ ∉ parensFrom .code (f.start + 1) y := by
      intro hmem
      obtain ⟨x, -, -, hlen, -⟩ := exists_of_mem_parensFrom hmem
      omega
    have hnil := Nested.eq_nil_of_cons hnested hlater
    rw [List.map_eq_nil_iff.mp hnil]

/-! ## Forms that are closed -/

theorem parensFrom_append (m : Mode) (offset : Nat) (t u : Text) :
    parensFrom m offset (t ++ u) =
      parensFrom m offset t ++ parensFrom (m.run t) (offset + t.length) u := by
  induction t generalizing m offset with
  | nil => rfl
  | cons c t ih =>
    rw [List.cons_append, parensFrom, ih, parensFrom, List.append_assoc, List.length_cons,
      Nat.add_assoc, Nat.add_comm 1]
    rfl

/-- The form that opens at `start` is closed at `stop`: in a reading from its `(` on, the `)` there
is in code, and each paren between the two has its partner. -/
def ClosesAt (t : Text) (start stop : Nat) : Prop :=
  ∃ inside rest, t.drop start = '(' :: inside ++ ')' :: rest ∧ stop = start + inside.length + 1 ∧
    Mode.code.run inside = .code ∧ Balanced (parensFrom .code (start + 1) inside)

theorem balanced_form {inside : Text} {start : Nat} (hcode : Mode.code.run inside = .code)
    (h : Balanced (parensFrom .code (start + 1) inside)) :
    Balanced (parensFrom .code start ('(' :: inside ++ [')'])) := by
  rw [List.cons_append, parensFrom, parensFrom_append]
  have hmode : Mode.code.step '(' = .code := rfl
  rw [hmode, hcode]
  exact h.wrap start _

theorem Nested.eq_nil {ks : List Nat} {ps : List Paren} (h : Nested ks ps) (hps : NothingOpen ps) :
    ks = [] := by
  cases h with
  | outside => rfl
  | @inside ks ps inner _ k h => exact absurd ⟨ps, rfl, h.neverBelow⟩ (hps.not_staysOpen k inner)

/-- A form that is closed is not found by reading on from its `(`. -/
theorem ClosesAt.not_mem_starts {t : Text} {start stop p : Nat} (h : ClosesAt t start stop)
    (hp : stop < p) (after : Text) : start ∉ (Reader.upTo start (t.take p) after).starts := by
  obtain ⟨inside, rest, hdrop, rfl, hcode, hbalanced⟩ := h
  obtain ⟨rest', hread⟩ : ∃ rest', (t.take p).drop start = ('(' :: inside ++ [')']) ++ rest' := by
    rw [List.drop_take, hdrop, List.append_cons, List.take_append,
      List.take_of_length_le (by simp; omega)]
    exact ⟨_, rfl⟩
  rw [Reader.upTo, Reader.starts_settle, hread, Reader.run_append]
  have hform := Reader.nested_run (r := { offset := start }) (.outside nothingOpen_nil)
    ('(' :: inside ++ [')'])
  generalize hr : Reader.run { offset := start } ('(' :: inside ++ [')']) = r at hform ⊢
  have hnil : r.starts = [] := hform.eq_nil (balanced_form hcode hbalanced).nothingOpen
  intro hmem
  -- what is opened behind the form begins further on
  have hstart : start ∈ r.starts := by
    refine Reader.mem_starts_of_run ?_ hmem
    rw [← hr, Reader.offset_run]
    simp
  simp [hnil] at hstart

/-! ## Alignment targets -/

/-- The alignment target of a form, found by reading from its `(` on, is the one in the context of a
position in the form. A form that is closed before the position has none, whatever forms are opened
behind it. -/
theorem alignTargetOf_agrees (t : Text) (pos : Int) :
    (∀ f, (contextAt t pos).form = some f → alignTargetOf t f.start pos = f.alignTarget) ∧
      ∀ start stop : Nat, ClosesAt t start stop → stop < t.clamp pos →
        alignTargetOf t start pos = none := by
  constructor
  · intro f hf
    rw [contextAt, Context.between, List.take_append_drop] at hf
    obtain ⟨g, gs, hframes, rfl⟩ := Context.exists_frame hf
    obtain ⟨⟨y, hdrop⟩, hinner⟩ := Reader.frames_upTo_start hframes
    have hlt : g.start < t.clamp pos := by
      have hlen := congrArg List.length hdrop
      rw [List.length_drop, length_take_clamp, List.length_cons] at hlen
      omega
    have hparen : t[g.start]? = some '(' := by
      rw [← List.getElem?_take_of_lt hlt, ← Nat.add_zero g.start, ← List.getElem?_drop, hdrop]
      rfl
    unfold alignTargetOf
    rw [if_pos ⟨Int.natCast_nonneg _, Int.ofNat_lt.mpr hlt, hparen⟩, Int.toNat_natCast, hinner]
    simp
  · intro start stop h hstop
    have hclosed := h.not_mem_starts hstop (t.drop (t.clamp pos))
    simp only [alignTargetOf, Int.toNat_natCast]
    cases hlast : (Reader.upTo start (t.take (t.clamp pos)) (t.drop (t.clamp pos))).frames.getLast?
    with
    | none => simp
    | some f =>
      have hne : f.start ≠ start := by
        rintro rfl
        exact hclosed (List.mem_map_of_mem (List.mem_of_getLast? hlast))
      simp [hne]

/-- An open form in another one, with a paren in a string and one in a comment, and a closed form in
front of it. -/
theorem alignTargetOf_agrees_nested :
    let t : Text := "(a (b)\n  (f \")\" x ; (\n     y z".toList
    (contextAt t 29).form.map OpenForm.start = some 9 ∧ alignTargetOf t 9 29 = some 27 ∧
      ClosesAt t 3 5 ∧ alignTargetOf t 3 29 = none := by
  intro t
  obtain ⟨hopen, hclosed⟩ := alignTargetOf_agrees t 29
  have hform : (contextAt t 29).form = some ⟨9, 2, some ['f'], [10, 12, 16, 27], some 27⟩ := by
    decide
  have hcloses : ClosesAt t 3 5 := ⟨['b'], t.drop 6, by decide, rfl, by decide, Balanced.nil⟩
  exact ⟨congrArg (Option.map OpenForm.start) hform, hopen _ hform, hcloses,
    hclosed 3 5 hcloses (by decide)⟩

end FlowEdit
