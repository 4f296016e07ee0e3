import FlowEdit.Proofs.ForestAppend

/-!
What the reader has on record, as it stands in the text. Each open form is a `(` with a forest
behind it, whose trees are the finished children (`Laid`), and behind the innermost one comes what
the reader is in the middle of (`Pending`). One character keeps this (`Reader.Tiled.step`), so it
holds at every position of every text, balanced or not. Main statement: `form_tiles_text`.
-/

namespace FlowEdit

open Text

/-! ## Open forms in a text -/

/-- A text that begins at offset `start`, with the forms that are open behind it, innermost first.
Each is written as its `(` and the trees that are its children so far. -/
inductive Laid (start : Nat) : List Frame → Text → Prop
  | outside (t : Text) : Laid start [] t
  | inside {frames : List Frame} {outer : Text} (h : Laid start frames outer) (inner : Forest)
      (separated : inner.Separated) :
      Laid start
        ({ start := start + outer.length
           children := (inner.children (start + outer.length + 1)).map Extent.start } :: frames)
        (outer ++ '(' :: inner.render)

namespace Laid

variable {start : Nat} {frames : List Frame} {t : Text}

/-- More trees become children of the innermost form. -/
theorem append (h : Laid start frames t) {f : Forest} (hf : f.Separated)
    (hjoin : f.beginsWithAtom = true → EndsNoAtom t) :
    Laid start (Frame.addChildren ((f.children (start + t.length)).map Extent.start) frames)
      (t ++ f.render) := by
  cases h with
  | outside t => exact outside _
  | @inside frames outer h inner separated =>
    have hnext : start + (outer ++ '(' :: inner.render).length =
        start + outer.length + 1 + inner.render.length := by
      simp
      omega
    have htext : outer ++ '(' :: inner.render ++ f.render =
        outer ++ '(' :: (inner.append f).render := by
      simp [Forest.render_append]
    have hinner : f.beginsWithAtom = true → EndsNoAtom inner.render := by
      intro hatom
      have hends := (hjoin hatom).of_append
      rw [← List.singleton_append] at hends
      exact hends.of_append
    rw [hnext, htext, Frame.addChildren, ← List.map_append, ← Forest.children_append]
    exact inside h (inner.append f) (Forest.separated_append separated hf hinner)

theorem gap (h : Laid start frames t) (g : Gap) : Laid start frames (t ++ g.text) := by
  have hadd := h.append (f := .nil g) trivial (by simp [Forest.beginsWithAtom])
  simpa [Forest.children, Forest.render] using hadd

theorem atom (h : Laid start frames t) (word : Atom) (ht : EndsNoAtom t) :
    Laid start (Frame.addInnermost (start + t.length) frames) (t ++ word.text) := by
  have hadd := h.append (f := .atom .empty word (.nil .empty)) ⟨rfl, trivial⟩ fun _ => ht
  simpa [Forest.children, Forest.render, Gap.empty] using hadd

theorem string (h : Laid start frames t) (body : StringBody) :
    Laid start (Frame.addInnermost (start + t.length) frames)
      (t ++ '"' :: (body.text ++ ['"'])) := by
  have hadd := h.append (f := .string .empty body (.nil .empty)) trivial
    (by simp [Forest.beginsWithAtom])
  simpa [Forest.children, Forest.render, Gap.empty] using hadd

theorem opening (h : Laid start frames t) :
    Laid start ({ start := start + t.length } :: frames) (t ++ ['(']) :=
  h.inside (.nil .empty) trivial

/-- The innermost form is closed and becomes a child, or there is none. -/
theorem close (h : Laid start frames t) : Laid start (Frame.close frames) (t ++ [')']) := by
  cases h with
  | outside t => exact outside _
  | @inside frames outer h inner separated =>
    have hadd := h.append (f := .list .empty inner (.nil .empty)) ⟨separated, trivial⟩
      (by simp [Forest.beginsWithAtom])
    simpa [Forest.children, Forest.render, Gap.empty, Frame.close] using hadd

end Laid

/-! ## The token or comment at the end -/

/-- What the reader is in the middle of, and the part of it that it has read, from `offset` on. -/
inductive Pending (offset : Nat) : Mode → Option Nat → Text → Prop
  | nothing : Pending offset .code none []
  | atom (word : Atom) : Pending offset .code (some offset) word.text
  | string (body : StringBody) : Pending offset .string (some offset) ('"' :: body.text)
  | escape (body : StringBody) :
      Pending offset .escape (some offset) ('"' :: (body.text ++ ['\\']))
  | comment {x : Text} (h : '\n' ∉ x) : Pending offset .comment none (';' :: x)

/-- The text `t` that was read from `start` on: what is on record of it, and what is pending. In
code an atom that begins next is a new one. -/
inductive Reader.Tiled (start : Nat) (t : Text) : Reader → Prop
  | mk {done part : Text} {offset : Nat} {mode : Mode} {token : Option Nat} {frames : List Frame}
      (text : t = done ++ part) (offset_eq : offset = start + t.length)
      (laid : Laid start frames done) (pending : Pending (start + done.length) mode token part)
      (ends : mode = .code → EndsNoAtom done) :
      Reader.Tiled start t { offset, mode, token, frames }

def Atom.concat (word : Atom) {c : Char} (hc : isAtomChar c = true) : Atom where
  text := word.text ++ [c]
  ne_nil := by simp
  isAtomChar_text := by simp [word.isAtomChar_text, hc]

def StringBody.concat (body : StringBody) {c : Char} (hb : c ≠ '\\') (hq : c ≠ '"') : StringBody where
  text := body.text ++ [c]
  isStringBody_text := by
    rw [isStringBody_append body.isStringBody_text]
    simp [isStringBody, hb, hq]

def StringBody.concatEscaped (body : StringBody) (c : Char) : StringBody where
  text := body.text ++ ['\\', c]
  isStringBody_text := by
    rw [isStringBody_append body.isStringBody_text]
    rfl

theorem isGap_comment {x : Text} (h : '\n' ∉ x) : isGap true (x ++ ['\n']) = true := by
  induction x with
  | nil => rfl
  | cons c x ih =>
    rw [List.mem_cons, not_or] at h
    have hc : (c != '\n') = true := by simpa using Ne.symm h.1
    rw [List.cons_append, isGap, if_pos rfl, hc, ih h.2]

namespace Reader

variable {start : Nat} {t : Text} {frames : List Frame}

theorem tiled_nil (start : Nat) : Tiled start [] { offset := start } :=
  .mk rfl rfl (.outside []) .nothing fun _ => endsNoAtom_nil

/-- A character that ends an atom or stands between two trees. -/
theorem tiled_step_idle (h : Laid start frames t) {c : Char} (hc : isAtomChar c = false) :
    Tiled start (t ++ [c]) ((idle (start + t.length) frames).step c) := by
  have hlen : start + t.length + 1 = start + (t ++ [c]).length := by simp [Nat.add_assoc]
  have hnil : t ++ [c] = t ++ [c] ++ [] := (List.append_nil _).symm
  have hends : EndsNoAtom (t ++ [c]) := endsNoAtom_concat_iff.mpr hc
  by_cases hblank : isBlank c = true
  · have hgap : isGap false ([c] ++ []) = true := by
      have hsemi : c ≠ ';' := by rintro rfl; exact absurd hblank (by decide)
      simp [isGap, hsemi, hblank]
    obtain ⟨k, hk, hstep⟩ := step_isGap hgap (start + t.length) frames
    obtain rfl : k = false := by simpa [isGap] using hk
    rw [idle, show Mode.code = gapMode false from rfl, hstep]
    exact .mk hnil hlen (h.gap ⟨[c], hgap⟩) .nothing fun _ => hends
  · have hdelimiter : c ∈ delimiters := by
      simpa [isAtomChar, hblank, isDelimiter] using hc
    simp only [delimiters, List.mem_cons, List.not_mem_nil, or_false] at hdelimiter
    rcases hdelimiter with rfl | rfl | rfl | rfl
    · exact .mk hnil hlen h.opening .nothing fun _ => hends
    · exact .mk hnil hlen h.close .nothing fun _ => hends
    · exact .mk rfl hlen h (.comment (x := []) (by simp)) Mode.noConfusion
    · exact .mk rfl hlen h (.string { text := [] }) Mode.noConfusion

/-- What is on record and what is pending, one character further. -/
theorem Tiled.step {r : Reader} (h : r.Tiled start t) (c : Char) :
    (r.step c).Tiled start (t ++ [c]) := by
  obtain @⟨done, part, offset, mode, token, frames, rfl, rfl, laid, pending, ends⟩ := h
  have hlen : start + (done ++ part).length + 1 = start + (done ++ part ++ [c]).length := by
    simp [Nat.add_assoc]
  have htext : done ++ part ++ [c] = done ++ (part ++ [c]) := List.append_assoc ..
  cases pending with
  | nothing =>
    rw [List.append_nil] at hlen htext ⊢
    by_cases hc : isAtomChar c = true
    · rw [step_isAtomChar rfl hc]
      exact .mk rfl hlen laid (.atom ⟨[c], by simp, by simpa using hc⟩) ends
    · exact tiled_step_idle laid (by simpa using hc)
  | atom word =>
    by_cases hc : isAtomChar c = true
    · rw [step_isAtomChar rfl hc]
      exact .mk htext hlen laid (.atom (word.concat hc)) ends
    · have hend : isAtomChar c = false := by simpa using hc
      rw [← step_finishToken rfl hend]
      exact tiled_step_idle (laid.atom word (ends rfl)) hend
  | string body =>
    by_cases hquote : c = '"'
    · subst hquote
      refine .mk (List.append_nil _).symm hlen (htext ▸ laid.string body) .nothing fun _ => ?_
      exact endsNoAtom_concat_iff.mpr rfl
    · by_cases hback : c = '\\'
      · subst hback
        exact .mk htext hlen laid (.escape body) Mode.noConfusion
      · have hmode : Mode.string.step c = .string := by simp [Mode.step, hquote, hback]
        simp only [step, readString, hquote, if_false, hmode]
        exact .mk htext hlen laid (.string (body.concat hback hquote)) Mode.noConfusion
  | escape body =>
    refine .mk ?_ hlen laid (.string (body.concatEscaped c)) Mode.noConfusion
    simp [StringBody.concatEscaped]
  | @comment x hx =>
    by_cases hn : c = '\n'
    · subst hn
      refine .mk (List.append_nil _).symm hlen (htext ▸ laid.gap ⟨_, ?_⟩) .nothing fun _ => ?_
      · exact isGap_comment hx
      · exact endsNoAtom_concat_iff.mpr rfl
    · have hmode : Mode.comment.step c = .comment := by simp [Mode.step, hn]
      simp only [step, hmode]
      exact .mk htext hlen laid (.comment (by simp [hx, Ne.symm hn])) Mode.noConfusion

theorem Tiled.run {r : Reader} (h : r.Tiled start t) (u : Text) :
    (r.run u).Tiled start (t ++ u) := by
  induction u generalizing t r with
  | nil =>
    rw [List.append_nil]
    exact h
  | cons c u ih =>
    have hrest := ih (h.step c)
    rw [List.append_assoc] at hrest
    exact hrest

end Reader

/-! ## The inside of a form up to a position -/

/-- What a position in front of `after` cuts off: nothing, an atom that goes on in `after`, a string
that is not closed, or a comment that has not ended. -/
inductive CutOff (after : Text) : Text → Prop
  | nothing : CutOff after []
  | atom (word : Atom) (goesOn : after.head?.any isAtomChar = true) : CutOff after word.text
  | string (body : StringBody) : CutOff after ('"' :: body.text)
  | escape (body : StringBody) : CutOff after ('"' :: (body.text ++ ['\\']))
  | comment {x : Text} (h : '\n' ∉ x) : CutOff after (';' :: x)

/-- The inside of a form up to a position in front of `after`, beginning at `offset`: whole trees
with gaps between them, which are the children of the form, and what the position cuts off. Two
atoms never touch, and the last one does not go on behind the trees. -/
structure Tiling (inside after : Text) (offset : Nat) (children : List Nat) (trees : Forest)
    (tail : Text) : Prop where
  text : inside = trees.render ++ tail
  separated : trees.Separated
  whole : EndsNoAtom trees.render ∨ EndsAtom (tail ++ after)
  children : children = (trees.children offset).map Extent.start
  cutOff : CutOff after tail

namespace Tiling

variable {inside after : Text} {offset : Nat} {children : List Nat} {trees : Forest} {tail : Text}

theorem pairwise (h : Tiling inside after offset children trees tail) :
    children.Pairwise (· < ·) := by
  rw [h.children]
  exact (trees.inOrder_children offset).pairwise

theorem bounds (h : Tiling inside after offset children trees tail) :
    ∀ child ∈ children, offset ≤ child ∧ child < offset + inside.length := by
  intro child hchild
  rw [h.children] at hchild
  obtain ⟨e, he, rfl⟩ := List.mem_map.mp hchild
  have hb := (trees.inOrder_children offset).bounds e he
  rw [h.text, List.length_append]
  omega

/-- The head of the form is what is read at its first child, whatever the text goes on with. -/
theorem head_drop {before : Text} (h : Tiling (before.drop offset) after offset children trees tail)
    (hle : offset ≤ before.length) {first : Nat} (hfirst : children.head? = some first) (u : Text) :
    head ((before ++ u).drop offset) = leadingAtom ((before ++ u).drop first) := by
  rw [h.children, List.head?_map, Option.map_eq_some_iff] at hfirst
  obtain ⟨e, he, rfl⟩ := hfirst
  obtain ⟨hstart, hhead⟩ := Forest.head_render_append he (tail ++ u)
  have hinside : (before ++ u).drop offset = trees.render ++ (tail ++ u) := by
    rw [List.drop_append_of_le_length hle, h.text, List.append_assoc]
  rw [hinside, hhead, ← hinside, hstart, List.drop_drop]

end Tiling

/-- Where the reader stops, what it is in the middle of is complete or cut off. -/
theorem Reader.Tiled.settle {start : Nat} {t : Text} {r : Reader} (h : r.Tiled start t)
    (after : Text) :
    ∃ done tail, t = done ++ tail ∧ Laid start (r.settle after).frames done ∧ CutOff after tail ∧
      (EndsNoAtom done ∨ EndsAtom (tail ++ after)) := by
  obtain @⟨done, part, offset, mode, token, frames, rfl, rfl, laid, pending, ends⟩ := h
  cases pending with
  | nothing =>
    rw [settle_of_token_eq_none rfl]
    exact ⟨done, [], rfl, laid, .nothing, .inl (ends rfl)⟩
  | atom word =>
    cases hafter : after.head?.any isAtomChar with
    | true =>
      refine ⟨done, word.text, rfl, ?_, .atom word hafter, .inl (ends rfl)⟩
      rw [Reader.settle, if_neg (by simp [hafter])]
      exact laid
    | false =>
      refine ⟨done ++ word.text, [], (List.append_nil _).symm, ?_, .nothing, .inr hafter⟩
      rw [settle_of_endsAtom rfl hafter]
      exact laid.atom word (ends rfl)
  | string body =>
    rw [settle_of_inString rfl]
    exact ⟨done, _, rfl, laid, .string body, .inr rfl⟩
  | escape body =>
    rw [settle_of_inString rfl]
    exact ⟨done, _, rfl, laid, .escape body, .inr rfl⟩
  | comment hx =>
    rw [settle_of_token_eq_none rfl]
    exact ⟨done, _, rfl, laid, .comment hx, .inr rfl⟩

/-- The innermost form that is open where a reader stops. -/
theorem exists_tiling {start : Nat} {before after : Text} {f : Frame} {fs : List Frame}
    (hframes : (Reader.upTo start before after).frames = f :: fs) :
    before[f.start]? = some '(' ∧ ∃ trees tail,
      Tiling (before.drop (f.start + 1)) after (f.start + 1) f.children trees tail := by
  have hread := ((Reader.tiled_nil start).run (before.drop start)).settle after
  rw [List.nil_append] at hread
  obtain ⟨done, tail, htext, hlaid, hcut, hwhole⟩ := hread
  have hlaid : Laid start (f :: fs) done := hframes ▸ hlaid
  cases hlaid with
  | @inside _ outer _ inner separated =>
    have hparen : before.drop start = outer ++ '(' :: (inner.render ++ tail) := by
      rw [htext, List.append_assoc, List.cons_append]
    refine ⟨by rw [← List.getElem?_drop, hparen]; simp, inner, tail, ?_, separated, ?_, rfl, hcut⟩
    · calc before.drop (start + outer.length + 1)
          = (before.drop start).drop (outer.length + 1) := by rw [List.drop_drop, Nat.add_assoc]
        _ = (outer ++ ['('] ++ (inner.render ++ tail)).drop (outer ++ ['(']).length := by
          rw [hparen]
          simp
        _ = inner.render ++ tail := List.drop_left
    · refine hwhole.imp_left fun hends => ?_
      have hinner := hends.of_append
      rw [← List.singleton_append] at hinner
      exact hinner.of_append

/-- What a context says of the innermost form, by the frame of the reader. -/
theorem Context.exists_frame {t : Text} {r : Reader} {f : OpenForm}
    (hf : (Context.ofReader t r).form = some f) :
    ∃ g gs, r.frames = g :: gs ∧ f =
      { start := g.start
        depth := gs.length + 1
        head := FlowEdit.head (t.drop (g.start + 1))
        children := g.children
        alignTarget := FlowEdit.alignTarget t g.start g.children } := by
  unfold Context.ofReader at hf
  cases hframes : r.frames with
  | nil => simp [hframes] at hf
  | cons g gs =>
    simp only [hframes, Option.some.injEq] at hf
    exact ⟨g, gs, rfl, hf.symm⟩

/-- The innermost form at a position tiles the text between its `(` and the position: whole trees
with gaps between them, and a tail that the position cuts off. Its children are the trees, in order.
The head is what is read at the first of them, so the arguments are the trees behind it, and the
alignment target is one of the children. -/
theorem form_tiles_text {t : Text} {pos : Int} {f : OpenForm}
    (hf : (contextAt t pos).form = some f) :
    let p := t.clamp pos
    (f.start < p ∧ t[f.start]? = some '(') ∧
      (f.children.Pairwise (· < ·) ∧ ∀ child ∈ f.children, f.start < child ∧ child < p) ∧
      (∃ trees tail,
        Tiling ((t.take p).drop (f.start + 1)) (t.drop p) (f.start + 1) f.children trees tail ∧
          f.argumentCount = ((trees.children (f.start + 1)).drop 1).length) ∧
      (∀ first, f.children.head? = some first → f.head = leadingAtom (t.drop first)) ∧
      ∀ child, f.alignTarget = some child → child ∈ f.children := by
  intro p
  have hp : (t.take p).length = p := length_take_clamp t pos
  obtain ⟨g, gs, hframes, rfl⟩ := Context.exists_frame hf
  obtain ⟨hparen, trees, tail, htiling⟩ := exists_tiling hframes
  have hlt : g.start < p := hp ▸ (List.getElem?_eq_some_iff.mp hparen).1
  have hbounds : ∀ child ∈ g.children, g.start < child ∧ child < p := by
    intro child hchild
    have hb := htiling.bounds child hchild
    rw [List.length_drop, hp] at hb
    omega
  refine ⟨⟨hlt, ?_⟩, ⟨htiling.pairwise, hbounds⟩, ⟨trees, tail, htiling, ?_⟩, ?_, ?_⟩
  · rwa [List.getElem?_take_of_lt hlt] at hparen
  · simp [OpenForm.argumentCount, htiling.children]
  · intro first hfirst
    have hhead := htiling.head_drop (hp.symm ▸ hlt) hfirst (t.drop p)
    rw [List.take_append_drop] at hhead ⊢
    exact hhead
  · exact fun child => mem_of_alignTarget_eq_some

theorem form_tiles_text_cut_atom :
    let t : Text := "(if \"a(\" ; c)\n (g x) foo".toList
    let f : OpenForm := ⟨0, 1, some "if".toList, [1, 4, 15], some 15⟩
    (contextAt t 22).form = some f ∧ f.argumentCount = 2 ∧
      ∃ trees tail, Tiling ((t.take 22).drop 1) (t.drop 22) 1 f.children trees tail := by
  intro t f
  have hform : (contextAt t 22).form = some f := by decide
  obtain ⟨-, -, ⟨trees, tail, htiling, -⟩, -⟩ := form_tiles_text hform
  exact ⟨hform, by decide, trees, tail, htiling⟩

end FlowEdit
