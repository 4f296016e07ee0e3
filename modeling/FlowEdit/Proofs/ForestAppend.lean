import FlowEdit.Proofs.ReadBack

/-!
Two forests in a row. The gap behind the first one and the gap in front of the second become one
(`Forest.append`), so the text, the trees and their places are those of the first and then those of
the second. The atoms stay apart if no atom goes on from one text to the other
(`Forest.separated_append`). With this a forest can grow at its end, tree by tree.
-/

namespace FlowEdit

open Text

/-- No atom goes on across the end of `before`. -/
def EndsNoAtom (before : Text) : Prop := before.getLast?.any isAtomChar = false

theorem endsNoAtom_nil : EndsNoAtom [] := rfl

theorem endsNoAtom_concat_iff {t : Text} {c : Char} :
    EndsNoAtom (t ++ [c]) ↔ isAtomChar c = false := by
  simp [EndsNoAtom]

theorem EndsNoAtom.of_append {t u : Text} (h : EndsNoAtom (t ++ u)) : EndsNoAtom u :=
  any_getLast?_of_append h

theorem not_endsNoAtom {w : Text} (hne : w ≠ []) (h : w.all isAtomChar = true) :
    ¬ EndsNoAtom w := by
  obtain ⟨v, c, rfl⟩ := (List.eq_nil_or_concat w).resolve_left hne
  rw [List.concat_eq_append] at h ⊢
  rw [endsNoAtom_concat_iff]
  simp_all

/-! ## Gaps -/

theorem isGap_append {inComment : Bool} {g : Text} (h : isGap inComment g = true) (t : Text) :
    isGap inComment (g ++ t) = isGap false t := by
  induction g generalizing inComment with
  | nil =>
    obtain rfl : inComment = false := by simpa [isGap] using h
    rfl
  | cons c g ih =>
    rw [isGap] at h
    rw [List.cons_append, isGap]
    cases inComment with
    | true =>
      simp only [if_true] at h ⊢
      exact ih h
    | false =>
      simp only [Bool.false_eq_true, if_false] at h ⊢
      by_cases hs : c = ';'
      · simp only [hs, if_true] at h ⊢
        exact ih h
      · simp only [hs, if_false, Bool.and_eq_true] at h ⊢
        rw [h.1, Bool.true_and, ih h.2]

def Gap.append (g h : Gap) : Gap where
  text := g.text ++ h.text
  isGap_text := by rw [isGap_append g.isGap_text, h.isGap_text]

theorem Gap.isEmpty_append (g h : Gap) :
    (g.append h).text.isEmpty = (g.text.isEmpty && h.text.isEmpty) := by
  show (g.text ++ h.text).isEmpty = _
  cases g.text <;> rfl

/-- No gap at all. -/
def Gap.empty : Gap := { text := [] }

/-! ## Forests -/

namespace Forest

/-- The forest with a gap in front of its first one. -/
def pushGap (g : Gap) : Forest → Forest
  | nil gap => nil (g.append gap)
  | atom gap word rest => atom (g.append gap) word rest
  | string gap body rest => string (g.append gap) body rest
  | list gap inner rest => list (g.append gap) inner rest

/-- The trees of one forest and then those of another. -/
def append : Forest → Forest → Forest
  | nil gap, h => h.pushGap gap
  | atom gap word rest, h => atom gap word (rest.append h)
  | string gap body rest, h => string gap body (rest.append h)
  | list gap inner rest, h => list gap inner (rest.append h)

theorem render_pushGap (g : Gap) (f : Forest) : (f.pushGap g).render = g.text ++ f.render := by
  cases f <;> simp [pushGap, render, Gap.append]

theorem render_append (f h : Forest) : (f.append h).render = f.render ++ h.render := by
  induction f with
  | nil gap => exact render_pushGap gap h
  | atom gap word rest ih => simp [append, render, ih]
  | string gap body rest ih => simp [append, render, ih]
  | list gap inner rest _ ih => simp [append, render, ih]

theorem children_pushGap (g : Gap) (f : Forest) (offset : Nat) :
    (f.pushGap g).children offset = f.children (offset + g.text.length) := by
  cases f <;> simp [pushGap, children, Gap.append, Nat.add_assoc]

theorem children_append (f h : Forest) (offset : Nat) :
    (f.append h).children offset =
      f.children offset ++ h.children (offset + f.render.length) := by
  induction f generalizing offset with
  | nil gap => exact children_pushGap gap h offset
  | atom gap word rest ih =>
    rw [append, children, children, ih, add_length_render_atom, List.cons_append]
  | string gap body rest ih =>
    rw [append, children, children, ih, add_length_render_string, List.cons_append]
  | list gap inner rest _ ih =>
    rw [append, children, children, ih, add_length_render_list, List.cons_append]

theorem separated_pushGap {g : Gap} {f : Forest} (hf : f.Separated) : (f.pushGap g).Separated := by
  cases f <;> exact hf

theorem beginsWithAtom_append (f h : Forest) :
    (f.append h).beginsWithAtom =
      (f.beginsWithAtom || f.render.isEmpty && h.beginsWithAtom) := by
  cases f with
  | nil gap => cases h <;> simp [append, pushGap, beginsWithAtom, render, Gap.isEmpty_append]
  | atom gap word rest =>
    simp [append, beginsWithAtom, render, word.ne_nil]
  | string gap body rest => simp [append, beginsWithAtom, render]
  | list gap inner rest => simp [append, beginsWithAtom, render]

theorem separated_append {f h : Forest} (hf : f.Separated) (hh : h.Separated)
    (hjoin : h.beginsWithAtom = true → EndsNoAtom f.render) : (f.append h).Separated := by
  induction f with
  | nil gap => exact separated_pushGap hh
  | atom gap word rest ih =>
    refine ⟨?_, ih hf.2 fun hatom => (hjoin hatom).of_append.of_append⟩
    rw [beginsWithAtom_append, hf.1, Bool.false_or, Bool.and_eq_false_iff]
    by_contra! hboth
    obtain ⟨hempty, hatom⟩ : rest.render = [] ∧ h.beginsWithAtom = true := by simpa using hboth
    -- the last atom of the one and the first of the other would be one atom
    have hend := (hjoin hatom).of_append
    rw [hempty, List.append_nil] at hend
    exact not_endsNoAtom word.ne_nil word.isAtomChar_text hend
  | string gap body rest ih => exact ih hf fun hatom => (hjoin hatom).of_append.of_append
  | list gap inner rest _ ih =>
    exact ⟨hf.1, ih hf.2 fun hatom => (hjoin hatom).of_append.of_append⟩

/-! ## Places of trees -/

/-- The places begin one behind the other, between two offsets. -/
structure InOrder (low high : Nat) (places : List Extent) : Prop where
  pairwise : (places.map Extent.start).Pairwise (· < ·)
  bounds : ∀ e ∈ places, low ≤ e.start ∧ e.start < high

theorem InOrder.cons {low high : Nat} {e : Extent} {places : List Extent}
    (h : InOrder e.stop high places) (hlow : low ≤ e.start) (hlt : e.start < e.stop)
    (hhigh : e.stop ≤ high) : InOrder low high (e :: places) := by
  constructor
  · rw [List.map_cons, List.pairwise_cons]
    refine ⟨fun k hk => ?_, h.pairwise⟩
    obtain ⟨e', he', rfl⟩ := List.mem_map.mp hk
    have := h.bounds e' he'
    omega
  · intro e' he'
    rcases List.mem_cons.mp he' with rfl | he'
    · omega
    · have := h.bounds e' he'
      omega

theorem inOrder_children (f : Forest) (offset : Nat) :
    InOrder offset (offset + f.render.length) (f.children offset) := by
  induction f generalizing offset with
  | nil gap => exact ⟨List.Pairwise.nil, by simp [children]⟩
  | atom gap word rest ih =>
    have hpos := List.length_pos_iff.mpr word.ne_nil
    rw [add_length_render_atom]
    refine InOrder.cons (ih _) ?_ ?_ ?_ <;> dsimp only <;> omega
  | string gap body rest ih =>
    rw [add_length_render_string]
    refine InOrder.cons (ih _) ?_ ?_ ?_ <;> dsimp only <;> omega
  | list gap inner rest _ ih =>
    rw [add_length_render_list]
    refine InOrder.cons (ih _) ?_ ?_ ?_ <;> dsimp only <;> omega

theorem skipGap_cons {c : Char} (hblank : isBlank c = false) (hsemi : c ≠ ';') (t : Text) :
    skipGap false (c :: t) = c :: t := by
  simp [skipGap, hblank, hsemi]

/-- The first child begins behind the first gap, with a character that ends the gap. -/
theorem exists_render_eq_append {f : Forest} {offset : Nat} {first : Extent}
    (h : (f.children offset).head? = some first) :
    first.start = offset + f.firstGap.text.length ∧
      ∃ c t, f.render = f.firstGap.text ++ c :: t ∧ isBlank c = false ∧ c ≠ ';' := by
  cases f with
  | nil gap => simp [children] at h
  | atom gap word rest =>
    obtain rfl := Option.some.inj h
    obtain ⟨c, w, hw⟩ := List.exists_cons_of_ne_nil word.ne_nil
    have hc : isAtomChar c = true := by
      have hall := word.isAtomChar_text
      rw [hw, List.all_cons, Bool.and_eq_true] at hall
      exact hall.1
    have hblank : isBlank c = false := by simp_all [isAtomChar]
    have hsemi : c ≠ ';' := by rintro rfl; exact absurd hc (by decide)
    exact ⟨rfl, c, w ++ rest.render, by rw [render, hw]; rfl, hblank, hsemi⟩
  | string gap body rest =>
    obtain rfl := Option.some.inj h
    exact ⟨rfl, '"', body.text ++ ['"'] ++ rest.render, rfl, rfl, by decide⟩
  | list gap inner rest =>
    obtain rfl := Option.some.inj h
    exact ⟨rfl, '(', inner.render ++ [')'] ++ rest.render, rfl, rfl, by decide⟩

/-- The head of a form is what is read at its first child: in front of that there is only a gap. -/
theorem head_render_append {f : Forest} {offset : Nat} {first : Extent}
    (h : (f.children offset).head? = some first) (tail : Text) :
    first.start = offset + f.firstGap.text.length ∧
      head (f.render ++ tail) = leadingAtom ((f.render ++ tail).drop f.firstGap.text.length) := by
  obtain ⟨hstart, c, t, hrender, hblank, hsemi⟩ := exists_render_eq_append h
  refine ⟨hstart, ?_⟩
  rw [head, hrender, List.append_assoc, skipGap_append f.firstGap.isGap_text, List.drop_left,
    List.cons_append, skipGap_cons hblank hsemi]

end Forest

end FlowEdit
