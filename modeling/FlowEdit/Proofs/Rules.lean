import FlowEdit.Layout.Column

/-!
What the special layouts of a rule table have in common. A chain of aliases ends at a policy of the
table, so whatever holds of all its special layouts holds of every special layout that a head word
resolves to (`AllSpecial.resolve`). With it columns are bounded.
-/

namespace FlowEdit

open Text

/-! ## Special layouts -/

/-- What holds of the count and the body offset of a policy, if it is a special layout. -/
def Policy.AllSpecial (p : Int → Int → Prop) : Policy → Prop
  | .layout (.special count bodyOffset) => p count bodyOffset
  | _ => True

instance (p : Int → Int → Prop) [∀ c o, Decidable (p c o)] :
    (q : Policy) → Decidable (q.AllSpecial p)
  | .layout (.special count bodyOffset) => inferInstanceAs (Decidable (p count bodyOffset))
  | .layout .align => isTrue trivial
  | .aliasOf _ => isTrue trivial
  | .unset => isTrue trivial

/-- Every special layout of the table is so. -/
def RuleTable.AllSpecial (T : RuleTable) (p : Int → Int → Prop) : Prop :=
  ∀ entry ∈ T.entries, entry.2.AllSpecial p

instance (T : RuleTable) (p : Int → Int → Prop) [∀ c o, Decidable (p c o)] :
    Decidable (T.AllSpecial p) :=
  inferInstanceAs (Decidable (∀ entry ∈ T.entries, entry.2.AllSpecial p))

theorem Keyed.mem_of_find_eq_some {κ ν : Type} [DecidableEq κ] {k : κ} {v : ν}
    {es : List (κ × ν)} (h : Keyed.find k es = some v) : (k, v) ∈ es := by
  induction es with
  | nil => simp [Keyed.find] at h
  | cons e es ih =>
    rw [Keyed.find] at h
    split at h
    next hk =>
      obtain rfl : e.2 = v := Option.some.inj h
      rw [← hk]
      exact List.mem_cons_self ..
    next => exact List.mem_cons_of_mem e (ih h)

namespace RuleTable

variable {T : RuleTable} {p : Int → Int → Prop}

theorem AllSpecial.get? (h : T.AllSpecial p) (keyword : Text) :
    ((T.get? keyword).getD .unset).AllSpecial p := by
  cases hk : T.get? keyword with
  | none => trivial
  | some policy => exact h (keyword, policy) (Keyed.mem_of_find_eq_some hk)

/-- A chain of aliases ends at a policy of the table. -/
theorem AllSpecial.follow (h : T.AllSpecial p) {hops : Nat} {policy : Policy}
    (hp : policy.AllSpecial p) {count bodyOffset : Int}
    (hend : T.follow hops policy = some (.special count bodyOffset)) : p count bodyOffset := by
  fun_induction RuleTable.follow T hops policy with
  | case1 _ l =>
    obtain rfl : l = .special count bodyOffset := Option.some.inj hend
    exact hp
  | case2 => cases hend
  | case3 => cases hend
  | case4 hops keyword ih => exact ih (h.get? keyword) hend

theorem AllSpecial.resolve (h : T.AllSpecial p) {keyword : Option Text} {count bodyOffset : Int}
    (hl : (T.resolve keyword).value = .special count bodyOffset) : p count bodyOffset := by
  cases keyword with
  | none => simp [RuleTable.resolve] at hl
  | some k =>
    simp only [RuleTable.resolve] at hl
    cases hf : T.follow T.size ((T.get? k).getD .unset) with
    | none => simp [hf] at hl
    | some l =>
      simp only [hf, Logged.value_pure] at hl
      subst hl
      exact h.follow (h.get? k) hf

end RuleTable

/-! ## Columns -/

/-- Where a line in a form can go: one column to the right of the form, as far from it as a special
layout says, or under the child to align with. -/
theorem OpenForm.value_column_cases {T : RuleTable} {p : Int → Int → Prop} (hT : T.AllSpecial p)
    (t : Text) (f : OpenForm) :
    (f.column T t).value = t.columnAt f.start + 1 ∨
      (∃ count bodyOffset, p count bodyOffset ∧
        (f.column T t).value = t.columnAt f.start + bodyOffset) ∨
      ∃ child, f.alignTarget = some child ∧ (f.column T t).value = t.columnAt child := by
  unfold OpenForm.column
  cases f.head with
  | none => exact .inl rfl
  | some word =>
    simp only [Logged.value_bind]
    cases hl : (T.resolve (some word)).value with
    | special count bodyOffset =>
      by_cases hcount : count ≤ (f.argumentCount : Int)
      · exact .inr (.inl ⟨count, bodyOffset, hT.resolve hl, by simp [hcount]⟩)
      · exact .inl (by simp [hcount])
    | align =>
      cases htarget : f.alignTarget with
      | none => exact .inl rfl
      | some child => exact .inr (.inr ⟨child, rfl, rfl⟩)

/-- A line in a form goes to the right of column 0, if it is not aligned with column 0. -/
theorem OpenForm.column_pos {T : RuleTable} (hT : T.AllSpecial fun _ bodyOffset => 1 ≤ bodyOffset)
    {t : Text} {f : OpenForm} (h : ∀ child, f.alignTarget = some child → 0 < t.columnAt child) :
    0 < (f.column T t).value := by
  obtain hone | ⟨_, bodyOffset, hbody, hcol⟩ | ⟨child, htarget, hcol⟩ := value_column_cases hT t f
  · omega
  · omega
  · have hchild := h child htarget
    omega

/-- No line goes to the left of column 0, if no body goes to the left of its form. -/
theorem OpenForm.column_nonneg {T : RuleTable}
    (hT : T.AllSpecial fun _ bodyOffset => 0 ≤ bodyOffset) (t : Text) (f : OpenForm) :
    0 ≤ (f.column T t).value := by
  obtain hone | ⟨_, bodyOffset, hbody, hcol⟩ | ⟨child, -, hcol⟩ := value_column_cases hT t f
  all_goals omega

theorem Context.column_nonneg {T : RuleTable}
    (hT : T.AllSpecial fun _ bodyOffset => 0 ≤ bodyOffset) (t : Text) (c : Context) :
    0 ≤ (c.column T t).value := by
  unfold Context.column
  cases c.form with
  | none => exact Int.le_refl 0
  | some f => exact f.column_nonneg hT t

end FlowEdit
