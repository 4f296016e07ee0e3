import FlowEdit.Proofs.ColumnZero
import FlowEdit.Proofs.Tiling

/-!
What is above a line decides its column. Two texts that agree up to the beginning of a line have the
same context there, apart from the head of the innermost form. The head is read on past the
beginning of the line only if no child of the form is finished
(`LineBegins.head_between`), and then every rule that sets an argument apart asks for the same column
(`OpenForm.value_column_childless`). Main statement: `indentAt_of_take_eq`.
-/

namespace FlowEdit

open Text

/-! ## Heads -/

theorem takeWhile_append_cons {p : Char → Bool} {c : Char} (hc : p c = false) (x y : Text) :
    (x ++ c :: y).takeWhile p = x.takeWhile p := by
  induction x with
  | nil => simp [hc]
  | cons d x ih =>
    rw [List.cons_append, List.takeWhile_cons, List.takeWhile_cons, ih]

/-- An atom ends with its line. -/
theorem LineBegins.leadingAtom_drop {before : Text} (h : LineBegins before) {k : Nat}
    (hk : k < before.length) (after : Text) :
    leadingAtom ((before ++ after).drop k) = leadingAtom (before.drop k) := by
  rcases h with rfl | ⟨t, rfl⟩
  · exact absurd hk (Nat.not_lt_zero k)
  · have hle : k ≤ t.length := by
      rw [List.length_append, List.length_singleton] at hk
      omega
    have hn : isAtomChar '\n' = false := by decide
    rw [List.append_assoc, List.drop_append_of_le_length hle, List.drop_append_of_le_length hle]
    simp only [leadingAtom, List.singleton_append, takeWhile_append_cons hn]

/-! ## Contexts -/

/-- An open form without its head. -/
def OpenForm.headless (f : OpenForm) : OpenForm := { f with head := none }

theorem OpenForm.eq_of_headless {f f' : OpenForm} (h : f.headless = f'.headless)
    (hhead : f.head = f'.head) : f = f' := by
  cases f
  cases f'
  simp_all [OpenForm.headless]

section

variable {before : Text} (h : LineBegins before)

include h

/-- All but the head of the innermost form is found above the line. -/
theorem LineBegins.headless_between (after after' : Text) :
    (Context.between before after).form.map OpenForm.headless =
      (Context.between before after').form.map OpenForm.headless := by
  obtain ⟨hsound, hoffset⟩ := Reader.sound_upTo h (anchor_le_length before) []
  have hbelow := hsound.frames
  rw [hoffset] at hbelow
  rw [h.between_eq, h.between_eq]
  unfold Context.ofReader
  cases hframes : (Reader.upTo (anchor before) before []).frames with
  | nil => rfl
  | cons g gs =>
    rw [hframes] at hbelow
    obtain ⟨hstart, hchildren⟩ := hbelow g (by simp)
    have hle : ∀ child ∈ g.children, child ≤ before.length :=
      fun child hc => Nat.le_of_lt (hchildren child hc)
    simp only [Option.map_some, OpenForm.headless, alignTarget_append (Nat.le_of_lt hstart) hle]

/-- With a finished child the head is above the line too. -/
theorem LineBegins.head_between {after after' : Text} {f f' : OpenForm}
    (hf : (Context.between before after).form = some f)
    (hf' : (Context.between before after').form = some f') (hne : f.children ≠ []) :
    f.head = f'.head := by
  rw [h.between_eq] at hf hf'
  obtain ⟨g, gs, hframes, rfl⟩ := Context.exists_frame hf
  obtain ⟨g', gs', hframes', rfl⟩ := Context.exists_frame hf'
  obtain ⟨rfl, rfl⟩ := List.cons.inj (hframes.symm.trans hframes')
  obtain ⟨hparen, trees, tail, htiling⟩ := exists_tiling hframes
  obtain ⟨first, hfirst⟩ := Option.isSome_iff_exists.mp (List.isSome_head?.mpr hne)
  have hlt : g.start < before.length := (List.getElem?_eq_some_iff.mp hparen).1
  have hbelow : first < before.length := by
    have hb := htiling.bounds first (List.mem_of_head? hfirst)
    rw [List.length_drop] at hb
    omega
  show head _ = head _
  rw [htiling.head_drop hlt hfirst, htiling.head_drop hlt hfirst, h.leadingAtom_drop hbelow,
    h.leadingAtom_drop hbelow]

end

/-! ## Columns -/

/-- A form without a finished child has nothing to align with, and its special arguments are still
to come. -/
theorem OpenForm.value_column_childless {T : RuleTable}
    (hT : T.AllSpecial fun count _ => 1 ≤ count) {f : OpenForm} (hc : f.children = [])
    (ha : f.alignTarget = none) (t : Text) :
    (f.column T t).value = t.columnAt f.start + 1 := by
  unfold OpenForm.column
  cases f.head with
  | none => rfl
  | some word =>
    simp only [Logged.value_bind]
    cases hl : (T.resolve (some word)).value with
    | special count bodyOffset =>
      have hcount : ¬ count ≤ (f.argumentCount : Int) := by
        have hone := hT.resolve hl
        simp only [OpenForm.argumentCount, hc, List.length_nil]
        omega
      simp [hcount]
    | align => simp [ha]

theorem OpenForm.value_column_congr {T : RuleTable}
    (hT : T.AllSpecial fun count _ => 1 ≤ count) {f f' : OpenForm}
    (hsame : f.headless = f'.headless) (hhead : f.children ≠ [] → f.head = f'.head)
    (halign : f.children = [] → f.alignTarget = none) (t : Text) :
    (f.column T t).value = (f'.column T t).value := by
  by_cases hc : f.children = []
  · have hc' : f'.children = [] := (congrArg OpenForm.children hsame).symm.trans hc
    have ha' : f'.alignTarget = none :=
      (congrArg OpenForm.alignTarget hsame).symm.trans (halign hc)
    have hstart : f.headless.start = f'.headless.start := by rw [hsame]
    rw [value_column_childless hT hc (halign hc), value_column_childless hT hc' ha']
    exact congrArg (fun k => (t.columnAt k : Int) + 1) hstart
  · rw [OpenForm.eq_of_headless hsame (hhead hc)]

theorem Context.alignTarget_of_childless {t : Text} {r : Reader} {f : OpenForm}
    (hf : (Context.ofReader t r).form = some f) (hc : f.children = []) : f.alignTarget = none := by
  obtain ⟨g, gs, -, rfl⟩ := Context.exists_frame hf
  have hnil : g.children = [] := hc
  simp [alignTarget, hnil]

theorem LineBegins.value_column_between {before : Text} (h : LineBegins before) {T : RuleTable}
    (hT : T.AllSpecial fun count _ => 1 ≤ count) (after after' : Text) :
    ((Context.between before after).column T before).value =
      ((Context.between before after').column T before).value := by
  have hsame := h.headless_between after after'
  unfold Context.column
  cases hf : (Context.between before after).form with
  | none =>
    rw [hf, Option.map_none, eq_comm, Option.map_eq_none_iff] at hsame
    rw [hsame]
  | some f =>
    rw [hf, Option.map_some, eq_comm, Option.map_eq_some_iff] at hsame
    obtain ⟨f', hf', hheadless⟩ := hsame
    rw [hf']
    exact OpenForm.value_column_congr hT hheadless.symm (h.head_between hf hf')
      (Context.alignTarget_of_childless hf) before

/-! ## Lines of a text -/

theorem lineBegins_take {t : Text} {s : Nat} (hs : s = 0 ∨ t[s - 1]? = some '\n') :
    s ≤ t.length ∧ LineBegins (t.take s) := by
  cases s with
  | zero => exact ⟨Nat.zero_le _, .inl rfl⟩
  | succ k =>
    have hn : t[k]? = some '\n' := by simpa using hs
    obtain ⟨hlt, hget⟩ := List.getElem?_eq_some_iff.mp hn
    refine ⟨hlt, .inr ⟨t.take k, ?_⟩⟩
    rw [List.take_succ_eq_append_getElem hlt, hget]

theorem contextAt_eq_between {t : Text} {s : Nat} (hs : s ≤ t.length) :
    contextAt t s = Context.between (t.take s) (t.drop s) := by
  unfold contextAt
  rw [clamp_natCast hs]

/-- The column of a line is that of its beginning. -/
theorem LineBegins.indentAt_eq {t : Text} {s : Nat} (hs : s ≤ t.length)
    (h : LineBegins (t.take s)) (T : RuleTable) :
    indentAt T t s = (Context.between (t.take s) (t.drop s)).column T (t.take s) := by
  have hline : t.lineStartAt s = s := by
    rw [lineStartAt, lineStart, (column_eq_zero_iff _).mpr h, List.length_take,
      Nat.min_eq_left hs, Nat.sub_zero]
  have hcolumn := h.column_between T (t.drop s) (t.drop s)
  rw [List.take_append_drop] at hcolumn
  rw [indentAt, clamp_natCast hs, hline, contextAt_eq_between hs, hcolumn]

/-- Two texts that agree up to the beginning of a line. The context of the line is the same in both,
apart from the head of the form it is in, and so is the column of the line, if every special rule
sets at least one argument apart. The heads are the same unless the form has no finished child. -/
theorem indentAt_of_take_eq {t u : Text} {s : Nat} (hs : s = 0 ∨ t[s - 1]? = some '\n')
    (h : t.take s = u.take s) :
    let context := contextAt t s
    let context' := contextAt u s
    context.inString = context'.inString ∧
      context.form.map OpenForm.headless = context'.form.map OpenForm.headless ∧
      (∀ f f', context.form = some f → context'.form = some f' → f.children ≠ [] →
        f.head = f'.head) ∧
      ∀ T : RuleTable, T.AllSpecial (fun count _ => 1 ≤ count) →
        (indentAt T t s).value = (indentAt T u s).value := by
  obtain ⟨ht, hbegins⟩ := lineBegins_take hs
  have hu : s ≤ u.length := by
    have hlen := congrArg List.length h
    rw [List.length_take, List.length_take, Nat.min_eq_left ht] at hlen
    omega
  have hbegins' : LineBegins (u.take s) := h ▸ hbegins
  intro context context'
  have hcontext : context = Context.between (u.take s) (t.drop s) := by
    rw [← h]
    exact contextAt_eq_between ht
  have hcontext' : context' = Context.between (u.take s) (u.drop s) := contextAt_eq_between hu
  rw [hcontext, hcontext']
  refine ⟨?_, hbegins'.headless_between _ _, fun f f' => hbegins'.head_between, fun T hT => ?_⟩
  · rw [hbegins'.inString_between, hbegins'.inString_between]
  · rw [hbegins.indentAt_eq ht, hbegins'.indentAt_eq hu, h]
    exact hbegins'.value_column_between hT _ _

theorem indentAt_of_take_eq_other_heads :
    let t : Text := "(a (\nif x)".toList
    let u : Text := "(a (\ndefine f".toList
    (contextAt t 5).form.map OpenForm.head = some (some "if".toList) ∧
      (contextAt u 5).form.map OpenForm.head = some (some "define".toList) ∧
      (indentAt .standard t 5).value = (indentAt .standard u 5).value :=
  ⟨by decide, by decide,
    (indentAt_of_take_eq (by decide) (by decide)).2.2.2 .standard (by decide)⟩

end FlowEdit
