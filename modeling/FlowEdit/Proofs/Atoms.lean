import FlowEdit.Proofs.Anchored

/-!
Reading an atom. Its characters keep the reader in code and in one token, which is the one it was in
or starts with them (`Reader.run_isAtomChar`). The other way round, a token that is open in code is
made of atom characters (`Reader.all_isAtomChar_of_token`).
-/

namespace FlowEdit

open Text

/-- The characters of a class at the beginning are those in front of the first other one. -/
theorem takeWhile_append_of_head {p : Char → Bool} {w t : Text} (hw : w.all p = true)
    (ht : t.head?.any p = false) : (w ++ t).takeWhile p = w := by
  have hnone : t.takeWhile p = [] := by
    cases t with
    | nil => rfl
    | cons c t =>
      have hc : p c = false := ht
      simp [hc]
  rw [List.takeWhile_append_of_pos (List.all_eq_true.mp hw), hnone, List.append_nil]

theorem any_getLast?_of_append {p : Char → Bool} {t u : Text}
    (h : (t ++ u).getLast?.any p = false) : u.getLast?.any p = false := by
  rw [List.getLast?_append] at h
  cases hu : u.getLast? with
  | none => rfl
  | some c => simpa [hu] using h

namespace Mode

theorem step_eq_code_iff {m : Mode} {c : Char} :
    m.step c = .code ↔
      m = .code ∧ c ≠ '"' ∧ c ≠ ';' ∨ m = .comment ∧ c = '\n' ∨ m = .string ∧ c = '"' := by
  fun_cases step m c <;> simp_all

theorem step_code_of_isAtomChar {c : Char} (h : isAtomChar c = true) : code.step c = .code := by
  have hq : c ≠ '"' := by rintro rfl; exact absurd h (by decide)
  have hs : c ≠ ';' := by rintro rfl; exact absurd h (by decide)
  exact step_eq_code_iff.mpr (.inl ⟨rfl, hq, hs⟩)

theorem run_code_of_isAtomChar {w : Text} (h : w.all isAtomChar = true) : code.run w = .code := by
  induction w with
  | nil => rfl
  | cons c w ih =>
    simp only [List.all_cons, Bool.and_eq_true] at h
    rw [run_cons, step_code_of_isAtomChar h.1, ih h.2]

end Mode

namespace Reader

theorem run_cons (r : Reader) (c : Char) (t : Text) : r.run (c :: t) = (r.step c).run t := rfl

theorem step_isAtomChar {r : Reader} (hr : r.mode = .code) {c : Char} (hc : isAtomChar c = true) :
    r.step c = { r with offset := r.offset + 1, token := some (r.token.getD r.offset) } := by
  simp [step, hr, readCode, hc, Mode.step_code_of_isAtomChar hc]

/-- An atom, or the next part of one, is read. -/
theorem run_isAtomChar {r : Reader} (hr : r.mode = .code) {x : Text} (hne : x ≠ [])
    (h : x.all isAtomChar = true) :
    r.run x = { r with offset := r.offset + x.length, token := some (r.token.getD r.offset) } := by
  induction x generalizing r with
  | nil => exact absurd rfl hne
  | cons c x ih =>
    simp only [List.all_cons, Bool.and_eq_true] at h
    have hstep := step_isAtomChar hr h.1
    rw [run_cons, List.length_cons]
    by_cases hx : x = []
    · subst hx
      exact hstep
    · have hmode : (r.step c).mode = .code := by
        rw [hstep]
        exact hr
      rw [ih hmode hx h.2, hstep]
      simp [Nat.add_assoc, Nat.add_comm 1]

/-- What is no atom character leaves no token of code behind. -/
theorem token_step_of_not_isAtomChar {r : Reader} (hr : r.Sound) {c : Char}
    (hc : r.mode = .code → isAtomChar c = false) (hcode : (r.step c).mode = .code) :
    (r.step c).token = none := by
  rcases Mode.step_eq_code_iff.mp hcode with ⟨hmode, hquote, -⟩ | ⟨hmode, rfl⟩ | ⟨hmode, rfl⟩
  · simp only [step, hmode, readCode, hc hmode, hquote, Bool.false_eq_true, if_false]
    split
    · simp
    · split <;> simp
  · exact hr.token_step_newline hcode
  · simp [step, hmode, readString]

/-- A token of code is made of atom characters. -/
theorem all_isAtomChar_of_token {t : Text} (hcode : (ofText t).mode = .code) {k : Nat}
    (hk : (ofText t).token = some k) : (t.drop k).all isAtomChar = true := by
  induction t using List.reverseRecOn with
  | nil => simp
  | append_singleton t c ih =>
    have hstep : ofText (t ++ [c]) = (ofText t).step c := ofText_append t [c]
    rw [hstep] at hcode hk
    by_cases hc : (ofText t).mode = .code ∧ isAtomChar c = true
    · obtain ⟨hmode, hatom⟩ := hc
      rw [step_isAtomChar hmode hatom] at hk
      -- the token goes on, or it starts here
      cases htoken : (ofText t).token with
      | none =>
        obtain rfl : t.length = k := by simpa [htoken, offset_ofText] using hk
        simpa using hatom
      | some j =>
        obtain rfl : j = k := by simpa [htoken] using hk
        have hlt := (sound_ofText t).token_lt j htoken
        rw [offset_ofText] at hlt
        rw [List.drop_append_of_le_length (Nat.le_of_lt hlt), List.all_append, ih hmode htoken]
        simpa using hatom
    · rw [token_step_of_not_isAtomChar (sound_ofText t) (by simpa using hc) hcode] at hk
      cases hk

end Reader

end FlowEdit
