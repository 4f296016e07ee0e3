import Mathlib.Data.List.TakeWhile
import FlowEdit.Layout.Reflow

/-!
Texts as lists of lines, and texts without the indentation of their lines. Deleting indentation
is defined character by character, so that it can be compared with the readers, which go character
by character too; `unindent_unlines` says that it deletes the indentation of each line. Whatever
a reader cannot tell from the unindented text, indentation cannot change.
-/

namespace FlowEdit

namespace Text

/-! ## Lines -/

/-- The pieces of a text are those of the library's `splitOn`. -/
theorem split_eq_splitOn (sep : Char) (t : Text) : split sep t = t.splitOn sep := by
  induction t with
  | nil => rfl
  | cons c t ih =>
    rw [split, ih, List.splitOn_cons_eq_if_modifyHead]
    by_cases hc : c = sep
    · simp [hc]
    · cases hs : t.splitOn sep with
      | nil => exact absurd hs (List.splitOn_ne_nil sep t)
      | cons piece pieces => simp [hc]

theorem lines_append_newline {l : Text} (h : '\n' ∉ l) (t : Text) :
    lines (l ++ '\n' :: t) = l :: lines t := by
  unfold lines
  rw [split_eq_splitOn, split_eq_splitOn, List.splitOn_append_cons_self_of_not_mem h]

theorem lines_of_not_mem {l : Text} (h : '\n' ∉ l) : lines l = [l] := by
  unfold lines
  rw [split_eq_splitOn, List.splitOn_eq_singleton h]

theorem lines_ne_nil (t : Text) : lines t ≠ [] := split_ne_nil '\n' t

theorem not_mem_of_mem_lines {t l : Text} (h : l ∈ lines t) : '\n' ∉ l := by
  unfold lines at h
  induction t generalizing l with
  | nil =>
    simp only [split, List.mem_singleton] at h
    simp [h]
  | cons c t ih =>
    rw [split] at h
    split at h
    next hc =>
      rcases List.mem_cons.mp h with rfl | ht
      · simp
      · exact ih ht
    next hc =>
      split at h
      next hs => exact absurd hs (split_ne_nil '\n' t)
      next piece pieces hs =>
        rcases List.mem_cons.mp h with rfl | ht
        · have hp : '\n' ∉ piece := ih (by simp [hs])
          simp [hp, Ne.symm hc]
        · exact ih (by simp [hs, ht])

/-- No line has a newline in it. -/
def AllLines (ls : List Text) : Prop := ∀ l ∈ ls, '\n' ∉ l

theorem allLines_lines (t : Text) : AllLines (lines t) := fun _ => not_mem_of_mem_lines

theorem AllLines.head {l : Text} {ls : List Text} (h : AllLines (l :: ls)) : '\n' ∉ l :=
  h l (by simp)

theorem AllLines.tail {l : Text} {ls : List Text} (h : AllLines (l :: ls)) : AllLines ls :=
  fun m hm => h m (by simp [hm])

theorem AllLines.append {ls ms : List Text} (hl : AllLines ls) (hm : AllLines ms) :
    AllLines (ls ++ ms) :=
  fun l h => (List.mem_append.mp h).elim (hl l) (hm l)

/-- The line behind the last newline, if nothing is on it. -/
theorem allLines_nil_line : AllLines [[]] := by
  simp [AllLines]

theorem lines_unlines {ls : List Text} (hne : ls ≠ []) (h : AllLines ls) :
    lines (unlines ls) = ls := by
  induction ls with
  | nil => exact absurd rfl hne
  | cons l ls ih =>
    cases ls with
    | nil => exact lines_of_not_mem h.head
    | cons m ms =>
      rw [unlines, lines_append_newline h.head, ih (by simp) h.tail]
      simp

@[simp]
theorem preceding_nil : preceding [] = [] := rfl

theorem preceding_append (ls ms : List Text) :
    preceding (ls ++ ms) = preceding ls ++ preceding ms := by
  simp [preceding]

theorem preceding_concat (ls : List Text) (l : Text) :
    preceding (ls ++ [l]) = preceding ls ++ l ++ ['\n'] := by
  simp [preceding]

theorem unlines_append (ls : List Text) {ms : List Text} (hne : ms ≠ []) :
    unlines (ls ++ ms) = preceding ls ++ unlines ms := by
  induction ls with
  | nil => rfl
  | cons l ls ih =>
    obtain ⟨m, ns, hm⟩ := List.exists_cons_of_ne_nil (List.append_ne_nil_of_right_ne_nil ls hne)
    have hcons : unlines (l :: (ls ++ ms)) = l ++ '\n' :: unlines (ls ++ ms) := by
      rw [hm, unlines]
      simp
    rw [List.cons_append, hcons, ih]
    simp [preceding]

theorem unlines_append_cons (ls : List Text) (l : Text) (ms : List Text) :
    unlines (ls ++ l :: ms) = preceding ls ++ (l ++ following ms) := by
  rw [unlines_append ls (by simp), unlines_cons]

/-- The line of a number, between the lines above and below it. -/
theorem lines_eq_append_cons {t l : Text} {n : Nat} (h : t.lines[n]? = some l) :
    t.lines = t.lines.take n ++ l :: t.lines.drop (n + 1) := by
  obtain ⟨hn, hl⟩ := List.getElem?_eq_some_iff.mp h
  rw [← hl, ← List.drop_eq_getElem_cons hn, List.take_append_drop]

/-- A text is a line of it with what precedes and what follows it. -/
theorem preceding_append_line {t l : Text} {n : Nat} (h : t.lines[n]? = some l) :
    preceding (t.lines.take n) ++ (l ++ following (t.lines.drop (n + 1))) = t := by
  rw [← unlines_append_cons, ← lines_eq_append_cons h, unlines_lines]

theorem preceding_eq_unlines_concat {ls : List Text} (hne : ls ≠ []) :
    preceding ls = unlines ls ++ ['\n'] := by
  obtain ⟨ms, l, rfl⟩ := (List.eq_nil_or_concat ls).resolve_left hne
  rw [List.concat_eq_append, preceding_concat, unlines_append ms (by simp)]
  rfl

theorem lines_preceding_append {ls : List Text} (h : AllLines ls) (t : Text) :
    lines (preceding ls ++ t) = ls ++ lines t := by
  induction ls with
  | nil => rfl
  | cons l ls ih =>
    have hsplit : preceding (l :: ls) ++ t = l ++ '\n' :: (preceding ls ++ t) := by
      simp [preceding]
    rw [hsplit, lines_append_newline h.head, ih h.tail]
    rfl

theorem lines_preceding {ls : List Text} (h : AllLines ls) : lines (preceding ls) = ls ++ [[]] := by
  have hlines := lines_preceding_append h []
  rw [List.append_nil] at hlines
  exact hlines

theorem preceding_lines (t : Text) : preceding t.lines = t ++ ['\n'] := by
  rw [preceding_eq_unlines_concat (lines_ne_nil t), unlines_lines]

/-- The text in front of a line ends where that line begins. -/
theorem preceding_eq_nil_or_concat (ls : List Text) :
    preceding ls = [] ∨ ∃ before, preceding ls = before ++ ['\n'] := by
  rcases List.eq_nil_or_concat ls with rfl | ⟨ms, l, rfl⟩
  · exact .inl rfl
  · exact .inr ⟨preceding ms ++ l, by simp [preceding]⟩

/-! ## Deleting indentation -/

/-- The line without its indentation. -/
def bare (line : Text) : Text := line.dropWhile isIndent

/-- A text without the indentation of its lines. The text begins in the indentation of a line if
`fresh`. -/
def unindentFrom (fresh : Bool) : Text → Text
  | [] => []
  | c :: t =>
    if fresh && isIndent c then unindentFrom true t else c :: unindentFrom (c == '\n') t

def unindent (t : Text) : Text := unindentFrom true t

/-- What follows `t` begins in the indentation of a line, if `t` begins so or not. -/
def freshAfter (fresh : Bool) (t : Text) : Bool :=
  t.foldl (fun f c => (f && isIndent c) || c == '\n') fresh

theorem unindentFrom_append (fresh : Bool) (t u : Text) :
    unindentFrom fresh (t ++ u) = unindentFrom fresh t ++ unindentFrom (freshAfter fresh t) u := by
  induction t generalizing fresh with
  | nil => rfl
  | cons c t ih =>
    by_cases hc : (fresh && isIndent c) = true
    · simp [unindentFrom, freshAfter, hc, ih true]
    · simp [unindentFrom, freshAfter, hc, ih (c == '\n')]

@[simp]
theorem freshAfter_concat_newline (fresh : Bool) (t : Text) :
    freshAfter fresh (t ++ ['\n']) = true := by
  simp [freshAfter]

theorem unindentFrom_false_of_not_mem {l : Text} (h : '\n' ∉ l) : unindentFrom false l = l := by
  induction l with
  | nil => rfl
  | cons c l ih =>
    simp only [List.mem_cons, not_or] at h
    have hc : (c == '\n') = false := by simpa using Ne.symm h.1
    simp [unindentFrom, hc, ih h.2]

theorem unindent_of_not_mem {l : Text} (h : '\n' ∉ l) : unindent l = bare l := by
  unfold unindent bare
  induction l with
  | nil => rfl
  | cons c l ih =>
    simp only [List.mem_cons, not_or] at h
    by_cases hc : isIndent c = true
    · simp [unindentFrom, hc, ih h.2]
    · have hn : (c == '\n') = false := by simpa using Ne.symm h.1
      simp [unindentFrom, hc, hn, unindentFrom_false_of_not_mem h.2]

theorem unindent_append_newline {l : Text} (h : '\n' ∉ l) (t : Text) :
    unindent (l ++ '\n' :: t) = bare l ++ '\n' :: unindent t := by
  have hsplit : l ++ '\n' :: t = (l ++ ['\n']) ++ t := by simp
  rw [hsplit]
  unfold unindent
  rw [unindentFrom_append, freshAfter_concat_newline, unindentFrom_append]
  have hl : unindentFrom true l = bare l := unindent_of_not_mem h
  have hn : ∀ f, unindentFrom f ['\n'] = ['\n'] := by
    intro f
    cases f <;> rfl
  simp [hl, hn]

/-- Deleting indentation deletes it from each line. -/
theorem unindent_unlines {ls : List Text} (h : AllLines ls) :
    unindent (unlines ls) = unlines (ls.map bare) := by
  induction ls with
  | nil => rfl
  | cons l ls ih =>
    cases ls with
    | nil => exact unindent_of_not_mem h.head
    | cons m ms =>
      rw [unlines, unindent_append_newline h.head, ih h.tail]
      · rfl
      · simp

theorem unindent_preceding {ls : List Text} (h : AllLines ls) :
    unindent (preceding ls) = preceding (ls.map bare) := by
  induction ls with
  | nil => rfl
  | cons l ls ih =>
    have hsplit : preceding (l :: ls) = l ++ '\n' :: preceding ls := by simp [preceding]
    rw [hsplit, unindent_append_newline h.head, ih h.tail]
    simp [preceding]

theorem unindent_eq_unlines_bare (t : Text) : unindent t = unlines (t.lines.map bare) := by
  have h := unindent_unlines (allLines_lines t)
  rwa [unlines_lines] at h

/-- Texts whose lines differ in indentation only are the same without it. -/
theorem unindent_unlines_congr {ls ms : List Text} (hl : AllLines ls) (hm : AllLines ms)
    (h : ls.map bare = ms.map bare) : unindent (unlines ls) = unindent (unlines ms) := by
  rw [unindent_unlines hl, unindent_unlines hm, h]

/-! ## One line -/

@[simp]
theorem isIndent_space : isIndent ' ' = true := rfl

theorem isIndent_of_mem_spaces {n : Nat} {c : Char} (h : c ∈ spaces n) : isIndent c = true := by
  rw [List.eq_of_mem_replicate h, isIndent_space]

theorem isBlank_of_isIndent {c : Char} (h : isIndent c = true) : isBlank c = true := by
  simp only [isIndent, Bool.or_eq_true, beq_iff_eq] at h
  rcases h with rfl | rfl <;> rfl

theorem bare_bare (l : Text) : bare (bare l) = bare l :=
  List.dropWhile_eq_self_iff.2 (List.dropWhile_get_zero_not isIndent l)

theorem takeWhile_append_bare (l : Text) : l.takeWhile isIndent ++ bare l = l :=
  List.takeWhile_append_dropWhile

theorem all_isBlank_bare (l : Text) : (bare l).all isBlank = l.all isBlank := by
  have hrun : (l.takeWhile isIndent).all isBlank = true := by
    rw [List.all_eq_true]
    intro c hc
    exact isBlank_of_isIndent (List.mem_takeWhile_imp hc)
  calc (bare l).all isBlank
      = ((l.takeWhile isIndent).all isBlank && (bare l).all isBlank) := by simp [hrun]
    _ = l.all isBlank := by rw [← List.all_append, takeWhile_append_bare]

end Text

open Text

theorem drop_indentWidth (line : Text) : line.drop (indentWidth line) = bare line := by
  have h : (line.takeWhile isIndent ++ bare line).drop (indentWidth line) = bare line :=
    List.drop_left
  rwa [takeWhile_append_bare] at h

theorem take_indentWidth (line rest : Text) :
    (line ++ rest).take (indentWidth line) = line.takeWhile isIndent := by
  have h : (line.takeWhile isIndent ++ (bare line ++ rest)).take (indentWidth line) =
      line.takeWhile isIndent := List.take_left
  rwa [← List.append_assoc, takeWhile_append_bare] at h

theorem bare_withIndent (column : Int) (line : Text) :
    bare (withIndent column line) = bare line := by
  unfold withIndent
  rw [bare, List.dropWhile_append_of_pos fun _ => isIndent_of_mem_spaces]
  exact bare_bare line

theorem takeWhile_withIndent (column : Int) (line : Text) :
    (withIndent column line).takeWhile isIndent = spaces column.toNat := by
  have hbare : (bare line).takeWhile isIndent = [] :=
    List.takeWhile_eq_nil_iff.mpr (List.dropWhile_get_zero_not isIndent line)
  show (spaces column.toNat ++ bare line).takeWhile isIndent = _
  rw [List.takeWhile_append_of_pos fun _ => isIndent_of_mem_spaces, hbare, List.append_nil]

theorem withIndent_withIndent (c d : Int) (line : Text) :
    withIndent c (withIndent d line) = withIndent c line := by
  have h := bare_withIndent d line
  unfold bare at h
  simp only [withIndent] at h ⊢
  rw [h]

theorem not_mem_withIndent {line : Text} (column : Int) (h : '\n' ∉ line) :
    '\n' ∉ withIndent column line := by
  intro hm
  rcases List.mem_append.mp hm with hs | hd
  · simp [spaces] at hs
  · exact h ((List.dropWhile_sublist isIndent).subset hd)

end FlowEdit
