import FlowEdit.Proofs.PositionOffsets
import FlowEdit.Proofs.TypedWord

/-!
Completing a word while it is being typed. The candidates are the entries of the vocabulary that
begin like the word, each once and in the order in which they first occur (`count_complete`,
`pairwise_complete`). A longer word has fewer of them (`complete_append`), and the cursor of an
editor leads back to the word it stands behind (`completionsAt_typed`); so what is typed next
narrows a list down, and the list need not be asked for again. Main statement:
`completionsAt_narrows`.
-/

namespace FlowEdit

open Text

/-! ## Candidates -/

theorem pairwise_idxOf_eraseDups (ws : List Text) :
    ws.eraseDups.Pairwise fun a b => ws.idxOf a < ws.idxOf b := by
  induction ws using List.reverseRecOn with
  | nil => simp
  | append_singleton ws w ih =>
    have hold : ws.eraseDups.Pairwise fun a b => (ws ++ [w]).idxOf a < (ws ++ [w]).idxOf b := by
      refine ih.imp_of_mem fun {a b} ha hb hab => ?_
      rw [List.mem_eraseDups] at ha hb
      rwa [List.idxOf_append_of_mem ha, List.idxOf_append_of_mem hb]
    rw [List.eraseDups_append]
    by_cases hw : w ∈ ws
    · simpa [List.removeAll, hw] using hold
    · -- an entry that is new comes behind all others
      have hnew : ([w].removeAll ws).eraseDups = [w] := by
        simp [List.removeAll, hw, List.eraseDups_cons]
      rw [hnew, List.pairwise_append]
      refine ⟨hold, by simp, fun a ha b hb => ?_⟩
      rw [List.mem_eraseDups] at ha
      rw [List.mem_singleton.mp hb, List.idxOf_append_of_mem ha, List.idxOf_append_of_notMem hw]
      exact Nat.lt_add_right _ (List.idxOf_lt_length_of_mem ha)

namespace Vocabulary

/-- The entries of the four groups, with those that occur more than once. -/
def entries (v : Vocabulary) : List Text :=
  v.statements ++ v.keywords ++ v.operators ++ v.constructors

variable {v : Vocabulary} {typed : Text}

theorem words_complete (h : typed ≠ []) :
    (v.complete typed).words = v.words.filter typed.isPrefixOf := by
  rw [complete, if_neg h]

theorem pairwise_complete (h : typed ≠ []) :
    (v.complete typed).words.Pairwise fun a b => v.entries.idxOf a < v.entries.idxOf b := by
  rw [words_complete h]
  exact (pairwise_idxOf_eraseDups v.entries).filter _

theorem mem_complete_iff (h : typed ≠ []) {w : Text} :
    w ∈ (v.complete typed).words ↔ w ∈ v.entries ∧ typed <+: w := by
  rw [words_complete h, List.mem_filter, mem_words_iff, List.isPrefixOf_iff_prefix, entries]

theorem count_complete (h : typed ≠ []) (w : Text) :
    (v.complete typed).words.count w = if w ∈ v.entries ∧ typed <+: w then 1 else 0 := by
  have hnodup : (v.complete typed).words.Nodup :=
    (pairwise_complete h).imp fun hlt heq => Nat.ne_of_lt hlt (congrArg v.entries.idxOf heq)
  rw [hnodup.count]
  simp only [mem_complete_iff h]

/-- Of the candidates for a word those remain that go on like the longer word. -/
theorem complete_append (h : typed ≠ []) (more : Text) :
    (v.complete (typed ++ more)).words =
      (v.complete typed).words.filter (typed ++ more).isPrefixOf := by
  have hmore : typed ++ more ≠ [] := by simp [h]
  rw [words_complete h, words_complete hmore, List.filter_filter]
  refine List.filter_congr fun w _ => ?_
  rw [Bool.eq_iff_iff, Bool.and_eq_true, List.isPrefixOf_iff_prefix, List.isPrefixOf_iff_prefix]
  exact (and_iff_left_of_imp (List.prefix_append typed more).trans).symm

end Vocabulary

/-! ## Cursors -/

theorem wordBefore_natCast (t : Text) (o : Nat) : wordBefore t o = wordAtEnd (t.take o) := by
  rw [wordBefore, clamp, Int.toNat_natCast, ← List.take_eq_take_min]

theorem wordAtEnd_concat {before : Text} {c : Char} (hc : isWordBreak c = false) :
    wordAtEnd (before ++ [c]) = wordAtEnd before ++ [c] := by
  rw [wordAtEnd_eq_rtakeWhile, List.rtakeWhile_concat_pos _ _ _ (by simp [hc])]
  rfl

/-- The position behind a word leads back there: no break is in front of it, hence no carriage
return. -/
theorem offsetAt_typed {before : Text} (h : wordAtEnd before ≠ []) (after : Text) :
    (before ++ after).offsetAt (positionAfter before) = before.length := by
  rw [offsetAt_positionAfter_iff]
  rintro ⟨hreturn, -⟩
  obtain ⟨front, hfront, hword, -⟩ := exists_eq_append_wordAtEnd before
  rw [hfront, List.getLast?_append_of_ne_nil _ h] at hreturn
  exact absurd (hword '\r' (List.mem_of_getLast? hreturn)) (by decide)

/-- The item in which a word is offered. -/
def itemOf (w : Text) : CompletionItem := ⟨w, .ofCategory (Vocabulary.standard.classify w)⟩

theorem completionsAt_typed {before : Text} (h : wordAtEnd before ≠ []) (after : Text) :
    (completionsAt (before ++ after) (positionAfter before)).items =
      (Vocabulary.standard.complete (wordAtEnd before)).words.map itemOf := by
  unfold completionsAt
  rw [offsetAt_typed h, wordBefore_natCast, List.take_left]
  rfl

/-! ## Typing on -/

/-- The candidates for a word are the entries of the vocabulary that begin like it, each once and in
the order in which they first occur. They are what is offered at the cursor behind the word. When a
character is typed there and does not end the word, those of the items remain, in their order and
with their kinds, whose labels go on like this. -/
theorem completionsAt_narrows :
    (∀ (v : Vocabulary) (typed : Text), typed ≠ [] →
      let words := (v.complete typed).words
      (∀ w, words.count w = if w ∈ v.entries ∧ typed <+: w then 1 else 0) ∧
        words.Pairwise fun a b => v.entries.idxOf a < v.entries.idxOf b) ∧
    ∀ (t : Text) (o : Nat) (c : Char), wordBefore t o ≠ [] →
      c ∉ [' ', '\t', '\r', '\n', '(', ')', '"', ';'] →
      let cursor (before : Text) : Position := ⟨before.count '\n', units (afterLast '\n' before)⟩
      let old := completionsAt t (cursor (t.take o))
      let new := completionsAt (t.take o ++ c :: t.drop o) (cursor (t.take o ++ [c]))
      old.isIncomplete = false ∧ new.isIncomplete = false ∧
        old.items.map CompletionItem.label =
          (Vocabulary.standard.complete (wordBefore t o)).words ∧
        new.items = old.items.filter fun item => (wordBefore t o ++ [c]).isPrefixOf item.label := by
  refine ⟨fun v typed h => ⟨Vocabulary.count_complete h, Vocabulary.pairwise_complete h⟩, ?_⟩
  intro t o c hne hc cursor old new
  rw [wordBefore_natCast] at hne ⊢
  have hlonger : wordAtEnd (t.take o ++ [c]) = wordAtEnd (t.take o) ++ [c] :=
    wordAtEnd_concat (by simpa [isWordBreak] using hc)
  have hnew : new.items =
      (Vocabulary.standard.complete (wordAtEnd (t.take o ++ [c]))).words.map itemOf := by
    have hne' : wordAtEnd (t.take o ++ [c]) ≠ [] := by simp [hlonger]
    have h := completionsAt_typed hne' (t.drop o)
    rwa [List.append_assoc, List.singleton_append, positionAfter_eq] at h
  have hold : old.items =
      (Vocabulary.standard.complete (wordAtEnd (t.take o))).words.map itemOf := by
    have h := completionsAt_typed hne (t.drop o)
    rwa [List.take_append_drop, positionAfter_eq] at h
  refine ⟨rfl, rfl, ?_, ?_⟩
  · rw [hold, List.map_map]
    exact List.map_id _
  · rw [hnew, hold, hlonger, Vocabulary.complete_append hne, List.filter_map]
    rfl

/-- A vocabulary in which a word occurs twice, and an operator typed behind a character of two units
on a line that ends in a carriage return. -/
theorem completionsAt_narrows_vector :
    let v : Vocabulary := ⟨[['a', 'b']], [['a']], [['b'], ['a', 'b']], [], by decide⟩
    let t : Text := "x\r\n😀(vecto\r\n".toList
    let old := completionsAt t ⟨1, 8⟩
    let new := completionsAt "x\r\n😀(vector\r\n".toList ⟨1, 9⟩
    (v.complete ['a']).words.count ['a', 'b'] = 1 ∧
      wordBefore t 10 = "vecto".toList ∧ old.isIncomplete = false ∧
      new.items = old.items.filter fun item => "vector".toList.isPrefixOf item.label := by
  intro v t old new
  obtain ⟨hcomplete, hnarrows⟩ := completionsAt_narrows
  have hcount := (hcomplete v ['a'] (by decide)).1 ['a', 'b']
  obtain ⟨hold, -, -, hnew⟩ := hnarrows t 10 'r' (by decide) (by decide)
  exact ⟨hcount.trans (by decide), by decide, hold, hnew⟩

end FlowEdit
