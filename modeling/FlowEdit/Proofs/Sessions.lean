import FlowEdit.Session.Workspace

/-!
Sessions with an editor. A request that fails does nothing (`update_of_error`). One that is about a
document has its answer from the settings and from the text of that document (`Agree.answer_eq`),
and changes that document only (`get?_documents_update`); so the text of a document behind any
requests is found by going through those about it (`get?_documents_after`), and it is the answer if
it is asked for (`getLast?_run_text`). Main statement: documents do not interfere. The answers about
one document are those of a session in which all requests about others are left out
(`filter_zip_run`).
-/

namespace FlowEdit

/-! ## Documents of requests -/

namespace Request

/-- The key of the document that a request is about. -/
def document? : Request → Option Text
  | .configure _ | .greet _ => none
  | .openDocument uri _ | .change uri _ | .close uri | .text uri | .complete uri _ | .tokens uri
  | .format uri | .formatRange uri _ _ | .formatLine uri _ => some (Percent.decode uri)

/-- The request is about the document of the given key, or about none. -/
def concerns (key : Text) (r : Request) : Bool := r.document?.all (· = key)

/-- What a request makes of the text of its document. -/
def effect (old : Option Text) : Request → Option Text
  | .openDocument uri new =>
    match Uri.path uri with
    | .ok _ => some new
    | .error _ => old
  | .change _ new => old.map fun _ => new
  | .close _ => none
  | _ => old

end Request

namespace Workspace

variable {w w' : Workspace} {r : Request} {key : Text}

/-! ## One request -/

/-- A request that fails leaves the session as it is. -/
theorem update_of_error {e : RequestError} (h : w.answer r = .error e) : w.update r = w := by
  cases r with
  | configure | greet | change | close => cases h
  | openDocument uri text =>
    rw [answer] at h
    rw [update]
    cases hopen : w.openDocument uri text with
    | error e' => rfl
    | ok opened =>
      rw [hopen] at h
      cases h
  | text | complete | tokens | format | formatRange | formatLine => rfl

/-- The settings stay as they are if a request is about a document. -/
theorem environment_update (h : r.document? ≠ none) :
    (w.update r).environment = w.environment := by
  cases r with
  | configure | greet => exact absurd rfl h
  | openDocument uri text =>
    rw [update, openDocument]
    cases Uri.path uri <;> rfl
  | change uri text =>
    rw [update, change]
    split <;> rfl
  | close | text | complete | tokens | format | formatRange | formatLine => rfl

theorem get?_documents_put (w : Workspace) (uri text key : Text) :
    (w.put uri text).documents.get? key =
      if Percent.decode uri = key then some text else w.documents.get? key := by
  simp only [put, Keyed.get?_insert, eq_comm]

/-- A request changes the document that it is about and no other. -/
theorem get?_documents_update (w : Workspace) (r : Request) (key : Text) :
    (w.update r).documents.get? key =
      if r.document? = some key then r.effect (w.documents.get? key)
      else w.documents.get? key := by
  cases r with
  | configure | greet | text | complete | tokens | format | formatRange | formatLine =>
    exact (ite_self _).symm
  | openDocument uri text =>
    rw [update, openDocument, Request.effect]
    cases Uri.path uri with
    | error e => exact (ite_self _).symm
    | ok path =>
      simp only [Request.document?, Option.some.injEq]
      exact get?_documents_put w uri text key
  | change uri text =>
    rw [update, change, ← Keyed.isSome_get?]
    simp only [Request.document?, Option.some.injEq, Request.effect]
    by_cases hkey : Percent.decode uri = key
    · subst hkey
      cases hold : w.documents.get? (Percent.decode uri) with
      | none => simp [hold]
      | some old => simp [get?_documents_put]
    · split <;> simp [get?_documents_put, hkey]
  | close uri =>
    simp only [update, close, Keyed.get?_erase, Request.document?, Option.some.injEq,
      Request.effect, eq_comm]

/-! ## Sessions alike -/

/-- Two sessions with the same settings, in which the document of the given key is the same. -/
structure Agree (key : Text) (w w' : Workspace) : Prop where
  environment : w.environment = w'.environment
  document : w.documents.get? key = w'.documents.get? key

theorem Agree.refl (key : Text) (w : Workspace) : Agree key w w := ⟨rfl, rfl⟩

theorem Agree.documentText_eq (h : Agree key w w') {uri : Text} (huri : Percent.decode uri = key) :
    w.documentText uri = w'.documentText uri := by
  subst huri
  unfold documentText
  rw [h.environment, h.document]

/-- An answer depends on the settings and on the document that it is about. -/
theorem Agree.answer_eq (h : Agree key w w') (hr : r.concerns key = true) :
    w.answer r = w'.answer r := by
  cases r with
  | configure | change | close => rfl
  | greet client =>
    rw [answer, answer, h.environment]
  | openDocument uri text =>
    rw [answer, answer, openDocument, openDocument]
    cases Uri.path uri <;> rfl
  | text uri | complete uri | tokens uri | format uri | formatRange uri | formatLine uri =>
    have huri : Percent.decode uri = key := by simpa [Request.concerns, Request.document?] using hr
    rw [answer, answer, answerFrom, answerFrom, h.documentText_eq huri]

/-- Sessions that agree do so behind a request. -/
theorem Agree.update (h : Agree key w w') (r : Request) : Agree key (w.update r) (w'.update r) := by
  refine ⟨?_, ?_⟩
  · cases hr : r.document? with
    | some k =>
      rw [environment_update (by simp [hr]), environment_update (by simp [hr]), h.environment]
    | none =>
      cases r with
      | configure changes => exact congrArg (·.setAll changes) h.environment
      | greet => exact h.environment
      | _ => cases hr
  · rw [get?_documents_update, get?_documents_update, h.document]

/-- A request about another document makes no difference. -/
theorem Agree.skip (h : Agree key w w') (hr : r.concerns key = false) :
    Agree key (w.update r) w' := by
  have hother : ∃ k, r.document? = some k ∧ k ≠ key := by
    cases hk : r.document? with
    | none => simp [Request.concerns, hk] at hr
    | some k => exact ⟨k, rfl, by simpa [Request.concerns, hk] using hr⟩
  obtain ⟨k, hk, hne⟩ := hother
  refine ⟨?_, ?_⟩
  · rw [environment_update (by simp [hk]), h.environment]
  · rw [get?_documents_update, if_neg (by simp [hk, hne]), h.document]

/-! ## Many requests -/

/-- The session behind requests. -/
def after (w : Workspace) (rs : List Request) : Workspace := rs.foldl update w

theorem run_append (w : Workspace) (rs rs' : List Request) :
    w.run (rs ++ rs') = w.run rs ++ (w.after rs).run rs' := by
  induction rs generalizing w with
  | nil => rfl
  | cons r rs ih => exact congrArg (w.answer r :: ·) (ih (w.update r))

/-- The text of a document behind requests is what those about it have made of it. -/
theorem get?_documents_after (w : Workspace) (rs : List Request) (key : Text) :
    (w.after rs).documents.get? key =
      (rs.filter (·.document? = some key)).foldl Request.effect (w.documents.get? key) := by
  induction rs generalizing w with
  | nil => rfl
  | cons r rs ih =>
    have hrest := ih (w.update r)
    rw [get?_documents_update] at hrest
    by_cases hr : r.document? = some key
    · rw [if_pos hr] at hrest
      rw [List.filter_cons_of_pos (by simpa using hr)]
      exact hrest
    · rw [if_neg hr] at hrest
      rw [List.filter_cons_of_neg (by simpa using hr)]
      exact hrest

/-- Asked for a document that is handled, the session gives what the requests before have made of
it. -/
theorem getLast?_run_text {uri t : Text} {rs : List Request}
    (henv : (w.after rs).environment.handles uri = .ok true)
    (ht : (rs.filter (·.document? = some (Percent.decode uri))).foldl Request.effect
      (w.documents.get? (Percent.decode uri)) = some t) :
    (w.run (rs ++ [.text uri])).getLast? = some (.ok (pure (.text (some t)))) := by
  have hdoc : (w.after rs).documentText uri = .ok (pure (some t)) := by
    simp only [documentText, henv, get?_documents_after, ht]
  have hanswer : (w.after rs).answer (.text uri) = .ok (pure (.text (some t))) := by
    simp only [answer, answerFrom, hdoc]
    rfl
  rw [run_append]
  simp only [run, hanswer, List.getLast?_append, List.getLast?_singleton, Option.some_or]

theorem Agree.filter_zip_run (h : Agree key w w') (rs : List Request) :
    (rs.zip (w.run rs)).filter (·.1.concerns key) =
      (rs.filter (·.concerns key)).zip (w'.run (rs.filter (·.concerns key))) := by
  induction rs generalizing w w' with
  | nil => rfl
  | cons r rs ih =>
    rw [run, List.zip_cons_cons]
    cases hr : r.concerns key with
    | true =>
      rw [List.filter_cons_of_pos (by exact hr), List.filter_cons_of_pos (by exact hr), run,
        List.zip_cons_cons, h.answer_eq hr, ih (h.update r)]
    | false =>
      rw [List.filter_cons_of_neg (by simp [hr]), List.filter_cons_of_neg (by simp [hr])]
      exact ih (h.skip hr)

/-- Documents do not interfere: the requests about one document, or about none, have the answers
that they have if all requests about other documents are left out. -/
theorem filter_zip_run (w : Workspace) (key : Text) (rs : List Request) :
    (rs.zip (w.run rs)).filter (·.1.concerns key) =
      (rs.filter (·.concerns key)).zip (w.run (rs.filter (·.concerns key))) :=
  (Agree.refl key w).filter_zip_run rs

end Workspace

end FlowEdit
