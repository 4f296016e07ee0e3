import Mathlib.Data.List.Nodup
import Mathlib.Logic.Relation
import FlowEdit.Proofs.FixedPoint
import FlowEdit.Proofs.Rules

/-!
Chains of aliases. A keyword has at most one policy, so a chain of aliases ends at a name that is no
alias, or it comes back to a key that it has met before. Following a chain gives up after as many
steps as the table has keys. A chain that has not ended by then has met more keys than there are, so
it is one that comes back (`Met.revisits`), and a longer wait would not help. Where a
chain ends is all that matters of it for columns: a table and the one that has every alias replaced
by what it resolves to (`flatten`) indent alike. Main statement: `resolve_alias_chain`.
-/

namespace FlowEdit

open Relation

/-! ## Chains -/

/-- The layout that a policy gives by itself; an alias gives none. -/
def Policy.layout? : Policy → Option Layout
  | .layout l => some l
  | .unset => some .align
  | .aliasOf _ => none

namespace RuleTable

/-- The keyword is an alias of the target. -/
def AliasStep (T : RuleTable) (keyword target : Text) : Prop :=
  T.get? keyword = some (.aliasOf target)

/-- The name is on the alias chain of the keyword, which begins with the keyword itself. -/
def Reaches (T : RuleTable) (keyword name : Text) : Prop :=
  ReflTransGen T.AliasStep keyword name

/-- The alias chain of the keyword never ends. -/
def Endless (T : RuleTable) (keyword : Text) : Prop :=
  ∀ name, T.Reaches keyword name → ∃ target, T.AliasStep name target

/-- The alias chain of the keyword comes back to one of its keys. -/
def Revisits (T : RuleTable) (keyword : Text) : Prop :=
  ∃ key, T.Reaches keyword key ∧ TransGen T.AliasStep key key

/-- What the table says of a name. -/
def policyOf (T : RuleTable) (name : Text) : Policy := (T.get? name).getD .unset

variable {T : RuleTable} {keyword name target : Text} {hops : Nat}

theorem rightUnique_aliasStep (T : RuleTable) : Relator.RightUnique T.AliasStep := by
  intro keyword target target' h h'
  have hsame : Policy.aliasOf target = .aliasOf target' := Option.some.inj (h.symm.trans h')
  exact Policy.aliasOf.inj hsame

theorem AliasStep.policyOf_eq (h : T.AliasStep keyword target) :
    T.policyOf keyword = .aliasOf target := by
  rw [policyOf, h, Option.getD_some]

theorem aliasStep_of_policyOf_eq (h : T.policyOf keyword = .aliasOf target) :
    T.AliasStep keyword target := by
  unfold policyOf at h
  cases hget : T.get? keyword with
  | none => simp [hget] at h
  | some policy => simpa [hget, AliasStep] using h

/-- Around a circle one comes back from every name. -/
theorem reaches_back {key : Text} (hkey : TransGen T.AliasStep key key)
    (h : T.Reaches key name) : T.Reaches name key := by
  induction h with
  | refl => exact .refl
  | tail _ hstep ih =>
    -- the next name is the only one that the way back can begin with
    rcases ih.cases_head with rfl | ⟨next, hnext, hback⟩
    · obtain ⟨next, hnext, hback⟩ := TransGen.head'_iff.mp hkey
      rwa [rightUnique_aliasStep T hstep hnext]
    · rwa [rightUnique_aliasStep T hstep hnext]

theorem Revisits.endless (h : T.Revisits keyword) : T.Endless keyword := by
  obtain ⟨key, hreach, hkey⟩ := h
  intro name hname
  have hback : T.Reaches name key := by
    rcases ReflTransGen.total_of_right_unique (rightUnique_aliasStep T) hreach hname with h | h
    · exact reaches_back hkey h
    · exact h
  rcases hback.cases_head with rfl | ⟨next, hnext, -⟩
  · obtain ⟨next, hnext, -⟩ := TransGen.head'_iff.mp hkey
    exact ⟨next, hnext⟩
  · exact ⟨next, hnext⟩

/-! ## Following a chain -/

theorem follow_of_layout?_eq_some {policy : Policy} {l : Layout} (h : policy.layout? = some l)
    (hops : Nat) : T.follow hops policy = some l := by
  cases policy with
  | layout l' => simpa [follow, Policy.layout?] using h
  | unset => simpa [follow, Policy.layout?] using h
  | aliasOf target => simp [Policy.layout?] at h

/-- A walk along a chain gives up, or it finds the layout of the name at which the chain ends. -/
theorem Reaches.follow_eq_none_or (h : T.Reaches keyword name) {l : Layout}
    (hl : (T.policyOf name).layout? = some l) (hops : Nat) :
    T.follow hops (T.policyOf keyword) = none ∨ T.follow hops (T.policyOf keyword) = some l := by
  induction h using ReflTransGen.head_induction_on generalizing hops with
  | refl => exact .inr (follow_of_layout?_eq_some hl hops)
  | head hstep _ ih =>
    rw [hstep.policyOf_eq]
    cases hops with
    | zero => exact .inl rfl
    | succ hops => exact ih hops

/-- A walk that gives up is at an alias; unless it has no step left it gives up behind it, too. -/
theorem exists_aliasStep_of_follow_eq_none (h : T.follow hops (T.policyOf keyword) = none) :
    ∃ target, T.AliasStep keyword target ∧
      ∀ n, hops = n + 1 → T.follow n (T.policyOf target) = none := by
  cases hp : T.policyOf keyword with
  | layout l => simp [hp, follow] at h
  | unset => simp [hp, follow] at h
  | aliasOf target =>
    refine ⟨target, aliasStep_of_policyOf_eq hp, ?_⟩
    rintro n rfl
    rw [hp] at h
    exact h

theorem Endless.follow_eq_none (h : T.Endless keyword) (hops : Nat) :
    T.follow hops (T.policyOf keyword) = none := by
  induction hops generalizing keyword with
  | zero =>
    obtain ⟨target, hstep⟩ := h keyword .refl
    rw [hstep.policyOf_eq]
    rfl
  | succ hops ih =>
    obtain ⟨target, hstep⟩ := h keyword .refl
    rw [hstep.policyOf_eq]
    exact ih fun name hname => h name (ReflTransGen.head hstep hname)

theorem AliasStep.mem_keys (h : T.AliasStep keyword target) : keyword ∈ T.keys :=
  List.mem_map.mpr ⟨_, Keyed.mem_of_find_eq_some h, rfl⟩

/-- The keys that a walk has met on its way to the keyword, each of them once. -/
structure Met (T : RuleTable) (seen : List Text) (keyword : Text) : Prop where
  nodup : seen.Nodup
  keys : seen ⊆ T.keys
  behind : ∀ key ∈ seen, TransGen T.AliasStep key keyword

theorem met_nil (T : RuleTable) (keyword : Text) : T.Met [] keyword :=
  ⟨List.nodup_nil, List.nil_subset _, by simp⟩

theorem Met.length_le {seen : List Text} (h : T.Met seen keyword) : seen.length ≤ T.size := by
  rw [← Keyed.length_keys]
  exact h.nodup.length_le_of_subset h.keys

theorem Met.step {seen : List Text} (h : T.Met seen keyword) (hstep : T.AliasStep keyword target)
    (hnew : keyword ∉ seen) : T.Met (keyword :: seen) target := by
  refine ⟨h.nodup.cons hnew, List.cons_subset.mpr ⟨hstep.mem_keys, h.keys⟩, fun key hkey => ?_⟩
  rcases List.mem_cons.mp hkey with rfl | hkey
  · exact .single hstep
  · exact (h.behind key hkey).tail hstep

/-- A walk that may take as many steps as there are keys it has not met, and gives up all the same,
meets a key twice. -/
theorem Met.revisits {seen : List Text} (h : T.Met seen keyword)
    (hsize : T.size ≤ seen.length + hops) (hnone : T.follow hops (T.policyOf keyword) = none) :
    T.Revisits keyword := by
  induction hops generalizing keyword seen with
  | zero =>
    obtain ⟨target, hstep, -⟩ := exists_aliasStep_of_follow_eq_none hnone
    by_cases hmem : keyword ∈ seen
    · exact ⟨keyword, .refl, h.behind keyword hmem⟩
    · -- one key more than the table has
      have hle := (h.step hstep hmem).length_le
      rw [List.length_cons] at hle
      omega
  | succ hops ih =>
    obtain ⟨target, hstep, hnext⟩ := exists_aliasStep_of_follow_eq_none hnone
    by_cases hmem : keyword ∈ seen
    · exact ⟨keyword, .refl, h.behind keyword hmem⟩
    · have hroom : T.size ≤ (keyword :: seen).length + hops := by
        rw [List.length_cons]
        omega
      obtain ⟨key, hreach, hcircle⟩ := ih (h.step hstep hmem) hroom (hnext hops rfl)
      exact ⟨key, ReflTransGen.head hstep hreach, hcircle⟩

theorem revisits_of_follow_size_eq_none (h : T.follow T.size (T.policyOf keyword) = none) :
    T.Revisits keyword :=
  (met_nil T keyword).revisits (Nat.le_add_left _ _) h

/-- With as many steps as the table has keys, a walk gives up on endless chains only. -/
theorem follow_size_eq_none_iff :
    T.follow T.size (T.policyOf keyword) = none ↔ T.Endless keyword := by
  constructor
  · intro h
    exact (revisits_of_follow_size_eq_none h).endless
  · intro h
    exact h.follow_eq_none T.size

theorem endless_iff_revisits : T.Endless keyword ↔ T.Revisits keyword := by
  constructor
  · intro h
    exact revisits_of_follow_size_eq_none (h.follow_eq_none T.size)
  · exact Revisits.endless

/-! ## Resolving -/

theorem Reaches.not_endless (h : T.Reaches keyword name) {l : Layout}
    (hl : (T.policyOf name).layout? = some l) : ¬ T.Endless keyword := by
  intro hendless
  obtain ⟨target, hstep⟩ := hendless name h
  rw [hstep.policyOf_eq] at hl
  simp [Policy.layout?] at hl

/-- A chain that ends is resolved to the layout of its end. -/
theorem Reaches.resolve_eq (h : T.Reaches keyword name) {l : Layout}
    (hl : (T.policyOf name).layout? = some l) : T.resolve (some keyword) = pure l := by
  have hfound : T.follow T.size (T.policyOf keyword) = some l := by
    refine (h.follow_eq_none_or hl T.size).resolve_left fun hnone => ?_
    exact h.not_endless hl (follow_size_eq_none_iff.mp hnone)
  unfold policyOf at hfound
  simp only [resolve, hfound]

theorem Endless.resolve_eq (h : T.Endless keyword) :
    T.resolve (some keyword) = ⟨.align, [.aliasLoop keyword]⟩ := by
  have hnone := h.follow_eq_none T.size
  unfold policyOf at hnone
  simp only [resolve, hnone]
  rfl

/-- A chain that is not endless ends somewhere. -/
theorem exists_end_of_not_endless (h : ¬ T.Endless keyword) :
    ∃ name l, T.Reaches keyword name ∧ (T.policyOf name).layout? = some l := by
  unfold Endless at h
  push Not at h
  obtain ⟨name, hreach, hend⟩ := h
  cases hp : T.policyOf name with
  | layout l => exact ⟨name, l, hreach, by rw [hp]; rfl⟩
  | unset => exact ⟨name, .align, hreach, by rw [hp]; rfl⟩
  | aliasOf target => exact absurd (aliasStep_of_policyOf_eq hp) (hend target)

theorem notices_resolve_ne_nil_iff :
    (T.resolve (some keyword)).notices ≠ [] ↔ T.Endless keyword := by
  constructor
  · intro hne
    by_contra h
    obtain ⟨name, l, hreach, hl⟩ := exists_end_of_not_endless h
    rw [hreach.resolve_eq hl] at hne
    exact hne rfl
  · intro h
    rw [h.resolve_eq]
    simp

end RuleTable

/-! ## Tables that resolve alike -/

/-- The two tables resolve every head word to the same layout. -/
def RuleTable.ResolvesAs (T U : RuleTable) : Prop :=
  ∀ word, (T.resolve word).value = (U.resolve word).value

namespace RuleTable.ResolvesAs

variable {T U : RuleTable} (h : T.ResolvesAs U)

include h

theorem value_openForm_column (t : Text) (f : OpenForm) :
    (f.column T t).value = (f.column U t).value := by
  unfold OpenForm.column
  cases f.head with
  | none => rfl
  | some word => simp only [Logged.value_bind, h (some word)]

theorem value_context_column (t : Text) (c : Context) :
    (c.column T t).value = (c.column U t).value := by
  unfold Context.column
  cases c.form with
  | none => rfl
  | some f => exact h.value_openForm_column t f

theorem value_indentAt (t : Text) (pos : Int) :
    (indentAt T t pos).value = (indentAt U t pos).value :=
  h.value_context_column t _

theorem value_planLine (before line after : Text) :
    (planLine T before line after).value = (planLine U before line after).value := by
  unfold planLine
  dsimp only
  split
  · rfl
  · split
    · rfl
    · rw [Logged.value_map, Logged.value_map, h.value_context_column]

theorem value_planInRange (range : LineRange) (n : Nat) (before line after : Text) :
    (planInRange T range n before line after).value =
      (planInRange U range n before line after).value := by
  unfold planInRange
  split
  · exact h.value_planLine before line after
  · rfl

theorem value_indentLine (t : Text) (line : Int) :
    (indentLine T t line).value = (indentLine U t line).value := by
  unfold indentLine
  dsimp only
  split
  · rfl
  · split
    · rfl
    · rw [Logged.value_bind, Logged.value_bind, h.value_planLine]

theorem reflowedLines_eq (range : LineRange) (n : Nat) (before : Text) (ls : List Text) :
    reflowedLines T range n before ls = reflowedLines U range n before ls := by
  induction ls generalizing n before with
  | nil => rfl
  | cons line rest ih => rw [reflowedLines_cons, reflowedLines_cons, h.value_planInRange, ih]

theorem value_obstacleFrom (widest : Nat) (range : LineRange) (n : Nat) (before : Text)
    (ls : List Text) :
    (obstacleFrom widest T range n before ls).value =
      (obstacleFrom widest U range n before ls).value := by
  induction ls generalizing n before with
  | nil => rfl
  | cons line rest ih => rw [obstacleFrom_cons, obstacleFrom_cons, h.value_planInRange, ih]

theorem value_reindent (t : Text) : (reindent T t).value = (reindent U t).value := by
  rw [FlowEdit.value_reindent, FlowEdit.value_reindent, reflowed, reflowed, h.reflowedLines_eq]

theorem value_unlessObstacle {α : Type} {widest : Nat} {t : Text} {range : LineRange}
    {result result' : Unit → Logged α} (hresult : (result ()).value = (result' ()).value) :
    (unlessObstacle widest T t range result).value =
      (unlessObstacle widest U t range result').value := by
  have hobstacle : (obstacle widest T t range).value = (obstacle widest U t range).value :=
    h.value_obstacleFrom widest range 0 [] t.lines
  rw [FlowEdit.value_unlessObstacle, FlowEdit.value_unlessObstacle, hobstacle, hresult]

end RuleTable.ResolvesAs

/-! ## Tables without aliases -/

namespace Keyed

variable {κ ν μ : Type} [DecidableEq κ]

omit [DecidableEq κ] in
/-- The same keys, each with a value made of it and its old value. -/
def mapValues (f : κ → ν → μ) (d : Keyed κ ν) : Keyed κ μ where
  entries := d.entries.map fun e => (e.1, f e.1 e.2)
  nodup_keys := by simpa [Function.comp_def] using d.nodup_keys

theorem get?_mapValues (f : κ → ν → μ) (d : Keyed κ ν) (k : κ) :
    (d.mapValues f).get? k = (d.get? k).map (f k) := by
  unfold get? mapValues
  dsimp only
  induction d.entries with
  | nil => rfl
  | cons e es ih =>
    by_cases hk : e.1 = k
    · subst hk
      simp [find]
    · simp [find, hk, ih]

end Keyed

namespace RuleTable

/-- The table with every alias replaced by the layout it resolves to. -/
def flatten (T : RuleTable) : RuleTable :=
  T.mapValues fun keyword policy =>
    match policy with
    | .aliasOf _ => .layout (T.resolve (some keyword)).value
    | policy => policy

variable {T : RuleTable}

/-- A name gives in the flat table by itself what its chain in the table leads to. -/
theorem layout?_policyOf_flatten (keyword : Text) :
    (T.flatten.policyOf keyword).layout? = some (T.resolve (some keyword)).value := by
  have hown : ∀ l, (T.policyOf keyword).layout? = some l →
      some l = some (T.resolve (some keyword)).value := by
    intro l hl
    rw [Reaches.resolve_eq .refl hl, Logged.value_pure]
  unfold policyOf flatten at *
  rw [Keyed.get?_mapValues]
  cases hget : T.get? keyword with
  | none => exact hown .align (by rw [hget]; rfl)
  | some policy =>
    cases policy with
    | layout l => exact hown l (by rw [hget]; rfl)
    | unset => exact hown .align (by rw [hget]; rfl)
    | aliasOf target => rfl

theorem resolve_flatten (word : Option Text) :
    T.flatten.resolve word = pure (T.resolve word).value := by
  cases word with
  | none => rfl
  | some keyword => exact Reaches.resolve_eq .refl (layout?_policyOf_flatten keyword)

theorem flatten_resolvesAs (T : RuleTable) : T.flatten.ResolvesAs T := by
  intro word
  rw [resolve_flatten, Logged.value_pure]

/-- The chain of a keyword decides what it resolves to. If the chain comes to a key with a policy of
its own, this is the policy; if it comes to a name that is not in the table, it is the default; and
nothing is reported then, however long the chain. The report is given, with the default, exactly if
the chain never ends, which is to say that it comes back to a key. So a table may have every alias
replaced by what it resolves to, and no line is indented otherwise. -/
theorem resolve_alias_chain (widest : Nat) (T : RuleTable) (keyword : Text) :
    (∀ name, T.Reaches keyword name →
      (∀ l, T.get? name = some (.layout l) → T.resolve (some keyword) = pure l) ∧
      (T.get? name = some .unset → T.resolve (some keyword) = pure .align) ∧
      (T.get? name = none → T.resolve (some keyword) = pure .align)) ∧
    (T.resolve (some keyword) = ⟨.align, [.aliasLoop keyword]⟩ ↔ T.Endless keyword) ∧
    ((T.resolve (some keyword)).notices ≠ [] ↔ T.Endless keyword) ∧
    (T.Endless keyword ↔ T.Revisits keyword) ∧
    ∀ t : Text,
      (∀ pos, (indentAt T.flatten t pos).value = (indentAt T t pos).value) ∧
      (∀ line, (indentLine T.flatten t line).value = (indentLine T t line).value ∧
        (indentLine? T.flatten t line widest).value = (indentLine? T t line widest).value) ∧
      (reindent T.flatten t).value = (reindent T t).value ∧
      (reindent? T.flatten t widest).value = (reindent? T t widest).value := by
  have hflat := flatten_resolvesAs T
  refine ⟨fun name hreach => ⟨fun l hl => ?_, fun hl => ?_, fun hl => ?_⟩, ?_,
    notices_resolve_ne_nil_iff, endless_iff_revisits, fun t => ⟨hflat.value_indentAt t,
      fun line => ⟨hflat.value_indentLine t line, ?_⟩, hflat.value_reindent t, ?_⟩⟩
  · exact hreach.resolve_eq (by rw [policyOf, hl]; rfl)
  · exact hreach.resolve_eq (by rw [policyOf, hl]; rfl)
  · exact hreach.resolve_eq (by rw [policyOf, hl]; rfl)
  · refine ⟨fun h => notices_resolve_ne_nil_iff.mp ?_, Endless.resolve_eq⟩
    rw [h]
    simp
  · exact hflat.value_unlessObstacle (hflat.value_indentLine t line)
  · exact hflat.value_unlessObstacle (hflat.value_reindent t)

/-- A chain through every key of a table and out of it, and one that runs into a circle its first
key is not on. -/
theorem resolve_alias_chain_whole_table :
    let a : Text := "a".toList
    let b : Text := "b".toList
    let c : Text := "c".toList
    let leaving : RuleTable := Keyed.ofList [(a, .aliasOf b), (b, .aliasOf c)]
    let circling : RuleTable :=
      Keyed.ofList [(a, .aliasOf b), (b, .aliasOf c), (c, .aliasOf b)]
    (leaving.Reaches a c ∧ leaving.get? c = none ∧ leaving.resolve (some a) = pure .align) ∧
      circling.Revisits a ∧ circling.resolve (some a) = ⟨.align, [.aliasLoop a]⟩ := by
  intro a b c leaving circling
  have hleave : leaving.Reaches a c :=
    (ReflTransGen.single (show leaving.AliasStep a b by unfold AliasStep; decide)).tail
      (show leaving.AliasStep b c by unfold AliasStep; decide)
  have hout : leaving.get? c = none := by decide
  have hback : circling.Revisits a := by
    refine ⟨b, .single ?_, (TransGen.single (b := c) ?_).tail ?_⟩ <;> unfold AliasStep <;> decide
  obtain ⟨hends, -⟩ := resolve_alias_chain 0 leaving a
  obtain ⟨-, hloop, -, hrevisits, -⟩ := resolve_alias_chain 0 circling a
  exact ⟨⟨hleave, hout, (hends c hleave).2.2 hout⟩, hback, hloop.mpr (hrevisits.mpr hback)⟩

end RuleTable

end FlowEdit
