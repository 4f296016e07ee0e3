import Mathlib.Data.List.Chain
import FlowEdit.Proofs.AliasChains

/-!
Checking a rule table. The check walks the alias chain of every key and keeps a list of the keywords
it has seen. A chain has one of three outcomes: it ends at a key with a policy of its own
(`EndsInside`), it comes to a name that is not in the table (`Leaves`), or it comes back to a key
(`Revisits`). The walk tells the first from the others (`checkChain_eq_ok_iff`), and says of the
others what is wrong (`checkChain_eq_error_iff`): it has met no keyword twice before it stops, so
the path that it reports ends with the first repetition. Main statement: `build_checked`.
-/

namespace FlowEdit

open Relation

theorem Keyed.exists_get?_of_mem_keys {κ ν : Type} [DecidableEq κ] {d : Keyed κ ν} {k : κ}
    (h : k ∈ d.keys) : ∃ v, d.get? k = some v := by
  have hsome : (d.get? k).isSome = true := by
    rw [d.isSome_get?, Keyed.contains, List.contains_iff_mem]
    exact h
  exact Option.isSome_iff_exists.mp hsome

/-! ## Checks in a row -/

section

variable {α ε : Type} {f : α → Except ε Unit}

theorem forM_eq_ok_iff {xs : List α} : xs.forM f = .ok () ↔ ∀ x ∈ xs, f x = .ok () := by
  induction xs with
  | nil => simp [pure, Except.pure]
  | cons x xs ih =>
    change (f x >>= fun _ => xs.forM f) = _ ↔ _
    cases hx : f x with
    | error e => simp [bind, Except.bind, hx]
    | ok u => simpa [bind, Except.bind, hx] using ih

/-- The error is that of the first element that has one. -/
theorem forM_eq_error_iff {xs : List α} {e : ε} :
    xs.forM f = .error e ↔ ∃ earlier x later, xs = earlier ++ x :: later ∧
      (∀ y ∈ earlier, f y = .ok ()) ∧ f x = .error e := by
  induction xs with
  | nil => simp [pure, Except.pure]
  | cons x xs ih =>
    change (f x >>= fun _ => xs.forM f) = _ ↔ _
    constructor
    · intro h
      cases hx : f x with
      | error d =>
        have hd : d = e := by simpa [bind, Except.bind, hx] using h
        exact ⟨[], x, xs, rfl, by simp, by rw [hx, hd]⟩
      | ok u =>
        have hrest : xs.forM f = .error e := by simpa [bind, Except.bind, hx] using h
        obtain ⟨earlier, y, later, rfl, hearlier, hy⟩ := ih.mp hrest
        exact ⟨x :: earlier, y, later, rfl, by simpa [hx] using hearlier, hy⟩
    · rintro ⟨earlier, y, later, hxs, hearlier, hy⟩
      cases earlier with
      | nil =>
        obtain ⟨rfl, rfl⟩ := List.cons.inj hxs
        simp [bind, Except.bind, hy]
      | cons z earlier =>
        obtain ⟨rfl, rfl⟩ := List.cons.inj hxs
        have hrest := ih.mpr ⟨earlier, y, later, rfl, fun w hw => hearlier w (by simp [hw]), hy⟩
        simpa [bind, Except.bind, hearlier x (by simp)] using hrest

end

namespace RuleTable

variable {T : RuleTable} {key keyword name target : Text} {seen : List Text} {e : TableError}

/-! ## How a chain can go -/

/-- The alias chain of the keyword comes to a name that is not in the table. -/
def Leaves (T : RuleTable) (keyword : Text) : Prop :=
  ∃ name, T.Reaches keyword name ∧ name ∉ T.keys

/-- The alias chain of the keyword comes to a key that has a policy of its own. -/
def EndsInside (T : RuleTable) (keyword : Text) : Prop :=
  ∃ name policy, T.Reaches keyword name ∧ T.get? name = some policy ∧ policy.layout?.isSome

/-- What is wrong with the chain of a key: the last key on it that is an alias of an unknown name,
or the path on it from the key to the first keyword that is met again. -/
inductive AliasFault (T : RuleTable) (key : Text) : TableError → Prop
  | leaves {last target : Text} (reaches : T.Reaches key last) (step : T.AliasStep last target)
      (unknown : target ∉ T.keys) : AliasFault T key (.unknownTarget last target)
  | circles {path : List Text} {target : Text} (head : path.head? = some key)
      (chain : (path ++ [target]).IsChain T.AliasStep) (nodup : path.Nodup)
      (repeated : target ∈ path) : AliasFault T key (.cycle (path ++ [target]))

theorem Revisits.of_aliasStep (hstep : T.AliasStep keyword target) (h : T.Revisits target) :
    T.Revisits keyword := by
  obtain ⟨key, hreach, hcircle⟩ := h
  exact ⟨key, ReflTransGen.head hstep hreach, hcircle⟩

theorem EndsInside.not_revisits (h : T.EndsInside keyword) : ¬ T.Revisits keyword := by
  obtain ⟨name, policy, hreach, hget, hlayout⟩ := h
  obtain ⟨l, hl⟩ := Option.isSome_iff_exists.mp hlayout
  intro hrevisits
  exact hreach.not_endless (by rw [policyOf, hget]; exact hl) hrevisits.endless

/-- An unknown name is the end of a chain. -/
theorem Leaves.not_revisits (h : T.Leaves keyword) : ¬ T.Revisits keyword := by
  obtain ⟨name, hreach, hunknown⟩ := h
  intro hrevisits
  obtain ⟨target, hstep⟩ := hrevisits.endless name hreach
  exact hunknown hstep.mem_keys

/-! ## The walk -/

/-- The walk from the key has come to the keyword, and these are the keywords on its way. -/
structure Walked (T : RuleTable) (key : Text) (seen : List Text) (keyword : Text) : Prop where
  head : seen.head? = some key
  last : seen.getLast? = some keyword
  chain : seen.IsChain T.AliasStep
  nodup : seen.Nodup
  reaches : T.Reaches key keyword

theorem walked_start (T : RuleTable) (key : Text) : T.Walked key [key] key :=
  ⟨rfl, rfl, .singleton key, List.nodup_singleton key, .refl⟩

theorem Walked.isChain_concat (h : T.Walked key seen keyword) (hstep : T.AliasStep keyword target) :
    (seen ++ [target]).IsChain T.AliasStep := by
  refine h.chain.append (.singleton target) ?_
  simpa [h.last] using hstep

theorem Walked.step (h : T.Walked key seen keyword) (hstep : T.AliasStep keyword target)
    (hnew : target ∉ seen) : T.Walked key (seen ++ [target]) target where
  head := by
    rw [List.head?_append, h.head]
    rfl
  last := by simp
  chain := h.isChain_concat hstep
  nodup := List.nodup_append.mpr ⟨h.nodup, List.nodup_singleton target, by
    rintro k hk _ (_ | ⟨_, ⟨⟩⟩) rfl
    exact hnew hk⟩
  reaches := h.reaches.tail hstep

/-- What a walk stops with. -/
theorem Walked.checkChain (h : T.Walked key seen keyword) (hkey : keyword ∈ T.keys) :
    (T.checkChain seen keyword = .ok () → T.EndsInside keyword) ∧
      ∀ e, T.checkChain seen keyword = .error e → T.AliasFault key e := by
  fun_induction RuleTable.checkChain T seen keyword with
  | case1 seen keyword target hstep hknown hrepeated =>
    refine ⟨nofun, ?_⟩
    rintro _ ⟨⟩
    exact .circles h.head (h.isChain_concat hstep) h.nodup hrepeated
  | case2 seen keyword target hstep hknown hnew ih =>
    obtain ⟨hok, herror⟩ := ih (h.step hstep hnew) hknown
    refine ⟨fun hends => ?_, herror⟩
    obtain ⟨name, policy, hreach, hname⟩ := hok hends
    exact ⟨name, policy, ReflTransGen.head hstep hreach, hname⟩
  | case3 seen keyword target hstep hunknown =>
    refine ⟨nofun, ?_⟩
    rintro _ ⟨⟩
    exact .leaves h.reaches hstep hunknown
  | case4 seen keyword hown =>
    refine ⟨fun _ => ?_, nofun⟩
    obtain ⟨policy, hget⟩ := Keyed.exists_get?_of_mem_keys hkey
    refine ⟨keyword, policy, .refl, hget, ?_⟩
    cases policy with
    | layout l => rfl
    | unset => rfl
    | aliasOf target => exact absurd hget (hown target)

/-- Along a chain that does not come back the walk goes on from each key to the next. -/
theorem Reaches.exists_checkChain_eq (h : T.Reaches keyword name) (hname : name ∈ T.keys)
    (hend : ¬ T.Revisits keyword) {seen : List Text} (hseen : ∀ k ∈ seen, T.Reaches k keyword) :
    ∃ seen', T.checkChain seen keyword = T.checkChain seen' name := by
  induction h using ReflTransGen.head_induction_on generalizing seen with
  | refl => exact ⟨seen, rfl⟩
  | @head keyword next hstep hrest ih =>
    have hknown : next ∈ T.keys := by
      rcases hrest.cases_head with rfl | ⟨_, hnext, -⟩
      · exact hname
      · exact AliasStep.mem_keys hnext
    have hnew : next ∉ seen := by
      intro hmem
      exact hend ⟨next, .single hstep, TransGen.tail' (hseen next hmem) hstep⟩
    have hseen' : ∀ k ∈ seen ++ [next], T.Reaches k next := by
      intro k hk
      rcases List.mem_append.mp hk with hk | hk
      · exact (hseen k hk).tail hstep
      · rw [List.mem_singleton.mp hk]
        exact .refl
    obtain ⟨seen', hwalk⟩ := ih (fun hback => hend (hback.of_aliasStep hstep)) hseen'
    refine ⟨seen', ?_⟩
    rw [RuleTable.checkChain, hstep]
    simp only [hknown, hnew, dite_true, dite_false]
    exact hwalk

theorem reaches_of_mem_start : ∀ k ∈ [key], T.Reaches k key := by
  intro k hk
  rw [List.mem_singleton.mp hk]
  exact .refl

theorem EndsInside.checkChain (h : T.EndsInside key) : T.checkChain [key] key = .ok () := by
  have hend := h.not_revisits
  obtain ⟨name, policy, hreach, hget, hlayout⟩ := h
  have hname : name ∈ T.keys := List.mem_map.mpr ⟨_, Keyed.mem_of_find_eq_some hget, rfl⟩
  obtain ⟨seen', hwalk⟩ := hreach.exists_checkChain_eq hname hend reaches_of_mem_start
  rw [hwalk, RuleTable.checkChain, hget]
  cases policy with
  | layout l => rfl
  | unset => rfl
  | aliasOf target => simp [Policy.layout?] at hlayout

/-- The walk follows a circle up to the first keyword that is met again. -/
theorem checkChain_of_isChain {rest : List Text}
    (hchain : (keyword :: (rest ++ [target])).IsChain T.AliasStep) (hknown : target ∈ T.keys)
    (hnodup : (seen ++ rest).Nodup) (hrepeated : target ∈ seen ++ rest) :
    T.checkChain seen keyword = .error (.cycle (seen ++ rest ++ [target])) := by
  induction rest generalizing seen keyword with
  | nil =>
    rw [List.append_nil] at hrepeated ⊢
    have hstep : T.AliasStep keyword target := List.isChain_pair.mp hchain
    rw [RuleTable.checkChain, hstep]
    simp only [hknown, hrepeated, dite_true]
  | cons next rest ih =>
    obtain ⟨hstep, hchain⟩ := List.isChain_cons_cons.mp hchain
    have hmem : next ∈ T.keys := by
      obtain ⟨second, more, hmore⟩ :=
        List.exists_cons_of_ne_nil (show rest ++ [target] ≠ [] by simp)
      rw [List.append_eq, hmore] at hchain
      exact AliasStep.mem_keys (List.isChain_cons_cons.mp hchain).1
    have hnew : next ∉ seen := fun hmem =>
      (List.nodup_append.mp hnodup).2.2 next hmem next (by simp) rfl
    have hmove : seen ++ next :: rest = seen ++ [next] ++ rest := by simp
    rw [hmove] at hnodup hrepeated ⊢
    rw [RuleTable.checkChain, hstep]
    simp only [hmem, hnew, dite_true, dite_false]
    exact ih hchain hnodup hrepeated

/-! ## Outcomes -/

theorem AliasFault.checkChain (h : T.AliasFault key e) : T.checkChain [key] key = .error e := by
  cases h with
  | @leaves last target reaches step unknown =>
    have hend : ¬ T.Revisits key := Leaves.not_revisits ⟨target, reaches.tail step, unknown⟩
    obtain ⟨seen', hwalk⟩ := reaches.exists_checkChain_eq step.mem_keys hend reaches_of_mem_start
    rw [hwalk, RuleTable.checkChain, step]
    simp only [unknown, dite_false]
  | @circles path target head chain nodup repeated =>
    obtain ⟨rest, rfl⟩ := List.head?_eq_some_iff.mp head
    -- the keyword that is met again is not the last of the chain, so it is an alias
    have hknown : target ∈ T.keys := by
      obtain ⟨x, y, hxy⟩ := List.append_of_mem repeated
      obtain ⟨second, more, hmore⟩ := List.exists_cons_of_ne_nil (show y ++ [target] ≠ [] by simp)
      rw [hxy, List.append_assoc, List.cons_append, hmore,
        List.isChain_append_cons_cons] at chain
      exact AliasStep.mem_keys chain.2.1
    rw [← List.singleton_append] at nodup repeated ⊢
    exact checkChain_of_isChain chain hknown nodup repeated

theorem checkChain_eq_ok_iff (hkey : key ∈ T.keys) :
    T.checkChain [key] key = .ok () ↔ T.EndsInside key :=
  ⟨((walked_start T key).checkChain hkey).1, EndsInside.checkChain⟩

theorem checkChain_eq_error_iff (hkey : key ∈ T.keys) :
    T.checkChain [key] key = .error e ↔ T.AliasFault key e :=
  ⟨((walked_start T key).checkChain hkey).2 e, AliasFault.checkChain⟩

/-- The chain of a key ends inside the table unless it leaves it or comes back. -/
theorem endsInside_iff (hkey : key ∈ T.keys) :
    T.EndsInside key ↔ ¬ (T.Leaves key ∨ T.Revisits key) := by
  constructor
  · rintro h (⟨name, hreach, hunknown⟩ | hrevisits)
    · -- the unknown name has a key in front of it, at which the walk would stop
      rcases hreach.cases_tail with rfl | ⟨last, hlast, hstep⟩
      · exact hunknown hkey
      · have hfault := (AliasFault.leaves hlast hstep hunknown).checkChain
        rw [h.checkChain] at hfault
        cases hfault
    · exact h.not_revisits hrevisits
  · intro h
    rw [not_or, ← endless_iff_revisits] at h
    obtain ⟨name, l, hreach, hl⟩ := exists_end_of_not_endless h.2
    have hname : name ∈ T.keys := by
      by_contra hunknown
      exact h.1 ⟨name, hreach, hunknown⟩
    obtain ⟨policy, hget⟩ := Keyed.exists_get?_of_mem_keys hname
    rw [policyOf, hget, Option.getD_some] at hl
    exact ⟨name, policy, hreach, hget, by rw [hl]; rfl⟩

theorem check_eq_ok_iff : T.check = .ok () ↔ ∀ key ∈ T.keys, T.EndsInside key := by
  rw [check, forM_eq_ok_iff]
  exact forall₂_congr fun key hkey => checkChain_eq_ok_iff hkey

theorem check_eq_error_iff :
    T.check = .error e ↔ ∃ earlier key later, T.keys = earlier ++ key :: later ∧
      (∀ k ∈ earlier, T.EndsInside k) ∧ T.AliasFault key e := by
  rw [check, forM_eq_error_iff]
  refine exists₃_congr fun earlier key later => and_congr_right fun hkeys => ?_
  have hmem : ∀ k ∈ earlier, k ∈ T.keys := fun k hk => by simp [hkeys, hk]
  exact and_congr (forall₂_congr fun k hk => checkChain_eq_ok_iff (hmem k hk))
    (checkChain_eq_error_iff (by simp [hkeys]))

/-! ## Building a table -/

section

variable {rules : List (Text × Policy)}

theorem build_eq_error_iff : build rules true = .error e ↔ check (Keyed.ofList rules) = .error e := by
  unfold build
  cases h : check (Keyed.ofList rules) <;> simp [h, bind, Except.bind, pure, Except.pure]

theorem build_eq_ok_iff {built : Logged RuleTable} :
    build rules true = .ok built ↔ check (Keyed.ofList rules) = .ok () ∧
      ⟨Keyed.ofList rules, [.tableBuilt (Keyed.ofList rules).size]⟩ = built := by
  unfold build
  cases h : check (Keyed.ofList rules) <;> simp [h, bind, Except.bind, pure, Except.pure]

theorem exists_build_eq_error_iff :
    (∃ e, build rules true = .error e) ↔ check (Keyed.ofList rules) ≠ .ok () := by
  simp only [build_eq_error_iff]
  cases check (Keyed.ofList rules) <;> simp

end

/-- In a table without faults every word is resolved quietly. -/
theorem notices_resolve_of_endsInside (h : ∀ key ∈ T.keys, T.EndsInside key)
    (word : Option Text) : (T.resolve word).notices = [] := by
  cases word with
  | none => rfl
  | some keyword =>
    by_contra hne
    have hendless := notices_resolve_ne_nil_iff.mp hne
    obtain ⟨target, hstep⟩ := hendless keyword .refl
    exact (h keyword hstep.mem_keys).not_revisits (endless_iff_revisits.mp hendless)

/-- A checked table is refused exactly if the alias chain of some key leaves the table or comes
back. The error is about the first such key. If its chain leaves the table, the error names the
last key on it and the unknown name; otherwise it gives the path from the key up to and including
the first keyword that is met again. In a table that is not refused, resolving reports nothing, and
finds for each key the policy at which its chain ends. -/
theorem build_checked (rules : List (Text × Policy)) :
    let T : RuleTable := Keyed.ofList rules
    ((∃ e, build rules true = .error e) ↔ ∃ key ∈ T.keys, T.Leaves key ∨ T.Revisits key) ∧
      (∀ e, build rules true = .error e ↔
        ∃ earlier key later, T.keys = earlier ++ key :: later ∧
          (∀ k ∈ earlier, ¬ (T.Leaves k ∨ T.Revisits k)) ∧ T.AliasFault key e) ∧
      ∀ built, build rules true = .ok built →
        built = ⟨T, [.tableBuilt T.size]⟩ ∧ (∀ word, (T.resolve word).notices = []) ∧
          ∀ key ∈ T.keys, ∃ name policy l, T.Reaches key name ∧ T.get? name = some policy ∧
            policy.layout? = some l ∧ T.resolve (some key) = pure l := by
  intro T
  refine ⟨?_, fun e => ?_, fun built hbuilt => ?_⟩
  · rw [exists_build_eq_error_iff, ne_eq, check_eq_ok_iff]
    push Not
    exact exists_congr fun key => and_congr_right fun hkey => by rw [endsInside_iff hkey, not_not]
  · rw [build_eq_error_iff, check_eq_error_iff]
    refine exists₃_congr fun earlier key later => and_congr_right fun hkeys => ?_
    have hmem : ∀ k ∈ earlier, k ∈ T.keys := fun k hk => by simp [T, hkeys, hk]
    exact and_congr_left' (forall₂_congr fun k hk => endsInside_iff (hmem k hk))
  · obtain ⟨hcheck, rfl⟩ := build_eq_ok_iff.mp hbuilt
    have hends := check_eq_ok_iff.mp hcheck
    refine ⟨rfl, notices_resolve_of_endsInside hends, fun key hkey => ?_⟩
    obtain ⟨name, policy, hreach, hget, hlayout⟩ := hends key hkey
    obtain ⟨l, hl⟩ := Option.isSome_iff_exists.mp hlayout
    have hpolicy : (T.policyOf name).layout? = some l := by rw [policyOf, hget]; exact hl
    exact ⟨name, policy, l, hreach, hget, hl, hreach.resolve_eq hpolicy⟩

/-- A chain that runs into a circle its first key is not on, behind a key whose chain ends; and a
table in which all chains end. -/
theorem build_checked_circle :
    let a : Text := "a".toList
    let b : Text := "b".toList
    let c : Text := "c".toList
    let d : Text := "d".toList
    let circling : List (Text × Policy) :=
      [(d, .unset), (a, .aliasOf b), (b, .aliasOf c), (c, .aliasOf b)]
    let ending : List (Text × Policy) := [(a, .aliasOf d), (d, .layout block)]
    let T : RuleTable := Keyed.ofList ending
    build circling true = .error (.cycle [a, b, c, b]) ∧
      build ending true = .ok ⟨T, [.tableBuilt 2]⟩ ∧ (T.resolve (some a)).notices = [] := by
  intro a b c d circling ending T
  have hd : ¬ (Leaves (Keyed.ofList circling) d ∨ Revisits (Keyed.ofList circling) d) :=
    (endsInside_iff (by decide)).mp ⟨d, .unset, .refl, by decide, rfl⟩
  have hfault : AliasFault (Keyed.ofList circling) a (.cycle [a, b, c, b]) := by
    refine @AliasFault.circles _ _ [a, b, c] b rfl ?_ (by decide) (by decide)
    simp only [List.cons_append, List.nil_append, List.isChain_cons_cons, AliasStep]
    exact ⟨by decide, by decide, by decide, .singleton b⟩
  have hends : ∀ key ∈ T.keys, T.EndsInside key := by
    have hkeys : T.keys = [a, d] := by decide
    rw [hkeys, List.forall_mem_cons, List.forall_mem_singleton]
    exact ⟨⟨d, .layout block, .single (show T.get? a = some (.aliasOf d) by decide), by decide, rfl⟩,
      ⟨d, .layout block, .refl, by decide, rfl⟩⟩
  have hbuilt : build ending true = .ok ⟨T, [.tableBuilt 2]⟩ :=
    build_eq_ok_iff.mpr ⟨check_eq_ok_iff.mpr hends, rfl⟩
  obtain ⟨-, herror, -⟩ := build_checked circling
  obtain ⟨-, -, haccepted⟩ := build_checked ending
  exact ⟨(herror _).mpr ⟨[d], a, [b, c], by decide, by simpa using hd, hfault⟩, hbuilt,
    (haccepted _ hbuilt).2.1 (some a)⟩

end RuleTable

end FlowEdit
