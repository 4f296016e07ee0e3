import Mathlib.Order.Bounds.Defs
import FlowEdit.Proofs.LineStart

/-!
The depth of a position and the form it is in, from the parens alone. The reader keeps a stack of
forms and drops a stray `)`. What it has open is counted here without a stack: the depth is the
largest surplus of opening parens over all ends of the sequence of parens, and the innermost form
begins at the last `(` behind which the closing parens never prevail. Main statement:
`contextAt_form_of_parens`.
-/

namespace FlowEdit

open Text

/-! ## Parens -/

/-- A paren in code and its offset. -/
structure Paren where
  offset : Nat
  opens : Bool
  deriving DecidableEq, Repr

/-- The paren that a character is, if it is one and stands in code. -/
def parenAt (mode : Mode) (offset : Nat) (c : Char) : List Paren :=
  if mode = .code ∧ c = '(' then [⟨offset, true⟩]
  else if mode = .code ∧ c = ')' then [⟨offset, false⟩]
  else []

/-- The parens outside strings and comments of a text that begins at `offset` in the given mode. -/
def parensFrom (mode : Mode) (offset : Nat) : Text → List Paren
  | [] => []
  | c :: t => parenAt mode offset c ++ parensFrom (mode.step c) (offset + 1) t

/-- How many more parens open than close. -/
def balance (ps : List Paren) : Int := ps.countP (·.opens) - ps.countP (!·.opens)

@[simp]
theorem balance_nil : balance [] = 0 := rfl

@[simp]
theorem balance_append (ps qs : List Paren) : balance (ps ++ qs) = balance ps + balance qs := by
  simp only [balance, List.countP_append]
  omega

@[simp]
theorem balance_cons_open (k : Nat) (ps : List Paren) :
    balance (⟨k, true⟩ :: ps) = balance ps + 1 := by
  rw [balance, balance, List.countP_cons_of_pos rfl, List.countP_cons_of_neg (by simp)]
  omega

@[simp]
theorem balance_cons_close (k : Nat) (ps : List Paren) :
    balance (⟨k, false⟩ :: ps) = balance ps - 1 := by
  rw [balance, balance, List.countP_cons_of_neg (by simp), List.countP_cons_of_pos rfl]
  omega

/-- No beginning of the sequence has more closing parens than opening ones. -/
def NeverBelow (ps : List Paren) : Prop := ∀ q, q <+: ps → 0 ≤ balance q

/-- No end of the sequence has more opening parens than closing ones: nothing is open behind it. -/
def NothingOpen (ps : List Paren) : Prop := ∀ s, s <:+ ps → balance s ≤ 0

/-- Every paren has its partner. -/
structure Balanced (ps : List Paren) : Prop where
  balance_eq : balance ps = 0
  neverBelow : NeverBelow ps

/-! ## Balanced sequences -/

/-- An end of two sequences in a row is one of the second, or the second behind one of the first. -/
theorem suffix_append_cases {s ps qs : List Paren} (h : s <:+ ps ++ qs) :
    s <:+ qs ∨ ∃ a, a <:+ ps ∧ s = a ++ qs := by
  obtain ⟨q, hq⟩ := h
  rcases List.append_eq_append_iff.mp hq with ⟨a, rfl, rfl⟩ | ⟨c, rfl, rfl⟩
  · exact .inr ⟨a, List.suffix_append q a, rfl⟩
  · exact .inl (List.suffix_append c s)

theorem prefix_append_cases {q ps qs : List Paren} (h : q <+: ps ++ qs) :
    q <+: ps ∨ ∃ b, b <+: qs ∧ q = ps ++ b := by
  obtain ⟨s, hs⟩ := h
  rcases List.append_eq_append_iff.mp hs with ⟨a, rfl, rfl⟩ | ⟨c, rfl, rfl⟩
  · exact .inl (List.prefix_append q a)
  · exact .inr ⟨c, List.prefix_append c s, rfl⟩

theorem NothingOpen.append {ps qs : List Paren} (hp : NothingOpen ps) (hq : NothingOpen qs) :
    NothingOpen (ps ++ qs) := by
  intro s hs
  rcases suffix_append_cases hs with h | ⟨a, h, rfl⟩
  · exact hq s h
  · have ha := hp a h
    have hall := hq qs List.suffix_rfl
    rw [balance_append]
    omega

theorem nothingOpen_nil : NothingOpen [] := by
  intro s hs
  rw [List.suffix_nil.mp hs]
  exact Int.le_refl 0

theorem nothingOpen_close (k : Nat) : NothingOpen [⟨k, false⟩] := by
  intro s hs
  rcases List.suffix_cons_iff.mp hs with rfl | h
  · simp
  · exact nothingOpen_nil s h

namespace Balanced

theorem nil : Balanced [] := by
  refine ⟨rfl, fun q hq => ?_⟩
  rw [List.prefix_nil.mp hq]
  exact Int.le_refl 0

theorem append {ps qs : List Paren} (hp : Balanced ps) (hq : Balanced qs) :
    Balanced (ps ++ qs) := by
  refine ⟨by rw [balance_append, hp.balance_eq, hq.balance_eq]; rfl, fun q h => ?_⟩
  rcases prefix_append_cases h with hleft | ⟨b, hright, rfl⟩
  · exact hp.neverBelow q hleft
  · have hb := hq.neverBelow b hright
    rw [balance_append, hp.balance_eq]
    omega

theorem wrap {ps : List Paren} (h : Balanced ps) (j k : Nat) :
    Balanced (⟨j, true⟩ :: (ps ++ [⟨k, false⟩])) := by
  have hzero := h.balance_eq
  refine ⟨by simp [hzero], fun q hq => ?_⟩
  rcases List.prefix_cons_iff.mp hq with rfl | ⟨b, rfl, hb⟩
  · simp
  · rw [balance_cons_open]
    rcases List.prefix_concat_iff.mp hb with rfl | hin
    · simp [hzero]
    · have hbelow := h.neverBelow b hin
      omega

theorem nothingOpen {ps : List Paren} (h : Balanced ps) : NothingOpen ps := by
  rintro s ⟨q, rfl⟩
  have hzero := h.balance_eq
  have hq := h.neverBelow q (List.prefix_append q s)
  rw [balance_append] at hzero
  omega

end Balanced

/-! ## The parens that stay open -/

/-- The `(` at `k` is not closed: in what follows it the closing parens never prevail. Behind it are
the parens `after`. -/
def StaysOpen (ps : List Paren) (k : Nat) (after : List Paren) : Prop :=
  ∃ before, ps = before ++ ⟨k, true⟩ :: after ∧ NeverBelow after

/-- The `(` at `k` is the last one that is not closed. -/
def LastOpen (ps : List Paren) (k : Nat) : Prop :=
  ∃ after, StaysOpen ps k after ∧
    ∀ j after', StaysOpen ps j after' → after.length ≤ after'.length

/-- Where nothing is open, every `(` is closed. -/
theorem NothingOpen.not_staysOpen {ps : List Paren} (h : NothingOpen ps) (k : Nat)
    (after : List Paren) : ¬ StaysOpen ps k after := by
  rintro ⟨before, rfl, hafter⟩
  have hend := h (⟨k, true⟩ :: after) (List.suffix_append before _)
  have hall := hafter after List.prefix_rfl
  rw [balance_cons_open] at hend
  omega

/-- What stays open behind a part with nothing open is what stays open of the rest. -/
theorem NothingOpen.staysOpen_append_iff {ps qs : List Paren} (h : NothingOpen ps) {k : Nat}
    {after : List Paren} : StaysOpen (ps ++ qs) k after ↔ StaysOpen qs k after := by
  constructor
  · rintro ⟨before, heq, hafter⟩
    rcases List.append_eq_append_iff.mp heq with ⟨a, rfl, hqs⟩ | ⟨c, rfl, hqs⟩
    · exact ⟨a, hqs, hafter⟩
    · cases c with
      | nil => exact ⟨[], by simpa using hqs.symm, hafter⟩
      | cons p c =>
        obtain ⟨rfl, rfl⟩ := List.cons.inj hqs
        have hopen : StaysOpen (before ++ ⟨k, true⟩ :: c) k c :=
          ⟨before, rfl, fun q hq => hafter q (hq.trans (List.prefix_append c qs))⟩
        exact absurd hopen (h.not_staysOpen k c)
  · rintro ⟨before, rfl, hafter⟩
    exact ⟨ps ++ before, by simp, hafter⟩

theorem NothingOpen.lastOpen_append_iff {ps qs : List Paren} (h : NothingOpen ps) {k : Nat} :
    LastOpen (ps ++ qs) k ↔ LastOpen qs k := by
  simp only [LastOpen, h.staysOpen_append_iff]

theorem LastOpen.unique {ps : List Paren} {j k : Nat} (hj : LastOpen ps j) (hk : LastOpen ps k) :
    j = k := by
  obtain ⟨x, hx, hxmin⟩ := hj
  obtain ⟨y, hy, hymin⟩ := hk
  have hlen : x.length = y.length := Nat.le_antisymm (hxmin k y hy) (hymin j x hx)
  obtain ⟨a, rfl, -⟩ := hx
  obtain ⟨b, heq, -⟩ := hy
  have hcons := (List.append_inj' heq (by simp [hlen])).2
  simpa using (List.cons.inj hcons).1

/-- The surpluses over all ends of a sequence. -/
def surpluses (ps : List Paren) : Set Int := {b | ∃ s, s <:+ ps ∧ b = balance s}

theorem NothingOpen.isGreatest_surpluses {ps qs : List Paren} (h : NothingOpen ps) {b : Int}
    (hb : IsGreatest (surpluses (ps ++ qs)) b) : IsGreatest (surpluses qs) b := by
  obtain ⟨⟨s, hs, rfl⟩, hmax⟩ := hb
  have hbound : ∀ s, s <:+ qs → balance s ∈ surpluses (ps ++ qs) :=
    fun s hs => ⟨s, hs.trans (List.suffix_append ps qs), rfl⟩
  refine ⟨?_, ?_⟩
  · rcases suffix_append_cases hs with hright | ⟨a, ha, rfl⟩
    · exact ⟨s, hright, rfl⟩
    · refine ⟨qs, List.suffix_rfl, ?_⟩
      have hle := hmax (hbound qs List.suffix_rfl)
      have ha := h a ha
      rw [balance_append] at hle ⊢
      omega
  · rintro b ⟨s, hs, rfl⟩
    exact hmax (hbound s hs)

/-! ## The stack of open forms -/

/-- The offsets of the parens that are open behind a sequence, the last one first. Between two of
them, and behind the last, every paren has its partner; in front of the first nothing is open. -/
inductive Nested : List Nat → List Paren → Prop
  | outside {ps : List Paren} (h : NothingOpen ps) : Nested [] ps
  | inside {ks : List Nat} {ps inner : List Paren} (outer : Nested ks ps) (k : Nat)
      (h : Balanced inner) : Nested (k :: ks) (ps ++ ⟨k, true⟩ :: inner)

namespace Nested

variable {ks : List Nat} {ps : List Paren}

theorem append_balanced (h : Nested ks ps) {qs : List Paren} (hq : Balanced qs) :
    Nested ks (ps ++ qs) := by
  cases h with
  | outside h => exact outside (h.append hq.nothingOpen)
  | inside outer k h =>
    rw [List.append_assoc, List.cons_append]
    exact inside outer k (h.append hq)

theorem opening (h : Nested ks ps) (k : Nat) : Nested (k :: ks) (ps ++ [⟨k, true⟩]) :=
  inside h k Balanced.nil

/-- A `)` closes the innermost form, or none. -/
theorem closing (h : Nested ks ps) (k : Nat) : Nested ks.tail (ps ++ [⟨k, false⟩]) := by
  cases h with
  | outside h => exact outside (h.append (nothingOpen_close k))
  | inside outer j h =>
    rw [List.append_assoc, List.cons_append]
    exact outer.append_balanced (h.wrap j k)

/-- As many forms are open as the largest surplus says. -/
theorem isGreatest (h : Nested ks ps) :
    IsGreatest (surpluses ps) ks.length := by
  induction h with
  | outside h =>
    refine ⟨⟨[], List.nil_suffix, rfl⟩, ?_⟩
    rintro b ⟨s, hs, rfl⟩
    exact h s hs
  | @inside ks ps inner _ k h ih =>
    obtain ⟨⟨s, hs, hlen⟩, hmax⟩ := ih
    have hzero := h.balance_eq
    constructor
    · refine ⟨s ++ ⟨k, true⟩ :: inner, ?_, ?_⟩
      · obtain ⟨a, rfl⟩ := hs
        exact ⟨a, by simp⟩
      · rw [balance_append, balance_cons_open, hzero, ← hlen, List.length_cons]
        omega
    · rintro b ⟨s, hs, rfl⟩
      rw [List.length_cons]
      rcases suffix_append_cases hs with hs | ⟨a, ha, rfl⟩
      · rcases List.suffix_cons_iff.mp hs with rfl | hs
        · rw [balance_cons_open, hzero]
          omega
        · have := h.nothingOpen s hs
          omega
      · have : balance a ≤ ks.length := hmax ⟨a, ha, rfl⟩
        rw [balance_append, balance_cons_open, hzero]
        omega

/-- The innermost open form begins at the last `(` that is not closed. -/
theorem lastOpen_iff (h : Nested ks ps) (k : Nat) : LastOpen ps k ↔ ks.head? = some k := by
  cases h with
  | outside h =>
    refine ⟨?_, by simp⟩
    rintro ⟨after, hopen, -⟩
    exact absurd hopen (h.not_staysOpen k after)
  | @inside ks ps inner _ j h =>
    have hlast : LastOpen (ps ++ ⟨j, true⟩ :: inner) j := by
      refine ⟨inner, ⟨ps, rfl, h.neverBelow⟩, ?_⟩
      rintro i after ⟨before, heq, hafter⟩
      by_contra hlt
      -- a later one would be among the parens of `inner`, which all have their partners
      have hinner : inner <:+ ps ++ ⟨j, true⟩ :: inner := ⟨ps ++ [⟨j, true⟩], by simp⟩
      have hlater : ⟨i, true⟩ :: after <:+ ps ++ ⟨j, true⟩ :: inner := ⟨before, heq.symm⟩
      obtain ⟨b, hb⟩ := List.suffix_of_suffix_length_le hlater hinner
        (by rw [List.length_cons]; omega)
      exact h.nothingOpen.not_staysOpen i after ⟨b, hb.symm, hafter⟩
    constructor
    · intro hk
      rw [hk.unique hlast]
      rfl
    · intro hk
      obtain rfl : j = k := by simpa using hk
      exact hlast

theorem mem (h : Nested ks ps) {k : Nat} (hk : k ∈ ks) : ⟨k, true⟩ ∈ ps := by
  induction h with
  | outside => simp at hk
  | inside outer j _ ih =>
    rcases List.mem_cons.mp hk with rfl | hk
    · simp
    · simp [ih hk]

end Nested

/-- An opening paren is a `(` that is read in code. -/
theorem exists_of_mem_parensFrom {mode : Mode} {offset k : Nat} {t : Text}
    (h : ⟨k, true⟩ ∈ parensFrom mode offset t) :
    ∃ x y, t = x ++ '(' :: y ∧ k = offset + x.length ∧ mode.run x = .code := by
  induction t generalizing mode offset with
  | nil => simp [parensFrom] at h
  | cons c t ih =>
    rcases List.mem_append.mp h with h | h
    · obtain ⟨⟨rfl, rfl⟩, rfl⟩ : (mode = .code ∧ c = '(') ∧ k = offset := by
        unfold parenAt at h
        split at h
        · simp_all
        · split at h <;> simp at h
      exact ⟨[], t, rfl, rfl, rfl⟩
    · obtain ⟨x, y, rfl, rfl, hcode⟩ := ih h
      exact ⟨c :: x, y, rfl, by simp [Nat.add_assoc, Nat.add_comm 1], hcode⟩

/-! ## Readers -/

theorem Frame.map_start_addInnermost (child : Nat) (frames : List Frame) :
    (Frame.addInnermost child frames).map Frame.start = frames.map Frame.start := by
  cases frames <;> rfl

theorem Frame.map_start_close (frames : List Frame) :
    (Frame.close frames).map Frame.start = (frames.map Frame.start).tail := by
  cases frames with
  | nil => rfl
  | cons f fs => exact Frame.map_start_addInnermost f.start fs

namespace Reader

/-- Where the open forms begin, the innermost one first. -/
def starts (r : Reader) : List Nat := r.frames.map Frame.start

theorem starts_finishToken (r : Reader) : r.finishToken.starts = r.starts := by
  unfold finishToken
  cases r.token with
  | none => rfl
  | some k => exact Frame.map_start_addInnermost k r.frames

theorem starts_settle (r : Reader) (after : Text) : (r.settle after).starts = r.starts := by
  unfold settle
  split
  · exact starts_finishToken r
  · rfl

/-- Only parens in code open and close forms. -/
theorem starts_step (r : Reader) (c : Char) :
    (r.step c).starts =
      if r.mode = .code ∧ c = '(' then r.offset :: r.starts
      else if r.mode = .code ∧ c = ')' then r.starts.tail
      else r.starts := by
  cases hm : r.mode with
  | comment => simp [step, hm, starts]
  | escape => simp [step, hm, starts]
  | string =>
    have hread : (r.readString c).starts = r.starts := by
      unfold readString
      split
      · exact starts_finishToken r
      · rfl
    simpa [step, hm, starts] using hread
  | code =>
    have hread : (r.readCode c).starts =
        if c = '(' then r.offset :: r.starts else if c = ')' then r.starts.tail else r.starts := by
      unfold readCode
      by_cases hatom : isAtomChar c = true
      · have hopen : c ≠ '(' := by rintro rfl; exact absurd hatom (by decide)
        have hclose : c ≠ ')' := by rintro rfl; exact absurd hatom (by decide)
        simp [hatom, hopen, hclose, starts]
      · simp only [hatom, Bool.false_eq_true, if_false]
        rw [← starts_finishToken r, offset_finishToken]
        split
        · rfl
        · split
          · exact Frame.map_start_close _
          · split <;> rfl
    simpa [step, hm, starts] using hread

theorem nested_step {r : Reader} {ps : List Paren} (h : Nested r.starts ps) (c : Char) :
    Nested (r.step c).starts (ps ++ parenAt r.mode r.offset c) := by
  rw [starts_step, parenAt]
  split
  · exact h.opening r.offset
  · split
    · exact h.closing r.offset
    · rwa [List.append_nil]

theorem nested_run {r : Reader} {ps : List Paren} (h : Nested r.starts ps) (t : Text) :
    Nested (r.run t).starts (ps ++ parensFrom r.mode r.offset t) := by
  induction t generalizing r ps with
  | nil =>
    rw [parensFrom, List.append_nil]
    exact h
  | cons c t ih =>
    have hrest := ih (nested_step h c)
    rw [List.append_assoc] at hrest
    exact hrest

/-- The forms that are open before an offset, by the parens from the start of the reading on. -/
theorem nested_upTo (start : Nat) (before after : Text) :
    Nested (upTo start before after).starts (parensFrom .code start (before.drop start)) := by
  unfold upTo
  rw [starts_settle]
  exact nested_run (r := { offset := start }) (.outside nothingOpen_nil) _

/-- A form that is open has its `(` where the reading was in code. -/
theorem exists_of_mem_starts {start : Nat} {before after : Text} {k : Nat}
    (h : k ∈ (upTo start before after).starts) :
    ∃ x y, before.drop start = x ++ '(' :: y ∧ k = start + x.length ∧ Mode.code.run x = .code :=
  exists_of_mem_parensFrom ((nested_upTo start before after).mem h)

end Reader

/-! ## Contexts -/

/-- How many forms a position is in. -/
def Context.depth (c : Context) : Nat := (c.form.map OpenForm.depth).getD 0

theorem Context.depth_ofReader (t : Text) (r : Reader) :
    (Context.ofReader t r).depth = r.starts.length := by
  unfold Context.depth Context.ofReader Reader.starts
  cases r.frames <;> simp

theorem Context.start_ofReader (t : Text) (r : Reader) :
    (Context.ofReader t r).form.map OpenForm.start = r.starts.head? := by
  unfold Context.ofReader Reader.starts
  cases r.frames <;> simp

theorem anchorOf_clamp (t : Text) (pos : Int) :
    anchorOf t (t.clamp pos) = anchor (t.take (t.clamp pos)) := by
  have hle := clamp_le t pos
  unfold anchorOf cut
  rw [if_pos (by omega), Int.toNat_natCast, Nat.min_eq_left hle]

/-- The depth of a position and the start of the form it is in, from the parens between the anchor
and the position that are outside strings and comments. The depth is the largest surplus of opening
parens over all ends of the sequence. The form starts at the last `(` that is not closed, and there
is no form exactly if the depth is 0. A part of the sequence behind which nothing is open, such as
stray closing parens, does not count. -/
theorem contextAt_form_of_parens (t : Text) (pos : Int) :
    let p := t.clamp pos
    let r := anchorOf t p
    let ps := parensFrom .code r ((t.take p).drop r)
    let context := contextAt t pos
    IsGreatest (surpluses ps) context.depth ∧
      (∀ k, context.form.map OpenForm.start = some k ↔ LastOpen ps k) ∧
      (context.form = none ↔ context.depth = 0) ∧
      ∀ xs ys, ps = xs ++ ys → NothingOpen xs →
        IsGreatest (surpluses ys) context.depth ∧
          ∀ k, context.form.map OpenForm.start = some k ↔ LastOpen ys k := by
  intro p r ps context
  have hnested : Nested (Reader.upTo (anchor (t.take p)) (t.take p) (t.drop p)).starts ps := by
    unfold ps r
    rw [anchorOf_clamp]
    exact Reader.nested_upTo _ _ _
  have hdepth : context.depth = _ := Context.depth_ofReader _ _
  have hstart : context.form.map OpenForm.start = _ := Context.start_ofReader _ _
  generalize (Reader.upTo (anchor (t.take p)) (t.take p) (t.drop p)).starts = ks
    at hnested hdepth hstart
  refine ⟨hdepth ▸ hnested.isGreatest, fun k => by rw [hstart, hnested.lastOpen_iff], ?_, ?_⟩
  · rw [← Option.map_eq_none_iff, hstart, hdepth, List.head?_eq_none_iff, List.length_eq_zero_iff]
  · intro xs ys hps hxs
    rw [hps] at hnested
    refine ⟨hdepth ▸ hxs.isGreatest_surpluses hnested.isGreatest, fun k => ?_⟩
    rw [hstart, ← hnested.lastOpen_iff, hxs.lastOpen_append_iff]

theorem contextAt_form_behind_stray_parens :
    let t : Text := ") ) (f \"(\" ; (\n (g x".toList
    let stray : List Paren := [⟨0, false⟩, ⟨2, false⟩]
    let rest : List Paren := [⟨4, true⟩, ⟨16, true⟩]
    parensFrom .code 0 t = stray ++ rest ∧ (contextAt t 20).form.map OpenForm.start = some 16 ∧
      IsGreatest (surpluses rest) (contextAt t 20).depth ∧ LastOpen rest 16 := by
  intro t stray rest
  have hstray : NothingOpen stray := (nothingOpen_close 0).append (nothingOpen_close 2)
  have hstart : (contextAt t 20).form.map OpenForm.start = some 16 := by decide
  obtain ⟨hdepth, hlast⟩ :=
    (contextAt_form_of_parens t 20).2.2.2 stray rest (by decide) hstray
  exact ⟨by decide, hstart, hdepth, (hlast 16).mp hstart⟩

end FlowEdit
