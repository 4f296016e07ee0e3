import FlowEdit.Proofs.StringBody

/-!
Trees laid out as text. A forest is given with a layout of it: each tree has in front of it the gap
that is written there, and behind the last one there is a gap too. The pieces carry what makes them
well formed, so a forest has one text (`render`), and its trees stand at known offsets: `children`
and `outerLists` give the trees in a row, `lists` and `strings` those at any depth.
-/

namespace FlowEdit

open Text

/-! ## Pieces -/

/-- A word that a tree can consist of. -/
structure Atom where
  text : Text
  ne_nil : text ≠ [] := by decide
  isAtomChar_text : text.all isAtomChar = true := by decide

/-- What a string literal has between its quotes. -/
structure StringBody where
  text : Text
  isStringBody_text : isStringBody false text = true := by decide

/-- Blanks, and comments from a semicolon up to and including a newline. The text begins inside a
comment if `inComment`. -/
def isGap (inComment : Bool) : Text → Bool
  | [] => !inComment
  | c :: t =>
    if inComment then isGap (c != '\n') t
    else if c = ';' then isGap true t
    else isBlank c && isGap false t

/-- What stands between trees. -/
structure Gap where
  text : Text
  isGap_text : isGap false text = true := by decide

/-! ## Forests -/

/-- Trees in a row, with the gap in front of each and the gap behind the last. A tree is an atom, a
string or a list of trees. -/
inductive Forest
  | nil (gap : Gap)
  | atom (gap : Gap) (word : Atom) (rest : Forest)
  | string (gap : Gap) (body : StringBody) (rest : Forest)
  | list (gap : Gap) (children : Forest) (rest : Forest)

namespace Forest

def render : Forest → Text
  | nil gap => gap.text
  | atom gap word rest => gap.text ++ (word.text ++ rest.render)
  | string gap body rest => gap.text ++ ('"' :: (body.text ++ ['"']) ++ rest.render)
  | list gap children rest => gap.text ++ ('(' :: (children.render ++ [')']) ++ rest.render)

theorem add_length_render_atom (offset : Nat) (gap : Gap) (word : Atom) (rest : Forest) :
    offset + (atom gap word rest).render.length =
      offset + gap.text.length + word.text.length + rest.render.length := by
  simp only [render, List.length_append]
  omega

theorem add_length_render_string (offset : Nat) (gap : Gap) (body : StringBody) (rest : Forest) :
    offset + (string gap body rest).render.length =
      offset + gap.text.length + body.text.length + 2 + rest.render.length := by
  simp only [render, List.length_append, List.length_cons, List.length_nil]
  omega

theorem add_length_render_list (offset : Nat) (gap : Gap) (inner rest : Forest) :
    offset + (list gap inner rest).render.length =
      offset + gap.text.length + inner.render.length + 2 + rest.render.length := by
  simp only [render, List.length_append, List.length_cons, List.length_nil]
  omega

/-- The gap in front of the first tree. -/
def firstGap : Forest → Gap
  | nil gap | atom gap _ _ | string gap _ _ | list gap _ _ => gap

/-- The forest begins with an atom that nothing is in front of. -/
def beginsWithAtom : Forest → Bool
  | atom gap _ _ => gap.text.isEmpty
  | _ => false

/-- There is a gap between any two atoms that follow each other. -/
def Separated : Forest → Prop
  | nil _ => True
  | atom _ _ rest => rest.beginsWithAtom = false ∧ rest.Separated
  | string _ _ rest => rest.Separated
  | list _ children rest => children.Separated ∧ rest.Separated

instance : (f : Forest) → Decidable f.Separated
  | nil _ => isTrue trivial
  | atom _ _ rest =>
    have := instDecidableSeparated rest
    inferInstanceAs (Decidable (rest.beginsWithAtom = false ∧ rest.Separated))
  | string _ _ rest => instDecidableSeparated rest
  | list _ children rest =>
    have := instDecidableSeparated children
    have := instDecidableSeparated rest
    inferInstanceAs (Decidable (children.Separated ∧ rest.Separated))

/-- The word of the first tree, if that is an atom. -/
def headWord : Forest → Option Text
  | atom _ word _ => some word.text
  | _ => none

end Forest

/-! ## Places -/

/-- The place of a tree: its first offset and the one just past it. -/
structure Extent where
  start : Nat
  stop : Nat
  deriving DecidableEq

/-- A list in a text: the offsets of its two parens, the word of its first child if that is an atom,
and the places of its children. -/
structure ListAt where
  start : Nat
  close : Nat
  head : Option Text
  children : List Extent
  deriving DecidableEq

namespace Forest

/-- The places of the trees in the row, if the text of the forest begins at an offset. -/
def children (offset : Nat) : Forest → List Extent
  | nil _ => []
  | atom gap word rest =>
    let start := offset + gap.text.length
    let stop := start + word.text.length
    ⟨start, stop⟩ :: rest.children stop
  | string gap body rest =>
    let start := offset + gap.text.length
    let stop := start + body.text.length + 2
    ⟨start, stop⟩ :: rest.children stop
  | list gap inner rest =>
    let start := offset + gap.text.length
    let stop := start + inner.render.length + 2
    ⟨start, stop⟩ :: rest.children stop

/-- The offsets of the lists in the row; these are in no other list. -/
def outerLists (offset : Nat) : Forest → List Nat
  | nil _ => []
  | atom gap word rest => rest.outerLists (offset + gap.text.length + word.text.length)
  | string gap body rest => rest.outerLists (offset + gap.text.length + body.text.length + 2)
  | list gap inner rest =>
    let start := offset + gap.text.length
    start :: rest.outerLists (start + inner.render.length + 2)

/-- All lists, in the order of their opening parens. -/
def lists (offset : Nat) : Forest → List ListAt
  | nil _ => []
  | atom gap word rest => rest.lists (offset + gap.text.length + word.text.length)
  | string gap body rest => rest.lists (offset + gap.text.length + body.text.length + 2)
  | list gap inner rest =>
    let start := offset + gap.text.length
    { start
      close := start + inner.render.length + 1
      head := inner.headWord
      children := inner.children (start + 1) } ::
      (inner.lists (start + 1) ++ rest.lists (start + inner.render.length + 2))

/-- The places of all strings. -/
def strings (offset : Nat) : Forest → List Extent
  | nil _ => []
  | atom gap word rest => rest.strings (offset + gap.text.length + word.text.length)
  | string gap body rest =>
    let start := offset + gap.text.length
    let stop := start + body.text.length + 2
    ⟨start, stop⟩ :: rest.strings stop
  | list gap inner rest =>
    let start := offset + gap.text.length
    inner.strings (start + 1) ++ rest.strings (start + inner.render.length + 2)

/-! ## Bounds -/

theorem children_bounds (f : Forest) (offset : Nat) : ∀ c ∈ f.children offset,
    offset + f.firstGap.text.length < c.stop ∧ c.stop ≤ offset + f.render.length := by
  induction f generalizing offset with
  | nil gap => simp [children]
  | atom gap word rest ih =>
    have hpos := List.length_pos_iff.mpr word.ne_nil
    intro c hc
    simp only [render, firstGap, List.length_append]
    rcases List.mem_cons.mp hc with rfl | hc
    · simp only
      omega
    · have := ih _ c hc
      omega
  | string gap body rest ih =>
    intro c hc
    simp only [render, firstGap, List.length_append, List.length_cons, List.length_nil]
    rcases List.mem_cons.mp hc with rfl | hc
    · simp only
      omega
    · have := ih _ c hc
      omega
  | list gap inner rest _ ih =>
    intro c hc
    simp only [render, firstGap, List.length_append, List.length_cons, List.length_nil]
    rcases List.mem_cons.mp hc with rfl | hc
    · simp only
      omega
    · have := ih _ c hc
      omega

theorem lists_bounds (f : Forest) (offset : Nat) : ∀ l ∈ f.lists offset,
    offset + f.firstGap.text.length ≤ l.start ∧ l.start < l.close ∧
      l.close < offset + f.render.length := by
  induction f generalizing offset with
  | nil gap => simp [lists]
  | atom gap word rest ih =>
    intro l hl
    have := ih _ l hl
    simp only [render, firstGap, List.length_append]
    omega
  | string gap body rest ih =>
    intro l hl
    have := ih _ l hl
    simp only [render, firstGap, List.length_append, List.length_cons, List.length_nil]
    omega
  | list gap inner rest ihi ihr =>
    intro l hl
    simp only [render, firstGap, List.length_append, List.length_cons, List.length_nil]
    rcases List.mem_cons.mp hl with rfl | hl
    · simp only
      omega
    · rcases List.mem_append.mp hl with hl | hl
      · have := ihi _ l hl
        omega
      · have := ihr _ l hl
        omega

theorem strings_bounds (f : Forest) (offset : Nat) : ∀ s ∈ f.strings offset,
    offset + f.firstGap.text.length ≤ s.start ∧ s.stop ≤ offset + f.render.length := by
  induction f generalizing offset with
  | nil gap => simp [strings]
  | atom gap word rest ih =>
    intro s hs
    have := ih _ s hs
    simp only [render, firstGap, List.length_append]
    omega
  | string gap body rest ih =>
    intro s hs
    simp only [render, firstGap, List.length_append, List.length_cons, List.length_nil]
    rcases List.mem_cons.mp hs with rfl | hs
    · simp only
      omega
    · have := ih _ s hs
      omega
  | list gap inner rest ihi ihr =>
    intro s hs
    simp only [render, firstGap, List.length_append, List.length_cons, List.length_nil]
    rcases List.mem_append.mp hs with hs | hs
    · have := ihi _ s hs
      omega
    · have := ihr _ s hs
      omega

/-- The lists are in the order of their opening parens. -/
theorem pairwise_lists (f : Forest) (offset : Nat) :
    (f.lists offset).Pairwise fun l m => l.start < m.start := by
  induction f generalizing offset with
  | nil gap => exact List.Pairwise.nil
  | atom gap word rest ih => exact ih _
  | string gap body rest ih => exact ih _
  | list gap inner rest ihi ihr =>
    refine List.Pairwise.cons ?_ (List.pairwise_append.mpr ⟨ihi _, ihr _, ?_⟩)
    · intro l hl
      simp only
      rcases List.mem_append.mp hl with hl | hl
      · have := lists_bounds inner _ l hl
        omega
      · have := lists_bounds rest _ l hl
        omega
    · intro l hl m hm
      have := lists_bounds inner _ l hl
      have := lists_bounds rest _ m hm
      omega

/-! ## What a cut at an offset leaves open -/

/-- The starts of the trees that end at or before an offset. -/
def finished (pos : Nat) (trees : List Extent) : List Nat :=
  (trees.filter (·.stop ≤ pos)).map Extent.start

/-- The lists whose opening paren is before an offset and whose closing paren is not. -/
def openLists (offset pos : Nat) (f : Forest) : List ListAt :=
  (f.lists offset).filter fun l => l.start < pos && pos ≤ l.close

/-- The offset is strictly inside a string. -/
def inString (offset pos : Nat) (f : Forest) : Bool :=
  (f.strings offset).any fun s => s.start < pos && pos < s.stop

section

variable {f : Forest} {offset pos : Nat}

/-- No tree begins before the first one. -/
theorem of_le_firstGap (h : pos ≤ offset + f.firstGap.text.length) :
    f.openLists offset pos = [] ∧ finished pos (f.children offset) = [] ∧
      f.inString offset pos = false := by
  refine ⟨?_, ?_, ?_⟩
  · rw [openLists, List.filter_eq_nil_iff]
    intro l hl
    have := lists_bounds f offset l hl
    simp
    omega
  · rw [finished, List.map_eq_nil_iff, List.filter_eq_nil_iff]
    intro c hc
    have := children_bounds f offset c hc
    simp
    omega
  · rw [inString, List.any_eq_false]
    intro s hs
    have := strings_bounds f offset s hs
    simp
    omega

/-- Nothing is open behind the last tree. -/
theorem of_length_render_le (h : offset + f.render.length ≤ pos) :
    f.openLists offset pos = [] ∧ f.inString offset pos = false := by
  refine ⟨?_, ?_⟩
  · rw [openLists, List.filter_eq_nil_iff]
    intro l hl
    have := lists_bounds f offset l hl
    simp
    omega
  · rw [inString, List.any_eq_false]
    intro s hs
    have := strings_bounds f offset s hs
    simp
    omega

end

end Forest

end FlowEdit
