/-!
Values by key, in the order in which the keys were first given. A key has one place and one value:
giving it a second value replaces the first one where it stands.
-/

namespace FlowEdit

structure Keyed (κ ν : Type) where
  entries : List (κ × ν)
  nodup_keys : (entries.map Prod.fst).Nodup

namespace Keyed

variable {κ ν : Type} [DecidableEq κ]

def keys (d : Keyed κ ν) : List κ := d.entries.map Prod.fst

def size (d : Keyed κ ν) : Nat := d.entries.length

def find (k : κ) : List (κ × ν) → Option ν
  | [] => none
  | e :: es => if e.1 = k then some e.2 else find k es

def get? (d : Keyed κ ν) (k : κ) : Option ν := find k d.entries

def contains (d : Keyed κ ν) (k : κ) : Bool := d.keys.contains k

def empty : Keyed κ ν := ⟨[], .nil⟩

omit [DecidableEq κ] in
theorem length_keys (d : Keyed κ ν) : d.keys.length = d.size := List.length_map _

/-- The entries with `v` put where `k` stands, or at the end if it stands nowhere. -/
def put (k : κ) (v : ν) : List (κ × ν) → List (κ × ν)
  | [] => [(k, v)]
  | e :: es => if e.1 = k then (k, v) :: es else e :: put k v es

theorem keys_put (k : κ) (v : ν) (es : List (κ × ν)) :
    (put k v es).map Prod.fst =
      if k ∈ es.map Prod.fst then es.map Prod.fst else es.map Prod.fst ++ [k] := by
  induction es with
  | nil => simp [put]
  | cons e es ih => grind [put]

theorem nodup_keys_put (k : κ) (v : ν) {es : List (κ × ν)} (h : (es.map Prod.fst).Nodup) :
    ((put k v es).map Prod.fst).Nodup := by
  rw [keys_put]
  split
  next => exact h
  next hk => exact List.nodup_append.2 ⟨h, by simp, by grind⟩

def insert (d : Keyed κ ν) (k : κ) (v : ν) : Keyed κ ν :=
  ⟨put k v d.entries, nodup_keys_put k v d.nodup_keys⟩

def erase (d : Keyed κ ν) (k : κ) : Keyed κ ν :=
  ⟨d.entries.filter (·.1 ≠ k), (List.filter_sublist.map Prod.fst).nodup d.nodup_keys⟩

def ofList (entries : List (κ × ν)) : Keyed κ ν :=
  entries.foldl (fun d e => d.insert e.1 e.2) empty

theorem get?_insert (d : Keyed κ ν) (k k' : κ) (v : ν) :
    (d.insert k v).get? k' = if k' = k then some v else d.get? k' := by
  unfold get? insert
  dsimp only
  induction d.entries with
  | nil => grind [put, find]
  | cons e es ih => grind [put, find]

theorem get?_erase (d : Keyed κ ν) (k k' : κ) :
    (d.erase k).get? k' = if k' = k then none else d.get? k' := by
  unfold get? erase
  dsimp only
  induction d.entries with
  | nil => simp [find]
  | cons e es ih =>
    rw [List.filter_cons]
    split <;> grind [find]

theorem isSome_get? (d : Keyed κ ν) (k : κ) : (d.get? k).isSome = d.contains k := by
  unfold get? contains keys
  induction d.entries with
  | nil => rfl
  | cons e es ih => grind [find]

end Keyed

end FlowEdit
