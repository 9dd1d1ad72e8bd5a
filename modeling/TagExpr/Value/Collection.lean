import TagExpr.Value.Order

/-!
# Maps and sets

How maps and sets are made: their members are put in ascending order, and of members that are equal
the last one stays, key included.
-/

namespace TagExpr.Value

/-- Puts a member in its place among members in ascending order, unless one with an equal key is
there. -/
def insertBy {α : Type} (key : α → Value) (a : α) : List α → List α
  | [] => [a]
  | b :: rest =>
    match cmp (key a) (key b) with
    | .lt => a :: b :: rest
    | .eq => b :: rest
    | .gt => b :: insertBy key a rest

/-- The members in ascending order, of equal ones the last. -/
def collectBy {α : Type} (key : α → Value) (members : List α) : List α :=
  members.foldr (insertBy key) []

/-- The map of these entries. -/
def ofEntries (entries : List (Value × Value)) : Value := map (collectBy Prod.fst entries)

/-- The set of these values. -/
def ofItems (items : List Value) : Value := set (collectBy id items)

/-- The value of a key in the entries of a map. -/
def find? (entries : List (Value × Value)) (key : Value) : Option Value :=
  (entries.find? fun entry => cmp key entry.1 == .eq).map (·.2)

/-- The value is one of the items. -/
def memberOf (item : Value) (items : List Value) : Bool := items.any (item == ·)

/-- The entry of a map as a value of its own. -/
def entryMap (key value : Value) : Value :=
  ofEntries [(str "key", key), (str "value", value)]

theorem collectBy_cons {α : Type} (key : α → Value) (a : α) (members : List α) :
    collectBy key (a :: members) = insertBy key a (collectBy key members) := rfl

theorem mem_of_mem_insertBy {α : Type} {key : α → Value} {a x : α} {members : List α}
    (h : x ∈ insertBy key a members) : x = a ∨ x ∈ members := by
  induction members with
  | nil => simpa [insertBy] using h
  | cons b rest ih =>
    rw [insertBy] at h
    split at h
    · simpa using h
    · exact .inr h
    · rcases List.mem_cons.1 h with rfl | h
      · simp
      · rcases ih h with rfl | h <;> simp [*]

theorem mem_of_mem_collectBy {α : Type} {key : α → Value} {x : α} {members : List α}
    (h : x ∈ collectBy key members) : x ∈ members := by
  induction members with
  | nil => exact h
  | cons a members ih =>
    rcases mem_of_mem_insertBy (collectBy_cons key a members ▸ h) with rfl | h
    · simp
    · simp [ih h]

end TagExpr.Value
