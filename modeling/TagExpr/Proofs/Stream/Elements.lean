import TagExpr.Stream
import TagExpr.Proofs.Value.Collection

/-!
# The elements of a value

What there is in a value to go through, as a list. A source is built from a value and gives them one
after the other (`Source.rest`, `rest_ofValue`). Sets, maps and ranges have theirs in ascending
order (`Value.inOrder`).
-/

namespace TagExpr

/-! ## Ranges -/

/-- The members of a range in ascending order. -/
def IntRange.members (r : IntRange) : List Int :=
  match r.bounds? with
  | none => []
  | some (first, last) => (List.range (last - first + 1).toNat).map fun i : Nat => first + i

theorem IntRange.mem_members {r : IntRange} {n : Int} : n ∈ r.members ↔ r.contains n = true := by
  unfold members contains
  cases r.bounds? with
  | none => simp
  | some bounds =>
    obtain ⟨first, last⟩ := bounds
    simp only [List.mem_map, List.mem_range, Bool.and_eq_true, decide_eq_true_eq]
    constructor
    · rintro ⟨i, below, rfl⟩
      omega
    · intro within
      exact ⟨(n - first).toNat, by omega, by omega⟩

theorem IntRange.pairwise_members (r : IntRange) : r.members.Pairwise (· < ·) := by
  unfold members
  cases r.bounds? with
  | none => exact .nil
  | some bounds =>
    refine List.pairwise_map.2 (List.pairwise_lt_range.imp ?_)
    intro i j below
    show bounds.1 + (i : Int) < bounds.1 + j
    omega

/-- The members are 64-bit integers. -/
theorem IntRange.toInt_ofInt {r : IntRange} {n : Int} (h : n ∈ r.members) :
    (Int64.ofInt n).toInt = n := by
  have within := mem_members.1 h
  unfold contains at within
  cases found : r.bounds? with
  | none =>
    rw [found] at within
    contradiction
  | some bounds =>
    obtain ⟨first, last⟩ := bounds
    rw [found, Bool.and_eq_true, decide_eq_true_eq, decide_eq_true_eq] at within
    have from_start : first = r.start.toInt ∧ last ≤ r.stop.toInt := by
      simp only [bounds?, Option.ite_none_right_eq_some, Option.some.injEq, Prod.mk.injEq] at found
      obtain ⟨-, rfl, rfl⟩ := found
      refine ⟨rfl, ?_⟩
      split <;> omega
    have least := Int64.le_toInt r.start
    have greatest := Int64.toInt_lt r.stop
    exact Int64.toInt_ofInt_of_le (by omega) (by omega)

/-! ## Values -/

/-- The elements of a value that is no stream: the members of a collection, for a map its entries as
maps, those that the host application names for an object, none for null, and of anything else the
value itself. -/
def Value.elements (h : Host) : Value → List Value
  | .null => []
  | .list items => items
  | .set items => items
  | .map entries => entries.map fun entry => entryMap entry.1 entry.2
  | .range r => r.members.map fun n => .int (Int64.ofInt n)
  | v@(.object _ tag carrier content) => (h.elements? tag carrier content).getD [v]
  | v => [v]

/-- Sets, maps and ranges have their elements in ascending order. -/
structure Value.InOrder (h : Host) : Prop where
  set : ∀ items, Sorts id items ((ofItems items).elements h)
  map : ∀ entries, ∃ sorted, Sorts Prod.fst entries sorted ∧
    (ofEntries entries).elements h = sorted.map fun entry => entryMap entry.1 entry.2
  range : ∀ r : IntRange, ∃ members : List Int64, (Value.range r).elements h = members.map int ∧
    members.Pairwise (fun m n => m.toInt < n.toInt) ∧ ∀ n, n ∈ members ↔ r.contains n.toInt = true

theorem Value.inOrder (h : Host) : InOrder h where
  set items := sorts_collectBy id items
  map entries := ⟨collectBy Prod.fst entries, sorts_collectBy Prod.fst entries, rfl⟩
  range r := by
    refine ⟨r.members.map Int64.ofInt, List.map_map.symm, ?_, ?_⟩
    · refine List.pairwise_map.2 (r.pairwise_members.imp_of_mem ?_)
      intro m n hm hn below
      rwa [IntRange.toInt_ofInt hm, IntRange.toInt_ofInt hn]
    · intro n
      rw [← IntRange.mem_members, List.mem_map]
      constructor
      · rintro ⟨m, hm, rfl⟩
        rwa [IntRange.toInt_ofInt hm]
      · intro hn
        exact ⟨n.toInt, hn, Int64.ofInt_toInt n⟩

namespace Source

/-- The elements that a source has left. -/
def rest : Source → List Value
  | items left => left
  | range next last =>
    (List.range (last - next + 1).toNat).map fun i : Nat => .int (Int64.ofInt (next + i))

theorem rest_of_next?_none {s : Source} (h : s.next? = none) : s.rest = [] := by
  cases s with
  | items left =>
    cases left with
    | nil => rfl
    | cons v left => contradiction
  | range next last =>
    rw [next?] at h
    by_cases more : next ≤ last
    · rw [if_pos more] at h
      contradiction
    · have none_left : (last - next + 1).toNat = 0 := by omega
      rw [rest, none_left]
      rfl

theorem rest_of_next?_some {s s' : Source} {v : Value} (h : s.next? = some (v, s')) :
    s.rest = v :: s'.rest := by
  cases s with
  | items left =>
    cases left with
    | nil => contradiction
    | cons w left =>
      cases h
      rfl
  | range next last =>
    rw [next?] at h
    by_cases more : next ≤ last
    · rw [if_pos more] at h
      cases h
      have one_more : (last - next + 1).toNat = (last - (next + 1) + 1).toNat + 1 := by omega
      rw [rest, rest, one_more, List.range_succ_eq_map, List.map_cons, List.map_map]
      congr 1
      · simp
      · apply List.map_congr_left
        intro i _
        show Value.int (Int64.ofInt (next + (i + 1 : Nat))) = .int (Int64.ofInt (next + 1 + i))
        congr 2
        omega
    · rw [if_neg more] at h
      contradiction

theorem rest_ofValue (h : Host) (v : Value) : (ofValue h v).rest = v.elements h := by
  cases v with
  | range r =>
    simp only [ofValue, Value.elements, IntRange.members]
    cases r.bounds? with
    | none => rfl
    | some bounds =>
      simp only [rest, List.map_map]
      rfl
  | object id tag carrier content =>
    simp only [ofValue, Value.elements]
    cases h.elements? tag carrier content with
    | none => rfl
    | some items => rfl
  | _ => rfl

end Source

end TagExpr
