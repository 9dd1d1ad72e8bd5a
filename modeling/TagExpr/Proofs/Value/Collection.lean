import TagExpr.Proofs.Value.Order

/-!
# Maps and sets are in ascending order

Each member is put before the first one above it, so what is collected ascends strictly: of the
members of a set, and of the keys of a map, no two are equal.
-/

namespace TagExpr.Value

variable {α : Type} {key : α → Value}

/-- The keys of the members are strictly ascending. -/
def Ascends (key : α → Value) (members : List α) : Prop :=
  members.Pairwise fun a b => cmp (key a) (key b) = .lt

theorem ascends_insertBy (a : α) {members : List α} (h : Ascends key members) :
    Ascends key (insertBy key a members) := by
  induction members with
  | nil => exact List.pairwise_singleton _ a
  | cons b rest ih =>
    obtain ⟨below, ascends⟩ := List.pairwise_cons.1 h
    rw [insertBy]
    cases place : cmp (key a) (key b) with
    | lt =>
      refine List.pairwise_cons.2 ⟨?_, h⟩
      intro c hc
      rcases List.mem_cons.1 hc with rfl | hc
      · exact place
      · exact Std.TransCmp.lt_trans place (below c hc)
    | eq => exact h
    | gt =>
      refine List.pairwise_cons.2 ⟨?_, ih ascends⟩
      intro c hc
      rcases mem_of_mem_insertBy hc with rfl | hc
      · exact Std.OrientedCmp.gt_iff_lt.1 place
      · exact below c hc

theorem ascends_collectBy (key : α → Value) (members : List α) :
    Ascends key (collectBy key members) := by
  induction members with
  | nil => exact .nil
  | cons a members ih =>
    rw [collectBy_cons]
    exact ascends_insertBy a ih

/-- A member that was there stays, and of the new one there is an equal one. -/
theorem exists_mem_insertBy {a c : α} {members : List α} (h : c = a ∨ c ∈ members) :
    ∃ b ∈ insertBy key a members, cmp (key c) (key b) = .eq := by
  induction members with
  | nil =>
    have same : c = a := h.resolve_right List.not_mem_nil
    exact ⟨a, List.mem_singleton_self a, same ▸ Std.ReflCmp.compare_self⟩
  | cons b rest ih =>
    have self (x : α) : cmp (key x) (key x) = .eq := Std.ReflCmp.compare_self
    rw [insertBy]
    cases place : cmp (key a) (key b) with
    | lt =>
      rcases h with rfl | h
      · exact ⟨c, List.mem_cons_self, self c⟩
      · exact ⟨c, List.mem_cons_of_mem a h, self c⟩
    | eq =>
      rcases h with rfl | h
      · exact ⟨b, List.mem_cons_self, place⟩
      · exact ⟨c, h, self c⟩
    | gt =>
      by_cases first : c = b
      · exact ⟨b, List.mem_cons_self, first ▸ self c⟩
      · have later : c = a ∨ c ∈ rest := h.imp_right fun h => (List.mem_cons.1 h).resolve_left first
        obtain ⟨d, hd, same⟩ := ih later
        exact ⟨d, List.mem_cons_of_mem b hd, same⟩

/-- The second list has the members of the first in strictly ascending order, of equal ones one. -/
structure Sorts (key : α → Value) (members sorted : List α) : Prop where
  ascends : Ascends key sorted
  sub : ∀ a ∈ sorted, a ∈ members
  all : ∀ a ∈ members, ∃ b ∈ sorted, cmp (key a) (key b) = .eq

/-- **What is collected is in strictly ascending order.** -/
theorem sorts_collectBy (key : α → Value) (members : List α) :
    Sorts key members (collectBy key members) where
  ascends := ascends_collectBy key members
  sub _ := mem_of_mem_collectBy
  all := by
    induction members with
    | nil => exact fun a ha => absurd ha List.not_mem_nil
    | cons a members ih =>
      intro c hc
      rw [collectBy_cons]
      rcases List.mem_cons.1 hc with rfl | hc
      · exact exists_mem_insertBy (.inl rfl)
      · obtain ⟨b, hb, same⟩ := ih c hc
        obtain ⟨d, hd, same'⟩ : ∃ d ∈ insertBy key a (collectBy key members),
            cmp (key b) (key d) = .eq := exists_mem_insertBy (.inr hb)
        exact ⟨d, hd, Std.TransCmp.eq_trans same same'⟩

end TagExpr.Value
