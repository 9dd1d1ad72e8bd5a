import TagExpr.Node

/-!
# Equality of trees

Two expressions run one program when their trees are equal, so equality of trees has to be decided.
`same` compares two trees constructor by constructor; `same_iff` says that it decides equality.
-/

namespace TagExpr.Node

mutual

/-- Compares two trees. -/
def same : Node → Node → Bool
  | .literal v, n => match n with
    | .literal v' => v == v'
    | _ => false
  | .regex s, n => match n with
    | .regex s' => s == s'
    | _ => false
  | .current l, n => match n with
    | .current l' => l == l'
    | _ => false
  | .internal l m, n => match n with
    | .internal l' m' => l == l' && m == m'
    | _ => false
  | .localVar s, n => match n with
    | .localVar s' => s == s'
    | _ => false
  | .binding t s, n => match n with
    | .binding t' s' => t == t' && s == s'
    | _ => false
  | .identifier i l, n => match n with
    | .identifier i' l' => i == i' && l == l'
    | _ => false
  | .call i l as, n => match n with
    | .call i' l' as' => i == i' && l == l' && sameList as as'
    | _ => false
  | .member r i s, n => match n with
    | .member r' i' s' => same r r' && i == i' && s == s'
    | _ => false
  | .method r i as s, n => match n with
    | .method r' i' as' s' => same r r' && i == i' && sameList as as' && s == s'
    | _ => false
  | .index r k s, n => match n with
    | .index r' k' s' => same r r' && same k k' && s == s'
    | _ => false
  | .named t as, n => match n with
    | .named t' as' => t == t' && sameList as as'
    | _ => false
  | .recurse as, n => match n with
    | .recurse as' => sameList as as'
    | _ => false
  | .annotated m as, n => match n with
    | .annotated m' as' => m == m' && sameList as as'
    | _ => false
  | .unary o x, n => match n with
    | .unary o' x' => o == o' && same x x'
    | _ => false
  | .binary o l r, n => match n with
    | .binary o' l' r' => o == o' && same l l' && same r r'
    | _ => false
  | .ternary c y z, n => match n with
    | .ternary c' y' z' => same c c' && same y y' && same z z'
    | _ => false
  | .concat as, n => match n with
    | .concat as' => sameList as as'
    | _ => false
  | .list as, n => match n with
    | .list as' => sameList as as'
    | _ => false
  | .set as, n => match n with
    | .set as' => sameList as as'
    | _ => false
  | .map es, n => match n with
    | .map es' => sameEntries es es'
    | _ => false
  | .assignLocal s v, n => match n with
    | .assignLocal s' v' => s == s' && same v v'
    | _ => false
  | .assignBinding t s v, n => match n with
    | .assignBinding t' s' v' => t == t' && s == s' && same v v'
    | _ => false
  | .sequence as, n => match n with
    | .sequence as' => sameList as as'
    | _ => false
  | .stream o s b d, n => match n with
    | .stream o' s' b' d' => o == o' && same s s' && b == b' && same d d'
    | _ => false

/-- Compares two lists of trees. -/
def sameList : List Node → List Node → Bool
  | [], ns => ns.isEmpty
  | a :: as, ns => match ns with
    | b :: bs => same a b && sameList as bs
    | [] => false

/-- Compares the entries of two map literals. -/
def sameEntries : List (Node × Node) → List (Node × Node) → Bool
  | [], ns => ns.isEmpty
  | a :: as, ns => match ns with
    | b :: bs => sameEntry a b && sameEntries as bs
    | [] => false

/-- Compares two entries of map literals. -/
def sameEntry : Node × Node → Node × Node → Bool
  | (k, v), (k', v') => same k k' && same v v'

end

mutual

theorem eq_of_same : ∀ {a b : Node}, same a b = true → a = b
  | .literal _, b, h | .regex _, b, h | .current _, b, h | .internal _ _, b, h
  | .localVar _, b, h | .binding _ _, b, h | .identifier _ _, b, h => by
    cases b <;> simp only [same, Bool.false_eq_true] at h
    grind
  | .call _ _ as, b, h | .named _ as, b, h | .recurse as, b, h | .annotated _ as, b, h
  | .concat as, b, h | .list as, b, h | .set as, b, h | .sequence as, b, h => by
    have ih := @eq_of_sameList as
    cases b <;> simp only [same, Bool.false_eq_true] at h
    grind
  | .member r _ _, b, h => by
    have ih := @eq_of_same r
    cases b <;> simp only [same, Bool.false_eq_true] at h
    grind
  | .method r _ as _, b, h => by
    have ih := @eq_of_same r
    have ihs := @eq_of_sameList as
    cases b <;> simp only [same, Bool.false_eq_true] at h
    grind
  | .index r k _, b, h => by
    have ihr := @eq_of_same r
    have ihk := @eq_of_same k
    cases b <;> simp only [same, Bool.false_eq_true] at h
    grind
  | .unary _ x, b, h | .assignLocal _ x, b, h | .assignBinding _ _ x, b, h => by
    have ih := @eq_of_same x
    cases b <;> simp only [same, Bool.false_eq_true] at h
    grind
  | .binary _ x y, b, h | .stream _ x _ y, b, h => by
    have ihx := @eq_of_same x
    have ihy := @eq_of_same y
    cases b <;> simp only [same, Bool.false_eq_true] at h
    grind
  | .ternary c y z, b, h => by
    have ihc := @eq_of_same c
    have ihy := @eq_of_same y
    have ihz := @eq_of_same z
    cases b <;> simp only [same, Bool.false_eq_true] at h
    grind
  | .map es, b, h => by
    have ih := @eq_of_sameEntries es
    cases b <;> simp only [same, Bool.false_eq_true] at h
    grind

theorem eq_of_sameList : ∀ {as bs : List Node}, sameList as bs = true → as = bs
  | [], bs, h => by cases bs <;> simp_all [sameList]
  | a :: as, bs, h => by
    have ih := @eq_of_same a
    have ihs := @eq_of_sameList as
    cases bs <;> simp [sameList] at h
    grind

theorem eq_of_sameEntries : ∀ {as bs : List (Node × Node)}, sameEntries as bs = true → as = bs
  | [], bs, h => by cases bs <;> simp_all [sameEntries]
  | a :: as, bs, h => by
    have ih := @eq_of_sameEntry a
    have ihs := @eq_of_sameEntries as
    cases bs with
    | nil => simp [sameEntries] at h
    | cons b bs =>
      simp only [sameEntries, Bool.and_eq_true] at h
      rw [ih h.1, ihs h.2]

theorem eq_of_sameEntry : ∀ {a b : Node × Node}, sameEntry a b = true → a = b
  | (k, v), (k', v'), h => by
    have ihk := @eq_of_same k
    have ihv := @eq_of_same v
    simp [sameEntry] at h
    grind

end

mutual

theorem same_self : ∀ a : Node, same a a = true
  | .literal _ | .regex _ | .current _ | .internal _ _ | .localVar _ | .binding _ _
  | .identifier _ _ => by simp [same]
  | .call _ _ as | .named _ as | .recurse as | .annotated _ as | .concat as | .list as
  | .set as | .sequence as => by simp [same, sameList_self as]
  | .member r _ _ => by simp [same, same_self r]
  | .method r _ as _ => by simp [same, same_self r, sameList_self as]
  | .index r k _ => by simp [same, same_self r, same_self k]
  | .unary _ x | .assignLocal _ x | .assignBinding _ _ x => by simp [same, same_self x]
  | .binary _ x y | .stream _ x _ y => by simp [same, same_self x, same_self y]
  | .ternary c y z => by simp [same, same_self c, same_self y, same_self z]
  | .map es => by simp [same, sameEntries_self es]

theorem sameList_self : ∀ as : List Node, sameList as as = true
  | [] => by simp [sameList]
  | a :: as => by simp [sameList, same_self a, sameList_self as]

theorem sameEntries_self : ∀ as : List (Node × Node), sameEntries as as = true
  | [] => by simp [sameEntries]
  | a :: as => by simp [sameEntries, sameEntry_self a, sameEntries_self as]

theorem sameEntry_self : ∀ a : Node × Node, sameEntry a a = true
  | (k, v) => by simp [sameEntry, same_self k, same_self v]

end

theorem same_iff {a b : Node} : same a b = true ↔ a = b :=
  ⟨eq_of_same, fun h => h ▸ same_self a⟩

instance : DecidableEq Node := fun a b => decidable_of_iff (same a b = true) same_iff

end TagExpr.Node
