import TagExpr.Proofs.Value.Collection
import TagExpr.Value.Operation

/-!
# The comparison operators and the order of values

`<` and its kin answer for booleans, numbers and texts, each among their like; `<=>` also knows
null, and `==` all values. Each of them has its own cases. They agree (`comparisons_agree`), because
what each says is `BinaryOp.verdict` of one order, `Value.cmp`, which is also that of the members of
maps and sets (`Kept`).
-/

namespace TagExpr

namespace BinaryOp

/-- It says how two values stand to each other. -/
def isComparison : BinaryOp → Bool
  | eq | ne | lt | le | gt | ge | compare => true
  | _ => false

/-- It asks for values that have an order. -/
def isRelational : BinaryOp → Bool
  | lt | le | gt | ge => true
  | _ => false

/-- The comparison that says the same with its sides exchanged. -/
def mirror : BinaryOp → BinaryOp
  | lt => gt
  | le => ge
  | gt => lt
  | ge => le
  | op => op

/-- What a comparison says of values in this order. -/
def verdict : BinaryOp → Ordering → Value
  | eq, o => .bool (o == .eq)
  | ne, o => .bool (o != .eq)
  | lt, o => .bool o.isLT
  | le, o => .bool o.isLE
  | gt, o => .bool o.isGT
  | ge, o => .bool o.isGE
  | compare, o => .int (Value.sign o)
  | _, _ => .null

end BinaryOp

namespace Value

variable {h : Host} {op : BinaryOp} {l r : Value} {o : Ordering}

/-! ## What can be compared -/

/-- Booleans, numbers and texts are compared, each with their like. -/
def Comparable (l r : Value) : Prop := l.kindRank = r.kindRank ∧ l.kindRank ∈ [1, 2, 3]

instance (l r : Value) : Decidable (Comparable l r) :=
  inferInstanceAs (Decidable (l.kindRank = r.kindRank ∧ l.kindRank ∈ [1, 2, 3]))

theorem Comparable.symm (both : Comparable l r) : Comparable r l :=
  ⟨both.1.symm, both.1 ▸ both.2⟩

/-- **The partial order is the total one** on what can be compared. -/
theorem partialCmp?_eq (l r : Value) :
    partialCmp? l r = if Comparable l r then some (cmp l r) else none := by
  cases l <;> cases r <;> rfl

/-- The comparison can be made. -/
def Answers (op : BinaryOp) (l r : Value) : Prop :=
  match op with
  | .eq | .ne => True
  | .compare => l.isNull ∨ r.isNull ∨ Comparable l r
  | _ => Comparable l r

instance (op : BinaryOp) (l r : Value) : Decidable (Answers op l r) := by
  unfold Answers
  cases op <;> infer_instance

theorem Answers.mirror (h : Answers op l r) : Answers op.mirror r l := by
  cases op <;> first | trivial | exact Comparable.symm h | skip
  rcases h with none | none | both
  · exact .inr (.inl none)
  · exact .inl none
  · exact .inr (.inr both.symm)

theorem answers_mirror_iff : Answers op.mirror r l ↔ Answers op l r := by
  refine ⟨fun h => ?_, .mirror⟩
  have back := h.mirror
  cases op <;> exact back

theorem threeWay_eq (l r : Value) :
    threeWay l r =
      if l.isNull ∨ r.isNull ∨ Comparable l r then .ok (int (sign (cmp l r)))
      else .error (.incomparable l.typeName r.typeName) := by
  cases l <;> cases r <;> rfl

theorem ordered_eq (accept : Ordering → Bool) (l r : Value) :
    ordered accept l r =
      if Comparable l r then .ok (bool (accept (cmp l r)))
      else .error (.incomparable l.typeName r.typeName) := by
  unfold ordered
  rw [partialCmp?_eq]
  by_cases both : Comparable l r
  · rw [if_pos both, if_pos both]
  · rw [if_neg both, if_neg both]

/-- **A comparison that can be made says what the order of values says.** -/
theorem binary_eq_verdict (h : Host) (comparison : op.isComparison) (l r : Value) :
    binary h op l r =
      if Answers op l r then .ok (op.verdict (cmp l r))
      else .error (.incomparable l.typeName r.typeName) := by
  cases op <;> first | contradiction | exact ordered_eq _ l r | exact threeWay_eq l r | rfl

/-! ## Exchanged sides -/

/-- The answer to a comparison with its sides exchanged: a number has the other sign, and a refusal
names the kinds the other way round. -/
def mirrored : Except EvalFault Value → Except EvalFault Value
  | .ok (int n) => .ok (int (-n))
  | .error (.incomparable left right) => .error (.incomparable right left)
  | answer => answer

theorem verdict_swap (comparison : op.isComparison) (o : Ordering) :
    (.ok (op.mirror.verdict o.swap) : Except EvalFault Value) = mirrored (.ok (op.verdict o)) := by
  cases op <;> first | contradiction | cases o <;> rfl

theorem isComparison_mirror (op : BinaryOp) : op.mirror.isComparison = op.isComparison := by
  cases op <;> rfl

/-- **Exchanged sides mirror the answer**, also where there is none. -/
theorem binary_mirror (h : Host) (comparison : op.isComparison) (l r : Value) :
    binary h op.mirror r l = mirrored (binary h op l r) := by
  have other : op.mirror.isComparison := isComparison_mirror op ▸ comparison
  have swapped : cmp r l = (cmp l r).swap := Std.OrientedCmp.eq_swap
  rw [binary_eq_verdict h comparison, binary_eq_verdict h other, swapped]
  by_cases answers : Answers op l r
  · rw [if_pos answers, if_pos answers.mirror, verdict_swap comparison]
  · rw [if_neg answers, if_neg (mt answers_mirror_iff.1 answers)]
    rfl

/-! ## Maps and sets -/

section
variable {α : Type} {key : α → Value} {members : List α} {a b : α}

/-- Of two members, one comes before the other, or they are one. -/
theorem eq_or_sublist_of_mem (ha : a ∈ members) (hb : b ∈ members) :
    a = b ∨ [a, b].Sublist members ∨ [b, a].Sublist members := by
  induction members with
  | nil => contradiction
  | cons c rest ih =>
    rcases List.mem_cons.1 ha with rfl | later <;> rcases List.mem_cons.1 hb with rfl | later'
    · exact .inl rfl
    · exact .inr (.inl (List.cons_sublist_cons.2 (List.singleton_sublist.2 later')))
    · exact .inr (.inr (List.cons_sublist_cons.2 (List.singleton_sublist.2 later)))
    · exact (ih later later').imp_right (Or.imp (.cons c) (.cons c))

/-- Where members ascend, the lesser of two comes before the other. -/
theorem Ascends.before_iff (ascends : Ascends key members) (ha : a ∈ members) (hb : b ∈ members) :
    ([a, b].Sublist members ↔ cmp (key a) (key b) = .lt) ∧
      (a = b ↔ cmp (key a) (key b) = .eq) ∧
      ([b, a].Sublist members ↔ cmp (key a) (key b) = .gt) := by
  have less {a b : α} (before : [a, b].Sublist members) : cmp (key a) (key b) = .lt :=
    List.rel_of_pairwise_cons (List.Pairwise.sublist before ascends) (List.mem_singleton_self b)
  have equal (same : a = b) : cmp (key a) (key b) = .eq := same ▸ Std.ReflCmp.compare_self
  have greater (before : [b, a].Sublist members) : cmp (key a) (key b) = .gt :=
    Std.OrientedCmp.gt_of_lt (less before)
  have apart := eq_or_sublist_of_mem ha hb
  refine ⟨⟨less, fun o => ?_⟩, ⟨equal, fun o => ?_⟩, ⟨greater, fun o => ?_⟩⟩
  all_goals grind

end

/-- Two members in this order, of equal ones the second. -/
def arranged {α : Type} (o : Ordering) (a b : α) : List α :=
  match o with
  | .lt => [a, b]
  | .eq => [b]
  | .gt => [b, a]

/-- Collections keep in this order what has the keys `l` and `r`, and of equals the later one. -/
structure Kept (l r : Value) (o : Ordering) : Prop where
  pair : ∀ {α : Type} (key : α → Value) (a b : α), key a = l → key b = r →
    collectBy key [a, b] = arranged o a b
  before : ∀ {α : Type} (key : α → Value) (members : List α) (a b : α), key a = l → key b = r →
    a ∈ collectBy key members → b ∈ collectBy key members →
    ([a, b].Sublist (collectBy key members) ↔ o = .lt) ∧
      (a = b ↔ o = .eq) ∧ ([b, a].Sublist (collectBy key members) ↔ o = .gt)

theorem kept_cmp (l r : Value) : Kept l r (cmp l r) where
  pair := by
    rintro α key a b rfl rfl
    unfold collectBy
    cases o : cmp (key a) (key b) <;> simp [insertBy, arranged, o]
  before := by
    rintro α key members a b rfl rfl ha hb
    exact (ascends_collectBy key members).before_iff ha hb

/-! ## All comparisons -/

/-- The comparisons can all be made, and of less, equal and greater they find one. -/
structure Decides (h : Host) (l r : Value) (less equal greater : Bool) : Prop where
  one : [less, equal, greater].count true = 1
  lt : binary h .lt l r = .ok (bool less)
  eq : binary h .eq l r = .ok (bool equal)
  gt : binary h .gt l r = .ok (bool greater)
  le : binary h .le l r = .ok (bool (less || equal))
  ge : binary h .ge l r = .ok (bool (greater || equal))
  compare : binary h .compare l r = .ok (int (if less then -1 else if equal then 0 else 1))

theorem decides_of_comparable (h : Host) (both : Comparable l r) :
    Decides h l r (cmp l r).isLT (cmp l r == .eq) (cmp l r).isGT := by
  have answer (op : BinaryOp) (comparison : op.isComparison) (answers : Answers op l r) :
      binary h op l r = .ok (op.verdict (cmp l r)) := by
    rw [binary_eq_verdict h comparison, if_pos answers]
  constructor
  case one => cases cmp l r <;> rfl
  case lt => exact answer .lt rfl both
  case eq => exact answer .eq rfl trivial
  case gt => exact answer .gt rfl both
  case le =>
    rw [answer .le rfl both]
    cases cmp l r <;> rfl
  case ge =>
    rw [answer .ge rfl both]
    cases cmp l r <;> rfl
  case compare =>
    rw [answer .compare rfl (.inr (.inr both))]
    cases cmp l r <;> rfl

theorem compare_of_isNull (h : Host) (l r : Value) :
    (l.isNull → binary h .compare l r = .ok (int (if r.isNull then 0 else -1))) ∧
      (r.isNull → binary h .compare l r = .ok (int (if l.isNull then 0 else 1))) := by
  constructor <;> intro none <;> cases l <;> cases r <;> first | contradiction | rfl

/-- **The comparison operators agree with each other and with the order of values.**
They find that two values are one of less, equal and greater, or all of `<`, `<=`, `>` and `>=`
refuse them; `!=` is the negation of `==`; `<=>` can also be asked about null, which it puts first;
exchanged sides mirror each of them, refusals included; and what one of them answers is the verdict
of the order in which maps and sets keep their members. -/
theorem comparisons_agree (h : Host) (l r : Value) :
    (Comparable l r ∧ (∃ less equal greater, Decides h l r less equal greater) ∨
      ¬Comparable l r ∧ (∀ op : BinaryOp, op.isRelational →
        binary h op l r = .error (.incomparable l.typeName r.typeName))) ∧
    (∃ equal, binary h .eq l r = .ok (bool equal) ∧ binary h .ne l r = .ok (bool !equal)) ∧
    (l.isNull → binary h .compare l r = .ok (int (if r.isNull then 0 else -1))) ∧
    (r.isNull → binary h .compare l r = .ok (int (if l.isNull then 0 else 1))) ∧
    (¬(l.isNull ∨ r.isNull ∨ Comparable l r) →
      binary h .compare l r = .error (.incomparable l.typeName r.typeName)) ∧
    (∀ op : BinaryOp, op.isComparison →
      binary h op.mirror r l = mirrored (binary h op l r)) ∧
    (∀ (op : BinaryOp) (v : Value), op.isComparison → binary h op l r = .ok v →
      v = op.verdict (cmp l r)) ∧
    Kept l r (cmp l r) := by
  obtain ⟨nullLeft, nullRight⟩ := compare_of_isNull h l r
  refine ⟨?_, ⟨l == r, rfl, rfl⟩, nullLeft, nullRight, ?_, fun op comparison => ?_, ?_,
    kept_cmp l r⟩
  · by_cases both : Comparable l r
    · exact .inl ⟨both, _, _, _, decides_of_comparable h both⟩
    · refine .inr ⟨both, fun op relational => ?_⟩
      cases op <;> first | contradiction | exact (ordered_eq _ l r).trans (if_neg both)
  · intro refused
    exact (threeWay_eq l r).trans (if_neg refused)
  · exact binary_mirror h comparison l r
  · intro op v comparison answer
    rw [binary_eq_verdict h comparison] at answer
    split at answer
    · exact (Except.ok.inj answer).symm
    · contradiction

/-- The double `2 ^ 63` is greater than `2 ^ 63 - 1`, which would be rounded to it, and a set puts
it after that integer. -/
theorem comparisons_agree_at_integer_limit :
    binary {} .gt (double ⟨0x43E0000000000000⟩) (int 9223372036854775807) = .ok (bool true) ∧
      ofItems [double ⟨0x43E0000000000000⟩, int 9223372036854775807] =
        set [int 9223372036854775807, double ⟨0x43E0000000000000⟩] := by
  obtain ⟨decided, -, -, -, -, -, verdict, kept⟩ :=
    comparisons_agree {} (double ⟨0x43E0000000000000⟩) (int 9223372036854775807)
  have order : cmp (double ⟨0x43E0000000000000⟩) (int 9223372036854775807) = .gt := by
    decide +kernel
  rw [order] at verdict kept
  constructor
  · rcases decided with ⟨-, _, _, greater, decides⟩ | ⟨refused, -⟩
    · have answer : bool greater = bool true := verdict .gt _ rfl decides.gt
      rw [decides.gt, answer]
    · exact absurd (by decide) refused
  · exact congrArg set (kept.pair id _ _ rfl rfl)

/-- A NaN without a sign is above infinity and equal to itself. -/
example : cmp (double ⟨0x7FF8000000000000⟩) (double ⟨0x7FF0000000000000⟩) = .gt ∧
    cmp (double ⟨0x7FF8000000000000⟩) (double ⟨0x7FF8000000000000⟩) = .eq := by decide +kernel

end Value

end TagExpr
