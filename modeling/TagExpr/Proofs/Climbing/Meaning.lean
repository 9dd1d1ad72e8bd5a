import Mathlib.Data.List.Basic
import TagExpr.Proofs.Climbing.Reference
import TagExpr.Proofs.Parse.Derivation

/-!
# What the tree of a chain stands for

A tree of operands and operators stands for the expression tree of the same shape, in which a name
is its position in the identifier table and an integer with signs in front of it is one literal. Its
static type is settled from its operands upward; there is none if an operator somewhere in it
refuses an operand.
-/

namespace TagExpr.Climbing

/-! ## Integers with signs -/

/-- The integer that the tree is, if it is an integer with nothing but signs in front of it. -/
def Tree.number? : Tree → Option Int64
  | .atom (.numeral n) => some n.value
  | .unary .plus x => x.number?
  | .unary .negate x => x.number?.map (- ·)
  | _ => none

theorem Numeral.value_ne_minValue (n : Numeral) : n.value ≠ Int64.minValue := by
  intro h
  have hlt : Token.digitsValue n.radix.base n.digits < 2 ^ 63 :=
    Nat.lt_of_le_pred (by decide) n.fits
  have hvalue := congrArg Int64.toInt h
  rw [Numeral.value, Int64.toInt_ofNat_of_lt hlt, Int64.toInt_minValue] at hvalue
  omega

theorem Tree.number?_unary {op : UnaryOp} {x : Tree} {v : Int64}
    (h : (Tree.unary op x).number? = some v) : ∃ u, x.number? = some u := by
  cases op with
  | plus => exact ⟨v, h⟩
  | negate =>
    obtain ⟨u, hu, -⟩ := Option.map_eq_some_iff.mp h
    exact ⟨u, hu⟩
  | not | bitNot | die => cases h

/-- Every literal can be negated, since the integers of the text are not negative. -/
theorem Tree.number?_ne_minValue {x : Tree} {v : Int64} (h : x.number? = some v) :
    v ≠ Int64.minValue := by
  fun_induction Tree.number? x generalizing v with
  | case1 n =>
    cases h
    exact n.value_ne_minValue
  | case2 x ih => exact ih h
  | case3 x ih =>
    obtain ⟨u, hu, rfl⟩ := Option.map_eq_some_iff.mp h
    intro hmin
    have hself : u = Int64.minValue := by
      rw [← Int64.neg_neg (a := u), hmin]
      rfl
    exact ih hu hself
  | case4 => cases h

/-! ## Expression trees -/

/-- The expression tree, in which names are positions in the table. -/
def Tree.node (identifiers : List IdentKey) : Tree → Node
  | .atom (.name n) => .identifier (identifiers.idxOf n.key) .unstated
  | .atom (.numeral n) => .literal (.int n.value)
  | .unary op x =>
    match (Tree.unary op x).number? with
    | some v => .literal (.int v)
    | none => .unary op (x.node identifiers)
  | .binary op left right => .binary op (left.node identifiers) (right.node identifiers)

variable {identifiers : List IdentKey}

theorem Tree.node_of_number? {x : Tree} {v : Int64} (h : x.number? = some v) :
    x.node identifiers = .literal (.int v) := by
  cases x with
  | atom a =>
    cases a with
    | name n => cases h
    | numeral n =>
      cases h
      rfl
  | unary op x => simp only [node, h]
  | binary op left right => cases h

theorem Tree.number?_of_node {x : Tree} {value : Literal}
    (h : x.node identifiers = .literal value) : ∃ v, value = .int v ∧ x.number? = some v := by
  cases x with
  | atom a =>
    cases a with
    | name n => cases h
    | numeral n =>
      cases h
      exact ⟨_, rfl, rfl⟩
  | unary op x =>
    unfold node at h
    split at h
    case h_1 v hv =>
      cases h
      exact ⟨v, rfl, hv⟩
    case h_2 => cases h
  | binary op left right => cases h

/-- The parser folds a sign just if the tree is an integer with signs. -/
theorem Tree.foldSign?_node (identifiers : List IdentKey) (op : UnaryOp) (x : Tree) :
    Parse.foldSign? op (x.node identifiers) = (Tree.unary op x).number?.map .int := by
  cases hx : x.number? with
  | some v =>
    have hmin := number?_ne_minValue hx
    rw [node_of_number? hx]
    cases op with
    | negate => simp [Parse.foldSign?, number?, hx, hmin]
    | _ => simp [Parse.foldSign?, number?, hx]
  | none =>
    have hnone : (Tree.unary op x).number? = none := by
      cases hn : (Tree.unary op x).number? with
      | none => rfl
      | some v =>
        obtain ⟨u, hu⟩ := number?_unary hn
        cases hx.symm.trans hu
    have hliteral : ∀ value, x.node identifiers ≠ .literal value := by
      intro value h
      obtain ⟨v, -, hv⟩ := number?_of_node h
      cases hx.symm.trans hv
    rw [hnone]
    unfold Parse.foldSign?
    split
    case h_5 => rfl
    all_goals exact absurd ‹_› (hliteral _)

/-! ## Static types -/

def Atom.type : Atom → OperandType
  | name _ => .object
  | numeral _ => .integral

/-- The static type, if no operator refuses an operand. A sign that is folded into a literal does
not make it floating. -/
def Tree.type? : Tree → Option OperandType
  | .atom a => some a.type
  | .unary op x =>
    if (Tree.unary op x).number?.isSome then some .integral
    else
      match x.type? with
      | some t => if op.accepts t then some op.resultType else none
      | none => none
  | .binary op left right =>
    match left.type?, right.type? with
    | some s, some t => if op.accepts s t then some (op.resultType s t) else none
    | _, _ => none

theorem Tree.type?_of_number? {x : Tree} {v : Int64} (h : x.number? = some v) :
    x.type? = some .integral := by
  cases x with
  | atom a =>
    cases a with
    | name n => cases h
    | numeral n => rfl
  | unary op x => simp [type?, h]
  | binary op left right => cases h

/-- Only a sign is folded, and signs accept integers. -/
theorem Tree.accepts_of_number? {op : UnaryOp} {x : Tree} {v : Int64}
    (h : (Tree.unary op x).number? = some v) {t : OperandType} (ht : x.type? = some t) :
    op.accepts t := by
  obtain ⟨u, hu⟩ := number?_unary h
  obtain rfl : t = .integral := by simpa [ht] using type?_of_number? hu
  cases op with
  | plus => rfl
  | negate => rfl
  | not | bitNot | die => cases h

/-- Where an operand has been refused, no operator around it has a type. -/
theorem Frame.type?_plug (f : Frame) {x : Tree} (h : x.type? = none) : (f.plug x).type? = none := by
  cases f with
  | unary op =>
    have hnone : ¬ (Tree.unary op x).number?.isSome := by
      intro hsome
      obtain ⟨v, hv⟩ := Option.isSome_iff_exists.mp hsome
      obtain ⟨u, hu⟩ := Tree.number?_unary hv
      cases h.symm.trans (Tree.type?_of_number? hu)
    simp only [plug, Tree.type?, if_neg hnone, h]
  | binary op left =>
    simp only [plug, Tree.type?, h]
    cases left.type? <;> rfl

theorem type?_extend {left : Tree} (h : left.type? = none) (limit : Nat) (tail : Tail) :
    (extend limit left tail).1.type? = none := by
  -- The climb goes on with what its right operand leaves of the tail, so the tail gets shorter.
  induction hn : tail.length using Nat.strongRecOn generalizing left tail with
  | ind n ih =>
    cases tail with
    | nil => simpa [extend] using h
    | cons next after =>
      obtain ⟨op, term⟩ := next
      rw [extend]
      by_cases hlimit : op.entry.precedence < limit
      · obtain ⟨right, rest⟩ := climb op.limit term.prefixes term.atom after
        have hbinary : (Tree.binary op left right).type? = none := by simp only [Tree.type?, h]
        have hlt : rest.1.length < n := by
          have := rest.2
          simp only [List.length_cons] at hn
          omega
        simpa [hlimit] using ih _ hlt hbinary rest.1 rfl
      · simpa [hlimit] using h

/-- Once an operand has been refused, the whole chain has no type. -/
theorem type?_resume {x : Tree} (h : x.type? = none) (frames : List Frame) (tail : Tail) :
    (resume frames x tail).type? = none := by
  induction frames generalizing x tail with
  | nil => exact type?_extend h _ _
  | cons f frames ih => exact ih (f.type?_plug (type?_extend h _ _)) _

theorem Tree.type?_ne_pair (x : Tree) : x.type? ≠ some .pair := by
  induction x with
  | atom a => cases a <;> simp [type?, Atom.type]
  | unary op x ih =>
    unfold type?
    split
    · simp
    · split
      · split <;> simp [op.resultType_ne_pair]
      · simp
  | binary op left right ihl ihr =>
    unfold type?
    split
    case h_1 s t hs ht =>
      have hne : s ≠ .pair := fun h => ihl (h ▸ hs)
      split <;> simp [op.resultType_ne_pair hne]
    case h_2 => simp

/-! ## The identifier table -/

/-- Takes a member into the table if it is new. -/
def mention (table : List IdentKey) (key : IdentKey) : List IdentKey :=
  if key ∈ table then table else table ++ [key]

/-- The names that an operand mentions. -/
def Atom.keys : Atom → List IdentKey
  | name n => [n.key]
  | numeral _ => []

def Tail.keys (tail : Tail) : List IdentKey := tail.flatMap (·.2.atom.keys)

/-- The names of a chain in order of first mention. -/
def Chain.table (c : Chain) : List IdentKey :=
  (c.head.atom.keys ++ Tail.keys c.tail).foldl mention []

theorem prefix_mention (table : List IdentKey) (key : IdentKey) : table <+: mention table key := by
  unfold mention
  split
  · exact List.prefix_rfl
  · exact List.prefix_append _ _

theorem mem_mention (table : List IdentKey) (key : IdentKey) : key ∈ mention table key := by
  unfold mention
  split
  · assumption
  · simp

theorem prefix_mentions (keys table : List IdentKey) : table <+: keys.foldl mention table := by
  induction keys generalizing table with
  | nil => exact List.prefix_rfl
  | cons key keys ih => exact (prefix_mention table key).trans (ih _)

theorem mem_mentions {keys : List IdentKey} {key : IdentKey} (h : key ∈ keys)
    (table : List IdentKey) : key ∈ keys.foldl mention table := by
  induction keys generalizing table with
  | nil => cases h
  | cons first keys ih =>
    rcases List.mem_cons.mp h with rfl | h
    · exact (prefix_mentions keys _).subset (mem_mention table key)
    · exact ih h _

/-- A member keeps its position while the table grows. -/
theorem idxOf_of_prefix {table table' : List IdentKey} (h : table <+: table') {key : IdentKey}
    (hk : key ∈ table) : table'.idxOf key = table.idxOf key := by
  obtain ⟨more, rfl⟩ := h
  exact List.idxOf_append_of_mem hk

/-- The parser takes members into its table as `mention` does. -/
theorem identifier_eq {ε : Type} (t : Parse.Tables ε) (key : IdentKey) :
    t.identifier key =
      ((mention t.identifiers key).idxOf key,
        { t with identifiers := mention t.identifiers key }) := by
  unfold Parse.Tables.identifier mention
  by_cases hk : key ∈ t.identifiers
  · have hfind : t.identifiers.findIdx? (· == key) = some (t.identifiers.idxOf key) :=
      List.findIdx?_eq_some_of_exists ⟨key, hk, beq_self_eq_true key⟩
    simp only [hfind, if_pos hk]
  · have hfind : t.identifiers.findIdx? (· == key) = none := by
      rw [List.findIdx?_eq_none_iff]
      intro other ho
      exact beq_false_of_ne fun h => hk (h ▸ ho)
    simp only [hfind, if_neg hk, List.idxOf_append_of_notMem hk, List.idxOf_cons_self,
      Nat.add_zero]

end TagExpr.Climbing
