import TagExpr.Proofs.Climbing.Meaning

/-!
# Nested ternaries

Ternaries nest in both branches, and no parentheses are needed for that: the question marks and
colons of a text bracket the expressions between them. The grammar is `T ::= A | A ? T : T`, where
an arm `A` is a chain without operators in front of its operands. A ternary may also stand in a list
or set literal, and behind the key of a map entry. The text of all these is their lexemes with a
space between two of them.
-/

namespace TagExpr.Climbing

/-- The lexemes with a space between two of them. -/
def textOf (lexemes : List String) : String := " ".intercalate lexemes

/-- The names in order of first mention. -/
def tableOf (keys : List IdentKey) : List IdentKey := keys.foldl mention []

/-! ## Arms -/

/-- What follows an operand where no operators stand in front of operands. -/
def Tail.bare (tail : List (BinaryOp × Atom)) : Tail := tail.map fun (op, atom) => (op, ⟨[], atom⟩)

/-- Operands with a binary operator between two of them. -/
structure Arm where
  head : Atom
  tail : List (BinaryOp × Atom)

namespace Arm

/-- The chain that an arm is. Its tree is that of precedence climbing. -/
def chain (a : Arm) : Chain := ⟨⟨[], a.head⟩, Tail.bare a.tail⟩

def lexemes (a : Arm) : List String := a.chain.lexemes

/-- The names that an arm mentions, in source order. -/
def keys (a : Arm) : List IdentKey := a.head.keys ++ Tail.keys (Tail.bare a.tail)

/-- The expression tree, in which names are positions in the table. -/
def node (table : List IdentKey) (a : Arm) : Node := a.chain.tree.node table

/-- The static type, if no operator refuses an operand. -/
def type? (a : Arm) : Option OperandType := a.chain.tree.type?

end Arm

/-! ## Ternaries -/

inductive Ternary where
  | arm (a : Arm)
  /-- `condition ? yes : no` -/
  | choice (condition : Arm) (yes no : Ternary)

namespace Ternary

def lexemes : Ternary → List String
  | arm a => a.lexemes
  | choice condition yes no => condition.lexemes ++ "?" :: (yes.lexemes ++ ":" :: no.lexemes)

def keys : Ternary → List IdentKey
  | arm a => a.keys
  | choice condition yes no => condition.keys ++ (yes.keys ++ no.keys)

def node (table : List IdentKey) : Ternary → Node
  | arm a => a.node table
  | choice condition yes no => .ternary (condition.node table) (yes.node table) (no.node table)

/-- The static type, if no operator refuses an operand: that of both branches if they agree. -/
def type? : Ternary → Option OperandType
  | arm a => a.type?
  | choice condition yes no =>
    match condition.type?, yes.type?, no.type? with
    | some _, some s, some t => some (Parse.eitherType s t)
    | _, _, _ => none

def text (t : Ternary) : String := textOf t.lexemes

def table (t : Ternary) : List IdentKey := tableOf t.keys

theorem type?_choice {condition : Arm} {yes no : Ternary}
    (h : condition.type? = none ∨ yes.type? = none ∨ no.type? = none) :
    (choice condition yes no).type? = none := by
  unfold type?
  split
  case h_1 hc hy hn => simp [hc, hy, hn] at h
  case h_2 => rfl

theorem type?_ne_pair (t : Ternary) : t.type? ≠ some .pair := by
  induction t with
  | arm a => exact a.chain.tree.type?_ne_pair
  | choice condition yes no ihy ihn =>
    unfold type?
    split
    case h_1 s t hc hy hn =>
      have hs : s ≠ .pair := fun h => ihy (h ▸ hy)
      simpa using Parse.eitherType_ne_pair hs t
    case h_2 => simp

end Ternary

/-! ## Literals -/

/-- The brackets around the elements of a literal. -/
inductive Bracket where
  | square
  | curly

namespace Bracket

def row : Bracket → Operator
  | square => ⟨"[", 0, .left, .listLiteral⟩
  | curly => ⟨"\x7b", 0, .left, .setLiteral⟩

def opener (b : Bracket) : String := b.row.symbol

def closer : Bracket → String
  | square => "]"
  | curly => "\x7d"

end Bracket

/-- An element of a literal: a ternary, behind its key if it is an entry of a map. -/
structure Element where
  key : Option Arm
  value : Ternary

namespace Element

def lexemes (e : Element) : List String :=
  match e.key with
  | none => e.value.lexemes
  | some key => key.lexemes ++ ":" :: e.value.lexemes

def keys (e : Element) : List IdentKey :=
  match e.key with
  | none => e.value.keys
  | some key => key.keys ++ e.value.keys

/-- No operator in the element refuses an operand. -/
def Typed (e : Element) : Prop := (∀ key ∈ e.key, key.type?.isSome) ∧ e.value.type?.isSome

instance (e : Element) : Decidable e.Typed :=
  inferInstanceAs (Decidable ((∀ key ∈ e.key, key.type?.isSome) ∧ e.value.type?.isSome))

end Element

/-- What stands between the brackets: values, or the entries of a map, at least one of them. -/
inductive Contents where
  | values (head : Ternary) (tail : List Ternary)
  | entries (head : Arm × Ternary) (tail : List (Arm × Ternary))

namespace Contents

def first : Contents → Element
  | values head _ => ⟨none, head⟩
  | entries head _ => ⟨some head.1, head.2⟩

def others : Contents → List Element
  | values _ tail => tail.map fun value => ⟨none, value⟩
  | entries _ tail => tail.map fun (key, value) => ⟨some key, value⟩

def elements (c : Contents) : List Element := c.first :: c.others

end Contents

structure Collection where
  bracket : Bracket
  contents : Contents

/-- The lexemes of elements that follow another one. -/
def othersLexemes (elements : List Element) : List String :=
  elements.flatMap fun e => "," :: e.lexemes

namespace Collection

def lexemes (c : Collection) : List String :=
  c.bracket.opener ::
    (c.contents.first.lexemes ++ (othersLexemes c.contents.others ++ [c.bracket.closer]))

def keys (c : Collection) : List IdentKey := c.contents.elements.flatMap (·.keys)

/-- The expression tree, in which names are positions in the table. -/
def node (table : List IdentKey) (c : Collection) : Node :=
  match c.contents, c.bracket with
  | .values head tail, .square => .list ((head :: tail).map (·.node table))
  | .values head tail, .curly => .set ((head :: tail).map (·.node table))
  | .entries head tail, _ =>
    .map ((head :: tail).map fun (key, value) => (key.node table, value.node table))

def text (c : Collection) : String := textOf c.lexemes

def table (c : Collection) : List IdentKey := tableOf c.keys

/-- The static type, if no operator refuses an operand. -/
def type? (c : Collection) : Option OperandType :=
  if ∀ e ∈ c.contents.elements, e.Typed then some .object else none

end Collection

end TagExpr.Climbing
