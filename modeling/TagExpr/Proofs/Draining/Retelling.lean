import TagExpr.Expression

/-!
# The same tree in another definition

The tree of a text mentions named expressions by their positions in a table, and the expression that
it is part of by a form of its own. Where the text stands in another definition the positions are
those of another table, and the first definition is one named expression among others.
-/

namespace TagExpr

/-- How a tree mentions named expressions where it is part of another definition. -/
structure Retelling where
  /-- The position of each named expression in the other table. -/
  target : Nat → Nat := id
  /-- The position of the first definition in the other table. -/
  self : Option Nat := none

/-- Nothing is mentioned in another way. -/
def Retelling.none : Retelling := {}

theorem Retelling.target_none (target : Nat) : Retelling.none.target target = target := rfl

theorem Retelling.self_none : Retelling.none.self = .none := rfl

namespace Node

variable (r : Retelling)

mutual

/-- The tree as it is part of the other definition. -/
def retell : Node → Node
  | .literal v => .literal v
  | .regex source => .regex source
  | .current levels => .current levels
  | .internal lookup name => .internal lookup name
  | .localVar slot => .localVar slot
  | .binding template slot => .binding template slot
  | .identifier ident lookup => .identifier ident lookup
  | .call ident lookup args => .call ident lookup (retellList args)
  | .member receiver ident safe => .member (retell receiver) ident safe
  | .method receiver ident args safe => .method (retell receiver) ident (retellList args) safe
  | .index receiver key safe => .index (retell receiver) (retell key) safe
  | .named target args => .named (r.target target) (retellList args)
  | .recurse args =>
    match r.self with
    | some target => .named target (retellList args)
    | none => .recurse (retellList args)
  | .annotated name args => .annotated name (retellList args)
  | .unary op operand => .unary op (retell operand)
  | .binary op left right => .binary op (retell left) (retell right)
  | .ternary condition yes no => .ternary (retell condition) (retell yes) (retell no)
  | .concat parts => .concat (retellList parts)
  | .list items => .list (retellList items)
  | .set items => .set (retellList items)
  | .map entries => .map (retellEntries entries)
  | .assignLocal slot value => .assignLocal slot (retell value)
  | .assignBinding template slot value => .assignBinding template slot (retell value)
  | .sequence items => .sequence (retellList items)
  | .stream op source slot body => .stream op (retell source) slot (retell body)
termination_by structural n => n

def retellList : List Node → List Node
  | [] => []
  | n :: rest => retell n :: retellList rest

def retellEntries : List (Node × Node) → List (Node × Node)
  | [] => []
  | entry :: rest => retellEntry entry :: retellEntries rest

def retellEntry : Node × Node → Node × Node
  | (key, value) => (retell key, retell value)

end

mutual

@[simp] theorem retell_none : ∀ n : Node, n.retell .none = n
  | .literal _ | .regex _ | .current _ | .internal _ _ | .localVar _ | .binding _ _
  | .identifier _ _ => rfl
  | .call _ _ args | .named _ args | .recurse args | .annotated _ args | .concat args | .list args
  | .set args | .sequence args => by
    simp only [retell, retellList_none args, Retelling.target_none, Retelling.self_none]
  | .member receiver _ _ => by rw [retell, retell_none receiver]
  | .method receiver _ args _ => by rw [retell, retell_none receiver, retellList_none args]
  | .index receiver key _ => by rw [retell, retell_none receiver, retell_none key]
  | .unary _ operand | .assignLocal _ operand | .assignBinding _ _ operand => by
    rw [retell, retell_none operand]
  | .binary _ left right => by rw [retell, retell_none left, retell_none right]
  | .ternary condition yes no => by
    rw [retell, retell_none condition, retell_none yes, retell_none no]
  | .map entries => by rw [retell, retellEntries_none entries]
  | .stream _ source _ body => by rw [retell, retell_none source, retell_none body]

theorem retellList_none : ∀ ns : List Node, retellList .none ns = ns
  | [] => rfl
  | n :: rest => by rw [retellList, retell_none n, retellList_none rest]

theorem retellEntries_none : ∀ entries : List (Node × Node), retellEntries .none entries = entries
  | [] => rfl
  | entry :: rest => by rw [retellEntries, retellEntry_none entry, retellEntries_none rest]

theorem retellEntry_none : ∀ entry : Node × Node, retellEntry .none entry = entry
  | (key, value) => by rw [retellEntry, retell_none key, retell_none value]

end

end Node

end TagExpr
