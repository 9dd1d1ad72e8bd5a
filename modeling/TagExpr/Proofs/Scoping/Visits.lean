import TagExpr.Node

/-!
# What a walk over a tree meets

A walk goes over a tree from left to right, in the order in which its text is written. What it meets
of local slots and scopes is a list of visits. A scope is entered before the body of a streaming
operator and before each part of an interpolated text, and left after it. An assignment is met where
its target stands, before its value.
-/

namespace TagExpr

/-- Where a name has its value. -/
inductive Place where
  | slot (slot : Nat)
  | binding (template : TemplateId) (slot : Nat)
  deriving DecidableEq

/-- What a walk meets. -/
inductive Visit where
  | enter
  | leave
  /-- The clause of a streaming operator: its elements go into the slot. -/
  | clause (slot : Nat)
  | assigns (place : Place)
  | reads (place : Place)
  /-- Any other operand. -/
  | other
  deriving DecidableEq

namespace Visit

/-- The local slot that the visit is about. -/
def slot? : Visit → Option Nat
  | clause slot => some slot
  | assigns (.slot slot) => some slot
  | reads (.slot slot) => some slot
  | _ => none

/-- The visits of the clause after a streaming operator. -/
def ofClause : Option Nat → List Visit
  | none => []
  | some slot => [clause slot]

/-- The visits of a part of the tree that has a scope of its own. -/
def enclosed (visits : List Visit) : List Visit := enter :: (visits ++ [leave])

/-- The visits after the scope has been left in which a walk is, which is by so many scopes inside
of the one that is meant. -/
def outside : Nat → List Visit → List Visit
  | _, [] => []
  | depth, enter :: rest => outside (depth + 1) rest
  | 0, leave :: rest => rest
  | depth + 1, leave :: rest => outside depth rest
  | depth, _ :: rest => outside depth rest

end Visit

namespace Node

mutual

/-- What a walk over the tree meets. -/
def visits : Node → List Visit
  | .literal _ | .regex _ | .current _ | .internal _ _ | .identifier _ _ => [.other]
  | .localVar slot => [.reads (.slot slot)]
  | .binding template slot => [.reads (.binding template slot)]
  | .call _ _ args | .named _ args | .recurse args | .annotated _ args =>
    .other :: visitsOfList args
  | .member receiver _ _ => visits receiver ++ [.other]
  | .method receiver _ args _ => visits receiver ++ .other :: visitsOfList args
  | .index receiver key _ => visits receiver ++ visits key
  | .unary _ operand => visits operand
  | .binary _ left right => visits left ++ visits right
  | .ternary condition yes no => visits condition ++ visits yes ++ visits no
  | .concat parts => visitsOfParts parts
  | .list items | .set items | .sequence items => visitsOfList items
  | .map [] => [.other]
  | .map (entry :: entries) => visitsOfEntry entry ++ visitsOfEntries entries
  | .assignLocal slot value => .assigns (.slot slot) :: visits value
  | .assignBinding template slot value => .assigns (.binding template slot) :: visits value
  | .stream _ source slot body =>
    visits source ++ Visit.enclosed (Visit.ofClause slot ++ visits body)
termination_by structural n => n

def visitsOfList : List Node → List Visit
  | [] => []
  | n :: rest => visits n ++ visitsOfList rest

/-- Each part of an interpolated text has a scope of its own. -/
def visitsOfParts : List Node → List Visit
  | [] => []
  | n :: rest => Visit.enclosed (visits n) ++ visitsOfParts rest

def visitsOfEntries : List (Node × Node) → List Visit
  | [] => []
  | entry :: rest => visitsOfEntry entry ++ visitsOfEntries rest

def visitsOfEntry : Node × Node → List Visit
  | (key, value) => visits key ++ visits value

end

theorem visitsOfList_append (ns ms : List Node) :
    visitsOfList (ns ++ ms) = visitsOfList ns ++ visitsOfList ms := by
  induction ns with
  | nil => rfl
  | cons n ns ih => rw [List.cons_append, visitsOfList, visitsOfList, ih, List.append_assoc]

end Node

/-! ## Scopes are nested -/

namespace Visit

/-- The visits leave the scopes that they enter, and no others. -/
inductive Nested : List Visit → Prop
  | nil : Nested []
  | cons {v : Visit} {vs : List Visit} : v ≠ enter → v ≠ leave → Nested vs → Nested (v :: vs)
  | append {us vs : List Visit} : Nested us → Nested vs → Nested (us ++ vs)
  | enclosed {vs : List Visit} : Nested vs → Nested (enclosed vs)

theorem Nested.one {v : Visit} (he : v ≠ enter) (hl : v ≠ leave) : Nested [v] := .cons he hl .nil

theorem nested_ofClause (slot : Option Nat) : Nested (ofClause slot) := by
  cases slot with
  | none => exact .nil
  | some slot => exact .one (by simp) (by simp)

theorem outside_cons {v : Visit} (he : v ≠ enter) (hl : v ≠ leave) (depth : Nat)
    (vs : List Visit) : outside depth (v :: vs) = outside depth vs := by
  cases v with
  | enter => exact absurd rfl he
  | leave => exact absurd rfl hl
  | _ => cases depth <;> rfl

theorem Nested.outside {vs : List Visit} (h : Nested vs) (depth : Nat) (rest : List Visit) :
    outside depth (vs ++ rest) = outside depth rest := by
  induction h generalizing depth rest with
  | nil => rfl
  | cons he hl _ ih => rw [List.cons_append, outside_cons he hl, ih]
  | append _ _ ihu ihv => rw [List.append_assoc, ihu, ihv]
  | @enclosed vs _ ih =>
    show Visit.outside (depth + 1) (vs ++ [leave] ++ rest) = _
    rw [List.append_assoc, ih]
    rfl

end Visit

namespace Node

open Visit

mutual

/-- **A walk over a tree leaves the scopes that it enters, and no others.** -/
theorem nested_visits : ∀ n : Node, Nested n.visits
  | .literal _ | .regex _ | .current _ | .internal _ _ | .identifier _ _ | .map [] =>
    .one nofun nofun
  | .localVar _ | .binding _ _ => .one nofun nofun
  | .call _ _ args | .named _ args | .recurse args | .annotated _ args =>
    (nested_visitsOfList args).cons nofun nofun
  | .member receiver _ _ => (nested_visits receiver).append (.one nofun nofun)
  | .method receiver _ args _ =>
    (nested_visits receiver).append ((nested_visitsOfList args).cons nofun nofun)
  | .index receiver key _ => (nested_visits receiver).append (nested_visits key)
  | .unary _ operand => nested_visits operand
  | .binary _ left right => (nested_visits left).append (nested_visits right)
  | .ternary condition yes no =>
    ((nested_visits condition).append (nested_visits yes)).append (nested_visits no)
  | .concat parts => nested_visitsOfParts parts
  | .list items | .set items | .sequence items => nested_visitsOfList items
  | .map (entry :: entries) => (nested_visitsOfEntry entry).append (nested_visitsOfEntries entries)
  | .assignLocal _ value | .assignBinding _ _ value =>
    (nested_visits value).cons nofun nofun
  | .stream _ source slot body =>
    (nested_visits source).append ((nested_ofClause slot).append (nested_visits body)).enclosed
termination_by structural n => n

theorem nested_visitsOfList : ∀ ns : List Node, Nested (visitsOfList ns)
  | [] => .nil
  | n :: rest => (nested_visits n).append (nested_visitsOfList rest)

theorem nested_visitsOfParts : ∀ ns : List Node, Nested (visitsOfParts ns)
  | [] => .nil
  | n :: rest => (nested_visits n).enclosed.append (nested_visitsOfParts rest)

theorem nested_visitsOfEntries : ∀ es : List (Node × Node), Nested (visitsOfEntries es)
  | [] => .nil
  | entry :: rest => (nested_visitsOfEntry entry).append (nested_visitsOfEntries rest)

theorem nested_visitsOfEntry : ∀ e : Node × Node, Nested (visitsOfEntry e)
  | (key, value) => (nested_visits key).append (nested_visits value)

end

end Node

end TagExpr
