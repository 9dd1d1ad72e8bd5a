/-!
# Stacks

A last-in first-out stack with indexed access from both ends: depth `0` is the top, height `0` the
bottom. The view is `toList`, top first; every operation below is described by what it does to that
list. Depths, heights and sizes are any natural numbers.
-/

namespace TagExpr

/-- A stack of items, kept top first. -/
structure Stack (α : Type u) where
  /-- The items from the top of the stack to its bottom. -/
  toList : List α
  deriving Repr, DecidableEq

namespace Stack

variable {α : Type u}

/-- The stack without items. -/
def empty : Stack α := ⟨[]⟩

instance : EmptyCollection (Stack α) := ⟨empty⟩
instance : Inhabited (Stack α) := ⟨empty⟩

/-- The stack holding `items`, of which the first lies at the bottom. -/
def ofBottomUp (items : List α) : Stack α := ⟨items.reverse⟩

/-- The items from the bottom to the top. -/
def bottomUp (s : Stack α) : List α := s.toList.reverse

def size (s : Stack α) : Nat := s.toList.length

def isEmpty (s : Stack α) : Bool := s.toList.isEmpty

def push (s : Stack α) (a : α) : Stack α := ⟨a :: s.toList⟩

/-- The top item and the stack below it. -/
def pop? (s : Stack α) : Option (α × Stack α) :=
  match s.toList with
  | [] => none
  | a :: below => some (a, ⟨below⟩)

/-- The top `count` items, bottom-most first, and the stack below them; nothing when the stack
holds fewer. -/
def popMany? (s : Stack α) (count : Nat) : Option (List α × Stack α) :=
  if count ≤ s.size then
    some ((s.toList.take count).reverse, ⟨s.toList.drop count⟩)
  else
    none

/-- The top item. -/
def peek? (s : Stack α) : Option α := s.toList.head?

/-- The item `depth` levels below the top. -/
def peekAt? (s : Stack α) (depth : Nat) : Option α := s.toList[depth]?

/-- The item `height` levels above the bottom. -/
def peekBase? (s : Stack α) (height : Nat) : Option α := s.bottomUp[height]?

/-- Puts `f` of the item `depth` levels below the top in its place; a stack that is not that deep
stays as it is. -/
def modifyAt (s : Stack α) (depth : Nat) (f : α → α) : Stack α := ⟨s.toList.modify depth f⟩

/-- Applies `f` to every item in place. -/
def map {β : Type v} (s : Stack α) (f : α → β) : Stack β := ⟨s.toList.map f⟩

/-- Drops items from the top until at most `size` are left. -/
def truncate (s : Stack α) (size : Nat) : Stack α := ⟨s.toList.drop (s.size - size)⟩

@[simp] theorem toList_empty : (empty : Stack α).toList = [] := rfl

@[simp] theorem toList_push (s : Stack α) (a : α) : (s.push a).toList = a :: s.toList := rfl

@[simp] theorem toList_ofBottomUp (items : List α) :
    (ofBottomUp items).toList = items.reverse := rfl

@[simp] theorem bottomUp_ofBottomUp (items : List α) : (ofBottomUp items).bottomUp = items := by
  simp [bottomUp]

@[simp] theorem size_push (s : Stack α) (a : α) : (s.push a).size = s.size + 1 := rfl

@[simp] theorem pop?_push (s : Stack α) (a : α) : (s.push a).pop? = some (a, s) := rfl

theorem popMany?_eq_none_iff {s : Stack α} {count : Nat} :
    s.popMany? count = none ↔ s.size < count := by
  simp [popMany?]

@[simp] theorem toList_modifyAt (s : Stack α) (depth : Nat) (f : α → α) :
    (s.modifyAt depth f).toList = s.toList.modify depth f := rfl

end Stack

end TagExpr
