import TagExpr.Expression
import TagExpr.Host
import TagExpr.Value.Collection

/-!
# Streams

Lazy sequences that are read once. A stream reads either from a source or from the stream before it,
through a stage that runs a body once per element. What is kept here is the state between two reads;
reading runs bodies and belongs to evaluation.
-/

namespace TagExpr

/-- The number of the local slots of one call. -/
abbrev FrameId := Nat

/-- Elements that are there without running anything. -/
inductive Source where
  | items (rest : List Value)
  /-- The integers from `next` to `last`. No count but the one behind the greatest integer leaves
  64 bits. -/
  | range (next last : Int)
  deriving Inhabited

namespace Source

/-- The next element and what is left. -/
def next? : Source → Option (Value × Source)
  | items [] => none
  | items (v :: rest) => some (v, items rest)
  | range next last =>
    if next ≤ last then some (.int (Int64.ofInt next), range (next + 1) last) else none

/-- The elements of a value that is no stream. Maps have their entries as elements, null has none,
and what has no elements of its own is its only element. -/
def ofValue (h : Host) : Value → Source
  | .null => items []
  | .list vs => items vs
  | .set vs => items vs
  | .map entries => items (entries.map fun (k, v) => Value.entryMap k v)
  | .range r =>
    match r.bounds? with
    | some (first, last) => range first last
    | none => items []
  | v@(.object _ tag carrier content) =>
    match h.elements? tag carrier content with
    | some vs => items vs
    | none => items [v]
  | v => items [v]

end Source

/-- A body that runs once per element of the stream before it, in the frame of the expression that
it is part of. -/
structure Stage where
  input : StreamId
  body : Node
  unit : Expression
  frame : FrameId
  /-- The local slot that takes each element; without one the element becomes a section. -/
  binding : Option Nat

/-- Where a stream has its elements from. -/
inductive StreamKind where
  | source (s : Source)
  | remap (stage : Stage)
  | filter (stage : Stage)
  /-- The inner stream is the one that is read until it ends. -/
  | flatRemap (stage : Stage) (inner : Option StreamId)

/-- A stream between two reads. -/
structure Stream where
  kind : StreamKind
  /-- The element that was read ahead. -/
  peeked : Option Value := none
  /-- The number of elements that the stage has taken. -/
  pulled : Nat := 0

end TagExpr
