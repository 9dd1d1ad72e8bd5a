import TagExpr.Eval.Fault
import TagExpr.Value

/-!
# Host types

What the host application lets expressions see of its own types. Members that a type does not list
are not there. A member works on the content of an object whose carrier is that of its type; on an
object of another carrier fields, look-up, iteration and display are missing, and methods fail.
-/

namespace TagExpr

/-- A call into the host application. It may make objects, which take the next free number, and it
may fail. -/
abbrev HostCall := EStateM EvalFault ObjectId Value

namespace HostCall

/-- Makes an object. -/
def makeObject (tag : TypeTag) (carrier : String) (content : Value) : HostCall := fun next =>
  .ok (.object next tag carrier content) (next + 1)

/-- Fails with a message of the host application. -/
def fail (text : String) : HostCall := throw (.host text)

end HostCall

/-- The members of a host type. Methods are known by name and number of arguments. Where a member
needs the text of a value, it is handed the function that gives it. -/
structure HostType where
  tag : TypeTag
  /-- The carrier of the objects that the members work on. -/
  carrier : String
  fields : List (String × (Value → Value)) := []
  methods : List ((String × Nat) × ((Value → String) → Value → List Value → HostCall)) := []
  staticFields : List (String × Value) := []
  staticMethods : List ((String × Nat) × ((Value → String) → List Value → HostCall)) := []
  /-- What stands under a key, for a type whose properties are keys and not fields. -/
  lookup : Option (Value → String → Option Value) := none
  /-- The elements of an object that can be iterated. -/
  iterate : Option (Value → List Value) := none
  display : Option (Value → String) := none

namespace HostType

/-- Properties are keys and not fields. -/
def isMapLike (t : HostType) : Bool := t.lookup.isSome

/-- The content, if members of the type work on it. -/
def accept? (t : HostType) (carrier : String) (content : Value) : Option Value :=
  if carrier = t.carrier then some content else none

/-- What stands under a key of an object. -/
def lookup? (t : HostType) (carrier : String) (content : Value) (key : String) : Option Value :=
  match t.lookup, t.accept? carrier content with
  | some get, some content => get content key
  | _, _ => none

/-- The elements of an object. -/
def iterate? (t : HostType) (carrier : String) (content : Value) : Option (List Value) :=
  match t.iterate, t.accept? carrier content with
  | some items, some content => some (items content)
  | _, _ => none

/-- The text of an object. -/
def display? (t : HostType) (carrier : String) (content : Value) : Option String :=
  match t.display, t.accept? carrier content with
  | some text, some content => some (text content)
  | _, _ => none

end HostType

/-- The types that the host application has made known. -/
structure Host where
  types : List HostType := []

namespace Host

/-- The type with that number. -/
def type? (h : Host) (id : Nat) : Option HostType := h.types.find? (·.tag.id == id)

/-- The text of a host object; one without a text is written as the name of its type between angle
brackets. -/
def objectText (h : Host) (tag : TypeTag) (carrier : String) (content : Value) : String :=
  match (h.type? tag.id).bind (·.display? carrier content) with
  | some text => text
  | none => "<" ++ tag.name ++ ">"

/-- The elements of a host object that can be iterated. -/
def elements? (h : Host) (tag : TypeTag) (carrier : String) (content : Value) :
    Option (List Value) :=
  (h.type? tag.id).bind (·.iterate? carrier content)

end Host

end TagExpr
