import TagExpr.Double.Nearest
import TagExpr.IntRange
import TagExpr.Node
import TagExpr.Regex

/-!
# Runtime values

The values that expressions compute with. Collections are given by their members: a map and a set
list theirs in ascending order without repetition (`Value.Collection`). Streams and host objects
stand for things kept elsewhere, so they are numbers that tell them apart.
-/

namespace TagExpr

/-- A type of the host application: its number, which no other type has, and its name. -/
structure TypeTag where
  id : Nat
  name : String
  deriving Repr, DecidableEq, Inhabited

/-- The number of a stream. -/
abbrev StreamId := Nat

/-- The number of a host object. -/
abbrev ObjectId := Nat

/-- A runtime value. -/
inductive Value where
  | null
  | bool (b : Bool)
  | int (n : Int64)
  | double (d : Double)
  | str (s : String)
  | list (items : List Value)
  | map (entries : List (Value × Value))
  | set (items : List Value)
  | range (r : IntRange)
  | regex (r : Regex)
  /-- A lazy sequence that is read once. -/
  | stream (id : StreamId)
  /-- A thing of the host application with the type that describes it. The carrier says what sort
  of thing it is, for a type may be given to a thing of another sort; the content is what members
  of the type work on. -/
  | object (id : ObjectId) (tag : TypeTag) (carrier : String) (content : Value)
  /-- A host type as a value of its own. -/
  | type (tag : TypeTag)
  deriving Inhabited

namespace Value

def isNull : Value → Bool
  | null => true
  | _ => false

/-- The one rule for what counts as true. A NaN does, and so does whatever is neither number, text
nor collection. -/
def isTruthy : Value → Bool
  | null => false
  | bool b => b
  | int n => n != 0
  | double d => d.isNaN || !d.isZero
  | str s => !s.isEmpty
  | list items => !items.isEmpty
  | map entries => !entries.isEmpty
  | set items => !items.isEmpty
  | range r => !r.isEmpty
  | _ => true

/-- The name of the kind of value, which for a host object is the name of its type. -/
def typeName : Value → String
  | null => "null"
  | bool _ => "boolean"
  | int _ => "int"
  | double _ => "double"
  | str _ => "string"
  | list _ => "list"
  | map _ => "map"
  | set _ => "set"
  | range _ => "range"
  | regex _ => "regex"
  | stream _ => "stream"
  | object _ tag _ _ => tag.name
  | Value.type _ => "type"

/-- A number as a double. -/
def toDouble? : Value → Option Double
  | int n => some (Double.ofInt n.toInt)
  | double d => some d
  | _ => none

/-- The integer with this value if it fits into 64 bits. -/
def int64? (n : Int) : Option Int64 :=
  if Int64.minValue.toInt ≤ n ∧ n ≤ Int64.maxValue.toInt then some (Int64.ofInt n) else none

/-- The integer that a double is, if it is one of 64 bits. -/
def wholeDouble? (d : Double) : Option Int64 :=
  let unit : Int := (Nat.pow 2 Double.unitExponent : Nat)
  if d.isFinite && d.units % unit = 0 then int64? (d.units / unit) else none

/-- A number as an integer; a double that has a fraction is none. -/
def toInt64? : Value → Option Int64
  | int n => some n
  | double d => wholeDouble? d
  | _ => none

def toString? : Value → Option String
  | str s => some s
  | _ => none

/-- The natural number `n` as a value, as far as it fits. -/
def count (n : Nat) : Value := int (Int64.ofNat (min n Int64.maxValue.toNatClampNeg))

theorem toInt64?_int (n : Int64) : (int n).toInt64? = some n := rfl

end Value

/-- The value that a literal stands for. -/
def Literal.value : Literal → Value
  | null => .null
  | bool b => .bool b
  | int n => .int n
  | double d => .double d
  | str s => .str s

end TagExpr
