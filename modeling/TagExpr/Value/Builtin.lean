import TagExpr.Text.Case
import TagExpr.Text.Search
import TagExpr.Value.Operation

/-!
# Members of builtin values

The methods of texts, lists, maps, sets and ranges. A method is known by its name and the number of
its arguments; positions in a text count characters. A method fails rather than guess at a bad
argument.
-/

namespace TagExpr

/-- Methods of texts. -/
inductive TextMethod where
  | length | isEmpty | toUpperCase | toLowerCase | trim
  | contains | startsWith | endsWith | indexOf
  | substringFrom | substring | replace | split | charAt
  deriving Repr, DecidableEq, Inhabited

/-- Methods of lists. -/
inductive ListMethod where
  | size | isEmpty | get | contains | indexOf
  deriving Repr, DecidableEq, Inhabited

/-- Methods of maps. -/
inductive MapMethod where
  | size | isEmpty | get | containsKey | keySet | values
  deriving Repr, DecidableEq, Inhabited

/-- Methods of sets. -/
inductive SetMethod where
  | size | isEmpty | contains
  deriving Repr, DecidableEq, Inhabited

/-- Methods of ranges. -/
inductive RangeMethod where
  | size | contains
  deriving Repr, DecidableEq, Inhabited

/-- A method of a builtin value. -/
inductive Builtin where
  | text (m : TextMethod)
  | list (m : ListMethod)
  | map (m : MapMethod)
  | set (m : SetMethod)
  | range (m : RangeMethod)
  deriving Repr, DecidableEq, Inhabited

namespace Value

/-- An argument as an integer. -/
def integerArgument (method : String) (v : Value) : Except EvalFault Int :=
  match v.toInt64? with
  | some n => .ok n.toInt
  | none => .error (.invalidArgument method "an integer" v.typeName)

/-- An argument as a place between the characters of a text, both ends included. -/
def placeArgument (method : String) (v : Value) (text : List Char) : Except EvalFault Nat := do
  let n ← integerArgument method v
  if 0 ≤ n ∧ n ≤ text.length then return n.toNat
  else .error (.indexOutOfBounds n text.length)

/-- A place that was found, or minus one. -/
def found : Option Nat → Value
  | some n => count n
  | none => int (-1)

def ofChars (text : List Char) : Value := str (String.ofList text)

end Value

open Value

namespace TextMethod

def named? : String → Nat → Option TextMethod
  | "length", 0 => some length
  | "isEmpty", 0 => some isEmpty
  | "toUpperCase", 0 => some toUpperCase
  | "toLowerCase", 0 => some toLowerCase
  | "trim", 0 => some trim
  | "contains", 1 => some contains
  | "startsWith", 1 => some startsWith
  | "endsWith", 1 => some endsWith
  | "indexOf", 1 => some indexOf
  | "substring", 1 => some substringFrom
  | "substring", 2 => some substring
  | "replace", 2 => some replace
  | "split", 1 => some split
  | "charAt", 1 => some charAt
  | _, _ => none

/-- The value of a method of a text; `a` and `b` are its first two arguments. -/
def call (h : Host) (s : String) (a b : Value) : TextMethod → Except EvalFault Value
  | length => .ok (count s.toList.length)
  | isEmpty => .ok (bool s.isEmpty)
  | toUpperCase => .ok (str (Text.toUpper s))
  | toLowerCase => .ok (str (Text.toLower s))
  | trim => .ok (str (Text.trim s))
  | contains => .ok (bool (Text.contains (a.display h).toList s.toList))
  | startsWith => .ok (bool ((a.display h).toList.isPrefixOf s.toList))
  | endsWith => .ok (bool ((a.display h).toList.isSuffixOf s.toList))
  | indexOf => .ok (found (Text.find? (a.display h).toList s.toList))
  | substringFrom => do
    let start ← placeArgument "substring" a s.toList
    return ofChars (s.toList.drop start)
  | substring => do
    let start ← placeArgument "substring" a s.toList
    let stop ← placeArgument "substring" b s.toList
    if stop < start then .error (.indexOutOfBounds stop start)
    else return ofChars ((s.toList.drop start).take (stop - start))
  | replace => .ok (ofChars (Text.replace (a.display h).toList (b.display h).toList s.toList))
  | split => .ok (list ((Text.split (a.display h).toList s.toList).map ofChars))
  | charAt => do
    let n ← integerArgument "charAt" a
    return ofChar (← itemAt s.toList n)

end TextMethod

namespace ListMethod

def named? : String → Nat → Option ListMethod
  | "size", 0 => some size
  | "isEmpty", 0 => some isEmpty
  | "get", 1 => some get
  | "contains", 1 => some contains
  | "indexOf", 1 => some indexOf
  | _, _ => none

/-- The value of a method of a list; `a` is its argument. -/
def call (items : List Value) (a : Value) : ListMethod → Except EvalFault Value
  | size => .ok (count items.length)
  | isEmpty => .ok (bool items.isEmpty)
  | get => do itemAt items (← integerArgument "get" a)
  | contains => .ok (bool (memberOf a items))
  | indexOf => .ok (found (items.findIdx? (· == a)))

end ListMethod

namespace MapMethod

def named? : String → Nat → Option MapMethod
  | "size", 0 => some size
  | "isEmpty", 0 => some isEmpty
  | "get", 1 => some get
  | "containsKey", 1 => some containsKey
  | "keySet", 0 => some keySet
  | "values", 0 => some values
  | _, _ => none

/-- The value of a method of a map; `a` is its argument. -/
def call (entries : List (Value × Value)) (a : Value) : MapMethod → Except EvalFault Value
  | size => .ok (count entries.length)
  | isEmpty => .ok (bool entries.isEmpty)
  | get => .ok ((find? entries a).getD null)
  | containsKey => .ok (bool (find? entries a).isSome)
  | keySet => .ok (ofItems (entries.map (·.1)))
  | values => .ok (list (entries.map (·.2)))

end MapMethod

namespace SetMethod

def named? : String → Nat → Option SetMethod
  | "size", 0 => some size
  | "isEmpty", 0 => some isEmpty
  | "contains", 1 => some contains
  | _, _ => none

/-- The value of a method of a set; `a` is its argument. -/
def call (items : List Value) (a : Value) : SetMethod → Except EvalFault Value
  | size => .ok (count items.length)
  | isEmpty => .ok (bool items.isEmpty)
  | contains => .ok (bool (memberOf a items))

end SetMethod

namespace RangeMethod

def named? : String → Nat → Option RangeMethod
  | "size", 0 => some size
  | "contains", 1 => some contains
  | _, _ => none

/-- The value of a method of a range; `a` is its argument. -/
def call (r : IntRange) (a : Value) : RangeMethod → Except EvalFault Value
  | size => .ok (count r.length)
  | contains => .ok (bool ((a.toInt64?.map fun n => r.contains n.toInt).getD false))

end RangeMethod

namespace Builtin

/-- The method of that name which a value has for that many arguments. -/
def find? (receiver : Value) (name : String) (arity : Nat) : Option Builtin :=
  match receiver with
  | .str _ => (TextMethod.named? name arity).map text
  | .list _ => (ListMethod.named? name arity).map list
  | .map _ => (MapMethod.named? name arity).map map
  | .set _ => (SetMethod.named? name arity).map set
  | .range _ => (RangeMethod.named? name arity).map range
  | _ => none

/-- The value of a method. A method called on a value that does not have it fails. -/
def call (h : Host) (receiver : Value) (args : List Value) : Builtin → Except EvalFault Value :=
  let a := args.getD 0 .null
  let b := args.getD 1 .null
  fun
  | text m => match receiver with
    | .str s => m.call h s a b
    | other => .error (.invalidArgument "string method" "a string" other.typeName)
  | list m => match receiver with
    | .list items => m.call items a
    | other => .error (.invalidArgument "list method" "a list" other.typeName)
  | map m => match receiver with
    | .map entries => m.call entries a
    | other => .error (.invalidArgument "map method" "a map" other.typeName)
  | set m => match receiver with
    | .set items => m.call items a
    | other => .error (.invalidArgument "set method" "a set" other.typeName)
  | range m => match receiver with
    | .range r => m.call r a
    | other => .error (.invalidArgument "range method" "a range" other.typeName)

end Builtin

end TagExpr
