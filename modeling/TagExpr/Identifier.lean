import TagExpr.Value.Builtin

/-!
# Identifiers

An identifier is a member as expressions mention it. How the member is found on a receiver depends
only on the shapes of the receiver and of the arguments, so the way found first is kept for that
shape. A miss, for which nothing of that name is there, is told apart from a member that is there
and fails: the latter has the value null.
-/

namespace TagExpr

/-- What of a value decides how its members are found. -/
inductive Shape where
  | null | bool | int | double | str | list | map | set | range | stream | regex
  /-- An object of the host type with that number. -/
  | object (type : Nat)
  | type (type : Nat)
  deriving Repr, DecidableEq, Inhabited

def Value.shape : Value → Shape
  | .null => .null
  | .bool _ => .bool
  | .int _ => .int
  | .double _ => .double
  | .str _ => .str
  | .list _ => .list
  | .map _ => .map
  | .set _ => .set
  | .range _ => .range
  | .stream _ => .stream
  | .regex _ => .regex
  | .object _ tag _ _ => .object tag.id
  | .type tag => .type tag.id

/-- The shapes of a receiver and of arguments. -/
structure ShapeKey where
  receiver : Shape
  args : List Shape
  deriving Repr, DecidableEq, Inhabited

/-- A way to find a member. Ways into the host application go through the host type at hand. -/
inductive Resolver where
  | mapLookup
  | hostLookup (type : HostType)
  | builtin (method : Builtin)
  | field (type : HostType) (get : Value → Value)
  | method (type : HostType) (call : (Value → String) → Value → List Value → HostCall)
  | staticField (value : Value)
  | staticMethod (call : (Value → String) → List Value → HostCall)
  | missing

namespace Resolver

/-- The sort of a way. A look-up in a map-like object is one as in a map. -/
inductive Kind where
  | mapLookup | builtin | field | method | staticField | staticMethod | missing
  deriving Repr, DecidableEq, Inhabited

def kind : Resolver → Kind
  | mapLookup | hostLookup _ => .mapLookup
  | builtin _ => .builtin
  | field .. => .field
  | method .. => .method
  | staticField _ => .staticField
  | staticMethod _ => .staticMethod
  | missing => .missing

/-- The way to find a member on a receiver. Maps and map-like objects look their properties up;
a property of another builtin value is its method without arguments. -/
def find? (h : Host) (key : IdentKey) (receiver : Value) (arity : Nat) : Option Resolver :=
  match receiver, key.arity with
  | .map _, none => some mapLookup
  | .object _ tag _ _, none => do
    let t ← h.type? tag.id
    if t.isMapLike then return hostLookup t else return field t (← t.fields.lookup key.name)
  | .object _ tag _ _, some _ => do
    let t ← h.type? tag.id
    return method t (← t.methods.lookup (key.name, arity))
  | .type tag, none => do
    let t ← h.type? tag.id
    return staticField (← t.staticFields.lookup key.name)
  | .type tag, some _ => do
    let t ← h.type? tag.id
    return staticMethod (← t.staticMethods.lookup (key.name, arity))
  | _, _ => (Builtin.find? receiver key.name arity).map builtin

/-- The value of a host call; a call that fails has the value null. -/
def settle (call : HostCall) : StateM ObjectId (Option Value) := fun next =>
  match call.run next with
  | .ok v next => (some v, next)
  | .error _ next => (some .null, next)

/-- Follows the way to a member called `name` on a receiver. -/
def follow (h : Host) (name : String) (receiver : Value) (args : List Value) :
    Resolver → StateM ObjectId (Option Value)
  | mapLookup => match receiver with
    | .map entries => pure (Value.find? entries (.str name))
    | _ => pure none
  | hostLookup t => match receiver with
    | .object _ _ carrier content => pure (t.lookup? carrier content name)
    | _ => pure none
  | builtin m => match m.call h receiver args with
    | .ok v => pure (some v)
    | .error _ => pure (some .null)
  | field t get => match receiver with
    | .object _ _ carrier content => pure ((t.accept? carrier content).map get)
    | _ => pure none
  | method t call => match receiver with
    | .object _ _ carrier content =>
      match t.accept? carrier content with
      | some content => settle (call (Value.display h) content args)
      | none => pure (some .null)
    | _ => pure none
  | staticField v => match receiver with
    | .type _ => pure (some v)
    | _ => pure none
  | staticMethod call => match receiver with
    | .type _ => settle (call (Value.display h) args)
    | _ => pure none
  | missing => pure none

end Resolver

/-- A member with the ways to find it that are known so far. -/
structure Identifier where
  key : IdentKey
  known : List (ShapeKey × Resolver) := []

namespace Identifier

def fresh (key : IdentKey) : Identifier := { key }

/-- The number of shapes for which the way is known. -/
def knownShapes (i : Identifier) : Nat := i.known.length

/-- The way to the member on a receiver, which is known from then on. -/
def resolver (h : Host) (i : Identifier) (receiver : Value) (args : List Value) :
    Resolver × Identifier :=
  let shape : ShapeKey := ⟨receiver.shape, args.map Value.shape⟩
  match i.known.lookup shape with
  | some r => (r, i)
  | none =>
    let r := (Resolver.find? h i.key receiver args.length).getD .missing
    (r, { i with known := (shape, r) :: i.known })

/-- Reads or calls the member on a receiver. -/
def get (h : Host) (i : Identifier) (receiver : Value) (args : List Value) :
    StateM ObjectId (Option Value × Identifier) := do
  let (r, i) := i.resolver h receiver args
  return (← r.follow h i.key.name receiver args, i)

/-- The sort of the way to the member on a receiver. -/
def kind (h : Host) (i : Identifier) (receiver : Value) (args : List Value) :
    Resolver.Kind × Identifier :=
  let (r, i) := i.resolver h receiver args
  (r.kind, i)

theorem key_resolver (h : Host) (i : Identifier) (receiver : Value) (args : List Value) :
    (i.resolver h receiver args).2.key = i.key := by
  simp only [resolver]
  split <;> rfl

end Identifier

end TagExpr
