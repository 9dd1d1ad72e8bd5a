import TagExpr.Operator
import TagExpr.OperandType
import TagExpr.Parse.Fault
import TagExpr.Stack
import TagExpr.TemplateScope

/-!
# The parser's bench

What the parser works on: finished fragments on the operand stack, operators that wait for their
operands on the operator stack, the tables of the expression and the scope of the template file. An
error loses the stacks and tables; what happened to the scope stays.

Positions in the tables, local slots and the commas of a container are counted without an end. They
stand for numbers of 32 bits, and agree with them in every text of less than `2 ^ 32` bytes, which
has fewer names and commas than that.
-/

namespace TagExpr.Parse

/-! ## Tables of an expression -/

/-- The tables that an expression shares with the expressions interpolated in it. -/
structure Tables (ε : Type u) where
  /-- The members mentioned, in order of first mention. -/
  identifiers : List IdentKey := []
  /-- The named expressions called, under their names, in order of first call. -/
  expressions : List (String × ε) := []
  /-- The names of local slots that are visible, innermost first. -/
  locals : List (String × Nat) := []
  /-- The number of local slots given out. -/
  localCount : Nat := 0
  /-- The named expression whose body is being parsed. -/
  defining : Option String := none

namespace Tables

variable {ε : Type u}

/-- The position of a member in the table, which takes it in if it is new. -/
def identifier (t : Tables ε) (key : IdentKey) : Nat × Tables ε :=
  match t.identifiers.findIdx? (· == key) with
  | some index => (index, t)
  | none => (t.identifiers.length, { t with identifiers := t.identifiers ++ [key] })

/-- The position of a named expression in the table, which takes it in if it is new. -/
def expression (t : Tables ε) (name : String) (e : ε) : Nat × Tables ε :=
  match t.expressions.findIdx? (·.1 == name) with
  | some index => (index, t)
  | none => (t.expressions.length, { t with expressions := t.expressions ++ [(name, e)] })

/-- The slot of the innermost visible local of that name. -/
def local? (t : Tables ε) (name : String) : Option Nat := t.locals.lookup name

/-- Gives a new slot to a name, which is visible until the scope ends. -/
def declareLocal (t : Tables ε) (name : String) : Nat × Tables ε :=
  (t.localCount,
    { t with locals := (name, t.localCount) :: t.locals, localCount := t.localCount + 1 })

/-- The number of visible locals, to which `endScope` returns. -/
def scopeMark (t : Tables ε) : Nat := t.locals.length

/-- Hides the locals declared since `mark` was taken. -/
def endScope (t : Tables ε) (mark : Nat) : Tables ε :=
  { t with locals := t.locals.drop (t.locals.length - mark) }

end Tables

/-! ## Stack entries -/

/-- A finished fragment. -/
structure Operand where
  node : Node
  type : OperandType
  span : Span
  /-- The value of a `key: value` entry, whose key is `node`. -/
  pairValue : Option Node := none
  /-- The bare name that this operand is, if it is one. -/
  name : Option String := none
  /-- It ends in a `:=` that is not part of a larger expression. -/
  binds : Bool := false

namespace Operand

/-- A fragment of which nothing is known before it runs. -/
def object (node : Node) (span : Span) : Operand := { node, type := .object, span }

def literal (value : Literal) (type : OperandType) (span : Span) : Operand :=
  { node := .literal value, type, span }

/-- The entry of a map literal. -/
def pair (key value : Operand) : Operand :=
  { node := key.node, type := .pair, span := key.span.merge value.span,
    pairValue := some value.node }

def isPair (o : Operand) : Bool := o.type == .pair

end Operand

/-- What one occurrence of an operator carries along. -/
inductive Extra where
  | plain
  /-- A question mark whose colon has been seen. -/
  | colonSeen
  /-- `name(` -/
  | bareCall (name : String) (lookup : Lookup)
  /-- `receiver.name(` -/
  | methodCall (name : String) (safe : Bool)
  /-- `@name(` -/
  | annotated (name : String)
  | assignLocal (slot : Nat)
  | assignBinding (template : TemplateId) (slot : Nat)
  /-- A streaming operator with the slot of its clause, and the scope to return to. -/
  | stream (binding : Option Nat) (mark : Nat)
  deriving Repr, DecidableEq, Inhabited

/-- An operator that waits for its operands. -/
structure Pending where
  op : Operator
  span : Span
  /-- The height of the operand stack when the operator came. What lies above it belongs to the
  operator if it is a container. -/
  base : Nat
  /-- The commas seen in the container. -/
  commas : Nat := 0
  extra : Extra := .plain

/-! ## The bench -/

structure Bench (ε : Type u) where
  scope : TemplateScope ε
  tables : Tables ε
  operands : Stack Operand := .empty
  operators : Stack Pending := .empty

end Parse

/-- A step of the parser: it changes the bench, and may fail. -/
abbrev Parse (ε : Type) (α : Type) := EStateM ParseError (Parse.Bench ε) α

namespace Parse

variable {ε : Type}

/-- Fails with a fault at a place. -/
def fail {α : Type} (fault : ParseFault) (span : Span) : Parse ε α := throw ⟨fault, span⟩

/-- Fails on a token that cannot appear here. -/
def unexpected {α : Type} (found : String) (expected : Expectation) (span : Span) : Parse ε α :=
  fail (.unexpectedToken found expected) span

/-- Changes the tables and answers what the change answers. -/
def withTables {α : Type} (f : Tables ε → α × Tables ε) : Parse ε α :=
  modifyGet fun b =>
    let (a, tables) := f b.tables
    (a, { b with tables })

def pushOperand (operand : Operand) : Parse ε Unit :=
  modify fun b => { b with operands := b.operands.push operand }

/-- Lets an operator wait. -/
def pushOperator (op : Operator) (span : Span) (extra : Extra) : Parse ε Unit :=
  modify fun b =>
    { b with operators := b.operators.push { op, span, base := b.operands.size, extra } }

/-- The innermost container that is still open. -/
def openContainer? (b : Bench ε) : Option Pending :=
  b.operators.toList.find? (·.op.kind.isContainer)

/-- Pops an operand that has to be a plain value. Operands below the innermost open container belong
to the enclosing expression and are never taken. -/
def popValue (span : Span) : Parse ε Operand := do
  let b ← get
  let floor := ((openContainer? b).map (·.base)).getD 0
  if b.operands.size ≤ floor then
    fail .unexpectedEnd span
  else
    match b.operands.pop? with
    | none => fail .unexpectedEnd span
    | some (operand, below) =>
      set { b with operands := below }
      if operand.isPair then fail .pairOutsideContainer operand.span else return operand

/-- The position of a member in the identifier table. -/
def identifier (key : IdentKey) : Parse ε Nat := withTables (·.identifier key)

/-- The call of a named expression, or of the expression being defined, if `name` is one of
these. -/
def namedCall? (name : String) (args : List Node) : Parse ε (Option Node) := do
  let b ← get
  if !b.scope.extensions.namedExpressions then
    return none
  match b.scope.named? name with
  | none => return none
  | some .pending =>
    return if b.tables.defining = some name then some (.recurse args) else none
  | some (.defined e) =>
    let target ← withTables (·.expression name e)
    return some (.named target args)

end Parse

end TagExpr
