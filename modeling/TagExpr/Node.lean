import TagExpr.Double

/-!
# Expression trees

The tree that an expression means. A tree does not hold names of members or named expressions but
their positions in tables that stand beside it, so that two expressions of one shape have one tree
and can run one program.

The positions, the slots and the levels of section frames are any natural numbers here. They stand
for numbers of 32 bits; the parser makes none that such a number cannot hold as long as a text has
less than `2 ^ 32` bytes and a template fewer than `2 ^ 32` bindings.
-/

namespace TagExpr

/-- Operators with two operands. -/
inductive BinaryOp where
  | add | sub | mul | div | mod | pow
  | shiftLeft | shiftRight | shiftRightUnsigned | bitAnd | bitXor | bitOr
  | and | or
  | eq | ne | lt | le | gt | ge | compare | find | wholeMatch
  | range | rangeExclusive
  | coalesce | elvis | ifPresent | ifTruthy
  deriving Repr, DecidableEq, Inhabited

namespace BinaryOp

def symbol : BinaryOp → String
  | add => "+"
  | sub => "-"
  | mul => "*"
  | div => "/"
  | mod => "%"
  | pow => "**"
  | shiftLeft => "<<"
  | shiftRight => ">>"
  | shiftRightUnsigned => ">>>"
  | bitAnd => "&"
  | bitXor => "^"
  | bitOr => "|"
  | and => "&&"
  | or => "||"
  | eq => "=="
  | ne => "!="
  | lt => "<"
  | le => "<="
  | gt => ">"
  | ge => ">="
  | compare => "<=>"
  | find => "=~"
  | wholeMatch => "==~"
  | range => ".."
  | rangeExclusive => "..<"
  | coalesce => "??"
  | elvis => "?:"
  | ifPresent => "!?"
  | ifTruthy => "!:"

/-- The right operand runs only on demand. -/
def isLazy : BinaryOp → Bool
  | and | or | coalesce | elvis | ifPresent | ifTruthy => true
  | _ => false

/-- Both operands are taken as integers and worked on bit by bit. -/
def isBitwise : BinaryOp → Bool
  | shiftLeft | shiftRight | shiftRightUnsigned | bitAnd | bitXor | bitOr => true
  | _ => false

end BinaryOp

/-- Operators in front of one operand. -/
inductive UnaryOp where
  | not | negate | plus | bitNot
  /-- Aborts the whole rendering with the operand as message. -/
  | die
  deriving Repr, DecidableEq, Inhabited

namespace UnaryOp

def symbol : UnaryOp → String
  | not => "!"
  | negate => "-"
  | plus => "+"
  | bitNot => "~"
  | die => "☠"

end UnaryOp

/-- Operators that run their right side once per element of their left side. -/
inductive StreamOp where
  /-- Each element becomes the value of the body. -/
  | remap
  /-- Each element becomes the elements of the value of the body. -/
  | flatRemap
  /-- Elements stay for which the body is truthy. -/
  | filter
  /-- The value of the body for the last element. -/
  | reduce
  /-- The first value of the body that is not null. -/
  | first
  deriving Repr, DecidableEq, Inhabited

namespace StreamOp

def symbol : StreamOp → String
  | remap => "#>"
  | flatRemap => "#|"
  | filter => "#?"
  | reduce => "#<"
  | first => "#^"

end StreamOp

/-- The section frame against which a name is resolved. -/
inductive Lookup where
  /-- From the innermost frame outward until one of them has the name. -/
  | unstated
  /-- The frame that many levels above the innermost one. -/
  | backreach (levels : Nat)
  /-- The outermost frame. -/
  | root
  deriving Repr, DecidableEq, Inhabited

/-- What a frame tells about the iteration it belongs to. -/
inductive InternalName where
  | index | hasNext | isFirst
  deriving Repr, DecidableEq, Inhabited

namespace InternalName

def ofName? : String → Option InternalName
  | "index" => some index
  | "hasNext" => some hasNext
  | "isFirst" => some isFirst
  | _ => none

def name : InternalName → String
  | index => "index"
  | hasNext => "hasNext"
  | isFirst => "isFirst"

theorem ofName?_name (n : InternalName) : ofName? n.name = some n := by cases n <;> rfl

end InternalName

/-- The number of a template, or of a part inlined into one, that owns bindings. -/
abbrev TemplateId := Nat

/-- The template whose scope is always open. -/
def TemplateId.root : TemplateId := 0

/-- A member as an expression mentions it: its name and, for a call, the number of arguments. A
property and a method of one name are different members. -/
structure IdentKey where
  name : String
  arity : Option Nat := none
  deriving Repr, DecidableEq, Inhabited

namespace IdentKey

def property (name : String) : IdentKey := ⟨name, none⟩

def method (name : String) (arity : Nat) : IdentKey := ⟨name, some arity⟩

/-- A property is written as its name, a method as name and arity. -/
def render (k : IdentKey) : String :=
  match k.arity with
  | none => k.name
  | some n => k.name ++ "/" ++ toString n

instance : ToString IdentKey := ⟨render⟩

end IdentKey

/-- Constant values. -/
inductive Literal where
  | null
  | bool (value : Bool)
  | int (value : Int64)
  | double (value : Double)
  | str (value : String)
  deriving DecidableEq, Inhabited

/-- Whether the result of a tag is written to the output. -/
inductive OutputMode where
  | render
  /-- The expression runs for its effect only. -/
  | discard
  deriving Repr, DecidableEq, Inhabited

/-- An expression tree. -/
inductive Node where
  | literal (value : Literal)
  | regex (source : String)
  /-- The value of the section frame `levels` above the innermost one. -/
  | current (levels : Nat)
  | internal (lookup : Lookup) (name : InternalName)
  | localVar (slot : Nat)
  | binding (template : TemplateId) (slot : Nat)
  /-- A property of the section frames; `ident` is a position in the identifier table. -/
  | identifier (ident : Nat) (lookup : Lookup)
  | call (ident : Nat) (lookup : Lookup) (args : List Node)
  | member (receiver : Node) (ident : Nat) (safe : Bool)
  | method (receiver : Node) (ident : Nat) (args : List Node) (safe : Bool)
  | index (receiver key : Node) (safe : Bool)
  /-- A call of a named expression; `target` is a position in the expression table. -/
  | named (target : Nat) (args : List Node)
  /-- A call of the named expression whose body this is. -/
  | recurse (args : List Node)
  | annotated (name : String) (args : List Node)
  | unary (op : UnaryOp) (operand : Node)
  | binary (op : BinaryOp) (left right : Node)
  | ternary (condition yes no : Node)
  | concat (parts : List Node)
  | list (items : List Node)
  | set (items : List Node)
  | map (entries : List (Node × Node))
  | assignLocal (slot : Nat) (value : Node)
  | assignBinding (template : TemplateId) (slot : Nat) (value : Node)
  | sequence (items : List Node)
  /-- A streaming operator. Each element goes into the local slot `binding`, or becomes a section
  frame where there is none. -/
  | stream (op : StreamOp) (source : Node) (binding : Option Nat) (body : Node)
  deriving Inhabited

namespace Node

/-- A string constant. -/
def str (text : String) : Node := .literal (.str text)

end Node

end TagExpr
