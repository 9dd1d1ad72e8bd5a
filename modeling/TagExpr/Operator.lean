import TagExpr.Node

/-!
# The operator table

Every operator of the language with its precedence and associativity. A smaller precedence binds
tighter. The parser takes precedence from nowhere else, and in operator position the lexer
recognises exactly the symbols listed here, the closers and the comma.
-/

namespace TagExpr

/-- Which of two neighbouring operators of one precedence applies first. -/
inductive Associativity where
  | left | right
  deriving Repr, DecidableEq, Inhabited

/-- What an operator does. -/
inductive OpKind where
  /-- `( expression )` -/
  | group
  /-- `[a, b]` or `[k: v]` -/
  | listLiteral
  /-- The same in braces. -/
  | setLiteral
  /-- `name(args)` -/
  | call
  /-- `a[i]`, or with `safe` its null-tolerant form. -/
  | lookup (safe : Bool)
  /-- `a.b`, or with `safe` its null-tolerant form. -/
  | navigate (safe : Bool)
  | unary (op : UnaryOp)
  | binary (op : BinaryOp)
  /-- The question mark of a ternary. -/
  | ternary
  /-- The colon of a ternary or of a map entry. -/
  | colon
  /-- `=` -/
  | assign
  /-- `:=` -/
  | bind
  | stream (op : StreamOp)
  /-- `;` -/
  | sequence
  deriving Repr, DecidableEq, Inhabited

namespace OpKind

/-- It takes an operand on its left. -/
def hasLeft : OpKind → Bool
  | group | listLiteral | setLiteral | call | unary _ => false
  | _ => true

/-- It takes an operand on its right. -/
def hasRight : OpKind → Bool
  | navigate _ => false
  | _ => true

/-- The closer of a bracketed region. -/
def closer? : OpKind → Option String
  | group | call => some ")"
  | listLiteral | lookup _ => some "]"
  | setLiteral => some "\x7d"
  | _ => none

/-- It opens a region that only its closer ends. -/
def isContainer (k : OpKind) : Bool := k.closer?.isSome

/-- It holds any number of operands between commas, and a comma after the last is tolerated. -/
def isVariadic : OpKind → Bool
  | listLiteral | setLiteral | call => true
  | _ => false

/-- It yields null instead of failing on a null left operand. -/
def isSafe : OpKind → Bool
  | lookup safe | navigate safe => safe
  | _ => false

/-- A member name must follow. -/
def isNavigation : OpKind → Bool
  | navigate _ => true
  | _ => false

/-- A `name ->` clause may follow. -/
def isStreaming : OpKind → Bool
  | stream _ => true
  | _ => false

end OpKind

/-- An operator as the table lists it. -/
structure Operator where
  symbol : String
  precedence : Nat
  associativity : Associativity
  kind : OpKind
  deriving Repr, DecidableEq, Inhabited

namespace Operator

/-- A left associative binary operator. -/
def leftBinary (precedence : Nat) (op : BinaryOp) : Operator :=
  ⟨op.symbol, precedence, .left, .binary op⟩

/-- An operator in front of its operand. -/
def prefixed (precedence : Nat) (op : UnaryOp) : Operator :=
  ⟨op.symbol, precedence, .right, .unary op⟩

/-- A streaming operator under one of its symbols. -/
def streaming (symbol : String) (op : StreamOp) : Operator := ⟨symbol, 18, .left, .stream op⟩

/-- The operators that may stand where an operand is expected. -/
def prefixTable : List Operator := [
  ⟨"(", 0, .left, .group⟩,
  ⟨"[", 0, .left, .listLiteral⟩,
  ⟨"\x7b", 0, .left, .setLiteral⟩,
  prefixed 2 .not,
  prefixed 2 .negate,
  prefixed 2 .plus,
  prefixed 2 .bitNot,
  prefixed 19 .die]

/-- The operators that may follow an operand. -/
def infixTable : List Operator := [
  ⟨".", 0, .left, .navigate false⟩,
  ⟨"?.", 0, .left, .navigate true⟩,
  ⟨"[", 0, .left, .lookup false⟩,
  ⟨"?[", 0, .left, .lookup true⟩,
  ⟨"**", 1, .right, .binary .pow⟩,
  leftBinary 3 .mul,
  leftBinary 3 .div,
  leftBinary 3 .mod,
  leftBinary 4 .add,
  leftBinary 4 .sub,
  leftBinary 5 .shiftLeft,
  leftBinary 5 .shiftRight,
  leftBinary 5 .shiftRightUnsigned,
  leftBinary 6 .range,
  leftBinary 6 .rangeExclusive,
  leftBinary 7 .compare,
  leftBinary 8 .lt,
  leftBinary 8 .le,
  leftBinary 8 .gt,
  leftBinary 8 .ge,
  leftBinary 9 .eq,
  leftBinary 9 .ne,
  leftBinary 9 .find,
  leftBinary 9 .wholeMatch,
  leftBinary 10 .bitAnd,
  leftBinary 11 .bitXor,
  leftBinary 12 .bitOr,
  leftBinary 13 .and,
  leftBinary 14 .or,
  leftBinary 15 .coalesce,
  leftBinary 15 .elvis,
  leftBinary 15 .ifPresent,
  leftBinary 15 .ifTruthy,
  ⟨"?", 16, .right, .ternary⟩,
  ⟨":", 16, .right, .colon⟩,
  ⟨"=", 17, .right, .assign⟩,
  ⟨":=", 17, .right, .bind⟩,
  streaming "#>" .remap,
  streaming "#." .remap,
  streaming "#|" .flatRemap,
  streaming "#?" .filter,
  streaming "#<" .reduce,
  streaming "#^" .first,
  ⟨";", 20, .left, .sequence⟩]

/-- The operator that a name opens together with the parenthesis right after it; no symbol of the
tables stands for it. -/
def call : Operator := ⟨"(", 0, .left, .call⟩

/-- The symbols that end a bracketed region. -/
def closers : List String := [")", "]", "\x7d"]

/-- The operator with this symbol among those that start an operand. -/
def findPrefix? (symbol : String) : Option Operator := prefixTable.find? (·.symbol == symbol)

/-- The operator with this symbol among those that follow an operand. -/
def findInfix? (symbol : String) : Option Operator := infixTable.find? (·.symbol == symbol)

/-- `waiting`, on top of the operator stack, has to be applied before `incoming` is pushed.
Containers wait for their closer, and an operator without a left operand forces nothing. -/
def yieldsTo (waiting incoming : Operator) : Bool :=
  !waiting.kind.isContainer && incoming.kind.hasLeft &&
    (waiting.precedence < incoming.precedence ||
      (waiting.precedence == incoming.precedence && incoming.associativity == .left))

theorem yieldsTo_container {waiting incoming : Operator} (h : waiting.kind.isContainer) :
    waiting.yieldsTo incoming = false := by
  simp [yieldsTo, h]

theorem findInfix?_symbol {symbol : String} {op : Operator} (h : findInfix? symbol = some op) :
    op.symbol = symbol := by
  simpa using List.find?_some h

theorem findPrefix?_symbol {symbol : String} {op : Operator} (h : findPrefix? symbol = some op) :
    op.symbol = symbol := by
  simpa using List.find?_some h

end Operator

end TagExpr
