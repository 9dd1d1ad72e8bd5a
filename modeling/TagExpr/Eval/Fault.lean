import TagExpr.Node
import TagExpr.Span

/-!
# Runtime errors

Why an evaluation fails. A halt ends the whole rendering; any other fault ends only the expression
in which it arises. Values are named by their kind. The wording is given once, in `message`.
-/

namespace TagExpr

/-- The operations on integers that can leave their 64 bits. -/
inductive IntOperation where
  | addition | subtraction | multiplication
  deriving Repr, DecidableEq, Inhabited

def IntOperation.name : IntOperation → String
  | addition => "addition"
  | subtraction => "subtraction"
  | multiplication => "multiplication"

/-- Why an evaluation fails. -/
inductive EvalFault where
  /-- The expression asked to end the rendering. -/
  | halt (text : String)
  | invalidOperand (op : UnaryOp) (operand : String)
  | invalidOperands (op : BinaryOp) (left right : String)
  | integerOverflow (operation : IntOperation)
  | incomparable (left right : String)
  | indexOutOfBounds (index : Int) (length : Nat)
  | cannotIndex (receiver index : String)
  | nullReceiver (member : String)
  /-- A binding of a template of which no frame is there. -/
  | noTemplateFrame (template : TemplateId)
  | invalidArgument (method expected found : String)
  /-- A text used as a pattern is none. -/
  | invalidRegex
  | recursionLimit (limit : Nat)
  /-- A failure that the host application reports. -/
  | host (text : String)
  deriving Repr, DecidableEq, Inhabited

namespace EvalFault

def isHalt : EvalFault → Bool
  | halt _ => true
  | _ => false

def message : EvalFault → String
  | halt text => "rendering halted: " ++ text
  | invalidOperand op operand =>
    "operator '" ++ op.symbol ++ "' cannot be applied to " ++ operand
  | invalidOperands op left right =>
    "operator '" ++ op.symbol ++ "' cannot be applied to " ++ left ++ " and " ++ right
  | integerOverflow operation => "integer overflow in " ++ operation.name
  | incomparable left right => "cannot compare " ++ left ++ " with " ++ right
  | indexOutOfBounds index length =>
    "index " ++ toString index ++ " out of bounds for length " ++ toString length
  | cannotIndex receiver index => "cannot index " ++ receiver ++ " with " ++ index
  | nullReceiver member => "cannot access '" ++ member ++ "' on null"
  | noTemplateFrame template =>
    "no template frame for binding TemplateId(" ++ toString template ++ ")"
  | invalidArgument method expected found =>
    method ++ " expects " ++ expected ++ ", got " ++ found
  | invalidRegex => "invalid regular expression"
  | recursionLimit limit => "maximum call depth of " ++ toString limit ++ " exceeded"
  | host text => text

end EvalFault

/-- A fault and, once it has left an expression, the place of that expression. -/
structure EvalError where
  fault : EvalFault
  span : Option Span := none
  deriving Repr, DecidableEq, Inhabited

namespace EvalError

/-- Gives the error a place, unless it has one. -/
def withSpan (e : EvalError) (span : Span) : EvalError :=
  { e with span := some (e.span.getD span) }

def isHalt (e : EvalError) : Bool := e.fault.isHalt

theorem span_withSpan_withSpan (e : EvalError) (a b : Span) :
    (e.withSpan a).withSpan b = e.withSpan a := rfl

end EvalError

end TagExpr
