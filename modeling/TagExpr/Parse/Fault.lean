import TagExpr.OperandType
import TagExpr.Token

/-!
# Parse errors

Why a text is not an expression. An error holds its cause and the absolute place of it; the wording
is given once, in `message` and `title`.
-/

namespace TagExpr

/-- What stands missing where a token cannot appear. -/
inductive Expectation where
  | operand | operator
  deriving Repr, DecidableEq, Inhabited

def Expectation.phrase : Expectation → String
  | operand => "an operand"
  | operator => "an operator"

/-- Parts of the language whose use is rejected while they are switched off. -/
inductive Feature where
  | annotations | templateBindings
  deriving Repr, DecidableEq, Inhabited

def Feature.phrase : Feature → String
  | annotations => "annotations"
  | templateBindings => "template bindings"

/-- Why a text is not an expression. -/
inductive ParseFault where
  /-- The lexer found no token, or a literal is malformed. -/
  | lexical (fault : LexFault)
  /-- A token that cannot appear here. -/
  | unexpectedToken (found : String) (expected : Expectation)
  /-- The text ends while an operand or a name is missing. -/
  | unexpectedEnd
  /-- There is nothing to evaluate. -/
  | emptyExpression
  /-- An opener that is closed by the wrong closer, or not at all. -/
  | unmatchedOpener (opener : String)
  | unexpectedCloser (closer : String)
  /-- A question mark without its colon. -/
  | unmatchedTernary
  | trailingComma
  /-- A comma with nothing before it. -/
  | missingElement
  /-- A container that holds exactly one element got another number. -/
  | elementCount (opener : String)
  /-- Entries and plain values in one container literal. -/
  | mixedContainer
  | pairOutsideContainer
  | invalidAssignmentTarget
  | duplicateParameter (name : String)
  | duplicateDefinition (name : String)
  /-- An operand that is known to have the wrong shape for its operator. -/
  | invalidOperand (op : String) (operand : OperandType)
  | unknownInternalName (name : String)
  | extensionDisabled (feature : Feature)
  /-- A literal that is a token but stands for no value. -/
  | invalidLiteral
  deriving Repr, DecidableEq, Inhabited

namespace ParseFault

def message : ParseFault → String
  | lexical fault => fault.message
  | unexpectedToken found expected =>
    "unexpected '" ++ found ++ "', expected " ++ expected.phrase
  | unexpectedEnd => "unexpected end of expression"
  | emptyExpression => "unexpected empty expression"
  | unmatchedOpener opener => "unmatched '" ++ opener ++ "'"
  | unexpectedCloser closer => "unexpected '" ++ closer ++ "' without a matching opener"
  | unmatchedTernary => "unmatched '?' in ternary expression"
  | trailingComma => "trailing ',' is not allowed here"
  | missingElement => "missing element before ','"
  | elementCount opener => "'" ++ opener ++ "' expects exactly one element"
  | mixedContainer => "cannot mix 'key: value' pairs and plain values in one container"
  | pairOutsideContainer =>
    "'key: value' pair is only allowed inside '[...]' or '\x7b...\x7d'"
  | invalidAssignmentTarget => "invalid assignment target"
  | duplicateParameter name => "duplicate parameter '" ++ name ++ "'"
  | duplicateDefinition name => "named expression '" ++ name ++ "' is already defined"
  | invalidOperand op operand =>
    "operator '" ++ op ++ "' cannot be applied to a " ++ operand.name ++ " operand"
  | unknownInternalName name => "unknown internal name '." ++ name ++ "'"
  | extensionDisabled feature => feature.phrase ++ " are not enabled"
  | invalidLiteral => "invalid literal"

/-- The headline of a report. -/
def title : ParseFault → String
  | lexical _ => "UNRECOGNIZED TOKEN"
  | unexpectedToken .. => "UNEXPECTED TOKEN"
  | unexpectedEnd | emptyExpression => "INCOMPLETE EXPRESSION"
  | unmatchedOpener _ | unexpectedCloser _ | unmatchedTernary => "UNBALANCED EXPRESSION"
  | trailingComma | missingElement | elementCount _ | mixedContainer | pairOutsideContainer =>
    "INVALID CONTAINER"
  | invalidAssignmentTarget => "INVALID ASSIGNMENT"
  | duplicateParameter _ | duplicateDefinition _ => "DUPLICATE NAME"
  | invalidOperand .. => "TYPE MISMATCH"
  | unknownInternalName _ => "UNKNOWN NAME"
  | extensionDisabled _ => "DISABLED FEATURE"
  | invalidLiteral => "INVALID LITERAL"

end ParseFault

/-- A fault and its place in the template. -/
structure ParseError where
  fault : ParseFault
  span : Span
  deriving Repr, DecidableEq, Inhabited

namespace ParseError

/-- The message together with the place. -/
def render (e : ParseError) : String := e.fault.message ++ " (at " ++ e.span.render ++ ")"

/-- A lexer error in a text that begins `base` bytes into the template. -/
def ofLex (e : LexError) (base : Nat) : ParseError := ⟨.lexical e.fault, e.span.shift base⟩

end ParseError

end TagExpr
