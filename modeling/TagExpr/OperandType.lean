/-!
# Static operand types

What is known about the value of a fragment before anything runs. The parser uses it to reject
misuse of operators early.
-/

namespace TagExpr

/-- The static shape of an intermediate result. -/
inductive OperandType where
  | boolean
  | integral
  | floating
  /-- Unknown until the expression runs. -/
  | object
  | string
  /-- A `key: value` entry that waits for its enclosing map. -/
  | pair
  deriving Repr, DecidableEq, Inhabited

namespace OperandType

/-- Every type, in order of declaration. -/
def all : List OperandType := [boolean, integral, floating, object, string, pair]

def name : OperandType → String
  | boolean => "boolean"
  | integral => "integral"
  | floating => "floating"
  | object => "object"
  | string => "string"
  | pair => "pair"

instance : ToString OperandType := ⟨name⟩

/-- The value is a number. -/
def isNumeric : OperandType → Bool
  | integral | floating => true
  | _ => false

/-- The value may turn out to be a number. -/
def mayBeNumeric : OperandType → Bool
  | integral | floating | object => true
  | _ => false

/-- The value may turn out to be an integer. -/
def mayBeIntegral : OperandType → Bool
  | integral | object => true
  | _ => false

/-- The type of a sum, difference or product: integral only for two integral operands, floating
as soon as one side is, and unknown otherwise. -/
def arithmetic : OperandType → OperandType → OperandType
  | integral, integral => integral
  | floating, _ => floating
  | _, floating => floating
  | _, _ => object

theorem mem_all (t : OperandType) : t ∈ all := by cases t <;> decide

end OperandType

end TagExpr
