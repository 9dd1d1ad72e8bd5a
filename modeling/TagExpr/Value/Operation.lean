import TagExpr.Double.Arithmetic
import TagExpr.Value.Collection
import TagExpr.Value.Text

/-!
# Operators on values

What the operators do with values that have been computed. Sums, differences and products of two
integers are integers, and must stay within 64 bits; quotients, remainders, powers and signs are
always floating. A text on either side of a plus joins texts. Bitwise operators and ranges take
integers and doubles without a fraction.
-/

namespace TagExpr.Value

/-- A selection operator answers its right side and not its left one. -/
def selectsRight (op : BinaryOp) (left : Value) : Bool :=
  match op with
  | .coalesce => left.isNull
  | .elvis => !left.isTruthy
  | .ifPresent => !left.isNull
  | .ifTruthy => left.isTruthy
  | _ => false

def invalidOperands (op : BinaryOp) (left right : Value) : EvalFault :=
  .invalidOperands op left.typeName right.typeName

/-- The result of an integer operation if it fits. -/
def fitting (operation : IntOperation) (n : Int) : Except EvalFault Value :=
  match int64? n with
  | some n => .ok (int n)
  | none => .error (.integerOverflow operation)

/-- An operation that is integral on integers and floating on other numbers. -/
def arithmetic (op : BinaryOp) (operation : IntOperation) (onInts : Int → Int → Int)
    (onDoubles : Double → Double → Double) : Value → Value → Except EvalFault Value
  | int a, int b => fitting operation (onInts a.toInt b.toInt)
  | left, right =>
    match left.toDouble?, right.toDouble? with
    | some a, some b => .ok (double (onDoubles a b))
    | _, _ => .error (invalidOperands op left right)

/-- An operation that is floating on all numbers. -/
def floating (op : BinaryOp) (onDoubles : Double → Double → Double) (left right : Value) :
    Except EvalFault Value :=
  match left.toDouble?, right.toDouble? with
  | some a, some b => .ok (double (onDoubles a b))
  | _, _ => .error (invalidOperands op left right)

/-- An operation on integers. -/
def integral (op : BinaryOp) (f : Int64 → Int64 → Value) (left right : Value) :
    Except EvalFault Value :=
  match left.toInt64?, right.toInt64? with
  | some a, some b => .ok (f a b)
  | _, _ => .error (invalidOperands op left right)

/-- Only the low six bits of a shift distance count. -/
def shiftDistance (n : Int64) : Int64 := n &&& 63

/-- A comparison of values that have an order. -/
def ordered (accept : Ordering → Bool) (left right : Value) : Except EvalFault Value :=
  match partialCmp? left right with
  | some o => .ok (bool (accept o))
  | none => .error (.incomparable left.typeName right.typeName)

/-- An order as a number. -/
def sign : Ordering → Int64
  | .lt => -1
  | .eq => 0
  | .gt => 1

/-- The order of two values as a number, where null comes before everything. -/
def threeWay : Value → Value → Except EvalFault Value
  | null, null => .ok (int 0)
  | null, _ => .ok (int (-1))
  | _, null => .ok (int 1)
  | left, right =>
    match partialCmp? left right with
    | some o => .ok (int (sign o))
    | none => .error (.incomparable left.typeName right.typeName)

/-- The expression that a pattern operator uses: as given, or made from a text; one that has to
match the whole text is made anew. -/
def patternOf (op : BinaryOp) (left : Value) : Value → Except EvalFault (Option Regex)
  | regex r =>
    .ok (if op = .wholeMatch then Regex.compile? (Regex.wholeSource r.source) else some r)
  | str source =>
    .ok (Regex.compile? (if op = .wholeMatch then Regex.wholeSource source else source))
  | right => .error (invalidOperands op left right)

/-- The left text has the right pattern in it, or as a whole. Null has no pattern, not even a bad
one. -/
def patternMatch (h : Host) (op : BinaryOp) (left right : Value) : Except EvalFault Value := do
  let pattern ← patternOf op left right
  if left.isNull then
    return bool false
  match pattern with
  | some r => return bool (r.occursIn (left.display h))
  | none => .error .invalidRegex

/-- Joins texts if one side is a text, else adds. -/
def plus (h : Host) : Value → Value → Except EvalFault Value
  | str s, right => .ok (str (s ++ right.display h))
  | left, str s => .ok (str (left.display h ++ s))
  | left, right => arithmetic .add .addition (· + ·) Double.add left right

/-- The value of an operator with two operands. -/
def binary (h : Host) (op : BinaryOp) (left right : Value) : Except EvalFault Value :=
  match op with
  | .add => plus h left right
  | .sub => arithmetic op .subtraction (· - ·) Double.sub left right
  | .mul => arithmetic op .multiplication (· * ·) Double.mul left right
  | .div => floating op Double.div left right
  | .mod => floating op Double.mod left right
  | .pow => floating op Double.pow left right
  | .shiftLeft => integral op (fun a b => int (a <<< shiftDistance b)) left right
  | .shiftRight => integral op (fun a b => int (a >>> shiftDistance b)) left right
  | .shiftRightUnsigned =>
    integral op (fun a b => int (a.toUInt64 >>> (shiftDistance b).toUInt64).toInt64) left right
  | .bitAnd => integral op (fun a b => int (a &&& b)) left right
  | .bitXor => integral op (fun a b => int (a ^^^ b)) left right
  | .bitOr => integral op (fun a b => int (a ||| b)) left right
  | .eq => .ok (bool (left == right))
  | .ne => .ok (bool (left != right))
  | .lt => ordered Ordering.isLT left right
  | .le => ordered Ordering.isLE left right
  | .gt => ordered Ordering.isGT left right
  | .ge => ordered Ordering.isGE left right
  | .compare => threeWay left right
  | .find | .wholeMatch => patternMatch h op left right
  | .range => integral op (fun a b => range ⟨a, b, true⟩) left right
  | .rangeExclusive => integral op (fun a b => range ⟨a, b, false⟩) left right
  | .and => .ok (bool (left.isTruthy && right.isTruthy))
  | .or => .ok (bool (left.isTruthy || right.isTruthy))
  | .coalesce | .elvis | .ifPresent | .ifTruthy =>
    .ok (if selectsRight op left then right else left)

/-- The value of an operator with one operand. -/
def unary (h : Host) (op : UnaryOp) (operand : Value) : Except EvalFault Value :=
  let invalid : EvalFault := .invalidOperand op operand.typeName
  match op with
  | .not => .ok (bool !operand.isTruthy)
  | .die => .error (.halt (operand.display h))
  | .negate => match operand.toDouble? with
    | some d => .ok (double d.negate)
    | none => .error invalid
  | .plus => match operand.toDouble? with
    | some d => .ok (double d)
    | none => .error invalid
  | .bitNot => match operand.toInt64? with
    | some n => .ok (int (~~~n))
    | none => .error invalid

/-- The item at an integer position. -/
def itemAt {α : Type} (items : List α) (position : Int) : Except EvalFault α :=
  match if position < 0 then none else items[position.toNat]? with
  | some a => .ok a
  | none => .error (.indexOutOfBounds position items.length)

/-- The text of one character. -/
def ofChar (c : Char) : Value := str (String.singleton c)

/-- The value of `receiver[key]`. Lists and texts are indexed by position, maps and map-like objects
by key. -/
def index (h : Host) (receiver key : Value) : Except EvalFault Value :=
  let refused : EvalFault := .cannotIndex receiver.typeName key.typeName
  match receiver with
  | list items => match key.toInt64? with
    | some n => itemAt items n.toInt
    | none => .error refused
  | map entries => .ok ((find? entries key).getD null)
  | str s => match key.toInt64? with
    | some n => (itemAt s.toList n.toInt).map ofChar
    | none => .error refused
  | object _ tag carrier content =>
    match h.type? tag.id with
    | some t =>
      if t.isMapLike then .ok ((t.lookup? carrier content (key.display h)).getD null)
      else .error refused
    | none => .error refused
  | _ => .error refused

/-- A selection operator answers one of its sides. -/
theorem binary_eq_left_or_right {h : Host} {op : BinaryOp} {left right v : Value}
    (hop : op = .coalesce ∨ op = .elvis ∨ op = .ifPresent ∨ op = .ifTruthy)
    (hv : binary h op left right = .ok v) : v = left ∨ v = right := by
  rcases hop with rfl | rfl | rfl | rfl <;> simp only [binary, Except.ok.injEq] at hv <;>
    split at hv <;> simp_all

theorem itemAt_eq_ok_iff {α : Type} {items : List α} {position : Int} {a : α} :
    itemAt items position = .ok a ↔ 0 ≤ position ∧ items[position.toNat]? = some a := by
  unfold itemAt
  by_cases h : position < 0
  · have hn : ¬0 ≤ position := by omega
    simp [h, hn]
  · have hn : 0 ≤ position := by omega
    rw [if_neg h]
    cases items[position.toNat]? <;> simp [hn]

end TagExpr.Value
