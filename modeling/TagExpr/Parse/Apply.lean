import TagExpr.Parse.Bench

/-!
# Applying operators

An operator is applied once its operands are complete: it takes them from the operand stack and
leaves the fragment it makes of them. Operands whose static type shows a misuse are rejected here.
-/

namespace TagExpr.Parse

variable {ε : Type}

/-- The types that no bitwise operator takes. -/
def bitwiseRejects : List OperandType := [.boolean, .floating, .string]

/-- Fails if the operand is known to have one of the given types. -/
def reject (symbol : String) (operand : Operand) (types : List OperandType) : Parse ε Unit :=
  if types.contains operand.type then
    fail (.invalidOperand symbol operand.type) operand.span
  else
    pure ()

/-- The literal that a sign right before a number makes of it. The least integer has no negation
to fold into. -/
def foldSign? : UnaryOp → Node → Option Literal
  | .plus, .literal (.int n) => some (.int n)
  | .plus, .literal (.double d) => some (.double d)
  | .negate, .literal (.int n) => if n = Int64.minValue then none else some (.int (-n))
  | .negate, .literal (.double d) => some (.double d.negate)
  | _, _ => none

/-- Applies an operator in front of its operand. A sign that is not folded makes its operand
floating. -/
def applyUnary (op : UnaryOp) (span : Span) : Parse ε Unit := do
  let operand ← popValue span
  let full := span.merge operand.span
  let finish (type : OperandType) : Parse ε Unit :=
    pushOperand { node := .unary op operand.node, type, span := full }
  match op with
  | .not => finish .boolean
  | .negate | .plus =>
    reject op.symbol operand [.boolean]
    match foldSign? op operand.node with
    | some folded => pushOperand (.literal folded operand.type full)
    | none => finish .floating
  | .bitNot =>
    reject op.symbol operand bitwiseRejects
    finish .integral
  | .die => finish .object

/-- The type of a value that is one of two operands. -/
def eitherType (a b : OperandType) : OperandType := if a = b then a else .object

/-- Checks the operands of a binary operator and gives the type of its value. -/
def binaryType (op : BinaryOp) (left right : Operand) : Parse ε OperandType := do
  let rejectBoth (types : List OperandType) : Parse ε Unit := do
    reject op.symbol left types
    reject op.symbol right types
  match op with
  | .add | .sub | .mul =>
    if op = .add ∧ (left.type = .string ∨ right.type = .string) then
      return .string
    rejectBoth [.boolean]
    return left.type.arithmetic right.type
  | .div | .mod | .pow =>
    rejectBoth [.boolean]
    return .floating
  | .shiftLeft | .shiftRight | .shiftRightUnsigned | .bitAnd | .bitXor | .bitOr =>
    rejectBoth bitwiseRejects
    return .integral
  | .compare => return .integral
  | .range | .rangeExclusive => return .object
  | .coalesce | .elvis | .ifPresent | .ifTruthy => return eitherType left.type right.type
  | .and | .or | .eq | .ne | .lt | .le | .gt | .ge | .find | .wholeMatch => return .boolean

def applyBinary (op : BinaryOp) (span : Span) : Parse ε Unit := do
  let right ← popValue span
  let left ← popValue span
  let type ← binaryType op left right
  pushOperand
    { node := .binary op left.node right.node, type, span := left.span.merge right.span }

/-- Applies a question mark whose colon has been seen. -/
def applyTernary (span : Span) (extra : Extra) : Parse ε Unit := do
  if extra ≠ .colonSeen then
    fail .unmatchedTernary span
  let no ← popValue span
  let yes ← popValue span
  let condition ← popValue span
  pushOperand
    { node := .ternary condition.node yes.node no.node, type := eitherType yes.type no.type,
      span := condition.span.merge no.span }

/-- Makes the entry of a map literal. -/
def applyColon (span : Span) : Parse ε Unit := do
  let value ← popValue span
  let key ← popValue span
  pushOperand (.pair key value)

/-- Applies an assignment, whose target was settled when its operator came. -/
def applyAssignment (pending : Pending) : Parse ε Unit := do
  let value ← popValue pending.span
  let target ← popValue pending.span
  let finish (node : Node) : Parse ε Unit :=
    pushOperand
      { node, type := value.type, span := target.span.merge value.span,
        binds := pending.op.kind = .bind }
  match pending.extra with
  | .assignLocal slot => finish (.assignLocal slot value.node)
  | .assignBinding template slot => finish (.assignBinding template slot value.node)
  | _ => fail .invalidAssignmentTarget target.span

/-- Applies a streaming operator and ends the scope of its clause. -/
def applyStream (op : StreamOp) (span : Span) (extra : Extra) : Parse ε Unit := do
  match extra with
  | .stream binding mark =>
    let body ← popValue span
    let source ← popValue span
    modify fun b => { b with tables := b.tables.endScope mark }
    let type := match op with
      | .remap | .flatRemap | .filter => .object
      | .reduce | .first => body.type
    pushOperand
      { node := .stream op source.node binding body.node, type,
        span := source.span.merge body.span }
  | _ => fail .unexpectedEnd span

/-- Joins two expressions with a semicolon between them; longer sequences are kept flat. -/
def joinSequence (left right : Node) : Node :=
  match left with
  | .sequence items => .sequence (items ++ [right])
  | _ => .sequence [left, right]

def applySequence (span : Span) : Parse ε Unit := do
  let right ← popValue span
  let left ← popValue span
  pushOperand
    { node := joinSequence left.node right.node, type := right.type,
      span := left.span.merge right.span, binds := right.binds }

/-- Applies an operator that has been taken from the operator stack. Containers are not applied but
closed. -/
def apply (pending : Pending) : Parse ε Unit :=
  match pending.op.kind with
  | .unary op => applyUnary op pending.span
  | .binary op => applyBinary op pending.span
  | .ternary => applyTernary pending.span pending.extra
  | .colon => applyColon pending.span
  | .assign | .bind => applyAssignment pending
  | .stream op => applyStream op pending.span pending.extra
  | .sequence => applySequence pending.span
  | .group | .listLiteral | .setLiteral | .call | .lookup _ | .navigate _ =>
    fail (.unmatchedOpener pending.op.symbol) pending.span

/-- Applies the operators on top of the given stack as long as `p` holds of them. -/
def applyWhile (p : Pending → Bool) : List Pending → Parse ε Unit
  | [] => pure ()
  | top :: below =>
    if p top then do
      modify fun b => { b with operators := ⟨below⟩ }
      apply top
      applyWhile p below
    else
      pure ()

/-- Applies the waiting operators from the top as long as `p` holds of them. -/
def reduceWhile (p : Pending → Bool) : Parse ε Unit := do
  applyWhile p (← get).operators.toList

/-- Applies every waiting operator that has to be applied before `op` is pushed. -/
def reduceFor (op : Operator) : Parse ε Unit := reduceWhile (·.op.yieldsTo op)

/-- Applies the waiting operators of the innermost container. -/
def reduceToContainer : Parse ε Unit := reduceWhile (!·.op.kind.isContainer)

/-! ## Closing containers -/

/-- The fragment of a list or set literal: a map if it holds entries only. -/
def collection? (kind : OpKind) (elements : List Operand) : Option Node :=
  if elements.all (!·.isPair) then
    let items := elements.map (·.node)
    some (if kind = .listLiteral then .list items else .set items)
  else if elements.all (·.isPair) then
    some (.map (elements.filterMap fun e => e.pairValue.map (e.node, ·)))
  else
    none

/-- Closes a parenthesis around one expression. -/
def closeGroup (elements : List Operand) (span : Span) : Parse ε Unit :=
  match elements with
  | [element] =>
    if element.isPair then
      fail .pairOutsideContainer element.span
    else
      pushOperand { node := element.node, type := element.type, span, binds := element.binds }
  | _ => fail .emptyExpression span

/-- Closes an index. -/
def closeLookup (opener : String) (safe : Bool) (elements : List Operand) (span close : Span) :
    Parse ε Unit :=
  match elements with
  | [key] =>
    if key.isPair then
      fail (.elementCount opener) span
    else do
      let receiver ← popValue span
      pushOperand (.object (.index receiver.node key.node safe) (receiver.span.merge close))
  | _ => fail (.elementCount opener) span

/-- Closes an argument list. A bare name is a named expression if one is in scope, else a method of
the section frames. -/
def closeCall (pending : Pending) (args : List Node) (span close : Span) : Parse ε Unit :=
  match pending.extra with
  | .bareCall name lookup => do
    let named ← if lookup = .unstated then namedCall? name args else pure none
    match named with
    | some node => pushOperand (.object node span)
    | none =>
      let ident ← identifier (.method name args.length)
      pushOperand (.object (.call ident lookup args) span)
  | .methodCall name safe => do
    let receiver ← popValue span
    let ident ← identifier (.method name args.length)
    pushOperand (.object (.method receiver.node ident args safe) (receiver.span.merge close))
  | .annotated name => pushOperand (.object (.annotated name args) span)
  | _ => fail (.unmatchedOpener pending.op.symbol) span

/-- Makes a fragment of a container and its elements. -/
def closeContainer (pending : Pending) (elements : List Operand) (close : Span) :
    Parse ε Unit :=
  let span := pending.span.merge close
  match pending.op.kind with
  | .group => closeGroup elements span
  | .listLiteral | .setLiteral =>
    match collection? pending.op.kind elements with
    | some node => pushOperand (.object node span)
    | none => fail .mixedContainer span
  | .lookup safe => closeLookup pending.op.symbol safe elements span close
  | .call => closeCall pending (elements.map (·.node)) span close
  | _ => fail (.unmatchedOpener pending.op.symbol) span

end TagExpr.Parse
