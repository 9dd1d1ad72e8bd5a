import TagExpr.Literal.Interpolation
import TagExpr.Parse.Apply
import TagExpr.Signature

/-!
# The parser

Tokens are taken one at a time, in operand and in operator position by turns. Operands go on the
operand stack; an operator first lets those waiting operators apply that bind at least as tightly,
and then waits itself. Two constructs go past the stacks: navigation, which binds tighter than
anything, and the colon of a ternary, which turns the innermost open question mark into an operator
with three operands.
-/

namespace TagExpr

namespace Parse

variable {ε : Type}

/-! ## Operators -/

/-- The target of `=`: the local or binding that the operand reads, else a bare name, for which a
local is declared. -/
def assignmentTarget (span : Span) : Parse ε Extra := do
  match (← get).operands.peek? with
  | none => fail .invalidAssignmentTarget span
  | some target =>
    match target.node, target.name with
    | .localVar slot, _ => return .assignLocal slot
    | .binding template slot, _ => return .assignBinding template slot
    | _, some name => return .assignLocal (← withTables (·.declareLocal name))
    | _, none => fail .invalidAssignmentTarget target.span

/-- The target of `:=`: a bare name, which is declared in the innermost template scope. -/
def bindingTarget (span : Span) : Parse ε Extra := do
  let b ← get
  if !b.scope.extensions.templateBindings then
    fail (.extensionDisabled .templateBindings) span
  match b.operands.peek? with
  | none => fail .invalidAssignmentTarget span
  | some target =>
    match target.name with
    | none => fail .invalidAssignmentTarget target.span
    | some name =>
      let ((template, slot), scope) := b.scope.declareBinding name
      set { b with scope }
      return .assignBinding template slot

/-- The optional clause after a streaming operator. -/
def streamClause (at_ : Cursor) : Parse ε (Extra × Cursor) := do
  let mark := (← get).tables.scopeMark
  match Signature.lambda? at_ with
  | none => return (.stream none mark, at_)
  | some clause =>
    let slot ← withTables (·.declareLocal clause.name)
    return (.stream (some slot) mark, clause.body)

/-- Reads the next token of a text that begins `base` bytes into the template. -/
def readToken (mode : LexMode) (base : Nat) (at_ : Cursor) :
    Parse ε (TokenKind × Span × Cursor) :=
  match Token.next mode at_ with
  | .ok (token, after) => return (token.kind, token.span.shift base, after)
  | .error e => throw (.ofLex e base)

/-- Member navigation. A call waits for its arguments; a property is applied at once. -/
def navigate (safe : Bool) (span : Span) (base : Nat) (at_ : Cursor) :
    Parse ε (LexMode × Cursor) := do
  let (kind, memberSpan, after) ← readToken .member base at_
  match kind with
  | .ident { kind := .name name, call, .. } =>
    if call then
      pushOperator .call (span.merge memberSpan) (.methodCall name safe)
      return (.operand, after)
    else
      let receiver ← popValue span
      let ident ← identifier (.property name)
      pushOperand (.object (.member receiver.node ident safe) (receiver.span.merge memberSpan))
      return (.operator, after)
  | _ => fail .unexpectedEnd memberSpan

/-- A question mark of the innermost container that waits for its colon. -/
def isOpenTernary (pending : Pending) : Bool :=
  pending.op.kind = .ternary && pending.extra = .plain

/-- A colon completes the innermost open question mark of its container; without one it makes an
entry of a map literal. -/
def colon (op : Operator) (span : Span) : Parse ε Unit := do
  reduceFor op
  let b ← get
  let region := b.operators.toList.takeWhile (!·.op.kind.isContainer)
  if region.any isOpenTernary then
    reduceWhile (!isOpenTernary ·)
    modify fun b =>
      { b with operators := b.operators.modifyAt 0 ({ · with extra := .colonSeen }) }
  else
    match openContainer? b with
    | some container =>
      if container.op.kind = .listLiteral ∨ container.op.kind = .setLiteral then
        pushOperator op span .plain
      else
        fail .pairOutsideContainer span
    | none => fail .pairOutsideContainer span

/-- A comma ends an element of a container that may hold several. -/
def comma (span : Span) : Parse ε Unit := do
  reduceToContainer
  let b ← get
  match b.operators.peek? with
  | none => unexpected "," .operator span
  | some container =>
    if !container.op.kind.isVariadic then
      unexpected "," .operator span
    else if b.operands.size - container.base ≠ container.commas + 1 then
      fail .missingElement span
    else
      set { b with
        operators := b.operators.modifyAt 0 fun c => { c with commas := c.commas + 1 } }

/-- A closer ends the innermost container, which has to be the one it belongs to. -/
def close (symbol : String) (span : Span) : Parse ε Unit := do
  reduceToContainer
  let b ← get
  match b.operators.pop? with
  | none => fail (.unexpectedCloser symbol) span
  | some (container, below) =>
    if container.op.kind.closer? ≠ some symbol then
      fail (.unmatchedOpener container.op.symbol) container.span
    else
      let count := b.operands.size - container.base
      let (elements, rest) := (b.operands.popMany? count).getD ([], b.operands)
      set { b with operators := below, operands := rest }
      if container.commas ≠ 0 ∧ elements.length = container.commas ∧
          !container.op.kind.isVariadic then
        fail .trailingComma span
      closeContainer container elements span

/-- A closer where an operand is expected is right only just after its opener or after a comma. -/
def closeWithoutOperand (symbol : String) (span : Span) : Parse ε Unit := do
  let b ← get
  match b.operators.peek? with
  | none => close symbol span
  | some top =>
    if !top.op.kind.isContainer || b.operands.size ≠ top.base + top.commas then
      unexpected symbol .operand span
    else
      close symbol span

/-- Handles an operator symbol after a complete operand. -/
def operator (symbol : String) (span : Span) (base : Nat) (at_ : Cursor) :
    Parse ε (LexMode × Cursor) := do
  if Operator.closers.contains symbol then
    close symbol span
    return (.operator, at_)
  match Operator.findInfix? symbol with
  | none => unexpected symbol .operator span
  | some op =>
    match op.kind with
    | .navigate safe => navigate safe span base at_
    | .colon =>
      colon op span
      return (.operand, at_)
    | _ =>
      reduceFor op
      let (extra, after) ← match op.kind with
        | .assign => do pure (← assignmentTarget span, at_)
        | .bind => do pure (← bindingTarget span, at_)
        | .stream _ => streamClause at_
        | _ => pure (.plain, at_)
      pushOperator op span extra
      return (.operand, after)

/-! ## Operands -/

/-- A bare name: a visible local, else a template binding, else a named expression, else a property
of the section frames. A name with marks before it is always a property. -/
def resolveName (name : String) (lookup : Lookup) (span : Span) : Parse ε Operand := do
  let property : Parse ε Node := do return .identifier (← identifier (.property name)) lookup
  if lookup ≠ .unstated then
    return .object (← property) span
  let b ← get
  let node ←
    match b.tables.local? name with
    | some slot => pure (.localVar slot)
    | none =>
      match b.scope.findBinding? name with
      | some (template, slot) => pure (.binding template slot)
      | none =>
        match ← namedCall? name [] with
        | some node => pure node
        | none => property
  return { Operand.object node span with name := some name }

/-- Handles an identifier in operand position, and tells what may come next. -/
def ident (i : Ident) (span : Span) : Parse ε LexMode := do
  match i.kind with
  | .current levels =>
    pushOperand (.object (.current levels) span)
    return .operator
  | .internal name =>
    match InternalName.ofName? name with
    | none => fail (.unknownInternalName name) span
    | some internal =>
      if i.call then
        unexpected "(" .operator span
      let type := if internal = .index then .integral else .boolean
      pushOperand { node := .internal i.lookup internal, type, span }
      return .operator
  | .annotated name =>
    if !(← get).scope.extensions.annotations then
      fail (.extensionDisabled .annotations) span
    if i.call then
      pushOperator .call span (.annotated name)
      return .operand
    else
      pushOperand (.object (.annotated name []) span)
      return .operator
  | .name name =>
    if i.call then
      pushOperator .call span (.bareCall name i.lookup)
      return .operand
    else
      pushOperand (← resolveName name i.lookup span)
      return .operator

/-- Parses another text on empty stacks, with the same tables and scope; locals declared in it are
hidden afterwards. -/
def isolated (parse : Parse ε Operand) : Parse ε Operand := do
  let outer ← get
  set { outer with operands := .empty, operators := .empty }
  let operand ← parse
  modify fun b =>
    { b with operands := outer.operands, operators := outer.operators,
             tables := b.tables.endScope outer.tables.scopeMark }
  return operand

/-- The parts of an interpolated literal whose contents begin `base` bytes into the template.
`nested` parses the source of an interpolated expression, given where it begins. -/
def segments (nested : List Char → Nat → Parse ε Operand) (base : Nat) :
    List Literal.Segment → Parse ε (List Node)
  | [] => return []
  | segment :: rest => do
    let node ← match segment with
      | .text text => pure (.str (String.ofList text))
      | .expression source offset => do pure (← isolated (nested source (base + offset))).node
      | .name name offset => do
        let start := base + offset
        let span := Span.ofRange start (start + byteLength name)
        pure (← resolveName (String.ofList name) .unstated span).node
    return node :: (← segments nested base rest)

/-- A string literal, split into its parts if it is in double quotes and interpolation is on. -/
def string (nested : List Char → Nat → Parse ε Operand) (raw : List Char) (doubleQuoted : Bool)
    (span : Span) : Parse ε Operand := do
  let base := span.start + 1
  let text (text : List Char) : Operand := .literal (.str (String.ofList text)) .string span
  if doubleQuoted && (← get).scope.extensions.interpolation then
    match Literal.split raw with
    | .error e => throw (.ofLex e base)
    | .ok [.text whole] => return text whole
    | .ok parts =>
      return { node := .concat (← segments nested base parts), type := .string, span }
  else
    match Literal.unescape raw with
    | .error e => throw (.ofLex e base)
    | .ok whole => return text whole

/-- Handles a token in operand position, and tells what may come next. -/
def operand (nested : List Char → Nat → Parse ε Operand) (kind : TokenKind) (span : Span) :
    Parse ε LexMode := do
  let complete (operand : Operand) : Parse ε LexMode := do
    pushOperand operand
    return .operator
  match kind with
  | .null => complete (.literal .null .object span)
  | .bool value => complete (.literal (.bool value) .boolean span)
  | .int value => complete (.literal (.int value) .integral span)
  | .double value => complete (.literal (.double value) .floating span)
  | .str raw doubleQuoted => complete (← string nested raw doubleQuoted span)
  | .regex raw => complete (.object (.regex (String.ofList (Literal.regexSource raw))) span)
  | .emptyMap => complete (.object (.map []) span)
  | .ident i => ident i span
  | .operator symbol =>
    if Operator.closers.contains symbol then
      closeWithoutOperand symbol span
      return .operator
    match Operator.findPrefix? symbol with
    | none => unexpected symbol .operand span
    | some op =>
      pushOperator op span .plain
      return .operand
  | .comma => unexpected "," .operand span
  | .finish =>
    let b ← get
    if b.operands.isEmpty && b.operators.isEmpty then
      fail .emptyExpression span
    else
      fail .unexpectedEnd span

/-! ## Whole texts -/

/-- Applies everything that still waits at the end of the text. One plain value has to be left. -/
def finish (span : Span) : Parse ε Operand := do
  reduceWhile fun _ => true
  match (← get).operands.toList with
  | [] => fail .emptyExpression span
  | [operand] =>
    if operand.isPair then fail .pairOutsideContainer operand.span else return operand
  | _ => fail .unexpectedEnd span

/-- Parses to the end of a text that begins `base` bytes into the template. Every round takes at
least one character, and an interpolated source is shorter than the literal that holds it, so one
more than the number of characters left is enough fuel. -/
def rounds (fuel : Nat) (mode : LexMode) (base : Nat) (at_ : Cursor) : Parse ε Operand :=
  match fuel with
  | 0 => fail .unexpectedEnd (Span.point (base + at_.offset))
  | fuel + 1 => do
    let (kind, span, after) ← readToken mode base at_
    match mode with
    | .operand =>
      let nested (source : List Char) (start : Nat) : Parse ε Operand :=
        rounds fuel .operand start (Cursor.start source)
      let mode ← operand nested kind span
      rounds fuel mode base after
    | _ =>
      match kind with
      | .finish => finish span
      | .comma =>
        comma span
        rounds fuel .operand base after
      | .operator symbol =>
        let (mode, after) ← operator symbol span base after
        rounds fuel mode base after
      | _ => unexpected "" .operator span

/-- Parses from a place of a text to its end. -/
def whole (base : Nat) (at_ : Cursor) : Parse ε Operand :=
  rounds (at_.rest.length + 1) .operand base at_

end Parse

/-! ## Expressions -/

/-- A parsed expression. Its tree refers to members and named expressions by their positions in the
tables. -/
structure Parsed (ε : Type) where
  node : Node
  type : OperandType
  /-- The name, if the text is a definition. -/
  name : Option String
  /-- The number of parameters of a definition. -/
  params : Nat
  identifiers : List IdentKey
  expressions : List ε
  /-- The number of local slots that the expression needs. -/
  localCount : Nat
  output : OutputMode
  span : Span

namespace Parsed

variable {ε : Type}

/-- Puts an expression together from its last fragment and its tables. -/
def ofOperand (operand : Parse.Operand) (tables : Parse.Tables ε) (name : Option String)
    (params : Nat) (discard : Bool) (span : Span) : Parsed ε where
  node := operand.node
  type := operand.type
  name := name
  params := params
  identifiers := tables.identifiers
  expressions := tables.expressions.map (·.2)
  localCount := tables.localCount
  output := if discard then .discard else .render
  span := span

/-- Runs the parser from a place of a text; whatever the outcome, the scope as it is left behind is
answered too. -/
def runFrom (scope : TemplateScope ε) (tables : Parse.Tables ε) (offset : Nat) (at_ : Cursor) :
    Except ParseError (Parse.Operand × Parse.Tables ε) × TemplateScope ε :=
  match EStateM.run (Parse.whole offset at_) { scope, tables } with
  | .ok operand bench => (.ok (operand, bench.tables), bench.scope)
  | .error e bench => (.error e, bench.scope)

/-- The tables with a local for each parameter, or the first parameter whose name an earlier one
has. -/
def declareParams (tables : Parse.Tables ε) :
    List (String × Span) → Except (String × Span) (Parse.Tables ε)
  | [] => .ok tables
  | (name, span) :: rest =>
    if (tables.local? name).isSome then .error (name, span)
    else declareParams (tables.declareLocal name).2 rest

/-- Parses a definition. Its name is reserved while the body is parsed, so that the body can call
itself; the caller has to complete or abandon the definition afterwards. -/
def ofDefinition (definition : Definition) (offset : Nat) (span : Span) (scope : TemplateScope ε) :
    Except ParseError (Parsed ε) × TemplateScope ε :=
  let name := definition.name
  if scope.isNamed name then
    (.error ⟨.duplicateDefinition name, definition.nameSpan.shift offset⟩, scope)
  else
    match declareParams {} definition.params with
    | .error (param, paramSpan) =>
      (.error ⟨.duplicateParameter param, paramSpan.shift offset⟩, scope)
    | .ok tables =>
      match runFrom (scope.beginDefinition name) { tables with defining := some name } offset
          definition.body with
      | (.error e, scope) => (.error e, scope.abandon name)
      | (.ok (body, tables), scope) =>
        (.ok (ofOperand body tables (some name) definition.params.length definition.discard span),
          scope)

end Parsed

/-- Parses the text of one tag, which begins `offset` bytes into the template. The scope changes
also when parsing fails. -/
def parse {ε : Type} (text : String) (offset : Nat) (scope : TemplateScope ε) :
    Except ParseError (Parsed ε) × TemplateScope ε :=
  let chars := text.toList
  let span := (Span.ofRange 0 (byteLength chars)).shift offset
  let definition :=
    if scope.extensions.namedExpressions then Signature.definition? chars else none
  match definition with
  | some definition => Parsed.ofDefinition definition offset span scope
  | none =>
    match Parsed.runFrom scope {} offset (Cursor.start chars) with
    | (.error e, scope) => (.error e, scope)
    | (.ok (operand, tables), scope) =>
      (.ok (Parsed.ofOperand operand tables none 0 operand.binds span), scope)

end TagExpr
