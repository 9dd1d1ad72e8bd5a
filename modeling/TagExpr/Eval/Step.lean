import TagExpr.Machine

/-!
# One level of evaluation

What a tree means, given what running a body and reading a stream mean. Running a body in another
frame and reading a stream are not part of the recursion over the tree: they come in as `Calls`, so
that everything said about a tree can be said by induction on it, for any calls.

Operands run from left to right and before the operation itself. The exceptions are the operators
that choose between their sides.
-/

namespace TagExpr

/-- The ways in which evaluation goes on outside the tree at hand. -/
structure Calls where
  /-- Runs a tree of an expression in a frame. -/
  run : Expression → FrameId → Node → Eval Value
  /-- Makes the next element of a stream, whatever was read ahead. -/
  pull : StreamId → Eval (Option Value)
  /-- What a tree comes to whose position lies outside its table. -/
  missing : Eval Value

namespace Calls

/-! ## Calls of expressions -/

/-- Calls an expression. The first argument becomes a section for the time of the call. -/
def invoke (calls : Calls) (e : Expression) (args : List Value) : Eval Value := do
  let c ← Eval.context
  if c.maxCallDepth ≤ c.callDepth then
    Eval.fail (.recursionLimit c.maxCallDepth)
  else
    let frame ← Eval.newFrame (e.initialSlots .null args)
    Eval.located e.span
      (Eval.during (·.enterCall args.head?) (·.leaveCall args.head?) (calls.run e frame e.body))

/-! ## Reading streams -/

/-- The next element of a stream. -/
def next (calls : Calls) (id : StreamId) : Eval (Option Value) := do
  match ← Eval.takePeeked id with
  | some v => return some v
  | none => calls.pull id

/-- Whether a stream has another element, which is read ahead. -/
def hasNext (calls : Calls) (id : StreamId) : Eval Bool := do
  if ((← Eval.stream? id).bind (·.peeked)).isSome then
    return true
  else
    let v ← calls.pull id
    Eval.modifyStream id fun s => { s with peeked := v }
    return v.isSome

/-- Runs the body of a stage for one element, which becomes a local or a section. -/
def runStage (calls : Calls) (stage : Stage) (item : Value) (index : Nat) : Eval Value := do
  match stage.binding with
  | some slot =>
    Eval.setLocal stage.frame slot item
    calls.run stage.unit stage.frame stage.body
  | none =>
    let s : Section :=
      { value := item, index := some index, following := .stream stage.input }
    Eval.during (·.pushSection s) (·.dropSection) (calls.run stage.unit stage.frame stage.body)

/-- The next element of the stream before a stage, with the value of the body for it. -/
def stageNext (calls : Calls) (id : StreamId) (stage : Stage) :
    Eval (Option (Value × Value)) := do
  match ← calls.next stage.input with
  | none => return none
  | some item =>
    let index ← Eval.countPulled id
    return some (item, ← calls.runStage stage item index)

/-- The next element for which the body is truthy. -/
def pullFiltered (calls : Calls) (id : StreamId) (stage : Stage) : Nat → Eval (Option Value)
  | 0 => throw .exhausted
  | fuel + 1 => do
    match ← calls.stageNext id stage with
    | none => return none
    | some (item, verdict) =>
      if verdict.isTruthy then return some item else calls.pullFiltered id stage fuel

/-- The next element of the inner stream; one that has ended is replaced by the elements of the next
value of the body. -/
def pullFlat (calls : Calls) (h : Host) (id : StreamId) (stage : Stage) :
    Nat → Eval (Option Value)
  | 0 => throw .exhausted
  | fuel + 1 => do
    let fromInner ← match ← Eval.innerStream? id with
      | some inner => calls.next inner
      | none => pure none
    match fromInner with
    | some v => return some v
    | none =>
      Eval.setInner id none
      match ← calls.stageNext id stage with
      | none => return none
      | some (_, produced) =>
        let inner ← Eval.streamOf h produced
        Eval.setInner id (some inner)
        calls.pullFlat h id stage fuel

/-- Makes the next element of a stream; no more than `fuel` elements are taken for it. -/
def pullStream (calls : Calls) (h : Host) (fuel : Nat) (id : StreamId) : Eval (Option Value) := do
  match ← Eval.stream? id with
  | none => return none
  | some s =>
    match s.kind with
    | .source source =>
      match source.next? with
      | none => return none
      | some (v, rest) =>
        Eval.modifyStream id fun s => { s with kind := .source rest }
        return some v
    | .remap stage => return (← calls.stageNext id stage).map (·.2)
    | .filter stage => calls.pullFiltered id stage fuel
    | .flatRemap stage _ => calls.pullFlat h id stage fuel

/-- The remaining elements of a stream. -/
def collect (calls : Calls) (id : StreamId) : Nat → Eval (List Value)
  | 0 => throw .exhausted
  | fuel + 1 => do
    match ← calls.next id with
    | none => return []
    | some v => return v :: (← calls.collect id fuel)

/-- The value of the body for the last element. -/
def reduceStage (calls : Calls) (stage : Stage) : Nat → Nat → Value → Eval Value
  | 0, _, _ => throw .exhausted
  | fuel + 1, index, last => do
    match ← calls.next stage.input with
    | none => return last
    | some item => calls.reduceStage stage fuel (index + 1) (← calls.runStage stage item index)

/-- The first value of the body that is not null; no element is taken after it. -/
def firstOfStage (calls : Calls) (stage : Stage) : Nat → Nat → Eval Value
  | 0, _ => throw .exhausted
  | fuel + 1, index => do
    match ← calls.next stage.input with
    | none => return .null
    | some item =>
      let v ← calls.runStage stage item index
      if v.isNull then calls.firstOfStage stage fuel (index + 1) else return v

/-- Applies a streaming operator to a stage. Only the last two operators take elements. -/
def applyStage (calls : Calls) (fuel : Nat) (stage : Stage) : StreamOp → Eval Value
  | .remap => return .stream (← Eval.newStream { kind := .remap stage })
  | .filter => return .stream (← Eval.newStream { kind := .filter stage })
  | .flatRemap => return .stream (← Eval.newStream { kind := .flatRemap stage none })
  | .reduce => calls.reduceStage stage fuel 0 .null
  | .first => calls.firstOfStage stage fuel 0

/-! ## Sections and members -/

/-- What a section tells about its iteration; null if there is no such section. -/
def internal (calls : Calls) (lookup : Lookup) (name : InternalName) : Eval Value := do
  match (← Eval.context).section? lookup with
  | none => return .null
  | some s =>
    match name with
    | .index => return (s.index.map Value.count).getD .null
    | .isFirst => return .bool (s.index == some 0)
    | .hasNext =>
      match s.following with
      | .known b => return .bool b
      | .stream id => return .bool (← calls.hasNext id)

end Calls

namespace Eval

/-- The value of a member of a receiver. Null has no members: a safe access to one is null and any
other fails. -/
def access (h : Host) (ref : IdentifierRef) (receiver : Value) (args : List Value)
    (safe : Bool) : Eval Value := do
  if receiver.isNull then
    if safe then return .null else fail (.nullReceiver ref.key.name)
  else
    return (← member h ref receiver args).getD .null

/-- Calls the handler of an annotation; one without a handler is null. -/
def annotate (env : Environment) (name : String) (args : List Value) : Eval Value :=
  match env.annotations.lookup name with
  | some handler => handler args
  | none => pure .null

end Eval

namespace Node

variable (env : Environment) (calls : Calls) (fuel : Nat) (e : Expression) (frame : FrameId)

mutual

/-- The value of a tree of the expression `e` in a frame. -/
def eval : Node → Eval Value
  | .literal v => return v.value
  | .regex source =>
    match Regex.compile? source with
    | some r => return .regex r
    | none => Eval.fail .invalidRegex
  | .current levels => return (← Eval.context).sectionValue levels
  | .internal lookup name => calls.internal lookup name
  | .localVar slot => do
    match ← Eval.localValue? frame slot with
    | some v => return v
    | none => calls.missing
  | .binding template slot => return (← Eval.context).binding template slot
  | .identifier ident lookup =>
    match e.identifiers[ident]? with
    | some ref => Eval.resolve env.host ref lookup []
    | none => calls.missing
  | .call ident lookup args => do
    let values ← evalList args
    match e.identifiers[ident]? with
    | some ref => Eval.resolve env.host ref lookup values
    | none => calls.missing
  | .member receiver ident safe => do
    let target ← eval receiver
    match e.identifiers[ident]? with
    | some ref => Eval.access env.host ref target [] safe
    | none => calls.missing
  | .method receiver ident args safe => do
    let target ← eval receiver
    if target.isNull && safe then return .null
    else
      let values ← evalList args
      match e.identifiers[ident]? with
      | some ref => Eval.access env.host ref target values safe
      | none => calls.missing
  | .index receiver key safe => do
    let target ← eval receiver
    if target.isNull && safe then return .null
    else Eval.ofExcept (target.index env.host (← eval key))
  | .named target args => do
    let values ← evalList args
    match e.expressions[target]? with
    | some callee => calls.invoke callee values
    | none => calls.missing
  | .recurse args => do calls.invoke e (← evalList args)
  | .annotated name args => do Eval.annotate env name (← evalList args)
  | .unary op operand => do Eval.ofExcept (Value.unary env.host op (← eval operand))
  | .binary op left right => do
    let l ← eval left
    match op with
    | .and => if l.isTruthy then return .bool (← eval right).isTruthy else return .bool false
    | .or => if l.isTruthy then return .bool true else return .bool (← eval right).isTruthy
    | .coalesce | .elvis | .ifPresent | .ifTruthy =>
      if Value.selectsRight op l then eval right else return l
    | _ => Eval.ofExcept (Value.binary env.host op l (← eval right))
  | .ternary condition yes no => do
    if (← eval condition).isTruthy then eval yes else eval no
  | .concat parts => do
    return .str (String.join ((← evalList parts).map (Value.display env.host)))
  | .list items => return .list (← evalList items)
  | .set items => return Value.ofItems (← evalList items)
  | .map entries => return Value.ofEntries (← evalEntries entries)
  | .assignLocal slot value => do
    let v ← eval value
    Eval.setLocal frame slot v
    return v
  | .assignBinding template slot value => do
    let v ← eval value
    let c ← Eval.ofExcept ((← Eval.context).setBinding template slot v)
    Eval.modifyContext fun _ => c
    return v
  | .sequence items => return (← evalList items).getLastD .null
  | .stream op source slot body => do
    let input ← Eval.streamOf env.host (← eval source)
    calls.applyStage fuel { input, body, unit := e, frame, binding := slot } op
termination_by structural n => n

/-- The values of some trees, from left to right. -/
def evalList : List Node → Eval (List Value)
  | [] => return []
  | n :: rest => do
    let v ← eval n
    return v :: (← evalList rest)

/-- The keys and values of a map literal, from left to right. -/
def evalEntries : List (Node × Node) → Eval (List (Value × Value))
  | [] => return []
  | entry :: rest => do
    let v ← evalEntry entry
    return v :: (← evalEntries rest)

/-- The key and the value of an entry. -/
def evalEntry : Node × Node → Eval (Value × Value)
  | (key, value) => do
    let k ← eval key
    return (k, ← eval value)

end

end Node

end TagExpr
