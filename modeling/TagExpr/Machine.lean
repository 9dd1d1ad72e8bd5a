import Std.Data.HashMap
import TagExpr.Identifier
import TagExpr.Render.Context
import TagExpr.Stream

/-!
# The machine

Everything that changes while expressions run: the context of the rendering, the streams and local
slots that have been made, what identifiers have learnt, and what the host application keeps. An
evaluation is a step of the machine that has a value or stops.
-/

namespace TagExpr

/-- The state of the machine. -/
structure Machine where
  context : Context := .fresh
  /-- The streams, by number. -/
  streams : Array Stream := #[]
  /-- The local slots of the calls, by number. They outlive a call whose streams are still read. -/
  frames : Array (Array Value) := #[]
  /-- The identifiers that have been used, by number. -/
  identifiers : Std.HashMap Nat Identifier := {}
  /-- The number of the next host object. -/
  nextObject : ObjectId := 0
  /-- What annotations have noted for the application, first one first. -/
  journal : List Value := []

instance : Inhabited Machine := ⟨{}⟩

/-- Why an evaluation stops without a value. -/
inductive Stop where
  | error (e : EvalError)
  /-- The number of steps that it was allowed is used up. -/
  | exhausted
  deriving Repr, DecidableEq, Inhabited

/-- A step of the machine, which has a value or stops. The state it has reached stays either way. -/
abbrev Eval (α : Type) := EStateM Stop Machine α

/-- What the host application brings to a rendering. -/
structure Environment where
  host : Host := {}
  /-- The handlers of annotations, by name. -/
  annotations : List (String × (List Value → Eval Value)) := []
  /-- What is done to the value of a whole expression. -/
  hook : Value → Value := id

namespace Eval

/-- Stops with a fault. -/
def fail {α : Type} (fault : EvalFault) : Eval α := throw (.error { fault })

/-- The value of an operation that may fail. -/
def ofExcept {α : Type} : Except EvalFault α → Eval α
  | .ok a => pure a
  | .error fault => fail fault

def context : Eval Context := do return (← get).context

def modifyContext (f : Context → Context) : Eval Unit :=
  modify fun m => { m with context := f m.context }

/-- Changes the context for the time of a step, which may stop. -/
def during {α : Type} (enter leave : Context → Context) (step : Eval α) : Eval α := fun m =>
  match step { m with context := enter m.context } with
  | .ok a m => .ok a { m with context := leave m.context }
  | .error stop m => .error stop { m with context := leave m.context }

/-- Gives a place to the error of a step, unless it has one. -/
def located {α : Type} (span : Span) (step : Eval α) : Eval α := fun m =>
  match step m with
  | .error (.error e) m => .error (.error (e.withSpan span)) m
  | result => result

/-- Makes the local slots of a call. -/
def newFrame (slots : List Value) : Eval FrameId :=
  modifyGet fun m => (m.frames.size, { m with frames := m.frames.push slots.toArray })

/-- The value of a local slot, if there is one. -/
def localValue? (frame : FrameId) (slot : Nat) : Eval (Option Value) := do
  return (← get).frames[frame]?.bind (·[slot]?)

/-- Assigns a local slot, if there is one. -/
def setLocal (frame : FrameId) (slot : Nat) (v : Value) : Eval Unit :=
  modify fun m => { m with frames := m.frames.modify frame (·.setIfInBounds slot v) }

/-- Notes a value for the application. -/
def note (v : Value) : Eval Unit := modify fun m => { m with journal := m.journal ++ [v] }

/-! ## Streams -/

def newStream (s : Stream) : Eval StreamId :=
  modifyGet fun m => (m.streams.size, { m with streams := m.streams.push s })

def stream? (id : StreamId) : Eval (Option Stream) := do return (← get).streams[id]?

def modifyStream (id : StreamId) (f : Stream → Stream) : Eval Unit :=
  modify fun m => { m with streams := m.streams.modify id f }

/-- The stream that a value gives. A stream gives itself. -/
def streamOf (h : Host) : Value → Eval StreamId
  | .stream id => pure id
  | v => newStream { kind := .source (Source.ofValue h v) }

/-- Takes the element that was read ahead. -/
def takePeeked (id : StreamId) : Eval (Option Value) := do
  let peeked := (← stream? id).bind (·.peeked)
  if peeked.isSome then
    modifyStream id fun s => { s with peeked := none }
  return peeked

/-- Counts an element that a stage takes and answers its position. -/
def countPulled (id : StreamId) : Eval Nat := do
  let position := ((← stream? id).map (·.pulled)).getD 0
  modifyStream id fun s => { s with pulled := s.pulled + 1 }
  return position

/-- The inner stream of a flat-remap. -/
def innerStream? (id : StreamId) : Eval (Option StreamId) := do
  match ← stream? id with
  | some { kind := .flatRemap _ inner, .. } => return inner
  | _ => return none

/-- Puts another inner stream in its place. -/
def setInner (id : StreamId) (inner : Option StreamId) : Eval Unit :=
  modifyStream id fun s =>
    match s.kind with
    | .flatRemap stage _ => { s with kind := .flatRemap stage inner }
    | _ => s

/-! ## Members -/

/-- Reads or calls a member on one receiver. -/
def member (h : Host) (ref : IdentifierRef) (receiver : Value) (args : List Value) :
    Eval (Option Value) :=
  modifyGet fun m =>
    let identifier := m.identifiers.getD ref.id (.fresh ref.key)
    let ((found, identifier), next) := (identifier.get h receiver args).run m.nextObject
    (found, { m with
      identifiers := m.identifiers.insert ref.id identifier
      nextObject := next })

/-- The value of a member in the first of these sections that has it; null if none has. -/
def searchMember (h : Host) (ref : IdentifierRef) (args : List Value) : List Section → Eval Value
  | [] => pure .null
  | s :: rest => do
    match ← member h ref s.value args with
    | some v => return v
    | none => searchMember h ref args rest

/-- The value of a member in the sections that a look-up searches. -/
def resolve (h : Host) (ref : IdentifierRef) (lookup : Lookup) (args : List Value) :
    Eval Value := do
  searchMember h ref args ((← context).searched lookup)

end Eval

end TagExpr
