import TagExpr.Render.Report
import TagExpr.Stack
import TagExpr.Value

/-!
# The context of a rendering

The stacks that expressions see while a template is rendered: the sections, against which names are
resolved, and the frames of the active templates, which hold their bindings.
-/

namespace TagExpr

/-- Whether another element follows in the iteration that a section belongs to. -/
inductive Following where
  | known (b : Bool)
  /-- Whether the stream has another element. -/
  | stream (id : StreamId)
  deriving Repr, DecidableEq, Inhabited

/-- A section: the value that names are looked up in, and its place in an iteration. -/
structure Section where
  value : Value
  index : Option Nat := none
  following : Following := .known false
  deriving Inhabited

/-- The bindings of one activation of a template. Slots beyond the list are null. -/
structure TemplateFrame where
  template : TemplateId
  slots : List Value := []
  deriving Inhabited

namespace TemplateFrame

def get (f : TemplateFrame) (slot : Nat) : Value := f.slots.getD slot .null

def set (f : TemplateFrame) (slot : Nat) (v : Value) : TemplateFrame :=
  let padded := f.slots ++ List.replicate (slot + 1 - f.slots.length) .null
  { f with slots := padded.set slot v }

theorem get_set_self (f : TemplateFrame) (slot : Nat) (v : Value) :
    (f.set slot v).get slot = v := by
  have h : slot < (f.slots ++ List.replicate (slot + 1 - f.slots.length) Value.null).length := by
    simp only [List.length_append, List.length_replicate]
    omega
  simp [get, set, List.getD_eq_getElem?_getD, List.getElem?_set_self h]

end TemplateFrame

/-- The state of a rendering that belongs to the template and not to a single expression. -/
structure Context where
  sections : Stack Section
  templates : Stack TemplateFrame
  handler : ErrorHandler := .log
  /-- The number of calls that are running. -/
  callDepth : Nat := 0
  maxCallDepth : Nat := 1000
  deriving Inhabited

namespace Context

/-- The context with the data of the template as its only section. -/
def fresh (root : Value := .null) : Context :=
  { sections := .ofBottomUp [{ value := root }]
    templates := .ofBottomUp [{ template := TemplateId.root }] }

/-! ## Sections -/

def pushSection (c : Context) (s : Section) : Context := { c with sections := c.sections.push s }

/-- Leaves the innermost section, if there is one. -/
def dropSection (c : Context) : Context :=
  match c.sections.pop? with
  | some (_, below) => { c with sections := below }
  | none => c

/-- The section that a look-up starts from. -/
def section? (c : Context) : Lookup → Option Section
  | .unstated => c.sections.peek?
  | .backreach levels => c.sections.peekAt? levels
  | .root => c.sections.peekBase? 0

/-- The value of the section that many levels above the innermost one; null if there is none. -/
def sectionValue (c : Context) (levels : Nat) : Value :=
  match c.sections.peekAt? levels with
  | some s => s.value
  | none => .null

/-- The sections in which a look-up searches, in order. -/
def searched (c : Context) : Lookup → List Section
  | .unstated => c.sections.toList
  | lookup => (c.section? lookup).toList

/-! ## Template frames -/

def pushTemplate (c : Context) (id : TemplateId) : Context :=
  { c with templates := c.templates.push { template := id } }

/-- Leaves the innermost activation and answers whose it was. -/
def popTemplate? (c : Context) : Option (TemplateId × Context) :=
  match c.templates.pop? with
  | some (f, below) => some (f.template, { c with templates := below })
  | none => none

/-- The place of the innermost frame of a template. -/
def frameDepth? (c : Context) (id : TemplateId) : Option Nat :=
  c.templates.toList.findIdx? (·.template == id)

/-- The value of a binding; null if it is unset or the template is not active. -/
def binding (c : Context) (id : TemplateId) (slot : Nat) : Value :=
  match c.templates.toList.find? (·.template == id) with
  | some f => f.get slot
  | none => .null

/-- Assigns a binding in the innermost frame of its template. -/
def setBinding (c : Context) (id : TemplateId) (slot : Nat) (v : Value) :
    Except EvalFault Context :=
  match c.frameDepth? id with
  | some depth => .ok { c with templates := c.templates.modifyAt depth (·.set slot v) }
  | none => .error (.noTemplateFrame id)

/-! ## Calls -/

/-- Begins a call; its first argument becomes a section. -/
def enterCall (c : Context) (first : Option Value) : Context :=
  let c := { c with callDepth := c.callDepth + 1 }
  match first with
  | some v => c.pushSection { value := v }
  | none => c

/-- Ends a call that began with that first argument. -/
def leaveCall (c : Context) (first : Option Value) : Context :=
  let c := if first.isSome then c.dropSection else c
  { c with callDepth := c.callDepth - 1 }

@[simp] theorem dropSection_pushSection (c : Context) (s : Section) :
    (c.pushSection s).dropSection = c := rfl

@[simp] theorem popTemplate?_pushTemplate (c : Context) (id : TemplateId) :
    (c.pushTemplate id).popTemplate? = some (id, c) := rfl

@[simp] theorem leaveCall_enterCall (c : Context) (first : Option Value) :
    (c.enterCall first).leaveCall first = c := by
  cases first <;> rfl

end Context

end TagExpr
