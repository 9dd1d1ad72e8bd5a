import TagExpr.Extensions
import TagExpr.Node

/-!
# The scope of a template file

What the tags of one template file share while they are parsed: the named expressions defined so
far and the slots of the template bindings. Bindings belong to a template; the slot of a name is its
position among the names declared for that template, so a slot, once given, stays.

Slots are any natural numbers here. They stand for slots of 32 bits, and agree with them as long as
no template declares `2 ^ 32` names.
-/

namespace TagExpr

/-- An entry of the table of named expressions. -/
inductive NamedEntry (ε : Type u) where
  /-- Its body is being compiled, and calls from inside the body recurse. -/
  | pending
  | defined (expression : ε)
  deriving Repr, DecidableEq, Inhabited

/-- The shared scope; `ε` is what stands for a finished named expression. -/
structure TemplateScope (ε : Type u) where
  extensions : Extensions
  /-- The named expressions. -/
  named : List (String × NamedEntry ε)
  /-- The names of the bindings of each template, in order of their slots. They stay when the
  template's scope is left. -/
  bindings : List (TemplateId × List String)
  /-- The templates whose scopes are open, innermost first. The root scope is always open and is
  not listed. -/
  inner : List TemplateId

namespace TemplateScope

variable {ε : Type u}

/-- The scope before the first tag. -/
def fresh (extensions : Extensions := .all) : TemplateScope ε := ⟨extensions, [], [], []⟩

instance : Inhabited (TemplateScope ε) := ⟨fresh⟩

/-! ## Template scopes and bindings -/

/-- Enters the scope of a template. -/
def push (s : TemplateScope ε) (id : TemplateId) : TemplateScope ε :=
  { s with inner := id :: s.inner }

/-- Leaves the innermost scope, unless it is the root scope. -/
def pop? (s : TemplateScope ε) : Option (TemplateId × TemplateScope ε) :=
  match s.inner with
  | [] => none
  | id :: below => some (id, { s with inner := below })

/-- The open scopes, innermost first. -/
def openScopes (s : TemplateScope ε) : List TemplateId := s.inner ++ [TemplateId.root]

/-- The template whose scope is innermost. -/
def current (s : TemplateScope ε) : TemplateId := s.inner.head?.getD TemplateId.root

/-- The names of the bindings of a template, in order of their slots. -/
def bindingNames (s : TemplateScope ε) (id : TemplateId) : List String :=
  (s.bindings.lookup id).getD []

/-- The number of slots that the bindings of a template take. -/
def bindingCount (s : TemplateScope ε) (id : TemplateId) : Nat := (s.bindingNames id).length

/-- The slot of a binding in one template. -/
def slot? (s : TemplateScope ε) (id : TemplateId) (name : String) : Option Nat :=
  (s.bindingNames id).findIdx? (· == name)

/-- The innermost binding of that name. -/
def findBinding? (s : TemplateScope ε) (name : String) : Option (TemplateId × Nat) :=
  s.openScopes.findSome? fun id => (s.slot? id name).map (id, ·)

/-- Puts `names` in the place of the names of a template. -/
def setBindingNames (bindings : List (TemplateId × List String)) (id : TemplateId)
    (names : List String) : List (TemplateId × List String) :=
  match bindings with
  | [] => [(id, names)]
  | (other, old) :: rest =>
    if other = id then (id, names) :: rest else (other, old) :: setBindingNames rest id names

/-- The slot of `name` in the innermost scope, which declares the name if it is new there. -/
def declareBinding (s : TemplateScope ε) (name : String) :
    (TemplateId × Nat) × TemplateScope ε :=
  let id := s.current
  match s.slot? id name with
  | some slot => ((id, slot), s)
  | none =>
    let names := s.bindingNames id
    ((id, names.length), { s with bindings := setBindingNames s.bindings id (names ++ [name]) })

/-! ## Named expressions -/

/-- The entry of a name, if it has been defined or is being defined. -/
def named? (s : TemplateScope ε) (name : String) : Option (NamedEntry ε) := s.named.lookup name

def isNamed (s : TemplateScope ε) (name : String) : Bool := (s.named? name).isSome

/-- The finished expression of that name. -/
def expression? (s : TemplateScope ε) (name : String) : Option ε :=
  match s.named? name with
  | some (.defined e) => some e
  | _ => none

/-- Drops the entry of a name. -/
def eraseNamed (s : TemplateScope ε) (name : String) : TemplateScope ε :=
  { s with named := s.named.filter (·.1 != name) }

/-- Puts an entry in the place of any earlier one of that name. -/
def setNamed (s : TemplateScope ε) (name : String) (entry : NamedEntry ε) : TemplateScope ε :=
  { s.eraseNamed name with named := (name, entry) :: (s.eraseNamed name).named }

/-- Reserves a name while its body is compiled. -/
def beginDefinition (s : TemplateScope ε) (name : String) : TemplateScope ε :=
  s.setNamed name .pending

/-- Stores the finished expression of a definition. -/
def complete (s : TemplateScope ε) (name : String) (expression : ε) : TemplateScope ε :=
  s.setNamed name (.defined expression)

/-- Gives up a definition that could not be compiled; a finished one stays. -/
def abandon (s : TemplateScope ε) (name : String) : TemplateScope ε :=
  match s.named? name with
  | some .pending => s.eraseNamed name
  | _ => s

@[simp] theorem current_push (s : TemplateScope ε) (id : TemplateId) : (s.push id).current = id :=
  rfl

@[simp] theorem pop?_push (s : TemplateScope ε) (id : TemplateId) :
    (s.push id).pop? = some (id, s) := rfl

@[simp] theorem named?_setNamed (s : TemplateScope ε) (name : String) (entry : NamedEntry ε) :
    (s.setNamed name entry).named? name = some entry := by
  simp [setNamed, named?, eraseNamed]

@[simp] theorem expression?_complete (s : TemplateScope ε) (name : String) (e : ε) :
    (s.complete name e).expression? name = some e := by
  simp [complete, expression?]

end TemplateScope

end TagExpr
