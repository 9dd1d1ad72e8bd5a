import TagExpr.Node
import TagExpr.Span

/-!
# Compiled expressions

A compiled expression is a tree with the tables that belong to one occurrence of it: the identifiers
it mentions and the named expressions it calls. It does not change when it runs.
-/

namespace TagExpr

/-- An identifier of a template file. All mentions of one member in a file share its number, and
with it what is known about ways to the member. -/
structure IdentifierRef where
  id : Nat
  key : IdentKey
  deriving Repr, DecidableEq, Inhabited

/-- A compiled expression. -/
structure Expression where
  /-- The name of a definition. -/
  name : Option String
  /-- The label under which failures are reported. -/
  callName : String
  span : Span
  /-- The number of parameters, which take the first local slots. -/
  params : Nat
  localCount : Nat
  output : OutputMode
  identifiers : List IdentifierRef
  expressions : List Expression
  /-- The number of the program, which expressions with equal trees share. -/
  program : Nat
  body : Node
  deriving Inhabited

namespace Expression

/-- Both expressions run one program. -/
def sharesProgram (a b : Expression) : Bool := a.program == b.program

/-- The local slots at the start of a call: the parameters hold the arguments, as far as there are
any, and all else is null. -/
def initialSlots {α : Type} (e : Expression) (null : α) (args : List α) : List α :=
  let given := (args.take e.params).take e.localCount
  given ++ List.replicate (e.localCount - given.length) null

theorem length_initialSlots {α : Type} (e : Expression) (null : α) (args : List α) :
    (e.initialSlots null args).length = e.localCount := by
  simp only [initialSlots, List.length_append, List.length_take, List.length_replicate]
  omega

end Expression

end TagExpr
