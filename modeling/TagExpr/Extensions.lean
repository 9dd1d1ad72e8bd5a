/-!
# Language extensions

The optional parts of the expression language. A template loader chooses them; texts that use a
part that is switched off are rejected, except that interpolation is then read as plain text.
-/

namespace TagExpr

/-- The optional parts of the language, each on or off. -/
structure Extensions where
  /-- Definitions `name(params) -> body` and calls of them. -/
  namedExpressions : Bool := true
  /-- Annotation calls `@name` and `@name(args)`. -/
  annotations : Bool := true
  /-- `${expression}` and `$name` inside string literals. -/
  interpolation : Bool := true
  /-- Persistent template bindings `name := value`. -/
  templateBindings : Bool := true
  deriving Repr, DecidableEq

namespace Extensions

/-- Every part is on. -/
def all : Extensions := {}

/-- Every part is off. -/
def none : Extensions := ⟨false, false, false, false⟩

instance : Inhabited Extensions := ⟨all⟩

/-- Every part that is on in `e` is on in `f`. -/
def Subset (e f : Extensions) : Prop :=
  (e.namedExpressions → f.namedExpressions) ∧ (e.annotations → f.annotations) ∧
    (e.interpolation → f.interpolation) ∧ (e.templateBindings → f.templateBindings)

instance : HasSubset Extensions := ⟨Subset⟩

end Extensions

end TagExpr
