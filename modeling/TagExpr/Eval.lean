import TagExpr.Eval.Step

/-!
# Evaluation

Evaluation ties the levels of `Calls` into a knot: each call of an expression and each read of a
stream uses up one level. Call depth is limited, so expressions without streams need no more levels
than they have calls left; the number of levels at hand is beyond what any rendering uses.

`tryEvaluate` hands every error to the caller. `evaluate` keeps failures from spreading: an error
other than a halt is reported, and the value is null.
-/

namespace TagExpr

namespace Calls

mutual

/-- Runs a tree with that many levels at hand. -/
def runAt (env : Environment) (missing : Eval Value) :
    Nat → Expression → FrameId → Node → Eval Value
  | 0, _, _, _ => throw .exhausted
  | fuel + 1, e, frame, n =>
    n.eval env ⟨runAt env missing fuel, pullAt env missing fuel, missing⟩ fuel e frame

/-- Makes an element of a stream with that many levels at hand. -/
def pullAt (env : Environment) (missing : Eval Value) : Nat → StreamId → Eval (Option Value)
  | 0, _ => throw .exhausted
  | fuel + 1, id =>
    pullStream ⟨runAt env missing fuel, pullAt env missing fuel, missing⟩ env.host fuel id

end

/-- Evaluation with that many levels at hand. -/
def ofLevels (env : Environment) (missing : Eval Value) (fuel : Nat) : Calls :=
  ⟨runAt env missing fuel, pullAt env missing fuel, missing⟩

/-- More levels than any rendering uses. -/
def maxLevels : Nat := Nat.pow 2 62

/-- Evaluation, in which a tree whose position lies outside its table is null. -/
def full (env : Environment) : Calls := ofLevels env (pure .null) maxLevels

end Calls

namespace Expression

/-- The value of an expression with these arguments, or its error. -/
def tryEvaluate (env : Environment) (e : Expression) (args : List Value) : Eval Value :=
  (Calls.full env).invoke e args

/-- What becomes of an evaluation that is isolated: its value goes through the hook, a halt goes on,
and of any other error a report is made under the label of the expression. -/
def isolate (env : Environment) (e : Expression) (step : Eval Value) : Eval Value := fun m =>
  match step m with
  | .ok v m => .ok (env.hook v) m
  | .error (.error error) m =>
    if error.isHalt then .error (.error error) m
    else
      let report : Report :=
        { expression := e.callName, span := error.span.getD e.span, error }
      let c := { m.context with handler := m.context.handler.handle report }
      .ok .null { m with context := c }
  | .error .exhausted m => .error .exhausted m

/-- The value of an expression with these arguments; null if it fails. Only a halt is an error. -/
def evaluate (env : Environment) (e : Expression) (args : List Value) : Eval Value :=
  e.isolate env (e.tryEvaluate env args)

end Expression

namespace Eval

/-- The next element of a stream. -/
def nextOf (env : Environment) (id : StreamId) : Eval (Option Value) := (Calls.full env).next id

/-- Whether a stream has another element. -/
def hasNextOf (env : Environment) (id : StreamId) : Eval Bool := (Calls.full env).hasNext id

/-- The remaining elements of a stream. -/
def collectOf (env : Environment) (id : StreamId) : Eval (List Value) :=
  (Calls.full env).collect id Calls.maxLevels

end Eval

end TagExpr
