import TagExpr.Eval.Fault

/-!
# Reports of failures

Where failures go that end only one expression.
-/

namespace TagExpr

/-- A failure of an expression, which is named by its label. -/
structure Report where
  expression : String
  span : Span
  error : EvalError
  deriving Repr, DecidableEq, Inhabited

/-- What is done with reports. -/
inductive ErrorHandler where
  /-- They go to a log that is kept elsewhere. -/
  | log
  /-- They are dropped. -/
  | silent
  /-- They are captured, first one first. -/
  | buffer (captured : List Report)
  /-- They are handed to the application, which has got these so far. -/
  | custom (delivered : List Report)
  deriving Repr, Inhabited

namespace ErrorHandler

/-- Takes a report. -/
def handle (handler : ErrorHandler) (report : Report) : ErrorHandler :=
  match handler with
  | log => log
  | silent => silent
  | buffer captured => buffer (captured ++ [report])
  | custom delivered => custom (delivered ++ [report])

/-- The captured reports; only a buffer captures any. -/
def reports : ErrorHandler → List Report
  | buffer captured => captured
  | _ => []

/-- Drops the captured reports. -/
def clear : ErrorHandler → ErrorHandler
  | buffer _ => buffer []
  | handler => handler

@[simp] theorem reports_handle_buffer (captured : List Report) (report : Report) :
    ((buffer captured).handle report).reports = captured ++ [report] := rfl

@[simp] theorem reports_clear (handler : ErrorHandler) : handler.clear.reports = [] := by
  cases handler <;> rfl

end ErrorHandler

end TagExpr
