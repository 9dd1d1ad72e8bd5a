import TagExpr.Compile
import TagExpr.Eval
import TagExpr.Proofs.Compile
import TagExpr.Proofs.Eval.Upkeep

/-!
# Evaluation restores the context

However an evaluation ends, the sections are those of before, the frames of the templates are those
of before up to what their bindings hold, and so is the call depth. In between the depth stays
within the limit.

The depth in between shows in no result. It is observed by an evaluation with an alarm: before a
tree runs and before a stream is read the depth is looked at, and beyond the bound something else is
done. The depth only rises where a call begins, and the first thing a call does is to run its tree,
so an alarm that never goes off is what the bound means.

An isolated evaluation reports a failure of the whole expression and nothing else: nothing that goes
on inside an evaluation reports, so the reports are captured one for each failure, in the order of
the evaluations (`failures_isolated`). The hook is run for values of whole expressions only.

That nothing reports inside is one more upkeep of the context.
-/

namespace TagExpr

/-! ## Restored contexts -/

namespace Context

/-- The templates that are active, the innermost first. -/
def active (c : Context) : List TemplateId := c.templates.toList.map (·.template)

/-- `c'` has the sections, the template frames and the call depth of `c`. What the bindings in the
frames hold may differ. -/
structure Restored (c c' : Context) : Prop where
  sections : c'.sections = c.sections
  active : c'.active = c.active
  callDepth : c'.callDepth = c.callDepth

variable {c c' c'' : Context}

theorem Restored.refl (c : Context) : c.Restored c := ⟨rfl, rfl, rfl⟩

theorem Restored.trans (h : c.Restored c') (h' : c'.Restored c'') : c.Restored c'' where
  sections := h'.sections.trans h.sections
  active := h'.active.trans h.active
  callDepth := h'.callDepth.trans h.callDepth

/-- An assignment to a binding puts a frame of the same template in the place of a frame. -/
theorem exists_of_setBinding {template : TemplateId} {slot : Nat} {v : Value}
    (h : c.setBinding template slot v = .ok c') :
    ∃ templates, c' = { c with templates } ∧ c'.active = c.active := by
  unfold setBinding at h
  split at h
  case h_2 => cases h
  case h_1 depth found =>
    cases h
    refine ⟨_, rfl, ?_⟩
    apply List.ext_getElem?
    intro i
    simp only [active, Stack.toList_modifyAt, List.getElem?_map, List.getElem?_modify]
    cases c.templates.toList[i]? with
    | none => rfl
    | some f => by_cases place : depth = i <;> simp [place, TemplateFrame.set]

theorem restored_setBinding {template : TemplateId} {slot : Nat} {v : Value}
    (h : c.setBinding template slot v = .ok c') : c.Restored c' := by
  obtain ⟨templates, rfl, active⟩ := exists_of_setBinding h
  exact ⟨rfl, active, rfl⟩

theorem Restored.dropSection {s : Section} (h : (c.pushSection s).Restored c') :
    c.Restored c'.dropSection := by
  have pop : c'.sections.pop? = some (s, c.sections) := by
    rw [h.sections]
    exact Stack.pop?_push _ _
  unfold Context.dropSection
  rw [pop]
  exact ⟨rfl, h.active, h.callDepth⟩

@[simp] theorem callDepth_enterCall (c : Context) (first : Option Value) :
    (c.enterCall first).callDepth = c.callDepth + 1 := by
  cases first <;> rfl

theorem Restored.leaveCall {first : Option Value} (h : (c.enterCall first).Restored c') :
    c.Restored (c'.leaveCall first) := by
  have depth : c'.callDepth = c.callDepth + 1 := by rw [h.callDepth, callDepth_enterCall]
  cases first with
  | none => exact ⟨h.sections, h.active, by show c'.callDepth - 1 = _; omega⟩
  | some v =>
    have inner : Restored { c with callDepth := c.callDepth + 1 } c'.dropSection :=
      Restored.dropSection (s := { value := v }) h
    refine ⟨inner.sections, inner.active, ?_⟩
    show c'.dropSection.callDepth - 1 = _
    rw [inner.callDepth]
    rfl

/-! ### The limit -/

theorem maxCallDepth_setBinding {template : TemplateId} {slot : Nat} {v : Value}
    (h : c.setBinding template slot v = .ok c') : c'.maxCallDepth = c.maxCallDepth := by
  obtain ⟨templates, rfl, -⟩ := exists_of_setBinding h
  rfl

@[simp] theorem maxCallDepth_dropSection (c : Context) :
    c.dropSection.maxCallDepth = c.maxCallDepth := by
  unfold dropSection
  split <;> rfl

@[simp] theorem maxCallDepth_enterCall (c : Context) (first : Option Value) :
    (c.enterCall first).maxCallDepth = c.maxCallDepth := by
  cases first <;> rfl

@[simp] theorem maxCallDepth_leaveCall (c : Context) (first : Option Value) :
    (c.leaveCall first).maxCallDepth = c.maxCallDepth := by
  cases first with
  | none => rfl
  | some v => exact maxCallDepth_dropSection c

end Context

/-- The context is restored, whether the step has a value or stops. -/
def Eval.Restores {α : Type} (x : Eval α) : Prop :=
  ∀ m, Ends x m (fun _ m' => m.context.Restored m'.context) fun _ m' =>
    m.context.Restored m'.context

namespace Environment

/-- The handlers of annotations restore the context. -/
def Restores (env : Environment) : Prop :=
  ∀ name handler, env.annotations.lookup name = some handler →
    ∀ args, (handler args).Restores

/-- The handlers of annotations do not raise the limit of the call depth. -/
def KeepsLimit (env : Environment) : Prop :=
  ∀ name handler, env.annotations.lookup name = some handler → ∀ args m,
    Ends (handler args) m (fun _ m' => m'.context.maxCallDepth ≤ m.context.maxCallDepth)
      fun _ m' => m'.context.maxCallDepth ≤ m.context.maxCallDepth

end Environment

namespace Upkeep

/-- Contexts are restored. -/
def restored : Upkeep where
  admits _ := True
  keeps := Context.Restored
  refl := .refl
  trans := .trans
  lasts _ _ := trivial
  assigns := Context.restored_setBinding
  enters _ _ _ := trivial
  leaves := .leaveCall
  nests _ _ := trivial
  unnests := .dropSection

/-- Contexts are restored, and neither the depth nor the limit is above the bound. -/
def bounded (bound : Nat) : Upkeep where
  admits c := c.callDepth ≤ bound ∧ c.maxCallDepth ≤ bound
  keeps c c' := c.Restored c' ∧ c'.maxCallDepth ≤ c.maxCallDepth
  refl c := ⟨.refl c, Nat.le_refl _⟩
  trans h h' := ⟨h.1.trans h'.1, Nat.le_trans h'.2 h.2⟩
  lasts h hc := ⟨h.1.callDepth ▸ hc.1, Nat.le_trans h.2 hc.2⟩
  assigns h :=
    ⟨Context.restored_setBinding h, Nat.le_of_eq (Context.maxCallDepth_setBinding h)⟩
  enters hc below first := by
    rw [Context.callDepth_enterCall, Context.maxCallDepth_enterCall]
    omega
  leaves h := ⟨h.1.leaveCall, by simpa using h.2⟩
  nests hc _ := hc
  unnests {c c' s} h := by
    refine ⟨h.1.dropSection, ?_⟩
    rw [Context.maxCallDepth_dropSection]
    exact h.2

end Upkeep

/-! ## Levels -/

theorem Calls.alike_ofLevels_self {U : Upkeep} {env : Environment} {missing : Eval Value}
    (missingAlike : U.Alike missing missing)
    (handlers : ∀ name handler, env.annotations.lookup name = some handler →
      ∀ args, U.Alike (handler args) (handler args)) (fuel : Nat) :
    U.AlikeCalls env (ofLevels env missing fuel) (ofLevels env missing fuel) := by
  induction fuel with
  | zero =>
    exact ⟨fun _ _ _ => Upkeep.alike_throw _, fun _ => Upkeep.alike_throw _, missingAlike, handlers⟩
  | succ fuel ih =>
    exact ⟨fun _ _ n => n.alike ih, ih.pullStream env.host fuel, missingAlike, handlers⟩

/-! ## The alarm -/

/-- Takes a step at a depth within the bound; beyond it the alarm goes off instead. -/
def Eval.watched {α : Type} (bound : Nat) (alarm step : Eval α) : Eval α := fun m =>
  if m.context.callDepth ≤ bound then step m else alarm m

namespace Calls

/-- Evaluation with that many levels at hand, in which the depth is looked at before a tree runs and
before a stream is read. -/
def watched (env : Environment) (bound : Nat) (alarm : Calls) : Nat → Calls
  | 0 => ofLevels env (pure .null) 0
  | fuel + 1 =>
    let calls := watched env bound alarm fuel
    { run e frame n := Eval.watched bound (alarm.run e frame n) (n.eval env calls fuel e frame)
      pull id := Eval.watched bound (alarm.pull id) (calls.pullStream env.host fuel id)
      missing := pure .null }

theorem alike_watched {env : Environment} {bound : Nat} (alarm : Calls)
    (handlers : ∀ name handler, env.annotations.lookup name = some handler →
      ∀ args, (Upkeep.bounded bound).Alike (handler args) (handler args)) (fuel : Nat) :
    (Upkeep.bounded bound).AlikeCalls env (ofLevels env (pure .null) fuel)
      (watched env bound alarm fuel) := by
  have quiet {α : Type} {x y : Eval α} (alarm : Eval α) (h : (Upkeep.bounded bound).Alike x y) :
      (Upkeep.bounded bound).Alike x (Eval.watched bound alarm y) := by
    intro m hm
    obtain ⟨same, ends⟩ := h m hm
    refine ⟨?_, ends⟩
    rw [Eval.watched, if_pos hm.1, same]
  induction fuel with
  | zero =>
    exact ⟨fun _ _ _ => Upkeep.alike_throw _, fun _ => Upkeep.alike_throw _, Upkeep.alike_pure _,
      handlers⟩
  | succ fuel ih =>
    exact ⟨fun _ _ n => quiet _ (n.alike ih), fun id => quiet _ (ih.pullStream env.host fuel id),
      Upkeep.alike_pure _, handlers⟩

end Calls

/-! ## The context afterwards and in between -/

theorem Upkeep.Alike.restores {α : Type} {x y : Eval α} (h : Upkeep.restored.Alike x y) :
    x.Restores := fun m => (h m trivial).2

theorem Eval.Restores.isolate {x : Eval Value} (h : x.Restores) (env : Environment)
    (e : Expression) : (e.isolate env x).Restores := by
  intro m
  cases hx : x m with
  | ok v m' =>
    have kept := (h m).ok hx
    simp only [Ends, Expression.isolate, hx]
    exact kept
  | error stop m' =>
    have kept := (h m).error hx
    simp only [Ends, Expression.isolate, hx]
    cases stop with
    | exhausted => exact kept
    | error error =>
      by_cases halt : error.isHalt = true
      · simp only [halt, if_true]
        exact kept
      · simp only [halt]
        exact ⟨kept.sections, kept.active, kept.callDepth⟩

/-- **Evaluation restores the context.** Whether it has a value, fails, hits the limit of calls or
halts: an evaluation of an expression, isolated or not, and a read of a stream leave the sections,
the template frames and the call depth as they were, provided that the handlers of annotations do.
If these do not raise the limit either, the depth in between stays within the limit, or within the
depth at the start if that is above it: an evaluation with an alarm beyond does the same, whatever
the alarm. -/
theorem context_restored (env : Environment) (restores : env.Restores) :
    (∀ e args, (Expression.tryEvaluate env e args).Restores ∧
      (Expression.evaluate env e args).Restores) ∧
    (∀ id, (Eval.nextOf env id).Restores ∧ (Eval.hasNextOf env id).Restores ∧
      (Eval.collectOf env id).Restores) ∧
    (env.KeepsLimit → ∀ (alarm : Calls) (m : Machine),
      let bound := max m.context.callDepth m.context.maxCallDepth
      let watch := Calls.watched env bound alarm Calls.maxLevels
      (∀ e args, watch.invoke e args m = e.tryEvaluate env args m ∧
        e.isolate env (watch.invoke e args) m = e.evaluate env args m) ∧
      ∀ id, watch.next id m = Eval.nextOf env id m ∧ watch.hasNext id m = Eval.hasNextOf env id m ∧
        watch.collect id Calls.maxLevels m = Eval.collectOf env id m) := by
  have handlers : ∀ name handler, env.annotations.lookup name = some handler →
      ∀ args, Upkeep.restored.Alike (handler args) (handler args) :=
    fun name handler found args m _ => ⟨rfl, restores name handler found args m⟩
  have full : Upkeep.restored.AlikeCalls env (Calls.full env) (Calls.full env) :=
    Calls.alike_ofLevels_self (Upkeep.alike_pure _) handlers Calls.maxLevels
  refine ⟨fun e args => ?_, fun id => ?_, ?_⟩
  · have tries := (full.invoke e args).restores
    exact ⟨tries, tries.isolate env e⟩
  · exact ⟨(full.next id).restores, (full.hasNext id).restores, (full.collect id _).restores⟩
  · intro keepsLimit alarm m bound watch
    have within : (Upkeep.bounded bound).admits m.context :=
      ⟨Nat.le_max_left _ _, Nat.le_max_right _ _⟩
    have handlers : ∀ name handler, env.annotations.lookup name = some handler →
        ∀ args, (Upkeep.bounded bound).Alike (handler args) (handler args) := by
      intro name handler found args m _
      exact ⟨rfl, (restores name handler found args m).and (keepsLimit name handler found args m)⟩
    have quiet : (Upkeep.bounded bound).AlikeCalls env (Calls.full env) watch :=
      Calls.alike_watched alarm handlers Calls.maxLevels
    refine ⟨fun e args => ?_, fun id => ?_⟩
    · have same : watch.invoke e args m = e.tryEvaluate env args m :=
        (quiet.invoke e args m within).1
      refine ⟨same, ?_⟩
      simp only [Expression.evaluate, Expression.isolate, same]
    · exact ⟨(quiet.next id m within).1, (quiet.hasNext id m within).1,
        (quiet.collect id _ m within).1⟩

/-- An application whose one annotation notes what it is called with. -/
def Environment.noting : Environment where
  annotations := [("note", fun args => do Eval.note (.list args); return .null)]

theorem Environment.noting_handler {name : String} {handler : List Value → Eval Value}
    (found : Environment.noting.annotations.lookup name = some handler) :
    handler = fun args => do Eval.note (.list args); return .null := by
  unfold Environment.noting at found
  rw [List.lookup_cons, List.lookup_nil] at found
  split at found
  case h_1 => exact (Option.some.inj found).symm
  case h_2 => cases found

/-- Two stages, of which the second takes what the first makes; an annotation is called in the
section of the first. -/
theorem context_restored_of_stages :
    Environment.noting.Restores ∧ Environment.noting.KeepsLimit ∧
    ∃ e t c, Compiler.compile {} .fresh "[1, 2] #> @note(.) #< .index" 0 = (.ok e, t, c) ∧
      (e.tryEvaluate .noting []).Restores ∧
      ∀ alarm : Calls, (Calls.watched .noting 1000 alarm Calls.maxLevels).invoke e [] {} =
        e.tryEvaluate .noting [] {} := by
  have restores : Environment.noting.Restores := by
    intro name handler found args m
    rw [Environment.noting_handler found]
    exact .refl m.context
  have keepsLimit : Environment.noting.KeepsLimit := by
    intro name handler found args m
    rw [Environment.noting_handler found]
    exact Nat.le_refl m.context.maxCallDepth
  obtain ⟨e, t, c, h⟩ := Compiler.compile_of_isOk {} .fresh "[1, 2] #> @note(.) #< .index" 0
    (by decide +kernel)
  obtain ⟨calls, -, quiet⟩ := context_restored .noting restores
  exact ⟨restores, keepsLimit, e, t, c, h, (calls e []).1,
    fun alarm => ((quiet keepsLimit alarm {}).1 e []).1⟩

end TagExpr

/-! ## Failures are isolated -/

namespace TagExpr

/-! ## What goes on inside reports nothing -/

@[simp] theorem Context.handler_dropSection (c : Context) : c.dropSection.handler = c.handler := by
  unfold dropSection
  split <;> rfl

@[simp] theorem Context.handler_enterCall (c : Context) (first : Option Value) :
    (c.enterCall first).handler = c.handler := by
  cases first <;> rfl

@[simp] theorem Context.handler_leaveCall (c : Context) (first : Option Value) :
    (c.leaveCall first).handler = c.handler := by
  cases first with
  | none => rfl
  | some v => exact c.handler_dropSection

theorem Context.handler_setBinding {c c' : Context} {template : TemplateId} {slot : Nat} {v : Value}
    (h : c.setBinding template slot v = .ok c') : c'.handler = c.handler := by
  unfold setBinding at h
  split at h
  · cases h
    rfl
  · cases h

/-- The reports are those of before, whether the step has a value or stops. -/
def Eval.ReportsNothing {α : Type} (x : Eval α) : Prop :=
  ∀ m, Ends x m (fun _ m' => m'.context.handler = m.context.handler) fun _ m' =>
    m'.context.handler = m.context.handler

/-- The handlers of annotations report nothing, as is the case if they make no isolated
evaluations. -/
def Environment.ReportsNothing (env : Environment) : Prop :=
  ∀ name handler, env.annotations.lookup name = some handler →
    ∀ args, (handler args).ReportsNothing

/-- Nothing is reported. -/
def Upkeep.unreported : Upkeep where
  admits _ := True
  keeps c c' := c'.handler = c.handler
  refl _ := rfl
  trans h h' := h'.trans h
  lasts _ _ := trivial
  assigns := Context.handler_setBinding
  enters _ _ _ := trivial
  leaves h := by simpa using h
  nests _ _ := trivial
  unnests h := (Context.handler_dropSection _).trans h

variable {env : Environment}

theorem Expression.tryEvaluate_reportsNothing (quiet : env.ReportsNothing) (e : Expression)
    (args : List Value) : (e.tryEvaluate env args).ReportsNothing := by
  have handlers : ∀ name handler, env.annotations.lookup name = some handler →
      ∀ args, Upkeep.unreported.Alike (handler args) (handler args) :=
    fun name handler found args m _ => ⟨rfl, quiet name handler found args m⟩
  have calls : Upkeep.unreported.AlikeCalls env (Calls.full env) (Calls.full env) :=
    Calls.alike_ofLevels_self (Upkeep.alike_pure _) handlers Calls.maxLevels
  exact fun m => (calls.invoke e args m trivial).2

/-! ## What goes on inside runs no hook -/

theorem Node.eval_hook (hook : Value → Value) (calls : Calls) (fuel : Nat) (e : Expression)
    (frame : FrameId) (n : Node) :
    n.eval { env with hook } calls fuel e frame = n.eval env calls fuel e frame := by
  delta Node.eval
  rfl

theorem Calls.ofLevels_hook (hook : Value → Value) (missing : Eval Value) (fuel : Nat) :
    ofLevels { env with hook } missing fuel = ofLevels env missing fuel := by
  induction fuel with
  | zero => rfl
  | succ fuel ih =>
    have run : runAt { env with hook } missing fuel = runAt env missing fuel :=
      congrArg Calls.run ih
    have pull : pullAt { env with hook } missing fuel = pullAt env missing fuel :=
      congrArg Calls.pull ih
    have tree : runAt { env with hook } missing (fuel + 1) = runAt env missing (fuel + 1) := by
      funext e frame n
      simp only [runAt, run, pull, Node.eval_hook]
    have stream : pullAt { env with hook } missing (fuel + 1) = pullAt env missing (fuel + 1) := by
      funext id
      simp only [pullAt, run, pull]
    simp only [ofLevels, tree, stream]

theorem Expression.tryEvaluate_hook (hook : Value → Value) (e : Expression) (args : List Value) :
    e.tryEvaluate { env with hook } args = e.tryEvaluate env args := by
  simp only [tryEvaluate, Calls.full, Calls.ofLevels_hook]

/-! ## One evaluation -/

namespace Expression

/-- The report of a failure of an expression. -/
def failureReport (e : Expression) (error : EvalError) : Report :=
  { expression := e.callName, span := error.span.getD e.span, error }

/-- The reports that come of an evaluation that ends like this. -/
def reportsOf (e : Expression) : EStateM.Result Stop Machine Value → List Report
  | .error (.error error) _ => if error.isHalt then [] else [e.failureReport error]
  | _ => []

end Expression

/-- The machine with other reports. -/
def Machine.withReports (m : Machine) (captured : List Report) : Machine :=
  { m with context := { m.context with handler := .buffer captured } }

/-- What an isolated evaluation answers and reports, by how the evaluation ends that is not
isolated. The handler has captured some reports before, and the hook is any one. -/
inductive Isolated (env : Environment) (e : Expression) (args : List Value) (m : Machine)
    (captured : List Report) : Prop
  /-- The hook is applied to the value. -/
  | value {v : Value} {m' : Machine} : e.tryEvaluate env args m = .ok v m' →
      m'.context.handler = .buffer captured →
      (∀ hook, e.evaluate { env with hook } args m = .ok (hook v) m') →
      Isolated env e args m captured
  /-- There is one report more, and no hook is run. -/
  | failure {error : EvalError} {m' : Machine} :
      e.tryEvaluate env args m = .error (.error error) m' → error.isHalt = false →
      m'.context.handler = .buffer captured →
      (∀ hook, e.evaluate { env with hook } args m =
        .ok .null (m'.withReports (captured ++ [e.failureReport error]))) →
      Isolated env e args m captured
  /-- A halt goes on. -/
  | halt {error : EvalError} {m' : Machine} :
      e.tryEvaluate env args m = .error (.error error) m' → error.isHalt = true →
      m'.context.handler = .buffer captured →
      (∀ hook, e.evaluate { env with hook } args m = .error (.error error) m') →
      Isolated env e args m captured
  /-- No end has been reached. -/
  | exhausted {m' : Machine} : e.tryEvaluate env args m = .error .exhausted m' →
      m'.context.handler = .buffer captured →
      (∀ hook, e.evaluate { env with hook } args m = .error .exhausted m') →
      Isolated env e args m captured

namespace Expression

variable {m : Machine} {captured : List Report} (e : Expression) (args : List Value)

theorem evaluate_hook (hook : Value → Value) : e.evaluate { env with hook } args m =
    e.isolate { env with hook } (e.tryEvaluate env args) m := by
  rw [evaluate, tryEvaluate_hook]

theorem isolated (quiet : env.ReportsNothing) (h : m.context.handler = .buffer captured) :
    Isolated env e args m captured := by
  have kept := e.tryEvaluate_reportsNothing quiet args m
  cases ran : e.tryEvaluate env args m with
  | ok v m' =>
    refine .value ran ((kept.ok ran).trans h) fun hook => ?_
    rw [evaluate_hook, isolate, ran]
  | error stop m' =>
    have handler := (kept.error ran).trans h
    cases stop with
    | exhausted =>
      refine .exhausted ran handler fun hook => ?_
      rw [evaluate_hook, isolate, ran]
    | error error =>
      cases halts : error.isHalt with
      | true =>
        refine .halt ran halts handler fun hook => ?_
        simp only [evaluate_hook, isolate, ran, halts, if_true]
      | false =>
        refine .failure ran halts handler fun hook => ?_
        simp only [evaluate_hook, isolate, ran, halts, Bool.false_eq_true, if_false, handler]
        rfl

/-! ## Evaluations one after the other -/

/-- The machine that an evaluation has reached. -/
def reached : EStateM.Result Stop Machine Value → Machine
  | .ok _ m => m
  | .error _ m => m

/-- The machine after some isolated evaluations. -/
def evaluateAll (env : Environment) : List (Expression × List Value) → Machine → Machine
  | [], m => m
  | (e, args) :: rest, m => evaluateAll env rest (reached (e.evaluate env args m))

/-- The reports of some isolated evaluations: one for each that would fail without being
isolated. -/
def allReports (env : Environment) : List (Expression × List Value) → Machine → List Report
  | [], _ => []
  | (e, args) :: rest, m =>
    e.reportsOf (e.tryEvaluate env args m) ++ allReports env rest (reached (e.evaluate env args m))

theorem handler_reached (quiet : env.ReportsNothing) (h : m.context.handler = .buffer captured) :
    (reached (e.evaluate env args m)).context.handler =
      .buffer (captured ++ e.reportsOf (e.tryEvaluate env args m)) := by
  cases e.isolated args quiet h with
  | value ran handler evaluated =>
    rw [evaluated env.hook, ran, reportsOf, List.append_nil]
    · exact handler
    · rintro _ _ ⟨⟩
  | failure ran halts handler evaluated =>
    rw [evaluated env.hook, ran, reportsOf, halts]
    rfl
  | halt ran halts handler evaluated =>
    rw [evaluated env.hook, ran, reportsOf, halts, if_pos rfl, List.append_nil]
    exact handler
  | exhausted ran handler evaluated =>
    rw [evaluated env.hook, ran, reportsOf, List.append_nil]
    · exact handler
    · rintro _ _ ⟨⟩

theorem handler_evaluateAll (quiet : env.ReportsNothing)
    (evaluations : List (Expression × List Value))
    (h : m.context.handler = .buffer captured) :
    (evaluateAll env evaluations m).context.handler =
      .buffer (captured ++ allReports env evaluations m) := by
  induction evaluations generalizing m captured with
  | nil => rw [evaluateAll, allReports, List.append_nil, h]
  | cons first rest ih =>
    obtain ⟨e, args⟩ := first
    rw [evaluateAll, ih (e.handler_reached args quiet h), allReports, List.append_assoc]

end Expression

/-- **Failures are isolated and counted exactly.** After any isolated evaluations the handler has
captured one report for each of them that fails, in their order; and the next one makes one report
and is null if it fails, makes none and goes on if it halts, and makes none and is the value with
the hook applied if it has a value. -/
theorem failures_isolated (quiet : env.ReportsNothing) {m : Machine} {captured : List Report}
    (h : m.context.handler = .buffer captured) (evaluations : List (Expression × List Value)) :
    let before := Expression.evaluateAll env evaluations m
    let reports := captured ++ Expression.allReports env evaluations m
    before.context.handler = .buffer reports ∧
      ∀ e args, Isolated env e args before reports := by
  have handler := Expression.handler_evaluateAll quiet evaluations h
  exact ⟨handler, fun e args => e.isolated args quiet handler⟩

/-- A stage fails for its first element, and an annotation has been called before. -/
theorem failures_isolated_of_stage :
    Environment.noting.ReportsNothing ∧
    ∃ e t c, Compiler.compile {} .fresh "@note(1); [1, 2] #< null.a" 0 = (.ok e, t, c) ∧
      let m := ({} : Machine).withReports []
      let before := Expression.evaluateAll .noting [(e, [])] m
      let reports := Expression.allReports .noting [(e, [])] m
      reports.map (·.expression) = ["@note(1); [1, 2] #< null.a"] ∧
        before.context.handler = .buffer reports ∧
        ∀ e args, Isolated .noting e args before reports := by
  have quiet : Environment.noting.ReportsNothing := by
    intro name handler found args m
    rw [Environment.noting_handler found]
    rfl
  obtain ⟨e, t, c, h⟩ := Compiler.compile_of_isOk {} .fresh "@note(1); [1, 2] #< null.a" 0
    (by decide +kernel)
  have reported : (Compiler.compile {} .fresh "@note(1); [1, 2] #< null.a" 0).1.toOption.map
      (fun e => (Expression.allReports .noting [(e, [])] (({} : Machine).withReports [])).map
        (·.expression)) = some ["@note(1); [1, 2] #< null.a"] := by decide +kernel
  simp only [h, Except.toOption, Option.map_some, Option.some.injEq] at reported
  have isolated := failures_isolated quiet (m := ({} : Machine).withReports []) rfl [(e, [])]
  exact ⟨quiet, e, t, c, h, reported, by simpa only [List.nil_append] using isolated⟩

end TagExpr
