import Mathlib.Data.List.Forall2
import TagExpr.Eval
import TagExpr.Proofs.Compile
import TagExpr.Proofs.Ends
import TagExpr.Proofs.Typing.Static

/-!
# Static types are kept

Whatever the machine is, a tree that has a value has one that its static type admits. The proof goes
along the tree for one level of evaluation and then by induction on the levels, since the bodies of
streaming operators run a level below. With what the parser has checked, this is said of compiled
expressions and of all their parts.
-/

namespace TagExpr

variable {α β : Type} {P Q : α → Prop} {R : β → Prop}

/-! ## What a step yields -/

namespace Eval

/-- If the step has a value, `Q` holds of it. -/
def Yields (x : Eval α) (Q : α → Prop) : Prop :=
  ∀ m, Ends x m (fun a _ => Q a) fun _ _ => True

theorem yields_pure {a : α} (h : Q a) : Yields (pure a) Q := fun _ => h

theorem yields_throw (stop : Stop) : Yields (throw stop) Q := fun _ => trivial

/-- What holds of everything. -/
theorem yields_of_forall (h : ∀ a, Q a) (x : Eval α) : x.Yields Q := by
  intro m
  unfold Ends
  cases x m with
  | ok a _ => exact h a
  | error _ _ => trivial

theorem Yields.mono {x : Eval α} (h : x.Yields P) (hQ : ∀ a, P a → Q a) : x.Yields Q :=
  fun m => (h m).mono (fun a _ => hQ a) fun _ _ h => h

theorem Yields.bind {x : Eval α} {f : α → Eval β} (h : x.Yields P)
    (hf : ∀ a, P a → (f a).Yields R) : (x >>= f).Yields R := by
  intro m
  rw [ends_bind]
  exact (h m).mono (fun a m' ha => hf a ha m') fun _ _ h => h

/-- Nothing is known of the first value. -/
theorem Yields.after {f : α → Eval β} (hf : ∀ a, (f a).Yields R) (x : Eval α) :
    (x >>= f).Yields R :=
  (yields_of_forall (fun _ => trivial) x).bind (P := fun _ => True) fun a _ => hf a

theorem yields_ofExcept {r : Except EvalFault α} (h : ∀ a, r = .ok a → Q a) :
    (ofExcept r).Yields Q := by
  cases r with
  | ok a => exact yields_pure (h a rfl)
  | error fault => exact yields_throw _

theorem Yields.during {x : Eval α} (h : x.Yields Q) (enter leave : Context → Context) :
    (Eval.during enter leave x).Yields Q := by
  intro m
  have inner := h { m with context := enter m.context }
  unfold Ends at inner ⊢
  unfold Eval.during
  cases ran : x { m with context := enter m.context } with
  | ok a m' => simpa only [ran] using inner
  | error stop m' => trivial

theorem Yields.located {x : Eval α} (h : x.Yields Q) (span : Span) :
    (Eval.located span x).Yields Q := by
  intro m
  have inner := h m
  unfold Ends at inner ⊢
  unfold Eval.located
  cases ran : x m with
  | ok a m' => simpa only [ran] using inner
  | error stop m' => cases stop <;> trivial

end Eval

open Eval

/-! ## Bodies of streaming operators -/

/-- A tree that is run has a value that it admits. -/
def Calls.Typed (calls : Calls) : Prop :=
  ∀ e frame (n : Node), (calls.run e frame n).Yields n.Admits

namespace Calls.Typed

variable {calls : Calls} {stage : Stage}

theorem runStage (h : calls.Typed) (item : Value) (index : Nat) :
    (calls.runStage stage item index).Yields stage.body.Admits := by
  unfold Calls.runStage
  split
  · exact .after (fun _ => h _ _ _) _
  · exact (h _ _ _).during _ _

theorem reduceStage (h : calls.Typed) (fuel index : Nat) {last : Value}
    (hlast : stage.body.Admits last) :
    (calls.reduceStage stage fuel index last).Yields stage.body.Admits := by
  induction fuel generalizing index last with
  | zero => exact yields_throw _
  | succ fuel ih =>
    refine .after (fun found => ?_) _
    cases found with
    | none => exact yields_pure hlast
    | some item => exact (h.runStage item index).bind fun v hv => ih (index + 1) hv

theorem firstOfStage (h : calls.Typed) (fuel index : Nat) :
    (calls.firstOfStage stage fuel index).Yields stage.body.Admits := by
  induction fuel generalizing index with
  | zero => exact yields_throw _
  | succ fuel ih =>
    refine .after (fun found => ?_) _
    cases found with
    | none => exact yields_pure (Node.admits_null _)
    | some item =>
      refine (h.runStage item index).bind fun v hv => ?_
      split
      · exact ih (index + 1)
      · exact yields_pure hv

theorem applyStage (h : calls.Typed) (fuel : Nat) (op : StreamOp) (source : Node) :
    (calls.applyStage fuel stage op).Yields
      (Node.stream op source stage.binding stage.body).Admits := by
  cases op with
  | remap | filter | flatRemap => exact yields_of_forall (Node.admits_of_object rfl) _
  | reduce =>
    refine (h.reduceStage fuel 0 (Node.admits_null _)).mono fun v hv => ?_
    exact hv.pass (.inl rfl) (.body source stage.binding rfl)
  | first =>
    refine (h.firstOfStage fuel 0).mono fun v hv => ?_
    exact hv.pass (.inl rfl) (.body source stage.binding rfl)

end Calls.Typed

theorem yields_internal (calls : Calls) (lookup : Lookup) (name : InternalName) :
    (calls.internal lookup name).Yields (Node.internal lookup name).Admits := by
  have bool (b : Bool) (name : InternalName) (h : name.operandType = .boolean) :
      (pure (.bool b) : Eval Value).Yields (Node.internal lookup name).Admits := by
    refine yields_pure (Node.admits_of_type ?_)
    show name.operandType.admits _
    rw [h]
    rfl
  refine .after (fun c => ?_) _
  split
  · exact yields_pure (Node.admits_null _)
  case h_2 s _ =>
    cases name with
    | index =>
      refine yields_pure ?_
      cases s.index with
      | none => exact Node.admits_null _
      | some i => exact Node.admits_of_type rfl
    | isFirst => exact bool _ .isFirst rfl
    | hasNext =>
      dsimp only
      split
      · exact bool _ .hasNext rfl
      · exact .after (fun there => bool there .hasNext rfl) _

/-! ## Trees -/

/-- Of some trees with their values the last has a value that it admits. -/
theorem Node.admits_last {items : List Node} {vs : List Value}
    (h : List.Forall₂ Node.Admits items vs) : (Node.sequence items).Admits (vs.getLastD .null) := by
  rcases List.eq_nil_or_concat' items with rfl | ⟨front, n, rfl⟩
  · cases h
    exact admits_null _
  · have tail : List.Forall₂ (fun v n => Node.Admits n v) (vs.drop front.length) [n] :=
      List.forall₂_drop_append vs front [n] h.flip
    have whole := List.take_append_drop front.length vs
    cases tail' : vs.drop front.length with
    | nil =>
      rw [tail'] at tail
      cases tail
    | cons v rest =>
      rw [tail'] at tail whole
      cases tail with
      | cons hv hnil =>
        cases hnil
        rw [← whole, List.getLastD_concat]
        exact hv.pass (.inl (typeOfLast_append .object front n)) (.last front)

namespace Node

variable {env : Environment} {calls : Calls} {fuel : Nat} {e : Expression} {frame : FrameId}

mutual

/-- What a tree yields one level above such calls, it admits. -/
theorem yields (h : calls.Typed) : ∀ n : Node, (n.eval env calls fuel e frame).Yields n.Admits
  | .literal value => yields_pure (by cases value <;> exact admits_of_type rfl)
  | .internal lookup name => yields_internal calls lookup name
  | .unary op operand => .after (fun _ => yields_ofExcept fun _ => admits_unary operand) _
  | .binary op left right => by
    have truth (op : BinaryOp) (type : (binary op left right).staticType = .boolean) (b : Bool) :
        (pure (.bool b) : Eval Value).Yields (binary op left right).Admits :=
      yields_pure (admits_of_type (type ▸ rfl))
    have chosen (op : BinaryOp)
        (hop : op = .coalesce ∨ op = .elvis ∨ op = .ifPresent ∨ op = .ifTruthy) {l : Value}
        (hl : left.Admits l) :
        (if Value.selectsRight op l then eval env calls fuel e frame right else pure l).Yields
          (binary op left right).Admits := by
      split
      · exact (yields h right).mono fun _ hr => admits_selected hop (.inr hr)
      · exact yields_pure (admits_selected hop (.inl hl))
    refine (yields h left).bind fun l hl => ?_
    split
    · split
      · exact .after (fun _ => truth .and rfl _) _
      · exact truth .and rfl _
    · split
      · exact truth .or rfl _
      · exact .after (fun _ => truth .or rfl _) _
    · exact chosen .coalesce (by simp) hl
    · exact chosen .elvis (by simp) hl
    · exact chosen .ifPresent (by simp) hl
    · exact chosen .ifTruthy (by simp) hl
    · exact (yields h right).bind fun r hr => yields_ofExcept fun _ => admits_binary hl hr
  | .ternary condition yes no => by
    have type (side : Node) (hside : side = yes ∨ side = no) :
        (ternary condition yes no).staticType = side.staticType ∨
          (ternary condition yes no).staticType = .object := by
      have either : (ternary condition yes no).staticType =
          Parse.eitherType yes.staticType no.staticType := rfl
      rw [either, Parse.eitherType]
      split
      case isTrue same => rcases hside with rfl | rfl <;> simp [same]
      case isFalse => simp
    refine .after (fun _ => ?_) _
    split
    · exact (yields h yes).mono fun _ hv => hv.pass (type yes (.inl rfl)) .yes
    · exact (yields h no).mono fun _ hv => hv.pass (type no (.inr rfl)) .no
  | .concat parts => .after (fun _ => yields_pure (admits_of_type rfl)) _
  | .assignLocal slot value => by
    refine (yields h value).bind fun v hv => .after (fun _ => ?_) _
    exact yields_pure (hv.pass (.inl rfl) (.assignLocal slot))
  | .assignBinding template slot value => by
    refine (yields h value).bind fun v hv =>
      .after (fun c => .after (fun c => .after (fun _ => ?_) _) _) _
    exact yields_pure (hv.pass (.inl rfl) (.assignBinding template slot))
  | .sequence items => (yieldsList h items).bind fun _ hvs => yields_pure (admits_last hvs)
  | .stream op source slot body => by
    refine .after (fun v => .after (fun input => ?_) _) _
    exact h.applyStage fuel op source
  -- Of all other trees nothing is known.
  | .regex _ | .current _ | .localVar _ | .binding _ _ | .identifier _ _ | .call _ _ _
  | .member _ _ _ | .method _ _ _ _ | .index _ _ _ | .named _ _ | .recurse _ | .annotated _ _
  | .list _ | .set _ | .map _ => yields_of_forall (admits_of_object rfl) _

theorem yieldsList (h : calls.Typed) : ∀ ns : List Node,
    (evalList env calls fuel e frame ns).Yields (List.Forall₂ Node.Admits ns)
  | [] => yields_pure .nil
  | n :: ns => (yields h n).bind fun _ hv => (yieldsList h ns).bind fun _ hvs =>
      yields_pure (.cons hv hvs)

end

end Node

/-! ## All levels -/

theorem Calls.typed_ofLevels (env : Environment) (missing : Eval Value) (fuel : Nat) :
    (Calls.ofLevels env missing fuel).Typed := by
  induction fuel with
  | zero => exact fun _ _ _ => yields_throw _
  | succ fuel ih => exact fun e frame n => n.yields ih

theorem Calls.Typed.invoke {calls : Calls} (h : calls.Typed) (e : Expression) (args : List Value) :
    (calls.invoke e args).Yields e.body.Admits := by
  refine .after (fun c => ?_) _
  split
  · exact yields_throw _
  · exact .after (fun frame => ((h e frame e.body).during _ _).located e.span) _

namespace Expression

variable (env : Environment) (e : Expression) (args : List Value)

theorem yields_tryEvaluate : (e.tryEvaluate env args).Yields e.body.Admits :=
  (Calls.typed_ofLevels env _ Calls.maxLevels).invoke e args

/-- An isolated evaluation that fails is null; any other value goes through the hook. -/
theorem yields_evaluate : (e.evaluate env args).Yields fun v =>
    v = .null ∨ ∃ w, e.body.Admits w ∧ v = env.hook w := by
  intro m
  have tried := yields_tryEvaluate env e args m
  unfold Ends at tried ⊢
  unfold evaluate isolate
  cases ran : e.tryEvaluate env args m with
  | ok v m' =>
    rw [ran] at tried
    exact .inr ⟨v, tried, rfl⟩
  | error stop m' =>
    cases stop with
    | exhausted => trivial
    | error error =>
      by_cases halt : error.isHalt
      · simp only [if_pos halt]
      · simp only [if_neg halt]
        exact .inl trivial

end Expression

/-- **Static types are sound but for sums that join texts.** A compiled expression has the type of
its tree, in which every operator accepts the types of its operands. Evaluated with any arguments in
any context it has null or a value of its type, if it has a value; and so has every part of the tree
wherever it runs. The exception is a floating type that a sum of a floating and an unknown operand
has given: then the value may also be a text. -/
theorem static_types_sound {c c' : Compiler} {t t' : Template} {text : String} {offset : Nat}
    {e : Expression} (h : c.compile t text offset = (.ok e, t', c')) :
    (∃ p scope, parse text offset t.scope = (.ok p, scope) ∧ p.node = e.body ∧
      p.type = e.body.staticType) ∧
    e.body.Checked ∧
    (∀ env args, (e.tryEvaluate env args).Yields e.body.Admits ∧
      (e.evaluate env args).Yields fun v =>
        v = .null ∨ ∃ w, e.body.Admits w ∧ v = env.hook w) ∧
    ∀ n : Node, n.Part e.body → ∀ env missing fuel unit frame,
      ((Calls.ofLevels env missing fuel).run unit frame n).Yields n.Admits := by
  obtain ⟨p, scope, hparse, gathers, -⟩ := Compiler.compile_ok h
  obtain ⟨type, checked⟩ := Parsed.typed hparse
  rw [← gathers.body] at type checked
  exact ⟨⟨p, scope, hparse, gathers.body.symm, type⟩, checked,
    fun env args =>
      ⟨Expression.yields_tryEvaluate env e args, Expression.yields_evaluate env e args⟩,
    fun n _ env missing fuel unit frame => Calls.typed_ofLevels env missing fuel unit frame n⟩

theorem static_types_sound_of_quotient :
    ∃ e t c, Compiler.compile {} .fresh "x = 4 / 2; x ?: -3 & ~x" 0 = (.ok e, t, c) ∧
      e.body.Checked ∧ (e.tryEvaluate {} []).Yields e.body.Admits := by
  obtain ⟨e, t, c, h⟩ := Compiler.compile_of_isOk {} .fresh "x = 4 / 2; x ?: -3 & ~x" 0
    (by decide +kernel)
  obtain ⟨-, checked, evaluated, -⟩ := static_types_sound h
  exact ⟨e, t, c, h, checked, (evaluated {} []).1⟩

/-- A floating type does not rule out a text: `1.5 + .` is a text if its argument is one. -/
theorem floating_sum_joins_text :
    ¬ ∀ (c : Compiler) (t : Template) (text : String) (offset : Nat) (e : Expression)
      (t' : Template) (c' : Compiler) (p : Parsed Expression) (scope : TemplateScope Expression),
      c.compile t text offset = (.ok e, t', c') → parse text offset t.scope = (.ok p, scope) →
      ∀ env args m v m', e.tryEvaluate env args m = .ok v m' → v ≠ .null → p.type.admits v := by
  intro sound
  obtain ⟨e, t', c', compiled⟩ := Compiler.compile_of_isOk {} .fresh "1.5 + ." 0 (by decide +kernel)
  obtain ⟨p, scope, parsed⟩ := Parse.parse_of_isOk "1.5 + ." 0 Template.fresh.scope
    (by decide +kernel)
  have type : p.type = .floating := by
    have floating : (parse "1.5 + ." 0 Template.fresh.scope).1.toOption.map (·.type) =
        some .floating := by decide +kernel
    rw [parsed] at floating
    exact Option.some.inj floating
  have joins : ((Compiler.compile {} .fresh "1.5 + ." 0).1.toOption.bind fun e =>
      ((e.tryEvaluate {} [.str "a"]).run' {}).bind Value.toString?) = some "1.5a" := by
    decide +kernel
  simp only [compiled, Except.toOption, Option.bind_some] at joins
  obtain ⟨v, some, text⟩ := Option.bind_eq_some_iff.mp joins
  delta EStateM.run' EStateM.run at some
  cases ran : e.tryEvaluate {} [.str "a"] {} with
  | error => simp [ran] at some
  | ok w m' =>
    obtain rfl : w = v := by simpa [ran] using some
    cases w with
    | str =>
      have admitted := sound {} .fresh "1.5 + ." 0 e t' c' p scope compiled parsed {} [.str "a"] {}
        _ m' ran (by simp)
      rw [type] at admitted
      cases admitted
    | _ => cases text

end TagExpr
