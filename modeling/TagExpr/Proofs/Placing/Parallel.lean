import Mathlib.Data.List.Forall2
import TagExpr.Proofs.Parse.Ends
import TagExpr.Proofs.Placing.Likeness

/-!
# Two parses side by side

What the parser does depends on the places of its tokens only in that it hands them on: to the
fragments it makes and to its errors. Names it compares with each other and hands on, and nothing
more; what is switched off makes it fail. So two parses that take the same tokens but for places and
names do the same steps, and what they have made differs as the likeness says (`Parallel`).

How the places differ is left open. All that is asked is that spans made of related spans are
related. Unless the likeness is strict, nothing is said about the second parse where the first one
fails.
-/

namespace TagExpr

variable {ε : Type} {L : Likeness}

namespace Parse

/-! ## What two parses hold -/

/-- The fragments differ in their places and in names only. -/
inductive Operand.Twin (L : Likeness) : Operand → Operand → Prop
  | intro (o : Operand) {span : Span} : L.rel o.span span →
      Twin L o { o with span, name := o.name.map L.name }

/-- The waiting operators differ in their places and in names only. -/
inductive Pending.Twin (L : Likeness) : Pending → Pending → Prop
  | intro (p : Pending) {span : Span} : L.rel p.span span →
      Twin L p { p with span, extra := p.extra.rename L.name }

/-- The benches differ as the likeness allows. -/
structure Bench.Twin (L : Likeness) (b c : Bench ε) : Prop where
  scope : b.scope.Alike L c.scope
  tables : c.tables = b.tables.rename L.name
  operands : List.Forall₂ (Operand.Twin L) b.operands.toList c.operands.toList
  operators : List.Forall₂ (Pending.Twin L) b.operators.toList c.operators.toList

variable {b c : Bench ε} {os os' : List Operand} {ps ps' : List Pending} {α β : Type}

theorem Operand.Twin.span {o o' : Operand} (h : Operand.Twin L o o') : L.rel o.span o'.span := by
  obtain ⟨hs⟩ := h
  exact hs

/-- The function looks neither at places nor at names. -/
def Placeless (L : Likeness) (f : Pending → β) : Prop :=
  ∀ (p : Pending) (span : Span), f { p with span, extra := p.extra.rename L.name } = f p

theorem map_twins (h : List.Forall₂ (Operand.Twin L) os os') {f : Operand → β}
    (hf : ∀ o span, f { o with span, name := o.name.map L.name } = f o) :
    os'.map f = os.map f := by
  induction h with
  | nil => rfl
  | cons ho _ ih =>
    obtain ⟨-⟩ := ho
    simp only [List.map_cons, hf, ih]

theorem find?_twins (h : List.Forall₂ (Pending.Twin L) ps ps') {q : Pending → Bool}
    (hq : Placeless L q) {f : Pending → β} (hf : Placeless L f) :
    (ps'.find? q).map f = (ps.find? q).map f := by
  induction h with
  | nil => rfl
  | @cons p _ _ _ hp _ ih =>
    obtain ⟨-⟩ := hp
    simp only [List.find?_cons, hq p]
    split
    · exact congrArg some (hf p _)
    · exact ih

theorem any_takeWhile_twins (h : List.Forall₂ (Pending.Twin L) ps ps') {q r : Pending → Bool}
    (hq : Placeless L q) (hr : Placeless L r) :
    (ps'.takeWhile q).any r = (ps.takeWhile q).any r := by
  induction h with
  | nil => rfl
  | @cons p _ _ _ hp _ ih =>
    obtain ⟨-⟩ := hp
    simp only [List.takeWhile_cons, hq p]
    split
    · simp only [List.any_cons, hr p, ih]
    · rfl

namespace Bench.Twin

theorem size_operands (h : Bench.Twin L b c) : c.operands.size = b.operands.size :=
  h.operands.length_eq.symm

theorem isEmpty_operands (h : Bench.Twin L b c) : c.operands.isEmpty = b.operands.isEmpty := by
  have operands := h.operands
  unfold Stack.isEmpty
  generalize b.operands.toList = os, c.operands.toList = os' at operands
  cases operands <;> rfl

theorem isEmpty_operators (h : Bench.Twin L b c) : c.operators.isEmpty = b.operators.isEmpty := by
  have operators := h.operators
  unfold Stack.isEmpty
  generalize b.operators.toList = ps, c.operators.toList = ps' at operators
  cases operators <;> rfl

/-- What the innermost open container is, its place apart. -/
theorem openContainer? (h : Bench.Twin L b c) {f : Pending → β}
    (hf : Placeless L f) :
    (Parse.openContainer? c).map f = (Parse.openContainer? b).map f :=
  find?_twins h.operators (fun _ _ => rfl) hf

theorem peek_operands (h : Bench.Twin L b c) :
    Option.Rel (Operand.Twin L) b.operands.peek? c.operands.peek? := by
  have operands := h.operands
  unfold Stack.peek?
  generalize b.operands.toList = os, c.operands.toList = os' at operands
  cases operands with
  | nil => exact .none
  | cons ho _ => exact .some ho

theorem peek_operators (h : Bench.Twin L b c) :
    Option.Rel (Pending.Twin L) b.operators.peek? c.operators.peek? := by
  have operators := h.operators
  unfold Stack.peek?
  generalize b.operators.toList = ps, c.operators.toList = ps' at operators
  cases operators with
  | nil => exact .none
  | cons hp _ => exact .some hp

end Bench.Twin

/-! ## Steps that end alike -/

/-- Both steps have answers that `Q` relates, or fail for one cause. If the likeness is not strict,
nothing is said of a step whose counterpart in the first parse fails. -/
inductive Matches (L : Likeness) (Q : α → β → Prop) :
    EStateM.Result ParseError (Bench ε) α → EStateM.Result ParseError (Bench ε) β → Prop
  | ok {a : α} {a' : β} {b c : Bench ε} : Q a a' → Bench.Twin L b c →
      Matches L Q (.ok a b) (.ok a' c)
  | error {e e' : ParseError} {b c : Bench ε} : e.Twin L.toSpanRelation e' →
      b.scope.Alike L c.scope → Matches L Q (.error e b) (.error e' c)
  | lenient {e : ParseError} {b : Bench ε} {r : EStateM.Result ParseError (Bench ε) β} :
      ¬ L.strict → Matches L Q (.error e b) r

/-- On benches that differ as the likeness allows both steps end alike. -/
def Parallel (L : Likeness) (Q : α → β → Prop) (step : Parse ε α) (step' : Parse ε β) : Prop :=
  ∀ b c, Bench.Twin L b c → Matches L Q (step b) (step' c)

variable {γ δ : Type} {Q : α → β → Prop} {step : Parse ε α} {step' : Parse ε β}

theorem Matches.bind {Q' : γ → δ → Prop} {next : α → Parse ε γ} {next' : β → Parse ε δ}
    (h : Matches L Q (step b) (step' c))
    (hn : ∀ a a', Q a a' → Parallel L Q' (next a) (next' a')) :
    Matches L Q' ((step >>= next) b) ((step' >>= next') c) := by
  simp only [Bind.bind, EStateM.bind]
  revert h
  generalize step b = r, step' c = r'
  rintro (⟨ha, hbc⟩ | ⟨he, hscope⟩ | hlenient)
  · exact hn _ _ ha _ _ hbc
  · exact .error he hscope
  · exact .lenient hlenient

theorem Parallel.bind {Q' : γ → δ → Prop} {next : α → Parse ε γ} {next' : β → Parse ε δ}
    (h : Parallel L Q step step') (hn : ∀ a a', Q a a' → Parallel L Q' (next a) (next' a')) :
    Parallel L Q' (step >>= next) (step' >>= next') :=
  fun b c hbc => (h b c hbc).bind hn

theorem parallel_pure {a : α} {a' : β} (h : Q a a') :
    Parallel L Q (pure a : Parse ε α) (pure a' : Parse ε β) :=
  fun _ _ hbc => .ok h hbc

theorem Parallel.mono {Q' : α → β → Prop} (h : Parallel L Q step step')
    (himp : ∀ a a', Q a a' → Q' a a') : Parallel L Q' step step' := by
  intro b c hbc
  have hm := h b c hbc
  revert hm
  generalize step b = r, step' c = r'
  rintro (⟨ha, hbc'⟩ | ⟨he, hscope⟩ | hlenient)
  · exact .ok (himp _ _ ha) hbc'
  · exact .error he hscope
  · exact .lenient hlenient

/-- Nothing is asked of the counterpart of a step that fails. -/
theorem parallel_lenient (h : ¬ L.strict) (e : ParseError) {step' : Parse ε β} :
    Parallel L Q (throw e : Parse ε α) step' :=
  fun _ _ _ => .lenient h

theorem parallel_throw {e e' : ParseError} (h : e.Twin L.toSpanRelation e') :
    Parallel L Q (throw e : Parse ε α) (throw e' : Parse ε β) :=
  fun _ _ hbc => .error h hbc.scope

theorem parallel_fail (fault : ParseFault) {span span' : Span} (h : L.rel span span') :
    Parallel L Q (fail fault span : Parse ε α) (fail fault span' : Parse ε β) :=
  parallel_throw ⟨rfl, h⟩

/-- What goes on in the same way if a part of the language is switched on, and fails if it is not.
The part may be switched on in the second parse only if the likeness is not strict. -/
theorem parallel_enabled {s s' : TemplateScope ε} (hs : s.Alike L s') {on : Extensions → Bool}
    (hon : on L.extensions → on L.extensions') (fault : ParseFault) {span span' : Span}
    (h : L.rel span span') {next : Parse ε γ} {next' : Parse ε δ} {Q' : γ → δ → Prop}
    (hn : Parallel L Q' next next') :
    Parallel L Q' (if !on s.extensions then fail fault span >>= fun _ : PUnit => next else next)
      (if !on s'.extensions then fail fault span' >>= fun _ : PUnit => next' else next') := by
  rw [hs.left, hs.extensions]
  cases off : on L.extensions with
  | true =>
    simp only [hon off, Bool.not_true, Bool.false_eq_true, if_false]
    exact hn
  | false =>
    by_cases strict : L.strict
    · rw [L.exact strict, off]
      exact .bind (Q := fun _ _ => True) (parallel_fail fault h) fun _ _ _ => hn
    · exact fun _ _ _ => .lenient strict

theorem parallel_unexpected (found : String) (expected : Expectation) {span span' : Span}
    (h : L.rel span span') :
    Parallel L Q (unexpected found expected span : Parse ε α)
      (unexpected found expected span' : Parse ε β) :=
  parallel_fail _ h

theorem parallel_get : Parallel L (Bench.Twin L) (get : Parse ε (Bench ε)) get :=
  fun _ _ hbc => .ok hbc hbc

theorem parallel_set (h : Bench.Twin L b c) :
    Parallel L (fun _ _ => True) (set b : Parse ε PUnit) (set c) :=
  fun _ _ _ => .ok trivial h

theorem parallel_modify {f g : Bench ε → Bench ε}
    (h : ∀ b c, Bench.Twin L b c → Bench.Twin L (f b) (g c)) :
    Parallel L (fun _ _ => True) (modify f : Parse ε PUnit) (modify g) :=
  fun _ _ hbc => .ok trivial (h _ _ hbc)

theorem parallel_withTables {f g : Tables ε → α × Tables ε}
    (h : ∀ t, g (t.rename L.name) = ((f t).1, (f t).2.rename L.name)) :
    Parallel L Eq (withTables f : Parse ε α) (withTables g) := by
  intro b c hbc
  have changed := h b.tables
  rw [← hbc.tables] at changed
  unfold withTables
  refine .ok ?_ ⟨hbc.scope, ?_, hbc.operands, hbc.operators⟩
  · rw [changed]
  · simp only [changed]

theorem parallel_pushOperand {o o' : Operand} (h : Operand.Twin L o o') :
    Parallel L (fun _ _ => True) (pushOperand o : Parse ε Unit) (pushOperand o') :=
  parallel_modify fun _ _ hbc => ⟨hbc.scope, hbc.tables, .cons h hbc.operands, hbc.operators⟩

theorem parallel_pushOperator (op : Operator) (extra : Extra) {span span' : Span}
    (h : L.rel span span') :
    Parallel L (fun _ _ => True) (pushOperator op span extra : Parse ε Unit)
      (pushOperator op span' (extra.rename L.name)) := by
  refine parallel_modify fun b c hbc => ⟨hbc.scope, hbc.tables, hbc.operands, ?_⟩
  rw [hbc.size_operands]
  exact .cons (.intro { op, span, base := b.operands.size, extra } h) hbc.operators

theorem parallel_popValue {span span' : Span} (h : L.rel span span') :
    Parallel L (Operand.Twin L) (popValue span : Parse ε Operand) (popValue span') := by
  refine parallel_get.bind fun b c hbc => ?_
  rw [hbc.size_operands, hbc.openContainer? fun _ _ => rfl]
  simp only
  split
  · exact parallel_fail _ h
  · obtain ⟨scope, tables, operands, operators⟩ := hbc
    unfold Stack.pop?
    rcases hb : b.operands.toList with _ | ⟨o, below⟩ <;>
      rcases hc : c.operands.toList with _ | ⟨o', below'⟩ <;> rw [hb, hc] at operands
    · exact parallel_fail _ h
    · cases operands
    · cases operands
    · cases operands with
      | cons ho hbelow =>
        refine .bind (Q := fun _ _ => True) (parallel_set ?_) fun _ _ _ => ?_
        · exact ⟨scope, tables, hbelow, operators⟩
        obtain ⟨hspan⟩ := ho
        show Parallel L _ (if o.isPair = true then _ else _) (if o.isPair = true then _ else _)
        split
        · exact parallel_fail _ hspan
        · exact parallel_pure (.intro o hspan)

theorem parallel_identifier (key : IdentKey) :
    Parallel L Eq (identifier key : Parse ε Nat) (identifier (key.rename L.name)) :=
  parallel_withTables fun t => t.identifier_rename L.injective key

theorem parallel_declareLocal (name : String) :
    Parallel L Eq (withTables (·.declareLocal name) : Parse ε Nat)
      (withTables (·.declareLocal (L.name name))) :=
  parallel_withTables fun t => t.declareLocal_rename name

theorem parallel_namedCall? (name : String) (args : List Node) :
    Parallel L Eq (namedCall? name args : Parse ε (Option Node))
      (namedCall? (L.name name) args) := by
  refine parallel_get.bind fun b c hbc => ?_
  cases on : b.scope.extensions.namedExpressions with
  | false =>
    cases on' : c.scope.extensions.namedExpressions with
    | false => exact parallel_pure rfl
    | true =>
      have none : c.scope.named? (L.name name) = .none := by
        rw [hbc.scope.named?, hbc.scope.named?_of_off on on']
      simp only [none]
      exact parallel_pure rfl
  | true =>
    have on' : c.scope.extensions.namedExpressions = true := by
      rw [hbc.scope.extensions]
      exact L.subset.1 (hbc.scope.left ▸ on)
    have defining : (b.tables.rename L.name).defining = some (L.name name) ↔
        b.tables.defining = some name := by
      show b.tables.defining.map L.name = (some name).map L.name ↔ _
      exact (Option.map_injective L.injective).eq_iff
    rw [hbc.tables]
    simp only [on', hbc.scope.named?, defining, Bool.not_true, Bool.false_eq_true, if_false]
    split
    · exact parallel_pure rfl
    · exact parallel_pure rfl
    · refine (parallel_withTables fun t => t.expression_rename L.injective name _).bind ?_
      rintro target _ rfl
      exact parallel_pure rfl

/-! ## Applying operators -/

theorem parallel_reject (symbol : String) {o o' : Operand} (h : Operand.Twin L o o')
    (types : List OperandType) :
    Parallel L (fun _ _ => True) (reject symbol o types : Parse ε Unit)
      (reject symbol o' types) := by
  obtain ⟨hspan⟩ := h
  show Parallel L _ (if types.contains o.type then _ else _)
    (if types.contains o.type then _ else _)
  split
  · exact parallel_fail _ hspan
  · exact parallel_pure trivial

theorem parallel_applyUnary (op : UnaryOp) {span span' : Span} (h : L.rel span span') :
    Parallel L (fun _ _ => True) (applyUnary op span : Parse ε Unit) (applyUnary op span') := by
  refine (parallel_popValue h).bind fun o o' ho => ?_
  have full : L.rel (span.merge o.span) (span'.merge o'.span) := L.merge h ho.span
  have rejects := parallel_reject (ε := ε) op.symbol ho
  obtain ⟨hspan⟩ := ho
  have finish (type : OperandType) : Parallel L (fun _ _ => True)
      (pushOperand { node := .unary op o.node, type, span := span.merge o.span } : Parse ε Unit)
      (pushOperand { node := .unary op o.node, type, span := span'.merge _ }) :=
    parallel_pushOperand (.intro { node := .unary op o.node, type, span := span.merge o.span } full)
  cases op with
  | not | die => exact finish _
  | negate | plus =>
    refine (rejects _).bind fun _ _ _ => ?_
    simp only
    split
    case h_1 folded _ => exact parallel_pushOperand (.intro (.literal folded o.type _) full)
    case h_2 => exact finish _
  | bitNot => exact (rejects _).bind fun _ _ _ => finish _

theorem parallel_binaryType (op : BinaryOp) {left left' right right' : Operand}
    (hl : Operand.Twin L left left') (hr : Operand.Twin L right right') :
    Parallel L Eq (binaryType op left right : Parse ε OperandType)
      (binaryType op left' right') := by
  have both (types : List OperandType) (type : OperandType) : Parallel L Eq
      (do reject op.symbol left types; reject op.symbol right types; pure type :
        Parse ε OperandType)
      (do reject op.symbol left' types; reject op.symbol right' types; pure type) :=
    (parallel_reject _ hl _).bind fun _ _ _ => (parallel_reject _ hr _).bind fun _ _ _ =>
      parallel_pure rfl
  obtain ⟨-⟩ := hl
  obtain ⟨-⟩ := hr
  cases op with
  | add | sub | mul =>
    unfold binaryType
    simp only
    split
    · exact parallel_pure rfl
    · simpa only [bind_assoc] using both _ _
  | _ =>
    first
    | exact parallel_pure rfl
    | simpa only [binaryType, bind_assoc] using both _ _

theorem parallel_applyBinary (op : BinaryOp) {span span' : Span} (h : L.rel span span') :
    Parallel L (fun _ _ => True) (applyBinary op span : Parse ε Unit) (applyBinary op span') := by
  refine (parallel_popValue h).bind fun right right' hr => ?_
  refine (parallel_popValue h).bind fun left left' hl => ?_
  refine (parallel_binaryType op hl hr).bind ?_
  rintro type _ rfl
  have full := L.merge hl.span hr.span
  obtain ⟨-⟩ := hl
  obtain ⟨-⟩ := hr
  exact parallel_pushOperand
    (.intro { node := .binary op left.node right.node, type, span := _ } full)

theorem parallel_applyTernary (extra : Extra) {span span' : Span} (h : L.rel span span') :
    Parallel L (fun _ _ => True) (applyTernary span extra : Parse ε Unit)
      (applyTernary span' (extra.rename L.name)) := by
  have rest : Parallel L (fun _ _ => True) (do
      let no ← popValue span
      let yes ← popValue span
      let condition ← popValue span
      pushOperand
        { node := .ternary condition.node yes.node no.node, type := eitherType yes.type no.type,
          span := condition.span.merge no.span } : Parse ε Unit) (do
      let no ← popValue span'
      let yes ← popValue span'
      let condition ← popValue span'
      pushOperand
        { node := .ternary condition.node yes.node no.node, type := eitherType yes.type no.type,
          span := condition.span.merge no.span }) := by
    refine (parallel_popValue h).bind fun no no' hno => ?_
    refine (parallel_popValue h).bind fun yes yes' hyes => ?_
    refine (parallel_popValue h).bind fun condition condition' hcondition => ?_
    have full := L.merge hcondition.span hno.span
    obtain ⟨-⟩ := hno
    obtain ⟨-⟩ := hyes
    obtain ⟨-⟩ := hcondition
    exact parallel_pushOperand (.intro
      { node := .ternary condition.node yes.node no.node, type := eitherType yes.type no.type,
        span := _ } full)
  unfold applyTernary
  simp only [ne_eq, Extra.rename_eq_colonSeen]
  split
  · exact .bind (Q := fun _ _ => True) (parallel_fail _ h) fun _ _ _ => rest
  · exact rest

theorem parallel_applyColon {span span' : Span} (h : L.rel span span') :
    Parallel L (fun _ _ => True) (applyColon span : Parse ε Unit) (applyColon span') := by
  refine (parallel_popValue h).bind fun value value' hvalue => ?_
  refine (parallel_popValue h).bind fun key key' hkey => ?_
  have full := L.merge hkey.span hvalue.span
  obtain ⟨-⟩ := hvalue
  obtain ⟨-⟩ := hkey
  exact parallel_pushOperand (.intro (.pair key value) full)

theorem parallel_applyAssignment {p p' : Pending} (hp : Pending.Twin L p p') :
    Parallel L (fun _ _ => True) (applyAssignment p : Parse ε Unit) (applyAssignment p') := by
  obtain ⟨hspan⟩ := hp
  refine (parallel_popValue hspan).bind fun value value' hvalue => ?_
  refine (parallel_popValue hspan).bind fun target target' htarget => ?_
  have full := L.merge htarget.span hvalue.span
  have aim := htarget.span
  obtain ⟨-⟩ := hvalue
  obtain ⟨-⟩ := htarget
  have finish (node : Node) : Parallel L (fun _ _ => True)
      (pushOperand { node, type := value.type, span := target.span.merge value.span,
                     binds := p.op.kind = .bind } : Parse ε Unit)
      (pushOperand { node, type := value.type, span := Span.merge _ _,
                     binds := p.op.kind = .bind }) :=
    parallel_pushOperand (.intro
      { node, type := value.type, span := target.span.merge value.span, binds := p.op.kind = .bind }
      full)
  cases hx : p.extra with
  | assignLocal | assignBinding =>
    simp only [Extra.rename]
    exact finish _
  | _ =>
    simp only [Extra.rename]
    exact parallel_fail _ aim

theorem parallel_applyStream (op : StreamOp) (extra : Extra) {span span' : Span}
    (h : L.rel span span') :
    Parallel L (fun _ _ => True) (applyStream op span extra : Parse ε Unit)
      (applyStream op span' (extra.rename L.name)) := by
  unfold applyStream
  cases extra with
  | stream binding mark =>
    refine (parallel_popValue h).bind fun body body' hbody => ?_
    refine (parallel_popValue h).bind fun source source' hsource => ?_
    refine (parallel_modify ?_).bind fun _ _ _ => ?_
    · intro b c hbc
      have tables : c.tables.endScope mark = (b.tables.endScope mark).rename L.name := by
        rw [hbc.tables, Tables.endScope_rename]
      exact ⟨hbc.scope, tables, hbc.operands, hbc.operators⟩
    · have full := L.merge hsource.span hbody.span
      obtain ⟨-⟩ := hbody
      obtain ⟨-⟩ := hsource
      exact parallel_pushOperand (.intro
        { node := .stream op source.node binding body.node, type := _, span := _ } full)
  | _ => exact parallel_fail _ h

theorem parallel_applySequence {span span' : Span} (h : L.rel span span') :
    Parallel L (fun _ _ => True) (applySequence span : Parse ε Unit) (applySequence span') := by
  refine (parallel_popValue h).bind fun right right' hright => ?_
  refine (parallel_popValue h).bind fun left left' hleft => ?_
  have full := L.merge hleft.span hright.span
  obtain ⟨-⟩ := hright
  obtain ⟨-⟩ := hleft
  exact parallel_pushOperand (.intro
    { node := joinSequence left.node right.node, type := right.type, span := _,
      binds := right.binds } full)

theorem parallel_apply {p p' : Pending} (hp : Pending.Twin L p p') :
    Parallel L (fun _ _ => True) (apply p : Parse ε Unit) (apply p') := by
  have assigns := parallel_applyAssignment (ε := ε) hp
  obtain ⟨hspan⟩ := hp
  unfold apply
  simp only
  split
  · exact parallel_applyUnary _ hspan
  · exact parallel_applyBinary _ hspan
  · exact parallel_applyTernary _ hspan
  · exact parallel_applyColon hspan
  · exact assigns
  · exact assigns
  · exact parallel_applyStream _ _ hspan
  · exact parallel_applySequence hspan
  all_goals exact parallel_fail _ hspan

theorem parallel_applyWhile {q : Pending → Bool} (hq : Placeless L q)
    (h : List.Forall₂ (Pending.Twin L) ps ps') :
    Parallel L (fun _ _ => True) (applyWhile q ps : Parse ε Unit) (applyWhile q ps') := by
  induction h with
  | nil => exact parallel_pure trivial
  | @cons p p' below below' hp hbelow ih =>
    have applies := parallel_apply (ε := ε) hp
    have hqp : q p' = q p := by
      obtain ⟨-⟩ := hp
      exact hq p _
    unfold applyWhile
    rw [hqp]
    split
    · refine (parallel_modify ?_).bind fun _ _ _ => applies.bind fun _ _ _ => ih
      exact fun b c hbc => ⟨hbc.scope, hbc.tables, hbc.operands, hbelow⟩
    · exact parallel_pure trivial

theorem parallel_reduceWhile {q : Pending → Bool} (hq : Placeless L q) :
    Parallel L (fun _ _ => True) (reduceWhile q : Parse ε Unit) (reduceWhile q) :=
  parallel_get.bind fun _ _ hbc => parallel_applyWhile hq hbc.operators

theorem parallel_reduceFor (op : Operator) :
    Parallel L (fun _ _ => True) (reduceFor op : Parse ε Unit) (reduceFor op) :=
  parallel_reduceWhile fun _ _ => rfl

theorem parallel_reduceToContainer :
    Parallel L (fun _ _ => True) (reduceToContainer : Parse ε Unit) reduceToContainer :=
  parallel_reduceWhile fun _ _ => rfl

/-! ## Containers -/

theorem collection?_twins (kind : OpKind) (h : List.Forall₂ (Operand.Twin L) os os') :
    collection? kind os' = collection? kind os := by
  have nodes : os'.map (·.node) = os.map (·.node) := map_twins h fun _ _ => rfl
  have kinds : os'.map (·.isPair) = os.map (·.isPair) := map_twins h fun _ _ => rfl
  have entries : os'.map (fun e => e.pairValue.map (e.node, ·)) =
      os.map fun e => e.pairValue.map (e.node, ·) := map_twins h fun _ _ => rfl
  have plain : os'.all (!·.isPair) = os.all (!·.isPair) := by
    have := congrArg (List.all · (!·)) kinds
    simpa only [List.all_map, Function.comp_def] using this
  have pairs : os'.all (·.isPair) = os.all (·.isPair) := by
    have := congrArg (List.all · id) kinds
    simpa only [List.all_map, Function.comp_def, id] using this
  have filtered : os'.filterMap (fun e => e.pairValue.map (e.node, ·)) =
      os.filterMap fun e => e.pairValue.map (e.node, ·) := by
    have := congrArg (List.filterMap id) entries
    simpa only [List.filterMap_map, Function.comp_def, id] using this
  unfold collection?
  rw [nodes, plain, pairs, filtered]

theorem parallel_closeGroup {span span' : Span} (h : L.rel span span')
    (hos : List.Forall₂ (Operand.Twin L) os os') :
    Parallel L (fun _ _ => True) (closeGroup os span : Parse ε Unit) (closeGroup os' span') := by
  unfold closeGroup
  rcases hos with _ | @⟨o, _, _, _, ho, _ | _⟩
  · exact parallel_fail _ h
  · have aim := ho.span
    obtain ⟨-⟩ := ho
    show Parallel L _ (if o.isPair = true then _ else _) (if o.isPair = true then _ else _)
    split
    · exact parallel_fail _ aim
    · exact parallel_pushOperand (.intro
        { node := o.node, type := o.type, span, binds := o.binds } h)
  · exact parallel_fail _ h

theorem parallel_closeLookup (opener : String) (safe : Bool) {span span' close close' : Span}
    (h : L.rel span span') (hclose : L.rel close close')
    (hos : List.Forall₂ (Operand.Twin L) os os') :
    Parallel L (fun _ _ => True) (closeLookup opener safe os span close : Parse ε Unit)
      (closeLookup opener safe os' span' close') := by
  unfold closeLookup
  rcases hos with _ | @⟨key, _, _, _, hkey, _ | _⟩
  · exact parallel_fail _ h
  · obtain ⟨-⟩ := hkey
    show Parallel L _ (if key.isPair = true then _ else _) (if key.isPair = true then _ else _)
    split
    · exact parallel_fail _ h
    · refine (parallel_popValue h).bind fun receiver receiver' hreceiver => ?_
      have full := L.merge hreceiver.span hclose
      obtain ⟨-⟩ := hreceiver
      exact parallel_pushOperand (.intro (.object (.index receiver.node key.node safe) _) full)
  · exact parallel_fail _ h

theorem parallel_closeCall {p p' : Pending} (hp : Pending.Twin L p p') (args : List Node)
    {span span' close close' : Span} (h : L.rel span span') (hclose : L.rel close close') :
    Parallel L (fun _ _ => True) (closeCall p args span close : Parse ε Unit)
      (closeCall p' args span' close') := by
  obtain ⟨-⟩ := hp
  have push (node : Node) : Parallel L (fun _ _ => True)
      (pushOperand (.object node span) : Parse ε Unit) (pushOperand (.object node span')) :=
    parallel_pushOperand (.intro (.object node span) h)
  unfold closeCall
  cases hx : p.extra with
  | bareCall name lookup =>
    simp only [Extra.rename]
    split
    case' isTrue => refine (parallel_namedCall? _ args).bind ?_
    case' isFalse => refine (parallel_pure (Q := Eq) rfl).bind ?_
    all_goals
      rintro (_ | node) _ rfl
      · refine (parallel_identifier _).bind ?_
        rintro ident _ rfl
        exact push _
      · exact push _
  | methodCall name safe =>
    simp only [Extra.rename]
    refine (parallel_popValue h).bind fun receiver receiver' hreceiver => ?_
    refine (parallel_identifier _).bind ?_
    rintro ident _ rfl
    have full := L.merge hreceiver.span hclose
    obtain ⟨-⟩ := hreceiver
    exact parallel_pushOperand (.intro (.object (.method receiver.node ident args _) _) full)
  | annotated name => exact push _
  | _ => exact parallel_fail _ h

theorem parallel_closeContainer {p p' : Pending} (hp : Pending.Twin L p p')
    (hos : List.Forall₂ (Operand.Twin L) os os') {close close' : Span}
    (hclose : L.rel close close') :
    Parallel L (fun _ _ => True) (closeContainer p os close : Parse ε Unit)
      (closeContainer p' os' close') := by
  have nodes : os'.map (·.node) = os.map (·.node) := map_twins hos fun _ _ => rfl
  have calls := @parallel_closeCall ε L _ _ hp (os.map (·.node))
  obtain ⟨hspan⟩ := hp
  have full := L.merge hspan hclose
  unfold closeContainer
  simp only [collection?_twins _ hos, nodes]
  split
  · exact parallel_closeGroup full hos
  · split
    · exact parallel_pushOperand (.intro (.object _ _) full)
    · exact parallel_fail _ full
  · split
    · exact parallel_pushOperand (.intro (.object _ _) full)
    · exact parallel_fail _ full
  · exact parallel_closeLookup _ _ full hclose hos
  · exact calls full hclose
  · exact parallel_fail _ full

theorem popMany?_twins {s s' : Stack Operand}
    (h : List.Forall₂ (Operand.Twin L) s.toList s'.toList) (count : Nat) :
    List.Forall₂ (Operand.Twin L) ((s.popMany? count).getD ([], s)).1
        ((s'.popMany? count).getD ([], s')).1 ∧
      List.Forall₂ (Operand.Twin L) ((s.popMany? count).getD ([], s)).2.toList
        ((s'.popMany? count).getD ([], s')).2.toList := by
  have size : s'.size = s.size := h.length_eq.symm
  unfold Stack.popMany?
  rw [size]
  split
  · exact ⟨List.forall₂_reverse_iff.2 (List.forall₂_take count h), List.forall₂_drop count h⟩
  · exact ⟨.nil, h⟩

theorem parallel_close (symbol : String) {span span' : Span} (h : L.rel span span') :
    Parallel L (fun _ _ => True) (close symbol span : Parse ε Unit) (close symbol span') := by
  refine parallel_reduceToContainer.bind fun _ _ _ => parallel_get.bind fun b c hbc => ?_
  obtain ⟨scope, tables, operands, operators⟩ := hbc
  have size : c.operands.size = b.operands.size := operands.length_eq.symm
  unfold Stack.pop?
  rcases hb : b.operators.toList with _ | ⟨p, below⟩ <;>
    rcases hc : c.operators.toList with _ | ⟨p', below'⟩ <;> rw [hb, hc] at operators
  · exact parallel_fail _ h
  · cases operators
  · cases operators
  · cases operators with
    | cons hp hbelow =>
      have closes := @parallel_closeContainer ε L
      obtain ⟨hspan⟩ := hp
      simp only [size]
      split
      · exact parallel_fail _ hspan
      · obtain ⟨elements, rest⟩ := popMany?_twins operands (b.operands.size - p.base)
        refine .bind (Q := fun _ _ => True) (parallel_set ?_) fun _ _ _ => ?_
        · exact ⟨scope, tables, rest, hbelow⟩
        rw [elements.length_eq]
        split
        · exact .bind (Q := fun _ _ => True) (parallel_fail _ h) fun _ _ _ =>
            closes (.intro p hspan) elements h
        · exact closes (.intro p hspan) elements h

theorem parallel_closeWithoutOperand (symbol : String) {span span' : Span} (h : L.rel span span') :
    Parallel L (fun _ _ => True) (closeWithoutOperand symbol span : Parse ε Unit)
      (closeWithoutOperand symbol span') := by
  refine parallel_get.bind fun b c hbc => ?_
  rw [hbc.size_operands]
  have top := hbc.peek_operators
  generalize b.operators.peek? = p?, c.operators.peek? = p?' at top
  rcases top with ⟨⟨-⟩⟩ | _
  · simp only
    split
    · exact parallel_unexpected _ _ h
    · exact parallel_close symbol h
  · exact parallel_close symbol h

theorem modify_twins {f : Pending → Pending}
    (hf : ∀ p p', Pending.Twin L p p' → Pending.Twin L (f p) (f p'))
    (h : List.Forall₂ (Pending.Twin L) ps ps') :
    List.Forall₂ (Pending.Twin L) (ps.modify 0 f) (ps'.modify 0 f) := by
  cases h with
  | nil => exact .nil
  | cons hp hbelow => exact .cons (hf _ _ hp) hbelow

theorem parallel_comma {span span' : Span} (h : L.rel span span') :
    Parallel L (fun _ _ => True) (comma span : Parse ε Unit) (comma span') := by
  refine parallel_reduceToContainer.bind fun _ _ _ => parallel_get.bind fun b c hbc => ?_
  have counts : Bench.Twin L
      { b with operators := b.operators.modifyAt 0 fun p => { p with commas := p.commas + 1 } }
      { c with operators := c.operators.modifyAt 0 fun p =>
        { p with commas := p.commas + 1 } } := by
    refine ⟨hbc.scope, hbc.tables, hbc.operands, modify_twins ?_ hbc.operators⟩
    rintro p _ ⟨hspan⟩
    exact .intro { p with commas := p.commas + 1 } hspan
  rw [hbc.size_operands]
  have top := hbc.peek_operators
  generalize b.operators.peek? = p?, c.operators.peek? = p?' at top
  rcases top with ⟨⟨-⟩⟩ | _
  · simp only
    split
    · exact parallel_unexpected _ _ h
    · split
      · exact parallel_fail _ h
      · exact parallel_set counts
  · exact parallel_unexpected _ _ h

theorem placeless_isOpenTernary : Placeless L isOpenTernary := fun p span => by
  simp [isOpenTernary]

theorem parallel_colon (op : Operator) {span span' : Span} (h : L.rel span span') :
    Parallel L (fun _ _ => True) (colon op span : Parse ε Unit) (colon op span') := by
  refine (parallel_reduceFor op).bind fun _ _ _ => parallel_get.bind fun b c hbc => ?_
  simp only
  rw [any_takeWhile_twins hbc.operators (fun _ _ => rfl) placeless_isOpenTernary]
  split
  · refine (parallel_reduceWhile fun p span => ?_).bind fun _ _ _ => parallel_modify ?_
    · rw [placeless_isOpenTernary p span]
    intro b c hbc
    refine ⟨hbc.scope, hbc.tables, hbc.operands, modify_twins ?_ hbc.operators⟩
    rintro p _ ⟨hspan⟩
    exact .intro { p with extra := .colonSeen } hspan
  · -- Of the container only its kind matters.
    have kinds := hbc.openContainer? (f := fun p => p.op.kind) fun _ _ => rfl
    cases hb : openContainer? b <;> cases hc : openContainer? c <;> rw [hb, hc] at kinds
    · exact parallel_fail _ h
    · cases kinds
    · cases kinds
    · simp only [Option.map_some, Option.some.injEq] at kinds
      simp only [kinds]
      split
      · exact parallel_pushOperator _ _ h
      · exact parallel_fail _ h

/-! ## The end of a text -/

theorem parallel_finish {span span' : Span} (h : L.rel span span') :
    Parallel L (Operand.Twin L) (finish span : Parse ε Operand) (finish span') := by
  refine (parallel_reduceWhile fun _ _ => rfl).bind fun _ _ _ => parallel_get.bind fun b c hbc => ?_
  rcases hb : b.operands.toList with _ | ⟨o, _ | ⟨_, _⟩⟩ <;>
    rcases hc : c.operands.toList with _ | ⟨o', _ | ⟨_, _⟩⟩ <;>
    have operands := hbc.operands <;> rw [hb, hc] at operands
  case nil.nil => exact parallel_fail _ h
  case cons.nil.cons.nil =>
    obtain ⟨⟨hspan⟩, -⟩ := List.forall₂_cons.1 operands
    show Parallel L _ (if o.isPair = true then _ else _) (if o.isPair = true then _ else _)
    split
    · exact parallel_fail _ hspan
    · exact parallel_pure (.intro o hspan)
  case cons.cons.cons.cons => exact parallel_fail _ h
  all_goals simp at operands

end Parse

end TagExpr
