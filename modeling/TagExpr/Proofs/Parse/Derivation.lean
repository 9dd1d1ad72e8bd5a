import TagExpr.Parse.Apply
import TagExpr.Proofs.Parse.Names
import TagExpr.Proofs.Parse.Words

/-!
# Derivations of fragments

How a finished fragment comes out of the words of the text: a word makes one by itself (`Simple`),
an operator makes one of its operands (`Built`), a closer makes one of the elements of its container
(`Closed`). `Derives` puts these together. It knows nothing of stacks or of the order in which
operators are applied; that the parser builds nothing but derivations is shown elsewhere, and what
holds of every derivation then holds of every parsed expression.
-/

namespace TagExpr

/-- The static type of a constant. -/
def Literal.operandType : Literal → OperandType
  | .null => .object
  | .bool _ => .boolean
  | .int _ => .integral
  | .double _ => .floating
  | .str _ => .string

def InternalName.operandType : InternalName → OperandType
  | .index => .integral
  | .hasNext | .isFirst => .boolean

/-- The static type of a unary operator's value, a folded sign apart. -/
def UnaryOp.resultType : UnaryOp → OperandType
  | .not => .boolean
  | .negate | .plus => .floating
  | .bitNot => .integral
  | .die => .object

/-- The static type of a binary operator's value. -/
def BinaryOp.resultType (op : BinaryOp) (left right : OperandType) : OperandType :=
  match op with
  | .add => if left = .string ∨ right = .string then .string else left.arithmetic right
  | .sub | .mul => left.arithmetic right
  | .div | .mod | .pow => .floating
  | .shiftLeft | .shiftRight | .shiftRightUnsigned | .bitAnd | .bitXor | .bitOr => .integral
  | .compare => .integral
  | .range | .rangeExclusive => .object
  | .coalesce | .elvis | .ifPresent | .ifTruthy => Parse.eitherType left right
  | .and | .or | .eq | .ne | .lt | .le | .gt | .ge | .find | .wholeMatch => .boolean

/-- The operand is not known to be of a wrong type. -/
def UnaryOp.accepts (op : UnaryOp) (operand : OperandType) : Bool :=
  match op with
  | .not | .die => true
  | .negate | .plus => operand != .boolean
  | .bitNot => !Parse.bitwiseRejects.contains operand

/-- Neither operand is known to be of a wrong type. -/
def BinaryOp.accepts (op : BinaryOp) (left right : OperandType) : Bool :=
  let neither (types : List OperandType) : Bool := !types.contains left && !types.contains right
  match op with
  | .add => (left == .string || right == .string) || neither [.boolean]
  | .sub | .mul | .div | .mod | .pow => neither [.boolean]
  | .shiftLeft | .shiftRight | .shiftRightUnsigned | .bitAnd | .bitXor | .bitOr =>
    neither Parse.bitwiseRejects
  | _ => true

/-- The static type of a streaming operator's value, whose body has the given type. -/
def StreamOp.resultType (op : StreamOp) (body : OperandType) : OperandType :=
  match op with
  | .remap | .flatRemap | .filter => .object
  | .reduce | .first => body

/-! No operator makes an entry of a map literal of operands that are none. -/

theorem OperandType.arithmetic_ne_pair (s t : OperandType) : s.arithmetic t ≠ .pair := by
  cases s <;> cases t <;> simp [arithmetic]

theorem Parse.eitherType_ne_pair {s : OperandType} (hs : s ≠ .pair) (t : OperandType) :
    eitherType s t ≠ .pair := by
  unfold eitherType
  split
  · exact hs
  · simp

theorem UnaryOp.resultType_ne_pair (op : UnaryOp) : op.resultType ≠ .pair := by
  cases op <;> simp [resultType]

theorem BinaryOp.resultType_ne_pair (op : BinaryOp) {s : OperandType} (hs : s ≠ .pair)
    (t : OperandType) : op.resultType s t ≠ .pair := by
  cases op with
  | add =>
    by_cases h : s = .string ∨ t = .string
    · simp [resultType, h]
    · simpa [resultType, h] using OperandType.arithmetic_ne_pair s t
  | sub | mul => exact OperandType.arithmetic_ne_pair s t
  | coalesce | elvis | ifPresent | ifTruthy => exact Parse.eitherType_ne_pair hs t
  | _ => simp [resultType]

theorem StreamOp.resultType_ne_pair (op : StreamOp) {s : OperandType} (hs : s ≠ .pair) :
    op.resultType s ≠ .pair := by
  cases op <;> simp [resultType, hs]

namespace Parse

/-! ## Single words -/

/-- The call of a named expression. -/
inductive Callee (N : Names) (name : String) (args : List Node) : Node → Prop
  | named {target : Nat} : N.extensions.namedExpressions → N.expressions[target]? = some name →
      Callee N name args (.named target args)
  | recurse : N.extensions.namedExpressions → N.defining = some name →
      Callee N name args (.recurse args)

/-- What a bare name may mean. -/
inductive Bare (N : Names) (name : String) : Node → Prop
  | localVar {slot : Nat} : N.slots[slot]? = some name → Bare N name (.localVar slot)
  | binding {template : TemplateId} {slot : Nat} : (N.bindings template)[slot]? = some name →
      Bare N name (.binding template slot)
  | named {node : Node} : Callee N name [] node → Bare N name node
  | property {ident : Nat} : N.callable name = false →
      N.identifiers[ident]? = some (.property name) → Bare N name (.identifier ident .unstated)

/-- The fragment that a word makes. -/
inductive Simple (N : Names) : Operand → Word → Prop
  | literal (value : Literal) (span : Span) :
      Simple N (.literal value value.operandType span) (.literal value)
  | regex (source : String) (span : Span) : Simple N (.object (.regex source) span) (.regex source)
  | emptyMap (span : Span) : Simple N (.object (.map []) span) .emptyMap
  | current (levels : Nat) (span : Span) :
      Simple N (.object (.current levels) span) (.current levels)
  | internal {name : String} {internal : InternalName} (lookup : Lookup) (span : Span) :
      InternalName.ofName? name = some internal →
      Simple N { node := .internal lookup internal, type := internal.operandType, span }
        (.internal lookup name)
  | annotated (name : String) (span : Span) : N.extensions.annotations →
      Simple N (.object (.annotated name []) span) (.annotated name false)
  | property {ident : Nat} {name : String} {lookup : Lookup} (span : Span) :
      lookup ≠ .unstated → N.identifiers[ident]? = some (.property name) →
      Simple N (.object (.identifier ident lookup) span) (.name lookup name false)
  | bare {name : String} {node : Node} (span : Span) : Bare N name node →
      Simple N { Operand.object node span with name := some name } (.name .unstated name false)

/-! ## Applied operators -/

/-- The slot in `extra` is the one that an assignment to the operand writes. -/
inductive Target (N : Names) (target : Operand) : Extra → Prop
  | localVar {slot : Nat} : target.node = .localVar slot → Target N target (.assignLocal slot)
  | declared {slot : Nat} {name : String} : target.name = some name →
      N.slots[slot]? = some name → Target N target (.assignLocal slot)
  | binding {template : TemplateId} {slot : Nat} : target.node = .binding template slot →
      Target N target (.assignBinding template slot)
  | bound {template : TemplateId} {slot : Nat} {name : String} : target.name = some name →
      (N.bindings template)[slot]? = some name → Target N target (.assignBinding template slot)

/-- The fragment that an operator makes of its operands, given from left to right. -/
inductive Built (N : Names) (p : Pending) : List Operand → Operand → Prop
  | sign {op : UnaryOp} {x : Operand} {value : Literal} : p.op.kind = .unary op →
      op.accepts x.type → foldSign? op x.node = some value →
      Built N p [x] (.literal value x.type (p.span.merge x.span))
  | unary {op : UnaryOp} {x : Operand} : p.op.kind = .unary op → op.accepts x.type →
      foldSign? op x.node = none →
      Built N p [x]
        { node := .unary op x.node, type := op.resultType, span := p.span.merge x.span }
  | binary {op : BinaryOp} {left right : Operand} : p.op.kind = .binary op →
      op.accepts left.type right.type →
      Built N p [left, right]
        { node := .binary op left.node right.node, type := op.resultType left.type right.type,
          span := left.span.merge right.span }
  | ternary {condition yes no : Operand} : p.op.kind = .ternary → p.extra = .colonSeen →
      Built N p [condition, yes, no]
        { node := .ternary condition.node yes.node no.node, type := eitherType yes.type no.type,
          span := condition.span.merge no.span }
  | pair {key value : Operand} : p.op.kind = .colon → Built N p [key, value] (.pair key value)
  | assignLocal {slot : Nat} {target value : Operand} : p.extra = .assignLocal slot →
      Target N target p.extra →
      Built N p [target, value]
        { node := .assignLocal slot value.node, type := value.type,
          span := target.span.merge value.span, binds := p.op.kind = .bind }
  | assignBinding {template : TemplateId} {slot : Nat} {target value : Operand} :
      p.extra = .assignBinding template slot → Target N target p.extra →
      Built N p [target, value]
        { node := .assignBinding template slot value.node, type := value.type,
          span := target.span.merge value.span, binds := p.op.kind = .bind }
  | stream {op : StreamOp} {binding : Option Nat} {mark : Nat} {source body : Operand} :
      p.op.kind = .stream op → p.extra = .stream binding mark →
      (∀ slot ∈ binding, slot < N.slots.length) →
      Built N p [source, body]
        { node := .stream op source.node binding body.node, type := op.resultType body.type,
          span := source.span.merge body.span }
  | sequence {left right : Operand} : p.op.kind = .sequence →
      Built N p [left, right]
        { node := joinSequence left.node right.node, type := right.type,
          span := left.span.merge right.span, binds := right.binds }

/-! ## Closed containers -/

/-- The word that an operator brings along: the head of a call. -/
def Pending.words (p : Pending) : List Word :=
  match p.extra with
  | .bareCall name lookup => [.name lookup name true]
  | .methodCall name _ => [.member name true]
  | .annotated name => [.annotated name true]
  | _ => []

/-- The fragment that a closer makes of the elements of a container, and of the operand before it
where the container takes one. -/
inductive Closed (N : Names) (p : Pending) (close : Span) :
    List Operand → List Operand → Operand → Prop
  | group {element : Operand} : p.op.kind = .group → p.extra = .plain → ¬ element.isPair →
      Closed N p close [] [element]
        { node := element.node, type := element.type, span := p.span.merge close,
          binds := element.binds }
  | collection {elements : List Operand} {node : Node} : p.extra = .plain →
      collection? p.op.kind elements = some node →
      Closed N p close [] elements (.object node (p.span.merge close))
  | lookup {safe : Bool} {receiver key : Operand} : p.op.kind = .lookup safe → p.extra = .plain →
      ¬ key.isPair →
      Closed N p close [receiver] [key]
        (.object (.index receiver.node key.node safe) (receiver.span.merge close))
  | named {name : String} {args : List Operand} {node : Node} :
      p.extra = .bareCall name .unstated → (∀ arg ∈ args, ¬ arg.isPair) →
      Callee N name (args.map (·.node)) node →
      Closed N p close [] args (.object node (p.span.merge close))
  | call {name : String} {lookup : Lookup} {args : List Operand} {ident : Nat} :
      p.extra = .bareCall name lookup → (∀ arg ∈ args, ¬ arg.isPair) →
      (lookup = .unstated → N.callable name = false) →
      N.identifiers[ident]? = some (.method name args.length) →
      Closed N p close [] args
        (.object (.call ident lookup (args.map (·.node))) (p.span.merge close))
  | method {name : String} {safe : Bool} {receiver : Operand} {args : List Operand} {ident : Nat} :
      p.extra = .methodCall name safe → (∀ arg ∈ args, ¬ arg.isPair) →
      N.identifiers[ident]? = some (.method name args.length) →
      Closed N p close [receiver] args
        (.object (.method receiver.node ident (args.map (·.node)) safe)
          (receiver.span.merge close))
  | annotated {name : String} {args : List Operand} : p.extra = .annotated name →
      (∀ arg ∈ args, ¬ arg.isPair) → N.extensions.annotations →
      Closed N p close [] args (.object (.annotated name (args.map (·.node))) (p.span.merge close))

/-! ## Derivations -/

/-- The fragments, from left to right, are derived from the words. -/
inductive Derives (N : Names) : List Operand → List Word → Prop
  | nil : Derives N [] []
  | cons {o : Operand} {os : List Operand} {v w : List Word} :
      Derives N [o] v → Derives N os w → Derives N (o :: os) (v ++ w)
  | word {o : Operand} {w : Word} : Simple N o w → Derives N [o] [w]
  | concat {parts : List Operand} {w : List Word} (span : Span) :
      N.extensions.interpolation → Derives N parts w → (∀ part ∈ parts, ¬ part.isPair) →
      Derives N [{ node := .concat (parts.map (·.node)), type := .string, span }] w
  | member {receiver : Operand} {w : List Word} {ident : Nat} {name : String} (safe : Bool)
      (span : Span) : Derives N [receiver] w → ¬ receiver.isPair →
      N.identifiers[ident]? = some (.property name) →
      Derives N [.object (.member receiver.node ident safe) span] (w ++ [.member name false])
  | built {p : Pending} {args : List Operand} {o : Operand} {w : List Word} :
      Derives N args w → (∀ arg ∈ args, ¬ arg.isPair) → Built N p args o → Derives N [o] w
  | closed {p : Pending} {close : Span} {receivers elements : List Operand} {o : Operand}
      {v w : List Word} : Derives N receivers v → (∀ r ∈ receivers, ¬ r.isPair) →
      Derives N elements w → Closed N p close receivers elements o →
      Derives N [o] (v ++ p.words ++ w)

/-! ## Names may grow -/

variable {N M : Names}

theorem Callee.mono (hg : N.Grows M) {name : String} {args : List Node} {node : Node}
    (h : Callee N name args node) : Callee M name args node := by
  cases h with
  | named he ht => exact .named (hg.extensions ▸ he) (hg.expression ht)
  | recurse he hd => exact .recurse (hg.extensions ▸ he) (hg.defining ▸ hd)

theorem Bare.mono (hg : N.Grows M) {name : String} {node : Node} (h : Bare N name node) :
    Bare M name node := by
  cases h with
  | localVar hs => exact .localVar (hg.slot hs)
  | binding hb => exact .binding (hg.binding hb)
  | named hc => exact .named (hc.mono hg)
  | property hc hi => exact .property (by rw [hg.callable, hc]) (hg.identifier hi)

theorem Simple.mono (hg : N.Grows M) {o : Operand} {w : Word} (h : Simple N o w) :
    Simple M o w := by
  cases h with
  | literal value span => exact .literal value span
  | regex source span => exact .regex source span
  | emptyMap span => exact .emptyMap span
  | current levels span => exact .current levels span
  | internal lookup span hn => exact .internal lookup span hn
  | annotated name span he => exact .annotated name span (hg.extensions ▸ he)
  | property span hl hi => exact .property span hl (hg.identifier hi)
  | bare span hb => exact .bare span (hb.mono hg)

theorem Target.mono (hg : N.Grows M) {target : Operand} {extra : Extra}
    (h : Target N target extra) : Target M target extra := by
  cases h with
  | localVar hn => exact .localVar hn
  | declared hn hs => exact .declared hn (hg.slot hs)
  | binding hn => exact .binding hn
  | bound hn hb => exact .bound hn (hg.binding hb)

theorem Built.mono (hg : N.Grows M) {p : Pending} {args : List Operand} {o : Operand}
    (h : Built N p args o) : Built M p args o := by
  cases h with
  | sign hk ha hf => exact .sign hk ha hf
  | unary hk ha hf => exact .unary hk ha hf
  | binary hk ha => exact .binary hk ha
  | ternary hk he => exact .ternary hk he
  | pair hk => exact .pair hk
  | assignLocal he ht => exact .assignLocal he (ht.mono hg)
  | assignBinding he ht => exact .assignBinding he (ht.mono hg)
  | stream hk he hs => exact .stream hk he fun slot hslot =>
      Nat.lt_of_lt_of_le (hs slot hslot) hg.slots.length_le
  | sequence hk => exact .sequence hk

theorem Closed.mono (hg : N.Grows M) {p : Pending} {close : Span} {rs es : List Operand}
    {o : Operand} (h : Closed N p close rs es o) : Closed M p close rs es o := by
  cases h with
  | group hk he hp => exact .group hk he hp
  | collection he hc => exact .collection he hc
  | lookup hk he hp => exact .lookup hk he hp
  | named he hp hc => exact .named he hp (hc.mono hg)
  | call he hp hc hi => exact .call he hp (fun hl => by rw [hg.callable, hc hl]) (hg.identifier hi)
  | method he hp hi => exact .method he hp (hg.identifier hi)
  | annotated he hp ha => exact .annotated he hp (hg.extensions ▸ ha)

theorem Derives.mono (hg : N.Grows M) {os : List Operand} {w : List Word} (h : Derives N os w) :
    Derives M os w := by
  induction h with
  | nil => exact .nil
  | cons _ _ iho ihos => exact .cons iho ihos
  | word hs => exact .word (hs.mono hg)
  | concat span he _ hp ih => exact .concat span (hg.extensions ▸ he) ih hp
  | member safe span _ hp hi ih => exact .member safe span ih hp (hg.identifier hi)
  | built _ hp hb ih => exact .built ih hp (hb.mono hg)
  | closed _ hp _ hc ihr ihe => exact .closed ihr hp ihe (hc.mono hg)

/-! ## Lists of fragments -/

theorem Derives.of_nil {os : List Operand} {w : List Word} (h : Derives N os w) (hos : os = []) :
    w = [] := by
  cases h with
  | nil => rfl
  | _ => cases hos

theorem Derives.append {os os' : List Operand} {v w : List Word} (h : Derives N os v)
    (h' : Derives N os' w) : Derives N (os ++ os') (v ++ w) := by
  induction h with
  | nil => exact h'
  | @cons o os u v ho _ _ ih =>
    rw [List.cons_append, List.append_assoc]
    exact .cons ho ih
  | word hs => exact .cons (.word hs) h'
  | concat span he hd hp => exact .cons (.concat span he hd hp) h'
  | member safe span hd hp hi => exact .cons (.member safe span hd hp hi) h'
  | built hd hp hb => exact .cons (.built hd hp hb) h'
  | closed hr hp he hc => exact .cons (.closed hr hp he hc) h'

/-- A fragment that still bears a name is the bare name itself. -/
theorem Derives.of_name {os : List Operand} {w : List Word} (h : Derives N os w) {o : Operand}
    (hos : os = [o]) {name : String} (hn : o.name = some name) :
    w = [.name .unstated name false] ∧ Bare N name o.node := by
  induction h with
  | nil => cases hos
  | cons _ hrest iho _ =>
    cases hos
    obtain ⟨hw, hbare⟩ := iho rfl
    rw [hw, hrest.of_nil rfl, List.append_nil]
    exact ⟨rfl, hbare⟩
  | word hs =>
    cases hos
    cases hs with
    | bare span hb =>
      cases hn
      exact ⟨rfl, hb⟩
    | _ => cases hn
  | concat | member =>
    cases hos
    cases hn
  | built _ _ hb =>
    cases hos
    cases hb <;> cases hn
  | closed _ _ _ hc =>
    cases hos
    cases hc <;> cases hn

end Parse

end TagExpr
