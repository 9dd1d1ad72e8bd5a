import TagExpr.Proofs.Climbing.Lexing
import TagExpr.Proofs.Climbing.Meaning
import TagExpr.Proofs.Parse.Whole

/-!
# The parser climbs

On the text of a chain the operators that wait are frames, and the operands below them are the left
operands that the frames keep. Every token leaves the tree as it is that the climb makes of the
frames and the rest of the chain; at the end of the text it is the tree of the whole chain.
-/

namespace TagExpr.Climbing

open Parse

variable {ε : Type} {table left : List IdentKey} {frames : List Frame} {x : Tree} {b : Bench ε}

/-! ## Fragments -/

/-- The fragment holds what the tree stands for. -/
structure Holds (table : List IdentKey) (x : Tree) (o : Operand) : Prop where
  node : o.node = x.node table
  type : x.type? = some o.type

/-- An operator has refused an operand for its static type. -/
def Refusal (e : ParseError) : Prop :=
  ∃ symbol type, e.fault = .invalidOperand symbol type

theorem Holds.not_isPair {o : Operand} (h : Holds table x o) : ¬ o.isPair := by
  intro hp
  refine x.type?_ne_pair ?_
  rw [h.type]
  simpa [Operand.isPair] using hp

section Applied

variable {N : Names} {p : Pending}

theorem Holds.unary {op : UnaryOp} {o o' : Operand} (h : Holds table x o)
    (hk : p.op.kind = .unary op) (hb : Built N p [o] o') : Holds table (.unary op x) o' := by
  have hfold := Tree.foldSign?_node table op x
  rw [← h.node] at hfold
  cases hb with
  | @sign op' _ value hk' ha hf =>
    obtain rfl : op = op' := by simpa using hk.symm.trans hk'
    rw [hf] at hfold
    obtain ⟨v, hv, rfl⟩ := Option.map_eq_some_iff.mp hfold.symm
    obtain ⟨u, hu⟩ := Tree.number?_unary hv
    have htype : some o.type = some .integral := by
      rw [← h.type]
      exact Tree.type?_of_number? hu
    refine ⟨(Tree.node_of_number? hv).symm, ?_⟩
    rw [Tree.type?_of_number? hv]
    exact htype.symm
  | @unary op' _ hk' ha hf =>
    obtain rfl : op = op' := by simpa using hk.symm.trans hk'
    rw [hf] at hfold
    have hnone : (Tree.unary op x).number? = none := Option.map_eq_none_iff.mp hfold.symm
    refine ⟨?_, ?_⟩
    · simp only [Tree.node, hnone, h.node]
    · simp [Tree.type?, hnone, h.type, ha]

theorem Holds.unary_refused {op : UnaryOp} {o : Operand} {e : ParseError} (h : Holds table x o)
    (hk : p.op.kind = .unary op) (hr : Parse.Refused p [o] e) :
    Refusal e ∧ (Tree.unary op x).type? = none := by
  cases hr with
  | pair ho hp =>
    obtain rfl := List.mem_singleton.mp ho
    exact absurd hp h.not_isPair
  | @unary op' _ hk' ha =>
    obtain rfl : op = op' := by simpa using hk.symm.trans hk'
    refine ⟨⟨_, _, rfl⟩, ?_⟩
    have hnone : ¬ (Tree.unary op x).number?.isSome := by
      intro hsome
      obtain ⟨v, hv⟩ := Option.isSome_iff_exists.mp hsome
      cases (Tree.accepts_of_number? hv h.type).symm.trans ha
    simp [Tree.type?, hnone, h.type, ha]

theorem Holds.binary {op : BinaryOp} {y : Tree} {l r o' : Operand} (hl : Holds table x l)
    (hr : Holds table y r) (hk : p.op.kind = .binary op) (he : p.extra = .plain)
    (hb : Built N p [l, r] o') :
    Holds table (.binary op x y) o' := by
  cases hb with
  | @binary op' _ _ hk' ha =>
    obtain rfl : op = op' := by simpa using hk.symm.trans hk'
    refine ⟨?_, ?_⟩
    · simp only [Tree.node, hl.node, hr.node]
    · simp [Tree.type?, hl.type, hr.type, ha]
  | pair hk' => cases hk.symm.trans hk'
  | assignLocal he' => cases he.symm.trans he'
  | assignBinding he' => cases he.symm.trans he'
  | stream hk' => cases hk.symm.trans hk'
  | sequence hk' => cases hk.symm.trans hk'

theorem Holds.binary_refused {op : BinaryOp} {y : Tree} {l r : Operand} {e : ParseError}
    (hl : Holds table x l) (hr : Holds table y r) (hk : p.op.kind = .binary op)
    (href : Parse.Refused p [l, r] e) : Refusal e ∧ (Tree.binary op x y).type? = none := by
  cases href with
  | @pair _ o ho hp =>
    rcases List.mem_cons.mp ho with rfl | ho
    · exact absurd hp hl.not_isPair
    · obtain rfl := List.mem_singleton.mp ho
      exact absurd hp hr.not_isPair
  | @binary op' _ _ _ hk' ha =>
    obtain rfl : op = op' := by simpa using hk.symm.trans hk'
    refine ⟨⟨_, _, rfl⟩, ?_⟩
    simp [Tree.type?, hl.type, hr.type, ha]

end Applied

/-! ## Stacks -/

/-- What operators make of their operands does not depend on what positions stand for. -/
def noNames : Names := ⟨[], [], [], fun _ => [], none, fun _ => false, .all⟩

/-- What waits below a chain. None of it is applied before the chain has ended: what is on top is a
container or binds no tighter than a question mark. -/
structure Below where
  operators : List Pending
  operands : List Operand
  floor : floorOf operators ≤ operands.length
  loose : ∀ p ∈ operators.head?,
    p.op.kind.isContainer ∨ Operator.question.precedence ≤ p.op.precedence

/-- Nothing waits below a chain that is a whole text. -/
def Below.empty : Below := ⟨[], [], Nat.le_refl 0, by simp⟩

theorem Below.not_yieldsTo (below : Below) {p : Pending} (hp : p ∈ below.operators.head?)
    {op : Operator} (hop : op.precedence ≤ Operator.question.precedence)
    (hright : op.precedence = Operator.question.precedence → op.associativity = .right) :
    p.op.yieldsTo op = false := by
  rcases below.loose p hp with hcontainer | hloose
  · exact Operator.yieldsTo_container hcontainer
  · have hlt : ¬ p.op.precedence < op.precedence := by omega
    have hleft : p.op.precedence = op.precedence → op.associativity ≠ .left := by
      intro heq hleft
      cases hleft.symm.trans (hright (by omega))
    simp only [Operator.yieldsTo, hlt, decide_false, Bool.false_or, Bool.and_eq_false_iff,
      beq_eq_false_iff_ne, ne_eq]
    by_cases heq : p.op.precedence = op.precedence
    · exact .inr (.inr (hleft heq))
    · exact .inr (.inl heq)

variable {below : Below}

/-- The waiting operators are those of the frames, and the operands below them are the left operands
that the frames keep. -/
inductive Stacked (table : List IdentKey) (below : Below) :
    List Frame → List Pending → List Operand → Prop
  | nil : Stacked table below [] below.operators below.operands
  | unary {op : UnaryOp} {p : Pending} {frames : List Frame} {ps : List Pending}
      {os : List Operand} : p.op = op.entry → p.extra = .plain →
      Stacked table below frames ps os → Stacked table below (.unary op :: frames) (p :: ps) os
  | binary {op : BinaryOp} {x : Tree} {p : Pending} {o : Operand} {frames : List Frame}
      {ps : List Pending} {os : List Operand} : p.op = op.entry → p.extra = .plain →
      Holds table x o → Stacked table below frames ps os →
      Stacked table below (.binary op x :: frames) (p :: ps) (o :: os)

theorem Stacked.floor {ps : List Pending} {os : List Operand}
    (h : Stacked table below frames ps os) : floorOf ps ≤ os.length := by
  induction h with
  | nil => exact below.floor
  | @unary op p _ _ _ hp _ _ ih =>
    have hopen : ¬ p.op.kind.isContainer := by
      rw [hp, op.kind_entry]
      simp [OpKind.isContainer, OpKind.closer?]
    rw [floorOf_cons_of_not hopen]
    exact ih
  | @binary op _ p _ _ _ _ hp _ _ _ ih =>
    have hopen : ¬ p.op.kind.isContainer := by
      rw [hp, op.kind_entry]
      simp [OpKind.isContainer, OpKind.closer?]
    rw [floorOf_cons_of_not hopen]
    exact Nat.le_succ_of_le ih

theorem Stacked.eq_below {ps : List Pending} {os : List Operand}
    (h : Stacked table below [] ps os) : ps = below.operators ∧ os = below.operands := by
  cases h
  exact ⟨rfl, rfl⟩

theorem Stacked.top {f : Frame} {ps : List Pending} {os : List Operand}
    (h : Stacked table below (f :: frames) ps os) :
    ∃ p ps', ps = p :: ps' ∧ p.op = Frame.row f := by
  cases h with
  | unary hp => exact ⟨_, _, rfl, hp⟩
  | binary hp => exact ⟨_, _, rfl, hp⟩

/-- Applying the operator on top leaves its frame. -/
theorem Stacked.apply {f : Frame} {p : Pending} {ps : List Pending} {o : Operand}
    {os : List Operand} (h : Stacked table below (f :: frames) (p :: ps) os)
    (hx : Holds table x o) (hb : b.operands = ⟨o :: os⟩) (hops : b.operators = ⟨ps⟩) :
    Ends (Parse.apply p) b
      (fun _ b' => ∃ o' os', Holds table (f.plug x) o' ∧ Stacked table below frames ps os' ∧
        b' = { b with operands := ⟨o' :: os'⟩ })
      (fun e _ => Refusal e ∧ (f.plug x).type? = none) := by
  cases h with
  | @unary op _ _ _ _ hp hextra hrest =>
    have hk : p.op.kind = .unary op := by rw [hp, op.kind_entry]
    have hf : floorOf b.operators.toList ≤ os.length := by
      rw [hops]
      exact hrest.floor
    have hargs : b.operands = ⟨[o].reverse ++ os⟩ := hb
    refine (ends_apply (N := noNames) hf (.unary hk hextra) hargs).mono ?_ ?_
    · rintro _ b' ⟨-, o', hbuilt, rfl⟩
      exact ⟨o', os, hx.unary hk hbuilt, hrest, by simp [Pending.leave, hextra]⟩
    · intro e _ hr
      exact hx.unary_refused hk hr
  | @binary op left _ l _ _ os' hp hextra hl hrest =>
    have hk : p.op.kind = .binary op := by rw [hp, op.kind_entry]
    have hf : floorOf b.operators.toList ≤ os'.length := by
      rw [hops]
      exact hrest.floor
    have htakes : Takes noNames p [l, o] := by
      refine .joining (by rw [hk]; rfl) ?_
      rw [hk, hextra]
      exact .binary op
    refine (ends_apply (N := noNames) hf htakes hb).mono ?_ ?_
    · rintro _ b' ⟨-, o', hbuilt, rfl⟩
      exact ⟨o', os', hl.binary hx hk hextra hbuilt, hrest, by simp [Pending.leave, hextra]⟩
    · intro e _ hr
      exact hl.binary_refused hx hk hr

/-! ## Benches -/

/-- The scope means nothing by the name: no binding of that name is visible, and no finished
expression has it. -/
def Meaningless (scope : TemplateScope ε) (name : String) : Prop :=
  scope.findBinding? name = none ∧ scope.expression? name = none

/-- No expression is being defined, and nothing is declared. The names `left` are still to be
mentioned, and once they are, the identifier table is `table`. -/
structure Mentions (table left : List IdentKey) (scope : TemplateScope ε) (tables : Tables ε) :
    Prop where
  meaningless : ∀ name, .property name ∈ left → Meaningless scope name
  defining : tables.defining = none
  locals : tables.locals = []
  mentions : left.foldl mention tables.identifiers = table

/-- An operand is expected inside the frames, before the names `left`. -/
structure Waits (table left : List IdentKey) (below : Below) (frames : List Frame) (b : Bench ε) :
    Prop where
  mentions : Mentions table left b.scope b.tables
  stacked : Stacked table below frames b.operators.toList b.operands.toList

/-- The operand `x` has been read inside the frames. -/
def Reads (table left : List IdentKey) (below : Below) (frames : List Frame) (x : Tree)
    (b : Bench ε) : Prop :=
  ∃ o os, b.operands = ⟨o :: os⟩ ∧ Holds table x o ∧
    Waits table left below frames { b with operands := ⟨os⟩ }

/-- Nothing is applied if the operator on top stays. -/
theorem ends_applyWhile_stay {q : Pending → Bool} {ps : List Pending}
    (h : ∀ p ∈ ps.head?, q p = false) {Q : Unit → Bench ε → Prop}
    {E : ParseError → Bench ε → Prop} : Ends (applyWhile q ps) b Q E ↔ Q () b := by
  cases ps with
  | nil => rfl
  | cons p ps =>
    have hp : q p = false := h p rfl
    simp [applyWhile, hp]

/-- The operator on top is applied before those below it. -/
theorem ends_applyWhile_top {q : Pending → Bool} {p : Pending} (hq : q p) (ps : List Pending)
    {Q : Unit → Bench ε → Prop} {E : ParseError → Bench ε → Prop} :
    Ends (applyWhile q (p :: ps)) b Q E ↔
      Ends (apply p) { b with operators := ⟨ps⟩ }
        (fun _ b' => Ends (applyWhile q ps) b' Q E) E := by
  rw [applyWhile, if_pos hq, ends_bind, ends_modify, ends_bind]

/-- Applying the operator on top leaves its frame, and the others are applied after it. -/
theorem Reads.applyTop {f : Frame} {q : Pending → Bool} {p : Pending} {ps : List Pending}
    (h : Reads table left below (f :: frames) x b) (hb : b.operators = ⟨p :: ps⟩) (hq : q p)
    {Q : Unit → Bench ε → Prop} {E : ParseError → Bench ε → Prop}
    (hnext : ∀ b', Reads table left below frames (f.plug x) b' → b'.operators = ⟨ps⟩ →
      Ends (Parse.applyWhile q ps) b' Q E)
    (hrefuse : ∀ e b', Refusal e → (f.plug x).type? = none → E e b') :
    Ends (Parse.applyWhile q (p :: ps)) b Q E := by
  obtain ⟨o, os, hops, hx, hw⟩ := h
  have hstack : Stacked table below (f :: frames) (p :: ps) os := by
    simpa only [hb] using hw.stacked
  rw [ends_applyWhile_top hq]
  refine (hstack.apply hx (b := { b with operators := ⟨ps⟩ }) hops rfl).mono ?_ ?_
  · rintro _ b' ⟨o', os', hx', hstack', rfl⟩
    exact hnext _ ⟨o', os', rfl, hx', hw.mentions, hstack'⟩ rfl
  · rintro e b' ⟨hr, hnone⟩
    exact hrefuse e b' hr hnone

/-- Leaving a frame does not change what is made of the chain. -/
theorem Reads.applyWhile {q : Pending → Bool} (tail : Tail)
    (hleave : ∀ f p, p.op = Frame.row f → q p → ∀ frames x,
      resume (f :: frames) x tail = resume frames (f.plug x) tail)
    (hbelow : ∀ p ∈ below.operators.head?, q p = false)
    {ps : List Pending} (h : Reads table left below frames x b) (hb : b.operators = ⟨ps⟩) :
    Ends (applyWhile q ps) b
      (fun _ b' => ∃ frames' x', Reads table left below frames' x' b' ∧ frames' <:+ frames ∧
        resume frames x tail = resume frames' x' tail ∧
        ∀ f ∈ frames'.head?, ∃ p, p.op = Frame.row f ∧ q p = false)
      (fun e _ => Refusal e ∧ (resume frames x tail).type? = none) := by
  -- The waiting operators are applied from the top on, and with each of them a frame is left.
  induction frames generalizing ps x b with
  | nil =>
    have hread := h
    obtain ⟨o, os, hops, hx, hw⟩ := h
    have hstack : Stacked table below [] ps os := by simpa only [hb] using hw.stacked
    obtain ⟨rfl, rfl⟩ := hstack.eq_below
    rw [ends_applyWhile_stay hbelow]
    exact ⟨[], x, hread, List.suffix_rfl, rfl, by simp⟩
  | cons f frames ih =>
    have hread := h
    obtain ⟨o, os, hops, hx, hw⟩ := h
    have hstack : Stacked table below (f :: frames) ps os := by simpa only [hb] using hw.stacked
    obtain ⟨p, ps', rfl, hp⟩ := hstack.top
    cases hq : q p with
    | false =>
      rw [ends_applyWhile_stay (by simpa using hq)]
      refine ⟨f :: frames, x, hread, List.suffix_rfl, rfl, ?_⟩
      intro g hg
      cases hg
      exact ⟨p, hp, hq⟩
    | true =>
      rw [hleave f p hp hq]
      refine hread.applyTop hb hq ?_ fun e _ hr hnone => ⟨hr, type?_resume hnone _ _⟩
      intro b' hread' hb'
      refine (ih hread' hb').mono ?_ fun _ _ he => he
      rintro _ b'' ⟨frames', x', hread'', hsuffix, hrest⟩
      exact ⟨frames', x', hread'', hsuffix.trans (List.suffix_cons f frames), hrest⟩

/-- Before an operator the frames are left that it stands behind. -/
theorem Reads.reduceFor (h : Reads table left below frames x b) (op : BinaryOp) (term : Term)
    (tail : Tail) :
    Ends (reduceFor op.entry) b
      (fun _ b' => ∃ frames' x', Reads table left below frames' x' b' ∧ frames' <:+ frames ∧
        resume frames x ((op, term) :: tail) =
          resume (framesOf term.prefixes ++ .binary op x' :: frames') (.atom term.atom) tail)
      (fun e _ => Refusal e ∧ (resume frames x ((op, term) :: tail)).type? = none) := by
  refine (h.applyWhile ((op, term) :: tail) ?_ ?_ rfl).mono ?_ fun _ _ he => he
  · intro f p hp hq frames x
    rw [hp] at hq
    exact resume_leave ((f.yieldsTo_entry op).mp hq) frames x term tail
  · intro p hp
    have htight := op.tighter_question
    exact below.not_yieldsTo hp (Nat.le_of_lt htight) fun heq => by omega
  · rintro _ b' ⟨frames', x', h', hsuffix, heq, hlimit⟩
    refine ⟨frames', x', h', hsuffix, heq.trans (resume_enter ?_ x' term tail)⟩
    intro f hf
    obtain ⟨p, hp, hq⟩ := hlimit f hf
    rw [hp] at hq
    by_contra hnot
    simp [(f.yieldsTo_entry op).mpr hnot] at hq

/-- At the end of the text the operand is the tree of the chain. -/
theorem Reads.finish (h : Reads table [] .empty frames x b) (span : Span) :
    Ends (finish span) b
      (fun o b' => Holds table (resume frames x []) o ∧ b'.tables.identifiers = table)
      (fun e _ => Refusal e ∧ (resume frames x []).type? = none) := by
  unfold Parse.finish
  rw [ends_bind]
  refine (h.applyWhile [] (fun f _ _ _ frames x => resume_nil f frames x) (by simp [Below.empty])
    rfl).mono ?_ fun _ _ he => he
  rintro _ b' ⟨frames', x', ⟨o, os, hops, hx, hw⟩, -, heq, hlast⟩
  -- At the end every waiting operator is applied.
  have hframes : frames' = [] := by
    cases frames' with
    | nil => rfl
    | cons f frames' =>
      obtain ⟨p, -, hq⟩ := hlast f rfl
      cases hq
  subst hframes
  have htree : resume frames x [] = x' := by
    rw [heq]
    simp [resume, extend]
  have hos : os = [] := by
    have hstack := hw.stacked
    generalize b'.operators.toList = ps at hstack
    cases hstack
    rfl
  subst hos
  rw [ends_bind, ends_get]
  simp only [hops, hx.not_isPair, Bool.false_eq_true, if_false]
  rw [htree]
  exact ⟨hx, hw.mentions.mentions⟩

/-! ## Tokens -/

section Tokens

variable {nested : List Char → Nat → Parse ε Operand} (span : Span)

theorem Waits.pushOperator (h : Waits table left below frames b) (op : UnaryOp) :
    Ends (operand nested (.operator op.symbol) span) b
      (fun mode b' => mode = .operand ∧ Waits table left below (.unary op :: frames) b')
      (fun _ _ => False) := by
  have hcloser : Operator.closers.contains op.symbol = false := by cases op <;> rfl
  simp only [operand, hcloser, op.findPrefix?_entry, Bool.false_eq_true, if_false, ends_bind,
    ends_pushOperator, ends_pure]
  exact ⟨trivial, h.mentions, .unary rfl rfl h.stacked⟩

theorem ends_namedCall?_none {name : String} (h : b.scope.expression? name = none)
    (hdefining : b.tables.defining = none) (args : List Node)
    {Q : Option Node → Bench ε → Prop} {E : ParseError → Bench ε → Prop} :
    Ends (namedCall? name args) b Q E ↔ Q none b := by
  unfold TemplateScope.expression? at h
  simp only [namedCall?, ends_bind, ends_get]
  split
  case isTrue => rfl
  case isFalse =>
    cases hnamed : b.scope.named? name with
    | none => rfl
    | some entry =>
      cases entry with
      | pending => simp [hdefining]
      | defined e => simp [hnamed] at h

/-- A name without a meaning in the scope is a property of the section frames. -/
theorem Mentions.resolveName {n : Name} (h : Mentions table (n.key :: left) b.scope b.tables) :
    Ends (resolveName (String.ofList n.lexeme) .unstated span) b
      (fun o b' => Holds table (.atom (.name n)) o ∧ Mentions table left b'.scope b'.tables ∧
        b'.operands = b.operands ∧ b'.operators = b.operators)
      (fun _ _ => False) := by
  have hlocal : b.tables.local? (String.ofList n.lexeme) = none := by
    simp [Tables.local?, h.locals]
  obtain ⟨hbinding, hexpression⟩ := h.meaningless (String.ofList n.lexeme) (List.mem_cons_self ..)
  have hkey : table.idxOf n.key = (mention b.tables.identifiers n.key).idxOf n.key := by
    refine idxOf_of_prefix ?_ (mem_mention _ _)
    rw [← h.mentions]
    exact prefix_mentions left _
  have hleft (name : String) (hname : .property name ∈ left) : Meaningless b.scope name :=
    h.meaningless name (List.mem_cons_of_mem _ hname)
  unfold Parse.resolveName
  simp only [ne_eq, not_true_eq_false, if_false, ends_bind, ends_get, hlocal, hbinding,
    ends_namedCall?_none hexpression h.defining, Parse.identifier, ends_withTables, identifier_eq,
    ends_pure]
  refine ⟨⟨?_, rfl⟩, ⟨hleft, h.defining, h.locals, h.mentions⟩, trivial, trivial⟩
  rw [Tree.node, hkey]
  rfl

/-- An operand of the chain is read. -/
theorem Waits.pushOperand {a : Atom} (h : Waits table (a.keys ++ left) below frames b) :
    Ends (operand nested a.token span) b
      (fun mode b' => mode = .operator ∧ Reads table left below frames (.atom a) b')
      (fun _ _ => False) := by
  cases a with
  | numeral n =>
    exact ⟨rfl, _, _, rfl, ⟨rfl, rfl⟩, h.mentions, h.stacked⟩
  | name n =>
    simp only [operand, Atom.token, ident, Bool.false_eq_true, if_false, ends_bind,
      ends_pushOperand, ends_pure]
    refine (h.mentions.resolveName span).mono ?_ fun _ _ he => he
    rintro o b' ⟨hx, hmentions, hoperands, hoperators⟩
    refine ⟨trivial, o, b'.operands.toList, rfl, hx, hmentions, ?_⟩
    simp only [hoperands, hoperators]
    exact h.stacked

/-- An operator between two operands waits for the second one in a new frame. -/
theorem Reads.operator (h : Reads table left below frames x b) (op : BinaryOp) (term : Term)
    (tail : Tail) (base : Nat) (at_ : Cursor) :
    Ends (operator op.symbol span base at_) b
      (fun r b' => r = (.operand, at_) ∧ ∃ frames' x', frames' <:+ frames ∧
        Waits table left below (.binary op x' :: frames') b' ∧
        resume frames x ((op, term) :: tail) =
          resume (framesOf term.prefixes ++ .binary op x' :: frames') (.atom term.atom) tail)
      (fun e _ => Refusal e ∧ (resume frames x ((op, term) :: tail)).type? = none) := by
  have hcloser : Operator.closers.contains op.symbol = false := by cases op <;> rfl
  simp only [Parse.operator, hcloser, op.findInfix?_entry, op.kind_entry, Bool.false_eq_true,
    if_false, ends_bind, ends_pushOperator, ends_pure]
  refine (h.reduceFor op term tail).mono ?_ fun _ _ he => he
  rintro _ b' ⟨frames', x', ⟨o, os, hops, hx, hw⟩, hsuffix, heq⟩
  refine ⟨trivial, frames', x', hsuffix, ⟨hw.mentions, ?_⟩, heq⟩
  simp only [hops]
  exact .binary rfl rfl hx hw.stacked

end Tokens

/-! ## Runs -/

/-- The run ends with the fragment of the tree, or it fails where an operator refuses an operand. -/
def Climbs (table : List IdentKey) (tree : Tree) (run : Parse ε Operand) (b : Bench ε) : Prop :=
  Ends run b (fun o b' => Holds table tree o ∧ b'.tables.identifiers = table)
    (fun e _ => Refusal e ∧ tree.type? = none)

/-- An operand with the operators in front of it is read, if the run goes on as it should. -/
theorem climbs_term {tail : Tail}
    (htail : ∀ {fuel base : Nat} {at_ : Cursor} {frames : List Frame} {x : Tree} {b : Bench ε},
      at_.rest = tailChars tail → at_.rest.length < fuel →
      Reads table (Tail.keys tail) .empty frames x b →
      Climbs table (resume frames x tail) (rounds fuel .operator base at_) b)
    {fuel : Nat} (base : Nat) {at_ : Cursor} {gap : List Char} {prefixes : List UnaryOp}
    {atom : Atom} (hat : at_.rest = gap ++ (termChars prefixes atom ++ tailChars tail))
    (hgap : ∀ c ∈ gap, Text.isSeparator c) (hfuel : at_.rest.length < fuel)
    (h : Waits table (atom.keys ++ Tail.keys tail) .empty frames b) :
    Climbs table (resume (framesOf prefixes ++ frames) (.atom atom) tail)
      (rounds fuel .operand base at_) b := by
  -- Each operator in front takes one round and leaves a frame, the innermost one last.
  induction prefixes generalizing fuel at_ gap frames b with
  | nil =>
    obtain ⟨span, at', hnext, hrest⟩ := next_atom atom hat hgap (breaks_tailChars tail)
    have hlen := Token.length_next hnext (by cases atom <;> simp [Atom.token])
    cases fuel with
    | zero => omega
    | succ fuel =>
      unfold Climbs rounds
      rw [ends_bind, ends_readToken, hnext]
      simp only
      rw [ends_bind]
      refine (h.pushOperand _).mono ?_ fun _ _ he => he.elim
      rintro mode b' ⟨rfl, h'⟩
      exact htail hrest (by omega) h'
  | cons op prefixes ih =>
    rw [termChars, List.append_assoc, List.cons_append] at hat
    obtain ⟨span, at', hnext, hrest⟩ := next_unary op hat hgap
    have hlen := Token.length_next hnext (by simp)
    cases fuel with
    | zero => omega
    | succ fuel =>
      unfold Climbs rounds
      rw [ends_bind, ends_readToken, hnext]
      simp only
      rw [ends_bind]
      refine (h.pushOperator _ op).mono ?_ fun _ _ he => he.elim
      rintro mode b' ⟨rfl, h'⟩
      have hlen' : at'.rest.length < fuel := by omega
      have hat' : at'.rest = [' '] ++ (termChars prefixes atom ++ tailChars tail) := hrest
      have hframes : framesOf (op :: prefixes) ++ frames =
          framesOf prefixes ++ .unary op :: frames := by simp [framesOf]
      rw [hframes]
      exact ih hat' (by simp; rfl) hlen' h'

/-- After an operand the run goes on as the climb does. -/
theorem climbs_tail (tail : Tail) {fuel base : Nat} {at_ : Cursor} {frames : List Frame} {x : Tree}
    {b : Bench ε} (hat : at_.rest = tailChars tail) (hfuel : at_.rest.length < fuel)
    (h : Reads table (Tail.keys tail) .empty frames x b) :
    Climbs table (resume frames x tail) (rounds fuel .operator base at_) b := by
  -- One operator and its term at a time: the rest of the chain is read after that term.
  induction tail generalizing fuel base at_ frames x b with
  | nil =>
    obtain ⟨span, at', hnext⟩ := next_end hat
    cases fuel with
    | zero => omega
    | succ fuel =>
      unfold Climbs rounds
      rw [ends_bind, ends_readToken, hnext]
      exact h.finish _
  | cons next tail ih =>
    obtain ⟨op, term⟩ := next
    rw [tailChars, ← List.singleton_append] at hat
    obtain ⟨span, at', hnext, hrest⟩ := next_binary op hat (by simp; rfl)
    have hlen := Token.length_next hnext (by simp)
    cases fuel with
    | zero => omega
    | succ fuel =>
      unfold Climbs rounds
      rw [ends_bind, ends_readToken, hnext]
      simp only
      rw [ends_bind]
      refine (h.operator _ op term tail base at').mono ?_ fun _ _ he => he
      rintro r b' ⟨rfl, frames', x', -, h', heq⟩
      have hlen' : at'.rest.length < fuel := by omega
      have hat' : at'.rest = [' '] ++ (termChars term.prefixes term.atom ++ tailChars tail) :=
        hrest
      rw [heq]
      exact climbs_term ih base hat' (by simp; rfl) hlen' h'

/-! ## Whole chains -/

/-- The parse of a chain begins at the beginning of its text. -/
theorem firstRound?_text (c : Chain) (offset : Nat) (extensions : Extensions) :
    firstRound? c.text offset (.fresh (ε := ε) extensions) =
      some (.start (.fresh extensions) {} offset (Cursor.start c.text.toList)) := by
  have hdef : definitionOf? (TemplateScope.fresh (ε := ε) extensions).extensions c.text = none := by
    rw [definitionOf?, definition?_text]
    split <;> rfl
  rw [firstRound?, hdef]

/-- The run on the text of a chain ends with the tree of the chain. -/
theorem climbs_text (c : Chain) (offset : Nat) (extensions : Extensions) :
    Climbs c.table c.tree
      (rounds (c.text.toList.length + 1) .operand offset (Cursor.start c.text.toList))
      { scope := .fresh (ε := ε) extensions, tables := {} } := by
  have hat : (Cursor.start c.text.toList).rest =
      [] ++ (termChars c.head.prefixes c.head.atom ++ tailChars c.tail) := toList_text c
  have hwaits : Waits (ε := ε) c.table (c.head.atom.keys ++ Tail.keys c.tail) .empty []
      { scope := .fresh extensions, tables := {} } :=
    ⟨⟨fun _ _ => ⟨rfl, rfl⟩, rfl, rfl, rfl⟩, .nil⟩
  have hrun := climbs_term (climbs_tail c.tail) offset hat (by simp) (Nat.lt_succ_self _) hwaits
  rw [List.append_nil, ← c.tree_eq] at hrun
  exact hrun

/-- The parse of a chain in a fresh scope is the tree that precedence climbing over the operator
table finds, with its names in order of first mention. It fails just if an operator of that tree
refuses an operand for its static type. -/
theorem parse_climbs (c : Chain) (offset : Nat) (extensions : Extensions) :
    match c.tree.type? with
    | some type => ∃ p : Parsed ε, (parse c.text offset (.fresh extensions)).1 = .ok p ∧
        p.node = c.tree.node c.table ∧ p.identifiers = c.table ∧ p.type = type
    | none => ∃ e, (parse (ε := ε) c.text offset (.fresh extensions)).1 = .error e ∧ Refusal e := by
  have hparse := parse_run (ε := ε) c.text offset (.fresh extensions)
  have hclimbs := climbs_text (ε := ε) c offset extensions
  rw [firstRound?_text] at hparse
  cases hrun : (Round.start (.fresh (ε := ε) extensions) {} offset
      (Cursor.start c.text.toList)).run with
  | ok o b =>
    obtain ⟨hx, htable⟩ := hclimbs.ok hrun
    simp only [hrun] at hparse
    obtain ⟨p, heq, hp⟩ := hparse
    rw [hx.type]
    exact ⟨p, by rw [heq], hp.node.trans hx.node, hp.identifiers.trans htable, hp.type⟩
  | error e b =>
    obtain ⟨hrefusal, hnone⟩ := hclimbs.error hrun
    simp only [hrun] at hparse
    rw [hnone]
    exact ⟨e, hparse, hrefusal⟩

end TagExpr.Climbing
