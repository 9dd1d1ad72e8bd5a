import TagExpr.Proofs.Parse.Ends
import TagExpr.Proofs.Parse.Layout

/-!
# Applying operators

Applying the operator on top takes its operands from the stack and leaves one fragment, which is
`Built` of them; the words read so far stay as they are. If it fails, an operand is an entry of a
map literal, an operand has a wrong static type, a question mark has no colon, or the operator is a
container that is still open. It never runs out of operands.
-/

namespace TagExpr.Parse

variable {ε : Type} {N : Names} {b : Bench ε} {E : ParseError → Bench ε → Prop}

/-! ## Popping operands -/

/-- Above the floor of the innermost container there is always an operand to pop. -/
theorem ends_popValue {o : Operand} {rest : List Operand} (hb : b.operands = ⟨o :: rest⟩)
    (hf : floorOf b.operators.toList ≤ rest.length) (span : Span)
    {Q : Operand → Bench ε → Prop} :
    Ends (popValue span) b Q E ↔
      if o.isPair then E ⟨.pairOutsideContainer, o.span⟩ { b with operands := ⟨rest⟩ }
      else Q o { b with operands := ⟨rest⟩ } := by
  have hfloor : ¬ b.operands.size ≤ ((openContainer? b).map (·.base)).getD 0 := by
    simp only [floorOf] at hf
    simp only [hb, Stack.size, openContainer?, List.length_cons]
    omega
  have hpop : b.operands.pop? = some (o, ⟨rest⟩) := by simp [hb, Stack.pop?]
  simp only [popValue, ends_bind, ends_get, if_neg hfloor, hpop, ends_set]
  split <;> rfl

theorem ends_popValue_operators (span : Span) :
    Ends (popValue span) b (fun _ b' => b'.operators = b.operators) (fun _ _ => True) := by
  unfold popValue
  simp only [ends_bind, ends_get]
  split
  · trivial
  · split
    · trivial
    · rw [ends_bind, ends_set]
      split
      · trivial
      · rfl

/-! ## Static types -/

theorem ends_reject (symbol : String) (o : Operand) (types : List OperandType)
    {Q : Unit → Bench ε → Prop} :
    Ends (reject symbol o types) b Q E ↔
      if types.contains o.type then E ⟨.invalidOperand symbol o.type, o.span⟩ b else Q () b := by
  unfold reject
  split <;> rfl

theorem ends_rejectBoth {symbol : String} {left right : Operand} {types : List OperandType}
    {type : OperandType} {Q : OperandType → Bench ε → Prop}
    (hok : (!types.contains left.type && !types.contains right.type) → Q type b)
    (herr : (!types.contains left.type && !types.contains right.type) = false →
      ∀ o, o = left ∨ o = right → E ⟨.invalidOperand symbol o.type, o.span⟩ b) :
    Ends (do
      reject symbol left types
      reject symbol right types
      return type) b Q E := by
  simp only [ends_bind, ends_reject, ends_pure]
  cases hl : types.contains left.type with
  | true => exact herr (by rw [hl]; rfl) left (.inl rfl)
  | false =>
    cases hr : types.contains right.type with
    | true => exact herr (by rw [hl, hr]; rfl) right (.inr rfl)
    | false => exact hok (by rw [hl, hr]; rfl)

/-- The type of a binary operator's value is settled if the operator accepts both operands. -/
theorem ends_binaryType {op : BinaryOp} {left right : Operand}
    {Q : OperandType → Bench ε → Prop}
    (hok : op.accepts left.type right.type → Q (op.resultType left.type right.type) b)
    (herr : op.accepts left.type right.type = false → ∀ o, o = left ∨ o = right →
      E ⟨.invalidOperand op.symbol o.type, o.span⟩ b) :
    Ends (binaryType op left right) b Q E := by
  cases op with
  | add =>
    by_cases hs : left.type = .string ∨ right.type = .string
    · have ha : BinaryOp.add.accepts left.type right.type := by
        rcases hs with hs | hs <;> simp [BinaryOp.accepts, hs]
      simpa [binaryType, hs, BinaryOp.resultType] using hok ha
    · have ha : BinaryOp.add.accepts left.type right.type =
          (!([OperandType.boolean].contains left.type) &&
            !([OperandType.boolean].contains right.type)) := by
        simp_all [BinaryOp.accepts]
      rw [ha] at hok herr
      simp only [BinaryOp.resultType, if_neg hs] at hok
      simpa [binaryType, hs] using ends_rejectBoth hok herr
  | sub | mul | div | mod | pow | shiftLeft | shiftRight | shiftRightUnsigned | bitAnd | bitXor
  | bitOr => simpa [binaryType, BinaryOp.resultType] using ends_rejectBoth hok herr
  | _ => exact hok rfl

/-! ## One operator -/

/-- Why an operator refuses its operands. -/
inductive Refused (p : Pending) : List Operand → ParseError → Prop
  | pair {args : List Operand} {o : Operand} : o ∈ args → o.isPair →
      Refused p args ⟨.pairOutsideContainer, o.span⟩
  | unary {op : UnaryOp} {x : Operand} : p.op.kind = .unary op → op.accepts x.type = false →
      Refused p [x] ⟨.invalidOperand op.symbol x.type, x.span⟩
  | binary {op : BinaryOp} {left right o : Operand} : p.op.kind = .binary op →
      op.accepts left.type right.type = false → o = left ∨ o = right →
      Refused p [left, right] ⟨.invalidOperand op.symbol o.type, o.span⟩

/-- A streaming operator ends the scope of its clause. -/
def Pending.leave (p : Pending) (tables : Tables ε) : Tables ε :=
  match p.extra with
  | .stream _ mark => tables.endScope mark
  | _ => tables

/-- What an operator on top of the stack does with its operands. -/
def Applies (N : Names) (p : Pending) (args rest : List Operand) (b b' : Bench ε) : Prop :=
  (∀ arg ∈ args, ¬ arg.isPair) ∧ ∃ o, Built N p args o ∧
    b' = { b with operands := ⟨o :: rest⟩, tables := p.leave b.tables }

section Apply

variable {p : Pending} {rest : List Operand} (hf : floorOf b.operators.toList ≤ rest.length)

include hf

theorem ends_popOne {x : Operand} {f : Operand → Parse ε Unit} {Q : Unit → Bench ε → Prop}
    (hb : b.operands = ⟨x :: rest⟩) {span : Span}
    (hpair : x.isPair → ∀ b', E ⟨.pairOutsideContainer, x.span⟩ b')
    (hnext : ¬ x.isPair → Ends (f x) { b with operands := ⟨rest⟩ } Q E) :
    Ends (popValue span >>= f) b Q E := by
  rw [ends_bind, ends_popValue hb hf]
  split
  · exact hpair ‹_› _
  · exact hnext ‹_›

theorem ends_popTwo {left right : Operand} {f : Operand → Operand → Parse ε Unit}
    {Q : Unit → Bench ε → Prop} (hb : b.operands = ⟨right :: left :: rest⟩) {span : Span}
    (hpair : ∀ o, o = left ∨ o = right → o.isPair → ∀ b', E ⟨.pairOutsideContainer, o.span⟩ b')
    (hnext : ¬ left.isPair → ¬ right.isPair →
      Ends (f right left) { b with operands := ⟨rest⟩ } Q E) :
    Ends (popValue span >>= fun right => popValue span >>= f right) b Q E := by
  refine ends_popOne (by simp only [List.length_cons]; omega) hb (hpair right (.inr rfl)) ?_
  intro hright
  exact ends_popOne (b := { b with operands := ⟨left :: rest⟩ }) hf rfl (hpair left (.inl rfl))
    fun hleft => hnext hleft hright

theorem ends_applyUnary {op : UnaryOp} {x : Operand} (hk : p.op.kind = .unary op)
    (he : p.extra = .plain) (hb : b.operands = ⟨[x].reverse ++ rest⟩) :
    Ends (applyUnary op p.span) b (fun _ b' => Applies N p [x] rest b b')
      (fun e _ => Refused p [x] e) := by
  have hleave : p.leave b.tables = b.tables := by simp [Pending.leave, he]
  refine ends_popOne hf hb (fun hp _ => .pair (by simp) hp) fun hp => ?_
  have applies {o : Operand} (h : Built N p [x] o) :
      Applies N p [x] rest b { b with operands := ⟨o :: rest⟩ } :=
    ⟨by simpa using hp, o, h, by rw [hleave]⟩
  cases op with
  | not => exact applies (.unary hk rfl rfl)
  | die => exact applies (.unary hk rfl rfl)
  | bitNot =>
    rw [ends_bind, ends_reject]
    split
    case isTrue hr => exact .unary hk (by simp only [UnaryOp.accepts, hr]; rfl)
    case isFalse hr => exact applies (.unary hk (by simpa [UnaryOp.accepts] using hr) rfl)
  | negate | plus =>
    rw [ends_bind, ends_reject]
    split
    case isTrue hr =>
      have hboolean : x.type = .boolean := by simpa using hr
      exact .unary hk (by simp [UnaryOp.accepts, hboolean])
    case isFalse hr =>
      have ha : x.type ≠ .boolean := by simpa using hr
      split
      case h_1 folded hfold => exact applies (.sign hk (by simp [UnaryOp.accepts, ha]) hfold)
      case h_2 hfold => exact applies (.unary hk (by simp [UnaryOp.accepts, ha]) hfold)

theorem ends_applyBinary {op : BinaryOp} {left right : Operand} (hk : p.op.kind = .binary op)
    (he : p.extra = .plain) (hb : b.operands = ⟨[left, right].reverse ++ rest⟩) :
    Ends (applyBinary op p.span) b (fun _ b' => Applies N p [left, right] rest b b')
      (fun e _ => Refused p [left, right] e) := by
  have hleave : p.leave b.tables = b.tables := by simp [Pending.leave, he]
  refine ends_popTwo hf hb (fun o ho hp _ => .pair (by simpa using ho) hp) fun hl hr => ?_
  rw [ends_bind]
  refine ends_binaryType (fun ha => ?_) fun ha o ho => .binary hk ha ho
  exact ⟨by simp [hl, hr], _, .binary hk ha, by rw [hleave]; rfl⟩

theorem ends_applyTernary {condition yes no : Operand} (hk : p.op.kind = .ternary)
    (he : p.extra = .colonSeen) (hb : b.operands = ⟨[condition, yes, no].reverse ++ rest⟩) :
    Ends (applyTernary p.span p.extra) b (fun _ b' => Applies N p [condition, yes, no] rest b b')
      (fun e _ => Refused p [condition, yes, no] e) := by
  have hleave : p.leave b.tables = b.tables := by simp [Pending.leave, he]
  rw [applyTernary, if_neg (by simp [he])]
  have hf' : floorOf b.operators.toList ≤ (yes :: condition :: rest).length := by
    simp only [List.length_cons]
    omega
  refine ends_popOne hf' hb (fun hp _ => .pair (by simp) hp) fun hn => ?_
  refine ends_popTwo (b := { b with operands := ⟨yes :: condition :: rest⟩ }) hf rfl
    (fun o ho hp _ => .pair (by rcases ho with rfl | rfl <;> simp) hp) fun hc hy => ?_
  exact ⟨by simp [hc, hy, hn], _, .ternary hk he, by rw [hleave]; rfl⟩

theorem ends_applyColon {key value : Operand} (hk : p.op.kind = .colon) (he : p.extra = .plain)
    (hb : b.operands = ⟨[key, value].reverse ++ rest⟩) :
    Ends (applyColon p.span) b (fun _ b' => Applies N p [key, value] rest b b')
      (fun e _ => Refused p [key, value] e) := by
  have hleave : p.leave b.tables = b.tables := by simp [Pending.leave, he]
  refine ends_popTwo hf hb (fun o ho hp _ => .pair (by simpa using ho) hp) fun hl hr => ?_
  exact ⟨by simp [hl, hr], _, .pair hk, by rw [hleave]; rfl⟩

theorem ends_applyAssignment {target value : Operand} (ht : Target N target p.extra)
    (hb : b.operands = ⟨[target, value].reverse ++ rest⟩) :
    Ends (applyAssignment p) b (fun _ b' => Applies N p [target, value] rest b b')
      (fun e _ => Refused p [target, value] e) := by
  refine ends_popTwo hf hb (fun o ho hp _ => .pair (by simpa using ho) hp) fun hl hr => ?_
  cases he : p.extra with
  | assignLocal slot =>
    exact ⟨by simp [hl, hr], _, .assignLocal he ht, by simp [Pending.leave, he]; rfl⟩
  | assignBinding template slot =>
    exact ⟨by simp [hl, hr], _, .assignBinding he ht, by simp [Pending.leave, he]; rfl⟩
  | _ =>
    rw [he] at ht
    cases ht

theorem ends_applyStream {op : StreamOp} {binding : Option Nat} {mark : Nat}
    {source body : Operand} (hk : p.op.kind = .stream op) (he : p.extra = .stream binding mark)
    (hs : ∀ slot ∈ binding, slot < N.slots.length)
    (hb : b.operands = ⟨[source, body].reverse ++ rest⟩) :
    Ends (applyStream op p.span p.extra) b (fun _ b' => Applies N p [source, body] rest b b')
      (fun e _ => Refused p [source, body] e) := by
  rw [he]
  refine ends_popTwo hf hb (fun o ho hp _ => .pair (by simpa using ho) hp) fun hl hr => ?_
  refine ⟨by simp [hl, hr], _, .stream hk he hs, ?_⟩
  cases op <;> simp [Pending.leave, he, Stack.push, StreamOp.resultType]

theorem ends_applySequence {left right : Operand} (hk : p.op.kind = .sequence)
    (he : p.extra = .plain) (hb : b.operands = ⟨[left, right].reverse ++ rest⟩) :
    Ends (applySequence p.span) b (fun _ b' => Applies N p [left, right] rest b b')
      (fun e _ => Refused p [left, right] e) := by
  have hleave : p.leave b.tables = b.tables := by simp [Pending.leave, he]
  refine ends_popTwo hf hb (fun o ho hp _ => .pair (by simpa using ho) hp) fun hl hr => ?_
  exact ⟨by simp [hl, hr], _, .sequence hk, by rw [hleave]; rfl⟩

/-- An operator with its operands below it is applied to them, or refuses one of them. -/
theorem ends_apply {args : List Operand} (ht : Takes N p args)
    (hb : b.operands = ⟨args.reverse ++ rest⟩) :
    Ends (apply p) b (fun _ b' => Applies N p args rest b b') (fun e _ => Refused p args e) := by
  unfold apply
  cases ht with
  | unary hk he =>
    simp only [hk]
    exact ends_applyUnary hf hk he hb
  | ternary hk he =>
    simp only [hk]
    exact ends_applyTernary hf hk he hb
  | joining hj hfol =>
    generalize hk : p.op.kind = kind, he : p.extra = extra at hj hfol
    cases hfol with
    | binary op => exact ends_applyBinary hf hk he hb
    | colon => exact ends_applyColon hf hk he hb
    | sequence => exact ends_applySequence hf hk he hb
    | assign htarget => exact ends_applyAssignment hf (he ▸ htarget) hb
    | bind htarget => exact ends_applyAssignment hf (he ▸ htarget) hb
    | stream op mark hs => exact he ▸ ends_applyStream hf hk he hs hb
    | ternary | lookup | methodCall => cases hj

end Apply

/-! ## All operators down to a place -/

/-- The tables and the scope are described by `N`, and the stacks are laid out. -/
structure Stands (N : Names) (mode : LexMode) (b : Bench ε) (w : List Word) : Prop where
  describes : Describes N b.tables b.scope
  layout : Layout N mode b.operands.toList b.operators.toList w

/-- A fault that does not speak of missing operands. -/
def Regular (e : ParseError) : Prop :=
  e.fault ≠ .missingElement ∧ e.fault ≠ .trailingComma ∧ e.fault ≠ .unexpectedEnd

theorem Refused.regular {p : Pending} {args : List Operand} {e : ParseError}
    (h : Refused p args e) : Regular e := by
  cases h <;> simp [Regular]

theorem Describes.leave {tables : Tables ε} {scope : TemplateScope ε}
    (h : Describes N tables scope) (p : Pending) : Describes N (p.leave tables) scope := by
  unfold Pending.leave
  split
  · exact h.endScope _
  · exact h

/-- Of operands that are no entries of a map literal an operator makes one just if it gives the
fragment a second tree. -/
theorem Built.isSome_pairValue {p : Pending} {args : List Operand} {o : Operand}
    (h : Built N p args o) (ha : ∀ arg ∈ args, ¬ arg.isPair) :
    o.pairValue.isSome = o.isPair := by
  have plain {type : OperandType} (ht : type ≠ .pair) : false = (type == .pair) := by simp [ht]
  simp only [Operand.isPair, beq_iff_eq] at ha ⊢
  cases h with
  | @sign _ x => exact plain (ha x (by simp))
  | @unary op => exact plain op.resultType_ne_pair
  | @binary op left => exact plain (op.resultType_ne_pair (ha left (by simp)) _)
  | @ternary _ yes => exact plain (eitherType_ne_pair (ha yes (by simp)) _)
  | pair => rfl
  | @assignLocal _ _ value => exact plain (ha value (by simp))
  | @assignBinding _ _ _ value => exact plain (ha value (by simp))
  | @stream op _ _ _ body => exact plain (op.resultType_ne_pair (ha body (by simp)))
  | @sequence _ right => exact plain (ha right (by simp))

/-- Only a colon makes an entry of a map literal. -/
theorem Built.not_isPair {p : Pending} {args : List Operand} {o : Operand} (h : Built N p args o)
    (ha : ∀ arg ∈ args, ¬ arg.isPair) (hk : p.op.kind ≠ .colon) : ¬ o.isPair := by
  rw [← h.isSome_pairValue ha]
  cases h with
  | pair hk' => exact absurd hk' hk
  | _ => simp [Operand.literal]

variable {b' : Bench ε} {w : List Word}

/-- A fragment has a second tree just if it is an entry of a map literal. -/
theorem Derives.isSome_pairValue {os : List Operand} (h : Derives N os w) :
    ∀ o ∈ os, o.pairValue.isSome = o.isPair := by
  induction h with
  | nil => exact List.forall_mem_nil _
  | cons _ _ iho ihos => exact List.forall_mem_cons.2 ⟨iho _ List.mem_cons_self, ihos⟩
  | word hs =>
    refine List.forall_mem_singleton.2 ?_
    cases hs with
    | literal value => cases value <;> rfl
    | @internal _ internal => cases internal <;> rfl
    | _ => rfl
  | concat | member => exact List.forall_mem_singleton.2 rfl
  | built _ hp hb => exact List.forall_mem_singleton.2 (hb.isSome_pairValue hp)
  | closed _ _ _ hc =>
    refine List.forall_mem_singleton.2 ?_
    cases hc with
    | @group element _ _ hp => simpa [Operand.isPair] using hp
    | _ => rfl

theorem Derives.pairValue_eq_none {os : List Operand} (h : Derives N os w)
    (hp : ∀ o ∈ os, ¬ o.isPair) : ∀ o ∈ os, o.pairValue = none := by
  intro o ho
  have hsome := h.isSome_pairValue o ho
  rw [Bool.eq_false_iff.2 (hp o ho)] at hsome
  exact Option.isSome_eq_false_iff.1 hsome |> Option.isNone_iff_eq_none.1

/-- The operator on top of the stacks `os` and `p :: ps` can be applied: its operands `args` lie
above the operands `below`, and the pieces before it take the words `u`. -/
structure Applicable (N : Names) (p : Pending) (ps : List Pending) (os args below : List Operand)
    (u v : List Word) : Prop where
  operands : os = args.reverse ++ below
  below : Layout N .operand below ps u
  derives : Derives N args v
  takes : Takes N p args
  inCollection : p.op.kind = .colon → InCollection ps

/-- The operator on top is applied to its operands, if it is applied at all. -/
theorem Stands.ends_top (h : Stands N .operator b w) {p : Pending} {ps : List Pending}
    (hb : b.operators = ⟨p :: ps⟩) :
    Ends (apply p) { b with operators := ⟨ps⟩ }
      (fun _ b' => ¬ p.op.kind.isContainer ∧ ∃ args below u v,
        w = u ++ v ∧ Applicable N p ps b.operands.toList args below u v ∧
        Applies N p args below { b with operators := ⟨ps⟩ } b')
      (fun e _ => Regular e) := by
  have hl : Layout N .operator b.operands.toList (p :: ps) w := by simpa [hb] using h.layout
  by_cases hc : p.op.kind.isContainer
  · -- A container waits for its closer and is not applied.
    unfold Parse.apply
    cases hk : p.op.kind <;>
      simp_all [OpKind.isContainer, OpKind.closer?, Regular]
  by_cases ht : p.op.kind = .ternary → p.extra = .colonSeen
  · obtain ⟨args, below, u, v, heq, hw, hbelow, hd, htakes, hcolon⟩ := hl.takes hc ht
    have hf : floorOf ps ≤ below.length := by simpa using hbelow.floor_le
    have hops : b.operands = ⟨args.reverse ++ below⟩ := by rw [← heq]
    refine (ends_apply (b := { b with operators := ⟨ps⟩ }) hf htakes hops).mono ?_
      fun e _ he => he.regular
    exact fun _ b' happlies =>
      ⟨hc, args, below, u, v, hw, ⟨heq, hbelow, hd, htakes, hcolon⟩, happlies⟩
  · -- A question mark without its colon is refused before it looks at its operands.
    rw [Classical.not_imp] at ht
    simp [Parse.apply, ht.1, applyTernary, ht.2, Regular]

/-- Applying the operator on top leaves the stacks laid out. -/
theorem Stands.apply (h : Stands N .operator b w) {p : Pending} {ps : List Pending}
    (hb : b.operators = ⟨p :: ps⟩) :
    Ends (apply p) { b with operators := ⟨ps⟩ }
      (fun _ b' => Stands N .operator b' w ∧ b'.operators = ⟨ps⟩) (fun e _ => Regular e) := by
  refine (h.ends_top hb).mono ?_ fun _ _ he => he
  rintro _ b' ⟨-, args, below, u, v, rfl, ha, hargs, o, hbuilt, rfl⟩
  refine ⟨⟨h.describes.leave p, ?_⟩, rfl⟩
  -- Only a colon makes an entry, and a colon waits inside a collection only.
  refine .value ha.below (.built ha.derives hargs hbuilt) fun hpair => ?_
  by_cases hk : p.op.kind = .colon
  · exact ha.inCollection hk
  · exact absurd hpair (hbuilt.not_isPair hargs hk)

/-- What applying the operator on top keeps, applying several of them keeps. -/
theorem ends_applyWhile {I : Bench ε → Prop}
    (happly : ∀ b p ps, I b → b.operators = ⟨p :: ps⟩ →
      Ends (Parse.apply p) { b with operators := ⟨ps⟩ } (fun _ b' => I b' ∧ b'.operators = ⟨ps⟩) E)
    (q : Pending → Bool) {ps : List Pending} (h : I b) (hb : b.operators = ⟨ps⟩) :
    Ends (applyWhile q ps) b (fun _ b' => I b' ∧ b'.operators = ⟨ps.dropWhile q⟩) E := by
  induction ps generalizing b with
  | nil => exact ⟨h, hb⟩
  | cons p ps ih =>
    unfold applyWhile
    split
    case isFalse hq => exact ⟨h, by simp [hb, hq]⟩
    case isTrue hq =>
      simp only [ends_bind, ends_modify, List.dropWhile_cons_of_pos hq]
      exact (happly b p ps h hb).mono (fun _ _ hs => ih hs.1 hs.2) fun _ _ he => he

/-- Operators are applied from the top as long as `q` holds of them. -/
theorem Stands.reduceWhile (h : Stands N .operator b w) (q : Pending → Bool) :
    Ends (reduceWhile q) b
      (fun _ b' => Stands N .operator b' w ∧ b'.operators = ⟨b.operators.toList.dropWhile q⟩)
      (fun e _ => Regular e) :=
  ends_applyWhile (fun _ _ _ hs hb => hs.apply hb) q h rfl

theorem Takes.not_isOpenTernary {p : Pending} {args : List Operand} (h : Takes N p args) :
    isOpenTernary p = false := by
  cases h with
  | unary hk => simp [isOpenTernary, hk]
  | ternary _ hextra => simp [isOpenTernary, hextra]
  | joining hk =>
    have hne : p.op.kind ≠ .ternary := fun hternary => by simp [hternary, isJoining] at hk
    simp [isOpenTernary, hne]

/-- Operators are applied, but no container is closed and no question mark without its colon is
applied: what depends on these alone stays as it is. -/
theorem Stands.reduceWhile_keeps {α : Type} {f : List Pending → α}
    (hf : ∀ p ps, p.op.kind.isContainer = false → isOpenTernary p = false → f (p :: ps) = f ps)
    (h : Stands N .operator b w) (q : Pending → Bool) :
    Ends (Parse.reduceWhile q) b
      (fun _ b' => f b'.operators.toList = f b.operators.toList) (fun e _ => Regular e) := by
  have apply (b₁ : Bench ε) (p : Pending) (ps : List Pending)
      (hI : Stands N .operator b₁ w ∧ f b₁.operators.toList = f b.operators.toList)
      (hps : b₁.operators = ⟨p :: ps⟩) :
      Ends (Parse.apply p) { b₁ with operators := ⟨ps⟩ }
        (fun _ b' => (Stands N .operator b' w ∧ f b'.operators.toList = f b.operators.toList) ∧
          b'.operators = ⟨ps⟩) (fun e _ => Regular e) := by
    obtain ⟨hs, hb⟩ := hI
    refine ((hs.apply hps).and (hs.ends_top hps)).mono ?_ fun _ _ he => he.1
    rintro _ b' ⟨⟨hs', hops⟩, hcontainer, _, _, _, _, _, happlicable, _⟩
    refine ⟨⟨hs', ?_⟩, hops⟩
    rw [← hb, hps, hops, hf p ps (by simpa using hcontainer) happlicable.takes.not_isOpenTernary]
  exact (ends_applyWhile apply q ⟨h, rfl⟩ rfl).mono (fun _ _ hI => hI.1.2) fun _ _ he => he

end TagExpr.Parse
