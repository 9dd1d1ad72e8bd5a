import Mathlib.Data.List.Infix
import TagExpr.Parse.Parser
import TagExpr.Proofs.Parse.Bindings
import TagExpr.Proofs.Parse.Ends
import TagExpr.Proofs.Token.Progress

/-!
# What a run does to the scope

All that a run of the parser does to the scope of its file is to declare bindings, and it declares
none unless `:=` stands in the text. This holds of runs that fail as well. That a name is defined
already is no error of a run: it is found before the run begins.
-/

namespace TagExpr

variable {ε : Type}

/-- The error is not that a name is defined already. -/
def ParseError.Fresh (e : ParseError) : Prop := ∀ name, e.fault ≠ .duplicateDefinition name

theorem ParseError.fresh_of_fault {fault : ParseFault} {span : Span}
    (h : ∀ name, fault ≠ .duplicateDefinition name) : (ParseError.mk fault span).Fresh := h

theorem ParseError.fresh_ofLex (e : LexError) (base : Nat) : (ParseError.ofLex e base).Fresh :=
  fresh_of_fault (by simp)

namespace Parse

variable {α β : Type} {may may' : Prop}

/-- However the step ends, nothing has happened to the scope but that bindings were declared, which
they are only if the step `may` declare any. -/
def Keeps (may : Prop) (step : Parse ε α) : Prop :=
  ∀ b, Ends step b (fun _ b' => b.scope.Binds may b'.scope)
    fun e b' => b.scope.Binds may b'.scope ∧ e.Fresh

theorem Keeps.mono {step : Parse ε α} (h : Keeps may step) (himp : may → may') : Keeps may' step :=
  fun b => (h b).mono (fun _ _ hb => hb.mono himp) fun _ _ he => ⟨he.1.mono himp, he.2⟩

/-! ## Steps in a row -/

theorem keeps_pure (a : α) : Keeps may (pure a : Parse ε α) := fun b => .refl b.scope

theorem keeps_throw {e : ParseError} (h : e.Fresh) : Keeps may (throw e : Parse ε α) :=
  fun b => ⟨.refl b.scope, h⟩

theorem keeps_fail (fault : ParseFault) (span : Span)
    (h : ∀ name, fault ≠ .duplicateDefinition name) :
    Keeps may (fail fault span : Parse ε α) :=
  keeps_throw h

theorem keeps_unexpected (found : String) (expected : Expectation) (span : Span) :
    Keeps may (unexpected found expected span : Parse ε α) :=
  keeps_fail _ _ (by simp)

theorem keeps_get : Keeps may (get : Parse ε (Bench ε)) := fun b => .refl b.scope

theorem Keeps.bind {step : Parse ε α} {next : α → Parse ε β} (h : Keeps may step)
    (hn : ∀ a, Keeps may (next a)) : Keeps may (step >>= next) := by
  intro b
  rw [ends_bind]
  refine (h b).mono ?_ fun _ _ he => he
  intro a b' hb
  exact (hn a b').mono (fun _ _ hb' => hb.trans hb') fun _ _ he => ⟨hb.trans he.1, he.2⟩

theorem keeps_modify {f : Bench ε → Bench ε} (h : ∀ b, (f b).scope = b.scope) :
    Keeps may (modify f : Parse ε PUnit) := by
  intro b
  rw [ends_modify, h b]
  exact .refl b.scope

/-! ## The steps of the parser -/

theorem keeps_withTables (f : Tables ε → α × Tables ε) : Keeps may (withTables f) :=
  fun b => .refl b.scope

theorem keeps_pushOperand (o : Operand) : Keeps may (pushOperand o : Parse ε Unit) :=
  keeps_modify fun _ => rfl

theorem keeps_pushOperator (op : Operator) (span : Span) (extra : Extra) :
    Keeps may (pushOperator op span extra : Parse ε Unit) :=
  keeps_modify fun _ => rfl

theorem keeps_popValue (span : Span) : Keeps may (popValue span : Parse ε Operand) := by
  intro b
  unfold popValue
  simp only [ends_bind, ends_get]
  split
  · exact ⟨.refl b.scope, ParseError.fresh_of_fault (by simp)⟩
  · split
    · exact ⟨.refl b.scope, ParseError.fresh_of_fault (by simp)⟩
    · simp only [ends_bind, ends_set]
      split
      · exact ⟨.refl b.scope, ParseError.fresh_of_fault (by simp)⟩
      · exact .refl b.scope

theorem keeps_namedCall? (name : String) (args : List Node) :
    Keeps may (namedCall? name args : Parse ε (Option Node)) := by
  refine keeps_get.bind fun b => ?_
  split
  · exact keeps_pure _
  · split
    · exact keeps_pure _
    · exact keeps_pure _
    · exact (keeps_withTables _).bind fun _ => keeps_pure _

theorem keeps_identifier (key : IdentKey) : Keeps may (identifier key : Parse ε Nat) :=
  keeps_withTables _

theorem keeps_readToken (mode : LexMode) (base : Nat) (at_ : Cursor) :
    Keeps may (readToken mode base at_ : Parse ε (TokenKind × Span × Cursor)) := by
  unfold readToken
  split
  · exact keeps_pure _
  · exact keeps_throw (ParseError.fresh_ofLex _ base)

/-! ## Applying operators -/

theorem keeps_reject (symbol : String) (o : Operand) (types : List OperandType) :
    Keeps may (reject symbol o types : Parse ε Unit) := by
  unfold reject
  split
  · exact keeps_fail _ _ (by simp)
  · exact keeps_pure _

theorem keeps_applyUnary (op : UnaryOp) (span : Span) :
    Keeps may (applyUnary op span : Parse ε Unit) := by
  refine (keeps_popValue span).bind fun o => ?_
  cases op with
  | not | die => exact keeps_pushOperand _
  | negate | plus =>
    refine (keeps_reject _ _ _).bind fun _ => ?_
    split <;> exact keeps_pushOperand _
  | bitNot => exact (keeps_reject _ _ _).bind fun _ => keeps_pushOperand _

theorem keeps_binaryType (op : BinaryOp) (left right : Operand) :
    Keeps may (binaryType op left right : Parse ε OperandType) := by
  have both (types : List OperandType) (type : OperandType) :
      Keeps may (do reject op.symbol left types; reject op.symbol right types; pure type :
        Parse ε OperandType) :=
    (keeps_reject _ _ _).bind fun _ => (keeps_reject _ _ _).bind fun _ => keeps_pure _
  cases op with
  | add | sub | mul =>
    unfold binaryType
    simp only
    split
    · exact keeps_pure _
    · simpa only [bind_assoc] using both _ _
  | _ =>
    first
    | exact keeps_pure _
    | simpa only [binaryType, bind_assoc] using both _ _

theorem keeps_applyBinary (op : BinaryOp) (span : Span) :
    Keeps may (applyBinary op span : Parse ε Unit) := by
  refine (keeps_popValue span).bind fun right => (keeps_popValue span).bind fun left => ?_
  exact (keeps_binaryType op left right).bind fun _ => keeps_pushOperand _

theorem keeps_applyTernary (span : Span) (extra : Extra) :
    Keeps may (applyTernary span extra : Parse ε Unit) := by
  unfold applyTernary
  split
  · exact .bind (keeps_fail _ _ (by simp)) fun _ => (keeps_popValue span).bind fun _ =>
      (keeps_popValue span).bind fun _ => (keeps_popValue span).bind fun _ => keeps_pushOperand _
  · exact (keeps_popValue span).bind fun _ => (keeps_popValue span).bind fun _ =>
      (keeps_popValue span).bind fun _ => keeps_pushOperand _

theorem keeps_applyColon (span : Span) : Keeps may (applyColon span : Parse ε Unit) :=
  (keeps_popValue span).bind fun _ => (keeps_popValue span).bind fun _ => keeps_pushOperand _

theorem keeps_applyAssignment (p : Pending) : Keeps may (applyAssignment p : Parse ε Unit) := by
  refine (keeps_popValue _).bind fun value => (keeps_popValue _).bind fun target => ?_
  split
  · exact keeps_pushOperand _
  · exact keeps_pushOperand _
  · exact keeps_fail _ _ (by simp)

theorem keeps_applyStream (op : StreamOp) (span : Span) (extra : Extra) :
    Keeps may (applyStream op span extra : Parse ε Unit) := by
  unfold applyStream
  split
  · refine (keeps_popValue span).bind fun body => (keeps_popValue span).bind fun source => ?_
    refine (keeps_modify ?_).bind fun _ => keeps_pushOperand _
    exact fun _ => rfl
  · exact keeps_fail _ _ (by simp)

theorem keeps_applySequence (span : Span) : Keeps may (applySequence span : Parse ε Unit) :=
  (keeps_popValue span).bind fun _ => (keeps_popValue span).bind fun _ => keeps_pushOperand _

theorem keeps_apply (p : Pending) : Keeps may (apply p : Parse ε Unit) := by
  unfold apply
  split
  · exact keeps_applyUnary _ _
  · exact keeps_applyBinary _ _
  · exact keeps_applyTernary _ _
  · exact keeps_applyColon _
  · exact keeps_applyAssignment p
  · exact keeps_applyAssignment p
  · exact keeps_applyStream _ _ _
  · exact keeps_applySequence _
  all_goals exact keeps_fail _ _ (by simp)

theorem keeps_applyWhile (q : Pending → Bool) (ps : List Pending) :
    Keeps may (applyWhile q ps : Parse ε Unit) := by
  induction ps with
  | nil => exact keeps_pure ()
  | cons p ps ih =>
    unfold applyWhile
    split
    · refine (keeps_modify ?_).bind fun _ => (keeps_apply p).bind fun _ => ih
      exact fun _ => rfl
    · exact keeps_pure ()

theorem keeps_reduceWhile (q : Pending → Bool) : Keeps may (reduceWhile q : Parse ε Unit) :=
  keeps_get.bind fun _ => keeps_applyWhile q _

/-! ## Containers -/

theorem keeps_closeGroup (elements : List Operand) (span : Span) :
    Keeps may (closeGroup elements span : Parse ε Unit) := by
  unfold closeGroup
  split
  · split
    · exact keeps_fail _ _ (by simp)
    · exact keeps_pushOperand _
  · exact keeps_fail _ _ (by simp)

theorem keeps_closeLookup (opener : String) (safe : Bool) (elements : List Operand)
    (span close : Span) :
    Keeps may (closeLookup opener safe elements span close : Parse ε Unit) := by
  unfold closeLookup
  split
  · split
    · exact keeps_fail _ _ (by simp)
    · exact (keeps_popValue span).bind fun _ => keeps_pushOperand _
  · exact keeps_fail _ _ (by simp)

theorem keeps_closeCall (p : Pending) (args : List Node) (span close : Span) :
    Keeps may (closeCall p args span close : Parse ε Unit) := by
  unfold closeCall
  split
  · split
    case' isTrue => refine (keeps_namedCall? _ args).bind ?_
    case' isFalse => refine (keeps_pure none).bind ?_
    all_goals
      rintro (_ | node)
      · exact (keeps_identifier _).bind fun _ => keeps_pushOperand _
      · exact keeps_pushOperand _
  · exact (keeps_popValue span).bind fun _ => (keeps_identifier _).bind fun _ => keeps_pushOperand _
  · exact keeps_pushOperand _
  · exact keeps_fail _ _ (by simp)

theorem keeps_closeContainer (p : Pending) (elements : List Operand) (close : Span) :
    Keeps may (closeContainer p elements close : Parse ε Unit) := by
  unfold closeContainer
  simp only
  split
  · exact keeps_closeGroup _ _
  · split
    · exact keeps_pushOperand _
    · exact keeps_fail _ _ (by simp)
  · split
    · exact keeps_pushOperand _
    · exact keeps_fail _ _ (by simp)
  · exact keeps_closeLookup _ _ _ _ _
  · exact keeps_closeCall _ _ _ _
  · exact keeps_fail _ _ (by simp)

theorem keeps_close (symbol : String) (span : Span) :
    Keeps may (close symbol span : Parse ε Unit) := by
  refine (keeps_reduceWhile _).bind fun _ => ?_
  intro b
  simp only [ends_bind, ends_get]
  split
  · exact ⟨.refl b.scope, ParseError.fresh_of_fault (by simp)⟩
  · split
    · exact ⟨.refl b.scope, ParseError.fresh_of_fault (by simp)⟩
    · simp only [ends_bind, ends_set]
      split
      · exact ⟨.refl b.scope, ParseError.fresh_of_fault (by simp)⟩
      · exact keeps_closeContainer _ _ _ _

theorem keeps_closeWithoutOperand (symbol : String) (span : Span) :
    Keeps may (closeWithoutOperand symbol span : Parse ε Unit) := by
  refine keeps_get.bind fun b => ?_
  split
  · exact keeps_close symbol span
  · split
    · exact keeps_unexpected _ _ _
    · exact keeps_close symbol span

theorem keeps_comma (span : Span) : Keeps may (comma span : Parse ε Unit) := by
  refine (keeps_reduceWhile _).bind fun _ => ?_
  intro b
  simp only [ends_bind, ends_get]
  split
  · exact ⟨.refl b.scope, ParseError.fresh_of_fault (by simp)⟩
  · split
    · exact ⟨.refl b.scope, ParseError.fresh_of_fault (by simp)⟩
    · split
      · exact ⟨.refl b.scope, ParseError.fresh_of_fault (by simp)⟩
      · exact .refl b.scope

/-! ## Operators -/

theorem keeps_colon (op : Operator) (span : Span) : Keeps may (colon op span : Parse ε Unit) := by
  refine (keeps_reduceWhile _).bind fun _ => keeps_get.bind fun b => ?_
  simp only
  split
  · refine (keeps_reduceWhile _).bind fun _ => keeps_modify ?_
    exact fun _ => rfl
  · split
    · split
      · exact keeps_pushOperator _ _ _
      · exact keeps_fail _ _ (by simp)
    · exact keeps_fail _ _ (by simp)

theorem keeps_assignmentTarget (span : Span) :
    Keeps may (assignmentTarget span : Parse ε Extra) := by
  refine keeps_get.bind fun b => ?_
  split
  · exact keeps_fail _ _ (by simp)
  · split
    · exact keeps_pure _
    · exact keeps_pure _
    · exact (keeps_withTables _).bind fun _ => keeps_pure _
    · exact keeps_fail _ _ (by simp)

/-- The only step that changes the scope. -/
theorem keeps_bindingTarget (span : Span) (hmay : may) :
    Keeps may (bindingTarget span : Parse ε Extra) := by
  intro b
  unfold bindingTarget
  simp only [ends_bind, ends_get]
  split
  · exact ⟨.refl b.scope, ParseError.fresh_of_fault (by simp)⟩
  case isFalse hon =>
    split
    · exact ⟨.refl b.scope, ParseError.fresh_of_fault (by simp)⟩
    · split
      · exact ⟨.refl b.scope, ParseError.fresh_of_fault (by simp)⟩
      · exact .declareBinding (by simpa using hon) hmay _

theorem keeps_streamClause (at_ : Cursor) :
    Keeps may (streamClause at_ : Parse ε (Extra × Cursor)) := by
  refine keeps_get.bind fun b => ?_
  split
  · exact keeps_pure _
  · exact (keeps_withTables _).bind fun _ => keeps_pure _

theorem keeps_navigate (safe : Bool) (span : Span) (base : Nat) (at_ : Cursor) :
    Keeps may (navigate safe span base at_ : Parse ε (LexMode × Cursor)) := by
  refine (keeps_readToken _ _ _).bind ?_
  rintro ⟨kind, memberSpan, after⟩
  simp only
  split
  · split
    · exact (keeps_pushOperator _ _ _).bind fun _ => keeps_pure _
    · exact (keeps_popValue span).bind fun _ => (keeps_identifier _).bind fun _ =>
        (keeps_pushOperand _).bind fun _ => keeps_pure _
  · exact keeps_fail _ _ (by simp)

theorem symbol_of_findInfix?_bind {symbol : String} {op : Operator}
    (h : Operator.findInfix? symbol = some op) (hk : op.kind = .bind) : symbol = ":=" := by
  have hall : ∀ op ∈ Operator.infixTable, op.kind = .bind → op.symbol = ":=" := by decide
  rw [← Operator.findInfix?_symbol h]
  exact hall op (List.mem_of_find?_eq_some h) hk

theorem keeps_operator (symbol : String) (span : Span) (base : Nat) (at_ : Cursor)
    (hmay : symbol = ":=" → may) :
    Keeps may (operator symbol span base at_ : Parse ε (LexMode × Cursor)) := by
  unfold operator
  split
  · exact (keeps_close symbol span).bind fun _ => keeps_pure _
  · split
    · exact keeps_unexpected _ _ _
    case h_2 op hop =>
      split
      · exact keeps_navigate _ _ _ _
      · exact (keeps_colon _ span).bind fun _ => keeps_pure _
      · refine (keeps_reduceWhile _).bind fun _ => ?_
        have wait (op : Operator) (extra : Extra) (after : Cursor) :
            Keeps may (do pushOperator op span extra; return (.operand, after) :
              Parse ε (LexMode × Cursor)) :=
          (keeps_pushOperator _ _ _).bind fun _ => keeps_pure _
        simp only
        split
        · exact (keeps_assignmentTarget span).bind fun extra =>
            (keeps_pure (extra, at_)).bind fun found => wait _ found.1 found.2
        case h_2 hk =>
          exact (keeps_bindingTarget span (hmay (symbol_of_findInfix?_bind hop hk))).bind
            fun extra => (keeps_pure (extra, at_)).bind fun found => wait _ found.1 found.2
        · exact (keeps_streamClause at_).bind fun found => wait _ found.1 found.2
        · exact (keeps_pure (.plain, at_)).bind fun found => wait _ found.1 found.2

/-! ## Operands -/

theorem keeps_resolveName (name : String) (lookup : Lookup) (span : Span) :
    Keeps may (resolveName name lookup span : Parse ε Operand) := by
  have named (node : Node) : Keeps may (pure { Operand.object node span with name := some name } :
      Parse ε Operand) := keeps_pure _
  have property : Keeps may (do return .identifier (← identifier (.property name)) lookup :
      Parse ε Node) := (keeps_identifier _).bind fun _ => keeps_pure _
  unfold resolveName
  simp only
  split
  · exact property.bind fun _ => keeps_pure _
  · refine keeps_get.bind fun b => ?_
    split
    · exact named _
    · split
      · exact named _
      · refine (keeps_namedCall? _ _).bind fun found => ?_
        split
        · exact named _
        · exact property.bind named

theorem keeps_complete (o : Operand) :
    Keeps may (do pushOperand o; return .operator : Parse ε LexMode) :=
  (keeps_pushOperand o).bind fun _ => keeps_pure _

theorem keeps_ident (i : Ident) (span : Span) : Keeps may (ident i span : Parse ε LexMode) := by
  have opens (extra : Extra) :
      Keeps may (do pushOperator .call span extra; return .operand : Parse ε LexMode) :=
    (keeps_pushOperator _ _ _).bind fun _ => keeps_pure _
  have annotated (name : String) : Keeps may (do
      if i.call then
        pushOperator .call span (.annotated name)
        return .operand
      else
        pushOperand (.object (.annotated name []) span)
        return .operator : Parse ε LexMode) := by
    split
    · exact opens _
    · exact keeps_complete _
  unfold ident
  simp only
  split
  · exact keeps_complete _
  · split
    · exact keeps_fail _ _ (by simp)
    · split
      · exact (keeps_unexpected _ _ _).bind fun _ => keeps_complete _
      · exact keeps_complete _
  · refine keeps_get.bind fun b => ?_
    split
    · exact .bind (keeps_fail _ _ (by simp)) fun _ => annotated _
    · exact annotated _
  · split
    · exact opens _
    · exact (keeps_resolveName _ _ span).bind keeps_complete

/-- The scope passes through a parse on other stacks. -/
theorem keeps_isolated {parse : Parse ε Operand} (h : Keeps may parse) :
    Keeps may (isolated parse) := by
  intro b
  unfold isolated
  simp only [ends_bind, ends_get, ends_set]
  refine (h { b with operands := .empty, operators := .empty }).mono ?_ fun _ _ he => he
  intro o b' hb
  simp only [ends_modify, ends_pure]
  exact hb

section Nested

variable {nested : List Char → Nat → Parse ε Operand}

theorem keeps_segments (base : Nat) (parts : List Literal.Segment)
    (hn : ∀ source place start, .expression source place ∈ parts →
      Keeps may (nested source start)) :
    Keeps may (segments nested base parts) := by
  induction parts with
  | nil => exact keeps_pure _
  | cons part parts ih =>
    have hrest : Keeps may (segments nested base parts) :=
      ih fun source place start hmem => hn source place start (List.mem_cons_of_mem part hmem)
    unfold segments
    cases part with
    | text text => exact hrest.bind fun _ => keeps_pure _
    | expression source place =>
      refine (keeps_isolated (hn source place _ (by simp))).bind fun _ => ?_
      exact hrest.bind fun _ => keeps_pure _
    | name name place =>
      exact (keeps_resolveName _ _ _).bind fun _ => hrest.bind fun _ => keeps_pure _

variable {raw : List Char}

theorem keeps_string (doubleQuoted : Bool) (span : Span)
    (hn : ∀ source start, source <:+: raw → Keeps may (nested source start)) :
    Keeps may (string nested raw doubleQuoted span) := by
  unfold string
  refine keeps_get.bind fun b => ?_
  split
  · split
    case h_1 => exact keeps_throw (ParseError.fresh_ofLex _ _)
    case h_2 => exact keeps_pure _
    case h_3 parts _ hsplit =>
      refine (keeps_segments _ _ fun source place start hmem => ?_).bind fun _ => keeps_pure _
      have hpart := (Literal.infix_of_mem_split hsplit hmem).1
      exact hn source start (hpart.trans (List.tail_suffix raw).isInfix)
  · split
    · exact keeps_throw (ParseError.fresh_ofLex _ _)
    · exact keeps_pure _

theorem keeps_operand (kind : TokenKind) (span : Span)
    (hn : ∀ raw doubleQuoted source start, kind = .str raw doubleQuoted → source <:+: raw →
      Keeps may (nested source start)) :
    Keeps may (operand nested kind span) := by
  cases kind with
  | null | bool | int | double | regex | emptyMap => exact keeps_complete _
  | str raw doubleQuoted =>
    refine (keeps_string _ _ fun source start hpart => ?_).bind keeps_complete
    exact hn raw doubleQuoted source start rfl hpart
  | ident i => exact keeps_ident i span
  | operator symbol =>
    unfold operand
    simp only
    split
    · exact (keeps_closeWithoutOperand _ _).bind fun _ => keeps_pure _
    · split
      · exact keeps_unexpected _ _ _
      · exact (keeps_pushOperator _ _ _).bind fun _ => keeps_pure _
  | comma => exact keeps_unexpected _ _ _
  | finish =>
    refine keeps_get.bind fun b => ?_
    split
    · exact keeps_fail _ _ (by simp)
    · exact keeps_fail _ _ (by simp)

end Nested

/-! ## Where the parser goes on -/

/-- If the step answers, the answer is as `P` says. -/
def Answers (P : α → Prop) (step : Parse ε α) : Prop :=
  ∀ b, Ends step b (fun a _ => P a) fun _ _ => True

theorem answers_any (step : Parse ε α) : Answers (fun _ => True) step := by
  intro b
  unfold Ends
  split <;> trivial

theorem Answers.mono {P Q : α → Prop} {step : Parse ε α} (h : Answers P step)
    (himp : ∀ a, P a → Q a) : Answers Q step :=
  fun b => (h b).mono (fun a _ ha => himp a ha) fun _ _ _ => trivial

theorem answers_pure {P : α → Prop} {a : α} (h : P a) : Answers P (pure a : Parse ε α) :=
  fun _ => h

theorem answers_throw (P : α → Prop) (e : ParseError) : Answers P (throw e : Parse ε α) :=
  fun _ => trivial

theorem Answers.bind {P : β → Prop} {Q : α → Prop} {step : Parse ε α} {next : α → Parse ε β}
    (h : Answers Q step) (hn : ∀ a, Q a → Answers P (next a)) : Answers P (step >>= next) := by
  intro b
  rw [ends_bind]
  exact (h b).mono (fun a b' ha => hn a ha b') fun _ _ _ => trivial

theorem answers_streamClause (at_ : Cursor) :
    Answers (fun r => r.2.rest <:+ at_.rest) (streamClause at_ : Parse ε (Extra × Cursor)) := by
  refine (answers_any _).bind fun b _ => ?_
  split
  case h_1 => exact answers_pure List.suffix_rfl
  case h_2 hclause =>
    exact (answers_any _).bind fun _ _ => answers_pure (Signature.lambda?_suffix hclause)

theorem answers_navigate (safe : Bool) (span : Span) (base : Nat) (at_ : Cursor) :
    Answers (fun r => r.2.rest <:+ at_.rest)
      (navigate safe span base at_ : Parse ε (LexMode × Cursor)) := by
  have hread : Answers (fun r => r.2.2.rest <:+ at_.rest)
      (readToken .member base at_ : Parse ε (TokenKind × Span × Cursor)) := by
    unfold readToken
    split
    case h_1 hnext => exact answers_pure (Token.next_suffix hnext)
    case h_2 => exact answers_throw _ _
  refine hread.bind ?_
  rintro ⟨kind, memberSpan, after⟩ hafter
  simp only
  split
  · split
    · exact (answers_any _).bind fun _ _ => answers_pure hafter
    · exact (answers_any _).bind fun _ _ => (answers_any _).bind fun _ _ =>
        (answers_any _).bind fun _ _ => answers_pure hafter
  · exact answers_throw _ _

/-- After an operator the parser goes on at a later place of the same text. -/
theorem answers_operator (symbol : String) (span : Span) (base : Nat) (at_ : Cursor) :
    Answers (fun r => r.2.rest <:+ at_.rest)
      (operator symbol span base at_ : Parse ε (LexMode × Cursor)) := by
  unfold operator
  split
  · exact (answers_any _).bind fun _ _ => answers_pure List.suffix_rfl
  · split
    · exact answers_throw _ _
    · split
      · exact answers_navigate _ _ _ _
      · exact (answers_any _).bind fun _ _ => answers_pure List.suffix_rfl
      · refine (answers_any _).bind fun _ _ => ?_
        have wait (op : Operator) (found : Extra × Cursor) (h : found.2.rest <:+ at_.rest) :
            Answers (fun r => r.2.rest <:+ at_.rest)
              (do pushOperator op span found.1; return (.operand, found.2) :
                Parse ε (LexMode × Cursor)) :=
          (answers_any _).bind fun _ _ => answers_pure h
        have here (extra : Extra) : Answers (fun r => r.2.rest <:+ at_.rest)
            (pure (extra, at_) : Parse ε (Extra × Cursor)) :=
          answers_pure List.suffix_rfl
        simp only
        split
        · exact (answers_any _).bind fun extra _ => (here extra).bind (wait _)
        · exact (answers_any _).bind fun extra _ => (here extra).bind (wait _)
        · exact (answers_streamClause at_).bind (wait _)
        · exact (here .plain).bind (wait _)

/-! ## Runs -/

theorem keeps_finish (span : Span) : Keeps may (finish span : Parse ε Operand) := by
  refine (keeps_reduceWhile _).bind fun _ => keeps_get.bind fun b => ?_
  split
  · exact keeps_fail _ _ (by simp)
  · split
    · exact keeps_fail _ _ (by simp)
    · exact keeps_pure _
  · exact keeps_fail _ _ (by simp)

/-- The symbol of a binding stands somewhere in the text. -/
def HasBinding (text : List Char) : Prop := ":=".toList <:+: text

instance (text : List Char) : Decidable (HasBinding text) :=
  inferInstanceAs (Decidable (_ <:+: text))

theorem keeps_rounds (fuel : Nat) (mode : LexMode) (base : Nat) (at_ : Cursor) :
    Keeps (HasBinding at_.rest) (rounds fuel mode base at_ : Parse ε Operand) := by
  induction fuel generalizing mode base at_ with
  | zero => exact keeps_fail _ _ (by simp)
  | succ fuel ih =>
    -- What is parsed from here on is a part of the text: later on, or in a literal.
    have part (mode : LexMode) (base : Nat) (after : Cursor) (h : after.rest <:+: at_.rest) :
        Keeps (HasBinding at_.rest) (rounds fuel mode base after : Parse ε Operand) :=
      (ih mode base after).mono fun hb => hb.trans h
    unfold rounds
    intro b
    rw [ends_bind, ends_readToken]
    cases hnext : Token.next mode at_ with
    | error e => exact ⟨.refl b.scope, ParseError.fresh_ofLex e base⟩
    | ok r =>
      obtain ⟨⟨kind, span⟩, after⟩ := r
      have hafter := (Token.next_suffix hnext).isInfix
      simp only
      revert b
      split
      · refine (keeps_operand _ _ ?_).bind fun _ => part _ _ after hafter
        rintro raw doubleQuoted source start rfl hsource
        exact part _ _ (.start source) (hsource.trans (Token.infix_of_str hnext))
      · split
        · exact keeps_finish _
        · exact (keeps_comma _).bind fun _ => part _ _ after hafter
        case h_3 symbol =>
          have hmay (h : symbol = ":=") : HasBinding at_.rest := by
            rw [HasBinding, ← h]
            exact Token.infix_of_symbol hnext
          intro b
          rw [ends_bind]
          refine ((keeps_operator symbol _ base after hmay b).and
            (answers_operator symbol _ base after b)).mono ?_ fun _ _ he => he.1
          rintro ⟨mode', after'⟩ b' ⟨hb, hsuffix⟩
          refine (part mode' base after' (hsuffix.isInfix.trans hafter) b').mono ?_ ?_
          · exact fun _ _ hb' => hb.trans hb'
          · exact fun _ _ he => ⟨hb.trans he.1, he.2⟩
        · exact keeps_unexpected _ _ _

end Parse

end TagExpr
