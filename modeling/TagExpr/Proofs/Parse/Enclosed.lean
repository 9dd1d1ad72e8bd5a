import TagExpr.Proofs.Parse.Run
import TagExpr.Proofs.Token.Longer

/-!
# Parsing inside of a parenthesis

What the parser does to an expression it also does while a parenthesis is open around all of it:
each step gives the same answer and leaves the same bench, but for the parenthesis at the bottom of
the operator stack (`Within`). This is so because the parenthesis comes before the first operand,
and because nothing but its closer ends it.
-/

namespace TagExpr.Parse

variable {ε : Type} {α β γ δ : Type}

/-- A parenthesis opened before the first operand. -/
def Pending.parenthesis (span : Span) : Pending :=
  { op := ⟨"(", 0, .left, .group⟩, span, base := 0 }

/-- The bench with a parenthesis open around all that is on it. -/
def Bench.enclosed (b : Bench ε) (span : Span) : Bench ε :=
  { b with operators := ⟨b.operators.toList ++ [.parenthesis span]⟩ }

@[simp] theorem operands_enclosed (b : Bench ε) (span : Span) :
    (b.enclosed span).operands = b.operands := rfl

variable {span : Span} {b : Bench ε}

theorem openContainer?_enclosed (b : Bench ε) (span : Span) :
    openContainer? (b.enclosed span) = (openContainer? b).or (some (.parenthesis span)) := by
  simp [openContainer?, Bench.enclosed, Pending.parenthesis, OpKind.isContainer, OpKind.closer?]

/-- The floor of the parenthesis is that of the whole expression. -/
theorem floor_enclosed (b : Bench ε) (span : Span) :
    ((openContainer? (b.enclosed span)).map (·.base)).getD 0 =
      ((openContainer? b).map (·.base)).getD 0 := by
  rw [openContainer?_enclosed]
  cases openContainer? b <;> rfl

/-! ## Steps inside and outside -/

/-- Where the first step succeeds the second one does the same inside of the parenthesis, with an
answer that `Q` relates to the first one's. -/
def Within (span : Span) (Q : α → β → Prop) (step : Parse ε α) (step' : Parse ε β) (b : Bench ε) :
    Prop :=
  ∀ a b', step b = .ok a b' → ∃ a', step' (b.enclosed span) = .ok a' (b'.enclosed span) ∧ Q a a'

/-- The step does the same inside of the parenthesis. -/
abbrev Steady (span : Span) (step : Parse ε α) (b : Bench ε) : Prop := Within span Eq step step b

section Steps

variable {Q : α → β → Prop} {Q' : γ → δ → Prop} {step : Parse ε α} {step' : Parse ε β}
  {next : α → Parse ε γ} {next' : β → Parse ε δ}

theorem Within.bind (h : Within span Q step step' b)
    (hn : ∀ a a' b', step b = .ok a b' → Q a a' → Within span Q' (next a) (next' a') b') :
    Within span Q' (step >>= next) (step' >>= next') b := by
  intro c b'' ran
  obtain ⟨a, b', first, second⟩ := exists_of_bind ran
  obtain ⟨a', first', hq⟩ := h a b' first
  obtain ⟨c', second', hq'⟩ := hn a a' b' first hq c b'' second
  refine ⟨c', ?_, hq'⟩
  simp only [Bind.bind, EStateM.bind, first', second']

theorem Within.ok {step step' : Parse ε α} (h : Within span Eq step step' b) {a : α} {b' : Bench ε}
    (ran : step b = .ok a b') : step' (b.enclosed span) = .ok a (b'.enclosed span) := by
  obtain ⟨_, ran', rfl⟩ := h a b' ran
  exact ran'

/-- A step with one answer is followed by one and the same step. -/
theorem Within.then {step step' : Parse ε α} {next : α → Parse ε γ} {next' : α → Parse ε δ}
    (h : Within span Eq step step' b)
    (hn : ∀ a b', step b = .ok a b' → Within span Q' (next a) (next' a) b') :
    Within span Q' (step >>= next) (step' >>= next') b := by
  refine h.bind ?_
  rintro a _ b' ran rfl
  exact hn a b' ran

/-- Nothing is asked where the first step fails. -/
theorem within_error {e : ParseError} {b' : Bench ε} (h : step b = .error e b') :
    Within span Q step step' b := by
  intro a b'' ran
  rw [h] at ran
  cases ran

theorem within_pure {a : α} {a' : β} (h : Q a a') :
    Within span Q (pure a : Parse ε α) (pure a') b := by
  rintro _ _ ⟨⟩
  exact ⟨a', rfl, h⟩

theorem within_get {next : Bench ε → Parse ε γ} {next' : Bench ε → Parse ε δ}
    (h : Within span Q' (next b) (next' (b.enclosed span)) b) :
    Within span Q' (get >>= next) (get >>= next') b := h

theorem within_set (b₁ : Bench ε) :
    Within span Eq (set b₁ : Parse ε PUnit) (set (b₁.enclosed span)) b := by
  rintro _ _ ⟨⟩
  exact ⟨⟨⟩, rfl, rfl⟩

theorem within_modify {f f' : Bench ε → Bench ε} (h : f' (b.enclosed span) = (f b).enclosed span) :
    Within span Eq (modify f : Parse ε PUnit) (modify f') b := by
  rintro _ _ ⟨⟩
  exact ⟨⟨⟩, congrArg (EStateM.Result.ok PUnit.unit) h, rfl⟩

theorem within_ite {c c' : Prop} [Decidable c] [Decidable c'] {otherwise : Parse ε α}
    {otherwise' : Parse ε β} (same : c ↔ c') (yes : Within span Q step step' b)
    (no : Within span Q otherwise otherwise' b) :
    Within span Q (if c then step else otherwise) (if c' then step' else otherwise') b := by
  by_cases hc : c
  · rw [if_pos hc, if_pos (same.mp hc)]
    exact yes
  · rw [if_neg hc, if_neg fun hc' => hc (same.mpr hc')]
    exact no

end Steps

theorem steady_pure (a : α) : Steady span (pure a : Parse ε α) b := within_pure rfl

theorem steady_fail (fault : ParseFault) (at_ : Span) :
    Steady span (fail fault at_ : Parse ε α) b := within_error rfl

/-- Most steps look at other parts of the bench than the operator stack. -/
theorem steady_get {next : Bench ε → Parse ε α} (same : next (b.enclosed span) = next b)
    (h : Steady span (next b) b) : Steady span (get >>= next) b := by
  refine within_get ?_
  rw [same]
  exact h

theorem steady_withTables (f : Tables ε → α × Tables ε) : Steady span (withTables f) b := by
  rintro _ _ ⟨⟩
  exact ⟨_, rfl, rfl⟩

theorem steady_identifier (key : IdentKey) : Steady span (identifier key : Parse ε Nat) b :=
  steady_withTables _

theorem steady_pushOperand (o : Operand) : Steady span (pushOperand o : Parse ε Unit) b :=
  within_modify rfl

theorem steady_pushOperator (op : Operator) (at_ : Span) (extra : Extra) :
    Steady span (pushOperator op at_ extra : Parse ε Unit) b := within_modify rfl

theorem steady_popValue (at_ : Span) : Steady span (popValue at_ : Parse ε Operand) b := by
  refine within_get (within_ite (by rw [floor_enclosed, operands_enclosed]) (steady_fail _ _) ?_)
  rw [operands_enclosed]
  cases b.operands.pop? with
  | none => exact steady_fail _ _
  | some popped =>
    refine (within_set _).then fun _ _ _ => ?_
    exact within_ite Iff.rfl (steady_fail _ _) (steady_pure _)

theorem steady_namedCall? (name : String) (args : List Node) :
    Steady span (namedCall? name args : Parse ε (Option Node)) b := by
  refine steady_get rfl ?_
  split
  · exact steady_pure _
  · split
    · exact steady_pure _
    · exact steady_pure _
    · exact (steady_withTables _).then fun _ _ _ => steady_pure _

/-! ## Applying operators -/

theorem steady_reject (symbol : String) (o : Operand) (types : List OperandType) :
    Steady span (reject symbol o types : Parse ε Unit) b := by
  unfold reject
  split
  · exact steady_fail _ _
  · exact steady_pure _

theorem steady_applyUnary (op : UnaryOp) (at_ : Span) :
    Steady span (applyUnary op at_ : Parse ε Unit) b := by
  refine (steady_popValue at_).then fun o b' _ => ?_
  cases op with
  | not | die => exact steady_pushOperand _
  | negate | plus =>
    refine (steady_reject _ _ _).then fun _ _ _ => ?_
    simp only
    split
    · exact steady_pushOperand _
    · exact steady_pushOperand _
  | bitNot => exact (steady_reject _ _ _).then fun _ _ _ => steady_pushOperand _

theorem steady_binaryType (op : BinaryOp) (left right : Operand) :
    Steady span (binaryType op left right : Parse ε OperandType) b := by
  have both (types : List OperandType) (type : OperandType) : Steady span
      (do reject op.symbol left types; reject op.symbol right types; pure type :
        Parse ε OperandType) b :=
    (steady_reject _ _ _).then fun _ _ _ => (steady_reject _ _ _).then fun _ _ _ => steady_pure _
  cases op with
  | add | sub | mul =>
    unfold binaryType
    simp only
    split
    · exact steady_pure _
    · simpa only [bind_assoc] using both _ _
  | _ =>
    first
    | exact steady_pure _
    | simpa only [binaryType, bind_assoc] using both _ _

theorem steady_applyBinary (op : BinaryOp) (at_ : Span) :
    Steady span (applyBinary op at_ : Parse ε Unit) b :=
  (steady_popValue at_).then fun _ _ _ => (steady_popValue at_).then fun _ _ _ =>
    (steady_binaryType op _ _).then fun _ _ _ => steady_pushOperand _

theorem steady_applyTernary (at_ : Span) (extra : Extra) :
    Steady span (applyTernary at_ extra : Parse ε Unit) b := by
  unfold applyTernary
  split
  · exact within_error rfl
  · exact (steady_popValue at_).then fun _ _ _ => (steady_popValue at_).then fun _ _ _ =>
      (steady_popValue at_).then fun _ _ _ => steady_pushOperand _

theorem steady_applyColon (at_ : Span) : Steady span (applyColon at_ : Parse ε Unit) b :=
  (steady_popValue at_).then fun _ _ _ => (steady_popValue at_).then fun _ _ _ =>
    steady_pushOperand _

theorem steady_applyAssignment (p : Pending) :
    Steady span (applyAssignment p : Parse ε Unit) b := by
  refine (steady_popValue _).then fun _ _ _ => (steady_popValue _).then fun _ _ _ => ?_
  cases p.extra with
  | assignLocal | assignBinding => exact steady_pushOperand _
  | _ => exact steady_fail _ _

theorem steady_applyStream (op : StreamOp) (at_ : Span) (extra : Extra) :
    Steady span (applyStream op at_ extra : Parse ε Unit) b := by
  unfold applyStream
  cases extra with
  | stream =>
    exact (steady_popValue at_).then fun _ _ _ => (steady_popValue at_).then fun _ _ _ =>
      (within_modify rfl).then fun _ _ _ => steady_pushOperand _
  | _ => exact steady_fail _ _

theorem steady_applySequence (at_ : Span) : Steady span (applySequence at_ : Parse ε Unit) b :=
  (steady_popValue at_).then fun _ _ _ => (steady_popValue at_).then fun _ _ _ =>
    steady_pushOperand _

theorem steady_apply (p : Pending) : Steady span (apply p : Parse ε Unit) b := by
  unfold apply
  split
  · exact steady_applyUnary _ _
  · exact steady_applyBinary _ _
  · exact steady_applyTernary _ _
  · exact steady_applyColon _
  · exact steady_applyAssignment p
  · exact steady_applyAssignment p
  · exact steady_applyStream _ _ _
  · exact steady_applySequence _
  all_goals exact steady_fail _ _

theorem apply_container {p : Pending} (h : p.op.kind.isContainer) :
    (apply p : Parse ε Unit) = fail (.unmatchedOpener p.op.symbol) p.span := by
  unfold apply
  split <;> first | rfl | simp_all [OpKind.isContainer, OpKind.closer?]

/-! ## Reductions -/

/-- Operators are applied down to the same one, for which the parenthesis does if there is no other.
-/
theorem within_applyWhile {q q' : Pending → Bool} {ps : List Pending}
    (applied : ∀ p, q p → p.op.kind.isContainer = false → q' p)
    (kept : ∀ p, q p = false → q' p = false)
    (stops : q' (.parenthesis span) = false ∨ ∃ p ∈ ps, q p = false) :
    Within span Eq (applyWhile q ps : Parse ε Unit)
      (applyWhile q' (ps ++ [.parenthesis span])) b := by
  induction ps generalizing b with
  | nil =>
    have bottom : q' (.parenthesis span) = false := by simpa using stops
    rw [List.nil_append, applyWhile, applyWhile, if_neg (by simp [bottom])]
    exact steady_pure ()
  | cons p ps ih =>
    rw [List.cons_append, applyWhile, applyWhile]
    cases hq : q p with
    | false =>
      rw [kept p hq]
      exact steady_pure ()
    | true =>
      cases hc : p.op.kind.isContainer with
      | true =>
        rw [apply_container hc]
        exact within_error rfl
      | false =>
        rw [applied p hq hc]
        simp only [if_true]
        refine (within_modify rfl).then fun _ _ _ => (steady_apply p).then fun _ _ _ => ih ?_
        simpa [hq] using stops

theorem within_reduceWhile {q q' : Pending → Bool}
    (applied : ∀ p, q p → p.op.kind.isContainer = false → q' p)
    (kept : ∀ p, q p = false → q' p = false)
    (stops : q' (.parenthesis span) = false ∨ ∃ p ∈ b.operators.toList, q p = false) :
    Within span Eq (reduceWhile q : Parse ε Unit) (reduceWhile q') b :=
  within_get (within_applyWhile applied kept stops)

theorem steady_reduceFor (op : Operator) : Steady span (reduceFor op : Parse ε Unit) b :=
  within_reduceWhile (fun _ h _ => h) (fun _ h => h) (.inl rfl)

theorem steady_reduceToContainer : Steady span (reduceToContainer : Parse ε Unit) b :=
  within_reduceWhile (fun _ h _ => h) (fun _ h => h) (.inl rfl)

/-- If all that waits can be applied, the parenthesis is the innermost container. -/
theorem within_reduceAll :
    Within span Eq (reduceWhile fun _ => true : Parse ε Unit) reduceToContainer b :=
  within_reduceWhile (fun _ _ hc => by simp [hc]) (fun _ h => nomatch h) (.inl rfl)

/-! ## Containers -/

theorem pop?_enclosed {p : Pending} {below : Stack Pending}
    (h : b.operators.pop? = some (p, below)) :
    (b.enclosed span).operators.pop? = some (p, ⟨below.toList ++ [.parenthesis span]⟩) := by
  unfold Stack.pop? at h ⊢
  split at h <;> cases h
  case h_2 hps => simp only [Bench.enclosed, hps, List.cons_append]

theorem peek?_enclosed {p : Pending} (h : b.operators.peek? = some p) :
    (b.enclosed span).operators.peek? = some p := by
  unfold Stack.peek? at h ⊢
  obtain ⟨ps, hps⟩ := List.head?_eq_some_iff.mp h
  simp only [Bench.enclosed, hps, List.cons_append, List.head?_cons]

theorem modifyTop_enclosed (f : Pending → Pending) (h : b.operators.toList ≠ []) :
    { b.enclosed span with operators := (b.enclosed span).operators.modifyAt 0 f } =
      ({ b with operators := b.operators.modifyAt 0 f } : Bench ε).enclosed span := by
  obtain ⟨p, ps, hps⟩ := List.exists_cons_of_ne_nil h
  simp only [Bench.enclosed, Stack.modifyAt, hps, List.cons_append, List.modify_zero_cons]

theorem steady_closeGroup (elements : List Operand) (at_ : Span) :
    Steady span (closeGroup elements at_ : Parse ε Unit) b := by
  unfold closeGroup
  split
  · split
    · exact steady_fail _ _
    · exact steady_pushOperand _
  · exact steady_fail _ _

theorem steady_closeLookup (opener : String) (safe : Bool) (elements : List Operand)
    (at_ close : Span) :
    Steady span (closeLookup opener safe elements at_ close : Parse ε Unit) b := by
  unfold closeLookup
  split
  · split
    · exact steady_fail _ _
    · exact (steady_popValue _).then fun _ _ _ => steady_pushOperand _
  · exact steady_fail _ _

theorem steady_closeCall (p : Pending) (args : List Node) (at_ close : Span) :
    Steady span (closeCall p args at_ close : Parse ε Unit) b := by
  unfold closeCall
  split
  · split
    case' isTrue => refine (steady_namedCall? _ args).then ?_
    case' isFalse => refine (steady_pure none).then ?_
    all_goals
      rintro (_ | node) _ _
      · exact (steady_identifier _).then fun _ _ _ => steady_pushOperand _
      · exact steady_pushOperand _
  · exact (steady_popValue _).then fun _ _ _ => (steady_identifier _).then fun _ _ _ =>
      steady_pushOperand _
  · exact steady_pushOperand _
  · exact steady_fail _ _

theorem steady_closeContainer (p : Pending) (elements : List Operand) (close : Span) :
    Steady span (closeContainer p elements close : Parse ε Unit) b := by
  unfold closeContainer
  simp only
  split
  · exact steady_closeGroup _ _
  · split
    · exact steady_pushOperand _
    · exact steady_fail _ _
  · split
    · exact steady_pushOperand _
    · exact steady_fail _ _
  · exact steady_closeLookup _ _ _ _ _
  · exact steady_closeCall _ _ _ _
  · exact steady_fail _ _

/-- A container is closed inside of the parenthesis as it is outside. -/
theorem steady_close (symbol : String) (at_ : Span) :
    Steady span (close symbol at_ : Parse ε Unit) b := by
  refine steady_reduceToContainer.then fun _ b' _ => within_get ?_
  cases hpop : b'.operators.pop? with
  | none => exact within_error rfl
  | some popped =>
    obtain ⟨p, below⟩ := popped
    rw [pop?_enclosed hpop]
    refine within_ite Iff.rfl (steady_fail _ _) ((within_set _).then fun _ _ _ => ?_)
    exact within_ite Iff.rfl (within_error rfl) (steady_closeContainer _ _ _)

/-- Without an open container nothing can be closed. -/
theorem close_of_none {symbol : String} {at_ : Span} (h : b.operators.peek? = none) :
    (close symbol at_ : Parse ε Unit) b = .error ⟨.unexpectedCloser symbol, at_⟩ b := by
  obtain ⟨scope, tables, operands, ⟨ps⟩⟩ := b
  cases List.head?_eq_none_iff.mp h
  rfl

theorem steady_closeWithoutOperand (symbol : String) (at_ : Span) :
    Steady span (closeWithoutOperand symbol at_ : Parse ε Unit) b := by
  refine within_get ?_
  cases hpeek : b.operators.peek? with
  | none => exact within_error (close_of_none hpeek)
  | some p =>
    rw [peek?_enclosed hpeek]
    exact within_ite Iff.rfl (steady_fail _ _) (steady_close _ _)

theorem steady_comma (at_ : Span) : Steady span (comma at_ : Parse ε Unit) b := by
  refine steady_reduceToContainer.then fun _ b' _ => within_get ?_
  cases hpeek : b'.operators.peek? with
  | none => exact within_error rfl
  | some p =>
    have top : b'.operators.toList ≠ [] := fun heq => by simp [Stack.peek?, heq] at hpeek
    rw [peek?_enclosed hpeek, modifyTop_enclosed _ top]
    refine within_ite Iff.rfl (steady_fail _ _) (within_ite Iff.rfl (steady_fail _ _) ?_)
    exact within_set _

/-- A colon finds the question marks of its own container only, and the parenthesis takes no
entries. -/
theorem Stands.steady_colon {N : Names} {w : List Word} (h : Stands N .operator b w)
    (op : Operator) (at_ : Span) : Steady span (Parse.colon op at_ : Parse ε Unit) b := by
  refine (steady_reduceFor op).then fun _ b' ran => within_get ?_
  obtain ⟨stands, -⟩ := (h.reduceWhile _).ok ran
  have region : (b'.enclosed span).operators.toList.takeWhile (!·.op.kind.isContainer) =
      b'.operators.toList.takeWhile (!·.op.kind.isContainer) := by
    show (b'.operators.toList ++ [Pending.parenthesis span]).takeWhile _ = _
    rw [List.takeWhile_append]
    split
    case isTrue all =>
      rw [(List.takeWhile_prefix _).eq_of_length all]
      exact List.append_nil _
    case isFalse => rfl
  simp only [region]
  split
  case isTrue hopen =>
    obtain ⟨p, hmem, hp⟩ := List.any_eq_true.mp hopen
    have waits : ∃ p ∈ b'.operators.toList, (!isOpenTernary p) = false :=
      ⟨p, (List.takeWhile_sublist _).mem hmem, by simp [hp]⟩
    refine (within_reduceWhile (fun _ h _ => h) (fun _ h => h) (.inr waits)).then
      fun _ b'' ran' => within_modify (modifyTop_enclosed _ ?_)
    obtain ⟨-, rest⟩ := (stands.reduceWhile _).ok ran'
    intro empty
    rw [rest] at empty
    obtain ⟨p, hmem, hp⟩ := waits
    have all := List.dropWhile_eq_nil_iff.mp empty p hmem
    rw [hp] at all
    cases all
  case isFalse =>
    rw [openContainer?_enclosed]
    cases openContainer? b' with
    | none => exact within_error rfl
    | some container =>
      simp only [Option.some_or]
      split
      · exact steady_pushOperator _ _ _
      · exact steady_fail _ _

/-! ## Operators -/

theorem steady_assignmentTarget (at_ : Span) :
    Steady span (assignmentTarget at_ : Parse ε Extra) b := by
  refine steady_get rfl ?_
  split
  · exact steady_fail _ _
  · split
    · exact steady_pure _
    · exact steady_pure _
    · exact (steady_withTables _).then fun _ _ _ => steady_pure _
    · exact steady_fail _ _

theorem steady_bindingTarget (at_ : Span) :
    Steady span (bindingTarget at_ : Parse ε Extra) b := by
  refine within_get (within_ite Iff.rfl (within_error rfl) ?_)
  rw [operands_enclosed]
  cases b.operands.peek? with
  | none => exact steady_fail _ _
  | some target =>
    simp only
    cases target.name with
    | none => exact steady_fail _ _
    | some name => exact (within_set _).then fun _ _ _ => steady_pure _

section Text

variable {more : List Char}

/-- The text goes on behind the clause as it went on before. -/
theorem within_streamClause (none : '>' ∉ more) (at_ : Cursor) :
    Within span (fun r r' => r' = (r.1, r.2.on more)) (streamClause at_ : Parse ε (Extra × Cursor))
      (streamClause (at_.on more)) b := by
  refine within_get ?_
  obtain ⟨h, h'⟩ | ⟨clause, clause', h, h', name, body⟩ := Signature.lambda?_on at_ none
  · simp only [h, h']
    exact within_pure rfl
  · simp only [h, h', name, body]
    exact (steady_withTables _).then fun _ _ _ => within_pure rfl

theorem readToken_of_next {mode : LexMode} {at_ after : Cursor} {token : Token}
    (h : Token.next mode at_ = .ok (token, after)) (base : Nat) :
    (readToken mode base at_ : Parse ε (TokenKind × Span × Cursor)) =
      pure (token.kind, token.span.shift base, after) := by
  rw [readToken, h]

theorem readToken_of_error {mode : LexMode} {at_ : Cursor} {e : LexError}
    (h : Token.next mode at_ = .error e) (base : Nat) :
    (readToken mode base at_ : Parse ε (TokenKind × Span × Cursor)) = throw (.ofLex e base) := by
  rw [readToken, h]

theorem within_navigate (stops : Token.Stops more) (safe : Bool) (at_ : Span) (base : Nat)
    (c : Cursor) :
    Within span (fun r r' => r' = (r.1, r.2.on more))
      (navigate safe at_ base c : Parse ε (LexMode × Cursor))
      (navigate safe at_ base (c.on more)) b := by
  unfold navigate
  cases hnext : Token.next .member c with
  | error e =>
    rw [readToken_of_error hnext]
    exact within_error rfl
  | ok r =>
    obtain ⟨token, after⟩ := r
    rw [readToken_of_next hnext, pure_bind]
    by_cases hk : token.kind = .finish
    · simp only [hk]
      exact within_error rfl
    · rw [readToken_of_next (Token.next_on stops hnext hk), pure_bind]
      simp only
      split
      · refine within_ite Iff.rfl ?_ ?_
        · exact (steady_pushOperator _ _ _).then fun _ _ _ => within_pure rfl
        · exact (steady_popValue _).then fun _ _ _ => (steady_identifier _).then fun _ _ _ =>
            (steady_pushOperand _).then fun _ _ _ => within_pure rfl
      · exact within_error rfl

/-- An operator is handled inside of the parenthesis as it is outside. -/
theorem Stands.within_operator {N : Names} {w : List Word} (h : Stands N .operator b w)
    (stops : Token.Stops more) (none : '>' ∉ more) (symbol : String) (at_ : Span) (base : Nat)
    (c : Cursor) :
    Within span (fun r r' => r' = (r.1, r.2.on more))
      (Parse.operator symbol at_ base c : Parse ε (LexMode × Cursor))
      (Parse.operator symbol at_ base (c.on more)) b := by
  unfold Parse.operator
  refine within_ite Iff.rfl ((steady_close _ _).then fun _ _ _ => within_pure rfl) ?_
  cases Operator.findInfix? symbol with
  | none => exact within_error rfl
  | some op =>
    have wait {b : Bench ε} (extra : Extra) (after : Cursor) :
        Within span (fun r r' => r' = (r.1, r.2.on more))
          (do pushOperator op at_ extra; return (.operand, after) : Parse ε (LexMode × Cursor))
          (do pushOperator op at_ extra; return (.operand, after.on more)) b :=
      (steady_pushOperator _ _ _).then fun _ _ _ => within_pure rfl
    simp only
    split
    · exact within_navigate stops _ _ _ _
    · exact (h.steady_colon _ _).then fun _ _ _ => within_pure rfl
    · refine (steady_reduceFor op).then fun _ _ _ => ?_
      split
      · refine (steady_assignmentTarget at_).then fun extra _ _ => ?_
        exact wait extra c
      · refine (steady_bindingTarget at_).then fun extra _ _ => ?_
        exact wait extra c
      · refine (within_streamClause none c).bind ?_
        rintro ⟨extra, after⟩ _ _ _ rfl
        exact wait extra after
      · exact wait .plain c

end Text

/-! ## Operands -/

theorem steady_resolveName (name : String) (lookup : Lookup) (at_ : Span) :
    Steady span (resolveName name lookup at_ : Parse ε Operand) b := by
  have named {b : Bench ε} (node : Node) : Steady span
      (pure { Operand.object node at_ with name := some name } : Parse ε Operand) b := steady_pure _
  have property {b : Bench ε} {next : Node → Parse ε Operand}
      (h : ∀ node b', Steady span (next node) b') : Steady span (do
        let node ← (do return .identifier (← identifier (.property name)) lookup : Parse ε Node)
        next node) b :=
    ((steady_identifier _).then fun _ _ _ => steady_pure _).then fun _ _ _ => h _ _
  unfold resolveName
  simp only
  split
  · exact property fun _ _ => steady_pure _
  · refine steady_get rfl ?_
    split
    · exact named _
    · split
      · exact named _
      · refine (steady_namedCall? _ _).then fun found _ _ => ?_
        split
        · exact named _
        · exact property fun node _ => named node

theorem steady_complete (o : Operand) :
    Steady span (do pushOperand o; return .operator : Parse ε LexMode) b :=
  (steady_pushOperand o).then fun _ _ _ => steady_pure _

theorem steady_ident (i : Ident) (at_ : Span) :
    Steady span (ident i at_ : Parse ε LexMode) b := by
  have opens {b : Bench ε} (extra : Extra) : Steady span
      (do pushOperator .call at_ extra; return .operand : Parse ε LexMode) b :=
    (steady_pushOperator _ _ _).then fun _ _ _ => steady_pure _
  unfold ident
  simp only
  split
  · exact steady_complete _
  · split
    · exact steady_fail _ _
    · split
      · exact within_error rfl
      · exact steady_complete _
  · refine steady_get rfl ?_
    split
    · exact within_error rfl
    · split
      · exact opens _
      · exact steady_complete _
  · split
    · exact opens _
    · exact (steady_resolveName _ _ _).then fun _ _ _ => steady_complete _

theorem isolated_of_ok {parse : Parse ε Operand} {o : Operand} {b₁ : Bench ε}
    (h : parse { b with operands := .empty, operators := .empty } = .ok o b₁) :
    isolated parse b = .ok o
      { b₁ with operands := b.operands, operators := b.operators,
                tables := b₁.tables.endScope b.tables.scopeMark } := by
  show (parse >>= _) _ = _
  simp only [Bind.bind, EStateM.bind, h]
  rfl

/-- Interpolated sources are parsed on empty stacks. -/
theorem steady_isolated (parse : Parse ε Operand) : Steady span (isolated parse) b := by
  intro o b' ran
  obtain ⟨_, _, ⟨⟩, ran⟩ := exists_of_bind ran
  obtain ⟨_, _, ⟨⟩, ran⟩ := exists_of_bind ran
  obtain ⟨o, b₁, inner, ran⟩ := exists_of_bind ran
  cases ran
  exact ⟨o, isolated_of_ok (b := b.enclosed span) inner, rfl⟩

section Nested

variable {nested : List Char → Nat → Parse ε Operand}

theorem steady_segments (base : Nat) (parts : List Literal.Segment) :
    Steady span (segments nested base parts) b := by
  induction parts generalizing b with
  | nil => exact steady_pure _
  | cons part parts ih =>
    unfold segments
    cases part with
    | text text => exact ih.then fun _ _ _ => steady_pure _
    | expression source place =>
      exact (steady_isolated _).then fun _ _ _ => ih.then fun _ _ _ => steady_pure _
    | name name place =>
      exact (steady_resolveName _ _ _).then fun _ _ _ => ih.then fun _ _ _ => steady_pure _

theorem steady_string (raw : List Char) (doubleQuoted : Bool) (at_ : Span) :
    Steady span (string nested raw doubleQuoted at_) b := by
  refine steady_get rfl ?_
  split
  · split
    · exact within_error rfl
    · exact steady_pure _
    · exact (steady_segments _ _).then fun _ _ _ => steady_pure _
  · split
    · exact within_error rfl
    · exact steady_pure _

/-- An operand is handled inside of the parenthesis as it is outside. -/
theorem steady_operand (kind : TokenKind) (at_ : Span) :
    Steady span (operand nested kind at_) b := by
  cases kind with
  | null | bool | int | double | regex | emptyMap => exact steady_complete _
  | str raw doubleQuoted => exact (steady_string _ _ _).then fun _ _ _ => steady_complete _
  | ident i => exact steady_ident i at_
  | operator symbol =>
    unfold operand
    simp only
    split
    · exact (steady_closeWithoutOperand _ _).then fun _ _ _ => steady_pure _
    · split
      · exact steady_fail _ _
      · exact (steady_pushOperator _ _ _).then fun _ _ _ => steady_pure _
  | comma => exact steady_fail _ _
  | finish =>
    intro mode b' ran
    exact (ends_operand_finish (E := fun _ => True) (Q := fun _ _ => False)
      (fun _ _ => trivial) trivial).ok ran |>.elim

end Nested

end TagExpr.Parse
