import Mathlib.Data.List.TakeWhile
import TagExpr.Proofs.Parse.Closing

/-!
# Operators after an operand

What an operator symbol does to the stacks. Its place in the text and what it takes with it are
those of `operatorReach`. Only a navigation operator with nothing after it finds that the text has
ended.
-/

namespace TagExpr.Parse

variable {ε : Type} {N : Names} {b : Bench ε} {w : List Word}

/-! ## Tokens -/

theorem ofLex_regular (e : LexError) (base : Nat) : Regular (.ofLex e base) := by
  simp [Regular, ParseError.ofLex]

/-- After a navigation operator there is a bare name or the end of the text. -/
theorem member_kind {at_ after : Cursor} {token : Token}
    (h : Token.next .member at_ = .ok (token, after)) :
    token.kind = .finish ∨ ∃ name call, token.kind = .ident { kind := .name name, call } := by
  simp only [Token.next, Token.skip, bind, Except.bind, Token.read] at h
  split at h
  case h_1 =>
    cases h
    exact .inl rfl
  case h_2 =>
    split at h
    case h_1 => cases h
    case h_2 =>
      cases h
      exact .inr ⟨_, _, rfl⟩

/-! ## The tables of operators -/

theorem hasLeft_of_findInfix? {symbol : String} {op : Operator}
    (h : Operator.findInfix? symbol = some op) : op.kind.hasLeft := by
  have hall : ∀ op ∈ Operator.infixTable, op.kind.hasLeft := by decide
  exact hall op (List.mem_of_find?_eq_some h)

theorem operatorReach_plain {symbol : String} {op : Operator} {at_ : Cursor}
    (hcl : Operator.closers.contains symbol = false) (hop : Operator.findInfix? symbol = some op)
    (hnav : ∀ safe, op.kind ≠ .navigate safe) (hstream : ∀ s, op.kind ≠ .stream s) :
    operatorReach symbol at_ = ([], .operand, at_) := by
  unfold operatorReach
  rw [if_neg (by rw [hcl]; simp), hop, Option.map_some]
  split
  case h_1 safe hk => exact absurd (Option.some.inj hk) (hnav safe)
  case h_2 s hk => exact absurd (Option.some.inj hk) (hstream s)
  case h_3 => rfl

theorem operatorReach_of_stream {symbol : String} {op : Operator} {at_ : Cursor} {s : StreamOp}
    (hcl : Operator.closers.contains symbol = false) (hop : Operator.findInfix? symbol = some op)
    (hk : op.kind = .stream s) :
    operatorReach symbol at_ =
      ([], .operand, ((Signature.lambda? at_).map LambdaClause.body).getD at_) := by
  unfold operatorReach
  rw [if_neg (by rw [hcl]; simp), hop, Option.map_some, hk]
  cases Signature.lambda? at_ <;> rfl

theorem operatorReach_of_navigate {symbol : String} {op : Operator} {at_ after : Cursor}
    {safe call : Bool} {name : String} {span : Span}
    (hcl : Operator.closers.contains symbol = false) (hop : Operator.findInfix? symbol = some op)
    (hk : op.kind = .navigate safe)
    (hnext : Token.next .member at_ = .ok (⟨.ident { kind := .name name, call }, span⟩, after)) :
    operatorReach symbol at_ =
      ([.member name call], if call then .operand else .operator, after) := by
  simp only [operatorReach, hcl, hop, hk, hnext, Option.map_some, Bool.false_eq_true, if_false]

/-- What may stand before an operand without one before it, calls apart. -/
theorem opens_of_findPrefix? {symbol : String} {op : Operator}
    (h : Operator.findPrefix? symbol = some op) (N : Names) : Opens N op.kind .plain := by
  have hmem := List.mem_of_find?_eq_some h
  simp only [Operator.prefixTable, List.mem_cons, List.not_mem_nil, or_false] at hmem
  rcases hmem with rfl | rfl | rfl | rfl | rfl | rfl | rfl | rfl
  · exact .group
  · exact .listLiteral
  · exact .setLiteral
  · exact .unary .not
  · exact .unary .negate
  · exact .unary .plus
  · exact .unary .bitNot
  · exact .unary .die

/-! ## Assignments and clauses -/

theorem Stands.peek (h : Stands N .operator b w) :
    ∃ o below, b.operands.toList = o :: below ∧ b.operands.peek? = some o := by
  obtain ⟨o, below, -, -, heq, -⟩ := h.layout.top_value
  exact ⟨o, below, heq, by simp [Stack.peek?, heq]⟩

theorem ends_assignmentTarget {o : Operand} (hd : Describes N b.tables b.scope)
    (ho : b.operands.peek? = some o) (span : Span) :
    Ends (assignmentTarget span) b (fun extra b' => ∃ M, Tabled N M b b' ∧ Target M o extra)
      (fun e _ => Regular e) := by
  simp only [assignmentTarget, ends_bind, ends_get, ho]
  split
  case h_1 slot hn => exact ⟨N, .refl hd, .localVar hn⟩
  case h_2 template slot hn => exact ⟨N, .refl hd, .binding hn⟩
  case h_3 name hname _ _ =>
    obtain ⟨M, hg, hd', hs⟩ := hd.declareLocal name
    rw [ends_bind, ends_withTables, ends_pure]
    exact ⟨M, ⟨hg, hd', rfl, rfl⟩, .declared hname hs⟩
  case h_4 => simp [Regular]

theorem ends_bindingTarget {o : Operand} (hd : Describes N b.tables b.scope)
    (ho : b.operands.peek? = some o) (span : Span) :
    Ends (bindingTarget span) b (fun extra b' => ∃ M, Tabled N M b b' ∧ Target M o extra)
      (fun e _ => Regular e) := by
  simp only [bindingTarget, ends_bind, ends_get]
  split
  case isTrue => simp [Regular]
  case isFalse =>
    simp only [ho]
    split
    case h_1 => simp [Regular]
    case h_2 name hname =>
      obtain ⟨M, hg, hd', hs⟩ := hd.declareBinding name
      exact ⟨M, ⟨hg, hd', rfl, rfl⟩, .bound hname hs⟩

/-- A clause after a streaming operator declares the slot that its elements go into. -/
theorem ends_streamClause (hd : Describes N b.tables b.scope) (at_ : Cursor)
    {E : ParseError → Bench ε → Prop} :
    Ends (streamClause at_) b (fun r b' =>
        r.2 = ((Signature.lambda? at_).map LambdaClause.body).getD at_ ∧
        ∃ M binding mark, Tabled N M b b' ∧ r.1 = .stream binding mark ∧
          ∀ slot ∈ binding, slot < M.slots.length) E := by
  simp only [streamClause, ends_bind, ends_get]
  split
  case h_1 hl => exact ⟨by simp [hl], N, none, _, .refl hd, rfl, by simp⟩
  case h_2 clause hl =>
    obtain ⟨M, hg, hd', hs⟩ := hd.declareLocal clause.name
    refine ⟨by simp [hl], M, some _, _, ⟨hg, hd', rfl, rfl⟩, rfl, ?_⟩
    intro slot hslot
    cases hslot
    exact (List.getElem?_eq_some_iff.mp hs).1

/-! ## Waiting operators -/

/-- An operator that takes the complete operand on its left starts to wait. -/
theorem Stands.follows (h : Stands N .operator b w) {M : Names} {b₁ : Bench ε}
    (ht : Tabled N M b b₁) {o : Operand} {below : List Operand}
    (ho : b.operands.toList = o :: below) {op : Operator} {extra : Extra} (span : Span)
    (hf : Follows M o op.kind extra)
    (hc : op.kind = .colon → InCollection b.operators.toList)
    {v : List Word} (hv : v = Pending.words { op, span, base := b₁.operands.size, extra }) :
    Stands M .operand
      { b₁ with operators := b₁.operators.push { op, span, base := b₁.operands.size, extra } }
      (w ++ v) := by
  refine ⟨ht.describes, ?_⟩
  have hl := (ho ▸ h.layout).mono ht.grows
  simp only [Stack.toList_push, ht.operands, ht.operators, ho, hv]
  refine .follows hl hf ?_ rfl hc
  simp [Stack.size, ho]

/-! ## Navigation and colons -/

/-- Nothing but blanks follows a navigation operator. -/
def EndsAfterNavigation (symbol : String) (base : Nat) (at_ : Cursor) (e : ParseError) : Prop :=
  ∃ safe token after, (Operator.findInfix? symbol).map Operator.kind = some (.navigate safe) ∧
    Token.next .member at_ = .ok (token, after) ∧ token.kind = .finish ∧
    e = ⟨.unexpectedEnd, token.span.shift base⟩

theorem Stands.navigate (h : Stands N .operator b w) {symbol : String} {op : Operator}
    {safe : Bool} (hop : Operator.findInfix? symbol = some op) (hk : op.kind = .navigate safe)
    (hcl : Operator.closers.contains symbol = false) (span : Span) (base : Nat) (at_ : Cursor) :
    Ends (navigate safe span base at_) b
      (fun r b' => r = (operatorReach symbol at_).2 ∧
        ∃ M, N.Grows M ∧ Stands M r.1 b' (w ++ (operatorReach symbol at_).1))
      (fun e _ => Regular e ∨ EndsAfterNavigation symbol base at_ e) := by
  obtain ⟨o, below, u, v, hops, rfl, hl, hd, -⟩ := h.layout.top_value
  unfold Parse.navigate
  rw [ends_bind, ends_readToken]
  cases hnext : Token.next .member at_ with
  | error e => exact .inl (ofLex_regular e base)
  | ok r =>
    obtain ⟨⟨kind, memberSpan⟩, after⟩ := r
    rcases member_kind hnext with hfin | ⟨name, call, hname⟩
    · cases hfin
      exact .inr ⟨safe, _, _, by simp [hop, hk], hnext, rfl, rfl⟩
    · cases hname
      rw [operatorReach_of_navigate hcl hop hk hnext]
      cases call with
      | true =>
        simp only [if_true, ends_bind, ends_pushOperator, ends_pure]
        exact ⟨trivial, N, .refl N, h.follows (.refl h.describes) hops _
          (.methodCall name safe) (by simp [Operator.call]) rfl⟩
      | false =>
        have hf : floorOf b.operators.toList ≤ below.length := by
          have := h.layout.floor_le
          simp only [hops, List.length_cons] at this
          simpa using this
        simp only [Bool.false_eq_true, if_false]
        rw [ends_bind, ends_popValue (by rw [← hops]) hf]
        split
        case isTrue => exact .inl (by simp [Regular])
        case isFalse hp =>
          rw [ends_bind]
          refine (ends_identifier (b := { b with operands := ⟨below⟩ }) h.describes _).mono ?_
            fun _ _ he => he
          rintro ident b' ⟨M, ht, hi⟩
          refine ⟨rfl, M, ht.grows, ht.describes, ?_⟩
          have hmember := Derives.member safe (o.span.merge (memberSpan.shift base))
            (hd.mono ht.grows) (by simpa using hp) hi
          have hl' := Layout.value (hl.mono ht.grows) hmember
            (by simp [Operand.isPair, Operand.object])
          simpa [ht.operands, ht.operators] using hl'

/-- If there is an open question mark down to some place, the innermost one is the first that is
left when all others above it have been applied. -/
theorem exists_openTernary {l : List Pending} {q : Pending → Bool}
    (h : (l.takeWhile q).any isOpenTernary) :
    ∃ p ps, l.dropWhile (!isOpenTernary ·) = p :: ps ∧ p.op.kind = .ternary ∧ p.extra = .plain := by
  obtain ⟨p, hp, hopen⟩ := List.any_eq_true.mp h
  have hne : l.dropWhile (!isOpenTernary ·) ≠ [] := by
    intro hnil
    have := List.dropWhile_eq_nil_iff.mp hnil p ((List.takeWhile_sublist _).mem hp)
    simp [hopen] at this
  obtain ⟨q, qs, hq⟩ := List.exists_cons_of_ne_nil hne
  have hqopen : isOpenTernary q := by
    simpa [hq] using List.head_dropWhile_not _ hne
  simp only [isOpenTernary, Bool.and_eq_true, decide_eq_true_eq] at hqopen
  exact ⟨q, qs, hq, hqopen.1, hqopen.2⟩

theorem Stands.colon (h : Stands N .operator b w) {op : Operator} (hk : op.kind = .colon)
    (span : Span) :
    Ends (colon op span) b (fun _ b' => Stands N .operand b' w) (fun e _ => Regular e) := by
  unfold Parse.colon Parse.reduceFor
  rw [ends_bind]
  refine (h.reduceWhile _).mono ?_ fun _ _ he => he
  rintro _ b₁ ⟨hs, -⟩
  rw [ends_bind, ends_get]
  simp only
  split
  case isTrue hany =>
    -- The innermost open question mark of the region comes to the top and gets its colon.
    rw [ends_bind]
    refine (hs.reduceWhile _).mono ?_ fun _ _ he => he
    rintro _ b₂ ⟨hs', hops⟩
    obtain ⟨q, qs, hq, hkind, hextra⟩ := exists_openTernary hany
    rw [hq] at hops
    rw [ends_modify]
    refine ⟨hs'.describes, ?_⟩
    have hl : Layout N .operator b₂.operands.toList (q :: qs) w := by
      simpa [hops] using hs'.layout
    simpa [hops] using Layout.colonSeen hl hkind hextra
  case isFalse =>
    split
    case h_2 => simp [Regular]
    case h_1 container hfind =>
      split
      case isFalse => simp [Regular]
      case isTrue hcoll =>
        obtain ⟨o, below, ho, -⟩ := hs.peek
        rw [ends_pushOperator]
        have hw : Pending.words { op, span, base := b₁.operands.size } = [] := rfl
        have hfollows : Follows N o op.kind .plain := by
          rw [hk]
          exact .colon
        simpa [hw] using hs.follows (.refl hs.describes) ho span hfollows
          (fun _ => ⟨container, hfind, hcoll⟩) rfl

/-! ## Any operator -/

/-- The operator waits for its second operand, which begins at `after`. -/
theorem Stands.wait (h : Stands N .operator b w) {M : Names} {b₁ : Bench ε} (ht : Tabled N M b b₁)
    {o : Operand} {below : List Operand} (ho : b.operands.toList = o :: below) {op : Operator}
    {extra : Extra} {span : Span} (hf : Follows M o op.kind extra) (hcolon : op.kind ≠ .colon)
    (hwords : ∀ base : Nat, Pending.words { op, span, base, extra } = []) {after : Cursor}
    {reach : List Word × LexMode × Cursor} (hreach : reach = ([], .operand, after))
    {E : ParseError → Bench ε → Prop} :
    Ends (do
      pushOperator op span extra
      return (LexMode.operand, after)) b₁
      (fun r b' => r = reach.2 ∧ ∃ M, N.Grows M ∧ Stands M r.1 b' (w ++ reach.1)) E := by
  subst hreach
  rw [ends_bind, ends_pushOperator, ends_pure]
  exact ⟨rfl, M, ht.grows,
    h.follows ht ho span hf (fun hk => absurd hk hcolon) (hwords _).symm⟩

/-- What an assignment or a binding assigns to is not a word of its own. -/
theorem Target.words {o : Operand} {p : Pending} (h : Target N o p.extra) : p.words = [] := by
  unfold Pending.words
  generalize p.extra = extra at h
  cases h <;> cases p.op.kind <;> rfl

/-- An operator symbol after an operand reaches as far as its symbol says. -/
theorem Stands.operator (h : Stands N .operator b w) (symbol : String) (span : Span) (base : Nat)
    (at_ : Cursor) :
    Ends (operator symbol span base at_) b
      (fun r b' => r = (operatorReach symbol at_).2 ∧
        ∃ M, N.Grows M ∧ Stands M r.1 b' (w ++ (operatorReach symbol at_).1))
      (fun e _ => Regular e ∨ EndsAfterNavigation symbol base at_ e) := by
  unfold Parse.operator
  cases hcl : Operator.closers.contains symbol with
  | true =>
    have hreach : operatorReach symbol at_ = ([], .operator, at_) := by
      simp only [operatorReach, hcl, if_true]
    rw [if_pos rfl, ends_bind, hreach]
    refine (h.close symbol span).mono ?_ fun _ _ he => .inl he
    rintro _ b' ⟨M, hg, hs⟩
    exact ⟨rfl, M, hg, by simpa using hs⟩
  | false =>
    rw [if_neg (by simp)]
    cases hop : Operator.findInfix? symbol with
    | none => exact .inl (by simp [Regular])
    | some op =>
      have hleft := hasLeft_of_findInfix? hop
      simp only
      split
      case h_1 safe hk => exact h.navigate hop hk hcl span base at_
      case h_2 hk =>
        rw [ends_bind, operatorReach_plain hcl hop (by simp [hk]) (by simp [hk])]
        refine (h.colon hk span).mono ?_ fun _ _ he => .inl he
        intro _ b' hs
        exact ⟨rfl, N, .refl N, by simpa using hs⟩
      case h_3 hnav hcolon =>
        rw [reduceFor, ends_bind]
        refine (h.reduceWhile _).mono ?_ fun _ _ he => .inl he
        rintro _ b₁ ⟨hs, -⟩
        obtain ⟨o, below, ho, hpeek⟩ := hs.peek
        -- Tighter operators are applied; this one waits, with what its kind keeps beside it.
        cases hk : op.kind with
        | group | listLiteral | setLiteral | call | unary => simp [hk, OpKind.hasLeft] at hleft
        | navigate safe => exact absurd hk (hnav safe)
        | colon => exact absurd hk hcolon
        | assign =>
          simp only [pure_bind]
          rw [ends_bind]
          refine (ends_assignmentTarget hs.describes hpeek span).mono ?_ fun _ _ he => .inl he
          rintro extra b₂ ⟨M, ht, htarget⟩
          exact hs.wait ht ho (by rw [hk]; exact .assign htarget) hcolon (fun _ => htarget.words)
            (operatorReach_plain hcl hop (by simp [hk]) (by simp [hk]))
        | bind =>
          simp only [pure_bind]
          rw [ends_bind]
          refine (ends_bindingTarget hs.describes hpeek span).mono ?_ fun _ _ he => .inl he
          rintro extra b₂ ⟨M, ht, htarget⟩
          exact hs.wait ht ho (by rw [hk]; exact .bind htarget) hcolon (fun _ => htarget.words)
            (operatorReach_plain hcl hop (by simp [hk]) (by simp [hk]))
        | stream s =>
          simp only
          rw [ends_bind]
          refine (ends_streamClause hs.describes at_).mono ?_ fun _ _ he => .inl he
          rintro ⟨extra, after⟩ b₂ ⟨hafter, M, binding, mark, ht, rfl, hslot⟩
          refine hs.wait ht ho (by rw [hk]; exact .stream s mark hslot) hcolon (fun _ => rfl) ?_
          rw [operatorReach_of_stream hcl hop hk, hafter]
        | binary s =>
          exact hs.wait (.refl hs.describes) ho (by rw [hk]; exact .binary s) hcolon (fun _ => rfl)
            (operatorReach_plain hcl hop (by simp [hk]) (by simp [hk]))
        | ternary =>
          exact hs.wait (.refl hs.describes) ho (by rw [hk]; exact .ternary) hcolon (fun _ => rfl)
            (operatorReach_plain hcl hop (by simp [hk]) (by simp [hk]))
        | sequence =>
          exact hs.wait (.refl hs.describes) ho (by rw [hk]; exact .sequence) hcolon (fun _ => rfl)
            (operatorReach_plain hcl hop (by simp [hk]) (by simp [hk]))
        | lookup safe =>
          exact hs.wait (.refl hs.describes) ho (by rw [hk]; exact .lookup safe) hcolon
            (fun _ => rfl)
            (operatorReach_plain hcl hop (by simp [hk]) (by simp [hk]))

end TagExpr.Parse
