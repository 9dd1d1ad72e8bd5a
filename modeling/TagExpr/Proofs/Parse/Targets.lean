import TagExpr.Proofs.Parse.Grouping
import TagExpr.Proofs.Parse.Trails

/-!
# What is assigned to

The target of an assignment is a bare name that stands by itself: the last token before the operator
is that name, and no operator that binds tighter waits for it. Whether it does is read off the
tokens alone (`endsInName`), as the trail of a round tells what waits on top of its stacks
(`Traced`). What is left of any other text before the operator is an operand without a name
(`Built.unnamed`), which `=` overlooks where it still reads the slot of the one name in it.
-/

namespace TagExpr

/-- It reads a local or a template binding. -/
def Node.isSlot : Node → Bool
  | .localVar _ | .binding .. => true
  | _ => false

/-- It is one of the operators that assign. -/
def Operator.isAssignment (op : Operator) : Bool :=
  infixTable.contains op && (op.kind == .assign || op.kind == .bind)

namespace Parse

variable {ε : Type} {N : Names} {w : List Word} {b b' : Bench ε} {op : Operator}
  {kind : TokenKind} {kinds : List TokenKind} {o : Operand} {p : Pending} {ps : List Pending}
  {symbol : String} {span : Span} {base : Nat} {at_ : Cursor}

/-! ## Targets by their tokens -/

/-- The name that the token is, if it is one without marks before it and arguments behind it. -/
def bareName? : TokenKind → Option String
  | .ident ⟨.name name, .unstated, false⟩ => some name
  | _ => none

/-- The token stands for an operator that waits for an operand and is applied before `op` waits. -/
def bindsTighter (op : Operator) : TokenKind → Bool
  | .operator symbol => (Operator.prefixTable ++ Operator.infixTable).any fun row =>
      row.symbol == symbol && !row.kind.isNavigation && row.yieldsTo op
  | _ => false

/-- The tokens, of which the last comes first, end in a bare name that no tighter operator takes. -/
def endsInName (op : Operator) : List TokenKind → Bool
  | [] => false
  | kind :: before => (bareName? kind).isSome && !before.head?.any (bindsTighter op)

/-- The operator takes the operand for a target although it is no name: it is a parenthesis around a
name, or an entry whose key is one, and the name has a slot. -/
def overlooked (op : Operator) (kinds : List TokenKind) (target : Operand) : Bool :=
  op.kind == .assign && target.node.isSlot &&
    (kinds.head? == some (.operator ")") || target.isPair)

/-! ## The tables of operators -/

theorem eq_of_isAssignment (hop : op.isAssignment) :
    op = ⟨"=", 17, .right, .assign⟩ ∨ op = ⟨":=", 17, .right, .bind⟩ := by
  have hall : ∀ op ∈ Operator.infixTable, op.kind = .assign ∨ op.kind = .bind →
      op = ⟨"=", 17, .right, .assign⟩ ∨ op = ⟨":=", 17, .right, .bind⟩ := by decide
  rw [Operator.isAssignment, Bool.and_eq_true, Bool.or_eq_true, beq_iff_eq, beq_iff_eq] at hop
  exact hall op (List.mem_of_elem_eq_true hop.1) hop.2

theorem findInfix?_of_isAssignment (hop : op.isAssignment) :
    Operator.findInfix? op.symbol = some op ∧ Operator.closers.contains op.symbol = false ∧
      (op.kind = .assign ∨ op.kind = .bind) := by
  rcases eq_of_isAssignment hop with rfl | rfl <;> decide +kernel

/-- What has been read of a waiting operator tells whether it is applied first. -/
theorem bindsTighter_of_mem {row : Operator} (hop : op.isAssignment)
    (hrow : row ∈ Operator.prefixTable ++ Operator.infixTable)
    (hnav : row.kind.isNavigation = false) :
    bindsTighter op (.operator row.symbol) = row.yieldsTo op := by
  rcases eq_of_isAssignment hop with rfl | rfl <;> revert row <;> decide +kernel

/-- A navigation operator does not wait. -/
theorem bindsTighter_of_navigation {row : Operator} (hop : op.isAssignment)
    (hrow : row ∈ Operator.infixTable) (hnav : row.kind.isNavigation) :
    bindsTighter op (.operator row.symbol) = false := by
  rcases eq_of_isAssignment hop with rfl | rfl <;> revert row <;> decide +kernel

theorem yieldsTo_of_ternary {row : Operator} (hop : op.isAssignment)
    (hrow : row ∈ Operator.infixTable) (hk : row.kind = .ternary ∨ row.kind = .colon) :
    row.yieldsTo op := by
  rcases eq_of_isAssignment hop with rfl | rfl <;> revert row <;> decide +kernel

/-! ## What the tokens tell of the stacks -/

/-- The operator that waits on top is applied before `op` waits. -/
def topYields (op : Operator) (ps : List Pending) : Bool := ps.head?.any (·.op.yieldsTo op)

/-- The operand that ends in a token of that kind: it has a name if it is that token and a bare
name, and without a name it reads a slot only if it is a parenthesis. -/
structure Shows (kind : TokenKind) (o : Operand) : Prop where
  name : o.name = bareName? kind
  slot : o.name = none → o.node.isSlot → kind = .operator ")"

/-- What the tokens that have been read, the last one first, tell of the stacks. -/
structure Traced (op : Operator) (kinds : List TokenKind) (mode : LexMode)
    (b : Bench ε) : Prop where
  questions : ∀ p ∈ b.operators.toList, p.op.kind = .ternary → p.op ∈ Operator.infixTable
  waits : mode = .operand →
    topYields op b.operators.toList = kinds.head?.any (bindsTighter op)
  shows : mode = .operator → ∃ kind before, kinds = kind :: before ∧
    (∃ o ∈ b.operands.peek?, Shows kind o) ∧
    ((bareName? kind).isSome →
      topYields op b.operators.toList = before.head?.any (bindsTighter op))

/-- An operand has been completed; a bare name leaves all that waits. -/
theorem Traced.value {mode : LexMode} (h : Traced op kinds mode b)
    (hps : ∀ p ∈ b'.operators.toList, p ∈ b.operators.toList) (ho : b'.operands.peek? = some o)
    (hshows : Shows kind o)
    (hbare : (bareName? kind).isSome → mode = .operand ∧ b'.operators = b.operators) :
    Traced op (kind :: kinds) .operator b' := by
  refine ⟨fun p hp => h.questions p (hps p hp), nofun, fun _ => ?_⟩
  refine ⟨kind, kinds, rfl, ⟨o, ho, hshows⟩, fun hname => ?_⟩
  obtain ⟨hmode, heq⟩ := hbare hname
  rw [heq]
  exact h.waits hmode

/-- An operator has begun to wait. -/
theorem Traced.wait {mode : LexMode} (h : Traced op kinds mode b)
    (hps : b'.operators.toList = p :: ps) (hbelow : ∀ q ∈ ps, q ∈ b.operators.toList)
    (hp : p.op.kind = .ternary → p.op ∈ Operator.infixTable)
    (htop : p.op.yieldsTo op = bindsTighter op kind) : Traced op (kind :: kinds) .operand b' := by
  refine ⟨?_, fun _ => ?_, nofun⟩
  · rw [hps]
    intro q hq
    rcases List.mem_cons.mp hq with rfl | hq
    · exact hp
    · exact h.questions q (hbelow q hq)
  · rw [hps]
    simpa [topYields] using htop

/-! ## Operands -/

theorem Shows.plain (hk : bareName? kind = none) (hname : o.name = none)
    (hslot : o.node.isSlot = false) : Shows kind o :=
  ⟨hname.trans hk.symm, fun _ h => absurd h (by simp [hslot])⟩

theorem Simple.shows {name : String} {lookup : Lookup} (h : Simple N o (.name lookup name false)) :
    Shows (.ident ⟨.name name, lookup, false⟩) o := by
  cases h with
  | property span hl hi =>
    refine .plain ?_ rfl rfl
    cases lookup with
    | unstated => exact absurd rfl hl
    | _ => rfl
  | bare span hb => exact ⟨rfl, nofun⟩

theorem Callee.isSlot {name : String} {args : List Node} {node : Node}
    (h : Callee N name args node) : node.isSlot = false := by
  cases h <;> rfl

theorem isSlot_collection? {kind : OpKind} {elements : List Operand} {node : Node}
    (h : collection? kind elements = some node) : node.isSlot = false := by
  unfold collection? at h
  split at h
  · cases h
    split <;> rfl
  · split at h <;> cases h
    rfl

/-- What a closer makes has no name, and reads a slot only if it closes a parenthesis. -/
theorem Closed.shows {receivers elements : List Operand} {close : Span}
    (h : Closed N p close receivers elements o) (hcloser : p.op.kind.closer? = some symbol) :
    Shows (.operator symbol) o := by
  cases h with
  | group hk =>
    refine ⟨rfl, fun _ _ => ?_⟩
    rw [hk] at hcloser
    cases hcloser
    rfl
  | collection _ hnode => exact .plain rfl rfl (isSlot_collection? hnode)
  | named _ _ hcallee => exact .plain rfl rfl hcallee.isSlot
  | _ => exact .plain rfl rfl rfl

/-- An interpolated or plain text reads no slot by itself. -/
theorem answers_string {nested : List Char → Nat → Parse ε Operand} (raw : List Char)
    (doubleQuoted : Bool) (span : Span) :
    Answers (fun o => o.name = none ∧ o.node.isSlot = false)
      (string nested raw doubleQuoted span) := by
  unfold string
  refine (answers_any _).bind fun b _ => ?_
  split
  · split
    · exact answers_throw _ _
    · exact answers_pure ⟨rfl, rfl⟩
    · exact (answers_any _).bind fun _ _ => answers_pure ⟨rfl, rfl⟩
  · split
    · exact answers_throw _ _
    · exact answers_pure ⟨rfl, rfl⟩

/-- A closer takes the innermost container and what waits above it away. -/
theorem Traced.ends_close {mode : LexMode} (h : Traced op kinds mode b)
    (hready : Ends reduceToContainer b
      (fun _ b' => Ready N b' w ∧ ∀ p ∈ b'.operators.toList, p ∈ b.operators.toList)
      (fun e _ => Regular e)) :
    Ends (close symbol span) b (fun _ b' => Traced op (.operator symbol :: kinds) .operator b')
      (fun e _ => Regular e) := by
  refine (ends_closeTop hready).mono ?_ fun _ _ he => he
  rintro _ b'' ⟨b', c, ps, receivers, elements, rest, u, v', v, hbelow, hcloser, -, hcloses⟩
  obtain ⟨-, M, b₁, o, hlooked, hclosed, rfl⟩ := hcloses.closes
  refine h.value ?_ rfl (hclosed.shows hcloser) nofun
  rw [show b₁.operators = ⟨ps⟩ from hlooked.operators]
  intro p hp
  exact hbelow p (by rw [hcloses.operators]; exact List.mem_cons_of_mem _ hp)

section Operand

variable (h : Stands N .operand b w) (ht : Traced op kinds .operand b)

include ht

theorem Traced.ends_value (o : Operand) (hshows : Shows kind o) :
    Ends (do pushOperand o; return (LexMode.operator) : Parse ε LexMode) b
      (fun mode b' => Traced op (kind :: kinds) mode b') (fun _ _ => True) := by
  rw [ends_bind, ends_pushOperand, ends_pure]
  exact ht.value (fun _ hp => hp) rfl hshows fun _ => ⟨rfl, rfl⟩

include h

theorem Stands.traced_ident (i : Ident) :
    Ends (Parse.ident i span) b (fun mode b' => Traced op (.ident i :: kinds) mode b')
      (fun _ _ => True) := by
  -- The head of a call waits for its closer.
  have opens (extra : Extra) (i : Ident) :
      Ends (do pushOperator .call span extra; return .operand : Parse ε LexMode) b
        (fun mode b' => Traced op (.ident i :: kinds) mode b') (fun _ _ => True) := by
    rw [ends_bind, ends_pushOperator, ends_pure]
    exact ht.wait rfl (fun _ hq => hq) nofun rfl
  obtain ⟨kind, lookup, call⟩ := i
  unfold Parse.ident
  cases kind with
  | current levels => exact ht.ends_value _ (.plain rfl rfl rfl)
  | internal name =>
    simp only
    split
    case h_1 => trivial
    case h_2 =>
      cases call with
      | true => trivial
      | false => exact ht.ends_value _ (.plain rfl rfl rfl)
  | annotated name =>
    simp only [ends_bind, ends_get]
    split
    case isTrue => trivial
    case isFalse =>
      cases call with
      | true => exact opens _ _
      | false => exact ht.ends_value _ (.plain rfl rfl rfl)
  | name name =>
    cases call with
    | true => exact opens _ _
    | false =>
      simp only [Bool.false_eq_true, if_false]
      rw [ends_bind]
      refine (ends_resolveName h.describes name lookup span).mono ?_ fun _ _ he => he
      rintro o b₁ ⟨M, hlooked, -, hsimple⟩
      rw [ends_bind, ends_pushOperand, ends_pure]
      refine ht.value (o := o) ?_ rfl hsimple.shows fun _ => ⟨rfl, hlooked.operators⟩
      simp only [hlooked.operators]
      exact fun _ hp => hp

/-- A token in operand position, with the stacks that it leaves. -/
theorem Stands.traced_operand (hop : op.isAssignment) {nested : List Char → Nat → Parse ε Operand}
    (hstring : ∀ raw doubleQuoted, kind = .str raw doubleQuoted →
      Ends (string nested raw doubleQuoted span) b (fun _ b' => b'.operators = b.operators)
        (fun _ _ => True)) :
    Ends (Parse.operand nested kind span) b (fun mode b' => Traced op (kind :: kinds) mode b')
      (fun _ _ => True) := by
  unfold Parse.operand
  cases kind with
  | null | bool | int | double | regex | emptyMap => exact ht.ends_value _ (.plain rfl rfl rfl)
  | str raw doubleQuoted =>
    simp only
    rw [ends_bind]
    refine ((hstring raw doubleQuoted rfl).and (answers_string raw doubleQuoted span b)).mono ?_
      fun _ _ _ => trivial
    rintro o b₁ ⟨hops, hname, hslot⟩
    rw [ends_bind, ends_pushOperand, ends_pure]
    refine ht.value (o := o) ?_ rfl (.plain rfl hname hslot) fun _ => ⟨rfl, hops⟩
    simp only [hops]
    exact fun _ hp => hp
  | ident i => exact h.traced_ident ht i
  | operator symbol =>
    simp only
    cases hcl : Operator.closers.contains symbol with
    | true =>
      rw [if_pos rfl, ends_bind]
      refine (h.ends_closeWithoutOperand fun hready => ?_).mono (fun _ _ hp => hp)
        fun _ _ _ => trivial
      have htop : Ends reduceToContainer b
          (fun _ b' => Ready N b' w ∧ ∀ p ∈ b'.operators.toList, p ∈ b.operators.toList)
          (fun e _ => Regular e) := by
        refine hready.mono ?_ fun _ _ he => he
        rintro _ b' ⟨hready, heq⟩
        exact ⟨hready, fun _ hp => heq ▸ hp⟩
      exact ht.ends_close htop
    | false =>
      rw [if_neg (by simp)]
      cases hrow : Operator.findPrefix? symbol with
      | none => trivial
      | some row =>
        have hmem := List.mem_of_find?_eq_some hrow
        have hnav : row.kind.isNavigation = false := by
          have hall : ∀ row ∈ Operator.prefixTable, row.kind.isNavigation = false := by decide
          exact hall row hmem
        have hternary : row.kind ≠ .ternary := by
          have hall : ∀ row ∈ Operator.prefixTable, row.kind ≠ .ternary := by decide
          exact hall row hmem
        have htight := bindsTighter_of_mem hop (List.mem_append_left _ hmem) hnav
        rw [Operator.findPrefix?_symbol hrow] at htight
        simp only
        rw [ends_bind, ends_pushOperator, ends_pure]
        exact ht.wait rfl (fun _ hq => hq) (fun hk => absurd hk hternary) htight.symm
  | comma => trivial
  | finish =>
    simp only [ends_bind, ends_get]
    split <;> trivial

end Operand

/-! ## Operators after an operand -/

theorem Stands.ends_reduceWhile_sublist (h : Stands N .operator b w) (q : Pending → Bool) :
    Ends (Parse.reduceWhile q) b
      (fun _ b' => Stands N .operator b' w ∧
        ∀ p ∈ b'.operators.toList, p ∈ b.operators.toList) (fun e _ => Regular e) := by
  refine (h.reduceWhile q).mono ?_ fun _ _ he => he
  rintro _ b' ⟨hs, hops⟩
  refine ⟨hs, fun p hp => ?_⟩
  rw [hops] at hp
  exact (List.dropWhile_sublist _).mem hp

theorem Stands.traced_close (h : Stands N .operator b w) (ht : Traced op kinds .operator b) :
    Ends (Parse.close symbol span) b
      (fun _ b' => Traced op (.operator symbol :: kinds) .operator b') (fun e _ => Regular e) := by
  have htop : Ends reduceToContainer b
      (fun _ b' => Ready N b' w ∧ ∀ p ∈ b'.operators.toList, p ∈ b.operators.toList)
      (fun e _ => Regular e) := by
    refine (h.ready.and (h.ends_reduceWhile_sublist _)).mono ?_ fun _ _ he => he.1
    rintro _ b' ⟨hready, -, hbelow⟩
    exact ⟨hready, hbelow⟩
  exact ht.ends_close htop

theorem Stands.traced_comma (h : Stands N .operator b w) (ht : Traced op kinds .operator b) :
    Ends (Parse.comma span) b (fun _ b' => Traced op (.comma :: kinds) .operand b')
      (fun _ _ => True) := by
  unfold Parse.comma
  rw [ends_bind]
  refine (h.ends_reduceWhile_sublist _).mono ?_ fun _ _ _ => trivial
  rintro _ b' ⟨-, hbelow⟩
  rw [ends_bind, ends_get]
  cases hps : b'.operators.toList with
  | nil =>
    have hpeek : b'.operators.peek? = none := by simp [Stack.peek?, hps]
    simp [hpeek]
  | cons c below =>
    have hpeek : b'.operators.peek? = some c := by simp [Stack.peek?, hps]
    simp only [hpeek]
    split
    case isTrue => trivial
    case isFalse hv =>
      split
      case isTrue => trivial
      case isFalse =>
        have hc : c.op.kind.isContainer := isContainer_of_isVariadic (by simpa using hv)
        rw [ends_set]
        have htop : (b'.operators.modifyAt 0 fun c => { c with commas := c.commas + 1 }).toList =
            { c with commas := c.commas + 1 } :: below := by simp [hps]
        refine ht.wait htop ?_ ?_ ?_
        · intro q hq
          exact hbelow q (by rw [hps]; exact List.mem_cons_of_mem _ hq)
        · intro hk
          exact ht.questions c (hbelow c (by rw [hps]; exact List.mem_cons_self)) hk
        · exact Operator.yieldsTo_container hc

/-- A colon makes an entry, or turns a question mark into an operator that binds as tightly. -/
theorem Stands.traced_colon (h : Stands N .operator b w) (ht : Traced op kinds .operator b)
    (hop : op.isAssignment) {row : Operator} (hrow : Operator.findInfix? symbol = some row)
    (hk : row.kind = .colon) :
    Ends (Parse.colon row span) b (fun _ b' => Traced op (.operator symbol :: kinds) .operand b')
      (fun _ _ => True) := by
  have hmem := List.mem_of_find?_eq_some hrow
  have htight := bindsTighter_of_mem hop (List.mem_append_right _ hmem) (by rw [hk]; rfl)
  rw [Operator.findInfix?_symbol hrow] at htight
  unfold Parse.colon Parse.reduceFor
  rw [ends_bind]
  refine (h.ends_reduceWhile_sublist _).mono ?_ fun _ _ _ => trivial
  rintro _ b₁ ⟨hs, hbelow⟩
  rw [ends_bind, ends_get]
  simp only
  split
  case isTrue hany =>
    rw [ends_bind]
    refine (hs.reduceWhile _).mono ?_ fun _ _ _ => trivial
    rintro _ b₂ ⟨-, hops⟩
    obtain ⟨q, qs, hq, hkind, -⟩ := exists_openTernary hany
    have hsub (p : Pending) (hp : p ∈ q :: qs) : p ∈ b.operators.toList :=
      hbelow p ((List.dropWhile_sublist _).mem (hq ▸ hp))
    rw [hq] at hops
    rw [ends_modify]
    have hquestion := ht.questions q (hsub q List.mem_cons_self) hkind
    have htop : (b₂.operators.modifyAt 0 ({ · with extra := .colonSeen })).toList =
        { q with extra := .colonSeen } :: qs := by simp [hops]
    refine ht.wait htop ?_ ?_ ?_
    · exact fun p hp => hsub p (List.mem_cons_of_mem _ hp)
    · exact fun _ => hquestion
    · rw [htight, yieldsTo_of_ternary hop hquestion (.inl hkind),
        yieldsTo_of_ternary hop hmem (.inr hk)]
  case isFalse =>
    split
    case h_2 => trivial
    case h_1 =>
      split
      case isFalse => trivial
      case isTrue =>
        rw [ends_pushOperator]
        exact ht.wait rfl hbelow (fun _ => hmem) htight.symm

/-- The name after a navigation operator is an operand together with the receiver, or the head of a
call. -/
theorem Traced.ends_navigate (ht : Traced op kinds .operator b) (hop : op.isAssignment)
    {row : Operator} {safe : Bool} (hrow : Operator.findInfix? symbol = some row)
    (hk : row.kind = .navigate safe) :
    Ends (navigate safe span base at_) b
      (fun r b' => Traced op (.operator symbol :: kinds) r.1 b') (fun _ _ => True) := by
  have hloose := bindsTighter_of_navigation hop (List.mem_of_find?_eq_some hrow) (by rw [hk]; rfl)
  rw [Operator.findInfix?_symbol hrow] at hloose
  unfold navigate
  rw [ends_bind, ends_readToken]
  cases hnext : Token.next .member at_ with
  | error e => trivial
  | ok r =>
    obtain ⟨⟨kind, memberSpan⟩, after⟩ := r
    rcases member_kind hnext with hfinish | ⟨name, call, hname⟩
    · cases hfinish
      trivial
    · cases hname
      cases call with
      | true =>
        simp only [if_true, ends_bind, ends_pushOperator, ends_pure]
        exact ht.wait rfl (fun _ hq => hq) (fun hk => by cases hk) hloose.symm
      | false =>
        simp only [Bool.false_eq_true, if_false]
        rw [ends_bind]
        refine (ends_popValue_operators _).mono ?_ fun _ _ _ => trivial
        intro receiver b' hops
        rw [ends_bind, identifier, ends_withTables, ends_bind, ends_pushOperand, ends_pure]
        refine ht.value ?_ rfl (.plain rfl rfl rfl) fun hname => by cases hname
        simp only [hops]
        exact fun _ hp => hp

/-- An operator symbol after an operand, with the stacks that it leaves. -/
theorem Stands.traced_operator (h : Stands N .operator b w) (ht : Traced op kinds .operator b)
    (hop : op.isAssignment) :
    Ends (Parse.operator symbol span base at_) b
      (fun r b' => Traced op (.operator symbol :: kinds) r.1 b') (fun _ _ => True) := by
  unfold Parse.operator
  cases hcl : Operator.closers.contains symbol with
  | true =>
    rw [if_pos rfl, ends_bind]
    exact (h.traced_close ht).mono (fun _ _ hp => hp) fun _ _ _ => trivial
  | false =>
    rw [if_neg (by simp)]
    cases hrow : Operator.findInfix? symbol with
    | none => trivial
    | some row =>
      have hmem := List.mem_of_find?_eq_some hrow
      simp only
      split
      case h_1 safe hk => exact ht.ends_navigate hop hrow hk
      case h_2 hk =>
        rw [ends_bind]
        exact (h.traced_colon ht hop hrow hk).mono (fun _ _ hp => hp) fun _ _ _ => trivial
      case h_3 hnav hcolon =>
        have htight := bindsTighter_of_mem hop (List.mem_append_right _ hmem) (by
          cases hk : row.kind with
          | navigate safe => exact absurd hk (hnav safe)
          | _ => rfl)
        rw [Operator.findInfix?_symbol hrow] at htight
        rw [reduceFor, ends_bind]
        refine (h.ends_reduceWhile_sublist _).mono ?_ fun _ _ _ => trivial
        rintro _ b₁ ⟨hs, hbelow⟩
        obtain ⟨o, below, -, hpeek⟩ := hs.peek
        -- Whatever is settled before the operator waits, the operators below it stay.
        have wait {b₂ : Bench ε} (hops : b₂.operators = b₁.operators) (extra : Extra)
            (after : Cursor) : Ends (do
              pushOperator row span extra
              return (LexMode.operand, after)) b₂
              (fun r b' => Traced op (.operator symbol :: kinds) r.1 b') (fun _ _ => True) := by
          rw [ends_bind, ends_pushOperator, ends_pure]
          exact ht.wait rfl (by rw [hops]; exact hbelow) (fun _ => hmem) htight.symm
        split
        case h_1 =>
          rw [ends_bind]
          refine (ends_assignmentTarget hs.describes hpeek span).mono ?_ fun _ _ _ => trivial
          rintro extra b₂ ⟨M, htabled, -⟩
          exact wait htabled.operators extra at_
        case h_2 =>
          rw [ends_bind]
          refine (ends_bindingTarget hs.describes hpeek span).mono ?_ fun _ _ _ => trivial
          rintro extra b₂ ⟨M, htabled, -⟩
          exact wait htabled.operators extra at_
        case h_3 =>
          rw [ends_bind]
          refine (ends_streamClause hs.describes at_).mono ?_ fun _ _ he => he
          rintro ⟨extra, after⟩ b₂ ⟨-, M, _, _, htabled, -⟩
          exact wait htabled.operators extra after
        case h_4 => exact wait rfl .plain at_

/-! ## Runs -/

variable {first r r' : Round ε} {text : String} {offset : Nat} {scope : TemplateScope ε}

theorem Traced.start {b : Bench ε} (h : b.operators = .empty) : Traced op [] .operand b := by
  refine ⟨fun p hp => ?_, fun _ => ?_, nofun⟩
  · rw [h] at hp
    cases hp
  · rw [h]
    rfl

theorem Reads.traced (h : Reads kind r r') (laid : r.LaidOut) (hop : op.isAssignment)
    (ht : Traced op kinds r.mode r.bench) : Traced op (kind :: kinds) r'.mode r'.bench := by
  obtain ⟨⟨N, w, hs⟩, hfuel⟩ := laid
  cases h with
  | @operand fuel base at_ after token mode b b' hnext ran =>
    refine (hs.traced_operand ht hop fun raw doubleQuoted hstr => ?_).ok ran
    -- The sources in a literal are parsed on stacks of their own.
    refine (ends_string (fun source => words N.extensions fuel .operand (Cursor.start source))
      (E := fun _ => True) (fun _ _ => trivial) hs.describes ?_).mono ?_ fun _ _ _ => trivial
    · intro parts hq _ hsplit source start b' hcall M hg hd
      obtain ⟨kind, place⟩ := token
      cases hstr
      rw [hq] at hnext
      exact hcall.ends hnext hsplit hfuel hg hd
    · rintro o b₁ ⟨M, htabled, -⟩
      exact htabled.operators
  | comma hnext ran => exact (hs.traced_comma ht).ok ran
  | operator hnext ran => exact (hs.traced_operator ht hop).ok ran

theorem Trail.traced (h : Trail first kinds r) (laid : first.LaidOut) (hop : op.isAssignment)
    (hfirst : Traced op [] first.mode first.bench) : Traced op kinds r.mode r.bench := by
  induction h with
  | start => exact hfirst
  | source trail hin ih =>
    obtain ⟨-, -, -, hcall⟩ := hin
    obtain ⟨-, -, -, -, b₁, -, -, -, rfl⟩ := hcall
    exact .start rfl
  | read trail hread ih => exact hread.traced (trail.laidOut laid) hop ih

/-! ## What is left of the tighter operators -/

/-- An operator leaves no name, and only an entry reads a slot in place of a value. -/
theorem Built.unnamed {args : List Operand} (h : Built N p args o) :
    o.name = none ∧ (o.node.isSlot → o.isPair) := by
  cases h with
  | pair => exact ⟨rfl, fun _ => rfl⟩
  | @sequence left right =>
    refine ⟨rfl, fun hslot => ?_⟩
    unfold joinSequence at hslot
    split at hslot <;> cases hslot
  | _ => exact ⟨rfl, fun hslot => by cases hslot⟩

/-- If the operator on top is applied, what is left has no name. -/
theorem Stands.ends_reduceWhile_top (h : Stands N .operator b w) {q : Pending → Bool}
    (hq : b.operators.toList.head?.any q) :
    Ends (Parse.reduceWhile q) b
      (fun _ b' => ∃ o ∈ b'.operands.peek?, o.name = none ∧ (o.node.isSlot → o.isPair))
      (fun _ _ => True) := by
  have apply (b : Bench ε) (p : Pending) (ps : List Pending) (hs : Stands N .operator b w)
      (hps : b.operators = ⟨p :: ps⟩) : Ends (Parse.apply p) { b with operators := ⟨ps⟩ }
        (fun _ b' => (Stands N .operator b' w ∧
          ∃ o ∈ b'.operands.peek?, o.name = none ∧ (o.node.isSlot → o.isPair)) ∧
          b'.operators = ⟨ps⟩) (fun e _ => Regular e) := by
    refine ((hs.apply hps).and (hs.ends_top hps)).mono ?_ fun _ _ he => he.1
    rintro _ b' ⟨⟨hs', hops⟩, -, args, below, u, v, -, -, -, o, hbuilt, rfl⟩
    exact ⟨⟨hs', o, rfl, hbuilt.unnamed⟩, hops⟩
  obtain ⟨scope, tables, operands, ⟨ps⟩⟩ := b
  cases ps with
  | nil => cases hq
  | cons p ps =>
    have hp : q p := by simpa using hq
    unfold Parse.reduceWhile
    rw [ends_bind, ends_get, applyWhile, if_pos hp, ends_bind, ends_modify, ends_bind]
    refine (apply _ p ps h rfl).mono ?_ fun _ _ _ => trivial
    rintro _ b₁ ⟨hb₁, hops⟩
    refine (ends_applyWhile (fun b p ps hs => apply b p ps hs.1) q hb₁ hops).mono ?_
      fun _ _ _ => trivial
    rintro _ b₂ ⟨hb₂, -⟩
    exact hb₂.2

theorem reduceWhile_of_top {q : Pending → Bool} (hq : b.operators.toList.head?.any q = false) :
    reduceWhile q b = .ok () b := by
  show applyWhile q b.operators.toList b = .ok () b
  cases hps : b.operators.toList with
  | nil => rfl
  | cons p ps =>
    have hp : q p = false := by simpa [hps] using hq
    rw [applyWhile, if_neg (by simp [hp])]
    rfl

/-- Nothing is applied for a name that the tokens end in. -/
theorem Traced.topYields_of_name (ht : Traced op kinds .operator b) (h : endsInName op kinds) :
    topYields op b.operators.toList = false := by
  obtain ⟨kind, before, rfl, -, htop⟩ := ht.shows rfl
  rw [endsInName, Bool.and_eq_true] at h
  rw [htop h.1]
  simpa using h.2

/-- Once the tighter operators have been applied, the operand has a name just if the tokens end in
one; without a name it reads a slot only as a parenthesis or as an entry. -/
theorem Stands.ends_target (h : Stands N .operator b w) (ht : Traced op kinds .operator b) :
    Ends (reduceFor op) b
      (fun _ b' => ∃ o ∈ b'.operands.peek?,
        o.name = (if endsInName op kinds then kinds.head?.bind bareName? else none) ∧
        (o.name = none → o.node.isSlot → kinds.head? = some (.operator ")") ∨ o.isPair))
      (fun _ _ => True) := by
  by_cases hyields : topYields op b.operators.toList
  · have hnot : endsInName op kinds = false := by
      by_contra hname
      rw [ht.topYields_of_name (by simpa using hname)] at hyields
      cases hyields
    refine (h.ends_reduceWhile_top hyields).mono ?_ fun _ _ _ => trivial
    rintro _ b' ⟨o, ho, hnone, hpair⟩
    rw [hnot]
    exact ⟨o, ho, hnone, fun _ hslot => .inr (hpair hslot)⟩
  · rw [Bool.not_eq_true] at hyields
    obtain ⟨kind, before, rfl, ⟨o, ho, hname, hslot⟩, htop⟩ := ht.shows rfl
    rw [reduceFor, ends_of_ok (reduceWhile_of_top hyields)]
    refine ⟨o, ho, ?_, fun hnone hs => .inl (by rw [List.head?_cons, hslot hnone hs])⟩
    rw [hname]
    cases hbare : bareName? kind with
    | none => simp [endsInName, hbare]
    | some name =>
      have htight := htop (by rw [hbare]; rfl)
      rw [hyields] at htight
      simp [endsInName, hbare, ← htight]

/-- So the operator takes it for a target just if the tokens end in a name, or by oversight. -/
theorem takes_iff
    (hname : o.name = (if endsInName op kinds then kinds.head?.bind bareName? else none))
    (hslot : o.name = none → o.node.isSlot → kinds.head? = some (.operator ")") ∨ o.isPair) :
    o.name.isSome ∨ (op.kind = .assign ∧ o.node.isSlot) ↔
      endsInName op kinds ∨ overlooked op kinds o := by
  by_cases hends : endsInName op kinds
  · have hsome : o.name.isSome := by
      rw [hname, if_pos hends]
      cases kinds with
      | nil => cases hends
      | cons kind before =>
        rw [endsInName, Bool.and_eq_true] at hends
        exact hends.1
    exact ⟨fun _ => .inl hends, fun _ => .inl hsome⟩
  · rw [if_neg hends] at hname
    have hoverlooked : overlooked op kinds o ↔ op.kind = .assign ∧ o.node.isSlot := by
      simp only [overlooked, Bool.and_eq_true, beq_iff_eq, Bool.or_eq_true]
      exact ⟨fun h => h.1, fun h => ⟨h, hslot hname h.2⟩⟩
    simp [hends, hname, hoverlooked]

/-! ## Assignments -/

/-- What is assigned to is settled on the bench that the tighter operators leave. -/
def settle (op : Operator) (span : Span) : Parse ε Extra :=
  if op.kind = .bind then bindingTarget span else assignmentTarget span

theorem operator_eq (hop : op.isAssignment) (span : Span) (base : Nat) (at_ : Cursor) :
    (operator op.symbol span base at_ : Parse ε (LexMode × Cursor)) = (do
      reduceFor op
      let extra ← settle op span
      pushOperator op span extra
      return (.operand, at_)) := by
  obtain ⟨hfound, hcloser, hk⟩ := findInfix?_of_isAssignment hop
  unfold operator settle
  rw [if_neg (by rw [hcloser]; simp), hfound]
  rcases hk with hk | hk
  · simp only [hk, reduceCtorEq, if_false, pure_bind]
  · simp only [hk, if_true, pure_bind]

/-- `=` takes an operand that has a name or reads a slot. -/
theorem ends_assignmentTarget_of_peek (ho : b.operands.peek? = some o) (span : Span) :
    Ends (assignmentTarget span) b (fun _ _ => o.name.isSome ∨ o.node.isSlot)
      (fun e _ => ¬ (o.name.isSome ∨ o.node.isSlot) ∧ e = ⟨.invalidAssignmentTarget, o.span⟩) := by
  simp only [assignmentTarget, ends_bind, ends_get, ho]
  split
  case h_1 hn => exact .inr (by rw [hn]; rfl)
  case h_2 hn => exact .inr (by rw [hn]; rfl)
  case h_3 hname _ _ => exact .inl (by rw [hname]; rfl)
  case h_4 hname hlocal hbinding =>
    refine ⟨?_, rfl⟩
    rintro (h | h)
    · rw [hname] at h
      cases h
    · cases hn : o.node with
      | localVar slot => exact hlocal slot hn
      | binding template slot => exact hbinding template slot hn
      | _ => simp [hn, Node.isSlot] at h

/-- `:=` takes an operand that has a name, if it is allowed at all. -/
theorem ends_bindingTarget_of_peek (ho : b.operands.peek? = some o) (span : Span) :
    Ends (bindingTarget span) b (fun _ _ => b.scope.extensions.templateBindings ∧ o.name.isSome)
      (fun e _ => if b.scope.extensions.templateBindings then
          o.name = none ∧ e = ⟨.invalidAssignmentTarget, o.span⟩
        else e = ⟨.extensionDisabled .templateBindings, span⟩) := by
  simp only [bindingTarget, ends_bind, ends_get]
  cases hx : b.scope.extensions.templateBindings with
  | false => simp
  | true =>
    simp only [ho, Bool.not_true, Bool.false_eq_true, if_false]
    cases hname : o.name with
    | none => simp
    | some name => exact ⟨trivial, rfl⟩

theorem ends_settle (hop : op.isAssignment) (ho : b.operands.peek? = some o) (span : Span) :
    Ends (settle op span) b
      (fun _ _ => ¬ (op.kind = .bind ∧ b.scope.extensions.templateBindings = false) ∧
        (o.name.isSome ∨ (op.kind = .assign ∧ o.node.isSlot)))
      (fun e _ => if op.kind = .bind ∧ b.scope.extensions.templateBindings = false then
          e = ⟨.extensionDisabled .templateBindings, span⟩
        else ¬ (o.name.isSome ∨ (op.kind = .assign ∧ o.node.isSlot)) ∧
          e = ⟨.invalidAssignmentTarget, o.span⟩) := by
  unfold settle
  obtain ⟨-, -, hk | hk⟩ := findInfix?_of_isAssignment hop
  · simpa [hk] using ends_assignmentTarget_of_peek ho span
  · simp only [hk, if_true, true_and, reduceCtorEq, false_and, or_false]
    refine (ends_bindingTarget_of_peek ho span).mono ?_ ?_
    · rintro _ _ ⟨hx, hname⟩
      exact ⟨by simp [hx], hname⟩
    · intro e _ he
      cases hx : b.scope.extensions.templateBindings with
      | false => simpa [hx] using he
      | true => simpa [hx] using he

/-- The next token of the round is an assignment operator. Its run comes from `first`, and what it
has read of the round's text before are tokens of these kinds, the last one first. -/
structure Assigns (first : Round ε) (op : Operator) (kinds : List TokenKind) (span : Span)
    (after : Cursor) (r : Round ε) : Prop where
  isAssignment : op.isAssignment
  trail : Trail first kinds r
  mode : r.mode = .operator
  next : Token.next .operator r.at_ = .ok (⟨.operator op.symbol, span⟩, after)

variable {after : Cursor} {e : ParseError}

/-- The round ends as its operator does. -/
theorem Assigns.run (h : Assigns first op kinds span after r) (laid : r.LaidOut) :
    ∃ fuel, r = ⟨fuel + 1, .operator, r.base, r.at_, r.bench⟩ ∧
      r.run = ((do
        let (mode, after) ← operator op.symbol (span.shift r.base) r.base after
        rounds fuel mode r.base after) : Parse ε Operand) r.bench := by
  obtain ⟨fuel, mode, base, at_, bench⟩ := r
  obtain rfl : mode = .operator := h.mode
  obtain ⟨fuel, rfl⟩ : ∃ n, fuel = n + 1 := ⟨fuel - 1, by have := laid.2; simp only at this; omega⟩
  refine ⟨fuel, rfl, ?_⟩
  rw [Round.run]
  simp only
  rw [rounds_operator h.next]

/-- What comes up while an assignment operator is handled, the parse fails with. -/
theorem Assigns.parse_error (h : Assigns first op kinds span after r) (laid : first.LaidOut)
    (hfirst : firstRound? text offset scope = some first)
    (he : Raises (do
      reduceFor op
      let extra ← settle op (span.shift r.base)
      pushOperator op (span.shift r.base) extra
      return (LexMode.operand, after)) r.bench e) :
    (parse text offset scope).1 = .error e := by
  obtain ⟨fuel, -, hrun⟩ := h.run (h.trail.laidOut laid)
  refine h.trail.visits.parse_error hfirst ?_
  rw [hrun, operator_eq h.isAssignment]
  exact raises_iff.mp (he.bind _)

/-- Where a target is settled, the run goes on to the operand behind the operator. -/
theorem Assigns.reads (h : Assigns first op kinds span after r) (laid : first.LaidOut)
    {extra : Extra} (hb : reduceFor op r.bench = .ok () b)
    (hsettle : settle op (span.shift r.base) b = .ok extra b') :
    ∃ r', Reads (.operator op.symbol) r r' ∧ r'.mode = .operand ∧ r'.at_ = after := by
  obtain ⟨fuel, hr, -⟩ := h.run (h.trail.laidOut laid)
  have ends : Ends (operator op.symbol (span.shift r.base) r.base after) r.bench
      (fun result _ => result = (.operand, after)) (fun _ _ => False) := by
    rw [operator_eq h.isAssignment, ends_bind, ends_of_ok hb, ends_bind, ends_of_ok hsettle,
      ends_bind, ends_pushOperator, ends_pure]
  obtain ⟨_, b'', ran, rfl⟩ := ends.exists_ok
  rw [hr]
  exact ⟨_, .operator h.next ran, rfl, rfl⟩

end Parse

open Parse

/-- **Assignments take names.** Where an assignment operator is read, what binds tighter is applied
first, and a name at the end of the tokens that no such operator takes is left as it is. The operand
that then lies on top is the target: it is taken if the tokens end in such a name, or by oversight,
and in any other case the text fails at it, whatever has been declared. `:=` is refused before its
target is looked at where bindings are switched off. -/
theorem assignments_take_names {ε : Type} (text : String) (offset : Nat) (scope : TemplateScope ε)
    {first r : Round ε} {op : Operator} {kinds : List TokenKind} {span : Span} {after : Cursor}
    (hfirst : firstRound? text offset scope = some first)
    (h : Assigns first op kinds span after r) :
    (endsInName op kinds → reduceFor op r.bench = .ok () r.bench) ∧
    (∀ e b, reduceFor op r.bench = .error e b → (parse text offset scope).1 = .error e) ∧
    ∀ b, reduceFor op r.bench = .ok () b → ∃ target ∈ b.operands.peek?,
      target.name = (if endsInName op kinds then kinds.head?.bind bareName? else none) ∧
      if op.kind = .bind ∧ b.scope.extensions.templateBindings = false then
        (parse text offset scope).1 =
          .error ⟨.extensionDisabled .templateBindings, span.shift r.base⟩
      else if endsInName op kinds ∨ overlooked op kinds target then
        ∃ r', Reads (.operator op.symbol) r r' ∧ r'.mode = .operand ∧ r'.at_ = after
      else
        (parse text offset scope).1 = .error ⟨.invalidAssignmentTarget, target.span⟩ := by
  have laid := firstRound?_laidOut hfirst
  obtain ⟨⟨N, w, hs⟩, -⟩ := h.trail.laidOut laid
  have hempty : Traced op [] first.mode first.bench := by
    rw [firstRound?_start hfirst]
    exact .start rfl
  have ht := h.trail.traced laid h.isAssignment hempty
  rw [h.mode] at hs ht
  refine ⟨fun hname => reduceWhile_of_top (ht.topYields_of_name hname), fun e b he => ?_, ?_⟩
  · exact h.parse_error laid hfirst (Raises.bind (raises_iff.mpr ⟨b, he⟩) _)
  · intro b hb
    obtain ⟨target, hpeek, hname, hslot⟩ := (hs.ends_target ht).ok hb
    have ends := ends_settle h.isAssignment hpeek (span.shift r.base)
    rw [takes_iff hname hslot] at ends
    refine ⟨target, hpeek, hname, ?_⟩
    cases hsettle : settle op (span.shift r.base) b with
    | ok extra b' =>
      obtain ⟨hgate, htakes⟩ := ends.ok hsettle
      rw [if_neg hgate, if_pos htakes]
      exact h.reads laid hb hsettle
    | error e b' =>
      have hraises : Raises (settle op (span.shift r.base)) b e := raises_iff.mpr ⟨b', hsettle⟩
      have hparse := h.parse_error laid hfirst (raises_of_ok hb (hraises.bind _))
      have herror := ends.error hsettle
      split at herror
      case isTrue hgate => rw [if_pos hgate, hparse, herror]
      case isFalse hgate => rw [if_neg hgate, if_neg herror.1, hparse, herror.2]

/-- A name with a sign in front of it is no target: the sign is applied first. -/
theorem assignments_take_names_of_sign :
    ∃ first r : Round Nat, firstRound? "-x = 1" 5 .fresh = some first ∧
      Assigns first ⟨"=", 17, .right, .assign⟩
        [.ident ⟨.name "x", .unstated, false⟩, .operator "-"] ⟨3, 4⟩ ⟨4, " 1".toList⟩ r ∧
      (parse (ε := Nat) "-x = 1" 5 .fresh).1 = .error ⟨.invalidAssignmentTarget, ⟨5, 7⟩⟩ := by
  have hsign : Token.next .operand (Cursor.start "-x = 1".toList) =
      .ok (⟨.operator "-", ⟨0, 1⟩⟩, ⟨1, "x = 1".toList⟩) := rfl
  have hname : Token.next .operand ⟨1, "x = 1".toList⟩ =
      .ok (⟨.ident ⟨.name "x", .unstated, false⟩, ⟨1, 2⟩⟩, ⟨2, " = 1".toList⟩) := by decide +kernel
  have hequals : Token.next .operator ⟨2, " = 1".toList⟩ =
      .ok (⟨.operator "=", ⟨3, 4⟩⟩, ⟨4, " 1".toList⟩) := by decide +kernel
  have hfirst : firstRound? "-x = 1" 5 (TemplateScope.fresh : TemplateScope Nat) =
      some (.start .fresh {} 5 (Cursor.start "-x = 1".toList)) := rfl
  have nothing : Trail (.start (TemplateScope.fresh : TemplateScope Nat) {} 5
      (Cursor.start "-x = 1".toList)) [] _ := .start
  have trail := (nothing.read (.operand hsign rfl)).read (.operand hname rfl)
  have h : Assigns _ ⟨"=", 17, .right, .assign⟩ _ _ _ _ := ⟨by decide, trail, rfl, hequals⟩
  obtain ⟨-, -, hsettled⟩ := assignments_take_names "-x = 1" 5 .fresh hfirst h
  obtain ⟨target, hpeek, -, herror⟩ := hsettled _ rfl
  obtain rfl := Option.some.inj hpeek
  rw [if_neg (by decide), if_neg (by decide +kernel)] at herror
  exact ⟨_, _, hfirst, h, herror⟩

/-- A parenthesis around a name is no target, but where the name has a slot it is taken for one. -/
theorem parenthesis_around_local_is_assigned :
    (parse (ε := Nat) "(x) = 2" 0 .fresh).1.map (fun _ => ()) =
        .error ⟨.invalidAssignmentTarget, ⟨0, 3⟩⟩ ∧
      (parse (ε := Nat) "x = 1; (x) = 2" 0 .fresh).1.map (fun _ => ()) = .ok () := by
  decide +kernel

end TagExpr
