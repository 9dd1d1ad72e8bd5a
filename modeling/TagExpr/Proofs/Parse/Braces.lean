import TagExpr.Proofs.Literal.Nesting
import TagExpr.Proofs.Parse.Run
import TagExpr.Proofs.Token.Letters
import TagExpr.Proofs.Token.Lossless
import TagExpr.Proofs.Token.Signatures

/-!
# The braces of a text

The set literals that wait on the operator stack are the braces that the text has opened so far
(`Leads`): a round changes the stack by the braces of its lexeme. So an accepted text closes what
it opens, unless braces or quotes stand where the parser does not look for them, in comments and in
pattern literals (`asides`).
-/

namespace TagExpr.Parse

open Literal (isMarker)
open Literal.Nesting (passAll? passAll?_append passAll?_trans passAll?_plain passAll?_quoted
  passAll?_deeper)

variable {ε : Type} {N : Names} {b b' b₁ : Bench ε} {w : List Word} {text more : List Char}
  {symbol : String} {span : Span}

/-! ## Open braces -/

/-- The number of set literals that wait for their closers. -/
def openBraces (b : Bench ε) : Nat := b.operators.toList.countP (·.op.kind = .setLiteral)

theorem openBraces_congr (h : b'.operators = b.operators) : openBraces b' = openBraces b := by
  rw [openBraces, openBraces, h]

theorem openBraces_cons {p : Pending} {ps : List Pending} (h : b.operators.toList = p :: ps) :
    openBraces b =
      ps.countP (·.op.kind = .setLiteral) + if p.op.kind = .setLiteral then 1 else 0 := by
  simp only [openBraces, h, List.countP_cons, decide_eq_true_eq]

theorem openBraces_push (p : Pending) :
    openBraces { b with operators := b.operators.push p } =
      openBraces b + if p.op.kind = .setLiteral then 1 else 0 :=
  openBraces_cons rfl

/-- What an operator keeps beside it does not matter. -/
theorem openBraces_modifyAt (f : Pending → Pending) (h : ∀ p, (f p).op = p.op) :
    openBraces { b with operators := b.operators.modifyAt 0 f } = openBraces b := by
  unfold openBraces
  cases hps : b.operators.toList with
  | nil => simp [hps]
  | cons p ps => simp only [Stack.toList_modifyAt, hps, List.modify_zero_cons, List.countP_cons, h]

/-- Behind the text as many braces are open as on the second bench, if before it there are as many
as on the first one. -/
def Leads (b : Bench ε) (text : List Char) (b' : Bench ε) : Prop :=
  passAll? ⟨openBraces b, none⟩ text = some ⟨openBraces b', none⟩

/-- The text closes what is open on the bench. -/
def Completes (b : Bench ε) (text : List Char) : Prop :=
  passAll? ⟨openBraces b, none⟩ text = some ⟨0, none⟩

theorem Leads.completes (h : Leads b text b') (h' : Completes b' more) :
    Completes b (text ++ more) := passAll?_trans h h'

theorem leads_of_balanced (h : Literal.Balanced text) (hb : openBraces b' = openBraces b) :
    Leads b text b' := by
  rw [Leads, hb]
  exact h.passAll? _

theorem leads_of_plain (h : ∀ c ∈ text, isMarker c = false) (hb : openBraces b' = openBraces b) :
    Leads b text b' :=
  leads_of_balanced (Literal.balanced_of_plain h) hb

/-! ## Characters -/

theorem isMarker_of_isLetter {c : Char} (h : Token.isLetter c) : isMarker c = false := by
  by_contra hmarker
  simp only [Bool.not_eq_false, isMarker, Bool.or_eq_true, decide_eq_true_eq] at hmarker
  rcases hmarker with ((rfl | rfl) | rfl) | rfl <;> revert h <;> decide

theorem isMarker_of_all (h : text.all (!isMarker ·)) : ∀ c ∈ text, isMarker c = false := by
  simpa using h

theorem isMarker_of_isSeparator {c : Char} (h : Text.isSeparator c) : isMarker c = false := by
  simp only [Text.isSeparator, Bool.or_eq_true, beq_iff_eq] at h
  rcases h with (((rfl | rfl) | rfl) | rfl) | rfl <;> rfl

theorem isMarker_of_findInfix? {op : Operator} (h : Operator.findInfix? symbol = some op) :
    (∀ c ∈ symbol.toList, isMarker c = false) ∧ op.kind ≠ .setLiteral := by
  have hall : Operator.infixTable.all fun op =>
      op.symbol.toList.all (!isMarker ·) && decide (op.kind ≠ .setLiteral) := by decide
  have hop := List.all_eq_true.mp hall op (List.mem_of_find?_eq_some h)
  rw [Operator.findInfix?_symbol h] at hop
  simpa using hop

/-- Among the symbols before an operand only the opener of a set literal is a brace. -/
theorem passAll?_of_findPrefix? {op : Operator} (h : Operator.findPrefix? symbol = some op) :
    passAll? ⟨0, none⟩ symbol.toList = some ⟨if op.kind = .setLiteral then 1 else 0, none⟩ := by
  have hall : Operator.prefixTable.all fun op => decide (passAll? ⟨0, none⟩ op.symbol.toList =
      some ⟨if op.kind = .setLiteral then 1 else 0, none⟩) := by decide
  have hop := List.all_eq_true.mp hall op (List.mem_of_find?_eq_some h)
  rw [Operator.findPrefix?_symbol h] at hop
  exact of_decide_eq_true hop

/-! ## Applying and closing -/

theorem countP_setLiteral (p : Pending) (ps : List Pending)
    (hcontainer : p.op.kind.isContainer = false) (_ : isOpenTernary p = false) :
    (p :: ps).countP (·.op.kind = .setLiteral) = ps.countP (·.op.kind = .setLiteral) := by
  have hkind : p.op.kind ≠ .setLiteral := by
    intro hkind
    rw [hkind] at hcontainer
    cases hcontainer
  simp [hkind]

theorem Stands.reduceWhile_openBraces (h : Stands N .operator b w) (q : Pending → Bool) :
    Ends (Parse.reduceWhile q) b (fun _ b' => openBraces b' = openBraces b)
      (fun e _ => Regular e) :=
  h.reduceWhile_keeps (f := List.countP (·.op.kind = .setLiteral)) countP_setLiteral q

theorem ClosesTop.leads {c : Pending} {ps : List Pending} {receivers elements rest : List Operand}
    {u v' v : List Word} (h : ClosesTop N span c ps receivers elements rest u v' v b b')
    (hcloser : c.op.kind.closer? = some symbol) : Leads b symbol.toList b' := by
  obtain ⟨-, M, b₁, o, hlooked, -, rfl⟩ := h.closes
  have hafter : openBraces { b₁ with operands := ⟨o :: rest⟩ } =
      ps.countP (·.op.kind = .setLiteral) := by
    rw [openBraces, hlooked.operators]
  rw [Leads, openBraces_cons h.operators, hafter]
  cases hk : c.op.kind with
  | setLiteral =>
    rw [hk] at hcloser
    cases hcloser
    rfl
  | group | call | listLiteral | lookup =>
    rw [hk] at hcloser
    cases hcloser
    exact passAll?_plain (isMarker_of_all (by decide)) _
  | _ =>
    rw [hk] at hcloser
    cases hcloser

/-- A closer leads to the bench on which its container is closed. -/
theorem leads_close
    (h : Ends reduceToContainer b (fun _ b' => Ready N b' w ∧ openBraces b' = openBraces b)
      (fun e _ => Regular e)) :
    Ends (close symbol span) b (fun _ b' => Leads b symbol.toList b') (fun e _ => Regular e) := by
  refine (ends_closeTop h).mono ?_ fun _ _ he => he
  rintro _ b'' ⟨b', c, ps, receivers, elements, rest, u, v', v, hb, hcloser, -, hcloses⟩
  rw [Leads, ← hb]
  exact hcloses.leads hcloser

theorem Stands.leads_close (h : Stands N .operator b w) :
    Ends (Parse.close symbol span) b (fun _ b' => Leads b symbol.toList b')
      (fun e _ => Regular e) :=
  Parse.leads_close ((h.ready.and (h.reduceWhile_openBraces _)).mono (fun _ _ hr => hr)
    fun _ _ he => he.1)

theorem Stands.leads_closeWithoutOperand (h : Stands N .operand b w) :
    Ends (Parse.closeWithoutOperand symbol span) b (fun _ b' => Leads b symbol.toList b')
      (fun e _ => Regular e) := by
  apply h.ends_closeWithoutOperand
  intro hready
  have hopen : Ends reduceToContainer b
      (fun _ b' => Ready N b' w ∧ openBraces b' = openBraces b) (fun e _ => Regular e) :=
    hready.mono (fun _ _ hr => ⟨hr.1, congrArg openBraces hr.2⟩) fun _ _ he => he
  exact Parse.leads_close hopen

/-! ## Operators after an operand -/

theorem openBraces_navigate (safe : Bool) (base : Nat) (at_ : Cursor) :
    Ends (navigate safe span base at_) b (fun _ b' => openBraces b' = openBraces b)
      (fun _ _ => True) := by
  unfold navigate
  rw [ends_bind, ends_readToken]
  split
  case h_2 => trivial
  case h_1 =>
    simp only
    split
    case h_2 => trivial
    case h_1 =>
      split
      case isTrue => exact openBraces_push _
      case isFalse =>
        rw [ends_bind]
        refine (ends_popValue_operators _).mono ?_ fun _ _ _ => trivial
        intro receiver b' hb
        exact openBraces_congr hb

theorem Stands.openBraces_comma (h : Stands N .operator b w) :
    Ends (Parse.comma span) b (fun _ b' => openBraces b' = openBraces b) (fun _ _ => True) :=
  h.comma_keeps (f := List.countP (·.op.kind = .setLiteral)) countP_setLiteral
    (fun _ _ _ => rfl) span

theorem Stands.openBraces_colon (h : Stands N .operator b w) {op : Operator}
    (hk : op.kind ≠ .setLiteral) :
    Ends (Parse.colon op span) b (fun _ b' => openBraces b' = openBraces b) (fun _ _ => True) := by
  unfold Parse.colon Parse.reduceFor
  rw [ends_bind]
  refine ((h.reduceWhile _).and (h.reduceWhile_openBraces _)).mono ?_ fun _ _ _ => trivial
  rintro _ b₁ ⟨⟨hs, -⟩, hb⟩
  rw [ends_bind, ends_get]
  simp only
  split
  case isTrue =>
    rw [ends_bind]
    refine (hs.reduceWhile_openBraces _).mono ?_ fun _ _ _ => trivial
    intro _ b₂ hb'
    rw [ends_modify]
    exact (openBraces_modifyAt _ (by intro p; rfl)).trans (hb'.trans hb)
  case isFalse =>
    split
    case h_2 => trivial
    case h_1 =>
      split
      case isFalse => trivial
      case isTrue =>
        rw [ends_pushOperator, openBraces_push, if_neg hk]
        exact hb

/-- An operator symbol leads to the bench on which its operator waits, or to that of a closer. -/
theorem Stands.leads_operator (h : Stands N .operator b w) (base : Nat) (at_ : Cursor) :
    Ends (Parse.operator symbol span base at_) b (fun _ b' => Leads b symbol.toList b')
      (fun _ _ => True) := by
  unfold Parse.operator
  split
  case isTrue =>
    rw [ends_bind]
    exact h.leads_close.mono (fun _ _ hp => hp) fun _ _ _ => trivial
  case isFalse =>
    split
    case h_1 => trivial
    case h_2 op hop =>
      obtain ⟨hplain, hkind⟩ := isMarker_of_findInfix? hop
      split
      case h_1 safe _ =>
        exact (openBraces_navigate safe base at_).mono (fun _ _ hb => leads_of_plain hplain hb)
          fun _ _ _ => trivial
      case h_2 =>
        rw [ends_bind]
        exact (h.openBraces_colon hkind).mono (fun _ _ hb => leads_of_plain hplain hb)
          fun _ _ _ => trivial
      case h_3 =>
        rw [reduceFor, ends_bind]
        refine ((h.reduceWhile _).and (h.reduceWhile_openBraces _)).mono ?_ fun _ _ _ => trivial
        rintro _ b₁ ⟨⟨hs, -⟩, hb⟩
        obtain ⟨o, below, -, hpeek⟩ := hs.peek
        -- Whatever is settled before the operator waits, the operators below it stay.
        have wait {b₂ : Bench ε} (hops : b₂.operators = b₁.operators) (extra : Extra)
            (after : Cursor) : Ends (do
              pushOperator op span extra
              return (LexMode.operand, after)) b₂ (fun _ b' => Leads b symbol.toList b')
              (fun _ _ => True) := by
          rw [ends_bind, ends_pushOperator, ends_pure]
          refine leads_of_plain hplain ?_
          rw [openBraces_push, if_neg hkind, Nat.add_zero, openBraces_congr hops, hb]
        simp only
        split
        case h_1 =>
          rw [ends_bind]
          refine (ends_assignmentTarget hs.describes hpeek span).mono ?_ fun _ _ _ => trivial
          rintro extra b₂ ⟨M, ht, -⟩
          exact wait ht.operators extra at_
        case h_2 =>
          rw [ends_bind]
          refine (ends_bindingTarget hs.describes hpeek span).mono ?_ fun _ _ _ => trivial
          rintro extra b₂ ⟨M, ht, -⟩
          exact wait ht.operators extra at_
        case h_3 =>
          rw [ends_bind]
          refine (ends_streamClause hs.describes at_).mono ?_ fun _ _ he => he
          rintro ⟨extra, after⟩ b₂ ⟨-, M, _, _, ht, -⟩
          exact wait ht.operators extra after
        case h_4 => exact wait rfl .plain at_

/-- What an operator symbol takes with it, a member name or a clause, has no braces. -/
theorem operatorReach_plainText (symbol : String) (at_ : Cursor) :
    ∃ passed, at_.rest = passed ++ (operatorReach symbol at_).2.2.rest ∧
      ∀ c ∈ passed, isMarker c = false := by
  have nothing : ∃ passed, at_.rest = passed ++ at_.rest ∧ ∀ c ∈ passed, isMarker c = false :=
    ⟨[], rfl, by simp⟩
  unfold operatorReach
  split
  case isTrue => exact nothing
  case isFalse =>
    split
    case h_1 =>
      split
      case h_2 => exact nothing
      case h_1 hnext =>
        obtain ⟨found, hskip, hread⟩ := Token.next_eq hnext
        obtain ⟨gap, hgap, hseparators⟩ := Token.gap_of_skip hskip
        obtain ⟨lexeme, -, hfound, hwritten⟩ := Token.read_written hread (by simp)
        refine ⟨gap ++ lexeme, by rw [hgap, hfound, List.append_assoc], ?_⟩
        intro c hc
        rcases List.mem_append.mp hc with hc | hc
        · exact isMarker_of_isSeparator (hseparators.separators c hc)
        · cases hwritten with
          | word hletters _ => exact isMarker_of_isLetter (hletters c hc)
    case h_2 =>
      split
      case h_2 => exact nothing
      case h_1 clause hclause =>
        obtain ⟨written, hrest, hname, hlaid⟩ := Signature.lambda?_laid hclause
        refine ⟨written, hrest, ?_⟩
        intro c hc
        rcases hlaid.mem hc with hseparator | ⟨lexeme, hlexeme, hc⟩
        · exact isMarker_of_isSeparator hseparator
        · simp only [List.mem_cons, List.not_mem_nil, or_false] at hlexeme
          rcases hlexeme with rfl | rfl
          · exact isMarker_of_isLetter (Token.isLetter_of_isNamePart (hname.1.part c hc))
          · have harrow : Signature.clauseArrow.all (!isMarker ·) := by decide
            exact isMarker_of_all harrow c hc
    case h_3 => exact nothing

/-! ## Operands -/

variable {nested : List Char → Nat → Parse ε Operand}

theorem openBraces_ident (hd : Describes N b.tables b.scope) (i : Ident) :
    Ends (ident i span) b (fun _ b' => openBraces b' = openBraces b) (fun _ _ => True) := by
  -- A call waits for its arguments.
  have opens (extra : Extra) :
      Ends (pushOperator .call span extra : Parse ε Unit) b
        (fun _ b' => openBraces b' = openBraces b) (fun _ _ => True) := by
    rw [ends_pushOperator]
    exact openBraces_push _
  obtain ⟨kind, lookup, call⟩ := i
  unfold ident
  cases kind with
  | current levels => exact rfl
  | internal name =>
    simp only
    split
    case h_1 => trivial
    case h_2 =>
      cases call with
      | true => trivial
      | false => exact rfl
  | annotated name =>
    simp only [ends_bind, ends_get]
    split
    case isTrue => trivial
    case isFalse =>
      cases call with
      | true => exact opens (.annotated name)
      | false => exact rfl
  | name name =>
    cases call with
    | true => exact opens (.bareCall name lookup)
    | false =>
      simp only [Bool.false_eq_true, if_false]
      rw [ends_bind]
      refine (ends_resolveName hd name lookup span).mono ?_ fun _ _ he => he
      rintro o b₁ ⟨M, hlooked, -⟩
      exact openBraces_congr hlooked.operators

/-- Outside of double quotes no source is parsed on stacks of its own. -/
theorem openBraces_singleQuoted (raw : List Char) :
    Ends (string nested raw false span) b (fun _ b' => openBraces b' = openBraces b)
      (fun _ _ => True) := by
  simp only [string, Bool.false_and, Bool.false_eq_true, if_false, ends_bind, ends_get]
  split
  · trivial
  · rfl

variable (nested span) in
/-- A lexeme in operand position leads to the bench on which its token is handled. -/
theorem Stands.leads_operand (h : Stands N .operand b w) {lexeme : List Char} {kind : TokenKind}
    (hwritten : Token.Written lexeme kind) (hquote : '"' ∉ lexeme) (hescape : '\\' ∉ lexeme)
    (hpattern : ∀ raw, kind = .regex raw → Literal.Balanced raw) :
    Ends (Parse.operand nested kind span) b (fun _ b' => Leads b lexeme b') (fun _ _ => True) := by
  cases hwritten with
  | word hletters hword =>
    have hplain : ∀ c ∈ lexeme, isMarker c = false := fun c hc =>
      isMarker_of_isLetter (hletters c hc)
    have same {b' : Bench ε} (hb : openBraces b' = openBraces b) : Leads b lexeme b' :=
      leads_of_plain hplain hb
    cases kind with
    | null | bool | int | double | emptyMap => exact same rfl
    | ident i =>
      exact (openBraces_ident h.describes i).mono (fun _ _ hb => same hb) fun _ _ _ => trivial
    | comma => trivial
    | finish => exact ends_operand_finish (fun _ _ => trivial) trivial
    | str | regex | operator => cases hword
  | @symbol symbol _ =>
    unfold Parse.operand
    simp only
    split
    case isTrue =>
      rw [ends_bind]
      exact h.leads_closeWithoutOperand.mono (fun _ _ hp => hp) fun _ _ _ => trivial
    case isFalse =>
      split
      case h_1 => trivial
      case h_2 op hop =>
        rw [ends_bind, ends_pushOperator, ends_pure, Leads, openBraces_push]
        simpa [Nat.add_comm] using passAll?_deeper (passAll?_of_findPrefix? hop) (openBraces b)
  | @string raw doubleQuoted quote hq hraw =>
    cases doubleQuoted with
    | true => simp [hq] at hquote
    | false =>
      obtain rfl : quote = '\'' := hq
      have hinside : '\'' ∉ raw := hraw fun hmem => hescape (by simp [hmem])
      unfold Parse.operand
      simp only
      rw [ends_bind]
      refine (openBraces_singleQuoted raw).mono ?_ fun _ _ _ => trivial
      intro o b₁ hb
      refine leads_of_balanced (passAll?_quoted (.inr rfl) hinside 0) hb
  | pattern raw =>
    refine leads_of_balanced ?_ rfl
    have hopener : Literal.Balanced ['~', '/'] := by decide
    have hcloser : Literal.Balanced ['/'] := by decide
    exact passAll?_trans (passAll?_trans hopener (hpattern raw rfl)) hcloser

/-! ## One token -/

/-- The token of the lexeme has been handled: its braces are counted, and the stacks are laid out
for what comes next. -/
def Handled (mode : LexMode) (b : Bench ε) (lexeme : List Char) (b' : Bench ε) : Prop :=
  Leads b lexeme b' ∧ ∃ N w, Stands N mode b' w

variable {lexeme : List Char}

variable (nested span) in
theorem Stands.handled_operand (h : Stands N .operand b w) {kind : TokenKind}
    (hwritten : Token.Written lexeme kind) (hk : kind ≠ .finish) (hquote : '"' ∉ lexeme)
    (hescape : '\\' ∉ lexeme) (hpattern : ∀ raw, kind = .regex raw → Literal.Balanced raw) :
    Ends (Parse.operand nested kind span) b
      (fun mode b' => mode = kind.modeAfter ∧ Handled mode b lexeme b') (fun _ _ => True) := by
  have hleads := h.leads_operand span nested hwritten hquote hescape hpattern
  -- No source is interpolated without double quotes.
  have hstands := h.operand nested (fun _ => []) span (E := fun _ => True) (fun _ _ => trivial) hk
    fun raw _ hstr _ _ _ _ _ _ _ _ _ => absurd (hstr ▸ hwritten).mem_doubleQuote hquote
  refine (hleads.and hstands).mono ?_ fun _ _ _ => trivial
  rintro mode b' ⟨hb, hmode, M, -, hs⟩
  exact ⟨hmode, hb, M, _, hs⟩

theorem Stands.handled_comma (h : Stands N .operator b w) (hwritten : Token.Written lexeme .comma) :
    Ends (Parse.comma span) b (fun _ b' => Handled .operand b lexeme b') (fun _ _ => True) := by
  have hplain : ∀ c ∈ lexeme, isMarker c = false := by
    cases hwritten with
    | word hletters _ => exact fun c hc => isMarker_of_isLetter (hletters c hc)
  refine (h.openBraces_comma.and (h.comma span)).mono ?_ fun _ _ _ => trivial
  rintro _ b' ⟨hb, hs⟩
  exact ⟨leads_of_plain hplain hb, N, w, hs⟩

theorem Stands.handled_operator (h : Stands N .operator b w)
    (hwritten : Token.Written lexeme (.operator symbol)) (base : Nat) (at_ : Cursor) :
    Ends (Parse.operator symbol span base at_) b
      (fun r b' => r = (operatorReach symbol at_).2 ∧ Handled r.1 b lexeme b')
      (fun _ _ => True) := by
  have hlexeme : lexeme = symbol.toList := by
    cases hwritten with
    | word _ hword => cases hword
    | symbol _ => rfl
  rw [hlexeme]
  refine ((h.leads_operator base at_).and (h.operator symbol span base at_)).mono ?_
    fun _ _ _ => trivial
  rintro r b' ⟨hb, hreach, M, -, hs⟩
  exact ⟨hreach, hb, M, _, hs⟩

/-! ## Whole texts -/

/-- The characters between two places of a text. -/
def skipped (at_ found : Cursor) : List Char :=
  at_.rest.take (at_.rest.length - found.rest.length)

theorem skipped_of_skip {mode : LexMode} {at_ found : Cursor}
    (h : Token.skip mode at_ = .ok found) :
    ∃ gap, at_.rest = gap ++ found.rest ∧ skipped at_ found = gap := by
  obtain ⟨gap, hgap, -⟩ := Token.gap_of_skip h
  exact ⟨gap, hgap, by rw [skipped, hgap, List.length_append, Nat.add_sub_cancel, List.take_left]⟩

/-- The contents of a pattern literal. -/
def patterns : TokenKind → List (List Char)
  | .regex raw => [raw]
  | _ => []

/-- The fillers before the tokens of a text and the contents of its pattern literals, of at most
`fuel` tokens. -/
def asides : Nat → LexMode → Cursor → List (List Char)
  | 0, _, _ => []
  | fuel + 1, mode, at_ =>
    match Token.skip mode at_ with
    | .error _ => []
    | .ok found =>
      skipped at_ found ::
        match Token.read mode found with
        | .error _ => []
        | .ok (token, after) =>
          match mode with
          | .operand => patterns token.kind ++ asides fuel token.kind.modeAfter after
          | _ =>
            match token.kind with
            | .comma => asides fuel .operand after
            | .operator symbol =>
              let (_, mode, after) := operatorReach symbol after
              asides fuel mode after
            | _ => []

theorem Stands.openBraces_finish (h : Stands N .operator b w) :
    Ends (Parse.finish span) b (fun _ _ => openBraces b = 0) (fun _ _ => True) := by
  unfold Parse.finish
  rw [ends_bind]
  refine ((h.reduceWhile _).and (h.reduceWhile_openBraces _)).mono ?_ fun _ _ _ => trivial
  rintro _ b' ⟨⟨-, hops⟩, hb⟩
  have hnil : b'.operators.toList = [] := by simp [hops]
  have hnone : openBraces b = 0 := by
    rw [← hb, openBraces, hnil]
    rfl
  rw [ends_bind, ends_get]
  split
  · trivial
  · split
    · trivial
    · exact hnone
  · trivial

/-- Nothing may be open where the text ends. -/
theorem Stands.completes_end {mode : LexMode} (h : Stands N mode b w) (fuel base : Nat)
    {at_ after : Cursor} {token : Token} (hnext : Token.next mode at_ = .ok (token, after))
    (hk : token.kind = .finish) :
    Ends (rounds (fuel + 1) mode base at_) b (fun _ _ => Completes b []) (fun _ _ => True) := by
  unfold rounds
  rw [ends_bind, ends_readToken, hnext]
  simp only [hk]
  cases mode with
  | member => cases h.layout
  | operand =>
    simp only
    rw [ends_bind]
    exact ends_operand_finish (fun _ _ => trivial) trivial
  | operator =>
    refine h.openBraces_finish.mono ?_ fun _ _ _ => trivial
    intro _ _ hnone
    rw [Completes, hnone]
    rfl

/-- An accepted text without double quotes and escapes closes what it opens, if its fillers and
pattern literals do. -/
theorem ends_rounds_braces {fuel : Nat} {mode : LexMode} (base : Nat) {at_ : Cursor}
    (h : Stands N mode b w) (hquote : '"' ∉ at_.rest) (hescape : '\\' ∉ at_.rest)
    (hasides : ∀ aside ∈ asides fuel mode at_, Literal.Balanced aside) :
    Ends (rounds fuel mode base at_) b (fun _ _ => Completes b at_.rest) (fun _ _ => True) := by
  induction fuel generalizing N b w mode at_ with
  | zero => trivial
  | succ fuel ih =>
    cases hnext : Token.next mode at_ with
    | error e =>
      unfold rounds
      rw [ends_bind, ends_readToken, hnext]
      trivial
    | ok r =>
      obtain ⟨token, after⟩ := r
      obtain ⟨found, hskip, hread⟩ := Token.next_eq hnext
      obtain ⟨gap, hgap, hskipped⟩ := skipped_of_skip hskip
      rw [hgap, List.mem_append, not_or] at hquote hescape
      simp only [asides, hskip, hread, hskipped, List.forall_mem_cons] at hasides
      obtain ⟨hfiller, hasides⟩ := hasides
      have hgapped : Leads b gap b := leads_of_balanced hfiller rfl
      rw [hgap]
      by_cases hk : token.kind = .finish
      · have hend : found.rest = [] := by
          rcases Token.read_cases hread with ⟨hend, -⟩ | ⟨-, count, -, hspelt, -⟩
          · exact hend
          · exact absurd hk hspelt.ne_finish
        rw [hend]
        exact (h.completes_end fuel base hnext hk).mono (fun _ _ hdone => hgapped.completes hdone)
          fun _ _ _ => trivial
      · obtain ⟨lexeme, -, hfound, hwritten⟩ := Token.read_written hread hk
        rw [hfound, List.mem_append, not_or] at hquote hescape
        rw [hfound]
        -- What the rounds behind the lexeme close has been opened up to there.
        have onward {mode' : LexMode} {after' : Cursor} {passed : List Char} {b₁ : Bench ε}
            (hb : Handled mode' b lexeme b₁) (hafter : after.rest = passed ++ after'.rest)
            (hpassed : ∀ c ∈ passed, isMarker c = false)
            (hinner : ∀ aside ∈ asides fuel mode' after', Literal.Balanced aside) :
            Ends (rounds fuel mode' base after') b₁
              (fun _ _ => Completes b (gap ++ (lexeme ++ after.rest))) fun _ _ => True := by
          obtain ⟨hleads, M, v, hs⟩ := hb
          rw [hafter, List.mem_append, not_or] at hquote hescape
          refine (ih hs hquote.2.2.2 hescape.2.2.2 hinner).mono ?_ fun _ _ _ => trivial
          intro _ _ hdone
          rw [hafter]
          exact hgapped.completes (hleads.completes ((leads_of_plain hpassed rfl).completes hdone))
        have nothing : after.rest = [] ++ after.rest := rfl
        unfold rounds
        rw [ends_bind, ends_readToken, hnext]
        cases mode with
        | member => cases h.layout
        | operand =>
          simp only [List.forall_mem_append] at hasides ⊢
          have hpattern (raw : List Char) (hraw : token.kind = .regex raw) : Literal.Balanced raw :=
            hasides.1 raw (by simp [hraw, patterns])
          rw [ends_bind]
          refine (h.handled_operand (token.span.shift base) (nestedParse fuel) hwritten hk
            hquote.2.1 hescape.2.1 hpattern).mono ?_ fun _ _ _ => trivial
          rintro mode' b₁ ⟨rfl, hb⟩
          exact onward hb nothing (by simp) hasides.2
        | operator =>
          obtain ⟨kind, tokenSpan⟩ := token
          cases kind with
          | comma =>
            simp only at hasides ⊢
            rw [ends_bind]
            refine (h.handled_comma hwritten).mono ?_ fun _ _ _ => trivial
            intro _ b₁ hb
            exact onward hb nothing (by simp) hasides
          | operator symbol =>
            simp only at hasides ⊢
            obtain ⟨passed, hafter, hpassed⟩ := operatorReach_plainText symbol after
            rw [ends_bind]
            refine (h.handled_operator hwritten base after).mono ?_ fun _ _ _ => trivial
            rintro ⟨mode', after'⟩ b₁ ⟨heq, hb⟩
            obtain ⟨rfl, rfl⟩ := Prod.ext_iff.mp heq
            exact onward hb hafter hpassed hasides
          | finish => exact absurd rfl hk
          | _ => trivial

end TagExpr.Parse
