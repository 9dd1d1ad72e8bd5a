import TagExpr.Proofs.Parse.Keeps
import TagExpr.Proofs.Token.NameTokens

/-!
# Texts that are no expressions

A text is refused if its tokens lead to a place where no token begins (`Refused`): whatever stands
before it and behind that place, no parse gets to the end of it (`Refused.answers`). Signatures and
clauses are refused as expressions, since nothing that may follow an operand begins with an arrow.
-/

namespace TagExpr

/-- From there on the tokens lead to a place where no token begins. -/
inductive Refused : LexMode → Cursor → Prop
  | lexeme {mode : LexMode} {c : Cursor} {e : LexError} : Token.next mode c = .error e →
      Refused mode c
  | operand {c after : Cursor} {kind : TokenKind} {span : Span} :
      Token.next .operand c = .ok (⟨kind, span⟩, after) → kind ≠ .finish →
      Refused kind.modeAfter after → Refused .operand c
  | comma {c after : Cursor} {span : Span} : Token.next .operator c = .ok (⟨.comma, span⟩, after) →
      Refused .operand after → Refused .operator c
  | symbol {c after : Cursor} {symbol : String} {span : Span} :
      Token.next .operator c = .ok (⟨.operator symbol, span⟩, after) →
      Operator.modeBehind symbol ≠ .member →
      (Operator.Streams symbol → Signature.lambda? after = none) →
      Refused (Operator.modeBehind symbol) after → Refused .operator c

namespace Parse

variable {ε : Type} {nested : List Char → Nat → Parse ε Operand}

theorem answers_ident (i : Ident) (span : Span) :
    Answers (· = (TokenKind.ident i).modeAfter) (ident i span : Parse ε LexMode) := by
  have next {α : Type} (step : Parse ε α) (mode : LexMode) :
      Answers (· = mode) (do let _ ← step; return mode : Parse ε LexMode) :=
    (answers_any step).bind fun _ _ => answers_pure rfl
  obtain ⟨kind, lookup, call⟩ := i
  unfold ident
  cases kind with
  | current => exact next _ _
  | internal name =>
    simp only
    split
    · exact answers_throw _ _
    · cases call with
      | true => exact (answers_any _).bind fun _ _ => next _ _
      | false => exact next _ _
  | annotated name =>
    refine (answers_any _).bind fun b _ => ?_
    cases call <;> simp only [if_true, Bool.false_eq_true, if_false] <;> split
    case true.isTrue | false.isTrue => exact (answers_any _).bind fun _ _ => next _ _
    case true.isFalse | false.isFalse => exact next _ _
  | name name =>
    cases call with
    | true => exact next _ _
    | false => exact (answers_any _).bind fun _ _ => next _ _

/-- What a token is followed by depends on nothing but the token. -/
theorem answers_operand (kind : TokenKind) (span : Span) :
    Answers (· = kind.modeAfter) (operand nested kind span) := by
  have next {α : Type} (step : Parse ε α) (mode : LexMode) :
      Answers (· = mode) (do let _ ← step; return mode : Parse ε LexMode) :=
    (answers_any step).bind fun _ _ => answers_pure rfl
  unfold operand
  cases kind with
  | null | bool | int | double | regex | emptyMap => exact next _ _
  | str => exact (answers_any _).bind fun _ _ => next _ _
  | ident i => exact answers_ident i span
  | operator symbol =>
    simp only [TokenKind.modeAfter]
    split
    · exact next _ _
    · split
      · exact answers_throw _ _
      · exact next _ _
  | comma => exact answers_throw _ _
  | finish =>
    refine (answers_any _).bind fun b _ => ?_
    split <;> exact answers_throw _ _

/-- An operator symbol other than that of navigation is followed by what its kind says. -/
theorem answers_symbol {symbol : String} (span : Span) (base : Nat) {at_ : Cursor}
    (hm : Operator.modeBehind symbol ≠ .member)
    (hs : Operator.Streams symbol → Signature.lambda? at_ = none) :
    Answers (· = (Operator.modeBehind symbol, at_))
      (operator symbol span base at_ : Parse ε (LexMode × Cursor)) := by
  unfold Operator.modeBehind at hm ⊢
  unfold operator
  split
  case isTrue => exact (answers_any _).bind fun _ _ => answers_pure rfl
  case isFalse hcloser =>
    rw [if_neg hcloser] at hm
    cases hop : Operator.findInfix? symbol with
    | none => exact answers_throw _ _
    | some op =>
      have hstream (stream : StreamOp) (hk : op.kind = .stream stream) :
          Signature.lambda? at_ = none :=
        hs ⟨Bool.eq_false_iff.mpr hcloser, stream, by rw [hop, Option.map_some, hk]⟩
      rw [hop] at hm
      simp only [Option.map_some] at hm ⊢
      have wait (extra : Extra) : Answers (· = (LexMode.operand, at_))
          (do pushOperator op span extra; return (.operand, at_) : Parse ε (LexMode × Cursor)) :=
        (answers_any _).bind fun _ _ => answers_pure rfl
      cases hk : op.kind with
      | navigate safe => simp [hk] at hm
      | colon =>
        simp only
        exact (answers_any _).bind fun _ _ => answers_pure rfl
      | assign | bind =>
        simp only
        exact (answers_any _).bind fun _ _ => (answers_any _).bind fun _ _ => wait _
      | stream stream =>
        simp only
        refine (answers_any _).bind fun _ _ => ?_
        have clause :
            Answers (fun r => r.2 = at_) (streamClause at_ : Parse ε (Extra × Cursor)) := by
          refine (answers_any _).bind fun b _ => ?_
          rw [hstream stream hk]
          exact answers_pure rfl
        refine clause.bind ?_
        rintro ⟨extra, _⟩ rfl
        exact wait extra
      | _ =>
        simp only
        exact (answers_any _).bind fun _ _ => wait .plain

end Parse

open Parse

/-- **No parse gets past a place that is refused.** -/
theorem Refused.answers {ε : Type} {mode : LexMode} {c : Cursor} (h : Refused mode c)
    (fuel base : Nat) : Answers (fun _ => False) (rounds fuel mode base c : Parse ε Operand) := by
  have read {mode : LexMode} {c after : Cursor} {kind : TokenKind} {span : Span}
      (hnext : Token.next mode c = .ok (⟨kind, span⟩, after)) :
      (readToken mode base c : Parse ε (TokenKind × Span × Cursor)) =
        pure (kind, span.shift base, after) := by
    simp only [readToken, hnext]
  induction h generalizing fuel with
  | lexeme hnext =>
    cases fuel with
    | zero => exact answers_throw _ _
    | succ fuel =>
      intro b
      unfold rounds
      rw [ends_bind, ends_readToken, hnext]
      trivial
  | operand hnext hfinish _ ih =>
    cases fuel with
    | zero => exact answers_throw _ _
    | succ fuel =>
      unfold rounds
      rw [read hnext, pure_bind]
      refine (answers_operand _ _).bind ?_
      rintro _ rfl
      exact ih fuel
  | comma hnext _ ih =>
    cases fuel with
    | zero => exact answers_throw _ _
    | succ fuel =>
      unfold rounds
      rw [read hnext, pure_bind]
      exact (answers_any _).bind fun _ _ => ih fuel
  | symbol hnext hm hs _ ih =>
    cases fuel with
    | zero => exact answers_throw _ _
    | succ fuel =>
      unfold rounds
      rw [read hnext, pure_bind]
      refine (answers_symbol _ base hm hs).bind ?_
      rintro _ rfl
      exact ih fuel

/-- No run of the parser gets past a place that is refused. -/
theorem Refused.error {ε : Type} {mode : LexMode} {c : Cursor} (h : Refused mode c)
    (fuel base : Nat) (b : Bench ε) : ∃ e b', rounds fuel mode base c b = .error e b' := by
  have hends := h.answers fuel base b
  unfold Ends at hends
  cases hb : rounds fuel mode base c b with
  | ok o b' =>
    rw [hb] at hends
    exact hends.elim
  | error e b' => exact ⟨e, b', rfl⟩

/-- A text that is refused does not parse, unless it is a definition. -/
theorem Refused.parse {ε : Type} {text : String} {scope : TemplateScope ε}
    (h : Refused .operand (Cursor.start text.toList))
    (hnone : definitionOf? scope.extensions text = none) (offset : Nat) :
    ∃ e scope', parse text offset scope = (.error e, scope') := by
  obtain ⟨e, b, herror⟩ := h.error (text.toList.length + 1) offset { scope, tables := {} }
  have hrun : Parsed.runFrom scope {} offset (Cursor.start text.toList) = (.error e, b.scope) := by
    unfold Parsed.runFrom Parse.whole EStateM.run
    rw [show (Cursor.start text.toList).rest.length = text.toList.length from rfl, herror]
  unfold definitionOf? at hnone
  unfold TagExpr.parse
  simp only [hnone, hrun]
  exact ⟨e, b.scope, rfl⟩

/-! ## Signatures -/

namespace Signature

open Token

variable {c : Cursor} {gap name rest : List Char} {lexemes : List (List Char)}

theorem starts_of_isName (hn : IsName name) (rest : List Char) : Starts (name ++ rest) := by
  obtain ⟨d, more, hcons, hd⟩ := IsName.head hn rest
  rw [hcons]
  exact starts_of_isNamePart (isNamePart_of_isNameStart hd) more

/-- A word, not called, and something refused. -/
theorem refused_word (hn : IsName name) (h : NameEnds false rest)
    (hgap : ∀ c ∈ gap, Text.isSeparator c) (hat : c.rest = gap ++ (name ++ rest))
    (hlater : ∀ after : Cursor, after.rest = rest → Refused .operator after) :
    Refused .operand c := by
  obtain ⟨found, hnext, hfound⟩ :=
    next_gap (show LexMode.operand ≠ .member by simp) hat hgap (starts_of_isName hn rest)
  obtain ⟨kind, span, after, hread, hfinish, hmode, hrest⟩ := read_word hn h hfound
  exact .operand (hnext.trans hread) hfinish (hmode ▸ hlater after hrest)

/-- A symbol and something refused. -/
theorem refused_symbol (symbol : String) (hgap : ∀ c ∈ gap, Text.isSeparator c)
    (hat : c.rest = gap ++ (symbol.toList ++ rest)) (hs : Starts (symbol.toList ++ rest))
    (hne : symbol.toList ≠ [])
    (hlength : symbolLength operatorSymbols (symbol.toList ++ rest) = symbol.toList.length)
    (hmember : Operator.modeBehind symbol ≠ .member) (hstreams : ¬ Operator.Streams symbol)
    (hlater : ∀ after : Cursor, after.rest = rest → Refused (Operator.modeBehind symbol) after) :
    Refused .operator c := by
  obtain ⟨span, after, hnext, hrest⟩ := next_of_symbol hat hgap hs hne hlength
  by_cases hcomma : symbol = ","
  · subst hcomma
    exact .comma hnext (hlater after hrest)
  · rw [if_neg hcomma] at hnext
    exact .symbol hnext hmember (fun h => absurd h hstreams) (hlater after hrest)

/-- Where an operand is expected no token begins with the head of an arrow. -/
theorem refused_head (hat : c.rest = '>' :: rest) : Refused .operand c := by
  have none_before : ∀ d ∈ ([] : List Char), Text.isSeparator d := by simp
  obtain ⟨found, hnext, hrest⟩ := next_gap (show LexMode.operand ≠ .member by simp)
    (show c.rest = [] ++ '>' :: rest from hat) none_before (starts_cons rfl (by simp) rest)
  have none : longestClass? ('>' :: rest) = none := rfl
  have hread : Token.read .operand found =
      .error ⟨.unexpectedChar '>' .operand, spanOf found (faultLength .operand found.rest)⟩ := by
    simp only [Token.read, hrest, none]
    rfl
  exact .lexeme (hnext.trans hread)

/-- No operand is followed by an arrow. -/
theorem refused_arrow {discard : Bool} (hgap : ∀ c ∈ gap, Text.isSeparator c)
    (hat : c.rest = gap ++ (arrow discard ++ rest)) : Refused .operator c := by
  cases discard with
  | true =>
    refine refused_symbol "=" hgap hat (starts_cons (c := '=') rfl (by decide) _) (by simp) rfl
      (by decide) ?_ fun after hafter => refused_head hafter
    rintro ⟨-, op, h⟩
    cases h
  | false =>
    refine refused_symbol "-" hgap hat (starts_cons (c := '-') rfl (by decide) _) (by simp) rfl
      (by decide) ?_ fun after hafter => refused_head hafter
    rintro ⟨-, op, h⟩
    cases h

/-- A name ends before separators, and before a lexeme that neither goes on with it nor calls it. -/
theorem nameEnds_laid {d : Char} {lexeme written : List Char}
    (h : Laid ((d :: lexeme) :: lexemes) written) (hd : isNamePart d = false) (hparen : d ≠ '(')
    (rest : List Char) : NameEnds false (written ++ rest) := by
  obtain ⟨gap, after, rfl, hgap, -⟩ := laid_cons_iff.mp h
  intro _
  cases gap with
  | nil => exact ⟨fun e he => by cases he; exact hd, fun heq => hparen (Option.some.inj heq)⟩
  | cons e gap =>
    have he := hgap e List.mem_cons_self
    refine ⟨fun f hf => ?_, fun heq => ?_⟩
    · cases hf
      exact separator_cases (P := fun c => isNamePart c = false) (by decide) e he
    · exact separator_cases (P := (· ≠ '(')) (by decide) e he (Option.some.inj heq)

theorem nameEnds_laterParams {names : List (List Char)} {written : List Char}
    (h : Laid (laterParams names ++ lexemes) written) (rest : List Char) :
    NameEnds false (written ++ rest) := by
  cases names with
  | nil => exact nameEnds_laid h rfl (by decide) rest
  | cons name names => exact nameEnds_laid h rfl (by decide) rest

/-- After a parameter comes the rest of the list, and then no operator but an arrow. -/
theorem refused_laterParams {names : List (List Char)} {written : List Char} {discard : Bool}
    (hnames : ∀ n ∈ names, IsName n) (h : Laid (laterParams names ++ [arrow discard]) written)
    (hat : c.rest = written ++ rest) : Refused .operator c := by
  induction names generalizing c written with
  | nil =>
    obtain ⟨gap, after, rfl, hgap, h⟩ := laid_cons_iff.mp h
    obtain ⟨gap', last, rfl, hgap', h⟩ := laid_cons_iff.mp h
    cases h
    have hat : c.rest = gap ++ (")".toList ++ (gap' ++ (arrow discard ++ rest))) := by
      simpa using hat
    refine refused_symbol ")" hgap hat (starts_cons (c := ')') rfl (by decide) _) (by simp) rfl
      (by decide) ?_ fun after hafter => refused_arrow hgap' hafter
    rintro ⟨hcloser, -⟩
    cases hcloser
  | cons name names ih =>
    obtain ⟨gap, after, rfl, hgap, h⟩ := laid_cons_iff.mp h
    obtain ⟨gap', last, rfl, hgap', h⟩ := laid_cons_iff.mp h
    have hat : c.rest = gap ++ (",".toList ++ (gap' ++ (name ++ (last ++ rest)))) := by
      simpa using hat
    refine refused_symbol "," hgap hat (starts_cons (c := ',') rfl (by decide) _) (by simp) rfl
      (by decide) ?_ fun after hafter => ?_
    · rintro ⟨-, op, h⟩
      cases h
    · exact refused_word (hnames name List.mem_cons_self) (nameEnds_laterParams h rest) hgap' hafter
        fun later hlater => ih (fun n hn => hnames n (List.mem_cons_of_mem _ hn)) h hlater

/-- A name and an arrow. -/
theorem refused_bare {written : List Char} {discard : Bool} (hn : IsName name)
    (h : Laid [name, arrow discard] written) (hat : c.rest = written ++ rest) :
    Refused .operand c := by
  obtain ⟨gap, after, rfl, hgap, h⟩ := laid_cons_iff.mp h
  have hends : NameEnds false (after ++ rest) := by
    cases discard <;> exact nameEnds_laid h rfl (by decide) rest
  obtain ⟨gap', last, rfl, hgap', h⟩ := laid_cons_iff.mp h
  cases h
  refine refused_word hn hends hgap (by simpa using hat) fun later hlater => ?_
  have hlater : later.rest = gap' ++ (arrow discard ++ rest) := by simpa using hlater
  exact refused_arrow hgap' hlater

/-- A parameter list from behind its parenthesis, and an arrow. -/
theorem refused_params {names : List (List Char)} {written : List Char} {discard : Bool}
    (hnames : ∀ n ∈ names, IsName n) (h : Laid (paramLexemes names ++ [arrow discard]) written)
    (hat : c.rest = written ++ rest) : Refused .operand c := by
  cases names with
  | nil =>
    obtain ⟨gap, after, rfl, hgap, h⟩ := laid_cons_iff.mp h
    obtain ⟨gap', last, rfl, hgap', h⟩ := laid_cons_iff.mp h
    cases h
    have hat : c.rest = gap ++ ([')'] ++ (gap' ++ (arrow discard ++ rest))) := by simpa using hat
    have hclass :
        longestClass? ([')'] ++ (gap' ++ (arrow discard ++ rest))) = some (.symbol, 1) := rfl
    obtain ⟨span, later, hnext, hrest⟩ :=
      next_of_class hat hgap (starts_cons (c := ')') rfl (by decide) _) (by simp) hclass rfl
    exact .operand hnext (by simp) (refused_arrow hgap' hrest)
  | cons name names =>
    obtain ⟨gap, after, rfl, hgap, h⟩ := laid_cons_iff.mp h
    exact refused_word (hnames name List.mem_cons_self) (nameEnds_laterParams h rest) hgap
      (by simpa using hat)
      fun later hlater =>
        refused_laterParams (fun n hn => hnames n (List.mem_cons_of_mem _ hn)) h hlater

/-- **A clause is no expression**: its name is refused at the arrow. -/
theorem refused_of_lambda? {clause : LambdaClause} (h : lambda? c = some clause) :
    Refused .operand c := by
  obtain ⟨written, hat, ⟨hname, -⟩, hlaid⟩ := lambda?_laid h
  have hlaid : Laid [clause.name.toList, arrow false] written := hlaid
  exact refused_bare hname hlaid hat

/-- **The signature of a definition is no expression**, whatever its parameters and its arrow
are. -/
theorem refused_of_definition? {text : List Char} {d : Definition} (h : definition? text = some d) :
    Refused .operand (Cursor.start text) := by
  obtain ⟨lexemes, written, htext, ⟨hname, -⟩, hparams, hheads, hlaid⟩ := definition?_laid h
  have hat : (Cursor.start text).rest = written ++ d.body.rest := htext
  have params : ∀ n ∈ d.params.map (·.1.toList), IsName n := List.forall_mem_map.mpr hparams
  generalize d.params.map (·.1.toList) = names at params hheads
  cases hheads with
  | bare => exact refused_bare hname hlaid hat
  | list =>
    obtain ⟨gap, after, rfl, hgap, hlaid⟩ := laid_cons_iff.mp hlaid
    obtain ⟨found, hnext, hfound⟩ := next_gap (show LexMode.operand ≠ .member by simp)
      (hat.trans (by simp)) hgap (starts_of_isName hname ('(' :: (after ++ d.body.rest)))
    have hcall : NameEnds true (after ++ d.body.rest) := by simp [NameEnds]
    obtain ⟨span, next, hread, hrest⟩ := read_name .none hname hcall (by simp) hfound
    exact .operand (hnext.trans hread) (by simp) (refused_params params hlaid hrest)

end Signature

end TagExpr
