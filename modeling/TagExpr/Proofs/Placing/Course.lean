import TagExpr.Proofs.Placing.Track

/-!
# Two texts with the same tokens

A course says at which places of two texts the same is read, from there to the end of the texts
(`Course`). It is a track along which only the places differ, so the parses of two texts with the
same signature end alike (`Course.parse`).
-/

namespace TagExpr

variable {ε : Type} {R : SpanRelation}

/-! ## What is read at two places -/

/-- The same token is read at two places, or the same fault found. The spans are those in the
template, in which the texts begin at `base` and `base'`. -/
inductive SameRead (R : SpanRelation) (base base' : Nat)
    (Q : TokenKind → Span → Span → Cursor → Cursor → Prop) :
    Except LexError (Token × Cursor) → Except LexError (Token × Cursor) → Prop
  | token {kind : TokenKind} {span span' : Span} {after after' : Cursor} :
      R.rel (span.shift base) (span'.shift base') →
      Q kind (span.shift base) (span'.shift base') after after' →
      SameRead R base base' Q (.ok (⟨kind, span⟩, after)) (.ok (⟨kind, span'⟩, after'))
  | fault {fault : LexFault} {span span' : Span} : R.rel (span.shift base) (span'.shift base') →
      SameRead R base base' Q (.error ⟨fault, span⟩) (.error ⟨fault, span'⟩)

theorem SameRead.mono {base base' : Nat}
    {Q Q' : TokenKind → Span → Span → Cursor → Cursor → Prop}
    {r r' : Except LexError (Token × Cursor)} (h : SameRead R base base' Q r r')
    (hq : ∀ kind span span' after after', Q kind span span' after after' →
      Q' kind span span' after after') : SameRead R base base' Q' r r' := by
  cases h with
  | token hspan h => exact .token hspan (hq _ _ _ _ _ h)
  | fault hspan => exact .fault hspan

/-- The parts and the faults of a literal, whose contents begin at two places. Of the interpolated
sources holds `source`. -/
structure SameContents (R : SpanRelation) (source : List Char → Nat → Nat → Prop)
    (start start' : Nat) (raw : List Char) : Prop where
  unescape : ∀ e, Literal.unescape raw = .error e → R.rel (e.span.shift start) (e.span.shift start')
  split : ∀ e, Literal.split raw = .error e → R.rel (e.span.shift start) (e.span.shift start')
  name : ∀ parts, Literal.split raw = .ok parts → ∀ name place, .name name place ∈ parts →
    R.rel (Span.ofRange (start + place) (start + place + byteLength name))
      (Span.ofRange (start' + place) (start' + place + byteLength name))
  source : ∀ parts, Literal.split raw = .ok parts → ∀ text place, .expression text place ∈ parts →
    source text (start + place) (start' + place)

/-- After two streaming operators there are clauses with one name, or none. -/
inductive SameClause (at_ : Cursor → Cursor → Prop) (after after' : Cursor) : Prop
  | none : Signature.lambda? after = none → Signature.lambda? after' = none → at_ after after' →
      SameClause at_ after after'
  | clause {clause clause' : LambdaClause} : Signature.lambda? after = some clause →
      Signature.lambda? after' = some clause' → clause'.name = clause.name →
      at_ clause.body clause'.body → SameClause at_ after after'

theorem SameClause.mono {at_ at' : Cursor → Cursor → Prop} {after after' : Cursor}
    (h : SameClause at_ after after') (hat : ∀ c c', at_ c c' → at' c c') :
    SameClause at' after after' := by
  cases h with
  | none hnone hnone' h => exact .none hnone hnone' (hat _ _ h)
  | clause hsome hsome' hname h => exact .clause hsome hsome' hname (hat _ _ h)

/-- How two texts go on after an operator symbol: `at_` holds of the places, by mode, from which the
same is read. -/
def FollowsSymbol (at_ : LexMode → Cursor → Cursor → Prop) (symbol : String)
    (after after' : Cursor) : Prop :=
  if Operator.closers.contains symbol then
    at_ .operator after after'
  else
    match (Operator.findInfix? symbol).map Operator.kind with
    | some (.navigate _) => at_ .member after after'
    | some (.stream _) => SameClause (at_ .operand) after after'
    | _ => at_ .operand after after'

/-- How two texts go on after a token in operator position. -/
def FollowsOperator (at_ : LexMode → Cursor → Cursor → Prop) (kind : TokenKind)
    (after after' : Cursor) : Prop :=
  match kind with
  | .comma => at_ .operand after after'
  | .operator symbol => FollowsSymbol at_ symbol after after'
  | _ => True

/-- Places of two texts from which the same is read to their ends. A place is given by where its
text begins in the template and by a cursor in that text. -/
structure Course (R : SpanRelation) where
  at_ : LexMode → Nat → Nat → Cursor → Cursor → Prop
  operand : ∀ {base base' : Nat} {c c' : Cursor}, at_ .operand base base' c c' →
    SameRead R base base' (fun kind span span' after after' =>
        (kind ≠ .finish → at_ kind.modeAfter base base' after after') ∧
        ∀ raw doubleQuoted, kind = .str raw doubleQuoted →
          SameContents R (fun source start start' =>
              at_ .operand start start' (Cursor.start source) (Cursor.start source))
            (span.start + 1) (span'.start + 1) raw)
      (Token.next .operand c) (Token.next .operand c')
  operator : ∀ {base base' : Nat} {c c' : Cursor}, at_ .operator base base' c c' →
    SameRead R base base' (fun kind _ _ after after' =>
        FollowsOperator (at_ · base base') kind after after')
      (Token.next .operator c) (Token.next .operator c')
  member : ∀ {base base' : Nat} {c c' : Cursor}, at_ .member base base' c c' →
    SameRead R base base' (fun kind _ _ after after' =>
        FollowsMember (at_ · base base') kind after after')
      (Token.next .member c) (Token.next .member c')

/-! ## Courses are tracks -/

theorem SameRead.readsAlike {extensions : Extensions} {base base' : Nat}
    {Q : TokenKind → Span → Span → Cursor → Cursor → Prop}
    {Q' : TokenKind → TokenKind → Span → Span → Cursor → Cursor → Prop}
    {r r' : Except LexError (Token × Cursor)} (h : SameRead R base base' Q r r')
    (hq : ∀ kind span span' after after', Q kind span span' after after' →
      Q' kind kind span span' after after') :
    ReadsAlike (R.likeness extensions) base base' Q' r r' := by
  cases h with
  | token hspan h => exact .ok ⟨TokenKind.alike_of_unnamed rfl _, hspan, hq _ _ _ _ _ h⟩
  | fault hspan => exact .fault hspan

theorem SameContents.contents {extensions : Extensions} {source : List Char → Nat → Nat → Prop}
    {source' : List Char → List Char → Nat → Nat → Prop} {start start' : Nat} {raw : List Char}
    (h : SameContents R source start start' raw) (doubleQuoted : Bool)
    (hsource : ∀ text start start', source text start start' → source' text text start start') :
    LiteralsAlike (R.likeness extensions) source' start start' doubleQuoted raw raw := by
  obtain ⟨unescape, split, name, source⟩ := h
  refine ⟨fun _ => ?_, fun _ => ?_⟩
  · cases hr : Literal.unescape raw with
    | error e => exact .fault (unescape e hr)
    | ok text => exact .ok rfl
  · cases hr : Literal.split raw with
    | error e => exact .fault (split e hr)
    | ok parts =>
      refine .ok (List.forall₂_same.2 fun part hmem => ?_)
      cases part with
      | text text => exact .text text
      | name n place => exact .name rfl (name parts hr n place hmem)
      | expression text place => exact .expression (hsource _ _ _ (source parts hr text place hmem))

theorem SameClause.clauses {extensions : Extensions} {at_ : Cursor → Cursor → Prop}
    {after after' : Cursor} (h : SameClause at_ after after') :
    Clauses (R.likeness extensions) at_ after after' := by
  cases h with
  | none hnone hnone' h => exact .none hnone hnone' h
  | clause hsome hsome' hname h => exact .clause hsome hsome' hname h

theorem FollowsOperator.after {extensions : Extensions} {at_ : LexMode → Cursor → Cursor → Prop}
    {kind : TokenKind} {after after' : Cursor} (h : FollowsOperator at_ kind after after') :
    AfterOperator at_ (Clauses (R.likeness extensions) (at_ .operand)) kind after after' := by
  cases kind with
  | comma => exact h
  | operator symbol =>
    have h : FollowsSymbol at_ symbol after after' := h
    show AfterSymbol _ _ symbol after after'
    unfold FollowsSymbol at h
    unfold AfterSymbol
    split
    case isTrue hcloser => rwa [if_pos hcloser] at h
    case isFalse hcloser =>
      rw [if_neg hcloser] at h
      cases hkind : (Operator.findInfix? symbol).map Operator.kind with
      | none =>
        rw [hkind] at h
        exact h
      | some kind =>
        rw [hkind] at h
        cases kind with
        | stream op => exact SameClause.clauses h
        | _ => exact h
  | _ => exact trivial

/-- Along a course only the places differ. -/
def Course.track (K : Course R) (extensions : Extensions) : Track (R.likeness extensions) where
  at_ := K.at_
  operand h := (K.operand h).readsAlike fun _ _ _ _ _ h => ⟨h.1, by
    rintro raw _ doubleQuoted rfl ⟨⟩
    exact (h.2 raw doubleQuoted rfl).contents doubleQuoted fun _ _ _ h => h⟩
  operator h := .inr ((K.operator h).readsAlike fun _ _ _ _ _ h => h.after)
  member h := (K.member h).readsAlike fun _ _ _ _ _ h => h

/-- From places at which the same is read two parses end alike. -/
theorem Course.rounds (K : Course R) {base base' fuel fuel' : Nat} {c c' : Cursor}
    (h : K.at_ .operand base base' c c') (hfuel : c.rest.length < fuel)
    (hfuel' : c'.rest.length < fuel') (scope : TemplateScope ε) (tables : Parse.Tables ε) :
    Parse.Matches (R.likeness scope.extensions) (Parse.Operand.Twin (R.likeness scope.extensions))
      (Parse.rounds fuel .operand base c { scope, tables })
      (Parse.rounds fuel' .operand base' c' { scope, tables }) := by
  refine Parse.parallel_rounds (K.track scope.extensions) h (by simp) hfuel hfuel' _ _ ?_
  exact ⟨.of_likeness scope, tables.rename_id.symm, .nil, .nil⟩

/-! ## Whole texts -/

/-- Both parses succeed with answers that `Q` relates or fail for one cause, and they leave one
scope. -/
inductive SameOutcome {α : Type} (R : SpanRelation) (Q : α → α → Prop) :
    Except ParseError α × TemplateScope ε → Except ParseError α × TemplateScope ε → Prop
  | ok {a a' : α} {scope : TemplateScope ε} : Q a a' →
      SameOutcome R Q (.ok a, scope) (.ok a', scope)
  | error {e e' : ParseError} {scope : TemplateScope ε} : e.Twin R e' →
      SameOutcome R Q (.error e, scope) (.error e', scope)

/-- The expressions differ in their places only. -/
inductive Parsed.Twin (R : SpanRelation) : Parsed ε → Parsed ε → Prop
  | intro (p : Parsed ε) {span : Span} : R.rel p.span span → Twin R p { p with span }

/-- The signatures differ in places only. -/
structure Definition.Twin (R : SpanRelation) (base base' : Nat) (d d' : Definition) : Prop where
  name : d'.name = d.name
  nameSpan : R.rel (d.nameSpan.shift base) (d'.nameSpan.shift base')
  params : List.Forall₂ (fun p p' => p'.1 = p.1 ∧ R.rel (p.2.shift base) (p'.2.shift base'))
    d.params d'.params
  discard : d'.discard = d.discard

theorem Parsed.Alike.twin {extensions : Extensions} {p p' : Parsed ε}
    (h : p.Alike (R.likeness extensions) p') : p.Twin R p' := by
  obtain @⟨span, hspan⟩ := h
  have twin : p.Twin R { p with span } := .intro p hspan
  have name : p.name.map (R.likeness extensions).name = p.name := Option.map_id_apply
  have identifiers : (p.identifiers.map fun k => k.rename (R.likeness extensions).name) =
      p.identifiers := List.map_id p.identifiers
  rw [name, identifiers]
  exact twin

theorem AlikeOutcome.same {α : Type} {extensions : Extensions} {Q Q' : α → α → Prop}
    {r r' : Except ParseError α × TemplateScope ε}
    (h : AlikeOutcome (R.likeness extensions) Q r r') (hq : ∀ a a', Q a a' → Q' a a') :
    SameOutcome R Q' r r' := by
  cases h with
  | ok h hs =>
    obtain rfl := hs.eq_of_likeness
    exact .ok (hq _ _ h)
  | error he hs =>
    obtain rfl := hs.eq_of_likeness
    exact .error he
  | lenient h => exact absurd trivial h

/-- **Two texts with the same tokens parse alike.** -/
theorem Course.parse (K : Course R) {base base' : Nat} {text text' : String}
    {scope : TemplateScope ε}
    (hspan : R.rel ((Span.ofRange 0 (byteLength text.toList)).shift base)
      ((Span.ofRange 0 (byteLength text'.toList)).shift base'))
    (h : (definitionOf? scope.extensions text = none ∧ definitionOf? scope.extensions text' = none ∧
        K.at_ .operand base base' (Cursor.start text.toList) (Cursor.start text'.toList)) ∨
      ∃ d d', definitionOf? scope.extensions text = some d ∧
        definitionOf? scope.extensions text' = some d' ∧ d.Twin R base base' d' ∧
        K.at_ .operand base base' d.body d'.body) :
    SameOutcome R (Parsed.Twin R) (parse text base scope) (parse text' base' scope) := by
  refine (Track.parse (K.track scope.extensions) (.of_likeness scope) hspan ?_).same
    fun _ _ => Parsed.Alike.twin
  rcases h with h | ⟨d, d', hsome, hsome', ⟨name, nameSpan, params, discard⟩, hat⟩
  · exact .inl h
  · exact .inr ⟨d, d', hsome, hsome', ⟨name, nameSpan, params, discard⟩, hat⟩

end TagExpr
