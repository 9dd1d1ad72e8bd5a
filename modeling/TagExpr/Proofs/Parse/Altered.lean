import TagExpr.Proofs.Parse.Advance
import TagExpr.Proofs.Parse.Grouping
import TagExpr.Proofs.Parse.Trails

/-!
# Texts that go on otherwise

Two texts are the same up to some place. Where no token, clause or signature that ends before that
place depends on what follows it (`Alters`), the runs of both texts do the same up to there
(`Proceeds.altered`), and the whole parses end alike if the rest of the runs do
(`Proceeds.parse_altered`).
-/

namespace TagExpr

/-- A text may go on with `t` where it went on with `x`. What is read before that place is read
again. -/
structure Alters (x t : List Char) (more : Nat) : Prop where
  token : ∀ p, Token.Keeps p x t
  clause : ∀ p, Signature.Begins Signature.ClauseLexemes (p ++ t) →
    Signature.Begins Signature.ClauseLexemes (p ++ x)
  definition : ∀ p, Signature.Begins Signature.DefinitionLexemes (p ++ t) →
    Signature.Begins Signature.DefinitionLexemes (p ++ x)
  length : t.length = x.length + more

variable {ε α β : Type} {x t p : List Char} {more : Nat} {c c' d : Cursor}

/-! ## Signatures -/

namespace Signature

theorem lambda?_altered_none (alters : Alters x t more) (alt : c.Altered x t c')
    (h : lambda? c = none) : lambda? c' = none := by
  obtain ⟨q, hq, rfl⟩ := alt
  rw [lambda?_eq_none_iff, hq] at h
  rw [lambda?_eq_none_iff]
  exact fun begins => h (alters.clause q begins)

theorem lambda?_altered {clause : LambdaClause} (alt : c.Altered x t c')
    (h : lambda? c = some clause) (hx : x <:+ clause.body.rest) :
    ∃ clause', lambda? c' = some clause' ∧ clause'.name = clause.name ∧
      clause.body.Altered x t clause'.body := by
  obtain ⟨q, hq⟩ := hx
  obtain ⟨written, hrest, -, hlaid⟩ := lambda?_laid h
  have hrest' : c'.rest = written ++ (q ++ t) := by
    obtain ⟨p, hp, rfl⟩ := alt
    rw [hp, ← hq, ← List.append_assoc] at hrest
    rw [List.append_cancel_right hrest, List.append_assoc]
  obtain ⟨clause', again, hname, hbody⟩ := lambda?_laid_again h hrest' hlaid
  exact ⟨clause', again, hname,
    (lambda?_reaches h).altered (lambda?_reaches again) alt hq.symm hbody⟩

end Signature

/-- Both texts are no definitions, or they have the same signature. -/
theorem definitionOf?_altered {text text' : String} {extensions : Extensions}
    (alters : Alters x t more) (htext : text.toList = p ++ x) (htext' : text'.toList = p ++ t)
    (hx : x <:+ (bodyOf extensions text).rest) (offset : Nat) :
    (definitionOf? extensions text = none ∧ definitionOf? extensions text' = none ∧
        (Cursor.start text.toList).Altered x t (Cursor.start text'.toList)) ∨
      ∃ d d', definitionOf? extensions text = some d ∧ definitionOf? extensions text' = some d' ∧
        d.Twin .anywhere offset offset d' ∧ d.body.Altered x t d'.body := by
  have start : (Cursor.start text.toList).Altered x t (Cursor.start text'.toList) :=
    ⟨p, htext, congrArg Cursor.start htext'⟩
  cases hd : definitionOf? extensions text with
  | none =>
    refine .inl ⟨rfl, ?_, start⟩
    rw [definitionOf?_eq_none] at hd ⊢
    intro named
    have none := hd named
    rw [Signature.definition?_eq_none_iff, htext] at none
    rw [Signature.definition?_eq_none_iff, htext']
    exact fun begins => none (alters.definition p begins)
  | some d =>
    obtain ⟨named, hsome⟩ := definitionOf?_eq_some.mp hd
    rw [bodyOf, hd] at hx
    obtain ⟨q, hq⟩ := hx
    obtain ⟨lexemes, written, hrest, -, -, hheads, hlaid⟩ := Signature.definition?_laid hsome
    have hrest' : text'.toList = written ++ (q ++ t) := by
      rw [htext, ← hq, ← List.append_assoc] at hrest
      rw [htext', List.append_cancel_right hrest, List.append_assoc]
    obtain ⟨d', again, twin, hbody⟩ :=
      Signature.definition?_laid_again hsome hheads hlaid hrest' offset offset
    exact .inr ⟨d, d', rfl, definitionOf?_eq_some.mpr ⟨named, again⟩, twin,
      (Signature.definition?_reaches hsome).1.altered (Signature.definition?_reaches again).1 start
        hq.symm hbody⟩

namespace Parse

variable {b b' : Bench ε} {span : Span} {base : Nat} {mode : LexMode} {symbol : String}

theorem bind_of_ok {step : Parse ε α} {next : α → Parse ε β} {a : α} (h : step b = .ok a b') :
    (step >>= next) b = next a b' := by
  simp only [Bind.bind, EStateM.bind, h]

theorem get_bind (next : Bench ε → Parse ε α) (b : Bench ε) : (get >>= next) b = next b b := rfl

/-! ## One token -/

theorem navigate_altered {safe : Bool} (alters : Alters x t more) (alt : c.Altered x t c')
    (ran : navigate safe span base c b = .ok (mode, d) b') (hx : x <:+ d.rest) :
    ∃ d', navigate safe span base c' b = .ok (mode, d') b' ∧ d.Altered x t d' := by
  unfold navigate at ran ⊢
  cases hnext : Token.next .member c with
  | error e =>
    rw [readToken_of_error hnext] at ran
    cases ran
  | ok r =>
    obtain ⟨⟨kind, memberSpan⟩, after⟩ := r
    rw [readToken_of_next hnext, pure_bind] at ran
    simp only at ran
    split at ran
    case h_2 => cases ran
    case h_1 name lookup call =>
      have again (hd : x <:+ after.rest) :=
        Token.next_altered alters.token hnext (by simp) alt hd
      cases call with
      | true =>
        obtain ⟨_, b₁, hpush, ran⟩ := exists_of_bind ran
        cases ran
        obtain ⟨d', hnext', alt'⟩ := again hx
        rw [readToken_of_next hnext', pure_bind]
        exact ⟨d', bind_of_ok hpush, alt'⟩
      | false =>
        obtain ⟨receiver, b₁, hpop, ran⟩ := exists_of_bind ran
        obtain ⟨member, b₂, hident, ran⟩ := exists_of_bind ran
        obtain ⟨_, b₃, hpush, ran⟩ := exists_of_bind ran
        cases ran
        obtain ⟨d', hnext', alt'⟩ := again hx
        rw [readToken_of_next hnext', pure_bind]
        refine ⟨d', ?_, alt'⟩
        exact (bind_of_ok hpop).trans ((bind_of_ok hident).trans (bind_of_ok hpush))

theorem streamClause_altered {extra : Extra} (alters : Alters x t more) (alt : c.Altered x t c')
    (ran : streamClause c b = .ok (extra, d) b') (hx : x <:+ d.rest) :
    ∃ d', streamClause c' b = .ok (extra, d') b' ∧ d.Altered x t d' := by
  unfold streamClause at ran ⊢
  obtain ⟨_, _, ⟨⟩, ran⟩ := exists_of_bind ran
  rw [get_bind]
  cases hclause : Signature.lambda? c with
  | none =>
    simp only [hclause] at ran
    cases ran
    simp only [Signature.lambda?_altered_none alters alt hclause]
    exact ⟨c', rfl, alt⟩
  | some clause =>
    simp only [hclause] at ran
    obtain ⟨slot, b₁, hdeclare, ran⟩ := exists_of_bind ran
    cases ran
    obtain ⟨clause', hclause', hname, alt'⟩ := Signature.lambda?_altered alt hclause hx
    simp only [hclause', hname]
    exact ⟨clause'.body, bind_of_ok hdeclare, alt'⟩

/-- What stands behind the symbol is read again. -/
theorem operator_altered (alters : Alters x t more) (alt : c.Altered x t c')
    (ran : operator symbol span base c b = .ok (mode, d) b') (hx : x <:+ d.rest) :
    ∃ d', operator symbol span base c' b = .ok (mode, d') b' ∧ d.Altered x t d' := by
  unfold operator at ran ⊢
  split at ran
  case isTrue closer =>
    rw [if_pos closer]
    obtain ⟨_, b₁, hclose, ran⟩ := exists_of_bind ran
    cases ran
    exact ⟨c', bind_of_ok hclose, alt⟩
  case isFalse closer =>
    rw [if_neg closer]
    cases hop : Operator.findInfix? symbol with
    | none =>
      rw [hop] at ran
      cases ran
    | some op =>
      rw [hop] at ran
      simp only at ran ⊢
      cases hk : op.kind with
      | navigate safe =>
        simp only [hk] at ran ⊢
        exact navigate_altered alters alt ran hx
      | colon =>
        simp only [hk] at ran ⊢
        obtain ⟨_, b₁, hcolon, ran⟩ := exists_of_bind ran
        cases ran
        exact ⟨c', bind_of_ok hcolon, alt⟩
      | stream op =>
        simp only [hk] at ran ⊢
        obtain ⟨_, b₁, hreduce, ran⟩ := exists_of_bind ran
        obtain ⟨⟨extra, e⟩, b₂, hclause, ran⟩ := exists_of_bind ran
        obtain ⟨_, b₃, hpush, ran⟩ := exists_of_bind ran
        cases ran
        obtain ⟨d', hclause', alt'⟩ := streamClause_altered alters alt hclause hx
        refine ⟨d', ?_, alt'⟩
        exact (bind_of_ok hreduce).trans ((bind_of_ok hclause').trans (bind_of_ok hpush))
      | assign | bind =>
        simp only [hk, pure_bind] at ran ⊢
        obtain ⟨_, b₁, hreduce, ran⟩ := exists_of_bind ran
        obtain ⟨extra, b₂, htarget, ran⟩ := exists_of_bind ran
        obtain ⟨_, b₃, hpush, ran⟩ := exists_of_bind ran
        cases ran
        refine ⟨c', ?_, alt⟩
        exact (bind_of_ok hreduce).trans ((bind_of_ok htarget).trans (bind_of_ok hpush))
      | _ =>
        simp only [hk, pure_bind] at ran ⊢
        obtain ⟨_, b₁, hreduce, ran⟩ := exists_of_bind ran
        obtain ⟨_, b₂, hpush, ran⟩ := exists_of_bind ran
        cases ran
        exact ⟨c', (bind_of_ok hreduce).trans (bind_of_ok hpush), alt⟩

/-! ## Rounds -/

variable {r r' s first first' : Round ε} {kind : TokenKind}

/-- The run of the first round comes to the second one in the same text. -/
abbrev Proceeds : Round ε → Round ε → Prop :=
  Relation.ReflTransGen fun r s => ∃ kind, Reads kind r s

theorem Proceeds.visits (h : Proceeds first r) : Visits first r :=
  Relation.ReflTransGen.mono (fun _ _ ⟨_, hread⟩ => hread.enters) _ _ h

theorem Reads.base_eq (h : Reads kind r s) : s.base = r.base := by
  cases h <;> rfl

theorem Proceeds.base_eq (h : Proceeds first r) : r.base = first.base := by
  induction h with
  | refl => rfl
  | tail _ hstep ih =>
    obtain ⟨_, hread⟩ := hstep
    exact hread.base_eq.trans ih

theorem Reads.reaches (h : Reads kind r s) (laid : r.LaidOut) : r.at_.Reaches s.at_ := by
  cases h with
  | operand hnext _ | comma hnext _ => exact Token.reaches_of_next hnext
  | @operator fuel base mode at_ after after' symbol span b b' hnext ran =>
    obtain ⟨_, _, stands⟩ := laid.1
    have behind := operatorReach_reaches symbol after
    rw [← ((stands.operator symbol _ base after).ok ran).1] at behind
    exact (Token.reaches_of_next hnext).trans behind

theorem Proceeds.reaches (h : Proceeds first r) (laid : first.LaidOut) :
    first.at_.Reaches r.at_ := by
  induction h with
  | refl => exact .refl _
  | tail hp hstep ih =>
    obtain ⟨_, hread⟩ := hstep
    exact ih.trans (hread.reaches ((Proceeds.visits hp).laidOut laid))

theorem Reads.run (h : Reads kind r s) : r.run = s.run := by
  unfold Round.run
  cases h with
  | operand hnext ran =>
    rw [rounds_operand hnext]
    exact bind_of_ok ran
  | comma hnext ran | operator hnext ran =>
    rw [rounds_operator hnext]
    exact bind_of_ok ran

/-- What the run of the first round ends in, the run of the round ends in. -/
theorem Proceeds.run (h : Proceeds first r) : first.run = r.run := by
  induction h with
  | refl => rfl
  | tail _ hstep ih =>
    obtain ⟨_, hread⟩ := hstep
    exact ih.trans hread.run

/-- The round at the same place of the altered text, with fuel for what is longer. -/
def Round.Altered (x t : List Char) (more : Nat) (r r' : Round ε) : Prop :=
  ∃ c, r.at_.Altered x t c ∧ r' = { r with fuel := r.fuel + more, at_ := c }

theorem Reads.altered (alters : Alters x t more) (h : Reads kind r s) (laid : r.LaidOut)
    (alt : r.Altered x t more r') (hx : x <:+ s.at_.rest) :
    ∃ s', Reads kind r' s' ∧ s.Altered x t more s' := by
  obtain ⟨c, alt, rfl⟩ := alt
  cases h with
  | @operand fuel base at_ after token mode b b' hnext ran =>
    have hk : token.kind ≠ .finish := fun hk => by
      rw [hk] at ran
      exact (answers_operand_finish _ b).ok ran
    obtain ⟨d, hnext', alt'⟩ := Token.next_altered alters.token hnext hk alt hx
    have nested : Parse.operand (nestedParse fuel) token.kind (token.span.shift base) =
        (Parse.operand (nestedParse (fuel + more)) token.kind (token.span.shift base) :
          Parse ε LexMode) := by
      obtain ⟨kind, span⟩ := token
      refine operand_congr _ ?_
      rintro raw doubleQuoted source rfl hlt
      have hle := (Token.infix_of_str hnext).length_le
      have lasts : at_.rest.length < fuel + 1 := laid.2
      funext start
      exact rounds_eq .operand start (by simp only [Cursor.start]; omega)
        (by simp only [Cursor.start]; omega)
    rw [nested] at ran
    refine ⟨⟨fuel + more, mode, base, d, b'⟩, ?_, d, alt', rfl⟩
    rw [Nat.add_right_comm]
    exact .operand hnext' ran
  | @comma fuel base at_ after span b b' hnext ran =>
    obtain ⟨d, hnext', alt'⟩ := Token.next_altered alters.token hnext (by simp) alt hx
    refine ⟨⟨fuel + more, .operand, base, d, b'⟩, ?_, d, alt', rfl⟩
    rw [Nat.add_right_comm]
    exact .comma hnext' ran
  | @operator fuel base mode at_ after after' symbol span b b' hnext ran =>
    have hafter : x <:+ after.rest := hx.trans ((answers_operator symbol _ base after b).ok ran)
    obtain ⟨d, hnext', alt'⟩ := Token.next_altered alters.token hnext (by simp) alt hafter
    obtain ⟨d', ran', alt''⟩ := operator_altered alters alt' ran hx
    refine ⟨⟨fuel + more, mode, base, d', b'⟩, ?_, d', alt'', rfl⟩
    rw [Nat.add_right_comm]
    exact .operator hnext' ran'

/-- **Both runs do the same up to the place where the texts go on otherwise.** -/
theorem Proceeds.altered (alters : Alters x t more) (h : Proceeds first r)
    (laid : first.LaidOut) (alt : first.Altered x t more first') (hx : x <:+ r.at_.rest) :
    ∃ r', Proceeds first' r' ∧ r.Altered x t more r' := by
  induction h with
  | refl => exact ⟨first', .refl, alt⟩
  | tail hp hstep ih =>
    obtain ⟨kind, hread⟩ := hstep
    have laid' := (Proceeds.visits hp).laidOut laid
    obtain ⟨passed, hpassed, -⟩ := hread.reaches laid'
    obtain ⟨s', hs', alt'⟩ := ih (hx.trans ⟨passed, hpassed.symm⟩)
    obtain ⟨r', hr', alt''⟩ := hread.altered alters laid' alt' hx
    exact ⟨r', hs'.tail ⟨kind, hr'⟩, alt''⟩

/-- What follows is parsed alike wherever it stands. -/
theorem parallel_rounds_same {extensions : Extensions} {fuel fuel' base' : Nat}
    (h : c'.rest = c.rest) (hmode : mode ≠ .member) (lasts : c.rest.length < fuel)
    (lasts' : c'.rest.length < fuel') :
    Parallel (SpanRelation.anywhere.likeness extensions)
      (Operand.Twin (SpanRelation.anywhere.likeness extensions))
      (rounds fuel mode base c : Parse ε Operand) (rounds fuel' mode base' c') := by
  have nothing : IsFiller false [] := .separators (by simp)
  exact parallel_rounds ((Course.filled nothing).track extensions) (.same h) hmode lasts lasts'

/-! ## Whole texts -/

variable {text text' : String} {offset : Nat} {scope : TemplateScope ε}

/-- The parse of a text is made of how its run ends. -/
theorem parse_of_firstRound (hfirst : firstRound? text offset scope = some first) :
    parse text offset scope =
      match definitionOf? scope.extensions text, first.run with
      | none, .ok o b => (.ok (.ofOperand o b.tables none 0 o.binds
          ((Span.ofRange 0 (byteLength text.toList)).shift offset)), b.scope)
      | none, .error e b => (.error e, b.scope)
      | some d, .ok o b => (.ok (.ofOperand o b.tables (some d.name) d.params.length d.discard
          ((Span.ofRange 0 (byteLength text.toList)).shift offset)), b.scope)
      | some d, .error e b => (.error e, b.scope.abandon d.name) := by
  unfold firstRound? at hfirst
  cases hd : definitionOf? scope.extensions text with
  | none =>
    rw [hd] at hfirst
    cases hfirst
    rw [parse_of_no_definition hd]
    cases Round.run _ <;> rfl
  | some d =>
    rw [hd] at hfirst
    simp only at hfirst
    split at hfirst
    case isTrue => cases hfirst
    case isFalse unnamed =>
      split at hfirst
      case h_1 => cases hfirst
      case h_2 tables declared =>
        cases hfirst
        rw [definitionOf?] at hd
        simp only [parse, hd, Parsed.ofDefinition, if_neg unnamed, declared, runFrom_eq]
        cases Round.run _ <;> rfl

theorem firstRound?_altered (alters : Alters x t more)
    (hfirst : firstRound? text offset scope = some first) (htext : text.toList = p ++ x)
    (htext' : text'.toList = p ++ t) (hx : x <:+ first.at_.rest) :
    ∃ first', firstRound? text' offset scope = some first' ∧ first.Altered x t more first' := by
  have hbody : x <:+ (bodyOf scope.extensions text).rest := by
    rw [firstRound?_start hfirst] at hx
    exact hx
  have start {c c' : Cursor} (alt : c.Altered x t c') (scope : TemplateScope ε)
      (tables : Tables ε) :
      (Round.start scope tables offset c).Altered x t more
        (Round.start scope tables offset c') := by
    obtain ⟨q, hq, rfl⟩ := alt
    refine ⟨_, ⟨q, hq, rfl⟩, ?_⟩
    have longer : (q ++ t).length + 1 = c.rest.length + 1 + more := by
      simp only [hq, List.length_append, alters.length]
      omega
    simp only [Round.start, longer]
  unfold firstRound? at hfirst ⊢
  rcases definitionOf?_altered alters htext htext' hbody offset with
    ⟨hnone, hnone', alt⟩ | ⟨d, d', hsome, hsome', twin, alt⟩
  · rw [hnone] at hfirst
    rw [hnone']
    cases hfirst
    exact ⟨_, rfl, start alt _ _⟩
  · rw [hsome] at hfirst
    rw [hsome']
    simp only [twin.name] at hfirst ⊢
    split at hfirst
    case isTrue => cases hfirst
    case isFalse unnamed =>
      rw [if_neg unnamed]
      rcases Track.declareParams (L := SpanRelation.anywhere.likeness scope.extensions) twin.params
        ({} : Tables ε) with ⟨declared, hok, hok'⟩ | ⟨_, _, _, herror, -⟩
      · rw [hok] at hfirst
        cases hfirst
        rw [show Parsed.declareParams {} d'.params = .ok declared from
          hok'.trans (congrArg _ declared.rename_id)]
        exact ⟨_, rfl, start alt _ _⟩
      · rw [herror] at hfirst
        cases hfirst

/-- Expressions are alike that are put together from fragments alike. -/
theorem Operand.Twin.parsed {R : SpanRelation} {extensions : Extensions} {o o' : Operand}
    {tables tables' : Tables ε} {span span' : Span} (ho : Operand.Twin (R.likeness extensions) o o')
    (same : tables' = tables.rename (R.likeness extensions).name) (name : Option String)
    (params : Nat) (discard : Bool) (h : R.rel span span') :
    (Parsed.ofOperand o tables name params discard span).Twin R
      (Parsed.ofOperand o' tables' name params discard span') := by
  have alike := (Parsed.Alike.ofOperand ho tables name params discard
    (show (R.likeness extensions).rel span span' from h)).twin
  rw [← same, show name.map (R.likeness extensions).name = name from Option.map_id_apply] at alike
  exact alike

theorem Operand.Twin.binds {L : Likeness} {o o' : Operand} (h : Operand.Twin L o o') :
    o'.binds = o.binds := by
  obtain ⟨-⟩ := h
  rfl

/-- **Two texts that are the same up to some place parse alike** if their runs end alike from there
on. -/
theorem Proceeds.parse_altered (alters : Alters x t more)
    (hfirst : firstRound? text offset scope = some first) (htext : text.toList = p ++ x)
    (htext' : text'.toList = p ++ t) (h : Proceeds first r) (hx : x <:+ r.at_.rest) :
    ∃ first' r', firstRound? text' offset scope = some first' ∧ Proceeds first' r' ∧
      r.Altered x t more r' ∧ ∀ extensions,
        Matches (SpanRelation.anywhere.likeness extensions)
          (Operand.Twin (SpanRelation.anywhere.likeness extensions)) r.run r'.run →
        SameOutcome .anywhere (Parsed.Twin .anywhere) (parse text offset scope)
          (parse text' offset scope) := by
  have laid := firstRound?_laidOut hfirst
  obtain ⟨passed, hpassed, -⟩ := h.reaches laid
  have hx' : x <:+ first.at_.rest := hx.trans ⟨passed, hpassed.symm⟩
  obtain ⟨first', hfirst', alt⟩ := firstRound?_altered alters hfirst htext htext' hx'
  obtain ⟨r', h', alt'⟩ := h.altered alters laid alt hx
  refine ⟨first', r', hfirst', h', alt', fun extensions same => ?_⟩
  rw [← h.run, ← h'.run] at same
  rw [parse_of_firstRound hfirst, parse_of_firstRound hfirst']
  rw [firstRound?_start hfirst] at hx'
  generalize first.run = ended, first'.run = ended' at same
  rcases definitionOf?_altered alters htext htext' hx' offset with
    ⟨hnone, hnone', -⟩ | ⟨d, d', hsome, hsome', twin, -⟩
  · rw [hnone, hnone']
    cases same with
    | ok ho hb =>
      simp only [hb.scope.eq_of_likeness, ho.binds]
      exact .ok (ho.parsed hb.tables none 0 _ trivial)
    | error he hs =>
      simp only [hs.eq_of_likeness]
      exact .error he
    | lenient h => exact absurd trivial h
  · rw [hsome, hsome']
    cases same with
    | ok ho hb =>
      simp only [hb.scope.eq_of_likeness, twin.name, twin.discard, ← twin.params.length_eq]
      exact .ok (ho.parsed hb.tables (some d.name) d.params.length _ trivial)
    | error he hs =>
      simp only [hs.eq_of_likeness, twin.name]
      exact .error he
    | lenient h => exact absurd trivial h

end Parse

end TagExpr
