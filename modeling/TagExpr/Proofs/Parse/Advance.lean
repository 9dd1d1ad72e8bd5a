import TagExpr.Proofs.Placing.Ranges
import TagExpr.Proofs.Token.Lossless

/-!
# The parser comes to an end

Every round of the parser takes characters: it goes on at a later place of its text, also behind a
member name and behind the clause of a streaming operator, or it goes into an interpolated source,
which is shorter than the text around it (`Enters.advances`). So the fuel of a run never gives out,
and more of it would change nothing (`rounds_eq`).
-/

namespace TagExpr.Parse

variable {ε α β : Type}

/-! ## Fuel -/

/-- Steps that go on alike from every answer of the first step are alike. -/
theorem bind_congr_of_answers {P : α → Prop} {step : Parse ε α} {next next' : α → Parse ε β}
    (h : Answers P step) (hn : ∀ a, P a → next a = next' a) : step >>= next = step >>= next' := by
  funext b
  have hends := h b
  simp only [bind, EStateM.bind]
  unfold Ends at hends
  cases hb : step b with
  | error e b' => rfl
  | ok a b' =>
    rw [hb] at hends
    simp only [hn a hends]

theorem answers_readToken (mode : LexMode) (base : Nat) (at_ : Cursor) :
    Answers (fun r => ∃ span, Token.next mode at_ = .ok (⟨r.1, span⟩, r.2.2))
      (readToken mode base at_ : Parse ε (TokenKind × Span × Cursor)) := by
  unfold readToken
  split
  case h_1 token after hnext => exact answers_pure ⟨token.span, hnext⟩
  case h_2 => exact answers_throw _ _

variable {nested nested' : List Char → Nat → Parse ε Operand}

/-- Only the sources in a literal are parsed for it. -/
theorem segments_congr (base : Nat) {parts : List Literal.Segment}
    (h : ∀ source place, .expression source place ∈ parts → nested source = nested' source) :
    segments nested base parts = segments nested' base parts := by
  induction parts with
  | nil => rfl
  | cons part parts ih =>
    have hrest := ih fun source place hmem => h source place (List.mem_cons_of_mem part hmem)
    have hpart : segment nested base part = segment nested' base part := by
      cases part with
      | text | name => rfl
      | expression source place => rw [segment, segment, h source place List.mem_cons_self]
    rw [segments_cons, segments_cons, hpart, hrest]

theorem string_congr {raw : List Char} (doubleQuoted : Bool) (span : Span)
    (h : ∀ source, source.length < raw.length → nested source = nested' source) :
    string nested raw doubleQuoted span = string nested' raw doubleQuoted span := by
  unfold string
  refine bind_congr_of_answers (answers_any _) fun b _ => ?_
  cases hsplit : Literal.split raw with
  | error e => rfl
  | ok parts =>
    have hparts :
        segments nested (span.start + 1) parts = segments nested' (span.start + 1) parts :=
      segments_congr _ fun source place hmem => h source (Literal.length_of_mem_split hsplit hmem)
    by_cases hx : (doubleQuoted && b.scope.extensions.interpolation) = true
    · simp only [hx, if_true]
      split
      case h_1 | h_2 => rfl
      case h_3 heq =>
        cases heq
        rw [hparts]
    · simp only [hx, Bool.false_eq_true, if_false]

theorem operand_congr {kind : TokenKind} (span : Span)
    (h : ∀ raw doubleQuoted source, kind = .str raw doubleQuoted → source.length < raw.length →
      nested source = nested' source) :
    operand nested kind span = operand nested' kind span := by
  cases kind with
  | str raw doubleQuoted =>
    have hstring := string_congr doubleQuoted span fun source => h raw doubleQuoted source rfl
    show string nested raw doubleQuoted span >>= _ = string nested' raw doubleQuoted span >>= _
    rw [hstring]
  | _ => rfl

theorem answers_operand_finish (span : Span) :
    Answers (fun _ => False) (operand nested .finish span : Parse ε LexMode) := by
  intro b
  exact ends_operand_finish (fun _ _ => trivial) trivial

/-- More fuel than characters are left changes nothing. -/
theorem rounds_eq {fuel fuel' : Nat} (mode : LexMode) (base : Nat) {at_ : Cursor}
    (h : at_.rest.length < fuel) (h' : at_.rest.length < fuel') :
    rounds fuel mode base at_ = (rounds fuel' mode base at_ : Parse ε Operand) := by
  induction fuel generalizing fuel' mode base at_ with
  | zero => omega
  | succ fuel ih =>
    cases fuel' with
    | zero => omega
    | succ fuel' =>
      unfold rounds
      refine bind_congr_of_answers (answers_readToken mode base at_) ?_
      rintro ⟨kind, span, after⟩ ⟨tokenSpan, hnext⟩
      -- What is left after a token of the text is shorter.
      have later {mode : LexMode} {at_' : Cursor} (hk : kind ≠ .finish)
          (hle : at_'.rest.length ≤ after.rest.length) :
          rounds fuel mode base at_' = (rounds fuel' mode base at_' : Parse ε Operand) := by
        have hlt : after.rest.length < at_.rest.length := Token.length_next hnext hk
        exact ih mode base (by omega) (by omega)
      simp only
      cases mode with
      | operand =>
        simp only
        have hoperand : operand (nestedParse fuel) kind span =
            (operand (nestedParse fuel') kind span : Parse ε LexMode) := by
          refine operand_congr span ?_
          rintro raw doubleQuoted source rfl hlt
          have hle := (Token.infix_of_str hnext).length_le
          funext start
          exact ih .operand start (by simp only [Cursor.start]; omega)
            (by simp only [Cursor.start]; omega)
        refine Eq.trans (congrArg (· >>= _) hoperand) ?_
        by_cases hk : kind = .finish
        · subst hk
          exact bind_congr_of_answers (answers_operand_finish span) fun _ h => h.elim
        · exact bind_congr_of_answers (answers_any _) fun mode' _ => later hk (Nat.le_refl _)
      | operator | member =>
        simp only
        cases kind with
        | comma =>
          exact bind_congr_of_answers (answers_any _) fun _ _ => later (by simp) (Nat.le_refl _)
        | operator symbol =>
          refine bind_congr_of_answers (answers_operator symbol span base after) ?_
          rintro ⟨mode', after'⟩ hsuffix
          exact later (by simp) hsuffix.length_le
        | _ => rfl

/-! ## Places -/

theorem byteLength_le_of_infix {part text : List Char} (h : part <:+: text) :
    byteLength part ≤ byteLength text := by
  obtain ⟨before, after, rfl⟩ := h
  simp only [byteLength_append]
  omega

/-- Whoever passes characters comes to a later place. -/
theorem offset_lt_of_reaches {c d : Cursor} (h : c.Reaches d)
    (hlt : d.rest.length < c.rest.length) :
    c.offset < d.offset := by
  obtain ⟨passed, hrest, hoffset⟩ := h
  cases passed with
  | nil =>
    rw [hrest, List.nil_append] at hlt
    omega
  | cons x passed =>
    have := x.utf8Size_pos
    rw [hoffset, byteLength]
    omega

/-- From the first round the parser goes on at a later place of the same text, or at the beginning
of an interpolated source that is shorter than what is left of the text. -/
inductive Advances : Round ε → Round ε → Prop
  | later {r r' : Round ε} : r'.base = r.base → r.at_.Reaches r'.at_ →
      r.at_.offset < r'.at_.offset → Advances r r'
  | inner {r r' : Round ε} {source : List Char} : r'.at_ = Cursor.start source →
      byteLength source < byteLength r.at_.rest → Advances r r'

theorem byteLength_source_lt {at_ after : Cursor} {raw source : List Char} {doubleQuoted : Bool}
    {span : Span} {place : Nat} {parts : List Literal.Segment}
    (hnext : Token.next .operand at_ = .ok (⟨.str raw doubleQuoted, span⟩, after))
    (hsplit : Literal.split raw = .ok parts) (hmem : .expression source place ∈ parts) :
    byteLength source < byteLength at_.rest := by
  obtain ⟨hpart, hne⟩ := Literal.infix_of_mem_split hsplit hmem
  have hraw := byteLength_le_of_infix (Token.infix_of_str hnext)
  have hsource := byteLength_le_of_infix hpart
  cases raw with
  | nil => exact absurd rfl hne
  | cons c raw =>
    have := c.utf8Size_pos
    simp only [List.tail_cons] at hsource
    simp only [byteLength] at hraw
    omega

theorem Enters.advances {r r' : Round ε} (h : Enters r r') (hl : r.LaidOut) : Advances r r' := by
  cases h with
  | @operand fuel base at_ after token mode b b' hnext hrun =>
    have hk : token.kind ≠ .finish := by
      intro hk
      rw [hk] at hrun
      exact (answers_operand_finish (token.span.shift base) b).ok hrun
    exact .later rfl (Token.reaches_of_next hnext)
      (offset_lt_of_reaches (Token.reaches_of_next hnext) (Token.length_next hnext hk))
  | source hnext _ hsplit hcall =>
    obtain ⟨before, place, after, -, -, rfl, -⟩ := hcall
    exact .inner rfl
      (byteLength_source_lt hnext hsplit (List.mem_append_right _ List.mem_cons_self))
  | comma _ hnext _ =>
    exact .later rfl (Token.reaches_of_next hnext)
      (offset_lt_of_reaches (Token.reaches_of_next hnext) (Token.length_next hnext (by simp)))
  | @operator fuel base mode mode' at_ after after' symbol span b b' hm hnext hrun =>
    obtain ⟨⟨N, w, hs⟩, -⟩ := hl
    have hreach := Token.reaches_of_next hnext
    have hlt := offset_lt_of_reaches hreach (Token.length_next hnext (by simp))
    cases mode with
    | operand => exact absurd rfl hm
    | member => cases hs.layout
    | operator =>
      -- A member name or the clause of a streaming operator is passed as well.
      have hmore := operatorReach_reaches symbol after
      rw [← ((hs.operator symbol _ base after).ok hrun).1] at hmore
      exact .later rfl (hreach.trans hmore) (Nat.lt_of_lt_of_le hlt hmore.le)

end TagExpr.Parse

namespace TagExpr

open Parse

/-- **The lexer loses nothing, and the parser comes to an end.** Behind any character of a text, in
any mode, the next token stands behind filler and takes characters, and the end is found where only
filler is left. Taking token after token comes to an end, and what has been taken is the text. Each
round of a parse passes characters or goes into a shorter text, and no run depends on its fuel. -/
theorem text_consumed (text : String) (small : byteLength text.toList < 2 ^ 32) :
    (∀ mode before rest, text.toList = before ++ rest →
      (∀ token, Token.at? mode text.toList (byteLength before) = .ok token →
        token.kind ≠ .finish →
        byteLength before ≤ token.span.start ∧ token.span.start < token.span.stop ∧
          token.span.stop ≤ byteLength text.toList ∧
          ∃ gap lexeme after, rest = gap ++ lexeme ++ after ∧
            Token.Stands mode before gap lexeme token) ∧
      ((∃ token, Token.at? mode text.toList (byteLength before) = .ok token ∧
        token.kind = .finish) ↔ Token.Gap mode true rest)) ∧
    (∀ modes, ∃ tokens outcome last, Token.Scans modes text.toList 0 0 tokens outcome ∧
      Token.Covers modes last 0 [] tokens text.toList ∧
      (outcome = .ok () → Token.Gap (modes tokens.length) true last)) ∧
    ∀ (ε : Type) (offset : Nat) (scope : TemplateScope ε) (first r : Round ε),
      firstRound? text offset scope = some first → Visits first r →
      (∀ r', Enters r r' → Advances r r') ∧
      ∀ fuel, r.at_.rest.length < fuel → rounds fuel r.mode r.base r.at_ r.bench = r.run := by
  have fits : byteLength text.toList ≤ Span.maxOffset := Nat.le_pred_of_lt small
  refine ⟨?_, ?_, ?_⟩
  · intro mode before rest htext
    rw [htext] at fits ⊢
    refine ⟨fun token hat hkind => ?_, Token.at?_finish_iff mode before rest fits⟩
    rcases Token.at?_cases hat fits with ⟨hfinish, -⟩ | ⟨gap, lexeme, after, rfl, hstands⟩
    · exact absurd hfinish hkind
    · obtain ⟨hlo, hlt⟩ := hstands.within
      refine ⟨hlo, hlt, ?_, gap, lexeme, after, rfl, hstands⟩
      rw [hstands.stop]
      simp only [byteLength_append]
      omega
  · intro modes
    obtain ⟨tokens, outcome, last, hscans, hcovers, hend⟩ :=
      Token.exists_scans modes 0 [] text.toList fits
    rw [Nat.zero_add] at hend
    exact ⟨tokens, outcome, last, hscans, hcovers, hend⟩
  · intro ε offset scope first r hfirst hvisits
    have hlaid := Visits.laidOut hvisits (firstRound?_laidOut hfirst)
    refine ⟨fun r' henters => henters.advances hlaid, fun fuel hfuel => ?_⟩
    rw [Round.run, rounds_eq r.mode r.base hfuel hlaid.2]

/-- A streaming operator behind a comment, with a clause and an interpolated source behind it. -/
theorem text_consumed_of_clause :
    let text := "xs /* b */ #> y -> \"$\x7by\x7d\""
    (∃ gap lexeme after, " /* b */ #> y -> \"$\x7by\x7d\"".toList = gap ++ lexeme ++ after ∧
      Token.Stands .operator "xs".toList gap lexeme ⟨.operator "#>", ⟨11, 13⟩⟩) ∧
    ∃ first, firstRound? text 0 (TemplateScope.fresh : TemplateScope Nat) = some first ∧
      ∀ fuel, text.length < fuel →
        rounds fuel .operand 0 (Cursor.start text.toList) first.bench = first.run := by
  intro text
  obtain ⟨htokens, -, hparses⟩ := text_consumed text (by decide)
  obtain ⟨htoken, -⟩ := htokens .operator "xs".toList " /* b */ #> y -> \"$\x7by\x7d\"".toList
    (by decide)
  have hfirst : firstRound? text 0 (TemplateScope.fresh : TemplateScope Nat) =
      some (.start .fresh {} 0 (Cursor.start text.toList)) := by
    have hdefinition : definitionOf? (TemplateScope.fresh : TemplateScope Nat).extensions text =
        none := Option.isNone_iff_eq_none.mp (by decide +kernel)
    rw [firstRound?, hdefinition]
  refine ⟨?_, _, hfirst, ?_⟩
  · exact (htoken ⟨.operator "#>", ⟨11, 13⟩⟩ (by decide +kernel) (by simp)).2.2.2
  · exact (hparses Nat 0 .fresh _ _ hfirst .refl).2

end TagExpr
