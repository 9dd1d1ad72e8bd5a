import TagExpr.Proofs.Placing.Ranges

/-!
# The tokens of a run

A round reads one token, and the rounds of an interpolated source are a run of their own. The trail
of a round is what its run has read of its own text so far, the last token first.
-/

namespace TagExpr.Parse

variable {ε : Type} {kind : TokenKind} {kinds : List TokenKind} {r r' first : Round ε}

/-! ## One token -/

/-- The first round reads a token of that kind and leads to the second one. -/
inductive Reads : TokenKind → Round ε → Round ε → Prop
  | operand {fuel base : Nat} {at_ after : Cursor} {token : Token} {mode : LexMode}
      {b b' : Bench ε} : Token.next .operand at_ = .ok (token, after) →
      operand (nestedParse fuel) token.kind (token.span.shift base) b = .ok mode b' →
      Reads token.kind ⟨fuel + 1, .operand, base, at_, b⟩ ⟨fuel, mode, base, after, b'⟩
  | comma {fuel base : Nat} {at_ after : Cursor} {span : Span} {b b' : Bench ε} :
      Token.next .operator at_ = .ok (⟨.comma, span⟩, after) →
      comma (span.shift base) b = .ok () b' →
      Reads .comma ⟨fuel + 1, .operator, base, at_, b⟩ ⟨fuel, .operand, base, after, b'⟩
  | operator {fuel base : Nat} {mode : LexMode} {at_ after after' : Cursor} {symbol : String}
      {span : Span} {b b' : Bench ε} :
      Token.next .operator at_ = .ok (⟨.operator symbol, span⟩, after) →
      operator symbol (span.shift base) base after b = .ok (mode, after') b' →
      Reads (.operator symbol) ⟨fuel + 1, .operator, base, at_, b⟩ ⟨fuel, mode, base, after', b'⟩

theorem Reads.enters (h : Reads kind r r') : Enters r r' := by
  cases h with
  | operand hnext ran => exact .operand hnext ran
  | comma hnext ran => exact .comma (by simp) hnext ran
  | operator hnext ran => exact .operator (by simp) hnext ran

/-- A round leads to the next one through a token, or to an interpolated source. -/
theorem Enters.reads (h : Enters r r') (laid : r.LaidOut) :
    (∃ kind, Reads kind r r') ∨ ∃ source, Interpolates source r r' := by
  -- A member name is read by its navigation operator, not by a round.
  have operator_of {mode : LexMode} {b : Bench ε} (hm : mode ≠ .operand)
      (hs : ∃ N w, Stands N mode b w) : mode = .operator := by
    obtain ⟨N, w, hs⟩ := hs
    cases mode with
    | operand => exact absurd rfl hm
    | member => cases hs.layout
    | operator => rfl
  cases h with
  | operand hnext ran => exact .inl ⟨_, .operand hnext ran⟩
  | source hnext hx hsplit hcall => exact .inr ⟨_, .intro hnext hx hsplit hcall⟩
  | comma hm hnext ran =>
    obtain rfl := operator_of hm laid.1
    exact .inl ⟨_, .comma hnext ran⟩
  | operator hm hnext ran =>
    obtain rfl := operator_of hm laid.1
    exact .inl ⟨_, .operator hnext ran⟩

/-! ## All tokens up to a round -/

/-- The run of `first` comes to the round, and the tokens that it has read of the round's own text
have these kinds, the last one first. -/
inductive Trail (first : Round ε) : List TokenKind → Round ε → Prop
  | start : Trail first [] first
  | source {kinds : List TokenKind} {source : List Char} {r r' : Round ε} :
      Trail first kinds r → Interpolates source r r' → Trail first [] r'
  | read {kinds : List TokenKind} {kind : TokenKind} {r r' : Round ε} :
      Trail first kinds r → Reads kind r r' → Trail first (kind :: kinds) r'

theorem Trail.visits (h : Trail first kinds r) : Visits first r := by
  induction h with
  | start => exact .refl
  | source _ hin ih => exact ih.tail hin.enters
  | read _ hread ih => exact ih.tail hread.enters

theorem Trail.laidOut (h : Trail first kinds r) (laid : first.LaidOut) : r.LaidOut :=
  h.visits.laidOut laid

/-- Every round that a run comes to has its trail. -/
theorem Visits.exists_trail (h : Visits first r) (laid : first.LaidOut) :
    ∃ kinds, Trail first kinds r := by
  induction h with
  | refl => exact ⟨[], .start⟩
  | @tail r r' hv hstep ih =>
    obtain ⟨kinds, trail⟩ := ih
    rcases hstep.reads (Visits.laidOut hv laid) with ⟨kind, hread⟩ | ⟨source, hin⟩
    · exact ⟨kind :: kinds, trail.read hread⟩
    · exact ⟨[], trail.source hin⟩

/-! ## Failing -/

variable {text : String} {offset : Nat} {scope : TemplateScope ε} {e : ParseError}

/-- What a round of the parse fails with, the parse fails with. -/
theorem Visits.parse_error (h : Visits first r)
    (hfirst : firstRound? text offset scope = some first)
    (he : ∃ b, r.run = .error e b) : (parse text offset scope).1 = .error e := by
  obtain ⟨b, hb⟩ := Visits.raises h he
  have hparse := parse_run text offset scope
  rw [hfirst] at hparse
  simpa only [hb] using hparse

end TagExpr.Parse
