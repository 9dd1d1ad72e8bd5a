import Mathlib.Logic.Relation
import TagExpr.Proofs.Parse.Operands
import TagExpr.Proofs.Token.Progress

/-!
# Runs of the parser

A round is one call of the parser's loop. It leads to the round after the next token, and, where
that token is a string literal, to the first rounds of the expressions interpolated in it. In every
round that is reached from a round whose stacks are laid out, the stacks are laid out; a run that
succeeds yields one fragment derived from the words of the text.
-/

namespace TagExpr.Parse

variable {ε : Type} {N M : Names} {b : Bench ε} {w : List Word}

/-! ## Rounds -/

/-- One call of the loop. -/
structure Round (ε : Type) where
  fuel : Nat
  mode : LexMode
  base : Nat
  at_ : Cursor
  bench : Bench ε

/-- How an interpolated source is parsed. -/
def nestedParse (fuel : Nat) (source : List Char) (start : Nat) : Parse ε Operand :=
  rounds fuel .operand start (Cursor.start source)

/-- The first round leads to the second one. -/
inductive Enters : Round ε → Round ε → Prop
  | operand {fuel base : Nat} {at_ after : Cursor} {token : Token} {mode : LexMode}
      {b b' : Bench ε} : Token.next .operand at_ = .ok (token, after) →
      operand (nestedParse fuel) token.kind (token.span.shift base) b = .ok mode b' →
      Enters ⟨fuel + 1, .operand, base, at_, b⟩ ⟨fuel, mode, base, after, b'⟩
  | source {fuel base start : Nat} {at_ after : Cursor} {raw source : List Char} {span : Span}
      {parts : List Literal.Segment} {b b' : Bench ε} :
      Token.next .operand at_ = .ok (⟨.str raw true, span⟩, after) →
      b.scope.extensions.interpolation → Literal.split raw = .ok parts →
      Calls (nestedParse fuel) ((span.shift base).start + 1) parts b source start b' →
      Enters ⟨fuel + 1, .operand, base, at_, b⟩ ⟨fuel, .operand, start, Cursor.start source, b'⟩
  | comma {fuel base : Nat} {mode : LexMode} {at_ after : Cursor} {span : Span}
      {b b' : Bench ε} : mode ≠ .operand → Token.next mode at_ = .ok (⟨.comma, span⟩, after) →
      comma (span.shift base) b = .ok () b' →
      Enters ⟨fuel + 1, mode, base, at_, b⟩ ⟨fuel, .operand, base, after, b'⟩
  | operator {fuel base : Nat} {mode mode' : LexMode} {at_ after after' : Cursor}
      {symbol : String} {span : Span} {b b' : Bench ε} : mode ≠ .operand →
      Token.next mode at_ = .ok (⟨.operator symbol, span⟩, after) →
      operator symbol (span.shift base) base after b = .ok (mode', after') b' →
      Enters ⟨fuel + 1, mode, base, at_, b⟩ ⟨fuel, mode', base, after', b'⟩

/-- The run of the first round comes to the second one. -/
abbrev Visits : Round ε → Round ε → Prop := Relation.ReflTransGen Enters

/-- The text of the round ends where an operand is expected, or right after a navigation operator.
-/
def Round.EndsShort (r : Round ε) (e : ParseError) : Prop :=
  (r.mode = .operand ∧ ∃ token after, Token.next .operand r.at_ = .ok (token, after) ∧
    token.kind = .finish ∧ e = ⟨.unexpectedEnd, token.span.shift r.base⟩) ∨
  (r.mode = .operator ∧ ∃ symbol span after,
    Token.next .operator r.at_ = .ok (⟨.operator symbol, span⟩, after) ∧
    EndsAfterNavigation symbol r.base after e)

/-- Why a run fails: for a reason that has nothing to do with missing operands, or because a text
ends short. -/
def Round.Fails (r : Round ε) (e : ParseError) : Prop :=
  Regular e ∨ ∃ r', Visits r r' ∧ r'.EndsShort e

theorem Enters.fails {r r' : Round ε} {e : ParseError} (h : Enters r r') (hf : r'.Fails e) :
    r.Fails e := by
  rcases hf with hr | ⟨last, hv, hs⟩
  · exact .inl hr
  · exact .inr ⟨last, .head h hv, hs⟩

/-! ## The end of a text -/

theorem Layout.eq_nil {os : List Operand} (h : Layout N .operand os [] w) : os = [] ∧ w = [] := by
  cases h with
  | start => exact ⟨rfl, rfl⟩

/-- At the end of the text exactly one operand is left once everything is applied. -/
theorem Stands.only (h : Stands N .operator b w) (hops : b.operators.toList = []) :
    ∃ o, b.operands.toList = [o] ∧ ¬ o.isPair ∧ Derives N [o] w := by
  obtain ⟨o, below, u, v, heq, rfl, hl, hd, hp⟩ := (hops ▸ h.layout).top_value
  obtain ⟨rfl, rfl⟩ := hl.eq_nil
  refine ⟨o, heq, ?_, hd⟩
  intro hpair
  obtain ⟨c, hc, -⟩ := hp hpair
  cases hc

theorem Stands.finish (h : Stands N .operator b w) (span : Span) :
    Ends (finish span) b (Yields N w) (fun e _ => Regular e) := by
  unfold Parse.finish
  rw [ends_bind]
  refine (h.reduceWhile _).mono ?_ fun _ _ he => he
  rintro _ b' ⟨hs, hops⟩
  have hnil : b'.operators.toList = [] := by simp [hops]
  obtain ⟨o, heq, hp, hd⟩ := hs.only hnil
  rw [ends_bind, ends_get]
  simp only [heq, hp, Bool.false_eq_true, if_false]
  exact ⟨N, .refl N, hs.describes, hp, hd⟩

/-! ## The loop -/

theorem length_operatorReach (symbol : String) (at_ : Cursor) :
    (operatorReach symbol at_).2.2.rest.length ≤ at_.rest.length := by
  unfold operatorReach
  split
  case isTrue => exact Nat.le_refl _
  case isFalse =>
    split
    case h_1 =>
      split
      case h_1 hnext => exact Nat.le_of_lt (Token.length_next hnext (by simp))
      case h_2 => exact Nat.le_refl _
    case h_2 =>
      split
      case h_1 hl => exact (Signature.lambda?_suffix hl).length_le
      case h_2 => exact Nat.le_refl _
    case h_3 => exact Nat.le_refl _

/-- Interpolated sources begin on empty stacks. -/
theorem Calls.stands {nested : List Char → Nat → Parse ε Operand} {base start : Nat}
    {parts : List Literal.Segment} {source : List Char} {b' : Bench ε}
    (h : Calls nested base parts b source start b')
    (hd : Describes M b'.tables b'.scope) : Stands M .operand b' [] := by
  obtain ⟨-, -, -, -, b₁, -, -, -, rfl⟩ := h
  exact ⟨hd, .start⟩

theorem Calls.length_lt {nested : List Char → Nat → Parse ε Operand} {base start : Nat}
    {parts : List Literal.Segment} {raw source : List Char} {b' : Bench ε}
    (h : Calls nested base parts b source start b') (hs : Literal.split raw = .ok parts) :
    source.length < raw.length := by
  obtain ⟨before, place, rest, -, -, rfl, -⟩ := h
  have hmem :
      Literal.Segment.expression source place ∈ before ++ .expression source place :: rest :=
    by simp
  exact Literal.length_of_mem_split hs hmem

theorem Calls.append {nested : List Char → Nat → Parse ε Operand} {base start : Nat}
    {parts : List Literal.Segment} {source : List Char} {b' : Bench ε}
    (h : Calls nested base parts b source start b') (more : List Literal.Segment) :
    Calls nested base (parts ++ more) b source start b' := by
  obtain ⟨before, place, after, nodes, b₁, rfl, hrun, hstart, hb'⟩ := h
  exact ⟨before, place, after ++ more, nodes, b₁, by simp, hrun, hstart, hb'⟩

/-- A successful run yields one fragment derived from the words of the text, and runs out of
operands only where a text ends short. -/
theorem ends_rounds {fuel : Nat} {mode : LexMode} (base : Nat) {at_ : Cursor}
    (h : Stands N mode b w) (hfuel : at_.rest.length < fuel) :
    Ends (rounds fuel mode base at_) b
      (Yields N (w ++ words N.extensions fuel mode at_))
      (fun e _ => (Round.mk fuel mode base at_ b).Fails e) := by
  -- Every token but the end of the text shortens what is left, so the fuel lasts.
  induction fuel generalizing N b w mode base at_ with
  | zero => omega
  | succ fuel ih =>
    -- What the next round yields, this one yields too, if the words fit.
    have next {mode' : LexMode} {base' : Nat} {after : Cursor} {b' : Bench ε} {M : Names}
        {v : List Word} (hg : N.Grows M) (hs : Stands M mode' b' (w ++ v))
        (hlen : after.rest.length < fuel)
        (hin : Enters ⟨fuel + 1, mode, base, at_, b⟩ ⟨fuel, mode', base', after, b'⟩)
        (hw : words N.extensions (fuel + 1) mode at_ = v ++ words N.extensions fuel mode' after) :
        Ends (rounds fuel mode' base' after) b'
          (Yields N (w ++ words N.extensions (fuel + 1) mode at_))
          (fun e _ => (Round.mk (fuel + 1) mode base at_ b).Fails e) := by
      refine (ih _ hs hlen).mono ?_ fun e _ he => hin.fails he
      rintro o b'' ⟨L, hg', hd, hp, hder⟩
      refine ⟨L, hg.trans hg', hd, hp, ?_⟩
      rw [hw, ← List.append_assoc, ← hg.extensions]
      exact hder
    have hE : ∀ e, Regular e → (Round.mk (fuel + 1) mode base at_ b).Fails e := fun _ he => .inl he
    unfold rounds
    rw [ends_bind, ends_readToken]
    cases hnext : Token.next mode at_ with
    | error e => exact hE _ (ofLex_regular e base)
    | ok r =>
      obtain ⟨token, after⟩ := r
      cases mode with
      -- A member name is read by its navigation operator: no stacks are laid out between them.
      | member => cases h.layout
      | operand =>
        simp only
        rw [ends_bind]
        by_cases hk : token.kind = .finish
        · rw [hk]
          exact ends_operand_finish hE (.inr ⟨_, .refl, .inl ⟨rfl, token, after, hnext, hk, rfl⟩⟩)
        · have hlen := Token.length_next hnext hk
          refine ((h.operand _ (fun source =>
            words N.extensions fuel .operand (Cursor.start source)) _ hE hk ?_).and_self).mono ?_
              fun e _ he => he.1
          · intro raw parts hstr hx hsplit source start b' hcall M hg hd
            obtain ⟨kind, span⟩ := token
            cases hstr
            have hsource : source.length < fuel := by
              have := hcall.length_lt hsplit
              have := (Token.infix_of_str hnext).length_le
              omega
            refine (ih _ (hcall.stands hd) hsource).mono ?_ fun e _ he =>
              (Enters.source hnext hx hsplit hcall).fails he
            intro o b'' hy
            rwa [List.nil_append, hg.extensions] at hy
          · rintro mode' b₁ ⟨⟨rfl, M, hg, hs⟩, hrun⟩
            exact next hg hs (by omega) (.operand hnext hrun) (by simp [words, hnext])
      | operator =>
        obtain ⟨kind, span⟩ := token
        cases kind with
        | finish =>
          refine (h.finish _).mono ?_ fun e _ he => hE e he
          intro o b' hy
          simpa [words, hnext] using hy
        | comma =>
          have hlen := Token.length_next hnext (by simp)
          simp only
          rw [ends_bind]
          refine ((h.comma _).and_self).mono ?_ fun e _ he => hE e he.1
          rintro _ b₁ ⟨hs, hrun⟩
          exact next (v := []) (.refl N) (by simpa using hs) (by omega)
            (.comma (by simp) hnext hrun) (by simp [words, hnext])
        | operator symbol =>
          have hlen := Token.length_next hnext (by simp)
          have hreach := length_operatorReach symbol after
          simp only
          rw [ends_bind]
          refine ((h.operator symbol _ base after).and_self).mono ?_ ?_
          · rintro ⟨mode', after'⟩ b₁ ⟨⟨heq, M, hg, hs⟩, hrun⟩
            rw [← heq] at hreach
            have hlen' : after'.rest.length < fuel := by
              simp only at hreach
              omega
            refine next hg hs hlen' (.operator (by simp) hnext hrun) ?_
            simp [words, hnext, ← heq]
          · rintro e _ ⟨he | he, -⟩
            · exact hE e he
            · exact .inr ⟨_, .refl, .inr ⟨rfl, symbol, span, after, hnext, he⟩⟩
        | _ => exact hE _ (by simp [Regular])

/-! ## Visited rounds -/

/-- The stacks of the round are laid out, and its fuel lasts to the end of the text. -/
def Round.LaidOut (r : Round ε) : Prop :=
  (∃ N w, Stands N r.mode r.bench w) ∧ r.at_.rest.length < r.fuel

variable {r r' : Round ε}

/-- The expressions interpolated in a literal yield their fragments. -/
theorem Calls.ends {fuel base start : Nat} {at_ after : Cursor} {raw source : List Char}
    {span : Span} {parts : List Literal.Segment} {b' : Bench ε}
    (h : Calls (nestedParse fuel) base parts b source start b')
    (hnext : Token.next .operand at_ = .ok (⟨.str raw true, span⟩, after))
    (hsplit : Literal.split raw = .ok parts) (hfuel : at_.rest.length < fuel + 1)
    (hg : N.Grows M) (hd : Describes M b'.tables b'.scope) :
    Ends (nestedParse fuel source start) b'
      (Yields M (words N.extensions fuel .operand (Cursor.start source))) (fun _ _ => True) := by
  have hsource : (Cursor.start source).rest.length < fuel := by
    have := h.length_lt hsplit
    have := (Token.infix_of_str hnext).length_le
    show source.length < fuel
    omega
  refine (ends_rounds start (h.stands hd) hsource).mono ?_ fun _ _ _ => trivial
  intro o b'' hy
  rwa [List.nil_append, hg.extensions] at hy

/-- The scope and tables where a literal has been read up to one of its interpolated expressions. -/
theorem Calls.describes {fuel base start : Nat} {at_ after : Cursor} {raw source : List Char}
    {span : Span} {parts : List Literal.Segment} {b' : Bench ε}
    (h : Calls (nestedParse fuel) base parts b source start b')
    (hnext : Token.next .operand at_ = .ok (⟨.str raw true, span⟩, after))
    (hsplit : Literal.split raw = .ok parts) (hfuel : at_.rest.length < fuel + 1)
    (hd : Describes N b.tables b.scope) : ∃ M, N.Grows M ∧ Describes M b'.tables b'.scope := by
  obtain ⟨before, place, rest, nodes, b₁, rfl, hrun, -, rfl⟩ := h
  have hends := ends_segments (nestedParse fuel) base before
    (E := fun _ => True) hd fun source start b' hcall M hg hd' =>
      (hcall.append _).ends hnext hsplit hfuel hg hd'
  obtain ⟨M, os, ht, -⟩ := hends.ok hrun
  exact ⟨M, ht.grows, ht.describes⟩

/-- A round with its stacks laid out leads to rounds with their stacks laid out. -/
theorem Enters.laidOut (h : Enters r r') (hr : r.LaidOut) : r'.LaidOut := by
  obtain ⟨⟨N, w, hs⟩, hfuel⟩ := hr
  cases h with
  | @operand fuel base at_ after token mode b b' hnext hrun =>
    simp only at hs hfuel
    -- The round ends at the end of the text, so it leads to no other one.
    by_cases hk : token.kind = .finish
    · rw [hk] at hrun
      exact absurd hrun fun hrun => (ends_operand_finish (E := fun _ => True)
        (Q := fun _ _ => False) (fun _ _ => trivial) trivial).ok hrun
    · have hlen := Token.length_next hnext hk
      have hends := hs.operand (nestedParse fuel)
        (fun source => words N.extensions fuel .operand (Cursor.start source))
        (token.span.shift base) (E := fun _ => True) (fun _ _ => trivial) hk
        (fun raw parts hstr _ hsplit source start b' hcall M hg hd => by
          obtain ⟨kind, span⟩ := token
          cases hstr
          exact hcall.ends hnext hsplit hfuel hg hd)
      obtain ⟨-, M, -, hs'⟩ := hends.ok hrun
      exact ⟨⟨M, _, hs'⟩, by simp only; omega⟩
  | @source fuel base start at_ after raw source span parts b b' hnext _ hsplit hcall =>
    simp only at hs hfuel
    obtain ⟨M, -, hd⟩ := hcall.describes hnext hsplit hfuel hs.describes
    refine ⟨⟨M, [], hcall.stands hd⟩, ?_⟩
    have := hcall.length_lt hsplit
    have := (Token.infix_of_str hnext).length_le
    simp only [Cursor.start]
    omega
  | @comma fuel base mode at_ after span b b' hm hnext hrun =>
    simp only at hs hfuel
    have hlen := Token.length_next hnext (by simp)
    cases mode with
    | operand => exact absurd rfl hm
    | member => cases hs.layout
    | operator => exact ⟨⟨N, w, (hs.comma _).ok hrun⟩, by simp only; omega⟩
  | @operator fuel base mode mode' at_ after after' symbol span b b' hm hnext hrun =>
    simp only at hs hfuel
    have hlen := Token.length_next hnext (by simp)
    have hreach := length_operatorReach symbol after
    cases mode with
    | operand => exact absurd rfl hm
    | member => cases hs.layout
    | operator =>
      obtain ⟨heq, M, -, hs'⟩ := (hs.operator symbol _ base after).ok hrun
      rw [← heq] at hreach
      refine ⟨⟨M, _, hs'⟩, ?_⟩
      simp only at hreach ⊢
      omega

theorem Visits.laidOut (h : Visits r r') (hr : r.LaidOut) : r'.LaidOut := by
  induction h with
  | refl => exact hr
  | tail _ hstep ih => exact hstep.laidOut ih

end TagExpr.Parse
