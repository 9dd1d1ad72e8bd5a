import Mathlib
import TagExpr.Proofs.Placing.Course
import TagExpr.Proofs.Token.Extent

/-!
# One text at two places

A text that begins at two places of a template is made of the same tokens, and so are the sources
that its literals hold. Where its spans come to lie is all that can differ; how they may differ is
asked of the spans of the text only (`Fits`).

Where a text begins in its template is no part of what it means. Moved by some distance it parses to
the same expression, or fails for the same cause, and the places move by that distance.
-/

namespace TagExpr

variable {ε : Type} {R : SpanRelation} {base base' lo hi : Nat}

/-- Of a text that begins at `base` and at `base'`, what lies between `lo` and `hi` has related
spans, and all of it can be counted. -/
structure Fits (R : SpanRelation) (base base' lo hi : Nat) : Prop where
  small : hi + base ≤ Span.maxOffset
  small' : hi + base' ≤ Span.maxOffset
  related : ∀ start stop, lo ≤ start → start ≤ stop → stop ≤ hi →
    R.rel ⟨start + base, stop + base⟩ ⟨start + base', stop + base'⟩

namespace Fits

theorem countable (h : Fits R base base' lo hi) : hi ≤ Span.maxOffset :=
  Nat.le_trans (Nat.le_add_right hi base) h.small

theorem mono (h : Fits R base base' lo hi) {lo' hi' : Nat} (hlo : lo ≤ lo') (hhi : hi' ≤ hi) :
    Fits R base base' lo' hi' := by
  have := h.small
  have := h.small'
  refine ⟨by omega, by omega, fun start stop hstart hle hstop => ?_⟩
  exact h.related start stop (by omega) hle (by omega)

theorem shift (h : Fits R base base' lo hi) {span : Span} (hs : span.Within lo hi) :
    R.rel (span.shift base) (span.shift base') := by
  rw [hs.shift_eq h.small, hs.shift_eq h.small']
  exact h.related _ _ hs.lower hs.ordered hs.upper

/-- A part of the text is a text that begins later. -/
theorem inner (h : Fits R base base' lo hi) {place length : Nat} (hlo : lo ≤ place)
    (hhi : place + length ≤ hi) : Fits R (base + place) (base' + place) 0 length := by
  have := h.small
  have := h.small'
  refine ⟨by omega, by omega, fun start stop _ hle hstop => ?_⟩
  have related := h.related (start + place) (stop + place) (by omega) (by omega) (by omega)
  have swap (n base : Nat) : n + (base + place) = n + place + base := by omega
  rwa [swap start base, swap stop base, swap start base', swap stop base']

theorem contents {start start' : Nat} {raw : List Char}
    (h : Fits R start start' 0 (byteLength raw)) :
    SameContents R (fun source start start' => Fits R start start' 0 (byteLength source))
      start start' raw := by
  refine ⟨fun e he => ?_, fun e he => ?_, fun parts hsplit name place hmem => ?_,
    fun parts hsplit source place hmem => ?_⟩
  · exact h.shift (Literal.unescape_error he h.countable)
  · exact h.shift (Literal.split_error he h.countable)
  · have fits : Fits R (start + place) (start' + place) 0 (byteLength name) := by
      cases Literal.stands_of_mem_split hsplit hmem with
      | name heq =>
        refine h.inner (Nat.zero_le _) ?_
        simp only [heq, byteLength, byteLength_append, show '$'.utf8Size = 1 from rfl]
        omega
    have hname : (Span.mk 0 (byteLength name)).Within 0 (byteLength name) :=
      ⟨Nat.le_refl _, Nat.zero_le _, Nat.le_refl _⟩
    have whole := fits.shift hname
    simpa only [Span.shift, Nat.zero_add, Nat.add_comm (byteLength name)] using whole
  · cases Literal.stands_of_mem_split hsplit hmem with
    | expression heq =>
      refine h.inner (Nat.zero_le _) ?_
      simp only [heq, byteLength, byteLength_append, show '$'.utf8Size = 1 from rfl,
        show '\x7b'.utf8Size = 1 from rfl]
      omega

/-- The contents of a string literal begin behind its quote. -/
theorem literal {c after : Cursor} {raw : List Char} {doubleQuoted : Bool} {span : Span}
    (h : Fits R base base' c.offset c.endOffset)
    (hnext : Token.next .operand c = .ok (⟨.str raw doubleQuoted, span⟩, after)) :
    Fits R ((span.shift base).start + 1) ((span.shift base').start + 1) 0 (byteLength raw) := by
  have within := Token.next_within hnext h.countable
  obtain ⟨found, quote, hfound, hafter, hspan, hquote, hrest⟩ := Token.str_reaches hnext
  have hlast := (hfound.trans hafter).le_endOffset
  have hstart : span.start = found.offset := by
    rw [hspan, Span.ofRange_eq hafter.le (Nat.le_trans hlast h.countable)]
  have hend : found.offset + 1 + byteLength raw ≤ c.endOffset := by
    rw [← hfound.endOffset, Cursor.endOffset, hrest]
    simp only [List.cons_append, byteLength, byteLength_append]
    omega
  have inner := h.inner (Nat.le_succ_of_le hfound.le) hend
  rw [within.shift_eq h.small, within.shift_eq h.small', hstart]
  have swap (base : Nat) : found.offset + base + 1 = base + (found.offset + 1) := by omega
  rwa [swap, swap]

end Fits

/-- The places are the same one of a text whose spans are related from there on. -/
def SamePlace (R : SpanRelation) (_mode : LexMode) (base base' : Nat) (c c' : Cursor) : Prop :=
  c' = c ∧ Fits R base base' c.offset c.endOffset

/-- What is read at one place is the same. -/
theorem sameRead {mode : LexMode} {c : Cursor} (h : Fits R base base' c.offset c.endOffset) :
    SameRead R base base' (fun kind span span' after after' =>
        SamePlace R mode base base' after after' ∧
        ∀ raw doubleQuoted, kind = .str raw doubleQuoted → mode = .operand →
          Fits R (span.start + 1) (span'.start + 1) 0 (byteLength raw))
      (Token.next mode c) (Token.next mode c) := by
  cases hnext : Token.next mode c with
  | error e => exact .fault (h.shift (Token.next_error hnext h.countable))
  | ok r =>
    obtain ⟨⟨kind, span⟩, after⟩ := r
    have reach := Token.reaches_of_next hnext
    refine .token (h.shift (Token.next_within hnext h.countable)) ⟨⟨rfl, ?_⟩, ?_⟩
    · exact h.mono reach.le (Nat.le_of_eq reach.endOffset)
    · rintro raw doubleQuoted rfl rfl
      exact h.literal hnext

theorem SamePlace.followsSymbol {mode : LexMode} {after after' : Cursor} (symbol : String)
    (h : SamePlace R mode base base' after after') :
    FollowsSymbol (SamePlace R · base base') symbol after after' := by
  obtain ⟨rfl, fits⟩ := h
  unfold FollowsSymbol
  split
  case isTrue => exact ⟨rfl, fits⟩
  case isFalse =>
    split
    case h_1 => exact ⟨rfl, fits⟩
    case h_2 =>
      cases hclause : Signature.lambda? after' with
      | none => exact .none hclause hclause ⟨rfl, fits⟩
      | some clause =>
        have reach := Signature.lambda?_reaches hclause
        exact .clause hclause hclause rfl
          ⟨rfl, fits.mono reach.le (Nat.le_of_eq reach.endOffset)⟩
    case h_3 => exact ⟨rfl, fits⟩

/-- One text is read alike wherever it begins. -/
def Course.sameText (R : SpanRelation) : Course R where
  at_ := SamePlace R
  operand := by
    rintro base base' c _ ⟨rfl, fits⟩
    refine (sameRead fits).mono fun kind span span' after after' ⟨hafter, hraw⟩ => ?_
    refine ⟨fun _ => hafter, fun raw doubleQuoted hkind => ?_⟩
    obtain ⟨unescape, split, name, source⟩ := (hraw raw doubleQuoted hkind rfl).contents
    refine ⟨unescape, split, name, fun parts hsplit text place hmem => ⟨rfl, ?_⟩⟩
    have length : (Cursor.start text).endOffset = byteLength text := Nat.zero_add _
    rw [length]
    exact source parts hsplit text place hmem
  operator := by
    rintro base base' c _ ⟨rfl, fits⟩
    refine (sameRead fits).mono fun kind span span' after after' ⟨hafter, _⟩ => ?_
    cases kind with
    | comma => exact hafter
    | operator symbol => exact hafter.followsSymbol symbol
    | _ => exact trivial
  member := by
    rintro base base' c _ ⟨rfl, fits⟩
    refine (sameRead fits).mono fun kind span span' after after' ⟨hafter, _⟩ => ?_
    unfold FollowsMember
    split
    · exact hafter
    · exact trivial

/-- **A text parses alike wherever it begins**, if the spans of the two places are related. -/
theorem parse_sameText {text : String} (scope : TemplateScope ε)
    (h : Fits R base base' 0 (byteLength text.toList)) :
    SameOutcome R (Parsed.Twin R) (parse text base scope) (parse text base' scope) := by
  have whole : (Span.ofRange 0 (byteLength text.toList)).Within 0 (byteLength text.toList) :=
    Span.within_ofRange (Nat.le_refl _) (Nat.zero_le _) (Nat.le_refl _) h.countable
  have length : (Cursor.start text.toList).endOffset = byteLength text.toList := Nat.zero_add _
  refine (Course.sameText R).parse (h.shift whole) ?_
  cases hd : definitionOf? scope.extensions text with
  | none =>
    refine .inl ⟨rfl, rfl, rfl, ?_⟩
    rw [length]
    exact h
  | some d =>
    refine .inr ⟨d, d, rfl, rfl, ?_, rfl, ?_⟩
    all_goals
      unfold definitionOf? at hd
      split at hd <;> try cases hd
      obtain ⟨hbody, within⟩ := Signature.definition?_reaches hd
      obtain ⟨hname, hparams⟩ := within h.countable
    · refine ⟨rfl, h.shift hname, ?_, rfl⟩
      rw [List.forall₂_same]
      exact fun p hp => ⟨rfl, h.shift (hparams p hp)⟩
    · have := hbody.endOffset
      rw [length] at this
      exact h.mono (Nat.zero_le _) (Nat.le_of_eq this)

end TagExpr

/-! ## Moving a text -/

namespace TagExpr

variable {ε : Type}

theorem Span.moved_merge {distance : Int} {s s' t t' : Span}
    (hs : (s'.start : Int) = s.start + distance ∧ (s'.stop : Int) = s.stop + distance)
    (ht : (t'.start : Int) = t.start + distance ∧ (t'.stop : Int) = t.stop + distance) :
    ((s'.merge t').start : Int) = (s.merge t).start + distance ∧
      ((s'.merge t').stop : Int) = (s.merge t).stop + distance := by
  obtain ⟨hs, hs'⟩ := hs
  obtain ⟨ht, ht'⟩ := ht
  simp only [Span.merge]
  omega

/-- The second span is the first one, moved by `distance`. -/
def SpanRelation.moved (distance : Int) : SpanRelation where
  rel s s' := (s'.start : Int) = s.start + distance ∧ (s'.stop : Int) = s.stop + distance
  merge := Span.moved_merge

theorem fits_moved {base base' length : Nat} (h : base + length < 2 ^ 32)
    (h' : base' + length < 2 ^ 32) :
    Fits (.moved ((base' : Int) - base)) base base' 0 length := by
  have max : Span.maxOffset = 2 ^ 32 - 1 := rfl
  refine ⟨by omega, by omega, fun start stop _ _ _ => ?_⟩
  simp only [SpanRelation.moved]
  omega

/-- **A text that is moved parses to the same expression.** Both parses succeed, with all but the
span of the expression the same, or both fail for the same cause, and they leave the same scope; the
spans differ by the distance of the two offsets. -/
theorem parse_moved (text : String) (scope : TemplateScope ε) {offset offset' : Nat}
    (h : offset + byteLength text.toList < 2 ^ 32)
    (h' : offset' + byteLength text.toList < 2 ^ 32) :
    SameOutcome (.moved ((offset' : Int) - offset))
      (Parsed.Twin (.moved ((offset' : Int) - offset)))
      (parse text offset scope) (parse text offset' scope) :=
  parse_sameText scope (fits_moved h h')

/-- The operand that is missing in an interpolated source. -/
theorem parse_moved_of_interpolation :
    (parse "\"a$\x7b1 +\x7d\"" 3 (TemplateScope.fresh : TemplateScope Nat)).1.map (fun _ => ()) =
        .error ⟨.unexpectedEnd, ⟨10, 10⟩⟩ ∧
      SameOutcome (.moved ((20 : Nat) - (3 : Nat))) (Parsed.Twin (.moved ((20 : Nat) - (3 : Nat))))
        (parse "\"a$\x7b1 +\x7d\"" 3 (TemplateScope.fresh : TemplateScope Nat))
        (parse "\"a$\x7b1 +\x7d\"" 20 TemplateScope.fresh) :=
  ⟨by decide +kernel, parse_moved _ _ (by decide) (by decide)⟩

end TagExpr
