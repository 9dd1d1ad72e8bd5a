import Mathlib
import TagExpr.Proofs.Parse.Whole
import TagExpr.Proofs.Placing.SameText

/-!
# Where errors lie

An error of a text lies in the text. An interpolated source is a text of its own, which begins where
it stands in the template, so an error that comes up in it lies in it; and what a round of the
parser fails with is what the parse fails with.
-/

namespace TagExpr

variable {ε : Type}

theorem Span.Within.merge {lo hi : Nat} {s t : Span} (hs : s.Within lo hi) (ht : t.Within lo hi) :
    (s.merge t).Within lo hi := by
  obtain ⟨hs, hs', hs''⟩ := hs
  obtain ⟨ht, ht', ht''⟩ := ht
  refine ⟨?_, ?_, ?_⟩ <;> simp only [Span.merge] <;> omega

/-- Spans between the two offsets. -/
def SpanRelation.within (lo hi : Nat) : SpanRelation where
  rel s _ := s.Within lo hi
  merge := Span.Within.merge

theorem fits_within {base length : Nat} (h : base + length ≤ Span.maxOffset) :
    Fits (.within base (base + length)) base base 0 length :=
  ⟨by omega, by omega, fun _ _ _ _ _ =>
    ⟨Nat.le_add_left .., Nat.add_le_add_right ‹_› _, by simp only; omega⟩⟩

/-- An error of a text lies in the text. -/
theorem parse_within {text : String} {offset : Nat} {scope : TemplateScope ε} {e : ParseError}
    (h : offset + byteLength text.toList ≤ Span.maxOffset)
    (he : (parse text offset scope).1 = .error e) :
    e.span.Within offset (offset + byteLength text.toList) := by
  have ends := parse_sameText scope (fits_within h)
  revert he ends
  generalize parse text offset scope = r
  rintro he ends
  cases ends with
  | ok => cases he
  | error htwin =>
    cases he
    exact htwin.span

namespace Parse

variable {r r' first : Round ε} {e : ParseError} {b b' : Bench ε} {source : List Char} {α β : Type}

/-! ## Failing -/

/-- From the bench the step fails with that error. -/
abbrev Raises (step : Parse ε α) (b : Bench ε) (e : ParseError) : Prop :=
  Ends step b (fun _ _ => False) (fun e' _ => e' = e)

theorem raises_iff {step : Parse ε α} : Raises step b e ↔ ∃ b', step b = .error e b' := by
  unfold Raises Ends
  cases step b with
  | ok a b' => simp
  | error e' b' => simp

theorem raises_of_ok {step : Parse ε α} {next : α → Parse ε β} {a : α} (hs : step b = .ok a b')
    (h : Raises (next a) b' e) : Raises (step >>= next) b e := by
  rw [Raises, ends_bind, ends_of_ok hs]
  exact h

theorem Raises.bind {step : Parse ε α} (h : Raises step b e) (next : α → Parse ε β) :
    Raises (step >>= next) b e := by
  rw [Raises, ends_bind]
  exact h.mono (fun _ _ h => h.elim) fun _ _ h => h

/-- What fails in an interpolated source fails in the literal. -/
theorem Calls.raises {nested : List Char → Nat → Parse ε Operand} {base start : Nat}
    {parts : List Literal.Segment} (h : Calls nested base parts b source start b')
    (he : Raises (nested source start) b' e) : Raises (segments nested base parts) b e := by
  obtain ⟨before, place, after, nodes, b₁, rfl, hbefore, rfl, rfl⟩ := h
  induction before generalizing b nodes with
  | nil =>
    cases hbefore
    rw [List.nil_append, segments_cons]
    refine Raises.bind ?_ _
    rw [segment, Raises, ends_map, isolated, ends_bind, ends_get, ends_bind, ends_set, ends_bind]
    exact he.mono (fun _ _ h => h.elim) fun _ _ h => h
  | cons part before ih =>
    rw [segments_cons] at hbefore
    rw [List.cons_append, segments_cons]
    simp only [bind, EStateM.bind] at hbefore
    cases hpart : segment nested base part b with
    | error => simp [hpart] at hbefore
    | ok node b₂ =>
      simp only [hpart] at hbefore
      cases hmore : segments nested base before b₂ with
      | error => simp [hmore] at hbefore
      | ok nodes' b₃ =>
        simp only [hmore] at hbefore
        cases hbefore
        exact raises_of_ok hpart ((ih _ hmore).bind _)

theorem Calls.raises_string {nested : List Char → Nat → Parse ε Operand} {raw : List Char}
    {start : Nat} {span : Span} {parts : List Literal.Segment}
    (h : Calls nested (span.start + 1) parts b source start b')
    (hx : b.scope.extensions.interpolation) (hsplit : Literal.split raw = .ok parts)
    (he : Raises (nested source start) b' e) : Raises (string nested raw true span) b e := by
  have fails := h.raises he
  unfold string
  simp only [Raises, ends_bind, ends_get, hx, Bool.and_true, if_true, hsplit]
  split
  case h_1 heq => cases heq
  case h_2 heq =>
    -- A literal of one text holds no source.
    cases heq
    obtain ⟨before, _, _, _, _, hparts, -⟩ := h
    cases before <;> simp at hparts
  case h_3 heq =>
    cases heq
    rw [ends_bind]
    exact fails.mono (fun _ _ h => h.elim) fun _ _ h => h

/-- What a round fails with, the rounds before it fail with. -/
theorem Enters.raises (h : Enters r r') (he : ∃ b, r'.run = .error e b) :
    ∃ b, r.run = .error e b := by
  have past {base : Nat} {mode : LexMode} {at_ after : Cursor} {token : Token} {b : Bench ε}
      {next : TokenKind × Span × Cursor → Parse ε Operand}
      (hnext : Token.next mode at_ = .ok (token, after))
      (h : Raises (next (token.kind, token.span.shift base, after)) b e) :
      Raises (readToken mode base at_ >>= next) b e := by
    rw [Raises, ends_bind, ends_readToken, hnext]
    exact h
  refine raises_iff.mp ?_
  replace he := raises_iff.mpr he
  cases h with
  | operand hnext hrun =>
    unfold rounds
    exact past hnext (raises_of_ok hrun he)
  | source hnext hx hsplit hcall =>
    unfold rounds
    exact past hnext (((hcall.raises_string hx hsplit he).bind _).bind _)
  | @comma _ _ mode _ _ _ _ _ hm hnext hrun =>
    unfold rounds
    refine past hnext ?_
    cases mode with
    | operand => exact absurd rfl hm
    | operator | member => exact raises_of_ok hrun he
  | @operator _ _ mode _ _ _ _ _ _ _ _ hm hnext hrun =>
    unfold rounds
    refine past hnext ?_
    cases mode with
    | operand => exact absurd rfl hm
    | operator | member => exact raises_of_ok hrun he

theorem Visits.raises (h : Visits r r') (he : ∃ b, r'.run = .error e b) :
    ∃ b, r.run = .error e b := by
  induction h using Relation.ReflTransGen.head_induction_on with
  | refl => exact he
  | head hstep _ ih => exact hstep.raises ih

/-! ## Where the text of a round stands -/

/-- The piece stands in a text that begins at `offset`, and itself begins at `place`. -/
def StandsAt (text : List Char) (offset : Nat) (piece : List Char) (place : Nat) : Prop :=
  ∃ before after, text = before ++ piece ++ after ∧ place = offset + byteLength before

variable {text piece part : List Char} {offset place inner : Nat}

theorem StandsAt.trans (h : StandsAt text offset piece place)
    (h' : StandsAt piece place part inner) :
    StandsAt text offset part inner := by
  obtain ⟨before, after, rfl, rfl⟩ := h
  obtain ⟨before', after', rfl, rfl⟩ := h'
  refine ⟨before ++ before', after' ++ after, by simp, ?_⟩
  rw [byteLength_append, Nat.add_assoc]

theorem StandsAt.stop_le (h : StandsAt text offset piece place) :
    offset ≤ place ∧ place + byteLength piece ≤ offset + byteLength text := by
  obtain ⟨before, after, rfl, rfl⟩ := h
  simp only [byteLength_append]
  omega

/-- The round parses the rest of a text that stands in the given one. -/
def Round.Lies (text : List Char) (offset : Nat) (r : Round ε) : Prop :=
  ∃ piece, StandsAt text offset piece r.base ∧ (Cursor.start piece).Reaches r.at_

theorem operatorReach_reaches (symbol : String) (at_ : Cursor) :
    at_.Reaches (operatorReach symbol at_).2.2 := by
  unfold operatorReach
  split
  case isTrue => exact .refl _
  case isFalse =>
    split
    case h_1 =>
      split
      case h_1 hnext => exact Token.reaches_of_next hnext
      case h_2 => exact .refl _
    case h_2 =>
      split
      case h_1 hl => exact Signature.lambda?_reaches hl
      case h_2 => exact .refl _
    case h_3 => exact .refl _

/-- The first round reads a string literal, in which the source stands as `${source}`; the run of
the second round parses the source. -/
inductive Interpolates (source : List Char) : Round ε → Round ε → Prop
  | intro {fuel base start : Nat} {at_ after : Cursor} {raw : List Char} {span : Span}
      {parts : List Literal.Segment} {b b' : Bench ε} :
      Token.next .operand at_ = .ok (⟨.str raw true, span⟩, after) →
      b.scope.extensions.interpolation → Literal.split raw = .ok parts →
      Calls (nestedParse fuel) ((span.shift base).start + 1) parts b source start b' →
      Interpolates source ⟨fuel + 1, .operand, base, at_, b⟩
        ⟨fuel, .operand, start, Cursor.start source, b'⟩

theorem Interpolates.enters (h : Interpolates source r r') : Enters r r' := by
  obtain ⟨hnext, hx, hsplit, hcall⟩ := h
  exact .source hnext hx hsplit hcall

/-- The source stands in the text, between `${` and `}`. -/
theorem Interpolates.stands (h : Interpolates source r r') (hr : r.Lies text offset)
    (fits : offset + byteLength text ≤ Span.maxOffset) :
    ∃ place, r'.base = place + 2 ∧
      StandsAt text offset ('$' :: '\x7b' :: source ++ ['\x7d']) place := by
  obtain @⟨fuel, base, start, at_, after, raw, span, parts, b, b', hnext, hx, hsplit, hcall⟩ := h
  obtain ⟨piece, hpiece, hreach⟩ := hr
  simp only at hpiece hreach ⊢
  obtain ⟨opening, segment, closing, nodes, b₁, rfl, -, rfl, -⟩ := hcall
  obtain ⟨found, quote, hfound, hafter, rfl, hquote, hrest⟩ := Token.str_reaches hnext
  have hstop := hpiece.stop_le
  have hend := ((hreach.trans hfound).trans hafter).le_endOffset
  have length : (Cursor.start piece).endOffset = byteLength piece := Nat.zero_add _
  obtain ⟨passed, hpassed, hoffset⟩ := hreach.trans hfound
  simp only [Cursor.start, Nat.zero_add] at hpassed hoffset
  -- The literal stands behind its quote, and the source behind what comes before it there.
  have literal : StandsAt piece base raw (base + found.offset + 1) := by
    refine ⟨passed ++ [quote], quote :: after.rest, by simp [hpassed, hrest], ?_⟩
    simp only [byteLength_append, byteLength]
    omega
  have hle := hafter.le
  have shifted : ((Span.ofRange found.offset after.offset).shift base).start =
      base + found.offset := by
    rw [Span.ofRange_eq hle (by omega),
      Span.shift_of_le (by simp only; omega) (by simp only; omega)]
    exact Nat.add_comm _ _
  simp only [shifted]
  cases Literal.stands_of_mem_split hsplit
      (List.mem_append_right opening (List.mem_cons_self ..)) with
  | @expression before _ rest heq =>
    refine ⟨base + found.offset + 1 + byteLength before, by omega, ?_⟩
    refine (hpiece.trans literal).trans ⟨before, rest, by simp [heq], rfl⟩

theorem StandsAt.unwrap (h : StandsAt text offset ('$' :: '\x7b' :: source ++ ['\x7d']) place) :
    StandsAt text offset source (place + 2) :=
  h.trans ⟨['$', '\x7b'], ['\x7d'], by simp, rfl⟩

theorem Enters.lies (h : Enters r r') (hl : r.LaidOut) (hr : r.Lies text offset)
    (fits : offset + byteLength text ≤ Span.maxOffset) : r'.Lies text offset := by
  obtain ⟨piece, hpiece, hreach⟩ := id hr
  cases h with
  | operand hnext _ => exact ⟨piece, hpiece, hreach.trans (Token.reaches_of_next hnext)⟩
  | source hnext hx hsplit hcall =>
    obtain ⟨place, hplace, hstands⟩ := (Interpolates.intro hnext hx hsplit hcall).stands hr fits
    exact ⟨_, hplace ▸ hstands.unwrap, .refl _⟩
  | comma _ hnext _ => exact ⟨piece, hpiece, hreach.trans (Token.reaches_of_next hnext)⟩
  | @operator _ base mode mode' at_ after after' symbol span b b' hm hnext hrun =>
    refine ⟨piece, hpiece, (hreach.trans (Token.reaches_of_next hnext)).trans ?_⟩
    obtain ⟨⟨N, w, hs⟩, -⟩ := hl
    cases mode with
    | operand => exact absurd rfl hm
    | member => cases hs.layout
    | operator =>
      have reach := operatorReach_reaches symbol after
      rwa [← ((hs.operator symbol _ base after).ok hrun).1] at reach

theorem Visits.lies (h : Visits first r) (hl : first.LaidOut) (hr : first.Lies text offset)
    (fits : offset + byteLength text ≤ Span.maxOffset) : r.Lies text offset := by
  induction h with
  | refl => exact hr
  | tail hv hstep ih => exact hstep.lies (Visits.laidOut hv hl) ih fits

/-- A run begins in its text, behind the signature if there is one. -/
theorem firstRound?_reaches {text : String} {offset : Nat} {scope : TemplateScope ε}
    (h : firstRound? text offset scope = some first) :
    (Cursor.start text.toList).Reaches first.at_ := by
  rw [firstRound?_start h]
  show (Cursor.start text.toList).Reaches (bodyOf scope.extensions text)
  unfold bodyOf
  split
  case h_1 d hd =>
    unfold definitionOf? at hd
    split at hd
    case isTrue => exact (Signature.definition?_reaches hd).1
    case isFalse => cases hd
  case h_2 => exact .refl _

theorem firstRound?_lies {text : String} {offset : Nat} {scope : TemplateScope ε}
    (h : firstRound? text offset scope = some first) : first.Lies text.toList offset := by
  have reaches := firstRound?_reaches h
  rw [firstRound?_start h] at reaches ⊢
  exact ⟨text.toList, ⟨[], [], by simp, rfl⟩, reaches⟩

/-! ## Errors in interpolated sources -/

/-- What comes up while a source is parsed lies in it. -/
theorem Interpolates.within (h : Interpolates source r r') (hl : r.LaidOut)
    (fits : r'.base + byteLength source ≤ Span.maxOffset) (he : r'.run = .error e b) :
    e.span.Within r'.base (r'.base + byteLength source) := by
  have hlaid := h.enters.laidOut hl
  obtain @⟨fuel, base, start, at_, after, raw, span, parts, bench, bench', hnext, hx,
      hsplit, hcall⟩ := h
  obtain ⟨-, hfuel⟩ := hlaid
  simp only at fits hfuel ⊢
  obtain ⟨scope, tables, rfl⟩ : ∃ scope tables, bench' = { scope, tables } := by
    obtain ⟨-, -, -, -, _, -, -, -, rfl⟩ := hcall
    exact ⟨_, _, rfl⟩
  have length : (Cursor.start source).endOffset = byteLength source := Nat.zero_add _
  have start :
      (Course.sameText (.within start (start + byteLength source))).at_ .operand start start
      (Cursor.start source) (Cursor.start source) := by
    refine ⟨rfl, ?_⟩
    rw [length]
    exact fits_within fits
  have ends := Course.rounds _ start hfuel hfuel scope tables
  rw [Round.run] at he
  rw [he] at ends
  cases ends with
  | error htwin => exact htwin.span
  | lenient h => exact absurd trivial h

end Parse

open Parse

/-- **Errors lie in the text at fault.** An error of a text lies in the text. An error that comes up
while an interpolated source is parsed is the error of the whole text, and it lies in the source,
which stands in the text between `${` and `}`. -/
theorem errors_within (text : String) (offset : Nat) (scope : TemplateScope ε)
    (h : offset + byteLength text.toList < 2 ^ 32) :
    (∀ e, (parse text offset scope).1 = .error e →
      e.span.Within offset (offset + byteLength text.toList)) ∧
    ∀ first r r' source, firstRound? text offset scope = some first → Visits first r →
      Interpolates source r r' →
      (∃ place, r'.base = place + 2 ∧
        StandsAt text.toList offset ('$' :: '\x7b' :: source ++ ['\x7d']) place) ∧
      ∀ e b, r'.run = .error e b →
        (parse text offset scope).1 = .error e ∧
        e.span.Within r'.base (r'.base + byteLength source) := by
  have fits : offset + byteLength text.toList ≤ Span.maxOffset := Nat.le_pred_of_lt h
  refine ⟨fun e he => parse_within fits he, fun first r r' source hfirst hv hin => ?_⟩
  have hlaid := firstRound?_laidOut hfirst
  have hlies := hv.lies hlaid (firstRound?_lies hfirst) fits
  obtain ⟨place, hplace, hstands⟩ := hin.stands hlies fits
  refine ⟨⟨place, hplace, hstands⟩, fun e b hrun => ⟨?_, ?_⟩⟩
  · obtain ⟨b', hb'⟩ := Visits.raises (hv.tail hin.enters) ⟨b, hrun⟩
    have hparse := parse_run text offset scope
    rw [hfirst] at hparse
    simpa only [hb'] using hparse
  · have hstop := hstands.unwrap.stop_le
    rw [← hplace] at hstop
    exact hin.within (hv.laidOut hlaid) (by omega) hrun

/-- The operand that is missing in an interpolated source, and the place of the source. -/
theorem errors_within_of_interpolation :
    ∃ first r' e b, firstRound? "\"$\x7b1 +\x7d\"" 3 (TemplateScope.fresh : TemplateScope Nat) =
        some first ∧ Interpolates "1 +".toList first r' ∧ r'.run = .error e b ∧
      (parse "\"$\x7b1 +\x7d\"" 3 (TemplateScope.fresh : TemplateScope Nat)).1 = .error e ∧
      e.span.Within 6 9 := by
  have hfirst : firstRound? "\"$\x7b1 +\x7d\"" 3 (TemplateScope.fresh : TemplateScope Nat) =
      some (.start .fresh {} 3 (Cursor.start "\"$\x7b1 +\x7d\"".toList)) := rfl
  have hin : Interpolates "1 +".toList
      (.start (TemplateScope.fresh : TemplateScope Nat) {} 3
        (Cursor.start "\"$\x7b1 +\x7d\"".toList))
      ⟨8, .operand, 6, Cursor.start "1 +".toList, { scope := .fresh, tables := {} }⟩ := by
    have hnext : Token.next .operand (Cursor.start "\"$\x7b1 +\x7d\"".toList) =
        .ok (⟨.str "$\x7b1 +\x7d".toList true, ⟨0, 8⟩⟩, ⟨8, []⟩) := by decide +kernel
    have hsplit : Literal.split "$\x7b1 +\x7d".toList = .ok [.expression "1 +".toList 2] := by
      decide +kernel
    exact .intro hnext rfl hsplit .head
  obtain ⟨e, b, hrun⟩ : ∃ e b, (Round.mk 8 .operand 6 (Cursor.start "1 +".toList)
      { scope := (TemplateScope.fresh : TemplateScope Nat), tables := {} }).run = .error e b :=
    ⟨_, _, rfl⟩
  obtain ⟨-, hsources⟩ :=
    errors_within "\"$\x7b1 +\x7d\"" 3 (TemplateScope.fresh : TemplateScope Nat)
    (by decide)
  obtain ⟨-, herrors⟩ := hsources _ _ _ _ hfirst .refl hin
  exact ⟨_, _, e, b, hfirst, hin, hrun, herrors e b hrun⟩

end TagExpr
