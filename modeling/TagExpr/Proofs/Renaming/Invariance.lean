import Mathlib.Logic.Equiv.Basic
import TagExpr.Proofs.Renaming.Tokens

/-!
# The names in a text do not matter

A renamed text parses to the expression of the text, if that parses at all: names are looked up in
tables, among the parameters and locals, and nowhere else, and only to see whether they are the same
(`parse_renamed`). What is no clause and no definition does not become one, because what looks like
one is refused as an expression.
-/

namespace TagExpr

variable {ε : Type}

namespace Renaming

variable (r : Renaming) (extensions : Extensions)

/-! ## The renamed places -/

/-- From the second place on the renamed text goes on as the text does from the first place on. -/
def Renames (mode : LexMode) (at_ at' : Cursor) : Prop :=
  ∃ fuel, at_.rest.length < fuel ∧ at'.rest = r.textFrom extensions fuel mode at_

variable {r extensions} {mode : LexMode} {at_ at' after after' : Cursor} {kind : TokenKind}
  {span : Span} {fuel : Nat} {symbol : String} {nested : List Char → List Char}

/-- The next token, and enough fuel for what follows it. -/
theorem Renames.next (h : r.Renames extensions mode at_ at')
    (hnext : Token.next mode at_ = .ok (⟨kind, span⟩, after)) :
    ∃ fuel span' after', at_.rest.length ≤ fuel ∧
      Token.next mode at' =
        .ok (⟨r.kind extensions (r.sources extensions fuel) kind, span'⟩, after') ∧
      after'.rest = r.behind (r.textFrom extensions fuel) mode kind after := by
  obtain ⟨fuel, hfuel, hat⟩ := h
  obtain ⟨fuel, rfl⟩ : ∃ less, fuel = less + 1 := ⟨fuel - 1, by omega⟩
  obtain ⟨span', after', hnext', hafter⟩ := r.next_renamed extensions hnext hat
  exact ⟨fuel, span', after', by omega, hnext', hafter⟩

theorem Renames.behind (hnext : Token.next mode at_ = .ok (⟨kind, span⟩, after))
    (hk : kind ≠ .finish) (hfuel : at_.rest.length ≤ fuel) {next : LexMode}
    (hat : after'.rest = r.textFrom extensions fuel next after) :
    r.Renames extensions next after after' :=
  ⟨fuel, Nat.lt_of_lt_of_le (Token.length_next hnext hk) hfuel, hat⟩

/-! ## Kinds of tokens -/

theorem modeAfter_kind (nested : List Char → List Char) (kind : TokenKind) :
    (r.kind extensions nested kind).modeAfter = kind.modeAfter := by
  unfold Renaming.kind
  split
  · split <;> rfl
  · cases kind with
    | ident i =>
      obtain ⟨kind, lookup, call⟩ := i
      cases kind <;> rfl
    | _ => rfl

theorem kind_eq_finish : r.kind extensions nested kind = .finish ↔ kind = .finish := by
  unfold Renaming.kind
  split
  · split <;> simp
  · cases kind <;> simp [TokenKind.rename]

theorem kind_eq_comma : r.kind extensions nested kind = .comma ↔ kind = .comma := by
  unfold Renaming.kind
  split
  · split <;> simp
  · cases kind <;> simp [TokenKind.rename]

theorem kind_eq_operator :
    r.kind extensions nested kind = .operator symbol ↔ kind = .operator symbol := by
  unfold Renaming.kind
  split
  · split <;> simp
  · cases kind <;> simp [TokenKind.rename]

theorem kind_alike (nested : List Char → List Char) (kind : TokenKind) :
    kind.Alike (r.likeness extensions) (r.kind extensions nested kind) := by
  unfold Renaming.kind
  split
  · split
    · exact .str _ _ true
    · exact .str _ _ true
  · cases kind with
    | str raw doubleQuoted => exact .str raw raw doubleQuoted
    | _ => exact .renamed (by simp)

/-! ## What is refused -/

/-- Behind a streaming operator an operand is expected. -/
theorem modeBehind_of_streams (h : Operator.Streams symbol) :
    Operator.modeBehind symbol = .operand := by
  obtain ⟨hcloser, op, hop⟩ := h
  rw [Operator.modeBehind, hcloser, hop]
  rfl

/-- Where there is no clause the text goes on behind an operator symbol. -/
theorem behindSymbol_eq (next : LexMode → Cursor → List Char)
    (h : Operator.Streams symbol → Signature.lambda? after = none) :
    r.behindSymbol next symbol after = next (Operator.modeBehind symbol) after := by
  unfold behindSymbol Operator.modeBehind
  split
  case isTrue => rfl
  case isFalse hcloser =>
    cases hop : (Operator.findInfix? symbol).map Operator.kind with
    | none => rfl
    | some op =>
      cases op with
      | stream op => simp only [h ⟨Bool.eq_false_iff.mpr hcloser, op, hop⟩]
      | _ => rfl

theorem behindSymbol_clause {next : LexMode → Cursor → List Char} {clause : LambdaClause}
    (h : Operator.Streams symbol) (hclause : Signature.lambda? after = some clause) :
    r.behindSymbol next symbol after =
      r.words (before after.rest clause.body.rest) ++ next .operand clause.body := by
  obtain ⟨hcloser, op, hop⟩ := h
  simp only [behindSymbol, hcloser, Bool.false_eq_true, if_false, hop, hclause]

/-- **Where a renamed text is refused, so is the text.** -/
theorem refused_of_renames (hrefused : Refused mode at')
    (h : r.Renames extensions mode at_ at') : Refused mode at_ := by
  induction hrefused generalizing at_ with
  | @lexeme mode at' e herror =>
    cases hnext : Token.next mode at_ with
    | error e => exact .lexeme hnext
    | ok found =>
      obtain ⟨_, _, _, _, hnext', -⟩ := h.next hnext
      cases herror.symm.trans hnext'
  | @operand at' _ _ _ hnext' hk _ ih =>
    cases hnext : Token.next .operand at_ with
    | error e => exact .lexeme hnext
    | ok found =>
      obtain ⟨⟨kind, span⟩, after⟩ := found
      obtain ⟨fuel, _, _, hfuel, hfound, hafter⟩ := h.next hnext
      cases hnext'.symm.trans hfound
      have hfinish : kind ≠ .finish := fun heq => hk (kind_eq_finish.mpr heq)
      rw [modeAfter_kind] at ih
      exact .operand hnext hfinish (ih (.behind hnext hfinish hfuel hafter))
  | @comma at' _ _ hnext' _ ih =>
    cases hnext : Token.next .operator at_ with
    | error e => exact .lexeme hnext
    | ok found =>
      obtain ⟨⟨kind, span⟩, after⟩ := found
      obtain ⟨fuel, _, _, hfuel, hfound, hafter⟩ := h.next hnext
      obtain ⟨htoken, rfl⟩ := Prod.mk.inj (Except.ok.inj (hnext'.symm.trans hfound))
      obtain rfl := kind_eq_comma.mp (Token.mk.inj htoken).1.symm
      exact .comma hnext (ih (.behind hnext (by simp) hfuel hafter))
  | @symbol at' _ symbol _ hnext' hmember hclause _ ih =>
    cases hnext : Token.next .operator at_ with
    | error e => exact .lexeme hnext
    | ok found =>
      obtain ⟨⟨kind, span⟩, after⟩ := found
      obtain ⟨fuel, _, _, hfuel, hfound, hafter⟩ := h.next hnext
      obtain ⟨htoken, rfl⟩ := Prod.mk.inj (Except.ok.inj (hnext'.symm.trans hfound))
      obtain rfl := kind_eq_operator.mp (Token.mk.inj htoken).1.symm
      have hafter : _ = r.behindSymbol _ symbol after := hafter
      -- A clause of the text is one of the renamed text.
      have hnone : Operator.Streams symbol → Signature.lambda? after = none := by
        intro hstreams
        cases hsome : Signature.lambda? after with
        | none => rfl
        | some clause =>
          rw [behindSymbol_clause hstreams hsome] at hafter
          obtain ⟨clause', hclause', -⟩ := r.lambda?_renamed hsome hafter
          cases (hclause hstreams).symm.trans hclause'
      rw [behindSymbol_eq _ hnone] at hafter
      exact .symbol hnext hmember hnone (ih (.behind hnext (by simp) hfuel hafter))

/-! ## The track of a renaming -/

/-- The contents of a renamed literal are alike. -/
theorem literals_renamed {raw raw' : List Char} {doubleQuoted : Bool} {start start' : Nat}
    (h : r.kind extensions (r.sources extensions fuel) (.str raw doubleQuoted) =
      .str raw' doubleQuoted) (hfuel : raw.length ≤ fuel) :
    LiteralsAlike (r.likeness extensions)
      (fun source source' _ _ =>
        r.Renames extensions .operand (Cursor.start source) (Cursor.start source'))
      start start' doubleQuoted raw raw' := by
  have alike : LiteralsAlike (r.likeness extensions)
      (fun source source' _ _ => source' = r.sources extensions fuel source)
      start start' doubleQuoted raw raw' := by
    refine ⟨fun hplain => ?_, fun hsplit => ?_⟩
    · have hplain : (doubleQuoted && extensions.interpolation) = false := hplain
      have hkept : r.kind extensions (r.sources extensions fuel) (.str raw doubleQuoted) =
          .str raw doubleQuoted := r.kind_kept extensions rfl (by
        rintro _ ⟨⟩
        simpa using hplain)
      cases h.symm.trans hkept
      cases Literal.unescape raw with
      | error e => exact .lenient id
      | ok text => exact .ok rfl
    · have hsplit : (doubleQuoted && extensions.interpolation) = true := hsplit
      obtain ⟨rfl, hinterpolation⟩ := Bool.and_eq_true_iff.mp hsplit
      cases h.symm.trans (r.kind_split hinterpolation raw)
      cases hparts : Literal.split raw with
      | error e => exact .lenient id
      | ok parts =>
        have hnested (source : List Char) :
            Reworded false source (r.sources extensions fuel source) :=
          r.rewords_textFrom extensions fuel false .operand (Cursor.start source) (by simp)
        obtain ⟨parts', hparts', halike⟩ := r.split_contents extensions hnested hparts
        rw [hparts']
        exact .ok halike
  refine alike.mono fun source source' _ _ hlength _ heq => ⟨fuel, ?_, heq⟩
  exact Nat.lt_of_lt_of_le hlength hfuel

/-- Behind a renamed operator symbol the text goes on alike, or what looks like a clause there is
refused in the text. -/
theorem afterSymbol_renamed (hfuel : after.rest.length < fuel)
    (hafter : after'.rest = r.behindSymbol (r.textFrom extensions fuel) symbol after) :
    (Operator.Streams symbol ∧ Signature.lambda? after = none ∧ Refused .operand after) ∨
      AfterSymbol (r.Renames extensions)
        (Clauses (r.likeness extensions) (r.Renames extensions .operand)) symbol after after' := by
  have goes {mode : LexMode} (h : after'.rest = r.textFrom extensions fuel mode after) :
      r.Renames extensions mode after after' := ⟨fuel, hfuel, h⟩
  unfold AfterSymbol
  unfold behindSymbol at hafter
  split at hafter
  case isTrue hcloser =>
    rw [if_pos hcloser]
    exact .inr (goes hafter)
  case isFalse hcloser =>
    rw [if_neg hcloser]
    cases hop : (Operator.findInfix? symbol).map Operator.kind with
    | none =>
      rw [hop] at hafter
      exact .inr (goes hafter)
    | some kind =>
      rw [hop] at hafter
      cases kind with
      | stream op =>
        simp only at hafter
        cases hclause : Signature.lambda? after with
        | some clause =>
          rw [hclause] at hafter
          obtain ⟨clause', hclause', hname, hbody⟩ := r.lambda?_renamed hclause hafter
          have hlength := (Signature.lambda?_suffix hclause).length_le
          exact .inr (.clause hclause hclause' hname ⟨fuel, by omega, hbody⟩)
        | none =>
          rw [hclause] at hafter
          cases hclause' : Signature.lambda? after' with
          | none => exact .inr (.none hclause hclause' (goes hafter))
          | some clause' =>
            have hrefused := Signature.refused_of_lambda? hclause'
            exact .inl ⟨⟨Bool.eq_false_iff.mpr hcloser, op, hop⟩, rfl,
              refused_of_renames hrefused (goes hafter)⟩
      | _ => exact .inr (goes hafter)

/-- **Along a renamed text the names differ**, and the places. -/
def track (r : Renaming) (extensions : Extensions) : Track (r.likeness extensions) where
  at_ mode _ _ := r.Renames extensions mode
  operand := by
    intro base base' c c' h
    cases hnext : Token.next .operand c with
    | error e => exact .lenient id
    | ok found =>
      obtain ⟨⟨kind, span⟩, after⟩ := found
      obtain ⟨fuel, span', after', hfuel, hnext', hafter⟩ := h.next hnext
      rw [hnext']
      refine .ok ⟨kind_alike _ _, trivial, fun hk => .behind hnext hk hfuel hafter, ?_⟩
      rintro raw raw' doubleQuoted hraw hraw'
      obtain rfl : kind = .str raw doubleQuoted := hraw
      exact literals_renamed hraw' ((Token.infix_of_str hnext).length_le.trans hfuel)
  operator := by
    intro base base' c c' h
    cases hnext : Token.next .operator c with
    | error e => exact .inr (.lenient id)
    | ok found =>
      obtain ⟨⟨kind, span⟩, after⟩ := found
      obtain ⟨fuel, span', after', hfuel, hnext', hafter⟩ := h.next hnext
      rw [hnext']
      have hkind : kind.Alike (r.likeness extensions)
          (r.kind extensions (r.sources extensions fuel) kind) := kind_alike _ kind
      cases kind with
      | comma =>
        exact .inr (.ok ⟨hkind, trivial, .behind hnext (by simp) hfuel hafter⟩)
      | operator symbol =>
        have hlength := Token.length_next hnext (by simp)
        rcases afterSymbol_renamed (by omega) hafter with ⟨hstreams, hnone, hrefused⟩ | halike
        · have hmode := modeBehind_of_streams hstreams
          exact .inl ⟨id, .symbol hnext (by simp [hmode]) (fun _ => hnone) (hmode ▸ hrefused)⟩
        · exact .inr (.ok ⟨hkind, trivial, halike⟩)
      | _ => exact .inr (.ok ⟨hkind, trivial, trivial⟩)
  member := by
    intro base base' c c' h
    cases hnext : Token.next .member c with
    | error e => exact .lenient id
    | ok found =>
      obtain ⟨⟨kind, span⟩, after⟩ := found
      obtain ⟨fuel, span', after', hfuel, hnext', hafter⟩ := h.next hnext
      rw [hnext']
      refine .ok ⟨kind_alike _ _, trivial, ?_⟩
      simp only [FollowsMember]
      split
      · exact .behind hnext (by simp) hfuel hafter
      · trivial

/-! ## Whole texts -/

theorem forall₂_of_map_eq {α β γ : Type} {f : α → γ} {g : β → γ} {as : List α} {bs : List β}
    (h : bs.map g = as.map f) : List.Forall₂ (fun a b => g b = f a) as bs := by
  have same : List.Forall₂ Eq (bs.map g) (as.map f) := by
    rw [h]
    exact List.forall₂_refl _
  rw [List.forall₂_map_left_iff, List.forall₂_map_right_iff] at same
  exact same.flip

/-- A renamed definition is a definition. -/
theorem definition_renamed {text : String} {d : Definition}
    (h : definitionOf? extensions text = some d) (base base' : Nat) :
    ∃ d', definitionOf? extensions (r.text extensions text) = some d' ∧
      d.Alike (r.likeness extensions) base base' d' ∧
      r.Renames extensions .operand d.body d'.body := by
  obtain ⟨on, hd⟩ := definitionOf?_eq_some.mp h
  have hbody : bodyOf extensions text = d.body := by
    unfold bodyOf
    rw [h]
  have htext : (r.text extensions text).toList =
      r.words (before text.toList d.body.rest) ++
        r.textFrom extensions (d.body.rest.length + 1) .operand d.body := by
    unfold Renaming.text
    rw [hbody, String.toList_ofList]
  obtain ⟨d', hd', hname, hparams, hdiscard, hrest⟩ := r.definition?_renamed hd
  rw [← htext] at hd'
  refine ⟨d', definitionOf?_eq_some.mpr ⟨on, hd'⟩, ⟨hname, trivial, ?_, hdiscard⟩,
    ⟨_, Nat.lt_succ_self _, hrest⟩⟩
  exact (forall₂_of_map_eq hparams).imp fun _ _ h => ⟨h, trivial⟩

/-- A text that is no definition is renamed from its beginning on. -/
theorem renames_start {text : String} (h : definitionOf? extensions text = none) :
    r.Renames extensions .operand (Cursor.start text.toList)
      (Cursor.start (r.text extensions text).toList) := by
  have hbody : bodyOf extensions text = Cursor.start text.toList := by
    unfold bodyOf
    rw [h]
  refine ⟨_, Nat.lt_succ_self _, ?_⟩
  show (r.text extensions text).toList = _
  unfold Renaming.text
  rw [hbody, String.toList_ofList]
  have none_before : before text.toList (Cursor.start text.toList).rest = [] := by
    simp [before, Cursor.start]
  rw [none_before]
  rfl

end Renaming

open Renaming

/-- **The expression of a text does not depend on the names in it.** A text that parses in a fresh
scope parses with its names renamed as well, wherever it stands, to an expression that differs from
the first one in its place and in names only: the node, its type, the parameters, the slots and the
output are the same, and every key of the identifier table is the renamed one, in the same order. -/
theorem parse_renamed (r : Renaming) {extensions : Extensions} {text : String} {offset : Nat}
    {p : Parsed ε} {scope : TemplateScope ε}
    (h : parse text offset (.fresh extensions) = (.ok p, scope)) (offset' : Nat) :
    ∃ span, parse (r.text extensions text) offset' (.fresh extensions) =
      (.ok { p with
          span
          name := p.name.map r.name
          identifiers := p.identifiers.map (·.rename r.name) },
        scope.rename r.name) := by
  have fresh : (TemplateScope.fresh extensions : TemplateScope ε).Alike (r.likeness extensions)
      (.fresh extensions) := ⟨rfl, rfl, .inl rfl⟩
  have ends : AlikeOutcome (r.likeness extensions) (Parsed.Alike (r.likeness extensions))
      (parse text offset (.fresh extensions) : _ × TemplateScope ε)
      (parse (r.text extensions text) offset' (.fresh extensions)) := by
    refine (track r extensions).parse fresh trivial ?_
    cases hd : definitionOf? extensions text with
    | some d =>
      obtain ⟨d', hd', halike, hbody⟩ := definition_renamed hd offset offset'
      exact .inr ⟨d, d', hd, hd', halike, hbody⟩
    | none =>
      have hstart := renames_start (r := r) hd
      refine .inl ⟨hd, ?_, hstart⟩
      cases hd' : definitionOf? extensions (r.text extensions text) with
      | none => exact hd'
      | some d' =>
        -- What looks like a definition there is refused as an expression, and so is the text.
        have refused := refused_of_renames
          (Signature.refused_of_definition? (definitionOf?_eq_some.mp hd').2) hstart
        obtain ⟨e, scope', herror⟩ : ∃ e scope',
            parse text offset (.fresh extensions : TemplateScope ε) = (.error e, scope') :=
          refused.parse hd offset
        cases h.symm.trans herror
  rw [h] at ends
  generalize parse (r.text extensions text) offset' (.fresh extensions) = outcome at ends
  cases ends with
  | ok halike hscope =>
    obtain @⟨span, -⟩ := halike
    refine ⟨span, ?_⟩
    rw [hscope.right]
    have hextensions : scope.extensions = extensions := hscope.left
    subst hextensions
    rfl

/-- Two names change places. -/
def Renaming.swap (a b : String) (ha : Signature.Names a.toList) (hb : Signature.Names b.toList) :
    Renaming :=
  have swapped (s : String) (P : String → Prop) (hs : P s) (ha : P a) (hb : P b) :
      P (Equiv.swap a b s) := by
    rw [Equiv.swap_apply_def]
    split
    case isTrue => exact hb
    case isFalse => split <;> assumption
  .ofNames (Equiv.swap a b) (fun _ _ _ _ h => (Equiv.swap a b).injective h)
    (fun s hs => swapped s (fun s => Signature.IsName s.toList) hs ha.1 hb.1)
    (fun s _ hs =>
      swapped s (· ∉ Signature.keywords) hs (by simpa using ha.2) (by simpa using hb.2))

/-- A definition calls itself by a name, and a clause, a member, marks and the parts of a literal
hold another one: they change places, and neither the literal text, the internal name, the
annotation nor the comment does. -/
theorem parse_renamed_of_swap :
    let r := Renaming.swap "x" "total" (by decide) (by decide)
    let text :=
      "total(xs) -> xs #> x -> x.total(../x) + \"$x $\x7btotal(x)\x7d x\" + .index + @x // x"
    let renamed :=
      "x(xs) -> xs #> total -> total.x(../total) + \"$total $\x7bx(total)\x7d x\" + .index + @x " ++
        "// x"
    r.text .all text = renamed ∧
      ∃ (p : Parsed Nat) (scope : TemplateScope Nat) (span : Span),
        parse text 0 (.fresh .all) = (.ok p, scope) ∧
        p.name = some "total" ∧
        p.identifiers = [⟨"x", none⟩, ⟨"total", some 1⟩] ∧
        parse renamed 5 (.fresh .all) = (.ok { p with
            span
            name := some "x"
            identifiers := [⟨"total", none⟩, ⟨"x", some 1⟩] },
          scope.rename r.name) := by
  intro r text renamed
  have htext : r.text .all text = renamed := by decide +kernel
  obtain ⟨p, scope, hp, hname, hidentifiers⟩ : ∃ (p : Parsed Nat) (scope : TemplateScope Nat),
      parse text 0 (.fresh .all) = (.ok p, scope) ∧ p.name = some "total" ∧
        p.identifiers = [⟨"x", none⟩, ⟨"total", some 1⟩] := by
    have parses : (parse text 0 (.fresh .all : TemplateScope Nat)).1.toOption.map
        (fun p => (p.name, p.identifiers)) =
          some (some "total", [⟨"x", none⟩, ⟨"total", some 1⟩]) := by decide +kernel
    generalize parse text 0 (.fresh .all : TemplateScope Nat) = outcome at parses
    obtain ⟨e | p, scope⟩ := outcome
    · cases parses
    · obtain ⟨hname, hidentifiers⟩ := Prod.mk.inj (Option.some.inj parses)
      exact ⟨p, scope, rfl, hname, hidentifiers⟩
  have name : (some "total").map r.name = some "x" := by decide +kernel
  have identifiers : [⟨"x", none⟩, ⟨"total", some 1⟩].map (fun k : IdentKey => k.rename r.name) =
      [⟨"total", none⟩, ⟨"x", some 1⟩] := by decide +kernel
  obtain ⟨span, hq⟩ := parse_renamed r hp 5
  rw [htext, hname, hidentifiers, name, identifiers] at hq
  exact ⟨htext, p, scope, span, hp, hname, hidentifiers, hq⟩

end TagExpr
