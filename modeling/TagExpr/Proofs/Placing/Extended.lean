import TagExpr.Proofs.Placing.Track

/-!
# Switching parts of the language on

A text that parses while a part of the language is switched off parses to the same expression when
it is switched on (`parse_extended`). Only signatures could get in the way, since they are found by
looking ahead; but what looks like a signature or a clause is refused as an expression.
Interpolation is left out: switched off it is plain text, and switched on it is not.
-/

namespace TagExpr

variable {ε : Type} {extensions extensions' : Extensions}

/-- More parts of the language are switched on in the second of two parses. -/
def Extensions.likeness (h : extensions ⊆ extensions')
    (hi : extensions'.interpolation = extensions.interpolation) : Likeness where
  rel s s' := s' = s
  merge := by
    rintro s _ t _ rfl rfl
    rfl
  name := id
  injective := Function.injective_id
  extensions := extensions
  extensions' := extensions'
  subset := h
  interpolation := hi
  strict := False
  exact := False.elim
  unnamed := False.elim

section Same

variable {L : Likeness}

/-- What is read twice is the same, if it is read at all. -/
theorem lexAlike_self {α : Type} {base base' : Nat} {Q : α → α → Prop} (hlenient : ¬ L.strict)
    {r : Except LexError α} (h : ∀ a, r = .ok a → Q a a) : LexAlike L base base' Q r r := by
  cases r with
  | error e => exact .lenient hlenient
  | ok a => exact .ok (h a rfl)

/-- Both places are the same one. -/
def SameCursor (base base' : Nat) (c c' : Cursor) : Prop := base' = base ∧ c' = c

theorem SameCursor.refl (base : Nat) (c : Cursor) : SameCursor base base c c := ⟨rfl, rfl⟩

theorem afterOperator_self (hname : L.name = id) (base : Nat) (kind : TokenKind) (after : Cursor) :
    AfterOperator (fun _ => SameCursor base base) (Clauses L (SameCursor base base)) kind after
      after := by
  have same := SameCursor.refl base
  unfold AfterOperator
  split
  case h_1 => exact same after
  case h_2 =>
    unfold AfterSymbol
    split
    case isTrue => exact same after
    case isFalse =>
      split
      case h_1 | h_3 => exact same after
      case h_2 =>
        cases hclause : Signature.lambda? after with
        | none => exact .none hclause hclause (same after)
        | some clause => exact .clause hclause hclause (by rw [hname]; rfl) (same clause.body)
  case h_3 => trivial

theorem followsMember_self (base : Nat) (kind : TokenKind) (after : Cursor) :
    FollowsMember (fun _ => SameCursor base base) kind after after := by
  unfold FollowsMember
  split
  · exact .refl base after
  · trivial

end Same

/-- In one text the same is read twice. -/
def Track.extended (h : extensions ⊆ extensions')
    (hi : extensions'.interpolation = extensions.interpolation) :
    Track (Extensions.likeness h hi) where
  at_ _ := SameCursor
  operand := by
    rintro base _ c _ ⟨rfl, rfl⟩
    refine lexAlike_self id fun r _ =>
      ⟨TokenKind.alike_of_unnamed rfl _, rfl, fun _ => .refl _ _, ?_⟩
    rintro raw _ doubleQuoted hraw hraw'
    cases hraw.symm.trans hraw'
    refine ⟨fun _ => lexAlike_self id fun _ _ => rfl, fun _ => lexAlike_self id fun parts _ => ?_⟩
    refine List.forall₂_same.mpr fun part _ => ?_
    cases part with
    | text text => exact .text text
    | name name place => exact .name rfl rfl
    | expression source place => exact .expression (.refl _ _)
  operator := by
    rintro base _ c _ ⟨rfl, rfl⟩
    exact .inr (lexAlike_self id fun r _ =>
      ⟨TokenKind.alike_of_unnamed rfl _, rfl, afterOperator_self rfl _ _ _⟩)
  member := by
    rintro base _ c _ ⟨rfl, rfl⟩
    exact lexAlike_self id fun r _ =>
      ⟨TokenKind.alike_of_unnamed rfl _, rfl, followsMember_self _ _ _⟩

/-- **Switching a part of the language on changes no text that parses without it.** If interpolation
stays as it is, a text that parses in a fresh scope parses to the same expression, at the same
place, with more parts switched on, and leaves the same names. Whatever looks like the signature of
a definition or like a clause is no expression: no run of the parser gets past it. -/
theorem parse_extended (text : String) (offset : Nat) (h : extensions ⊆ extensions')
    (hi : extensions'.interpolation = extensions.interpolation) :
    (∀ (p : Parsed ε) (scope : TemplateScope ε),
      parse text offset (.fresh extensions) = (.ok p, scope) →
      parse text offset (.fresh extensions') = (.ok p, { scope with extensions := extensions' })) ∧
    (∀ d, Signature.definition? text.toList = some d →
      ∀ (fuel base : Nat) (b : Parse.Bench ε), ∃ e b',
        Parse.rounds fuel .operand base (Cursor.start text.toList) b = .error e b') ∧
    ∀ (c : Cursor) (clause : LambdaClause), Signature.lambda? c = some clause →
      ∀ (fuel base : Nat) (b : Parse.Bench ε), ∃ e b',
        Parse.rounds fuel .operand base c b = .error e b' := by
  refine ⟨fun p scope hp => ?_, fun d hd => (Signature.refused_of_definition? hd).error,
    fun c clause hclause => (Signature.refused_of_lambda? hclause).error⟩
  have fresh : (TemplateScope.fresh extensions : TemplateScope ε).Alike (Extensions.likeness h hi)
      (.fresh extensions') := ⟨rfl, rfl, .inr rfl⟩
  have ends : AlikeOutcome (Extensions.likeness h hi) (Parsed.Alike (Extensions.likeness h hi))
      (parse text offset (.fresh extensions) : _ × TemplateScope ε)
      (parse text offset (.fresh extensions')) := by
    refine (Track.extended h hi).parse fresh rfl ?_
    cases hd : definitionOf? extensions text with
    | some d =>
      obtain ⟨on, hd'⟩ := definitionOf?_eq_some.mp hd
      refine .inr
        ⟨d, d, hd, definitionOf?_eq_some.mpr ⟨h.1 on, hd'⟩, ⟨rfl, rfl, ?_, rfl⟩, .refl _ _⟩
      exact List.forall₂_same.mpr fun _ _ => ⟨rfl, rfl⟩
    | none =>
      refine .inl ⟨hd, definitionOf?_eq_none.mpr fun _ => ?_, .refl _ _⟩
      cases hd' : Signature.definition? text.toList with
      | none => rfl
      | some d =>
        -- The text is a definition where definitions are switched on, so it does not parse here.
        have refused := Signature.refused_of_definition? hd'
        obtain ⟨e, scope', herror⟩ : ∃ e scope',
          parse text offset (.fresh extensions : TemplateScope ε) = (.error e, scope') :=
            refused.parse hd offset
        cases hp.symm.trans herror
  rw [hp] at ends
  generalize parse text offset (.fresh extensions') = r at ends
  cases ends with
  | ok hq hs =>
    obtain @⟨span, hspan⟩ := hq
    obtain rfl : span = p.span := hspan
    have name : p.name.map (Extensions.likeness h hi).name = p.name := Option.map_id_apply
    have identifiers : (p.identifiers.map fun k => k.rename (Extensions.likeness h hi).name) =
      p.identifiers := List.map_id p.identifiers
    have renamed : scope.rename (Extensions.likeness h hi).name = scope := scope.rename_id
    rw [hs.right, name, identifiers, renamed]
    rfl

/-- Definitions, annotations and bindings are switched on for a text with a clause, which calls by a
name that a definition could have. What looks like a definition is no expression either way. -/
theorem parse_extended_of_call :
    let less : Extensions := ⟨false, false, true, false⟩
    let text := "xs #> x -> f(x) + \"$x\""
    less ⊆ .all ∧ Extensions.all.interpolation = less.interpolation ∧
      (∃ (p : Parsed Nat) (scope : TemplateScope Nat),
        parse text 3 (.fresh less) = (.ok p, scope) ∧
        parse text 3 (.fresh .all) = (.ok p, { scope with extensions := .all })) ∧
      (∀ (fuel : Nat) (b : Parse.Bench Nat), ∃ e b',
        Parse.rounds fuel .operand 0 (Cursor.start "f(x, null) => x".toList) b = .error e b') ∧
      ∀ (fuel : Nat) (b : Parse.Bench Nat), ∃ e b',
        Parse.rounds fuel .operand 0 ⟨5, " x -> f(x)".toList⟩ b = .error e b' := by
  intro less text
  have subset : less ⊆ .all := ⟨fun _ => rfl, fun _ => rfl, fun _ => rfl, fun _ => rfl⟩
  obtain ⟨p, scope, hp⟩ : ∃ (p : Parsed Nat) (scope : TemplateScope Nat),
      parse text 3 (.fresh less) = (.ok p, scope) := by
    have parses : (parse text 3 (.fresh less : TemplateScope Nat)).1.toOption.isSome := by
      decide +kernel
    generalize parse text 3 (.fresh less : TemplateScope Nat) = outcome at parses
    obtain ⟨p | p, scope⟩ := outcome
    · cases parses
    · exact ⟨p, scope, rfl⟩
  obtain ⟨same, -, clauses⟩ := parse_extended text 3 subset rfl
  obtain ⟨-, signatures, -⟩ := parse_extended "f(x, null) => x" 3 subset rfl
  exact ⟨subset, rfl, ⟨p, scope, hp, same p scope hp⟩, fun fuel b => signatures _ rfl fuel 0 b,
    fun fuel b => clauses _ _ rfl fuel 0 b⟩

end TagExpr
