import TagExpr.Parse.Parser

/-!
# The operands of a text

The words of a text are its operand tokens in source order: literals, names, call heads, member
names. They are read off the tokens alone. Whether the next token is taken in operand or in operator
position depends on the token before it and on nothing that the parser keeps, so no stack appears
here. A string literal stands for its segments, and an interpolated expression for its own words.
-/

namespace TagExpr

/-- An operand as it stands in the text. -/
inductive Word where
  /-- A constant, or the text of a string literal or of a part of one. -/
  | literal (value : Literal)
  | regex (source : String)
  /-- `[:]` -/
  | emptyMap
  | current (levels : Nat)
  | internal (lookup : Lookup) (name : String)
  /-- A name, or a call head `name(`. -/
  | name (lookup : Lookup) (name : String) (call : Bool)
  | annotated (name : String) (call : Bool)
  /-- The name after a navigation operator. -/
  | member (name : String) (call : Bool)
  deriving DecidableEq

namespace Word

/-- The word of an identifier in operand position. -/
def ofIdent (i : Ident) : Word :=
  match i.kind with
  | .name text => .name i.lookup text i.call
  | .current levels => .current levels
  | .internal text => .internal i.lookup text
  | .annotated text => .annotated text i.call

/-- A part of a string literal. `nested` gives the words of an interpolated source. -/
def ofSegment (nested : List Char → List Word) : Literal.Segment → List Word
  | .text text => [.literal (.str (String.ofList text))]
  | .expression source _ => nested source
  | .name text _ => [.name .unstated (String.ofList text) false]

/-- The parts of a string literal. -/
def ofString (extensions : Extensions) (nested : List Char → List Word) (raw : List Char)
    (doubleQuoted : Bool) : List Word :=
  if doubleQuoted && extensions.interpolation then
    match Literal.split raw with
    | .ok parts => parts.flatMap (ofSegment nested)
    | .error _ => []
  else
    match Literal.unescape raw with
    | .ok text => [.literal (.str (String.ofList text))]
    | .error _ => []

/-- The words of a token in operand position. -/
def ofOperand (extensions : Extensions) (nested : List Char → List Word) : TokenKind → List Word
  | .null => [.literal .null]
  | .bool value => [.literal (.bool value)]
  | .int value => [.literal (.int value)]
  | .double value => [.literal (.double value)]
  | .str raw doubleQuoted => ofString extensions nested raw doubleQuoted
  | .regex raw => [.regex (String.ofList (Literal.regexSource raw))]
  | .emptyMap => [.emptyMap]
  | .ident i => [ofIdent i]
  | .operator _ | .comma | .finish => []

end Word

/-- What comes after a token in operand position: an operand is complete after a value or a closer
and still expected after an opener or a prefix operator. -/
def TokenKind.modeAfter : TokenKind → LexMode
  | .ident i =>
    match i.kind with
    | .current _ | .internal _ => .operator
    | .name _ | .annotated _ => if i.call then .operand else .operator
  | .operator symbol => if Operator.closers.contains symbol then .operator else .operand
  | _ => .operator

theorem TokenKind.modeAfter_ne_member (kind : TokenKind) : kind.modeAfter ≠ .member := by
  unfold modeAfter
  split
  · split
    · simp
    · simp
    · split <;> simp
    · split <;> simp
  · split <;> simp
  · simp

namespace Operator

/-- The symbol is that of a streaming operator, which a clause may follow. -/
def Streams (symbol : String) : Prop :=
  closers.contains symbol = false ∧ ∃ op, (findInfix? symbol).map kind = some (.stream op)

/-- What comes after an operator symbol. -/
def modeBehind (symbol : String) : LexMode :=
  if closers.contains symbol then .operator
  else
    match (findInfix? symbol).map kind with
    | some (.navigate _) => .member
    | _ => .operand

end Operator

/-- What an operator symbol after an operand takes with it: the word of a member name, what comes
next, and the place after it. -/
def operatorReach (symbol : String) (at_ : Cursor) : List Word × LexMode × Cursor :=
  if Operator.closers.contains symbol then
    ([], .operator, at_)
  else
    match (Operator.findInfix? symbol).map Operator.kind with
    | some (.navigate _) =>
      match Token.next .member at_ with
      | .ok (⟨.ident { kind := .name name, call, .. }, _⟩, after) =>
        ([.member name call], if call then .operand else .operator, after)
      | _ => ([], .operator, at_)
    | some (.stream _) =>
      match Signature.lambda? at_ with
      | some clause => ([], .operand, clause.body)
      | none => ([], .operand, at_)
    | _ => ([], .operand, at_)

/-- The words from a place of a text to its end, of at most `fuel` tokens. -/
def words (extensions : Extensions) : Nat → LexMode → Cursor → List Word
  | 0, _, _ => []
  | fuel + 1, mode, at_ =>
    match Token.next mode at_ with
    | .error _ => []
    | .ok (token, after) =>
      match mode with
      | .operand =>
        let nested (source : List Char) : List Word :=
          words extensions fuel .operand (Cursor.start source)
        Word.ofOperand extensions nested token.kind ++
          words extensions fuel token.kind.modeAfter after
      | _ =>
        match token.kind with
        | .comma => words extensions fuel .operand after
        | .operator symbol =>
          let (own, mode, after) := operatorReach symbol after
          own ++ words extensions fuel mode after
        | _ => []

/-- The definition that a text is, if definitions are switched on. -/
def definitionOf? (extensions : Extensions) (text : String) : Option Definition :=
  if extensions.namedExpressions then Signature.definition? text.toList else none

theorem definitionOf?_eq_some {extensions : Extensions} {text : String} {d : Definition} :
    definitionOf? extensions text = some d ↔
      extensions.namedExpressions = true ∧ Signature.definition? text.toList = some d := by
  unfold definitionOf?
  split <;> simp [*]

theorem definitionOf?_eq_none {extensions : Extensions} {text : String} :
    definitionOf? extensions text = none ↔
      (extensions.namedExpressions = true → Signature.definition? text.toList = none) := by
  unfold definitionOf?
  split <;> simp [*]

/-- Where the expression of a text begins: after the signature of a definition. -/
def bodyOf (extensions : Extensions) (text : String) : Cursor :=
  match definitionOf? extensions text with
  | some definition => definition.body
  | none => Cursor.start text.toList

/-- The names of the parameters of a definition. -/
def paramsOf (extensions : Extensions) (text : String) : List String :=
  match definitionOf? extensions text with
  | some definition => definition.params.map (·.1)
  | none => []

/-- The words of the expression in a text. Every token takes at least one character, so their number
bounds that of the tokens. -/
def wordsOf (extensions : Extensions) (text : String) : List Word :=
  let at_ := bodyOf extensions text
  words extensions (at_.rest.length + 1) .operand at_

end TagExpr
