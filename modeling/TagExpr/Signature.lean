import TagExpr.Span
import TagExpr.Token.Lexer

/-!
# Signatures

Constructs that an arrow turns into something else than they look like at first: `fib(n) -> …`
begins like a call and `i -> …` like a name. They are recognised by looking ahead in the text, in
which only separators may stand between the parts. A keyword names nothing.
-/

namespace TagExpr

/-- A definition `name -> body`, `name(a, b) -> body` or the same with `=>`. -/
structure Definition where
  name : String
  nameSpan : Span
  params : List (String × Span)
  /-- It is written with `=>`: the result is not rendered. -/
  discard : Bool
  /-- The place right after the arrow. -/
  body : Cursor
  deriving Repr, DecidableEq

/-- A clause `name ->` after a streaming operator. -/
structure LambdaClause where
  name : String
  span : Span
  /-- The place right after the arrow. -/
  body : Cursor
  deriving Repr, DecidableEq

namespace Signature

/-- Words that name nothing. -/
def keywords : List String := ["null", "true", "false"]

def skipSeparators (at_ : Cursor) : Cursor := at_.skipWhile Text.isSeparator

/-- The name that begins here, its span, and the place after it. -/
def name? (at_ : Cursor) : Option (String × Span × Cursor) :=
  match Token.nameLength at_.rest with
  | 0 => none
  | count =>
    some (String.ofList (at_.rest.take count), Token.spanOf at_ count, at_.advance count)

/-- Parameters separated by commas, and the place after the closing parenthesis. Every parameter
takes at least one character, so the length of the text is enough fuel. -/
def paramsFrom : Nat → Cursor → Option (List (String × Span) × Cursor)
  | 0, _ => none
  | fuel + 1, at_ => do
    let (name, span, after) ← name? at_
    let after := skipSeparators after
    match after.rest with
    | ',' :: _ => do
      let (params, last) ← paramsFrom fuel (skipSeparators (after.advance 1))
      return ((name, span) :: params, last)
    | ')' :: _ => return ([(name, span)], after.advance 1)
    | _ => none

/-- A parameter list in parentheses, if one begins here. -/
def params? (at_ : Cursor) : Option (List (String × Span) × Cursor) :=
  match at_.rest with
  | '(' :: _ =>
    let inner := skipSeparators (at_.advance 1)
    match inner.rest with
    | ')' :: _ => some ([], inner.advance 1)
    | _ => paramsFrom (inner.rest.length + 1) inner
  | _ => some ([], at_)

/-- The definition with which a text begins. -/
def definition? (text : List Char) : Option Definition := do
  let (name, nameSpan, after) ← name? (skipSeparators (Cursor.start text))
  if keywords.contains name then none
  let (params, after) ← params? after
  let arrow := skipSeparators after
  match arrow.rest with
  | '-' :: '>' :: _ => return ⟨name, nameSpan, params, false, arrow.advance 2⟩
  | '=' :: '>' :: _ => return ⟨name, nameSpan, params, true, arrow.advance 2⟩
  | _ => none

/-- The clause that begins here. -/
def lambda? (at_ : Cursor) : Option LambdaClause := do
  let (name, span, after) ← name? (skipSeparators at_)
  if keywords.contains name then none
  let arrow := skipSeparators after
  match arrow.rest with
  | '-' :: '>' :: _ => return ⟨name, span, arrow.advance 2⟩
  | _ => none

end Signature

end TagExpr
