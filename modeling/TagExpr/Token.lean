import TagExpr.Span
import TagExpr.Node

/-!
# Tokens

What the lexer hands to the parser, and the ways in which a text fails to be tokens. The levels that
the marks before a name go up are counted without an end; there are fewer than `2 ^ 32` of them in
every text of less than `2 ^ 32` bytes.
-/

namespace TagExpr

/-- What may come next. -/
inductive LexMode where
  /-- A value may start here. -/
  | operand
  /-- An operand has just been completed. -/
  | operator
  /-- A navigation operator stands right before; only a member name may follow. -/
  | member
  deriving Repr, DecidableEq, Inhabited

/-- What an identifier-shaped token names. -/
inductive IdentKind where
  | name (name : String)
  /-- The value of the section frame that many levels up, written `.`, `..`, `../..` and so on. -/
  | current (levels : Nat)
  /-- `.index` and its like, without the dot. -/
  | internal (name : String)
  /-- `@name` -/
  | annotated (name : String)
  deriving Repr, DecidableEq, Inhabited

/-- An identifier-shaped token. -/
structure Ident where
  kind : IdentKind
  /-- The frame that the marks before the name select. -/
  lookup : Lookup := .unstated
  /-- An opening parenthesis stands right after the name and belongs to the token. -/
  call : Bool := false
  deriving Repr, DecidableEq, Inhabited

inductive TokenKind where
  | null
  | bool (value : Bool)
  | int (value : Int64)
  | double (value : Double)
  /-- A string literal: what stands between its quotes, escapes unprocessed. Only a literal in
  double quotes can hold interpolated expressions. -/
  | str (raw : List Char) (doubleQuoted : Bool)
  /-- A pattern literal: what stands between its slashes. -/
  | regex (raw : List Char)
  /-- `[:]` -/
  | emptyMap
  | ident (ident : Ident)
  /-- An operator, an opener or a closer. -/
  | operator (symbol : String)
  | comma
  /-- Only blanks and comments were left. -/
  | finish
  deriving DecidableEq, Inhabited

/-- A token and the bytes it stands for. -/
structure Token where
  kind : TokenKind
  span : Span
  deriving DecidableEq, Inhabited

/-- Why a text is not made of tokens, or why a literal is malformed. -/
inductive LexFault where
  | unexpectedChar (found : Char) (mode : LexMode)
  | unterminatedString
  | unterminatedComment
  | intOutOfRange
  /-- A backslash at the very end of a literal. -/
  | danglingEscape
  | malformedUnicodeEscape
  | invalidUnicodeScalar
  | unknownEscape (found : Char)
  | unterminatedInterpolation
  | emptyInterpolation
  deriving Repr, DecidableEq, Inhabited

namespace LexFault

def message : LexFault → String
  | unexpectedChar _ .member => "expected a member name"
  | unexpectedChar found .operand =>
    "unexpected character '" ++ String.singleton found ++ "', expected operand"
  | unexpectedChar found .operator =>
    "unexpected character '" ++ String.singleton found ++ "', expected operator"
  | unterminatedString => "unterminated string literal"
  | unterminatedComment => "unterminated comment"
  | intOutOfRange => "integer literal out of range"
  | danglingEscape => "dangling escape"
  | malformedUnicodeEscape => "malformed unicode escape"
  | invalidUnicodeScalar => "invalid unicode scalar"
  | unknownEscape found => "unknown escape '\\" ++ String.singleton found ++ "'"
  | unterminatedInterpolation => "unterminated interpolation"
  | emptyInterpolation => "empty interpolation"

end LexFault

/-- A fault and the bytes at fault. -/
structure LexError where
  fault : LexFault
  span : Span
  deriving Repr, DecidableEq, Inhabited

namespace LexError

/-- The message together with the place. -/
def render (e : LexError) : String := e.fault.message ++ " at offset " ++ toString e.span.start

/-- The same error in a text that begins `offset` bytes later. -/
def shift (e : LexError) (offset : Nat) : LexError := { e with span := e.span.shift offset }

end LexError

end TagExpr
