import TagExpr.Literal.Escape
import TagExpr.Text.Blank
import TagExpr.Token.Lexer

/-!
# Interpolated string literals

A literal in double quotes is split into text, `${expression}` and `$name`. A dollar sign that is
escaped, or that neither a brace nor the start of a name follows, is text. Offsets are those of the
text between the quotes.
-/

namespace TagExpr.Literal

/-- A piece of a literal. -/
inductive Segment where
  /-- Literal text, its escapes replaced. -/
  | text (text : List Char)
  /-- The source of an interpolated expression and the place where it starts. -/
  | expression (source : List Char) (offset : Nat)
  /-- An interpolated name and the place where it starts. -/
  | name (name : List Char) (offset : Nat)
  deriving Repr, DecidableEq, Inhabited

/-- The text before the brace that closes an interpolation, from a place where `depth` inner braces
are open and, if `quote` is given, a quoted text is. Inside quotes braces do not count, and a
backslash takes the next character with it. -/
def interpolated? (depth : Nat) (quote : Option Char) : List Char → Option (List Char)
  | [] => none
  | '\\' :: rest =>
    match rest with
    | [] => none
    | c :: rest => (interpolated? depth quote rest).map ('\\' :: c :: ·)
  | c :: rest =>
    match quote with
    | some q => (interpolated? depth (if c = q then none else some q) rest).map (c :: ·)
    | none =>
      if c = '\x7b' then (interpolated? (depth + 1) none rest).map (c :: ·)
      else if c = '\x7d' then
        match depth with
        | 0 => some []
        | depth + 1 => (interpolated? depth none rest).map (c :: ·)
      else if c = '"' ∨ c = '\'' then (interpolated? depth (some c) rest).map (c :: ·)
      else (interpolated? depth none rest).map (c :: ·)

/-- The segments that end with the given text, written backwards. -/
def flush (gathered : List Char) (segments : List Segment) : List Segment :=
  if gathered.isEmpty then segments else .text gathered.reverse :: segments

/-- Splits the rest of a literal. The first `skip` characters belong to a piece that has been dealt
with, and `gathered` is the text since the last segment, backwards. -/
def splitFrom (skip offset : Nat) (gathered : List Char) :
    List Char → Except LexError (List Segment)
  | [] => .ok (flush gathered [])
  | c :: rest =>
    match skip with
    | skip + 1 => splitFrom skip (offset + c.utf8Size) gathered rest
    | 0 =>
      if c = '\\' then do
        let (char, count) ← escape offset rest
        splitFrom (count - 1) (offset + 1) (char :: gathered) rest
      else if c = '$' then
        match rest.head? with
        | none => splitFrom 0 (offset + 1) (c :: gathered) rest
        | some next =>
          if next = '\x7b' then
            match interpolated? 0 none (rest.drop 1) with
            | none =>
              .error ⟨.unterminatedInterpolation,
                Span.ofRange offset (offset + 1 + byteLength rest)⟩
            | some source =>
              if source.all Text.isBlank then
                .error ⟨.emptyInterpolation,
                  Span.ofRange offset (offset + 3 + byteLength source)⟩
              else do
                let segments ← splitFrom (source.length + 2) (offset + 1) [] rest
                return flush gathered (.expression source (offset + 2) :: segments)
          else if Token.isNameStart next then do
            let name := rest.takeWhile Token.isNamePart
            let segments ← splitFrom name.length (offset + 1) [] rest
            return flush gathered (.name name (offset + 1) :: segments)
          else
            splitFrom 0 (offset + 1) (c :: gathered) rest
      else
        splitFrom 0 (offset + c.utf8Size) (c :: gathered) rest

/-- Splits a literal. One without interpolation is a single text. -/
def split (raw : List Char) : Except LexError (List Segment) := do
  match ← splitFrom 0 0 [] raw with
  | [] => return [.text []]
  | segments => return segments

end TagExpr.Literal
