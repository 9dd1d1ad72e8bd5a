import TagExpr.Cursor
import TagExpr.Text.Blank
import TagExpr.Token

/-!
# Blanks and comments

What may stand between tokens: separators, line comments from `//` to the end of the line and block
comments from `/*` to the next `*/`. A block comment that is not closed is an error.
-/

namespace TagExpr.Token

/-- Where the skipping of filler stands. -/
inductive Filler where
  /-- Between comments. -/
  | outside
  /-- In a line comment. -/
  | line
  /-- In a block comment that began at `opened`. -/
  | block (opened : Nat)
  deriving Repr, DecidableEq

/-- Skips filler. The answer is the first place that holds none, or the offset of a block comment
that is never closed. -/
def skipFiller : Filler → Nat → List Char → Except Nat Cursor
  | .block opened, _, [] => .error opened
  | .line, offset, [] => .ok ⟨offset, []⟩
  | .outside, offset, [] => .ok ⟨offset, []⟩
  | .line, offset, '\n' :: rest => skipFiller .outside (offset + 1) rest
  | .line, offset, c :: rest => skipFiller .line (offset + c.utf8Size) rest
  | .block _, offset, '*' :: '/' :: rest => skipFiller .outside (offset + 2) rest
  | .block opened, offset, c :: rest => skipFiller (.block opened) (offset + c.utf8Size) rest
  | .outside, offset, '/' :: '/' :: rest => skipFiller .line (offset + 2) rest
  | .outside, offset, '/' :: '*' :: rest => skipFiller (.block offset) (offset + 2) rest
  | .outside, offset, c :: rest =>
    if Text.isSeparator c then skipFiller .outside (offset + 1) rest else .ok ⟨offset, c :: rest⟩

/-- The first place that holds a token. After a navigation operator comments are not skipped. -/
def skip (mode : LexMode) (at_ : Cursor) : Except LexError Cursor :=
  match mode with
  | .member => .ok (at_.skipWhile Text.isSeparator)
  | _ =>
    match skipFiller .outside at_.offset at_.rest with
    | .ok next => .ok next
    | .error opened => .error ⟨.unterminatedComment, Span.ofRange opened (opened + 2)⟩

end TagExpr.Token
