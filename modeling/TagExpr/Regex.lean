import TagExpr.Regex.Reader

/-!
# Regular expressions

A regular expression is the text that it was written as, beside the pattern that the text means. It
is told apart by its text.

What patterns mean is written out in the modules below `TagExpr.Regex`, without a limit on their
size or nesting and with the Unicode properties that are listed there. Nothing that is proved of
expressions rests on it: `compile?` and `occursIn` are irreducible, so that every theorem about
expressions holds with any other engine in their place.
-/

namespace TagExpr

/-- A regular expression. -/
structure Regex where
  source : String
  pattern : Regex.Pattern
  deriving Inhabited

namespace Regex

/-- The regular expression that a text writes, unless the text is no pattern. -/
@[irreducible]
def compile? (source : String) : Option Regex :=
  (Pattern.read? source.toList).map fun pattern => { source, pattern }

/-- The expression matches a piece of the text. -/
@[irreducible]
def occursIn (r : Regex) (text : String) : Bool := r.pattern.occursIn text.toList

/-- The source of an expression that matches whole texts only. -/
def wholeSource (source : String) : String := "\\A(?:" ++ source ++ ")\\z"

end Regex

end TagExpr
