import TagExpr.Regex.CharSet

/-!
# Patterns

Patterns as trees, and whether one occurs in a text. A pattern is run on all starting places at
once: `ends` takes the places that have been reached to those that can be reached from them, so no
place is visited twice for one part of a pattern. Places lie between characters; a text of `n`
characters has `n + 1` of them, and a set of places is a list of as many marks.
-/

namespace TagExpr.Regex

/-- Conditions on a place in the text. -/
inductive Anchor where
  | textStart
  | textEnd
  | lineStart
  | lineEnd
  /-- The start of a line where a carriage return ends lines too. -/
  | lineStartCrlf
  /-- The end of a line where a carriage return ends lines too. -/
  | lineEndCrlf
  | wordBoundary
  | noWordBoundary
  | wordStart
  | wordEnd
  /-- No character of a word stands before the place. -/
  | wordStartHalf
  /-- No character of a word stands after the place. -/
  | wordEndHalf
  deriving Repr, DecidableEq, Inhabited

namespace Anchor

/-- The condition holds between the characters before and after a place, where `word` is the class
of the characters of words. -/
def holds (word : CharSet) (a : Anchor) (before after : Option Char) : Bool :=
  let inWord : Option Char → Bool := fun c => c.any word.contains
  match a with
  | textStart => before.isNone
  | textEnd => after.isNone
  | lineStart => before.isNone || before == some '\n'
  | lineEnd => after.isNone || after == some '\n'
  | lineStartCrlf =>
    before.isNone || before == some '\n' || (before == some '\r' && after != some '\n')
  | lineEndCrlf =>
    after.isNone || after == some '\r' || (after == some '\n' && before != some '\r')
  | wordBoundary => inWord before != inWord after
  | noWordBoundary => inWord before == inWord after
  | wordStart => !inWord before && inWord after
  | wordEnd => inWord before && !inWord after
  | wordStartHalf => !inWord before
  | wordEndHalf => !inWord after

end Anchor

/-- A pattern. -/
inductive Pattern where
  /-- The empty text. -/
  | empty
  /-- One character of a set. -/
  | chars (set : CharSet)
  /-- The empty text at a place that meets a condition. -/
  | anchor (a : Anchor) (word : CharSet)
  | seq (p q : Pattern)
  | alt (p q : Pattern)
  /-- At least `least` and, if there is a bound, at most `most` repetitions. -/
  | repeated (p : Pattern) (least : Nat) (most : Option Nat)
  deriving Repr, Inhabited

/-- A set of places: a mark for each place, from the first to the last. -/
abbrev Places := List Bool

namespace Places

def union (s t : Places) : Places := List.zipWith or s t

/-- The places of `s` that are not in `t`. -/
def diff (s t : Places) : Places := List.zipWith (fun a b => a && !b) s t

def isEmpty (s : Places) : Bool := s.all not

/-- Every place of a text. -/
def all (text : List Char) : Places := List.replicate (text.length + 1) true

end Places

namespace Pattern

/-- The places behind a character of the set that stands at a reached place. -/
def step (set : CharSet) (text : List Char) (reached : Places) : Places :=
  false :: List.zipWith (fun mark c => mark && set.contains c) reached text

/-- The reached places that meet the condition; `before` is the character in front of the first of
them. -/
def filter (word : CharSet) (a : Anchor) (before : Option Char) : List Char → Places → Places
  | _, [] => []
  | [], mark :: rest => (mark && a.holds word before none) :: rest.map fun _ => false
  | c :: text, mark :: rest =>
    (mark && a.holds word before (some c)) :: filter word a (some c) text rest

/-- Applies a step exactly `count` times, or until nothing changes. -/
def iterate (next : Places → Places) : Nat → Places → Places
  | 0, reached => reached
  | count + 1, reached =>
    let reached' := next reached
    if reached' = reached then reached else iterate next count reached'

/-- The places that can be reached with at most `count` steps: `reached` are those found so far, and
`latest` those among them from which no step has been taken yet. -/
def closure (next : Places → Places) : Nat → Places → Places → Places
  | 0, reached, _ => reached
  | count + 1, reached, latest =>
    let found := (next latest).diff reached
    if found.isEmpty then reached else closure next count (reached.union found) found

/-- The places that can be reached from the given ones by a text that the pattern matches. Without a
bound, a repetition reaches nothing new after as many steps as there are places. -/
def ends (text : List Char) : Pattern → Places → Places
  | empty, reached => reached
  | chars set, reached => step set text reached
  | anchor a word, reached => filter word a none text reached
  | seq p q, reached => ends text q (ends text p reached)
  | alt p q, reached => (ends text p reached).union (ends text q reached)
  | repeated p least most, reached =>
    let first := iterate (ends text p) least reached
    let more := match most with
      | none => text.length + 1
      | some most => min (most - least) (text.length + 1)
    closure (ends text p) more first first

/-- The pattern matches a piece of the text. -/
def occursIn (p : Pattern) (text : List Char) : Bool :=
  !(ends text p (Places.all text)).isEmpty

/-- The patterns one after the other. -/
def sequence : List Pattern → Pattern
  | [] => empty
  | [p] => p
  | p :: rest => seq p (sequence rest)

@[simp] theorem length_step (set : CharSet) (text : List Char) (reached : Places) :
    (step set text reached).length = min reached.length text.length + 1 := by
  simp [step]

end Pattern

end TagExpr.Regex
