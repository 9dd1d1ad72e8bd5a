import TagExpr.Text.Blank
import TagExpr.Text.Case
import TagExpr.Text.Property.Category
import TagExpr.Text.Property.Script
import TagExpr.Text.Property.Word

/-!
# Sets of characters

The character classes of patterns: ranges, named properties and the set operations on them. The
view is `contains`.
-/

namespace TagExpr.Regex

/-- Classes of characters that have a name. -/
inductive CharProperty where
  | any
  | ascii
  | assigned
  /-- Decimal digits of any script. -/
  | digit
  | blank
  | word
  | alphabetic
  | uppercase
  | lowercase
  | cased
  | caseIgnorable
  /-- The general categories whose names begin this way, so `L` holds all letters. -/
  | category (start : String)
  /-- The cased letters: upper case, lower case and title case. -/
  | casedLetter
  | script (name : String)
  deriving Repr, DecidableEq, Inhabited

namespace CharProperty

/-- The general category of a character by its two-letter name; `Cn` if it is not assigned. -/
def categoryOf (c : Char) : String :=
  match Text.categoryTable.find? c.toNat with
  | some (_, _, tag) => tag
  | none => "Cn"

def contains : CharProperty → Char → Bool
  | any, _ => true
  | ascii, c => c.toNat < 128
  | assigned, c => categoryOf c != "Cn"
  | digit, c => Text.digitRanges.contains c
  | blank, c => Text.isBlank c
  | word, c => Text.wordRanges.contains c
  | alphabetic, c => Text.alphabeticRanges.contains c
  | uppercase, c => Text.uppercaseRanges.contains c
  | lowercase, c => Text.lowercaseRanges.contains c
  | cased, c => Text.casedRanges.contains c
  | caseIgnorable, c => Text.caseIgnorableRanges.contains c
  | category start, c => (categoryOf c).startsWith start
  | casedLetter, c => ["Lu", "Ll", "Lt"].contains (categoryOf c)
  | script name, c =>
    match Text.scriptTable.find? c.toNat with
    | some (_, _, found) => found == name
    | none => false

end CharProperty

/-- A set of characters. -/
inductive CharSet where
  | empty
  /-- The characters from `first` to `last`, both included. -/
  | range (first last : Char)
  | property (p : CharProperty)
  | union (a b : CharSet)
  | inter (a b : CharSet)
  | diff (a b : CharSet)
  /-- What is in one of the two sets only. -/
  | symmDiff (a b : CharSet)
  | compl (a : CharSet)
  /-- The characters that differ only in case from one of the set. -/
  | folded (a : CharSet)
  /-- The same with regard to the letters of ASCII alone. -/
  | foldedAscii (a : CharSet)
  deriving Repr, Inhabited

namespace CharSet

/-- The characters that differ from an ASCII letter only in case; any other character stands for
itself. -/
def asciiVariants (c : Char) : List Char :=
  if c.isUpper || c.isLower then [c.toUpper, c.toLower] else [c]

def contains : CharSet → Char → Bool
  | empty, _ => false
  | range first last, c => first ≤ c && c ≤ last
  | property p, c => p.contains c
  | union a b, c => a.contains c || b.contains c
  | inter a b, c => a.contains c && b.contains c
  | diff a b, c => a.contains c && !b.contains c
  | symmDiff a b, c => a.contains c != b.contains c
  | compl a, c => !a.contains c
  | folded a, c => (Text.caseVariants c).any fun d => a.contains d
  | foldedAscii a, c => (asciiVariants c).any fun d => a.contains d

/-- The set of one character. -/
def single (c : Char) : CharSet := range c c

/-- The union of some sets. -/
def unions (sets : List CharSet) : CharSet := sets.foldr union empty

/-- The set or what is not in it. -/
def negatedIf (negated : Bool) (a : CharSet) : CharSet := if negated then compl a else a

/-- The ASCII characters of the set. -/
def ascii (a : CharSet) : CharSet := inter (property .ascii) a

/-- No character of Latin-1 beyond ASCII is in the set. -/
def isAsciiOnly (a : CharSet) : Bool :=
  (List.range 128).all fun k => !a.contains (Char.ofNat (128 + k))

theorem contains_single_iff {c d : Char} : (single c).contains d ↔ d = c := by
  rw [single, contains, Bool.and_eq_true, decide_eq_true_eq, decide_eq_true_eq]
  refine ⟨fun h => Char.le_antisymm h.2 h.1, fun h => ?_⟩
  subst h
  exact ⟨Char.le_refl d, Char.le_refl d⟩

theorem contains_unions (sets : List CharSet) (c : Char) :
    (unions sets).contains c = sets.any (·.contains c) := by
  induction sets with
  | nil => rfl
  | cons a rest ih => exact congrArg (a.contains c || ·) ih

end CharSet

end TagExpr.Regex
