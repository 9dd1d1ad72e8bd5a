import TagExpr.Text.Property.Case

/-!
# Upper and lower case

The full case maps of texts: a character may become several, and a capital sigma at the end of a
word has a lower case of its own.
-/

namespace TagExpr.Text

/-- The image of a character under a case map. -/
def mapCase (expansions : List (Nat × List Nat)) (shifts : RangeTable Shift) (c : Char) :
    List Char :=
  match expansions.lookup c.toNat with
  | some codes => codes.map Char.ofNat
  | none => [Char.ofNat (shiftCode shifts c.toNat)]

def upperChar (c : Char) : List Char := mapCase upperExpansions upperShifts c

def lowerChar (c : Char) : List Char := mapCase lowerExpansions lowerShifts c

/-- The first character that is not looked through has case. -/
def meetsCased (chars : List Char) : Bool :=
  match chars.dropWhile caseIgnorableRanges.contains with
  | [] => false
  | c :: _ => casedRanges.contains c

/-- The lower case of a sigma between what stands before it, backwards, and what follows. -/
def lowerSigma (before after : List Char) : Char :=
  if meetsCased before && !meetsCased after then 'ς' else 'σ'

/-- The lower case of the rest of a text, after what stands before it, backwards. -/
def lowerFrom (before : List Char) : List Char → List Char
  | [] => []
  | c :: after =>
    (if c = 'Σ' then [lowerSigma before after] else lowerChar c) ++ lowerFrom (c :: before) after

/-- The text in upper case. -/
def toUpper (text : String) : String := String.ofList (text.toList.flatMap upperChar)

/-- The text in lower case. -/
def toLower (text : String) : String := String.ofList (lowerFrom [] text.toList)

/-- The characters that differ from `c` only in case, `c` among them. -/
def caseVariants (c : Char) : List Char :=
  let folded := shiftCode foldShifts c.toNat
  (folded :: unshiftCode foldShifts folded).map Char.ofNat

end TagExpr.Text
