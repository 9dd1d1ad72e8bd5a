/-!
# Character properties

Properties of characters are given by tables of ranges of codes in ascending order, as the Unicode
standard (version 15) lists them. A table is written as text: codes in hexadecimal, a range as
`first-last`, entries separated by blanks.
-/

namespace TagExpr.Text

/-- A table of disjoint ranges of codes in ascending order, each with a datum. -/
structure RangeTable (α : Type) where
  entries : Array (Nat × Nat × α)

namespace RangeTable

/-- Looks for the entry whose range holds `code`, between the positions `low` and `high`. Each step
halves the distance. -/
def search {α : Type} (entries : Array (Nat × Nat × α)) (code : Nat) :
    Nat → Nat → Nat → Option (Nat × Nat × α)
  | 0, _, _ => none
  | fuel + 1, low, high =>
    if high ≤ low then none
    else
      let middle := (low + high) / 2
      match entries[middle]? with
      | none => none
      | some (first, last, a) =>
        if code < first then search entries code fuel low middle
        else if last < code then search entries code fuel (middle + 1) high
        else some (first, last, a)

/-- The entry whose range holds `code`. -/
def find? {α : Type} (t : RangeTable α) (code : Nat) : Option (Nat × Nat × α) :=
  search t.entries code (t.entries.size + 1) 0 t.entries.size

/-- The character is in one of the ranges. -/
def contains {α : Type} (t : RangeTable α) (c : Char) : Bool := (t.find? c.toNat).isSome

end RangeTable

/-- The words of a text, that is, its longest pieces without blanks. -/
def words (text : List Char) : List (List Char) :=
  let (word, found) := text.foldr
    (fun c (word, found) =>
      if c = ' ' ∨ c = '\n' then
        ([], if word.isEmpty then found else word :: found)
      else
        (c :: word, found))
    (([] : List Char), ([] : List (List Char)))
  if word.isEmpty then found else word :: found

/-- The value of hexadecimal digits. -/
def hexValue (digits : List Char) : Nat :=
  digits.foldl (fun value c => 16 * value + digit c) 0
where
  /-- The value of one digit, written in upper case. -/
  digit (c : Char) : Nat := if c.isDigit then c.toNat - '0'.toNat else c.toNat - 'A'.toNat + 10

/-- Splits a word at a mark; what follows the mark is empty if there is none. -/
def splitAtMark (mark : Char) (word : List Char) : List Char × List Char :=
  (word.takeWhile (· != mark), (word.dropWhile (· != mark)).drop 1)

/-- Reads a single code or a range. -/
def readRange (word : List Char) : Nat × Nat :=
  let (first, last) := splitAtMark '-' word
  (hexValue first, if last.isEmpty then hexValue first else hexValue last)

/-- Reads a table without data. -/
def readRanges (text : String) : RangeTable Unit :=
  ⟨((words text.toList).map fun word =>
    let (first, last) := readRange word
    (first, last, ())).toArray⟩

/-- Reads a table whose entries carry a word after a colon. -/
def readTagged (text : String) : RangeTable String :=
  ⟨((words text.toList).map fun word =>
    let (range, tag) := splitAtMark ':' word
    let (first, last) := readRange range
    (first, last, String.ofList tag)).toArray⟩

/-- A run of a character map: every `step`-th code of a range moves by `delta`. -/
structure Shift where
  step : Nat
  delta : Int
  deriving Repr, DecidableEq

/-- Reads a character map, whose runs are written `first-last/step+delta` or
`first-last/step-delta`. -/
def readShifts (text : String) : RangeTable Shift :=
  ⟨((words text.toList).map fun word =>
    let (range, shift) := splitAtMark '/' word
    let (first, last) := readRange range
    let step := hexValue (shift.take 1)
    let size : Int := hexValue (shift.drop 2)
    (first, last, (⟨step, if shift[1]? = some '-' then -size else size⟩ : Shift))).toArray⟩

/-- Reads the characters that a map takes to several, written `code>code+code`. -/
def readExpansions (text : String) : List (Nat × List Nat) :=
  (words text.toList).map fun word =>
    let (code, images) := splitAtMark '>' word
    (hexValue code, (words (images.map fun c => if c = '+' then ' ' else c)).map hexValue)

/-- The code to which a map takes a code. -/
def shiftCode (t : RangeTable Shift) (code : Nat) : Nat :=
  match t.find? code with
  | some (first, _, shift) =>
    if (code - first) % shift.step = 0 then (code + shift.delta).toNat else code
  | none => code

/-- The codes that a map takes to `image`, other than itself. -/
def unshiftCode (t : RangeTable Shift) (image : Nat) : List Nat :=
  t.entries.toList.filterMap fun (first, last, shift) =>
    let code := ((image : Int) - shift.delta).toNat
    if first ≤ code ∧ code ≤ last ∧ (code - first) % shift.step = 0 ∧
        (code : Int) + shift.delta = image then some code else none

end TagExpr.Text
