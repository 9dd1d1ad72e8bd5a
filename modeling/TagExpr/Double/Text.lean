import TagExpr.Double.Nearest
import TagExpr.Double.Shortest

/-!
# Doubles as text

How a double is written and read. It is written with the fewest digits that read back; `layout`
says when an exponent is used.
-/

namespace TagExpr.Double

/-- The choices of a decimal layout. -/
structure Layout where
  /-- Numbers from `10 ^ positionalFrom` on are written without an exponent. -/
  positionalFrom : Int
  /-- Numbers from `10 ^ exponentFrom` on are written with an exponent. -/
  exponentFrom : Int
  /-- The mark before an exponent. -/
  exponentMark : String
  deriving Repr

/-- Doubles are written without an exponent from a ten-thousandth up to `10 ^ 16`. -/
def layout : Layout := ⟨-4, 16, "e"⟩

/-- That many zeros. -/
def zeros (count : Nat) : String := String.ofList (List.replicate count '0')

/-- Writes a positive decimal with a point and at least one digit on either side of it, or with an
exponent, in which case a mantissa of one digit goes without a point. -/
def Layout.render (l : Layout) (d : Decimal) : String :=
  let digits := (toString d.digits).toList
  let count := digits.length
  let point : Int := count + d.exponent
  let leading := point - 1
  if leading < l.positionalFrom || l.exponentFrom ≤ leading then
    let mantissa :=
      if count ≤ 1 then digits else digits.take 1 ++ '.' :: digits.drop 1
    String.ofList mantissa ++ l.exponentMark ++ toString leading
  else if point ≤ 0 then
    "0." ++ zeros (-point).toNat ++ String.ofList digits
  else if (count : Int) ≤ point then
    String.ofList digits ++ zeros (point.toNat - count) ++ ".0"
  else
    String.ofList (digits.take point.toNat) ++ "." ++ String.ofList (digits.drop point.toNat)

/-- The text of a double. A NaN is written without its sign, a zero with it. -/
def render (d : Double) : String :=
  if d.isNaN then "NaN"
  else
    let size :=
      if d.isInfinite then "inf"
      else if d.isZero then "0.0"
      else layout.render d.shortest
    if d.isNegative then "-" ++ size else size

instance : ToString Double := ⟨render⟩

/-- The value of a run of decimal digits. -/
def digitsValue (digits : List Char) : Nat :=
  digits.foldl (fun value c => 10 * value + (c.toNat - '0'.toNat)) 0

/-- Reads an exponent with an optional sign. -/
def readExponent? : List Char → Option Int
  | [] => none
  | c :: digits =>
    let (negative, digits) :=
      if c = '-' then (true, digits) else if c = '+' then (false, digits) else (false, c :: digits)
    if digits.isEmpty || !digits.all Char.isDigit then none
    else some (if negative then -(digitsValue digits : Int) else digitsValue digits)

/-- Reads a decimal without sign: digits with an optional point among them, then an optional
exponent after `e` or `E`. -/
def readUnsigned? (negative : Bool) (text : List Char) : Option Double := do
  let whole := text.takeWhile Char.isDigit
  let rest := text.dropWhile Char.isDigit
  let (fraction, rest) := match rest with
    | '.' :: after => (after.takeWhile Char.isDigit, after.dropWhile Char.isDigit)
    | _ => ([], rest)
  if whole.isEmpty && fraction.isEmpty then none
  let exponent ← match rest with
    | [] => some 0
    | c :: digits => if c = 'e' ∨ c = 'E' then readExponent? digits else none
  return ofDecimal negative (digitsValue (whole ++ fraction)) (exponent - fraction.length)

/-- Reads a decimal with an optional sign. -/
def read? (text : List Char) : Option Double :=
  match text with
  | '-' :: rest => readUnsigned? true rest
  | '+' :: rest => readUnsigned? false rest
  | _ => readUnsigned? false text

end TagExpr.Double
