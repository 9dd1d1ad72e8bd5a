import TagExpr.Double

/-!
# Shortest decimal forms

The decimal with the fewest digits that reads back as a given double. The reals that round to a
double form an interval, its ends included when the significand is even. Of the decimals with one
digit, two digits and so on, the neighbours of the double below and above are tried until one lies
in the interval; if both do, the nearer one is taken, and the upper one if both are equally near.
-/

namespace TagExpr.Double

/-- A positive decimal: `digits * 10 ^ exponent`. -/
structure Decimal where
  digits : Nat
  exponent : Int
  deriving Repr, DecidableEq

namespace Decimal

/-- The same value without trailing zeros in its digits, as far as `fuel` steps reach. -/
def trim (d : Decimal) : Nat → Decimal
  | 0 => d
  | fuel + 1 =>
    if d.digits % 10 = 0 ∧ d.digits ≠ 0 then trim ⟨d.digits / 10, d.exponent + 1⟩ fuel else d

end Decimal

/-- No double needs more digits. -/
def maxDigits : Nat := 17

/-- Four times the size of `d`, in units; on this scale the ends of the interval are whole. -/
def quarters (d : Double) : Nat := 4 * d.magnitude

/-- The lower end of the reals that round to `d`, in quarter units. Below a power of two the next
double is only half as far away. -/
def lowerEnd (d : Double) : Nat :=
  if d.significand = Nat.pow 2 fractionBits ∧ d.scale ≠ 0 then d.quarters - Nat.pow 2 d.scale
  else d.quarters - 2 * Nat.pow 2 d.scale

/-- The upper end of the reals that round to `d`, in quarter units. -/
def upperEnd (d : Double) : Nat := d.quarters + 2 * Nat.pow 2 d.scale

/-- `num / den` lies among the reals that round to `d`, both in quarter units. -/
def roundsTo (d : Double) (num den : Nat) : Bool :=
  if d.significand % 2 = 0 then d.lowerEnd * den ≤ num && num ≤ d.upperEnd * den
  else d.lowerEnd * den < num && num < d.upperEnd * den

/-- The number of quarter units in one. -/
def quartersPerOne : Nat := Nat.pow 2 (unitExponent + 2)

/-- `10 ^ exponent` in quarter units, as numerator and denominator. -/
def gridStep (exponent : Int) : Nat × Nat :=
  if 0 ≤ exponent then (quartersPerOne * Nat.pow 10 exponent.toNat, 1)
  else (quartersPerOne, Nat.pow 10 (-exponent).toNat)

/-- `10 ^ exponent` is above `d`. -/
def belowPowerOfTen (d : Double) (exponent : Int) : Bool :=
  let (num, den) := gridStep exponent
  d.quarters * den < num

/-- The number of digits before the point of `d`, or minus the number of zeros right after it. The
binary exponent gives it up to one. -/
def decimalPoint (d : Double) : Int :=
  let estimate := ((d.magnitude.log2 : Int) - unitExponent) * 30103 / 100000
  if d.belowPowerOfTen estimate then estimate
  else if d.belowPowerOfTen (estimate + 1) then estimate + 1
  else estimate + 2

/-- The decimal with step `10 ^ exponent` that is chosen for `d`, if one rounds to it. -/
def onGrid? (d : Double) (exponent : Int) : Option Decimal :=
  let (num, den) := gridStep exponent
  let value := d.quarters * den
  let below := value / num
  let above := below + 1
  let belowFits := d.roundsTo (below * num) den
  let aboveFits := d.roundsTo (above * num) den
  let belowNearer := value - below * num < above * num - value
  if belowFits && (!aboveFits || belowNearer) then some ⟨below, exponent⟩
  else if aboveFits then some ⟨above, exponent⟩
  else none

/-- The shortest decimal that rounds to the finite double `d`, its sign left aside. -/
def shortest (d : Double) : Decimal :=
  let point := d.decimalPoint
  let found := (List.range maxDigits).findSome? fun n => d.onGrid? (point - (n + 1 : Nat))
  (found.getD ⟨0, 0⟩).trim (maxDigits + 1)

end TagExpr.Double
