import TagExpr.Double

/-!
# Rounding to the nearest double

A ratio of naturals is rounded to the nearest double, and to the one with the even significand when
two are equally near. Everything that makes doubles out of other numbers goes through here.
-/

namespace TagExpr.Double

/-- `num / den` rounded to the nearest natural, halves to the even neighbour. -/
def roundHalfEven (num den : Nat) : Nat :=
  let whole := num / den
  let twice := 2 * (num % den)
  if twice < den then whole
  else if den < twice then whole + 1
  else if whole % 2 = 0 then whole else whole + 1

/-- The bits of the double nearest to `num / den`, the sign bit clear. The significand is rounded
on the grid that suits its size; a significand that rounds up to the next power of two carries into
the exponent field, which is the right bit pattern for it. -/
def nearestMagnitudeBits (num den : Nat) : Nat :=
  let scaled := num <<< unitExponent
  let shift := (scaled / den).log2 - fractionBits
  let bits := roundHalfEven scaled (den <<< shift) + shift <<< fractionBits
  min bits (specialExponent <<< fractionBits)

/-- The double nearest to `num / den` with the given sign; too large a ratio gives an infinity. -/
def ofRatio (negative : Bool) (num den : Nat) : Double :=
  ofSign negative (nearestMagnitudeBits num den)

/-- The double nearest to an integer. -/
def ofInt (n : Int) : Double := ofRatio (n < 0) n.natAbs 1

/-- Beyond this many decimal places to the left or right a number is infinite or zero. -/
def decimalReach : Nat := 400

/-- The double nearest to `digits * 10 ^ exponent`. -/
def ofDecimal (negative : Bool) (digits : Nat) (exponent : Int) : Double :=
  if digits = 0 then ofSign negative 0
  else if exponent > decimalReach then ofSign negative infinity.bits.toNat
  else if exponent + digits.log2 + 1 < -decimalReach then ofSign negative 0
  else if 0 ≤ exponent then ofRatio negative (digits * Nat.pow 10 exponent.toNat) 1
  else ofRatio negative digits (Nat.pow 10 (-exponent).toNat)

example : roundHalfEven 5 2 = 2 ∧ roundHalfEven 7 2 = 4 ∧ roundHalfEven 8 3 = 3 := by decide

end TagExpr.Double
