import TagExpr.Double.Nearest

/-!
# Arithmetic and order of doubles

Sum, difference, product, quotient and power are those of the machine. The remainder is exact: it
has the sign of the dividend and is found on the whole multiples of the least positive double.

Doubles that are no NaN are compared by value, so the zeros of both signs are equal. Where a NaN
takes part the comparison is that of the bit patterns, in which a NaN lies beyond the infinity on
its side. An integer is compared with the integer part of a double and, when these are equal, with
what the integer part leaves; it is never rounded to a double.
-/

namespace TagExpr.Double

/-! ## Arithmetic -/

/-- The machine number with these bits. -/
def toFloat (d : Double) : Float := Float.ofBits d.bits

/-- The double that a machine number is. -/
def ofFloat (x : Float) : Double := ⟨x.toBits⟩

def add (a b : Double) : Double := ofFloat (a.toFloat + b.toFloat)

def sub (a b : Double) : Double := ofFloat (a.toFloat - b.toFloat)

def mul (a b : Double) : Double := ofFloat (a.toFloat * b.toFloat)

def div (a b : Double) : Double := ofFloat (a.toFloat / b.toFloat)

def pow (a b : Double) : Double := ofFloat (Float.pow a.toFloat b.toFloat)

/-- The double of a whole number of units that some double has exactly. -/
def ofUnits (negative : Bool) (units : Nat) : Double :=
  ofRatio negative units (1 <<< unitExponent)

/-- The remainder of the division that truncates toward zero. -/
def mod (a b : Double) : Double :=
  if a.isNaN || b.isNaN || a.isInfinite || b.isZero then nan
  else if b.isInfinite then a
  else ofUnits a.isNegative (a.magnitude % b.magnitude)

/-! ## Order -/

/-- The bits below the sign. -/
def size (d : Double) : Nat := d.bits.toNat % Nat.pow 2 63

/-- The place of a bit pattern among all of them: the negative ones in falling order of size, then
the others in rising order. -/
def place (d : Double) : Int := if d.isNegative then -1 - (d.size : Int) else d.size

/-- The order of the values, in which a NaN has no place. -/
def partialCompare? (a b : Double) : Option Ordering :=
  if a.isNaN || b.isNaN then none else some (compare a.units b.units)

/-- Compares two doubles, by value if they have one and else by bit pattern. -/
def cmp (a b : Double) : Ordering := (partialCompare? a b).getD (compare a.place b.place)

/-- One, in units. -/
def unitsOfOne : Int := (Nat.pow 2 unitExponent : Nat)

/-- `2 ^ 63`, the first number above every integer of 64 bits, in units. -/
def unitsOfIntEnd : Int := (Nat.pow 2 63 : Nat) * unitsOfOne

/-- The integer part, toward zero. -/
def whole (d : Double) : Int := d.units.tdiv unitsOfOne

/-- What the integer part leaves, in units. It is itself a double, so nothing is rounded. -/
def remainder (d : Double) : Int := d.units.tmod unitsOfOne

/-- Compares an integer with a double. -/
def compareInt (n : Int64) (d : Double) : Ordering :=
  if d.isNaN then if d.isNegative then .gt else .lt
  else if unitsOfIntEnd ≤ d.units then .lt
  else if d.units < -unitsOfIntEnd then .gt
  else (compare n.toInt d.whole).then (compare 0 d.remainder)

end TagExpr.Double
