/-!
# Double precision numbers

A double is its 64 bits: a sign, eleven bits of exponent and 52 bits of fraction. Every finite
double is a whole multiple of `2 ^ (-1074)`, the least positive one; that integer, `units`, is the
view on which order and exact arithmetic are defined.
-/

namespace TagExpr

/-- A double precision number, held as its bits. Two doubles are equal when their bits are, so the
zeros of both signs differ and a NaN equals itself. -/
structure Double where
  bits : UInt64
  deriving DecidableEq, Inhabited

namespace Double

/-- The exponent field that marks infinities and NaNs. -/
def specialExponent : Nat := 2047

/-- The number of fraction bits. -/
def fractionBits : Nat := 52

/-- The power of two by which `units` exceeds the value. -/
def unitExponent : Nat := 1074

/-- The sign bit is set. -/
def isNegative (d : Double) : Bool := d.bits >>> 63 != 0

/-- The exponent field. -/
def exponentField (d : Double) : Nat := d.bits.toNat >>> fractionBits % Nat.pow 2 11

/-- The fraction field. -/
def fractionField (d : Double) : Nat := d.bits.toNat % Nat.pow 2 fractionBits

def isFinite (d : Double) : Bool := d.exponentField < specialExponent

def isNaN (d : Double) : Bool := d.exponentField == specialExponent && d.fractionField != 0

def isInfinite (d : Double) : Bool := d.exponentField == specialExponent && d.fractionField == 0

/-- The fraction with the leading bit that normal numbers leave out. -/
def significand (d : Double) : Nat :=
  if d.exponentField = 0 then d.fractionField else d.fractionField + Nat.pow 2 fractionBits

/-- The power of two by which the significand is scaled, counted from `2 ^ (-1074)`. -/
def scale (d : Double) : Nat := d.exponentField - 1

/-- The size of a finite double as a multiple of `2 ^ (-1074)`. -/
def magnitude (d : Double) : Nat := d.significand * Nat.pow 2 d.scale

/-- A finite double as a multiple of `2 ^ (-1074)`. -/
def units (d : Double) : Int := if d.isNegative then -(d.magnitude : Int) else d.magnitude

/-- The value is a zero, of either sign. -/
def isZero (d : Double) : Bool := d.magnitude == 0

/-- Flips the sign bit, of a NaN as well. -/
def negate (d : Double) : Double := ⟨d.bits ^^^ 0x8000000000000000⟩

def zero : Double := ⟨0⟩

def infinity : Double := ⟨0x7FF0000000000000⟩

/-- The quiet NaN whose sign bit is clear. -/
def nan : Double := ⟨0x7FF8000000000000⟩

/-- The double with the given sign whose other bits are `magnitudeBits`. -/
def ofSign (negative : Bool) (magnitudeBits : Nat) : Double :=
  let d : Double := ⟨magnitudeBits.toUInt64⟩
  if negative then d.negate else d

theorem negate_negate (d : Double) : d.negate.negate = d := by
  cases d
  simp only [negate, UInt64.xor_assoc, UInt64.xor_self, UInt64.xor_zero]

end Double

end TagExpr
