/-!
# Integer ranges

The ranges `a .. b` and `a ..< b`. Only ascending ranges hold members, so `5 .. 1` is empty. The
view is `bounds?`, the first and last member. They are computed as integers without an end, and
have 64 bits where there are any.
-/

namespace TagExpr

/-- A range of 64-bit integers. -/
structure IntRange where
  start : Int64
  stop : Int64
  /-- The range holds its end. -/
  inclusive : Bool
  deriving DecidableEq, Inhabited

namespace IntRange

/-- The largest number of members that `length` reports. -/
def maxLength : Nat := Nat.pow 2 64 - 1

/-- The first and the last member, if there are any. -/
def bounds? (r : IntRange) : Option (Int × Int) :=
  let last := if r.inclusive then r.stop.toInt else r.stop.toInt - 1
  if r.start.toInt ≤ last then some (r.start.toInt, last) else none

/-- The number of members, as far as it can be counted. -/
def length (r : IntRange) : Nat :=
  match r.bounds? with
  | none => 0
  | some (first, last) => min (last - first + 1).toNat maxLength

def isEmpty (r : IntRange) : Bool := r.bounds?.isNone

def contains (r : IntRange) (n : Int) : Bool :=
  match r.bounds? with
  | none => false
  | some (first, last) => first ≤ n && n ≤ last

/-- The range as it is written in an expression. -/
def render (r : IntRange) : String :=
  toString r.start.toInt ++ (if r.inclusive then ".." else "..<") ++ toString r.stop.toInt

theorem contains_eq_false_of_isEmpty {r : IntRange} (h : r.isEmpty) (n : Int) :
    r.contains n = false := by
  simp_all [isEmpty, contains]

end IntRange

end TagExpr
