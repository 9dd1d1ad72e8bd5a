import TagExpr.Double.Arithmetic
import Mathlib.Data.Rat.Defs
import Mathlib.Algebra.Order.Field.Rat
import Mathlib.Data.Int.Order.Basic
import Mathlib.Tactic.Ring
import Mathlib.Tactic.Linarith
import Mathlib.Tactic.NormNum

/-!
# The order of doubles is one by units

Without its sign, a double grows with its bit pattern (`strictMono_magnitudeOfSize`). So the order
of the bit patterns is that of the units, NaNs included, and the three comparisons of
`TagExpr.Double.Order` are one: both sides in units (`cmp_eq_compare`, `compareInt_eq_compare`).
A finite double is worth its units by the power of two that they are counted in
(`value_mul_unitsOfOne`).
-/

namespace TagExpr.Double

theorem compare_congr {x y x' y' : Int} (lt : x < y ↔ x' < y') (gt : y < x ↔ y' < x') :
    compare x y = compare x' y' := by
  rcases lt_trichotomy x y with h | h | h
  · rw [compare_lt_iff_lt.2 h, compare_lt_iff_lt.2 (lt.1 h)]
  · rw [compare_eq_iff_eq.2 h, compare_eq_iff_eq.2 (by omega)]
  · rw [compare_gt_iff_gt.2 h, compare_gt_iff_gt.2 (gt.1 h)]

/-! ## The size of a bit pattern -/

/-- The magnitude of the doubles with this bit pattern below the sign. -/
def magnitudeOfSize (size : Nat) : Nat :=
  if size < 2 ^ 52 then size else (size % 2 ^ 52 + 2 ^ 52) * 2 ^ (size / 2 ^ 52 - 1)

theorem exponentField_eq (d : Double) : d.exponentField = d.size / 2 ^ 52 := by
  simp only [exponentField, size, fractionBits, Nat.shiftRight_eq_div_pow, Nat.pow_eq]
  omega

theorem fractionField_eq (d : Double) : d.fractionField = d.size % 2 ^ 52 := by
  simp only [fractionField, size, fractionBits, Nat.pow_eq]
  omega

theorem magnitude_eq (d : Double) : d.magnitude = magnitudeOfSize d.size := by
  have fraction : d.size < 2 ^ 52 ↔ d.size / 2 ^ 52 = 0 := by omega
  unfold magnitude significand scale magnitudeOfSize
  rw [exponentField_eq, fractionField_eq, fractionBits, Nat.pow_eq, Nat.pow_eq]
  by_cases small : d.size < 2 ^ 52
  · rw [if_pos (fraction.1 small), if_pos small, fraction.1 small, Nat.mod_eq_of_lt small]
    simp
  · rw [if_neg (mt fraction.2 small), if_neg small]

/-- The next bit pattern is that of a larger double, also where the exponent changes. -/
theorem magnitudeOfSize_lt_succ (size : Nat) :
    magnitudeOfSize size < magnitudeOfSize (size + 1) := by
  unfold magnitudeOfSize
  by_cases small : size + 1 < 2 ^ 52
  · rw [if_pos (by omega), if_pos small]
    omega
  by_cases last : size < 2 ^ 52
  · obtain rfl : size = 2 ^ 52 - 1 := by omega
    decide
  rw [if_neg last, if_neg small]
  have positive : 0 < 2 ^ (size / 2 ^ 52 - 1) := Nat.two_pow_pos _
  by_cases carry : size % 2 ^ 52 = 2 ^ 52 - 1
  · have exponent : (size + 1) / 2 ^ 52 - 1 = size / 2 ^ 52 - 1 + 1 := by omega
    have fraction : (size + 1) % 2 ^ 52 = 0 := by omega
    rw [exponent, fraction, carry, Nat.pow_succ 2 (size / 2 ^ 52 - 1)]
    generalize 2 ^ (size / 2 ^ 52 - 1) = unit at positive
    omega
  · have exponent : (size + 1) / 2 ^ 52 = size / 2 ^ 52 := by omega
    have fraction : (size + 1) % 2 ^ 52 = size % 2 ^ 52 + 1 := by omega
    rw [exponent, fraction]
    exact Nat.mul_lt_mul_of_pos_right (by omega) positive

theorem strictMono_magnitudeOfSize : StrictMono magnitudeOfSize :=
  strictMono_nat_of_lt_succ magnitudeOfSize_lt_succ

theorem magnitude_lt_iff {a b : Double} : a.magnitude < b.magnitude ↔ a.size < b.size := by
  rw [magnitude_eq, magnitude_eq]
  exact strictMono_magnitudeOfSize.lt_iff_lt

/-! ## Two doubles -/

/-- Bit patterns are in the order of their units, as long as they are not two zeros. -/
theorem compare_place {a b : Double} (h : a.magnitude ≠ 0 ∨ b.magnitude ≠ 0) :
    compare a.place b.place = compare a.units b.units := by
  have ascending : a.magnitude < b.magnitude ↔ a.size < b.size := magnitude_lt_iff
  have descending : b.magnitude < a.magnitude ↔ b.size < a.size := magnitude_lt_iff
  unfold place units
  cases a.isNegative <;> cases b.isNegative <;> apply compare_congr <;> simp <;> omega

theorem isFinite_iff {d : Double} : d.isFinite ↔ d.exponentField < specialExponent := by
  simp [isFinite]

theorem not_isFinite_of_isNaN {d : Double} (h : d.isNaN = true) : ¬d.isFinite := by
  simp only [isNaN, Bool.and_eq_true, beq_iff_eq] at h
  rw [isFinite_iff, h.1]
  exact lt_irrefl _

theorem two_pow_le_magnitude {d : Double} (h : ¬d.isFinite) :
    Nat.pow 2 (specialExponent - 1) ≤ d.magnitude := by
  rw [isFinite_iff, not_lt] at h
  have positive : d.exponentField ≠ 0 := fun zero => absurd (zero ▸ h) (by decide)
  have power {m n : Nat} (below : m ≤ n) : Nat.pow 2 m ≤ Nat.pow 2 n :=
    Nat.pow_le_pow_right Nat.two_pos below
  unfold magnitude significand scale
  rw [if_neg positive]
  exact (power (Nat.sub_le_sub_right h 1)).trans
    (Nat.le_mul_of_pos_left _ (Nat.add_pos_right _ (Nat.two_pow_pos _)))

theorem magnitude_ne_zero_of_isNaN {d : Double} (h : d.isNaN = true) : d.magnitude ≠ 0 := by
  have large := two_pow_le_magnitude (not_isFinite_of_isNaN h)
  generalize specialExponent - 1 = n at large
  exact Nat.ne_of_gt (Nat.lt_of_lt_of_le (Nat.two_pow_pos n) large)

/-- **Doubles are in the order of their units**, whether compared by value or by bit pattern. -/
theorem cmp_eq_compare (a b : Double) : cmp a b = compare a.units b.units := by
  unfold cmp partialCompare?
  by_cases h : (a.isNaN || b.isNaN) = true
  · rw [if_pos h, Option.getD_none]
    apply compare_place
    rcases Bool.or_eq_true_iff.1 h with h | h
    · exact .inl (magnitude_ne_zero_of_isNaN h)
    · exact .inr (magnitude_ne_zero_of_isNaN h)
  · rw [if_neg h, Option.getD_some]

/-! ## An integer and a double -/

/-- An integer of 64 bits, in units. -/
def unitsOfInt (n : Int64) : Int := n.toInt * unitsOfOne

theorem unitsOfOne_pos : 0 < unitsOfOne := by
  unfold unitsOfOne
  generalize unitExponent = n
  exact Int.natCast_pos.2 (Nat.two_pow_pos n)

theorem unitsOfInt_lt (n : Int64) : unitsOfInt n < unitsOfIntEnd :=
  Int.mul_lt_mul_of_pos_right n.toInt_lt unitsOfOne_pos

theorem neg_unitsOfIntEnd_le (n : Int64) : -unitsOfIntEnd ≤ unitsOfInt n := by
  have h := Int.mul_le_mul_of_nonneg_right n.le_toInt unitsOfOne_pos.le
  rwa [neg_mul] at h

/-- To compare with `u` is to compare with the whole part of `u / unit` and then with the rest. -/
theorem compare_tdiv_then_tmod {unit : Int} (h : 0 < unit) (n u : Int) :
    (compare n (u.tdiv unit)).then (compare 0 (u.tmod unit)) = compare (n * unit) u := by
  have split : unit * u.tdiv unit + u.tmod unit = u := Int.mul_tdiv_add_tmod u unit
  have upper : u.tmod unit < unit := Int.tmod_lt_of_pos u h
  have lower : -unit < u.tmod unit := by
    have := Int.lt_tmod_of_pos u h
    omega
  generalize u.tdiv unit = q at *
  generalize u.tmod unit = r at *
  rcases lt_trichotomy n q with below | rfl | above
  · have step : (n + 1) * unit ≤ q * unit := Int.mul_le_mul_of_nonneg_right below h.le
    have less : n * unit < u := by linarith
    rw [compare_lt_iff_lt.2 below, compare_lt_iff_lt.2 less]
    rfl
  · rw [compare_eq_iff_eq.2 rfl, ← split, mul_comm n unit]
    exact compare_congr (by omega) (by omega)
  · have step : (q + 1) * unit ≤ n * unit := Int.mul_le_mul_of_nonneg_right above h.le
    have greater : u < n * unit := by linarith
    rw [compare_gt_iff_gt.2 above, compare_gt_iff_gt.2 greater]
    rfl

/-- Infinities and NaNs are beyond every integer of 64 bits. -/
theorem unitsOfIntEnd_lt_magnitude {d : Double} (h : ¬d.isFinite) :
    unitsOfIntEnd < d.magnitude := by
  have large := two_pow_le_magnitude h
  have small : Nat.pow 2 63 * Nat.pow 2 unitExponent < Nat.pow 2 (specialExponent - 1) := by
    simp only [Nat.pow_eq, ← Nat.pow_add]
    exact Nat.pow_lt_pow_of_lt Nat.one_lt_two (by decide)
  unfold unitsOfIntEnd unitsOfOne
  exact_mod_cast small.trans_le large

/-- **An integer and a double are in the order of their units**, though neither becomes the
other. -/
theorem compareInt_eq_compare (n : Int64) (d : Double) :
    compareInt n d = compare (unitsOfInt n) d.units := by
  have lower := neg_unitsOfIntEnd_le n
  have upper := unitsOfInt_lt n
  unfold compareInt
  by_cases nan : d.isNaN = true
  · have beyond := unitsOfIntEnd_lt_magnitude (not_isFinite_of_isNaN nan)
    rw [if_pos nan]
    unfold units
    by_cases negative : d.isNegative = true
    · rw [if_pos negative, if_pos negative, compare_gt_iff_gt.2 (by omega)]
    · rw [if_neg negative, if_neg negative, compare_lt_iff_lt.2 (by omega)]
  rw [if_neg nan]
  by_cases above : unitsOfIntEnd ≤ d.units
  · rw [if_pos above, compare_lt_iff_lt.2 (by omega)]
  rw [if_neg above]
  by_cases below : d.units < -unitsOfIntEnd
  · rw [if_pos below, compare_gt_iff_gt.2 (by omega)]
  rw [if_neg below]
  exact compare_tdiv_then_tmod unitsOfOne_pos n.toInt d.units

/-! ## What a finite double is worth -/

/-- The size of the number that the fields of a finite double stand for: a fraction below one times
`2 ^ (-1022)` where the exponent field is zero, and else one and a fraction times a power of two. -/
def absValue (d : Double) : ℚ :=
  if d.exponentField = 0 then (d.fractionField : ℚ) / 2 ^ 52 * (2 : ℚ) ^ (-1022 : ℤ)
  else (1 + (d.fractionField : ℚ) / 2 ^ 52) * (2 : ℚ) ^ ((d.exponentField : ℤ) - 1023)

/-- The number that a finite double is. -/
def value (d : Double) : ℚ := if d.isNegative then -d.absValue else d.absValue

theorem unitsOfOne_eq_zpow : (unitsOfOne : ℚ) = 2 ^ (unitExponent : ℤ) := by
  unfold unitsOfOne
  rw [Nat.pow_eq, zpow_natCast]
  push_cast
  rfl

theorem absValue_mul_unitsOfOne (d : Double) : d.absValue * unitsOfOne = d.magnitude := by
  unfold absValue magnitude significand scale
  rw [unitsOfOne_eq_zpow, fractionBits, Nat.pow_eq, Nat.pow_eq]
  by_cases zero : d.exponentField = 0
  · have exponent : (-1022 : ℤ) + unitExponent = 52 := rfl
    rw [if_pos zero, if_pos zero, zero, mul_assoc, ← zpow_add₀ (by norm_num), exponent]
    norm_num
  · have exponent : (d.exponentField : ℤ) - 1023 + unitExponent
        = (52 : ℕ) + (d.exponentField - 1 : ℕ) := by
      have : (unitExponent : ℤ) = 1074 := rfl
      omega
    rw [if_neg zero, if_neg zero, mul_assoc, ← zpow_add₀ (by norm_num), exponent,
      zpow_add₀ (by norm_num), zpow_natCast, zpow_natCast]
    push_cast
    ring

/-- **A finite double is worth its units.** -/
theorem value_mul_unitsOfOne (d : Double) : d.value * unitsOfOne = d.units := by
  have size := absValue_mul_unitsOfOne d
  unfold value units
  by_cases negative : d.isNegative = true
  · rw [if_pos negative, if_pos negative, neg_mul, size]
    push_cast
    rfl
  · rw [if_neg negative, if_neg negative, size]
    push_cast
    rfl

end TagExpr.Double
