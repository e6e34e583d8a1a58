import EventSchema.Decimal.Double
import Mathlib.Algebra.Order.Group.Nat
import Mathlib.Tactic.Ring

/-!
Doubles that are whole numbers.

The significand of a double that is a whole number other than zero has its full length, so one such
double is left of every two that are the same number. Only zero has two doubles.
-/

set_option autoImplicit false

namespace EventSchema.Double

private theorem fraction_lt (x : Double) : x.fraction < twoTo 52 := Nat.mod_lt _ (by decide)

/-- The bits are put together from the sign, the exponent and the fraction. -/
theorem bits_eq (x : Double) :
    x.bits.toNat = (if x.isNegative then twoTo 63 else 0) + x.exponentField * twoTo 52 +
      x.fraction := by
  have below : x.bits.toNat < twoTo 64 := x.bits.toNat_lt
  unfold isNegative exponentField fraction twoTo at *
  norm_num at *
  split_ifs with negative <;> omega

private theorem eq_of_parts {x y : Double} (sign : x.isNegative = y.isNegative)
    (exponent : x.exponentField = y.exponentField) (fraction : x.fraction = y.fraction) : x = y := by
  have same : x.bits.toNat = y.bits.toNat := by
    rw [x.bits_eq, y.bits_eq, sign, exponent, fraction]
  obtain ⟨bits⟩ := x
  obtain ⟨other⟩ := y
  exact congrArg mk (UInt64.toNat.inj same)

private theorem twoTo_pos (n : Nat) : 0 < twoTo n := Nat.two_pow_pos n

private theorem twoTo_add (m n : Nat) : twoTo (m + n) = twoTo m * twoTo n := Nat.pow_add 2 m n

private theorem twoTo_le {m n : Nat} (le : m ≤ n) : twoTo m ≤ twoTo n :=
  Nat.pow_le_pow_right Nat.two_pos le

/-- A double that is a whole number is that number, scaled by powers of two. -/
theorem numerator_of_toInt? {x : Double} {n : Int} (whole : x.toInt? = some n) :
    x.numerator = n * (twoTo x.shift : Int) := by
  unfold toInt? at whole
  split at whole
  · cases whole
  · dsimp only at whole
    split at whole
    · rename_i divisible
      rw [← Option.some.inj whole]
      exact (Int.ediv_mul_cancel (Int.dvd_of_emod_eq_zero divisible)).symm
    · cases whole

private theorem natAbs_numerator (x : Double) :
    x.numerator.natAbs = x.significand * twoTo x.exponent.toNat := by
  unfold numerator
  dsimp only
  split
  · rw [Int.natAbs_neg, Int.natAbs_natCast]
  · rw [Int.natAbs_natCast]

private theorem magnitude_of_toInt? {x : Double} {n : Int} (whole : x.toInt? = some n) :
    x.significand * twoTo x.exponent.toNat = n.natAbs * twoTo (-x.exponent).toNat := by
  rw [← natAbs_numerator, numerator_of_toInt? whole, Int.natAbs_mul, Int.natAbs_natCast, shift]

private theorem isNegative_of_toInt? {x : Double} {n : Int} (whole : x.toInt? = some n) (nonzero : n ≠ 0) :
    x.isNegative = decide (n < 0) := by
  have number := numerator_of_toInt? whole
  have positive : (0 : Int) < twoTo x.shift := Int.natCast_pos.mpr (twoTo_pos _)
  unfold numerator at number
  dsimp only at number
  cases sign : x.isNegative with
  | true =>
      rw [sign, if_pos rfl] at number
      have below : n * (twoTo x.shift : Int) ≤ 0 := by omega
      have notPositive : n ≤ 0 := by
        by_contra above
        have := Int.mul_pos (by omega : 0 < n) positive
        omega
      exact (decide_eq_true (by omega)).symm
  | false =>
      rw [sign] at number
      have above : 0 ≤ n * (twoTo x.shift : Int) := by
        rw [← number]
        exact Int.natCast_nonneg _
      have notNegative : ¬n < 0 := by
        intro below
        have := Int.mul_neg_of_neg_of_pos below positive
        omega
      exact (decide_eq_false notNegative).symm

private theorem significand_lt (x : Double) : x.significand < twoTo 53 := by
  have below := x.fraction_lt
  have double : twoTo 53 = twoTo 52 + twoTo 52 := by decide
  unfold significand
  split <;> omega

/-- A whole number other than zero has a significand of full length. -/
theorem full_of_toInt? {x : Double} {n : Int} (whole : x.toInt? = some n) (nonzero : n ≠ 0) :
    x.exponentField ≠ 0 := by
  intro least
  have magnitude := magnitude_of_toInt? whole
  have exponent : x.exponent = -1074 := by
    unfold exponent
    rw [least]
    rfl
  rw [exponent] at magnitude
  have below := x.significand_lt
  have far : twoTo 53 ≤ twoTo 1074 := twoTo_le (by decide)
  have scaled : twoTo 1074 ≤ n.natAbs * twoTo 1074 :=
    Nat.le_mul_of_pos_left _ (Int.natAbs_pos.mpr nonzero)
  have plain : x.significand * twoTo (Int.toNat (-1074)) = x.significand := Nat.mul_one _
  rw [plain] at magnitude
  change x.significand = n.natAbs * twoTo 1074 at magnitude
  omega

private theorem significand_of_full {x : Double} (full : x.exponentField ≠ 0) :
    x.significand = x.fraction + twoTo 52 ∧ x.exponent = (x.exponentField : Int) - 1075 := by
  constructor
  · rw [significand, if_neg full]
  · rw [exponent, Nat.max_eq_left (Nat.one_le_iff_ne_zero.mpr full)]

/-- Of two significands of full length that are multiples of powers of two of one number, neither has
the lower power. -/
theorem scale_le {left right m n : Nat} (full : twoTo 52 ≤ right) (short : left < twoTo 53)
    (same : left * twoTo m = right * twoTo n) : n ≤ m := by
  by_contra above
  obtain ⟨rest, rfl⟩ := Nat.exists_eq_add_of_lt (Nat.lt_of_not_le above)
  rw [Nat.add_assoc, twoTo_add, ← Nat.mul_assoc, Nat.mul_right_comm] at same
  have cancelled := Nat.eq_of_mul_eq_mul_right (twoTo_pos m) same
  have double : twoTo (rest + 1) = twoTo rest * 2 := twoTo_add rest 1
  have wide : right * 2 ≤ right * twoTo (rest + 1) := by
    rw [double]
    exact Nat.mul_le_mul_left _ (Nat.le_mul_of_pos_left _ (twoTo_pos rest))
  have length : twoTo 53 = twoTo 52 + twoTo 52 := by decide
  omega

/-- A whole number other than zero has one double at most. -/
theorem toInt?_injective {x y : Double} {n : Int} (left : x.toInt? = some n)
    (right : y.toInt? = some n) (nonzero : n ≠ 0) : x = y := by
  have fullLeft := full_of_toInt? left nonzero
  have fullRight := full_of_toInt? right nonzero
  obtain ⟨significandLeft, exponentLeft⟩ := significand_of_full fullLeft
  obtain ⟨significandRight, exponentRight⟩ := significand_of_full fullRight
  have magnitudeLeft := magnitude_of_toInt? left
  have magnitudeRight := magnitude_of_toInt? right
  -- both significands, brought to one scale, are the same number
  have common : x.significand * twoTo (x.exponent.toNat + (-y.exponent).toNat) =
      y.significand * twoTo (y.exponent.toNat + (-x.exponent).toNat) := by
    rw [twoTo_add, twoTo_add, ← Nat.mul_assoc, ← Nat.mul_assoc, magnitudeLeft, magnitudeRight,
      Nat.mul_right_comm]
  have scales : x.exponent.toNat + (-y.exponent).toNat = y.exponent.toNat + (-x.exponent).toNat :=
    Nat.le_antisymm
      (scale_le (by omega) y.significand_lt common.symm)
      (scale_le (by omega) x.significand_lt common)
  rw [scales] at common
  have significands := Nat.eq_of_mul_eq_mul_right (twoTo_pos _) common
  apply eq_of_parts
  · rw [isNegative_of_toInt? left nonzero, isNegative_of_toInt? right nonzero]
  · omega
  · omega

private theorem toInt?_eq_zero {x : Double} : x.toInt? = some 0 ↔ x.isZero = true := by
  unfold isZero
  rw [Bool.and_eq_true_iff, beq_iff_eq, beq_iff_eq]
  constructor
  · intro whole
    have magnitude := magnitude_of_toInt? whole
    rw [Int.natAbs_zero, Nat.zero_mul] at magnitude
    have nothing : x.significand = 0 :=
      (Nat.mul_eq_zero.mp magnitude).resolve_right (twoTo_pos _).ne'
    have positive := twoTo_pos 52
    unfold significand at nothing
    split at nothing
    · exact ⟨by assumption, nothing⟩
    · omega
  · rintro ⟨exponent, fraction⟩
    have nothing : x.numerator = 0 := by
      rw [← Int.natAbs_eq_zero, natAbs_numerator, significand, if_pos exponent, fraction,
        Nat.zero_mul]
    unfold toInt?
    rw [exponent, nothing]
    dsimp only
    rw [if_neg (by decide), Int.zero_emod, if_pos rfl, Int.zero_ediv]

theorem isNaN_of_toInt? {x : Double} {n : Int} (whole : x.toInt? = some n) : x.isNaN = false := by
  unfold toInt? at whole
  split at whole
  · cases whole
  · rename_i finite
    rw [isNaN, beq_eq_false_iff_ne.mpr finite, Bool.false_and]

theorem equals_of_toInt? {x y : Double} {m n : Int} (left : x.toInt? = some m)
    (right : y.toInt? = some n) : x.equals y = true ↔ m = n := by
  rw [equals, isNaN_of_toInt? left, isNaN_of_toInt? right]
  simp only [Bool.not_false, Bool.true_and, Bool.or_eq_true, beq_iff_eq, Bool.and_eq_true]
  constructor
  · rintro (same | ⟨zeroLeft, zeroRight⟩)
    · rw [same, right] at left
      exact (Option.some.inj left).symm
    · rw [toInt?_eq_zero.mpr zeroLeft] at left
      rw [toInt?_eq_zero.mpr zeroRight] at right
      rw [← Option.some.inj left, ← Option.some.inj right]
  · rintro rfl
    by_cases zero : m = 0
    · subst zero
      exact Or.inr ⟨toInt?_eq_zero.mp left, toInt?_eq_zero.mp right⟩
    · exact Or.inl (toInt?_injective left right zero)

/-- A double that is no whole number equals itself alone. -/
theorem equals_of_toInt?_eq_none {x y : Double} (left : x.toInt? = none) :
    x.equals y = true ↔ x = y ∧ x.isNaN = false := by
  have nonzero : x.isZero = false := by
    rw [← Bool.not_eq_true]
    intro zero
    rw [toInt?_eq_zero.mpr zero] at left
    cases left
  rw [equals, nonzero]
  simp only [Bool.false_and, Bool.or_false, Bool.and_eq_true, Bool.not_eq_true', beq_iff_eq]
  constructor
  · exact fun both => ⟨both.2, both.1.1⟩
  · rintro ⟨rfl, number⟩
    exact ⟨⟨number, number⟩, rfl⟩

theorem equals_comm (x y : Double) : x.equals y = y.equals x := by
  unfold equals
  rw [Bool.and_comm (!x.isNaN), Bool.and_comm x.isZero, show (x == y) = (y == x) from
    Bool.beq_comm]

end EventSchema.Double
