import DepCalc.Normal
import Mathlib.Algebra.Order.Group.Unbundled.Int
import Mathlib.Algebra.Group.Int.Defs
import Mathlib.Algebra.Group.Nat.Defs

/-!
Division of words beside division of integers. The quotient with a remainder that is never negative
is computed for every divisor but the least word, whose magnitude is not a word: of the dividends
only the least word itself tells that.
-/
namespace DepCalc

/-- Dividing `x` by `y` gives `q`, with a remainder that is not negative and smaller than the
divisor. -/
def IsQuotient (x y q : Int) : Prop :=
  ∃ r, x = q * y + r ∧ 0 ≤ r ∧ r < |y|

/-- There is exactly one quotient by every divisor but zero. -/
theorem isQuotient_iff {x y q : Int} : IsQuotient x y q ↔ y ≠ 0 ∧ q = x / y := by
  constructor
  · rintro ⟨r, whole, low, high⟩
    have sum : r + y * q = x := by rw [whole, Int.mul_comm, Int.add_comm]
    rcases lt_trichotomy y 0 with negative | rfl | positive
    · rw [abs_of_neg negative] at high
      have unique := (Int.ediv_emod_unique' negative).mpr ⟨sum, low, high⟩
      exact ⟨negative.ne, unique.1.symm⟩
    · rw [abs_zero] at high
      exact absurd low (not_le.mpr high)
    · rw [abs_of_pos positive] at high
      have unique := (Int.ediv_emod_unique positive).mpr ⟨sum, low, high⟩
      exact ⟨positive.ne', unique.1.symm⟩
  · rintro ⟨nonzero, rfl⟩
    refine ⟨x % y, ?_, Int.emod_nonneg x nonzero, Int.emod_lt_abs x nonzero⟩
    rw [Int.mul_comm, Int.mul_ediv_add_emod]

/-- Rounding towards zero and going down by one where the remainder is negative is rounding down. -/
theorem ediv_eq_tdiv_sub {x y : Int} (positive : 0 < y) :
    x / y = if x.tmod y < 0 then x.tdiv y - 1 else x.tdiv y := by
  have low := Int.emod_nonneg x positive.ne'
  have high := Int.emod_lt_of_pos x positive
  rw [Int.tdiv_eq_ediv, Int.tmod_eq_emod, Int.sign_eq_one_of_pos positive]
  split <;> split <;> omega

/-- The word of an integer that a word can hold. -/
theorem bmod_eq_of_fits {n : Int} (low : -2 ^ 63 ≤ n) (high : n < 2 ^ 63) : n.bmod (2 ^ 64) = n :=
  Int.bmod_eq_of_le (by omega) (by omega)

/-- A quotient by a positive word is between the bounds of its dividend. -/
theorem ediv_fits (x : Int64) {y : Int} (positive : 0 < y) :
    -2 ^ 63 ≤ x.toInt / y ∧ x.toInt / y < 2 ^ 63 := by
  have low := x.le_toInt
  have high := x.toInt_lt
  constructor
  · rw [Int.le_ediv_iff_mul_le positive]
    omega
  · rw [Int.ediv_lt_iff_lt_mul positive]
    omega

theorem toInt_floorDiv {x y : Int64} (positive : 0 < y) :
    (floorDiv x y).toInt = x.toInt / y.toInt := by
  have above : 0 < y.toInt := by simpa [Int64.lt_iff_toInt_lt] using positive
  have notMinusOne : y ≠ -1 := by
    rintro rfl
    exact absurd positive (by decide)
  obtain ⟨low, high⟩ := ediv_fits x above
  rw [ediv_eq_tdiv_sub above] at low high ⊢
  unfold floorDiv
  simp only [Int64.lt_iff_toInt_lt, Int64.toInt_mod, Int64.toInt_zero]
  split
  · rename_i negative
    rw [if_pos negative] at low high
    rw [Int64.toInt_sub, Int64.toInt_div_of_ne_right x y notMinusOne, Int64.toInt_one,
      bmod_eq_of_fits low high]
  · exact Int64.toInt_div_of_ne_right x y notMinusOne

theorem toInt_ne_of_ne_minValue {x : Int64} (other : x ≠ Int64.minValue) : x.toInt ≠ -2 ^ 63 := by
  rw [← Int64.toInt_minValue]
  exact mt Int64.toInt_inj.mp other

/-- The quotient, for every divisor whose magnitude is a word. It is a word itself unless the least
one is divided by minus one. -/
theorem toInt_euclideanDiv {x y : Int64} (magnitude : y ≠ Int64.minValue) :
    (euclideanDiv x y).toInt = (x.toInt / y.toInt).bmod (2 ^ 64) := by
  unfold euclideanDiv
  split
  · rename_i zero
    rw [zero, Int64.toInt_zero, Int.ediv_zero, Int.zero_bmod]
  · split
    · rename_i positive
      have above : 0 < y.toInt := by simpa [Int64.lt_iff_toInt_lt] using positive
      obtain ⟨low, high⟩ := ediv_fits x above
      rw [toInt_floorDiv positive, bmod_eq_of_fits low high]
    · rename_i nonzero negative
      have below : y.toInt < 0 := by
        have notZero := mt Int64.toInt_inj.mp nonzero
        rw [Int64.lt_iff_toInt_lt] at negative
        rw [Int64.toInt_zero] at notZero negative
        omega
      have least := toInt_ne_of_ne_minValue magnitude
      have bounds := y.le_toInt
      have opposite : (-y).toInt = -y.toInt := by
        rw [Int64.toInt_neg, bmod_eq_of_fits (by omega) (by omega)]
      have positive : 0 < -y := by
        rw [Int64.lt_iff_toInt_lt, opposite, Int64.toInt_zero]
        omega
      rw [Int64.toInt_neg, toInt_floorDiv positive, opposite, Int.ediv_neg, Int.neg_neg]

/-- The least word is its own opposite, so it is divided by as it stands. -/
theorem toInt_euclideanDiv_minValue {x : Int64} (other : x ≠ Int64.minValue) :
    (euclideanDiv x Int64.minValue).toInt = x.toInt / Int64.minValue.toInt := by
  have least := toInt_ne_of_ne_minValue other
  have low := x.le_toInt
  have high := x.toInt_lt
  have quotient : x / Int64.minValue = 0 := by
    rw [← Int64.toInt_inj, Int64.toInt_div_of_ne_right _ _ (by decide), Int64.toInt_minValue,
      Int64.toInt_zero, Int.tdiv_neg, Int.tdiv_eq_ediv, Int.sign_eq_one_of_pos (by decide)]
    split <;> omega
  have remainder : x % Int64.minValue = x := by
    rw [← Int64.toInt_inj, Int64.toInt_mod, Int64.toInt_minValue, Int.tmod_neg, Int.tmod_eq_emod]
    split <;> omega
  have unfolded : euclideanDiv x Int64.minValue = if x < 0 then 1 else 0 := by
    change -floorDiv x Int64.minValue = _
    rw [floorDiv, quotient, remainder]
    split <;> rfl
  rw [unfolded, Int64.toInt_minValue, Int.ediv_neg]
  simp only [Int64.lt_iff_toInt_lt, Int64.toInt_zero]
  split
  · rw [Int64.toInt_one]
    omega
  · rw [Int64.toInt_zero]
    omega

/-- A quotient that a word can hold is computed unless the least word is divided by itself. -/
theorem toInt_euclideanDiv_eq_iff {x y : Int64} (low : -2 ^ 63 ≤ x.toInt / y.toInt)
    (high : x.toInt / y.toInt < 2 ^ 63) :
    (euclideanDiv x y).toInt = x.toInt / y.toInt ↔
      ¬ (x = Int64.minValue ∧ y = Int64.minValue) := by
  by_cases divisor : y = Int64.minValue
  · -- The opposite of the divisor is the divisor, so only the sign of the dividend decides.
    subst divisor
    by_cases dividend : x = Int64.minValue
    · subst dividend
      decide
    · simp only [toInt_euclideanDiv_minValue dividend, dividend, false_and, not_false_eq_true]
  · simp only [toInt_euclideanDiv divisor, bmod_eq_of_fits low high, divisor, and_false,
      not_false_eq_true]

/-- Two literals are divided by the division of words. -/
theorem normalize_div (fuel : Nat) (scope : List Name) (x y : Int64) :
    Term.normalize (fuel + 2) scope (.binop .div (.const (.int x)) (.const (.int y))) =
      .ok (.const (.int (euclideanDiv x y))) :=
  rfl

/-- Division of literals is defined everywhere and gives zero for the divisor zero. Where there is a
quotient and a word can hold it, it is the result, unless the least word is divided by itself. -/
theorem division_is_euclidean (x y : Int64) (fuel : Nat) (scope : List Name) :
    Term.normalize (fuel + 2) scope (.binop .div (.const (.int x)) (.const (.int y))) =
        .ok (.const (.int (euclideanDiv x y))) ∧
      euclideanDiv x 0 = 0 ∧
      ∀ q, IsQuotient x.toInt y.toInt q → -2 ^ 63 ≤ q → q < 2 ^ 63 →
        ((euclideanDiv x y).toInt = q ↔ ¬ (x = Int64.minValue ∧ y = Int64.minValue)) := by
  refine ⟨normalize_div fuel scope x y, rfl, ?_⟩
  intro q quotient low high
  obtain ⟨-, rfl⟩ := isQuotient_iff.mp quotient
  exact toInt_euclideanDiv_eq_iff low high

/-- By the least word any other negative word is divided as it should be. -/
theorem division_is_euclidean_byLeast :
    IsQuotient (-1 : Int64).toInt Int64.minValue.toInt 1 ∧
      (euclideanDiv (-1) Int64.minValue).toInt = 1 := by
  have quotient : IsQuotient (-1 : Int64).toInt Int64.minValue.toInt 1 :=
    ⟨2 ^ 63 - 1, by decide, by decide, by decide⟩
  obtain ⟨-, -, computed⟩ := division_is_euclidean (-1) Int64.minValue 0 []
  exact ⟨quotient, (computed 1 quotient (by decide) (by decide)).mpr (by decide)⟩

/-- The least word divided by itself should be one and is minus one. -/
theorem least_divided_by_itself :
    IsQuotient Int64.minValue.toInt Int64.minValue.toInt 1 ∧
      Term.normalize 2 []
          (.binop .div (.const (.int Int64.minValue)) (.const (.int Int64.minValue))) =
        .ok (.const (.int (-1))) :=
  ⟨⟨0, by decide, by decide, by decide⟩, by rfl⟩

end DepCalc
