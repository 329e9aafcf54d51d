import Mathlib.Data.Int.Log
import Mathlib.Data.Rat.Floor
import Mathlib.Tactic.FieldSimp
import Mathlib.Tactic.Linarith

/-! Binary floating-point numbers of some precision as rational numbers. Only the rounding of
positive results is here, away from underflow and overflow. -/
namespace Vbe.Library.Floats

/-- The nearest integer, the even one of two that are equally near. -/
def nearestInt (q : ℚ) : ℤ :=
  if q - ⌊q⌋ < 1 / 2 then ⌊q⌋
  else if 1 / 2 < q - ⌊q⌋ then ⌊q⌋ + 1
  else if 2 ∣ ⌊q⌋ then ⌊q⌋ else ⌊q⌋ + 1

/-- The weight of the last bit of numbers as large as `q`. -/
def lastBit (precision : ℕ) (q : ℚ) : ℚ := 2 ^ (Int.log 2 q + 1 - precision)

/-- The number of the given precision that is nearest to a rational number. -/
def nearest (precision : ℕ) (q : ℚ) : ℚ := nearestInt (q / lastBit precision q) * lastBit precision q

theorem nearestInt_error (q : ℚ) : |nearestInt q - q| ≤ 1 / 2 := by
  have low := Int.floor_le q
  have high := Int.lt_floor_add_one q
  rw [nearestInt,abs_le]
  split
  · constructor
    · linarith
    · linarith
  · split
    · push_cast
      constructor
      · linarith
      · linarith
    · split
      · constructor
        · linarith
        · linarith
      · push_cast
        constructor
        · linarith
        · linarith

theorem nearestInt_intCast (n : ℤ) : nearestInt n = n := by
  simp [nearestInt]

theorem lastBit_pos (precision : ℕ) (q : ℚ) : 0 < lastBit precision q := zpow_pos (by norm_num) _

/-- The last bit weighs little against the number. -/
theorem lastBit_le {q : ℚ} (positive : 0 < q) (precision : ℕ) : lastBit precision q * 2 ^ precision ≤ 2 * q := by
  have leading := Int.zpow_log_le_self (b := 2) (by norm_num) positive
  have weight : lastBit precision q * 2 ^ precision = 2 * 2 ^ Int.log 2 q := by
    rw [lastBit,← zpow_natCast,← zpow_add₀ (by norm_num),sub_add_cancel,zpow_add₀ (by norm_num),zpow_one]
    ring
  push_cast at leading
  linarith

theorem nearest_error {q : ℚ} (positive : 0 < q) (precision : ℕ) : |nearest precision q - q| * 2 ^ precision ≤ q := by
  have bit := lastBit_pos precision q
  have scaled : nearest precision q - q = (nearestInt (q / lastBit precision q) - q / lastBit precision q) * lastBit precision q := by
    rw [nearest]
    field_simp
  have error := nearestInt_error (q / lastBit precision q)
  have small : |nearest precision q - q| ≤ 1 / 2 * lastBit precision q := by
    rw [scaled,abs_mul,abs_of_pos bit]
    exact mul_le_mul_of_nonneg_right error bit.le
  have weight := lastBit_le positive precision
  have power : (0 : ℚ) < 2 ^ precision := by positivity
  nlinarith

/-- Integers of few digits are not rounded. -/
theorem nearest_natCast {n precision : ℕ} (small : n < 2 ^ precision) : nearest precision (n : ℚ) = n := by
  rcases Nat.eq_zero_or_pos n with rfl | positive
  · rw [nearest,Nat.cast_zero,zero_div]
    have zero := nearestInt_intCast 0
    rw [Int.cast_zero] at zero
    rw [zero,Int.cast_zero,zero_mul]
  · have log : Int.log 2 (n : ℚ) = Nat.log 2 n := Int.log_natCast (R := ℚ) 2 n
    have digits : Nat.log 2 n < precision := Nat.log_lt_of_lt_pow positive.ne' small
    obtain ⟨k,width⟩ := Nat.exists_eq_add_of_lt digits
    have bit : lastBit precision n = ((2 : ℚ) ^ k)⁻¹ := by
      have exponent : (Nat.log 2 n : ℤ) + 1 - precision = -(k : ℤ) := by
        rw [width]
        push_cast
        ring
      rw [lastBit,log,exponent,zpow_neg,zpow_natCast]
    have integer : (n : ℚ) / ((2 : ℚ) ^ k)⁻¹ = ((n * 2 ^ k : ℕ) : ℤ) := by
      push_cast
      field_simp
    rw [nearest,bit,integer,nearestInt_intCast]
    push_cast
    field_simp

/-- A rounded quotient is nearer to the quotient than any other fraction of the divisor. -/
theorem nearest_div_error {a b precision : ℕ} (small : a < 2 ^ precision) (some : 0 < a) (positive : 0 < b) :
    |nearest precision ((a : ℚ) / b) - a / b| * b < 1 := by
  have divisor : (0 : ℚ) < b := by exact_mod_cast positive
  have quotient : (0 : ℚ) < a / b := div_pos (by exact_mod_cast some) divisor
  have error := nearest_error quotient precision
  have whole : (a : ℚ) / b * b = a := div_mul_cancel₀ _ divisor.ne'
  have bound : (a : ℚ) < 2 ^ precision := by exact_mod_cast small
  have power : (0 : ℚ) < 2 ^ precision := by positivity
  have scaled : |nearest precision ((a : ℚ) / b) - a / b| * b * 2 ^ precision < 1 * 2 ^ precision := by nlinarith
  exact lt_of_mul_lt_mul_right scaled power.le

/-- The ceiling of a rounded quotient is that of the quotient. -/
theorem ceil_nearest_div {a b precision : ℕ} (small : a < 2 ^ precision) (positive : 0 < b) :
    ⌈nearest precision ((a : ℚ) / b)⌉ = ((a + b - 1) / b : ℕ) := by
  have divisor : (0 : ℚ) < b := by exact_mod_cast positive
  obtain ⟨n,count⟩ : ∃ n, n = (a + b - 1) / b := ⟨_,rfl⟩
  have upper : a ≤ n * b := by
    have := Nat.lt_div_mul_add positive (a := a + b - 1)
    rw [← count] at this
    omega
  have lower : n * b < a + b := by
    have := Nat.div_mul_le_self (a + b - 1) b
    rw [← count] at this
    omega
  rw [← count]
  rcases Nat.eq_or_lt_of_le upper with exact' | inexact
  · have integer : (a : ℚ) / b = n := by
      rw [exact',Nat.cast_mul]
      exact mul_div_cancel_right₀ _ divisor.ne'
    have digits : n < 2 ^ precision := by
      have := Nat.le_mul_of_pos_right n positive
      omega
    rw [integer,nearest_natCast digits]
    exact Int.ceil_natCast n
  · have some : 0 < a := by
      rcases Nat.eq_zero_or_pos a with rfl | some
      · have := Nat.le_mul_of_pos_right n positive
        have zero : n = 0 := by
          by_contra nonzero
          have := Nat.le_mul_of_pos_left b (Nat.pos_of_ne_zero nonzero)
          omega
        simp [zero] at inexact
      · exact some
    have error := nearest_div_error small some positive
    obtain ⟨below,above⟩ := abs_lt.mp (show |nearest precision ((a : ℚ) / b) - a / b| < 1 / b by
      rwa [lt_div_iff₀ divisor])
    have right : (a : ℚ) / b + 1 / b ≤ n := by
      rw [← add_div,div_le_iff₀ divisor]
      exact_mod_cast inexact
    have left : (n : ℚ) - 1 + 1 / b ≤ a / b := by
      rw [← le_sub_iff_add_le,← sub_div,le_div_iff₀ divisor]
      have less : (n : ℚ) * b + 1 ≤ a + b := by exact_mod_cast lower
      linarith
    rw [Int.ceil_eq_iff]
    push_cast
    constructor
    · linarith
    · linarith

end Vbe.Library.Floats
