import Mathlib.Algebra.Order.Floor.Semiring
import Mathlib.Data.Int.Log
import Mathlib.Data.Rat.Floor
import Mathlib.Tactic.Linarith
import Mathlib.Tactic.Positivity
import Mathlib.Tactic.FieldSimp

/-! # Rounding to a double

A number is rounded to 53 significant bits, ties to even. Only positive numbers well
inside the exponent range are of interest here, so the range has no bounds. The error
is a part in 2⁵³ of the number, and a quotient of two small numbers rounds to
something with the same integer part. -/

namespace RecordNode
namespace Foundation

/-- The nearest integer, and of two the even one. -/
def roundHalfEven (x : ℚ) : ℤ :=
  if x - ⌊x⌋ < 1 / 2 ∨ (x - ⌊x⌋ = 1 / 2 ∧ Even ⌊x⌋) then ⌊x⌋ else ⌊x⌋ + 1

/-- The unit in the last place of a number. -/
def ulp (x : ℚ) : ℚ := 2 ^ (Int.log 2 x - 52)

def double (x : ℚ) : ℚ := roundHalfEven (x / ulp x) * ulp x

theorem roundHalfEven_intCast (n : ℤ) : roundHalfEven n = n := by
  simp [roundHalfEven]

theorem roundHalfEven_error (x : ℚ) : |roundHalfEven x - x| ≤ 1 / 2 := by
  have hlo := Int.floor_le x
  have hhi := Int.lt_floor_add_one x
  unfold roundHalfEven
  split
  case isTrue h =>
    have hle : x - ⌊x⌋ ≤ 1 / 2 := h.elim le_of_lt fun h => h.1.le
    rw [abs_le]
    constructor <;> linarith
  case isFalse h =>
    have hle : 1 / 2 ≤ x - ⌊x⌋ := not_lt.mp fun hlt => h (Or.inl hlt)
    push_cast
    rw [abs_le]
    constructor <;> linarith

theorem ulp_pos (x : ℚ) : 0 < ulp x := zpow_pos (by norm_num) _

theorem ulp_le {x : ℚ} (hx : 0 < x) : ulp x ≤ x / 2 ^ 52 := by
  have hlog : (2 : ℚ) ^ Int.log 2 x ≤ x := by exact_mod_cast Int.zpow_log_le_self (by norm_num) hx
  rw [ulp, zpow_sub₀ (by norm_num)]
  exact div_le_div_of_nonneg_right hlog (by positivity)

theorem double_error {x : ℚ} (hx : 0 < x) : |double x - x| ≤ x / 2 ^ 53 := by
  have hu := ulp_pos x
  have hround := roundHalfEven_error (x / ulp x)
  have heq : double x - x = (roundHalfEven (x / ulp x) - x / ulp x) * ulp x := by
    rw [double, sub_mul, div_mul_cancel₀ _ hu.ne']
  calc |double x - x| = |roundHalfEven (x / ulp x) - x / ulp x| * ulp x := by
        rw [heq, abs_mul, abs_of_pos hu]
    _ ≤ 1 / 2 * (x / 2 ^ 52) := mul_le_mul hround (ulp_le hx) hu.le (by norm_num)
    _ = x / 2 ^ 53 := by ring

/-- A number of at most 53 bits is a double. -/
theorem double_natCast {n : ℕ} (hn : n < 2 ^ 53) : double n = n := by
  by_cases h0 : n = 0
  · simp [h0, double, roundHalfEven]
  have hlog : Int.log 2 (n : ℚ) = Nat.log 2 n := Int.log_natCast 2 n
  have hle : Nat.log 2 n ≤ 52 := Nat.le_of_lt_succ (Nat.log_lt_of_lt_pow h0 hn)
  -- Over its unit in the last place the number is an integer.
  have hint : (n : ℚ) / ulp n = ((n * 2 ^ (52 - Nat.log 2 n) : ℕ) : ℤ) := by
    have hexp : (Nat.log 2 n : ℤ) - 52 = -((52 - Nat.log 2 n : ℕ) : ℤ) := by omega
    rw [ulp, hlog, hexp, zpow_neg, div_inv_eq_mul, zpow_natCast]
    push_cast
    rfl
  rw [double, hint, roundHalfEven_intCast, ← hint, div_mul_cancel₀ _ (ulp_pos _).ne']

/-- The integer part of a rounded quotient is that of the quotient. -/
theorem floor_double_div {a b : ℕ} (hb : 0 < b) (hab : a * b < 2 ^ 53) : ⌊double ((a : ℚ) / b)⌋₊ = a / b := by
  have hb' : (0 : ℚ) < b := by exact_mod_cast hb
  have hsplit : (b : ℚ) * (a / b : ℕ) + (a % b : ℕ) = a := by exact_mod_cast Nat.div_add_mod a b
  by_cases hmod : a % b = 0
  · have hq : (a : ℚ) / b = (a / b : ℕ) := by
      rw [div_eq_iff hb'.ne', ← hsplit, hmod]
      push_cast
      ring
    have hlt : a / b < 2 ^ 53 := (Nat.div_le_self a b).trans_lt ((Nat.le_mul_of_pos_right a hb).trans_lt hab)
    rw [hq, double_natCast hlt, Nat.floor_natCast]
  · -- The quotient is a `b`-th away from the integers at both sides, and the error is less.
    have hpos : 0 < a := Nat.pos_of_ne_zero fun h => hmod (by simp [h])
    have hpos' : (0 : ℚ) < a := by exact_mod_cast hpos
    have herror := double_error (div_pos hpos' hb')
    have hsmall : (a : ℚ) / b / 2 ^ 53 < 1 / b := by
      have hab' : (a : ℚ) * b < 2 ^ 53 := by exact_mod_cast hab
      have hone : (1 : ℚ) ≤ b := by exact_mod_cast hb
      have ha : (a : ℚ) < 2 ^ 53 := (le_mul_of_one_le_right hpos'.le hone).trans_lt hab'
      rw [div_right_comm, div_lt_div_iff_of_pos_right hb', div_lt_one (by norm_num)]
      exact ha
    have hmodlt : ((a % b : ℕ) : ℚ) + 1 ≤ b := by exact_mod_cast Nat.mod_lt a hb
    have hmodpos : (1 : ℚ) ≤ ((a % b : ℕ) : ℚ) := by exact_mod_cast Nat.pos_of_ne_zero hmod
    have hq : (a : ℚ) / b = (a / b : ℕ) + (a % b : ℕ) / b := by
      rw [div_eq_iff hb'.ne', add_mul, div_mul_cancel₀ _ hb'.ne', mul_comm]
      exact hsplit.symm
    have hlow : 1 / (b : ℚ) ≤ (a % b : ℕ) / b := div_le_div_of_nonneg_right hmodpos hb'.le
    have hhigh : ((a % b : ℕ) : ℚ) / b + 1 / b ≤ 1 := by
      rw [← add_div, div_le_one hb']
      exact hmodlt
    rw [abs_le] at herror
    refine (Nat.floor_eq_iff ?_).mpr ⟨?_, ?_⟩
    · have : (0 : ℚ) ≤ ((a / b : ℕ) : ℚ) := Nat.cast_nonneg _
      linarith
    · linarith
    · linarith

end Foundation
end RecordNode
