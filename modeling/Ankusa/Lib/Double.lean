import Mathlib.Data.Int.Log
import Mathlib.Data.Rat.Floor
import Mathlib.Tactic.FieldSimp
import Mathlib.Tactic.Linarith
import Mathlib.Tactic.Positivity

set_option autoImplicit false

/-! # Doubles

The numbers with a significand of 53 bits, over the rationals and without a limit on the exponent:
`round x` is the one nearest to `x`. Integers below 2^53 are kept as they are (`round_intCast`), and
a quotient of such integers comes out so close that its ceiling is the exact one
(`ceil_round_div`). -/

namespace Double

/-- The nearest integer, and of two the even one. -/
def roundEven (x : ℚ) : Int :=
  if x - ⌊x⌋ < 1 / 2 ∨ x - ⌊x⌋ = 1 / 2 ∧ ⌊x⌋ % 2 = 0 then ⌊x⌋ else ⌊x⌋ + 1

/-- How far apart the numbers with 53 bits are around `x`. -/
def ulp (x : ℚ) : ℚ := 2 ^ (Int.log 2 |x| - 52)

/-- The number with 53 bits that is nearest to `x`. -/
def round (x : ℚ) : ℚ := roundEven (x / ulp x) * ulp x

variable {x : ℚ} {n : Int}

theorem ulp_pos (x : ℚ) : 0 < ulp x := zpow_pos two_pos _

@[simp] theorem roundEven_intCast (n : Int) : roundEven n = n := by
  simp [roundEven]

theorem abs_roundEven_sub_le (x : ℚ) : |roundEven x - x| ≤ 1 / 2 := by
  have hle := Int.floor_le x
  have hlt := Int.lt_floor_add_one x
  unfold roundEven
  split_ifs with hdown
  · rw [abs_le]
    constructor <;> rcases hdown with hdown | ⟨hdown, -⟩ <;> linarith
  · have hhalf : 1 / 2 ≤ x - ⌊x⌋ := not_lt.1 fun hlt => hdown (.inl hlt)
    push_cast
    rw [abs_le]
    constructor <;> linarith

/-- The error is at most half an `ulp`, which is small beside `x`. -/
theorem abs_round_sub_le (x : ℚ) : |round x - x| ≤ |x| / 2 ^ 53 := by
  rcases eq_or_ne x 0 with rfl | hx
  · simp [round, roundEven]
  have hpos := ulp_pos x
  have hulp : ulp x ≤ |x| / 2 ^ 52 := by
    have hlog := Int.zpow_log_le_self (b := 2) (R := ℚ) (by norm_num) (abs_pos.2 hx)
    rw [ulp, zpow_sub₀ two_ne_zero, le_div_iff₀ (by positivity)]
    calc (2 : ℚ) ^ Int.log 2 |x| / 2 ^ (52 : Int) * 2 ^ 52 = 2 ^ Int.log 2 |x| := by
          rw [show ((2 : ℚ) ^ (52 : Int)) =
            2 ^ 52 from by norm_cast, div_mul_cancel₀ _ (by positivity)]
      _ ≤ |x| := by exact_mod_cast hlog
  have herr : round x - x = (roundEven (x / ulp x) - x / ulp x) * ulp x := by
    rw [round, sub_mul, div_mul_cancel₀ x hpos.ne']
  calc |round x - x| = |roundEven (x / ulp x) - x / ulp x| *
    ulp x := by rw [herr, abs_mul, abs_of_pos hpos]
    _ ≤ 1 / 2 * (|x| / 2 ^ 52) :=
        mul_le_mul (abs_roundEven_sub_le _) hulp hpos.le (by norm_num)
    _ = |x| / 2 ^ 53 := by ring

/-- An integer with at most 53 bits is a double. -/
theorem round_intCast (h : |n| < 2 ^ 53) : round n = n := by
  rcases eq_or_ne n 0 with rfl | hn
  · simp [round, roundEven]
  have hlog : Int.log 2 |(n : ℚ)| ≤ 52 := by
    have hle := Int.zpow_log_le_self (b := 2) (R :=
      ℚ) (by norm_num) (abs_pos.2 (Int.cast_ne_zero.2 hn))
    have hlt : ((2 : Nat) : ℚ) ^ Int.log 2 |(n : ℚ)| < ((2 : Nat) : ℚ) ^ (53 : Int) :=
      hle.trans_lt (by exact_mod_cast h)
    have := (zpow_lt_zpow_iff_right₀ (by norm_num)).1 hlt
    omega
  obtain ⟨k, hk⟩ : ∃ k : Nat, 52 - Int.log 2 |(n : ℚ)| = k := Int.eq_ofNat_of_zero_le (by omega)
  have hulp : ulp n = (2 ^ k)⁻¹ := by
    rw [ulp, ← neg_sub, hk, zpow_neg, zpow_natCast]
  have hscaled : (n : ℚ) / ulp n = ((n * 2 ^ k : Int) : ℚ) := by
    rw [hulp, div_inv_eq_mul]
    push_cast
    rfl
  rw [round, hscaled, roundEven_intCast, hulp]
  push_cast
  field_simp

/-- Rounding a quotient of two integers does not move it over an integer. -/
theorem ceil_round_div {k : Nat} (hk : 0 < k) (hn : 0 ≤ n) (h : n < 2 ^ 53) :
    ⌈round (n / k)⌉ = (n + k - 1) / k := by
  have hk' : (0 : ℚ) < k := by exact_mod_cast hk
  generalize hm : (n + k - 1) / k = m
  have hmul := Int.mul_ediv_add_emod (n + k - 1) k
  have hrest := Int.emod_lt_of_pos (n + k - 1) (Int.natCast_pos.2 hk)
  have hrest' := Int.emod_nonneg (n + k - 1) (Int.natCast_pos.2 hk).ne'
  rw [hm] at hmul
  have hclose : |round (n / k) - n / k| < 1 / k := by
    refine (abs_round_sub_le _).trans_lt ?_
    have hlt : (n : ℚ) < 2 ^ 53 := by exact_mod_cast h
    have hn' : (0 : ℚ) ≤ n := by exact_mod_cast hn
    rw [abs_of_nonneg (by positivity), div_div, div_lt_div_iff₀ (by positivity) hk']
    nlinarith
  rw [abs_lt] at hclose
  have hlow : ((k * (m - 1) + 1 : Int) : ℚ) ≤ n := by
    exact_mod_cast (by linarith : (k * (m - 1) + 1 : Int) ≤ n)
  push_cast at hlow
  have hlow' : (m : ℚ) - 1 + 1 / k ≤ n / k := by
    rw [le_div_iff₀ hk']
    field_simp
    linarith
  rw [Int.ceil_eq_iff]
  refine ⟨by linarith, ?_⟩
  rcases eq_or_ne n (k * m) with heq | hne
  · -- the quotient is an integer
    have hexact : (n : ℚ) / k = (m : Int) := by
      rw [heq]
      push_cast
      field_simp
    have hm53 : |m| < 2 ^ 53 := by
      have : (1 : Int) ≤ k := by exact_mod_cast hk
      rw [abs_lt]
      constructor <;> nlinarith
    rw [hexact, round_intCast hm53]
  · have hhigh : ((n + 1 : Int) : ℚ) ≤ ((k * m : Int) : ℚ) := by
      exact_mod_cast (by
        have : n ≤ k * m := by linarith
        omega : n + 1 ≤ k * m)
    push_cast at hhigh
    have hhigh' : (n : ℚ) / k + 1 / k ≤ m := by
      rw [← add_div, div_le_iff₀ hk']
      linarith
    linarith

end Double
