import Mathlib.Tactic
import Mathlib.Data.Int.Log

/-!
# `Odss.Lib.FloatRound`: rounding to a number of binary digits

`floatRound bits` is the rounding of an operation on floating point numbers with `bits` binary
digits: the nearest such number, and the even one of two. The range of the exponent is not bounded.

* `floatRound_le`: the result is not larger by more than one part in `2 ^ bits`.
* `natCast_le_floatRound`: it does not go below a whole number that the format has.
-/

set_option linter.all false

namespace Odss.Lib

/-- The nearest integer, and the even one of two. -/
def halfEven (x : ℚ) : ℤ :=
  if Int.fract x < 1 / 2 then ⌊x⌋
  else if 1 / 2 < Int.fract x then ⌊x⌋ + 1
  else if ⌊x⌋ % 2 = 0 then ⌊x⌋ else ⌊x⌋ + 1

theorem halfEven_le (x : ℚ) : (halfEven x : ℚ) ≤ x + 1 / 2 := by
  have hfloor : (⌊x⌋ : ℚ) + Int.fract x = x := Int.floor_add_fract x
  have hfract : 0 ≤ Int.fract x := Int.fract_nonneg x
  unfold halfEven
  split_ifs with hlow hhigh heven
  · linarith
  · push_cast
    linarith
  · linarith
  · push_cast
    linarith

theorem le_halfEven {x : ℚ} {k : ℤ} (h : (k : ℚ) ≤ x) : k ≤ halfEven x := by
  have hk : k ≤ ⌊x⌋ := Int.le_floor.mpr h
  unfold halfEven
  split_ifs <;> omega

/-- The distance between the numbers with `bits` digits at `x`. -/
def ulp (bits : ℕ) (x : ℚ) : ℚ := (2 : ℚ) ^ (Int.log 2 x + 1 - bits)

theorem ulp_pos (bits : ℕ) (x : ℚ) : 0 < ulp bits x := zpow_pos two_pos _

/-- The nearest number with `bits` binary digits. -/
def floatRound (bits : ℕ) (x : ℚ) : ℚ := if x ≤ 0 then 0 else halfEven (x / ulp bits x) * ulp bits x

theorem ulp_le {bits : ℕ} {x : ℚ} (hx : 0 < x) : ulp bits x ≤ x * 2 / 2 ^ bits := by
  have hlog : (2 : ℚ) ^ Int.log 2 x ≤ x := by
    have h := Int.zpow_log_le_self (b := 2) (by decide) hx
    exact_mod_cast h
  have hsplit : ulp bits x = (2 : ℚ) ^ Int.log 2 x * 2 / 2 ^ bits := by
    unfold ulp
    rw [zpow_sub₀ two_ne_zero, zpow_add_one₀ two_ne_zero, zpow_natCast]
  rw [hsplit]
  gcongr

/-- The error is at most one part in `2 ^ bits`. -/
theorem floatRound_le {bits : ℕ} {x : ℚ} (hx : 0 ≤ x) : floatRound bits x ≤ x * (1 + 1 / 2 ^ bits) := by
  unfold floatRound
  split_ifs with hzero
  · positivity
  · have hpos : 0 < x := not_le.mp hzero
    have hulp := ulp_pos bits x
    calc (halfEven (x / ulp bits x) : ℚ) * ulp bits x
        ≤ (x / ulp bits x + 1 / 2) * ulp bits x := by
          gcongr
          exact halfEven_le _
      _ = x + ulp bits x / 2 := by
          field_simp
      _ ≤ x + x * 2 / 2 ^ bits / 2 := by
          gcongr
          exact ulp_le hpos
      _ = x * (1 + 1 / 2 ^ bits) := by
          ring

theorem floatRound_nonneg (bits : ℕ) (x : ℚ) : 0 ≤ floatRound bits x := by
  unfold floatRound
  split_ifs with hzero
  · exact le_refl 0
  · have hulp := ulp_pos bits x
    have hnonneg : 0 ≤ halfEven (x / ulp bits x) := by
      refine le_halfEven ?_
      rw [Int.cast_zero]
      exact div_nonneg (le_of_lt (not_le.mp hzero)) (le_of_lt hulp)
    have hcast : (0 : ℚ) ≤ halfEven (x / ulp bits x) := by exact_mod_cast hnonneg
    positivity

/-- A whole number below `2 ^ bits` has `bits` digits, so the result stays above it. -/
theorem natCast_le_floatRound {bits k : ℕ} {x : ℚ} (hk : (k : ℚ) ≤ x) (hx : x < 2 ^ bits) :
    (k : ℚ) ≤ floatRound bits x := by
  unfold floatRound
  split_ifs with hzero
  · exact hk.trans hzero
  · have hpos : 0 < x := not_le.mp hzero
    have hulp := ulp_pos bits x
    have hlog : Int.log 2 x < bits := by
      refine (Int.lt_zpow_iff_log_lt (b := 2) (by decide) hpos).mp ?_
      rw [zpow_natCast]
      exact_mod_cast hx
    -- The distance divides one.
    obtain ⟨m, hm⟩ : ∃ m : ℕ, Int.log 2 x + 1 - bits = -(m : ℤ) :=
      ⟨(bits - (Int.log 2 x + 1)).toNat, by omega⟩
    have hunit : ulp bits x = (2 ^ m : ℚ)⁻¹ := by
      unfold ulp
      rw [hm, zpow_neg, zpow_natCast]
    have hle : ((k * 2 ^ m : ℕ) : ℤ) ≤ halfEven (x / ulp bits x) := by
      refine le_halfEven ?_
      rw [hunit, div_inv_eq_mul]
      push_cast
      gcongr
    have hcast : ((k * 2 ^ m : ℕ) : ℚ) ≤ halfEven (x / ulp bits x) := by exact_mod_cast hle
    calc (k : ℚ) = ((k * 2 ^ m : ℕ) : ℚ) * ulp bits x := by
          rw [hunit]
          push_cast
          field_simp
      _ ≤ halfEven (x / ulp bits x) * ulp bits x := by
          gcongr

end Odss.Lib
