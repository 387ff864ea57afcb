import Mathlib.Algebra.Order.Floor.Ring
import Mathlib.Data.Rat.Floor
import Mathlib.Tactic.Linarith
import Mathlib.Tactic.NormNum
import Mathlib.Tactic.Positivity

/-!
# Backoff with full jitter

`backoff.h` and `backoff.cc`. The ceiling doubles with each attempt until it reaches the cap, and
the delay is a random part of the ceiling. `std::pow(2.0, attempt)` and its product with `base` are
exact, or infinite and then above the cap. The product with the random number is rounded, which is
a parameter here : any rounding whose relative error is at most `2⁻⁵³` (`Rounds`). The delay is
below the ceiling with each of them (`fullJitterBackoff_lt`), since the random number is clamped to
the largest `double` below 1.
-/

namespace Ridgeline

/-- `BackoffPolicy`, in milliseconds. -/
structure BackoffPolicy where
  base : ℕ := 200
  cap : ℕ := 30000
  deriving DecidableEq, Repr

/-- `BackoffCeiling`. -/
def backoffCeiling (attempt : UInt32) (policy : BackoffPolicy) : ℕ :=
  let ceiling := policy.base * 2 ^ attempt.toNat
  if ceiling ≥ policy.cap then policy.cap else ceiling

/-- Rounding to the nearest `double`, in its normal range. -/
def Rounds (fl : ℚ → ℚ) : Prop :=
  ∀ x, |fl x - x| ≤ |x| / 2 ^ 53

/-- `std::nextafter(1.0, 0.0)`. -/
def belowOne : ℚ :=
  1 - 1 / 2 ^ 53

/-- `FullJitterBackoff`. The cast to an integer drops the fraction. -/
def fullJitterBackoff (fl : ℚ → ℚ) (attempt : UInt32) (policy : BackoffPolicy) (u : ℚ) : ℕ :=
  let clamped := max 0 (min u belowOne)
  ⌊fl (clamped * backoffCeiling attempt policy)⌋.toNat

variable {fl : ℚ → ℚ} {policy : BackoffPolicy}

theorem backoffCeiling_eq (attempt : UInt32) (policy : BackoffPolicy) :
    backoffCeiling attempt policy = min policy.cap (policy.base * 2 ^ attempt.toNat) := by
  simp only [backoffCeiling]
  split_ifs with h
  · exact (min_eq_left h).symm
  · exact (min_eq_right (not_le.1 h).le).symm

/-- A clamped part of a positive number is below it, whatever the rounding. -/
theorem Rounds.mul_lt (hfl : Rounds fl) (u : ℚ) {c : ℚ} (hc : 0 < c) :
    fl (max 0 (min u belowOne) * c) < c := by
  have hlow : 0 ≤ max 0 (min u belowOne) := le_max_left _ _
  have hhigh : max 0 (min u belowOne) ≤ belowOne :=
    max_le (by norm_num [belowOne]) (min_le_right _ _)
  have hx : 0 ≤ max 0 (min u belowOne) * c := mul_nonneg hlow hc.le
  have herr := (abs_le.1 (hfl (max 0 (min u belowOne) * c))).2
  rw [abs_of_nonneg hx] at herr
  calc fl (max 0 (min u belowOne) * c)
      ≤ max 0 (min u belowOne) * c * (1 + 1 / 2 ^ 53) := by linarith
    _ ≤ belowOne * c * (1 + 1 / 2 ^ 53) := by gcongr
    _ = c - c / 2 ^ 106 := by
      rw [belowOne]
      ring
    _ < c := by
      have : 0 < c / 2 ^ 106 := by positivity
      linarith

/-- The delay is below the ceiling. -/
theorem fullJitterBackoff_lt (hfl : Rounds fl) (attempt : UInt32) (u : ℚ)
    (hpos : 0 < backoffCeiling attempt policy) :
    fullJitterBackoff fl attempt policy u < backoffCeiling attempt policy := by
  have hc : (0 : ℚ) < backoffCeiling attempt policy := by exact_mod_cast hpos
  have hlt : ⌊fl (max 0 (min u belowOne) * backoffCeiling attempt policy)⌋ <
      (backoffCeiling attempt policy : ℤ) := by
    rw [Int.floor_lt]
    exact_mod_cast hfl.mul_lt u hc
  simp only [fullJitterBackoff]
  omega

end Ridgeline
