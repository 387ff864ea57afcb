import Mathlib.Algebra.Order.Field.Basic
import Mathlib.Algebra.Order.Floor.Ring
import Mathlib.Tactic.Linarith
import Mathlib.Tactic.Ring

/-!
# Interpolation

A weighted mean of two values is between them (`le_lerp`, `lerp_le`), and rounding to the nearest
integer does not leave an interval with integer ends (`le_roundAway`, `roundAway_le`). A sequence
is read between its places by the mean of its two neighbours (`interpolate`), and beyond its ends
by repeating the values there (`edge`).
-/

namespace Ridgeline

namespace Interpolation

variable {K : Type*} [Field K]

/-- The mean of `a` and `b`, where `b` has the weight `w`. -/
def lerp (w a b : K) : K :=
  (1 - w) * a + w * b

@[simp] theorem lerp_self (w a : K) : lerp w a a = a := by
  unfold lerp
  ring

@[simp] theorem lerp_zero (a b : K) : lerp 0 a b = a := by
  simp [lerp]

/-- The place of a sequence of `n` values to be read for `i`. -/
def edge (n i : ℤ) : ℤ :=
  max 0 (min i (n - 1))

theorem edge_bounds {n : ℤ} (hn : 1 ≤ n) (i : ℤ) : 0 ≤ edge n i ∧ edge n i ≤ n - 1 := by
  unfold edge
  omega

theorem edge_of_mem {n i : ℤ} (h0 : 0 ≤ i) (hn : i < n) : edge n i = i := by
  unfold edge
  omega

theorem edge_of_nonpos {n i : ℤ} (h0 : i ≤ 0) : edge n i = 0 := by
  unfold edge
  omega

variable [LinearOrder K]

section Floor

variable [FloorRing K]

/-- The nearest integer, and of two the one farther from zero. -/
def roundAway (x : K) : ℤ :=
  if x < 0 then ⌈x - 0.5⌉ else ⌊x + 0.5⌋

/-- The sequence `g` at `x`, between two places. -/
def interpolate (g : ℤ → K) (x : K) : K :=
  lerp (Int.fract x) (g ⌊x⌋) (g (⌊x⌋ + 1))

end Floor

variable [IsStrictOrderedRing K] {w a b m : K}

theorem le_lerp (hw0 : 0 ≤ w) (hw1 : w ≤ 1) (ha : m ≤ a) (hb : m ≤ b) : m ≤ lerp w a b := by
  have ha' := mul_le_mul_of_nonneg_left ha (sub_nonneg.2 hw1)
  have hb' := mul_le_mul_of_nonneg_left hb hw0
  calc m = (1 - w) * m + w * m := by ring
    _ ≤ (1 - w) * a + w * b := add_le_add ha' hb'

theorem lerp_le (hw0 : 0 ≤ w) (hw1 : w ≤ 1) (ha : a ≤ m) (hb : b ≤ m) : lerp w a b ≤ m := by
  have ha' := mul_le_mul_of_nonneg_left ha (sub_nonneg.2 hw1)
  have hb' := mul_le_mul_of_nonneg_left hb hw0
  calc (1 - w) * a + w * b ≤ (1 - w) * m + w * m := add_le_add ha' hb'
    _ = m := by ring

variable [FloorRing K]

theorem le_roundAway {x : K} {k : ℤ} (h : (k : K) ≤ x) : k ≤ roundAway x := by
  unfold roundAway
  split_ifs
  · rw [Int.le_ceil_iff]
    linarith
  · rw [Int.le_floor]
    linarith

theorem roundAway_le {x : K} {k : ℤ} (h : x ≤ k) : roundAway x ≤ k := by
  unfold roundAway
  split_ifs
  · rw [Int.ceil_le]
    linarith
  · rw [← Int.lt_add_one_iff, Int.floor_lt]
    push_cast
    linarith

@[simp] theorem roundAway_intCast (k : ℤ) : roundAway (k : K) = k :=
  le_antisymm (roundAway_le le_rfl) (le_roundAway le_rfl)

@[simp] theorem interpolate_intCast (g : ℤ → K) (k : ℤ) : interpolate g (k : K) = g k := by
  simp [interpolate]

end Interpolation

end Ridgeline
