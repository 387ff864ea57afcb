import Mathlib.Data.Nat.Bitwise
import Mathlib.Data.Nat.ModEq

/-!
# Indices that wrap by a mask

Indices into an array whose size is a power of two, as 64-bit words. Counting on is
`(i + 1) & mask` (`Capacity.next`), which is the count modulo the size (`Capacity.next_mod`),
and the distance of two indices is `(i - j) & mask` (`Capacity.distance`), which is the
distance of the counts as long as that is below the size (`Capacity.distance_mod`).
-/

namespace Ridgeline

/-- A number with no bit in common with its predecessor is a power of two. -/
theorem eq_two_pow_log2 {n : ℕ} (hn : n ≠ 0) (h : n &&& (n - 1) = 0) : n = 2 ^ n.log2 := by
  have hle : 2 ^ n.log2 ≤ n := Nat.log2_self_le hn
  have hlt : n < 2 ^ (n.log2 + 1) := Nat.lt_log2_self
  by_contra hne
  -- both numbers have the highest bit
  have hbit : n.testBit n.log2 = true := Nat.testBit_of_two_pow_le_and_two_pow_add_one_gt hle hlt
  have hbit' : (n - 1).testBit n.log2 = true :=
    Nat.testBit_of_two_pow_le_and_two_pow_add_one_gt (by omega) (by omega)
  have := congrArg (Nat.testBit · n.log2) h
  simp [Nat.testBit_and, hbit, hbit'] at this

/-- The size of the array, with the checks made of it when it is compiled. -/
structure Capacity where
  val : ℕ
  two_le : 2 ≤ val
  and_pred : val &&& (val - 1) = 0
  lt : val < 2 ^ 64

namespace Capacity

variable (C : Capacity)

/-- The mask of an index. -/
def mask : ℕ :=
  C.val - 1

/-- `(i + 1) & mask`. -/
def next (i : ℕ) : ℕ :=
  (i + 1) % 2 ^ 64 &&& C.mask

/-- `(i - j) & mask`. -/
def distance (i j : ℕ) : ℕ :=
  (i + 2 ^ 64 - j) % 2 ^ 64 &&& C.mask

theorem pos : 0 < C.val :=
  Nat.lt_of_lt_of_le Nat.two_pos C.two_le

theorem eq_two_pow : C.val = 2 ^ C.val.log2 :=
  eq_two_pow_log2 C.pos.ne' C.and_pred

theorem and_mask (i : ℕ) : i &&& C.mask = i % C.val := by
  rw [mask, C.eq_two_pow, Nat.and_two_pow_sub_one_eq_mod]

theorem dvd_two_pow : C.val ∣ 2 ^ 64 := by
  rw [C.eq_two_pow]
  exact Nat.pow_dvd_pow 2 ((Nat.log2_lt C.pos.ne').2 C.lt).le

/-- Counting on from an index is the index of the next count. -/
theorem next_mod (m : ℕ) : C.next (m % C.val) = (m + 1) % C.val := by
  rw [next, and_mask, Nat.mod_mod_of_dvd _ C.dvd_two_pow, Nat.mod_add_mod]

/-- The distance of two indices is the distance of the counts, if that is below the size. -/
theorem distance_mod {m n : ℕ} (hle : n ≤ m) (hlt : m < n + C.val) :
    C.distance (m % C.val) (n % C.val) = m - n := by
  obtain ⟨d, rfl⟩ := Nat.exists_eq_add_of_le hle
  obtain ⟨q, hq⟩ := C.dvd_two_pow
  have hn := Nat.mod_lt n C.pos
  have hC := C.lt
  have hd : d < C.val := by omega
  rw [distance, and_mask, Nat.mod_mod_of_dvd _ C.dvd_two_pow, Nat.add_sub_cancel_left,
    ← Nat.mod_add_mod]
  by_cases hwrap : n % C.val + d < C.val
  · have hrest : n % C.val + d + 2 ^ 64 - n % C.val = d + 2 ^ 64 := by omega
    rw [Nat.mod_eq_of_lt hwrap, hrest, hq, Nat.add_mul_mod_self_left, Nat.mod_eq_of_lt hd]
  · have hsum : (n % C.val + d) % C.val = n % C.val + d - C.val := by
      rw [Nat.mod_eq_sub_mod (by omega), Nat.mod_eq_of_lt (by omega)]
    have hrest : n % C.val + d - C.val + 2 ^ 64 - n % C.val + C.val = d + 2 ^ 64 := by omega
    rw [hsum, ← Nat.add_mod_right, hrest, hq, Nat.add_mul_mod_self_left, Nat.mod_eq_of_lt hd]

/-- Counts that are less than the size apart have different indices. -/
theorem mod_ne {m n : ℕ} (hlt : n < m) (hlt' : m < n + C.val) : n % C.val ≠ m % C.val := by
  intro h
  have hdvd : C.val ∣ m - n := Nat.ModEq.dvd' h
  have := Nat.le_of_dvd (by omega) hdvd
  omega

end Capacity

end Ridgeline
