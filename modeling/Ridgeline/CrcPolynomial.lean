import Mathlib.Algebra.CharP.Two
import Mathlib.Algebra.Field.ZMod
import Mathlib.Algebra.Polynomial.Div
import Mathlib.Algebra.Polynomial.OfFn
import Ridgeline.Crc

/-!
# Cyclic redundancy checks as remainders

A message is a polynomial over the field with two elements, its first bit the coefficient of the
highest power (`messagePoly`), and so is a register, its lowest bit that of the highest power
(`registerPoly`). The polynomial of the register with a leading one in front is the `generator`.

A bit of the message multiplies the register by `X` and subtracts a multiple of the generator
(`registerPoly_feed`). So a message leaves the remainder of a division by the generator
(`registerPoly_absorb`). A register that starts with ones is one that starts with zeros for a
message whose first bits are complemented (`registerPoly_absorb_allOnes`).
-/

namespace Ridgeline

namespace Crc

open Polynomial

/-- A bit in the field with two elements. -/
def bit (x : Bool) : ZMod 2 :=
  if x then 1 else 0

@[simp] theorem bit_false : bit false = 0 := rfl

@[simp] theorem bit_true : bit true = 1 := rfl

theorem bit_xor : ∀ x y : Bool, bit (x ^^ y) = bit x + bit y := by decide

theorem bit_and : ∀ x y : Bool, bit (x && y) = bit x * bit y := by decide

theorem bit_injective : Function.Injective bit := by decide

variable {w : ℕ}

/-- The polynomial of a register. -/
noncomputable def registerPoly (c : BitVec w) : (ZMod 2)[X] :=
  ofFn w fun i => bit (c.getMsbD i)

/-- The polynomial of a message. -/
noncomputable def messagePoly : List Bool → (ZMod 2)[X]
  | [] => 0
  | x :: xs => C (bit x) * X ^ xs.length + messagePoly xs

/-- The polynomial a message is divided by. -/
noncomputable def generator (poly : BitVec w) : (ZMod 2)[X] :=
  X ^ w + registerPoly poly

/-- The first `n` bits are complemented. -/
def complementFirst (n : ℕ) (xs : List Bool) : List Bool :=
  (xs.take n).map not ++ xs.drop n

/-! ## Registers -/

@[simp] theorem coeff_registerPoly (c : BitVec w) (n : ℕ) :
    (registerPoly c).coeff n = bit (c.getMsbD n) := by
  rcases Nat.lt_or_ge n w with hn | hn
  · exact ofFn_coeff_eq_val_of_lt _ hn
  · rw [registerPoly, ofFn_coeff_eq_zero_of_ge _ hn, BitVec.getMsbD_of_ge _ _ hn, bit_false]

theorem registerPoly_eq_sum (c : BitVec w) :
    registerPoly c = ∑ i ∈ Finset.range w, C (bit (c.getMsbD i)) * X ^ i := by
  rw [registerPoly, ofFn_eq_sum_monomial, Finset.sum_range]
  simp only [C_mul_X_pow_eq_monomial]

theorem degree_registerPoly_lt (c : BitVec w) : (registerPoly c).degree < w :=
  ofFn_degree_lt _

theorem registerPoly_injective : Function.Injective (registerPoly (w := w)) := by
  intro a b h
  refine BitVec.eq_of_getMsbD_eq fun n _ => bit_injective ?_
  rw [← coeff_registerPoly, h, coeff_registerPoly]

theorem monic_generator (poly : BitVec w) : (generator poly).Monic :=
  monic_X_pow_add (degree_registerPoly_lt poly)

theorem degree_generator (poly : BitVec w) : (generator poly).degree = w :=
  have hlt := (degree_registerPoly_lt poly).trans_eq (degree_X_pow w).symm
  (degree_add_eq_left_of_degree_lt hlt).trans (degree_X_pow w)

/-- What is left of a polynomial that differs from a register by a multiple of the generator. -/
theorem modByMonic_eq_registerPoly {poly c : BitVec w} {f : (ZMod 2)[X]} (q : (ZMod 2)[X])
    (h : registerPoly c + generator poly * q = f) : f %ₘ generator poly = registerPoly c := by
  refine (div_modByMonic_unique q _ (monic_generator poly) ⟨h, ?_⟩).2
  rw [degree_generator]
  exact degree_registerPoly_lt c

theorem coeff_generator (poly : BitVec w) (n : ℕ) :
    (generator poly).coeff n = (if n = w then 1 else 0) + bit (poly.getMsbD n) := by
  rw [generator, coeff_add, coeff_X_pow, coeff_registerPoly]

theorem getMsbD_feed (poly c : BitVec w) (x : Bool) {n : ℕ} (hn : n < w) :
    (feed poly c x).getMsbD n =
      (c.getLsbD (w - n) ^^ ((c.getLsbD 0 ^^ x) && poly.getMsbD n)) := by
  have hw : 0 < w := Nat.zero_lt_of_lt hn
  have hindex : w - 1 - n + 1 = w - n := by omega
  rw [feed, BitVec.getMsbD, BitVec.getMsbD, getLsbD_shift, hindex]
  simp only [BitVec.getLsbD_xor, getLsbD_low, hn, hw, Nat.sub_ne_zero_of_lt hn, decide_true,
    decide_false, Bool.true_and, Bool.and_false, Bool.false_and, Bool.xor_false]

theorem coeff_X_mul_registerPoly (c : BitVec w) {n : ℕ} (hn : n ≤ w) :
    (X * registerPoly c).coeff n = bit (c.getLsbD (w - n)) := by
  cases n with
  | zero => rw [coeff_X_mul_zero, Nat.sub_zero, BitVec.getLsbD_of_ge _ _ le_rfl, bit_false]
  | succ n =>
    have hindex : w - 1 - n = w - (n + 1) := by omega
    rw [coeff_X_mul, coeff_registerPoly, BitVec.getMsbD, hindex,
      decide_eq_true (Nat.lt_of_succ_le hn), Bool.true_and]

/-- A bit of the message is a step of the division. -/
theorem registerPoly_feed (poly c : BitVec w) (x : Bool) :
    registerPoly (feed poly c x) + generator poly * C (bit (c.getLsbD 0 ^^ x)) =
      X * registerPoly c + C (bit x) * X ^ w := by
  ext n
  simp only [coeff_add, coeff_mul_C, coeff_generator, coeff_registerPoly, coeff_C_mul, coeff_X_pow]
  rcases lt_trichotomy n w with hn | rfl | hn
  · rw [getMsbD_feed poly c x hn, coeff_X_mul_registerPoly c hn.le, if_neg hn.ne, bit_xor, bit_and,
      zero_add, mul_comm (bit (poly.getMsbD n)), add_assoc, CharTwo.add_self_eq_zero, mul_zero]
  · rw [coeff_X_mul_registerPoly c le_rfl, if_pos rfl, BitVec.getMsbD_of_ge _ _ le_rfl,
      BitVec.getMsbD_of_ge _ _ le_rfl, Nat.sub_self, bit_xor, bit_false]
    ring
  · obtain ⟨m, rfl⟩ := Nat.exists_eq_succ_of_ne_zero (Nat.ne_zero_of_lt hn)
    rw [coeff_X_mul, coeff_registerPoly, if_neg hn.ne', BitVec.getMsbD_of_ge _ _ hn.le,
      BitVec.getMsbD_of_ge _ _ hn.le, BitVec.getMsbD_of_ge _ _ (Nat.le_of_lt_succ hn), bit_false]
    ring

/-! ## Messages -/

theorem messagePoly_append (xs ys : List Bool) :
    messagePoly (xs ++ ys) = messagePoly xs * X ^ ys.length + messagePoly ys := by
  induction xs with
  | nil => simp [messagePoly]
  | cons x xs ih =>
    rw [List.cons_append, messagePoly, messagePoly, ih, List.length_append, pow_add]
    ring

@[simp] theorem messagePoly_zeros (n : ℕ) : messagePoly (List.replicate n false) = 0 := by
  induction n with
  | zero => rfl
  | succ n ih => rw [List.replicate_succ, messagePoly, ih, bit_false, C_0, zero_mul, add_zero]

theorem messagePoly_complement (xs : List Bool) : messagePoly (xs.map not) =
    messagePoly xs + messagePoly (List.replicate xs.length true) := by
  induction xs with
  | nil => simp [messagePoly]
  | cons x xs ih =>
    have hnot : bit (!x) = bit x + 1 := by rw [← Bool.xor_true, bit_xor, bit_true]
    rw [List.map_cons, messagePoly, ih, hnot, List.length_map, List.length_cons,
      List.replicate_succ, messagePoly, messagePoly, List.length_replicate, bit_true, C_add]
    ring

theorem messagePoly_complementFirst {n : ℕ} {xs : List Bool} (hn : n ≤ xs.length) :
    messagePoly (complementFirst n xs) =
      messagePoly xs + messagePoly (List.replicate n true) * X ^ (xs.length - n) := by
  conv_rhs => rw [← List.take_append_drop n xs]
  rw [complementFirst, messagePoly_append, messagePoly_append, messagePoly_complement,
    List.length_take_of_le hn, List.take_append_drop, List.length_drop]
  ring

/-- A message leaves the remainder of itself behind the register. -/
theorem registerPoly_absorb (poly c : BitVec w) (xs : List Bool) :
    (X ^ xs.length * registerPoly c + messagePoly xs * X ^ w) %ₘ generator poly =
      registerPoly (absorb poly c xs) := by
  suffices h : ∃ q, registerPoly (absorb poly c xs) + generator poly * q =
      X ^ xs.length * registerPoly c + messagePoly xs * X ^ w by
    obtain ⟨q, hq⟩ := h
    exact modByMonic_eq_registerPoly q hq
  induction xs generalizing c with
  | nil => exact ⟨0, by simp [absorb, messagePoly]⟩
  | cons x xs ih =>
    obtain ⟨q, hq⟩ := ih (feed poly c x)
    refine ⟨q + X ^ xs.length * C (bit (c.getLsbD 0 ^^ x)), ?_⟩
    calc registerPoly (absorb poly c (x :: xs)) +
          generator poly * (q + X ^ xs.length * C (bit (c.getLsbD 0 ^^ x)))
        = registerPoly (absorb poly (feed poly c x) xs) + generator poly * q +
            X ^ xs.length * (generator poly * C (bit (c.getLsbD 0 ^^ x))) := by
          rw [absorb, List.foldl_cons, ← absorb]
          ring
      _ = X ^ xs.length * (registerPoly (feed poly c x) +
            generator poly * C (bit (c.getLsbD 0 ^^ x))) + messagePoly xs * X ^ w := by
          rw [hq]
          ring
      _ = X ^ (x :: xs).length * registerPoly c + messagePoly (x :: xs) * X ^ w := by
          rw [registerPoly_feed, messagePoly, List.length_cons]
          ring

theorem coeff_messagePoly_ones (n k : ℕ) :
    (messagePoly (List.replicate n true)).coeff k = bit (decide (k < n)) := by
  induction n with
  | zero => simp [messagePoly]
  | succ n ih =>
    rw [List.replicate_succ, messagePoly, List.length_replicate, coeff_add, coeff_C_mul,
      coeff_X_pow, ih, bit_true, one_mul]
    rcases lt_trichotomy k n with hk | rfl | hk
    · simp [hk, hk.ne, Nat.lt_succ_of_lt hk]
    · simp
    · simp [hk.ne', Nat.not_lt.2 hk.le, Nat.not_lt.2 (Nat.succ_le_of_lt hk)]

theorem registerPoly_allOnes :
    registerPoly (BitVec.allOnes w) = messagePoly (List.replicate w true) := by
  ext n
  rw [coeff_registerPoly, coeff_messagePoly_ones, BitVec.getMsbD_allOnes]

/-- A register that starts with ones takes the first bits of the message, with as many zeros behind
it as the register has bits, for their complements. -/
theorem registerPoly_absorb_allOnes (poly : BitVec w) (xs : List Bool) :
    messagePoly (complementFirst w (xs ++ List.replicate w false)) %ₘ generator poly =
      registerPoly (absorb poly (BitVec.allOnes w) xs) := by
  rw [← registerPoly_absorb, messagePoly_complementFirst (by simp), messagePoly_append,
    messagePoly_zeros, registerPoly_allOnes]
  congr 1
  simp only [List.length_append, List.length_replicate, Nat.add_sub_cancel]
  ring

end Crc

end Ridgeline
