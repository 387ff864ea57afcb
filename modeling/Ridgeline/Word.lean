import Mathlib.Data.Nat.Basic
import Mathlib.Order.Lattice
import Mathlib.Order.Defs.LinearOrder
import Mathlib.Tactic.Ring

/-!
# Machine words and bytes

Byte strings are lists of `UInt8`, and `ascii` is the byte string of a literal. `leBytes`
writes a number in little-endian order, least significant byte first, and `ofLeBytes`
reads it back. `UInt64` gets the linear order its comparisons already are.
-/

namespace Ridgeline

/-- A byte string. -/
abbrev Bytes := List UInt8

/-- The bytes of an ASCII literal. -/
def ascii (s : String) : Bytes :=
  s.toList.map fun c => UInt8.ofNat c.toNat

instance linearOrderUInt64 : LinearOrder UInt64 where
  le_refl a := UInt64.le_refl a
  le_trans _ _ _ := UInt64.le_trans
  lt_iff_le_not_ge a b := by
    simp only [UInt64.le_iff_toNat_le, UInt64.lt_iff_toNat_lt]
    omega
  le_antisymm _ _ := UInt64.le_antisymm
  le_total := UInt64.le_total
  toDecidableLE := inferInstance
  toDecidableEq := inferInstance
  toDecidableLT := inferInstance
  min_def _ _ := rfl
  max_def _ _ := rfl

/-- Adding one to a word that is not the largest does not wrap. -/
theorem toNat_add_one {a : UInt64} (h : a.toNat + 1 < 2 ^ 64) : (a + 1).toNat = a.toNat + 1 := by
  rw [UInt64.toNat_add, UInt64.toNat_one]
  exact Nat.mod_eq_of_lt h

/-! ## Little-endian numbers -/

/-- The `n` low bytes of `v`, least significant first. -/
def leBytes : ℕ → ℕ → Bytes
  | 0, _ => []
  | n + 1, v => UInt8.ofNat v :: leBytes n (v / 256)

/-- The number a byte string writes in little-endian order. -/
def ofLeBytes : Bytes → ℕ
  | [] => 0
  | b :: bs => b.toNat + 256 * ofLeBytes bs

@[simp] theorem length_leBytes : ∀ n v, (leBytes n v).length = n
  | 0, _ => rfl
  | n + 1, v => by simp [leBytes, length_leBytes n]

theorem ofLeBytes_leBytes : ∀ {n v : ℕ}, v < 256 ^ n → ofLeBytes (leBytes n v) = v
  | 0, v, h => by
    simp only [pow_zero, Nat.lt_one_iff] at h
    simp [leBytes, ofLeBytes, h]
  | n + 1, v, h => by
    have hv : v / 256 < 256 ^ n := by
      rw [Nat.div_lt_iff_lt_mul (by norm_num)]
      calc v < 256 ^ (n + 1) := h
        _ = 256 ^ n * 256 := pow_succ 256 n
    have hb : (UInt8.ofNat v).toNat = v % 256 := UInt8.toNat_ofNat'
    rw [leBytes, ofLeBytes, ofLeBytes_leBytes hv, hb]
    omega

theorem leBytes_ofLeBytes : ∀ bs : Bytes, leBytes bs.length (ofLeBytes bs) = bs
  | [] => rfl
  | b :: bs => by
    have hb := b.toNat_lt
    have hmod : UInt8.ofNat (b.toNat + 256 * ofLeBytes bs) = b := by
      apply UInt8.toNat_inj.1
      rw [UInt8.toNat_ofNat', Nat.add_mul_mod_self_left]
      exact Nat.mod_eq_of_lt hb
    have hdiv : (b.toNat + 256 * ofLeBytes bs) / 256 = ofLeBytes bs := by omega
    rw [List.length_cons, ofLeBytes, leBytes, hmod, hdiv, leBytes_ofLeBytes bs]

theorem ofLeBytes_lt : ∀ bs : Bytes, ofLeBytes bs < 256 ^ bs.length
  | [] => by simp [ofLeBytes]
  | b :: bs => by
    have hb := b.toNat_lt
    have ih := ofLeBytes_lt bs
    calc ofLeBytes (b :: bs) < 256 * (ofLeBytes bs + 1) := by
          rw [ofLeBytes]
          omega
      _ ≤ 256 * 256 ^ bs.length := Nat.mul_le_mul_left _ ih
      _ = 256 ^ (b :: bs).length := by rw [List.length_cons, pow_succ, mul_comm]

end Ridgeline
