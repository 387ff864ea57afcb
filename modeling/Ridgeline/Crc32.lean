import Ridgeline.CrcPolynomial
import Ridgeline.WalRecord

/-!
# The checksum

`Crc32` takes a byte at a time from its table; this is a register of 32 bits that takes its eight
bits one after the other, lowest first (`toBitVec_crc32Byte`). So it is the computation that takes
one bit at a time (`crc32_eq_reference`), and a remainder of polynomials
(`crc32_eq_iff_remainder`). It commutes with the exclusive or of three messages (`crc32_xor`) : of
an odd number of initial values and complements, one is left. Together these are `crc32_standard`.
A change inside four consecutive bytes is always seen (`crc32_ne_of_burst`).
-/

namespace Ridgeline

/-! ## The checksum as a register -/

/-- The polynomial of `Crc32`. -/
def crc32Poly : BitVec 32 :=
  0xEDB88320#32

/-- The bits of a byte, lowest first. -/
def byteBits (b : UInt8) : List Bool :=
  (List.range 8).map b.toBitVec.getLsbD

theorem and_one_ne_zero_iff (c : UInt32) : c &&& 1 ≠ 0 ↔ c.toBitVec.getLsbD 0 = true := by
  have hbit : c.toBitVec.getLsbD 0 = decide (c.toNat % 2 = 1) := by
    rw [BitVec.getLsbD, Nat.testBit_zero]
    rfl
  rw [hbit, ne_eq, ← UInt32.toNat_inj, UInt32.toNat_and, decide_eq_true_iff]
  show ¬ c.toNat &&& 1 = 0 ↔ _
  rw [Nat.and_one_is_mod]
  omega

theorem toBitVec_crc32Bit (c : UInt32) :
    (crc32Bit c).toBitVec = Crc.shift crc32Poly c.toBitVec := by
  unfold crc32Bit Crc.shift
  by_cases h : c.toBitVec.getLsbD 0 = true
  · rw [if_pos ((and_one_ne_zero_iff c).2 h), if_pos h, UInt32.toBitVec_xor, BitVec.xor_comm]
    rfl
  · rw [if_neg (mt (and_one_ne_zero_iff c).1 h), if_neg h]
    rfl

theorem toBitVec_iterate_crc32Bit (n : ℕ) (c : UInt32) :
    (crc32Bit^[n] c).toBitVec = (Crc.shift crc32Poly)^[n] c.toBitVec := by
  induction n generalizing c with
  | zero => rfl
  | succ n ih =>
    rw [Function.iterate_succ_apply, ih, toBitVec_crc32Bit, Function.iterate_succ_apply]

theorem crc32Table_getD {i : ℕ} (hi : i < 256) :
    crc32Table.getD i 0 = crc32Bit^[8] (UInt32.ofNat i) := by
  simp [crc32Table, List.getD_eq_getElem?_getD, hi]

theorem ofBits_byteBits (b : UInt8) :
    (Crc.ofBits (byteBits b) : BitVec 32) = b.toBitVec.setWidth 32 := by
  refine BitVec.eq_of_getLsbD_eq fun i hi => ?_
  rw [Crc.getLsbD_ofBits hi, byteBits, List.getD_eq_getElem?_getD, BitVec.getLsbD_setWidth]
  rcases Nat.lt_or_ge i 8 with hlt | hge
  · simp [hlt, hi]
  · simp [hge, BitVec.getLsbD_of_ge]

theorem and_byte_mask (x : BitVec 32) : x &&& 0xFF#32 = (x.setWidth 8).setWidth 32 := by
  have hmask : x.toNat &&& 255 = x.toNat % 2 ^ 8 := Nat.and_two_pow_sub_one_eq_mod x.toNat 8
  apply BitVec.eq_of_toNat_eq
  rw [BitVec.toNat_and, BitVec.toNat_setWidth, BitVec.toNat_setWidth]
  show x.toNat &&& 255 = _
  omega

/-- A step of `Crc32` takes the eight bits of the byte. -/
theorem toBitVec_crc32Byte (c : UInt32) (b : UInt8) :
    (crc32Byte c b).toBitVec = Crc.absorb crc32Poly c.toBitVec (byteBits b) := by
  have hindex : ((c ^^^ b.toUInt32) &&& 0xFF).toNat < 256 := by
    rw [UInt32.toNat_and]
    exact Nat.lt_of_le_of_lt Nat.and_le_right (by decide)
  have hbyte : b.toBitVec.setWidth 32 >>> 8 = 0#32 := by
    refine BitVec.eq_of_getLsbD_eq fun i _ => ?_
    simp [BitVec.getLsbD_setWidth, BitVec.getLsbD_of_ge]
  have hlength : (byteBits b).length = 8 := by simp [byteBits]
  rw [Crc.absorb_eq_iterate (by rw [hlength]; decide), hlength, ofBits_byteBits,
    Crc.iterate_shift_low, ← and_byte_mask, BitVec.ushiftRight_xor_distrib, hbyte,
    BitVec.xor_zero, crc32Byte, crc32Table_getD hindex, UInt32.ofNat_toNat, UInt32.toBitVec_xor,
    toBitVec_iterate_crc32Bit]
  rfl

theorem toBitVec_foldl_crc32Byte (data : Bytes) (c : UInt32) :
    (data.foldl crc32Byte c).toBitVec =
      Crc.absorb crc32Poly c.toBitVec (data.flatMap byteBits) := by
  induction data generalizing c with
  | nil => rfl
  | cons b data ih =>
    rw [List.foldl_cons, ih, toBitVec_crc32Byte, List.flatMap_cons, Crc.absorb_append]

theorem byteBits_injective : Function.Injective byteBits := by
  intro a b h
  have hwords := congrArg (Crc.ofBits : List Bool → BitVec 32) h
  rw [ofBits_byteBits, ofBits_byteBits] at hwords
  refine UInt8.toBitVec_inj.1 (BitVec.eq_of_getLsbD_eq fun i hi => ?_)
  have hbit := congrArg (BitVec.getLsbD · i) hwords
  simpa [BitVec.getLsbD_setWidth, Nat.lt_trans hi (by decide : 8 < 32)] using hbit

theorem length_flatMap_byteBits (data : Bytes) :
    (data.flatMap byteBits).length = 8 * data.length := by
  induction data with
  | nil => rfl
  | cons b data ih =>
    rw [List.flatMap_cons, List.length_append, ih, List.length_cons, byteBits, List.length_map,
      List.length_range]
    omega

theorem flatMap_byteBits_injective : ∀ {xs ys : Bytes}, xs.flatMap byteBits = ys.flatMap byteBits →
    xs = ys
  | [], [], _ => rfl
  | [], _ :: _, h => by simp [byteBits] at h
  | _ :: _, [], h => by simp [byteBits] at h
  | x :: xs, y :: ys, h => by
    rw [List.flatMap_cons, List.flatMap_cons] at h
    obtain ⟨hbyte, hrest⟩ := List.append_inj h (by simp [byteBits])
    rw [byteBits_injective hbyte, flatMap_byteBits_injective hrest]

/-! ## Bursts -/

/-- A change inside four consecutive bytes changes the checksum. -/
theorem crc32_ne_of_burst (pre post : Bytes) {xs ys : Bytes} (hlength : xs.length = ys.length)
    (hxs : xs.length ≤ 4) (hne : xs ≠ ys) :
    crc32 (pre ++ xs ++ post) ≠ crc32 (pre ++ ys ++ post) := by
  intro h
  have hregisters := congrArg UInt32.toBitVec h
  simp only [crc32, UInt32.toBitVec_xor, BitVec.xor_left_inj, toBitVec_foldl_crc32Byte,
    List.flatMap_append] at hregisters
  refine Crc.absorb_ne_of_burst (by decide) _ _ _ ?_ ?_ ?_ hregisters
  · rw [length_flatMap_byteBits, length_flatMap_byteBits, hlength]
  · rw [length_flatMap_byteBits]
    omega
  · exact fun h => hne (flatMap_byteBits_injective h)

/-! ## One bit at a time -/

/-- The register after a bit of the message. -/
def crc32ReferenceBit (crc : UInt32) (x : Bool) : UInt32 :=
  if (decide (crc &&& 1 ≠ 0) ^^ x) = true then (crc >>> 1) ^^^ 0xEDB88320 else crc >>> 1

/-- The standard computation, without a table. -/
def crc32Reference (data : Bytes) : UInt32 :=
  (data.flatMap byteBits).foldl crc32ReferenceBit 0xFFFFFFFF ^^^ 0xFFFFFFFF

theorem toBitVec_crc32ReferenceBit (c : UInt32) (x : Bool) :
    (crc32ReferenceBit c x).toBitVec = Crc.feed crc32Poly c.toBitVec x := by
  have hbit : decide (c &&& 1 ≠ 0) = c.toBitVec.getLsbD 0 :=
    Bool.eq_iff_iff.2 (decide_eq_true_iff.trans (and_one_ne_zero_iff c))
  rw [crc32ReferenceBit, Crc.feed_eq (by decide), hbit]
  split_ifs <;> rfl

theorem toBitVec_foldl_crc32ReferenceBit (xs : List Bool) (c : UInt32) :
    (xs.foldl crc32ReferenceBit c).toBitVec = Crc.absorb crc32Poly c.toBitVec xs := by
  induction xs generalizing c with
  | nil => rfl
  | cons x xs ih =>
    rw [List.foldl_cons, ih, toBitVec_crc32ReferenceBit]
    rfl

theorem crc32_eq_reference (data : Bytes) : crc32 data = crc32Reference data := by
  apply UInt32.toBitVec_inj.1
  rw [crc32, crc32Reference, UInt32.toBitVec_xor, UInt32.toBitVec_xor, toBitVec_foldl_crc32Byte,
    toBitVec_foldl_crc32ReferenceBit]

/-! ## The remainder -/

section Remainder

open Polynomial

/-- The polynomial of the standard. -/
noncomputable def crc32Generator : (ZMod 2)[X] :=
  X ^ 32 + X ^ 26 + X ^ 23 + X ^ 22 + X ^ 16 + X ^ 12 + X ^ 11 + X ^ 10 + X ^ 8 + X ^ 7 + X ^ 5 +
    X ^ 4 + X ^ 2 + X + 1

theorem generator_crc32Poly : Crc.generator crc32Poly = crc32Generator := by
  have hbits : ∀ i ∈ Finset.range 32, C (Crc.bit (crc32Poly.getMsbD i)) * X ^ i =
      if i ∈ [0, 1, 2, 4, 5, 7, 8, 10, 11, 12, 16, 22, 23, 26] then X ^ i else 0 := by
    have hset : ∀ i < 32, crc32Poly.getMsbD i =
        decide (i ∈ [0, 1, 2, 4, 5, 7, 8, 10, 11, 12, 16, 22, 23, 26]) := by decide
    intro i hi
    rw [hset i (Finset.mem_range.1 hi)]
    split_ifs with hmem
    · rw [decide_eq_true hmem, Crc.bit_true, C_1, one_mul]
    · rw [decide_eq_false hmem, Crc.bit_false, C_0, zero_mul]
  have hpoly : Crc.registerPoly crc32Poly = 1 + X + X ^ 2 + X ^ 4 + X ^ 5 + X ^ 7 + X ^ 8 + X ^ 10 +
      X ^ 11 + X ^ 12 + X ^ 16 + X ^ 22 + X ^ 23 + X ^ 26 := by
    rw [Crc.registerPoly_eq_sum, Finset.sum_congr rfl hbits]
    simp [Finset.sum_range_succ]
  rw [Crc.generator, hpoly, crc32Generator]
  ring

/-- The register ends with the remainder of the message, its first 32 bits complemented, with 32
zeros behind it. -/
theorem registerPoly_foldl_crc32Byte (data : Bytes) :
    Crc.registerPoly (data.foldl crc32Byte 0xFFFFFFFF).toBitVec =
      Crc.messagePoly (Crc.complementFirst 32 (data.flatMap byteBits ++ List.replicate 32 false)) %ₘ
        crc32Generator := by
  rw [toBitVec_foldl_crc32Byte, ← generator_crc32Poly, Crc.registerPoly_absorb_allOnes]
  rfl

theorem crc32_eq_iff_remainder (data : Bytes) (v : UInt32) : crc32 data = v ↔
    Crc.registerPoly (v ^^^ 0xFFFFFFFF).toBitVec =
      Crc.messagePoly (Crc.complementFirst 32 (data.flatMap byteBits ++ List.replicate 32 false)) %ₘ
        crc32Generator := by
  have hcancel : ∀ a b : UInt32, a ^^^ b ^^^ b = a := fun a b => by
    rw [UInt32.xor_assoc, UInt32.xor_self, UInt32.xor_zero]
  rw [← registerPoly_foldl_crc32Byte, Crc.registerPoly_injective.eq_iff, UInt32.toBitVec_inj, crc32]
  constructor
  · rintro rfl
    exact hcancel _ _
  · intro h
    rw [← h, hcancel]

end Remainder

/-! ## Linearity -/

/-- The exclusive or of two strings of bytes. -/
def xorBytes (x y : Bytes) : Bytes :=
  List.zipWith (· ^^^ ·) x y

theorem byteBits_xor (a b : UInt8) :
    byteBits (a ^^^ b) = List.zipWith xor (byteBits a) (byteBits b) := by
  rw [byteBits, byteBits, byteBits, List.zipWith_map, List.zipWith_self]
  exact List.map_congr_left fun i _ => by rw [UInt8.toBitVec_xor, BitVec.getLsbD_xor]

theorem flatMap_byteBits_xor : ∀ x y : Bytes, (xorBytes x y).flatMap byteBits =
    List.zipWith xor (x.flatMap byteBits) (y.flatMap byteBits)
  | [], _ => by simp [xorBytes]
  | _ :: _, [] => by simp [xorBytes]
  | a :: x, b :: y => by
    have ih := flatMap_byteBits_xor x y
    rw [xorBytes, List.zipWith_cons_cons, List.flatMap_cons, ← xorBytes, ih, byteBits_xor,
      List.flatMap_cons, List.flatMap_cons, List.zipWith_append (by simp [byteBits])]

/-- The register after a sum of messages, from the sum of the registers. -/
theorem foldl_crc32Byte_xor {x y : Bytes} (h : x.length = y.length) (c d : UInt32) :
    (xorBytes x y).foldl crc32Byte (c ^^^ d) = x.foldl crc32Byte c ^^^ y.foldl crc32Byte d := by
  apply UInt32.toBitVec_inj.1
  rw [UInt32.toBitVec_xor, toBitVec_foldl_crc32Byte, toBitVec_foldl_crc32Byte,
    toBitVec_foldl_crc32Byte, flatMap_byteBits_xor, UInt32.toBitVec_xor, Crc.absorb_xor]
  rw [length_flatMap_byteBits, length_flatMap_byteBits, h]

theorem length_xorBytes {x y : Bytes} (h : x.length = y.length) :
    (xorBytes x y).length = x.length := by
  simp [xorBytes, h]

theorem crc32_xor {x y z : Bytes} (hxy : x.length = y.length) (hyz : y.length = z.length) :
    crc32 (xorBytes (xorBytes x y) z) = crc32 x ^^^ crc32 y ^^^ crc32 z := by
  have hsum : (0xFFFFFFFF : UInt32) = 0xFFFFFFFF ^^^ 0xFFFFFFFF ^^^ 0xFFFFFFFF := by decide
  have hlength : (xorBytes x y).length = z.length := by rw [length_xorBytes hxy, hxy, hyz]
  rw [crc32, crc32, crc32, crc32]
  conv_lhs => rw [hsum, foldl_crc32Byte_xor hlength, foldl_crc32Byte_xor hxy]
  ac_rfl

/-! ## The standard -/

section Standard

open Polynomial

/-- The checksum is the standard one : it is what taking one bit at a time gives, it is the only
word whose complement is the remainder of the message with its first 32 bits complemented, and it
commutes with the exclusive or of three strings of one length. -/
theorem crc32_standard : (∀ data, crc32 data = crc32Reference data) ∧
    (∀ (data : Bytes) (v : UInt32), crc32 data = v ↔
      Crc.registerPoly (v ^^^ 0xFFFFFFFF).toBitVec = Crc.messagePoly (Crc.complementFirst 32
        (data.flatMap byteBits ++ List.replicate 32 false)) %ₘ crc32Generator) ∧
    ∀ x y z : Bytes, x.length = y.length → y.length = z.length →
      crc32 (xorBytes (xorBytes x y) z) = crc32 x ^^^ crc32 y ^^^ crc32 z :=
  ⟨crc32_eq_reference, crc32_eq_iff_remainder, fun _ _ _ => crc32_xor⟩

/-- The check value of the standard, of the digits from one to nine, and a sum. -/
theorem crc32_standard_check :
    crc32 [49, 50, 51, 52, 53, 54, 55, 56, 57] = 0xCBF43926 ∧
      crc32 [49 ^^^ 50 ^^^ 51] = crc32 [49] ^^^ crc32 [50] ^^^ crc32 [51] :=
  ⟨(crc32_standard.1 _).trans (by decide +kernel), crc32_standard.2.2 [49] [50] [51] rfl rfl⟩

end Standard

end Ridgeline
