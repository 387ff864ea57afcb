import Mathlib.Data.List.Basic
import Mathlib.Logic.Function.Iterate

/-!
# Cyclic redundancy checks

A register of `w` bits that takes a message one bit at a time, lowest bits first : the bit is added
to the lowest bit of the register, which is then shifted out, and if it was set the polynomial is
added to the rest. Addition is exclusive or.

A shift is linear (`shift_xor`), and so is a register in what it starts with and takes
(`absorb_xor`). If the polynomial has its highest bit a shift loses nothing
(`shift_injective`). A message of at most `w` bits can be added to the register at once
(`absorb_eq_iterate`). So two messages that differ only inside a burst of at most `w` bits leave
different registers (`absorb_ne_of_burst`).
-/

namespace Ridgeline

namespace Crc

variable {w : ℕ} (poly : BitVec w)

/-- The lowest bit is shifted out. -/
def shift (c : BitVec w) : BitVec w :=
  if c.getLsbD 0 then (c >>> 1) ^^^ poly else c >>> 1

/-- A bit in the lowest place. -/
def low (x : Bool) : BitVec w :=
  (BitVec.ofBool x).setWidth w

/-- The register after a bit of the message. -/
def feed (c : BitVec w) (x : Bool) : BitVec w :=
  shift poly (c ^^^ low x)

/-- The register after a message. -/
def absorb (c : BitVec w) (xs : List Bool) : BitVec w :=
  xs.foldl (feed poly) c

/-- The message as a word, its first bit in the lowest place. -/
def ofBits : List Bool → BitVec w
  | [] => 0
  | x :: xs => low x ^^^ (ofBits xs <<< 1)

/-! ## One shift -/

variable {poly}

theorem getLsbD_shift (c : BitVec w) (i : ℕ) : (shift poly c).getLsbD i =
    (c.getLsbD (i + 1) ^^ (c.getLsbD 0 && poly.getLsbD i)) := by
  unfold shift
  cases hc : c.getLsbD 0 <;> simp [Nat.add_comm]

theorem shift_xor (a b : BitVec w) : shift poly (a ^^^ b) = shift poly a ^^^ shift poly b := by
  refine BitVec.eq_of_getLsbD_eq fun i _ => ?_
  simp only [getLsbD_shift, BitVec.getLsbD_xor, Bool.and_xor_distrib_right, Bool.xor_assoc,
    Bool.xor_left_comm]

/-- The highest bit of the register tells what was shifted out. -/
theorem shift_eq_zero (hpoly : poly.msb = true) {c : BitVec w} (h : shift poly c = 0) : c = 0 := by
  have hbits : ∀ i, (c.getLsbD (i + 1) ^^ (c.getLsbD 0 && poly.getLsbD i)) = false := fun i => by
    rw [← getLsbD_shift, h]
    exact BitVec.getLsbD_zero
  have hw : 0 < w := by
    rcases Nat.eq_zero_or_pos w with rfl | hw
    · simp [BitVec.of_length_zero] at hpoly
    · exact hw
  have hout : c.getLsbD 0 = false := by
    have htop := hbits (w - 1)
    rw [Nat.sub_add_cancel hw, BitVec.getLsbD_of_ge c w (Nat.le_refl w),
      ← BitVec.msb_eq_getLsbD_last, hpoly] at htop
    simpa using htop
  refine BitVec.eq_of_getLsbD_eq fun i _ => ?_
  rw [BitVec.ofNat_eq_ofNat, BitVec.getLsbD_zero]
  cases i with
  | zero => exact hout
  | succ i => simpa [hout] using hbits i

theorem shift_injective (hpoly : poly.msb = true) : Function.Injective (shift poly) := by
  intro a b h
  have hzero : shift poly (a ^^^ b) = 0 := by
    rw [shift_xor, h]
    exact BitVec.xor_self
  exact BitVec.xor_eq_zero_iff.1 (shift_eq_zero hpoly hzero)

/-- A zero in the lowest place is shifted out. -/
theorem shift_shiftLeft {v : BitVec w} (hv : v.msb = false) : shift poly (v <<< 1) = v := by
  refine BitVec.eq_of_getLsbD_eq fun i hi => ?_
  rw [getLsbD_shift, BitVec.getLsbD_shiftLeft, BitVec.getLsbD_shiftLeft, Nat.add_sub_cancel]
  rcases Nat.lt_or_ge (i + 1) w with hlt | hge
  · simp [hlt]
  · obtain rfl : w = i + 1 := by omega
    rw [BitVec.msb_eq_getLsbD_last, Nat.add_sub_cancel] at hv
    rw [hv]
    simp

theorem iterate_shift_xor (n : ℕ) (a b : BitVec w) :
    (shift poly)^[n] (a ^^^ b) = (shift poly)^[n] a ^^^ (shift poly)^[n] b := by
  induction n generalizing a b with
  | zero => rfl
  | succ n ih => simp only [Function.iterate_succ_apply, shift_xor, ih]

/-- Nothing but zeros is shifted out of a word with low zeros. -/
theorem iterate_shift_high {n : ℕ} {c : BitVec w} (h : ∀ i < n, c.getLsbD i = false) :
    (shift poly)^[n] c = c >>> n := by
  induction n with
  | zero => simp
  | succ n ih =>
    rw [Function.iterate_succ_apply', ih fun i hi => h i (Nat.lt_succ_of_lt hi)]
    refine BitVec.eq_of_getLsbD_eq fun i _ => ?_
    have hout : (c >>> n).getLsbD 0 = false := by simpa using h n n.lt_succ_self
    rw [getLsbD_shift, hout, Bool.false_and, Bool.xor_false]
    simp only [BitVec.getLsbD_ushiftRight]
    congr 1
    omega

/-- Of a word, `n` shifts depend on the low `n` bits; the others only move down. -/
theorem iterate_shift_low (n : ℕ) (c : BitVec w) : (shift poly)^[n] c =
    (shift poly)^[n] ((c.setWidth n).setWidth w) ^^^ (c >>> n) := by
  have hsplit : (c.setWidth n).setWidth w ^^^ ((c.setWidth n).setWidth w ^^^ c) = c := by
    rw [← BitVec.xor_assoc, BitVec.xor_self, BitVec.zero_xor]
  have hhigh : ∀ i < n, ((c.setWidth n).setWidth w ^^^ c).getLsbD i = false := fun i hi => by
    simp only [BitVec.getLsbD_xor, BitVec.getLsbD_setWidth, hi, decide_true, Bool.true_and]
    rcases Nat.lt_or_ge i w with hw | hw
    · simp [hw]
    · simp [hw]
  have hmoved : ((c.setWidth n).setWidth w ^^^ c) >>> n = c >>> n := by
    refine BitVec.eq_of_getLsbD_eq fun i _ => ?_
    simp [BitVec.getLsbD_setWidth]
  conv_lhs => rw [← hsplit, iterate_shift_xor, iterate_shift_high hhigh, hmoved]

/-! ## A message -/

@[simp] theorem getLsbD_low (x : Bool) (i : ℕ) :
    (low x : BitVec w).getLsbD i = (decide (i < w) && decide (i = 0) && x) := by
  cases i <;> simp [low]

theorem getLsbD_ofBits {xs : List Bool} {i : ℕ} (hi : i < w) :
    (ofBits xs : BitVec w).getLsbD i = xs.getD i false := by
  induction xs generalizing i with
  | nil => simp [ofBits]
  | cons x xs ih =>
    cases i with
    | zero =>
      rw [ofBits, BitVec.getLsbD_xor, getLsbD_low, BitVec.getLsbD_shiftLeft]
      simp [hi]
    | succ i =>
      rw [ofBits, BitVec.getLsbD_xor, getLsbD_low, BitVec.getLsbD_shiftLeft, Nat.add_sub_cancel,
        ih (Nat.lt_of_succ_lt hi)]
      simp [hi]

theorem msb_ofBits {xs : List Bool} (h : xs.length < w) : (ofBits xs : BitVec w).msb = false := by
  rw [BitVec.msb_eq_getLsbD_last, getLsbD_ofBits (by omega), List.getD_eq_getElem?_getD,
    List.getElem?_eq_none (by omega)]
  rfl

/-- A message that is not longer than the register is added to it at once. -/
theorem absorb_eq_iterate {xs : List Bool} (hxs : xs.length ≤ w) (c : BitVec w) :
    absorb poly c xs = (shift poly)^[xs.length] (c ^^^ ofBits xs) := by
  induction xs generalizing c with
  | nil => simp [absorb, ofBits]
  | cons x xs ih =>
    have hback : shift poly (ofBits xs <<< 1) = (ofBits xs : BitVec w) :=
      shift_shiftLeft (msb_ofBits hxs)
    have hstep := ih (Nat.le_of_succ_le hxs) (feed poly c x)
    rw [absorb, List.foldl_cons, ← absorb, hstep, List.length_cons, Function.iterate_succ_apply,
      ofBits, ← BitVec.xor_assoc, shift_xor, hback, feed]

theorem ofBits_injective {xs ys : List Bool} (hlength : xs.length = ys.length)
    (hxs : xs.length ≤ w) (h : (ofBits xs : BitVec w) = ofBits ys) : xs = ys := by
  refine List.ext_getElem hlength fun i hi hi' => ?_
  have hbit := congrArg (BitVec.getLsbD · i) h
  simpa [getLsbD_ofBits (Nat.lt_of_lt_of_le hi hxs), hi, hi'] using hbit

theorem absorb_append (c : BitVec w) (xs ys : List Bool) :
    absorb poly c (xs ++ ys) = absorb poly (absorb poly c xs) ys := by
  simp [absorb]

theorem feed_eq (hw : 0 < w) (c : BitVec w) (x : Bool) : feed poly c x =
    if (c.getLsbD 0 ^^ x) = true then (c >>> 1) ^^^ poly else c >>> 1 := by
  have hbit : (c ^^^ low x).getLsbD 0 = (c.getLsbD 0 ^^ x) := by
    simp only [BitVec.getLsbD_xor, getLsbD_low, hw, decide_true, Bool.true_and]
  have hrest : (c ^^^ low x) >>> 1 = c >>> 1 := by
    refine BitVec.eq_of_getLsbD_eq fun i _ => ?_
    simp [BitVec.getLsbD_ushiftRight]
  rw [feed, shift, hbit, hrest]

theorem feed_xor (a b : BitVec w) (x y : Bool) :
    feed poly (a ^^^ b) (x ^^ y) = feed poly a x ^^^ feed poly b y := by
  have hlow : (low (x ^^ y) : BitVec w) = low x ^^^ low y := by
    refine BitVec.eq_of_getLsbD_eq fun i _ => ?_
    simp only [BitVec.getLsbD_xor, getLsbD_low, Bool.and_xor_distrib_left]
  rw [feed, feed, feed, ← shift_xor, hlow]
  congr 1
  ac_rfl

/-- Registers and messages of one length are added place by place. -/
theorem absorb_xor : ∀ {xs ys : List Bool}, xs.length = ys.length → ∀ a b : BitVec w,
    absorb poly (a ^^^ b) (List.zipWith xor xs ys) = absorb poly a xs ^^^ absorb poly b ys
  | [], [], _, _, _ => rfl
  | x :: xs, y :: ys, h, a, b => by
    have ih := absorb_xor (Nat.succ.inj h) (feed poly a x) (feed poly b y)
    rw [← feed_xor] at ih
    exact ih

/-- What follows keeps different registers different. -/
theorem absorb_injective (hpoly : poly.msb = true) (xs : List Bool) :
    Function.Injective fun c => absorb poly c xs := by
  induction xs with
  | nil => exact fun a b h => h
  | cons x xs ih =>
    intro a b h
    have hfeed : feed poly a x = feed poly b x := ih h
    exact (BitVec.xor_left_inj _).1 (shift_injective hpoly hfeed)

/-- Two messages that differ only inside a burst of at most `w` bits leave different registers. -/
theorem absorb_ne_of_burst (hpoly : poly.msb = true) (c : BitVec w) (pre post : List Bool)
    {xs ys : List Bool} (hlength : xs.length = ys.length) (hxs : xs.length ≤ w) (hne : xs ≠ ys) :
    absorb poly c (pre ++ xs ++ post) ≠ absorb poly c (pre ++ ys ++ post) := by
  intro h
  simp only [absorb_append] at h
  have hburst : absorb poly (absorb poly c pre) xs = absorb poly (absorb poly c pre) ys :=
    absorb_injective hpoly post h
  generalize absorb poly c pre = d at hburst
  rw [absorb_eq_iterate hxs, absorb_eq_iterate (hlength ▸ hxs), ← hlength] at hburst
  have hword := (shift_injective hpoly).iterate xs.length hburst
  exact hne (ofBits_injective hlength hxs ((BitVec.xor_right_inj _).1 hword))

end Crc

end Ridgeline
