import Mathlib.Data.List.TakeWhile
import Mathlib.Data.Nat.Digits.Lemmas
import Ridgeline.Word

/-!
# Decimal text

`std::to_string` of an integer, and `std::stoll`, which skips white space, takes an
optional sign and the digits that follow, and ignores what comes after them.

A printed number is read back (`stoll_decimalInt`), so printing is injective, and its
text has no byte other than digits and a leading minus (`mem_decimalInt`).
-/

namespace Ridgeline

/-- The byte is one of `0` to `9`. -/
def IsDigit (b : UInt8) : Prop :=
  48 ≤ b ∧ b ≤ 57

instance (b : UInt8) : Decidable (IsDigit b) :=
  inferInstanceAs (Decidable (_ ∧ _))

/-- The digit `d`. -/
def digitByte (d : ℕ) : UInt8 :=
  UInt8.ofNat (48 + d)

/-- `std::to_string` of an unsigned integer. -/
def decimal (n : ℕ) : Bytes :=
  if n = 0 then [48] else ((Nat.digits 10 n).map digitByte).reverse

/-- `std::to_string` of a signed integer. -/
def decimalInt : ℤ → Bytes
  | .ofNat n => decimal n
  | .negSucc n => 45 :: decimal (n + 1)

/-- The number a string of digits denotes. -/
def ofDecimal (bs : Bytes) : ℕ :=
  bs.foldl (fun n b => 10 * n + (b.toNat - 48)) 0

/-- `isspace` in the C locale. -/
def isSpace (b : UInt8) : Bool :=
  b == 32 || (9 ≤ b && b ≤ 13)

/-- The digits that `strtoll` takes, and their value if there are any. -/
def leadingNat (bs : Bytes) : Option ℕ :=
  let ds := bs.takeWhile fun b => decide (IsDigit b)
  if ds = [] then none else some (ofDecimal ds)

/-- `std::stoll`. It throws `invalid_argument` where there is no digit, and
`out_of_range` outside of 64 bits. -/
def stoll (bs : Bytes) : Option ℤ :=
  let value : Option ℤ :=
    match bs.dropWhile isSpace with
    | 45 :: ds => (leadingNat ds).map fun n : ℕ => -(n : ℤ)
    | 43 :: ds => (leadingNat ds).map fun n : ℕ => (n : ℤ)
    | ds => (leadingNat ds).map fun n : ℕ => (n : ℤ)
  value.filter fun z => -2 ^ 63 ≤ z ∧ z < 2 ^ 63

/-! ## Reading back -/

theorem stoll_range {bs : Bytes} {z : ℤ} (h : stoll bs = some z) : -2 ^ 63 ≤ z ∧ z < 2 ^ 63 := by
  unfold stoll at h
  simpa using (Option.filter_eq_some_iff.1 h).2

theorem toNat_digitByte {d : ℕ} (h : d < 10) : (digitByte d).toNat = 48 + d := by
  rw [digitByte, UInt8.toNat_ofNat']
  omega

theorem isDigit_digitByte {d : ℕ} (h : d < 10) : IsDigit (digitByte d) := by
  simp only [IsDigit, UInt8.le_iff_toNat_le, toNat_digitByte h]
  exact ⟨Nat.le_add_right 48 d, by simpa using (by omega : 48 + d ≤ 57)⟩

theorem isDigit_of_mem_decimal {n : ℕ} {b : UInt8} (hb : b ∈ decimal n) : IsDigit b := by
  unfold decimal at hb
  split_ifs at hb
  · rw [List.mem_singleton.1 hb]
    decide
  · obtain ⟨d, hd, rfl⟩ := List.mem_map.1 (List.mem_reverse.1 hb)
    exact isDigit_digitByte (Nat.digits_lt_base (by omega) hd)

theorem decimal_ne_nil (n : ℕ) : decimal n ≠ [] := by
  unfold decimal
  split_ifs with h
  · exact List.cons_ne_nil _ _
  · simpa using Nat.digits_ne_nil_iff_ne_zero.2 h

theorem ofDecimal_reverse_map : ∀ {ds : List ℕ}, (∀ d ∈ ds, d < 10) →
    ofDecimal (ds.map digitByte).reverse = Nat.ofDigits 10 ds
  | [], _ => rfl
  | d :: ds, h => by
    have ih := ofDecimal_reverse_map fun e he => h e (List.mem_cons_of_mem d he)
    have hd := toNat_digitByte (h d List.mem_cons_self)
    simp only [ofDecimal] at ih
    rw [List.map_cons, List.reverse_cons, ofDecimal, List.foldl_append, ih, Nat.ofDigits_cons,
      List.foldl_cons, List.foldl_nil, hd]
    simp
    omega

theorem ofDecimal_decimal (n : ℕ) : ofDecimal (decimal n) = n := by
  unfold decimal
  split_ifs with h
  · rw [h]
    rfl
  · rw [ofDecimal_reverse_map fun d hd => Nat.digits_lt_base (by omega) hd, Nat.ofDigits_digits]

theorem decimal_injective : Function.Injective decimal :=
  Function.LeftInverse.injective ofDecimal_decimal

theorem leadingNat_decimal (n : ℕ) : leadingNat (decimal n) = some n := by
  have hall : (decimal n).takeWhile (fun b => decide (IsDigit b)) = decimal n := by
    rw [List.takeWhile_eq_self_iff]
    exact fun b hb => decide_eq_true (isDigit_of_mem_decimal hb)
  rw [leadingNat, hall]
  simp [decimal_ne_nil, ofDecimal_decimal]

theorem decimal_eq_cons (n : ℕ) : ∃ b bs, decimal n = b :: bs ∧ IsDigit b := by
  obtain ⟨b, bs, h⟩ := List.exists_cons_of_ne_nil (decimal_ne_nil n)
  exact ⟨b, bs, h, isDigit_of_mem_decimal (h ▸ List.mem_cons_self)⟩

theorem IsDigit.toNat {b : UInt8} (h : IsDigit b) : 48 ≤ b.toNat ∧ b.toNat ≤ 57 :=
  ⟨UInt8.le_iff_toNat_le.1 h.1, UInt8.le_iff_toNat_le.1 h.2⟩

theorem IsDigit.isSpace_eq_false {b : UInt8} (h : IsDigit b) : isSpace b = false := by
  have := h.toNat
  simp only [isSpace, Bool.or_eq_false_iff, beq_eq_false_iff_ne, Bool.and_eq_false_iff,
    decide_eq_false_iff_not, UInt8.le_iff_toNat_le, ne_eq, ← UInt8.toNat_inj]
  exact ⟨fun h32 => by simp at h32; omega, .inr (fun h13 => by simp at h13; omega)⟩

/-- A digit at the front is neither white space nor a sign. -/
theorem stoll_of_isDigit {b : UInt8} {bs : Bytes} (h : IsDigit b) : stoll (b :: bs) =
    ((leadingNat (b :: bs)).map fun n : ℕ => (n : ℤ)).filter fun z => -2 ^ 63 ≤ z ∧ z < 2 ^ 63 := by
  have hdrop : (b :: bs).dropWhile isSpace = b :: bs :=
    List.dropWhile_cons_of_neg (by simp [h.isSpace_eq_false])
  have h45 : b ≠ 45 := by
    rintro rfl
    exact absurd h (by decide)
  have h43 : b ≠ 43 := by
    rintro rfl
    exact absurd h (by decide)
  simp only [stoll, hdrop]
  split
  · rename_i heq
    exact absurd (List.cons.inj heq).1 h45
  · rename_i heq
    exact absurd (List.cons.inj heq).1 h43
  · rfl

theorem stoll_decimalInt_eq (z : ℤ) :
    stoll (decimalInt z) = (some z).filter fun z => -2 ^ 63 ≤ z ∧ z < 2 ^ 63 := by
  cases z with
  | ofNat n =>
    obtain ⟨b, bs, h, hb⟩ := decimal_eq_cons n
    rw [decimalInt, h, stoll_of_isDigit hb, ← h, leadingNat_decimal, Option.map_some]
    rfl
  | negSucc n =>
    have hdrop : (45 :: decimal (n + 1)).dropWhile isSpace = 45 :: decimal (n + 1) := rfl
    simp only [decimalInt, stoll, hdrop, leadingNat_decimal, Option.map_some]
    rfl

/-- `std::stoll` reads back what `std::to_string` prints. -/
theorem stoll_decimalInt {z : ℤ} (hlo : -2 ^ 63 ≤ z) (hhi : z < 2 ^ 63) :
    stoll (decimalInt z) = some z := by
  rw [stoll_decimalInt_eq]
  exact Option.filter_some_pos (decide_eq_true ⟨hlo, hhi⟩)

theorem eq_of_stoll_decimalInt {y z : ℤ} (h : stoll (decimalInt z) = some y) : y = z := by
  rw [stoll_decimalInt_eq] at h
  exact (Option.some.inj (Option.filter_eq_some_iff.1 h).1).symm

theorem decimalInt_injective : Function.Injective decimalInt := by
  have hminus : ∀ n bs, decimal n ≠ 45 :: bs := fun n bs h =>
    absurd (isDigit_of_mem_decimal (h ▸ List.mem_cons_self : (45 : UInt8) ∈ decimal n)) (by decide)
  rintro (n | n) (m | m) h
  · rw [decimal_injective h]
  · exact absurd h (hminus n _)
  · exact absurd h.symm (hminus m _)
  · have := decimal_injective (List.cons.inj h).2
    rw [Nat.succ_injective this]

/-- The text of a number has digits and a minus only. -/
theorem mem_decimalInt {z : ℤ} {b : UInt8} (hb : b ∈ decimalInt z) : b = 45 ∨ IsDigit b := by
  cases z with
  | ofNat n => exact .inr (isDigit_of_mem_decimal hb)
  | negSucc n =>
    rcases List.mem_cons.1 hb with rfl | hb
    · exact .inl rfl
    · exact .inr (isDigit_of_mem_decimal hb)

example : decimalInt (-1024) = ascii "-1024" := by decide

example : stoll (ascii " +12x") = some 12 := by decide

end Ridgeline
