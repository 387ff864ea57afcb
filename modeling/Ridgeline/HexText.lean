import Ridgeline.DesiredConfigs

/-!
# Hexadecimal text

`ToHex`, two digits for a byte, and `FromHex`, which reads pairs of characters with `std::stoi` in
base 16. What is printed is read back (`fromHex_toHex`), so printing is injective.

Of a pair, `std::stoi` skips white space, takes a sign, and throws if no digit follows. A text of
any kind is therefore read, or makes `FromHex` throw, as its pairs do (`fromHex_isSome_iff`).
-/

namespace Ridgeline

/-! ## Printing -/

/-- `kHex`. -/
def kHex : Bytes :=
  ascii "0123456789abcdef"

/-- The two digits of a byte. -/
def hexPair (c : UInt8) : Bytes :=
  [kHex.getD (c >>> 4).toNat 0, kHex.getD (c &&& 0xF).toNat 0]

/-- `ToHex`. -/
def toHex (bytes : Bytes) : Bytes :=
  bytes.flatMap hexPair

/-! ## Reading -/

/-- The value of a digit. -/
def hexValue (b : UInt8) : Option ℕ :=
  if 48 ≤ b.toNat ∧ b.toNat ≤ 57 then some (b.toNat - 48)
  else if 97 ≤ b.toNat ∧ b.toNat ≤ 102 then some (b.toNat - 87)
  else if 65 ≤ b.toNat ∧ b.toNat ≤ 70 then some (b.toNat - 55)
  else none

/-- The byte is a digit. -/
def IsHexDigit (b : UInt8) : Prop :=
  (hexValue b).isSome

instance decidableIsHexDigit (b : UInt8) : Decidable (IsHexDigit b) :=
  inferInstanceAs (Decidable (_ = true))

/-- The number that a string of digits denotes. -/
def ofHex (ds : Bytes) : ℕ :=
  ds.foldl (fun n b => 16 * n + (hexValue b).getD 0) 0

/-- The value of the digits at the front, if there are any. -/
def leadingHex (bs : Bytes) : Option ℕ :=
  let ds := bs.takeWhile fun b => decide (IsHexDigit b)
  if ds = [] then none else some (ofHex ds)

/-- The number behind the sign. It may begin with `0x`; if no digit follows, the 0 is the number. -/
def hexNumber : Bytes → Option ℕ
  | 48 :: x :: bs =>
    if x = 120 ∨ x = 88 then (leadingHex bs).or (some 0) else leadingHex (48 :: x :: bs)
  | bs => leadingHex bs

/-- The number with its sign. -/
def signedHex : Bytes → Option ℤ
  | 45 :: ds => (hexNumber ds).map fun n : ℕ => -(n : ℤ)
  | 43 :: ds => (hexNumber ds).map fun n : ℕ => (n : ℤ)
  | ds => (hexNumber ds).map fun n : ℕ => (n : ℤ)

/-- `std::stoi` with base 16. It throws `invalid_argument` where there is no digit, and
`out_of_range` outside of 32 bits. -/
def stoi16 (text : Bytes) : Option ℤ :=
  (signedHex ((cStr text).dropWhile isSpace)).filter fun z => -2 ^ 31 ≤ z ∧ z < 2 ^ 31

/-- The cast of an `int` to `char`. -/
def charOfInt (z : ℤ) : UInt8 :=
  UInt8.ofNat (z % 256).toNat

/-- `FromHex`. A last character without a second is not read. -/
def fromHex : Bytes → Option Bytes
  | a :: b :: rest => do
    let z ← stoi16 [a, b]
    let out ← fromHex rest
    return charOfInt z :: out
  | _ => some []

/-! ## Reading back -/

theorem stoi16_hexPair (c : UInt8) : stoi16 (hexPair c) = some (c.toNat : ℤ) := by
  have h : ∀ n : Fin 256, stoi16 (hexPair (UInt8.ofNat n.val)) = some (n.val : ℤ) := by
    decide +kernel
  simpa using h ⟨c.toNat, c.toNat_lt⟩

theorem charOfInt_toNat (c : UInt8) : charOfInt (c.toNat : ℤ) = c := by
  have hlt : c.toNat < 256 := c.toNat_lt
  rw [charOfInt, ← UInt8.toNat_inj, UInt8.toNat_ofNat']
  omega

theorem fromHex_toHex : ∀ bytes : Bytes, fromHex (toHex bytes) = some bytes
  | [] => rfl
  | c :: bytes => by
    have ih := fromHex_toHex bytes
    have hpair : toHex (c :: bytes) = hexPair c ++ toHex bytes := rfl
    rw [hpair, hexPair, List.cons_append, List.singleton_append, fromHex]
    change (stoi16 (hexPair c)).bind _ = _
    rw [stoi16_hexPair, Option.bind_some, ih]
    simp only [Option.bind_eq_bind, Option.bind_some, charOfInt_toNat]
    rfl

theorem toHex_injective : Function.Injective toHex := fun a b h =>
  Option.some.inj (by rw [← fromHex_toHex a, h, fromHex_toHex])

theorem getD_mem_kHex {i : ℕ} (h : i < 16) : kHex.getD i 0 ∈ kHex := by
  have hlt : i < kHex.length := h
  rw [List.getD_eq_getElem?_getD, List.getElem?_eq_getElem hlt]
  exact List.getElem_mem hlt

theorem mem_toHex {bytes : Bytes} {b : UInt8} (h : b ∈ toHex bytes) : b ∈ kHex := by
  obtain ⟨c, -, hb⟩ := List.mem_flatMap.1 h
  have hlt : c.toNat < 256 := c.toNat_lt
  have hhigh : (c >>> 4).toNat < 16 := by
    rw [UInt8.toNat_shiftRight, Nat.shiftRight_eq_div_pow]
    exact Nat.div_lt_of_lt_mul hlt
  have hlow : (c &&& 0xF).toNat < 16 := by
    rw [UInt8.toNat_and]
    exact Nat.and_lt_two_pow c.toNat (by decide : (0xF : UInt8).toNat < 2 ^ 4)
  simp only [hexPair, List.mem_cons, List.not_mem_nil, or_false] at hb
  rcases hb with rfl | rfl
  · exact getD_mem_kHex hhigh
  · exact getD_mem_kHex hlow

/-! ## Which pairs are read -/

/-- A pair that `std::stoi` reads a number from : a digit comes first, or second behind white
space or a sign. -/
def ReadablePair (a b : UInt8) : Prop :=
  IsHexDigit a ∨ ((isSpace a ∨ a = 43 ∨ a = 45) ∧ IsHexDigit b)

instance decidableReadablePair (a b : UInt8) : Decidable (ReadablePair a b) :=
  inferInstanceAs (Decidable (_ ∨ _))

/-- Every pair of the text can be read. -/
def HexReadable : Bytes → Prop
  | a :: b :: rest => ReadablePair a b ∧ HexReadable rest
  | _ => True

instance decidableHexReadable : ∀ bs, Decidable (HexReadable bs)
  | a :: b :: rest =>
    have := decidableHexReadable rest
    inferInstanceAs (Decidable (ReadablePair a b ∧ HexReadable rest))
  | [] => .isTrue trivial
  | [_] => .isTrue trivial

/-- A digit is not the end of the text, white space or a sign. -/
theorem IsHexDigit.ne {b : UInt8} (h : IsHexDigit b) :
    b ≠ 0 ∧ isSpace b = false ∧ b ≠ 43 ∧ b ≠ 45 := by
  have hall : ∀ n : Fin 256, IsHexDigit (UInt8.ofNat n.val) → UInt8.ofNat n.val ≠ 0 ∧
      isSpace (UInt8.ofNat n.val) = false ∧ UInt8.ofNat n.val ≠ 43 ∧ UInt8.ofNat n.val ≠ 45 := by
    decide +kernel
  simpa using hall ⟨b.toNat, b.toNat_lt⟩ (by simpa using h)

theorem leadingHex_isSome_iff {b : UInt8} {bs : Bytes} :
    (leadingHex (b :: bs)).isSome ↔ IsHexDigit b := by
  by_cases h : IsHexDigit b <;> simp [leadingHex, h]

theorem hexNumber_isSome_iff {b : UInt8} {bs : Bytes} :
    (hexNumber (b :: bs)).isSome ↔ IsHexDigit b := by
  unfold hexNumber
  split
  · next heq =>
    obtain ⟨rfl, rfl⟩ := List.cons.inj heq
    split_ifs
    · simpa using (by decide : IsHexDigit 48)
    · exact leadingHex_isSome_iff
  · exact leadingHex_isSome_iff

theorem signedHex_isSome_of_sign {b : UInt8} {bs : Bytes} (h : b = 43 ∨ b = 45) :
    (signedHex (b :: bs)).isSome = (hexNumber bs).isSome := by
  rcases h with rfl | rfl <;> simp [signedHex]

theorem signedHex_of_ne {b : UInt8} {bs : Bytes} (h43 : b ≠ 43) (h45 : b ≠ 45) :
    signedHex (b :: bs) = (hexNumber (b :: bs)).map fun n : ℕ => (n : ℤ) := by
  unfold signedHex
  split
  · next heq => exact absurd (List.cons.inj heq).1 h45
  · next heq => exact absurd (List.cons.inj heq).1 h43
  · rfl

theorem foldl_hexValue_lt : ∀ (ds : Bytes) (n : ℕ),
    ds.foldl (fun n b => 16 * n + (hexValue b).getD 0) n < (n + 1) * 16 ^ ds.length
  | [], n => by simp
  | d :: ds, n => by
    have hd : (hexValue d).getD 0 < 16 := by
      unfold hexValue
      split_ifs <;> simp <;> omega
    calc ds.foldl _ (16 * n + (hexValue d).getD 0)
        < (16 * n + (hexValue d).getD 0 + 1) * 16 ^ ds.length := foldl_hexValue_lt ds _
      _ ≤ (n + 1) * 16 * 16 ^ ds.length := Nat.mul_le_mul_right _ (by omega)
      _ = (n + 1) * 16 ^ (d :: ds).length := by rw [List.length_cons, pow_succ]; ring

theorem leadingHex_lt {bs : Bytes} {n : ℕ} (h : leadingHex bs = some n) : n < 16 ^ bs.length := by
  simp only [leadingHex] at h
  split_ifs at h
  obtain rfl := Option.some.inj h
  refine (foldl_hexValue_lt _ 0).trans_le ?_
  rw [Nat.zero_add, Nat.one_mul]
  exact Nat.pow_le_pow_right (by omega) (List.takeWhile_sublist _).length_le

theorem hexNumber_lt {bs : Bytes} {n : ℕ} (h : hexNumber bs = some n) : n < 16 ^ bs.length := by
  unfold hexNumber at h
  split at h
  · next x bs =>
    split_ifs at h
    · rcases Option.or_eq_some_iff.1 h with h | ⟨-, h⟩
      · refine (leadingHex_lt h).trans_le (Nat.pow_le_pow_right (by omega) ?_)
        simp only [List.length_cons]
        omega
      · obtain rfl := Option.some.inj h
        exact Nat.pow_pos (by omega)
    · exact leadingHex_lt h
  · exact leadingHex_lt h

/-- A text of at most two characters gives a number that fits. -/
theorem signedHex_range {bs : Bytes} {z : ℤ} (hlen : bs.length ≤ 2) (h : signedHex bs = some z) :
    -2 ^ 31 ≤ z ∧ z < 2 ^ 31 := by
  have hfits : ∀ {ds : Bytes} {n : ℕ}, ds.length ≤ 2 → hexNumber ds = some n → n < 16 ^ 2 :=
    fun hds hn => (hexNumber_lt hn).trans_le (Nat.pow_le_pow_right (by omega) hds)
  unfold signedHex at h
  split at h
  · obtain ⟨n, hn, rfl⟩ := Option.map_eq_some_iff.1 h
    have := hfits (Nat.le_of_succ_le hlen) hn
    omega
  · obtain ⟨n, hn, rfl⟩ := Option.map_eq_some_iff.1 h
    have := hfits (Nat.le_of_succ_le hlen) hn
    omega
  · obtain ⟨n, hn, rfl⟩ := Option.map_eq_some_iff.1 h
    have := hfits hlen hn
    omega

theorem stoi16_isSome_eq {text : Bytes} (hlen : text.length ≤ 2) :
    (stoi16 text).isSome = (signedHex ((cStr text).dropWhile isSpace)).isSome := by
  have hshort : ((cStr text).dropWhile isSpace).length ≤ 2 :=
    ((List.dropWhile_suffix _).length_le.trans (List.takeWhile_sublist _).length_le).trans hlen
  rw [stoi16]
  cases h : signedHex ((cStr text).dropWhile isSpace) with
  | none => rfl
  | some z => simpa using signedHex_range hshort h

/-- The digit that may follow white space or a sign. -/
theorem signedHex_second {b : UInt8} : (signedHex ((cStr [b]).dropWhile isSpace)).isSome ↔
    IsHexDigit b := by
  by_cases h0 : b = 0
  · subst h0
    decide
  have hcstr : cStr [b] = [b] := by simp [cStr, h0]
  rw [hcstr]
  cases hspace : isSpace b with
  | true =>
    rw [List.dropWhile_cons_of_pos hspace]
    refine iff_of_false (by decide) fun h => ?_
    rw [h.ne.2.1] at hspace
    cases hspace
  | false =>
    rw [List.dropWhile_cons_of_neg (by simp [hspace])]
    by_cases hsign : b = 43 ∨ b = 45
    · rw [signedHex_isSome_of_sign hsign]
      exact iff_of_false (by decide) fun h => hsign.elim h.ne.2.2.1 h.ne.2.2.2
    · obtain ⟨h43, h45⟩ := not_or.1 hsign
      rw [signedHex_of_ne h43 h45, Option.isSome_map, hexNumber_isSome_iff]

theorem hexNumber_second {b : UInt8} : (hexNumber (cStr [b])).isSome ↔ IsHexDigit b := by
  by_cases h0 : b = 0
  · subst h0
    decide
  · have hcstr : cStr [b] = [b] := by simp [cStr, h0]
    rw [hcstr, hexNumber_isSome_iff]

/-- `std::stoi` reads exactly the readable pairs. -/
theorem stoi16_isSome_iff (a b : UInt8) : (stoi16 [a, b]).isSome ↔ ReadablePair a b := by
  rw [stoi16_isSome_eq le_rfl, ReadablePair]
  by_cases h0 : a = 0
  · subst h0
    refine iff_of_false (by simp [cStr]; decide) ?_
    rintro (h | ⟨h | h | h, -⟩) <;> revert h <;> decide
  have hcstr : cStr [a, b] = a :: cStr [b] := by simp [cStr, h0]
  rw [hcstr]
  cases hspace : isSpace a with
  | true =>
    have hdigit : ¬ IsHexDigit a := fun h => by
      rw [h.ne.2.1] at hspace
      cases hspace
    rw [List.dropWhile_cons_of_pos hspace, signedHex_second]
    simp [hdigit]
  | false =>
    rw [List.dropWhile_cons_of_neg (by simp [hspace])]
    by_cases hsign : a = 43 ∨ a = 45
    · have hdigit : ¬ IsHexDigit a := fun h => hsign.elim h.ne.2.2.1 h.ne.2.2.2
      rw [signedHex_isSome_of_sign hsign, hexNumber_second]
      simp [hdigit, hsign]
    · obtain ⟨h43, h45⟩ := not_or.1 hsign
      rw [signedHex_of_ne h43 h45, Option.isSome_map, hexNumber_isSome_iff]
      simp [h43, h45]

/-- `FromHex` throws exactly for a text with a pair that cannot be read. -/
theorem fromHex_isSome_iff : ∀ bs : Bytes, (fromHex bs).isSome ↔ HexReadable bs
  | [] => by simp [fromHex, HexReadable]
  | [_] => by simp [fromHex, HexReadable]
  | a :: b :: rest => by
    rw [fromHex, HexReadable, ← stoi16_isSome_iff, ← fromHex_isSome_iff rest]
    cases stoi16 [a, b] <;> cases fromHex rest <;> simp

example : fromHex (ascii "0x-f 1+") = some [0, 241, 1] := by decide

end Ridgeline
