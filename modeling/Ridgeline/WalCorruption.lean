import Ridgeline.Crc32

/-!
# Corrupted records

`Crc32` is a register of 32 bits that takes the payload bit by bit, so a change inside four
consecutive bytes of a payload is always noticed (`burst_detected`).

The checksum is of the payload only. A flipped bit of the seq is never noticed, and one that makes
the length smaller is noticed only if the shorter payload has another checksum
(`flip_safe_iff`). All other single bits are safe.
-/

namespace Ridgeline

/-! ## A burst in the payload -/

/-- The header of a record. -/
def recordHeader (r : WalRecord) : Bytes :=
  leBytes 8 r.seq.toNat ++ leBytes 4 (r.payload.length % 2 ^ 32) ++
    leBytes 4 (crc32 r.payload).toNat

theorem length_recordHeader (r : WalRecord) :
    (recordHeader r).length = kWalRecordHeaderBytes := by
  simp [recordHeader, kWalRecordHeaderBytes]

theorem encodeRecord_eq (r : WalRecord) : encodeRecord r = recordHeader r ++ r.payload :=
  rfl

/-- Another payload of the same length, with another checksum, is refused. -/
theorem decodeRecord_other_payload {r : WalRecord} (hr : r.payload.length ≤ kWalMaxPayloadBytes)
    {p : Bytes} (hp : p.length = r.payload.length) (hcrc : crc32 p ≠ crc32 r.payload) :
    decodeRecord (recordHeader r ++ p) 0 = none := by
  rw [recordHeader, decodeRecord_header (by simp) (by simp) (by simp), lengthField hr, crcField,
    List.take_of_length_le hp.le]
  exact if_neg fun h => hcrc h.2.2

/-- Lists that agree outside of `n` consecutive places, cut at these. -/
theorem exists_window {α : Type*} {l l' : List α} (hlength : l.length = l'.length) {j n : ℕ}
    (hsame : ∀ i, i < j ∨ j + n ≤ i → l[i]? = l'[i]?) : ∃ pre xs ys post,
      l = pre ++ xs ++ post ∧ l' = pre ++ ys ++ post ∧ xs.length = ys.length ∧ xs.length ≤ n := by
  have hcut : ∀ k : List α, k = k.take j ++ (k.drop j).take n ++ k.drop (j + n) := fun k => by
    rw [List.append_assoc, ← List.drop_drop, List.take_append_drop, List.take_append_drop]
  have htake : l'.take j = l.take j := by
    refine List.ext_getElem? fun i => ?_
    rw [List.getElem?_take, List.getElem?_take]
    split_ifs with hi
    · exact (hsame i (.inl hi)).symm
    · rfl
  have hdrop : l'.drop (j + n) = l.drop (j + n) := by
    refine List.ext_getElem? fun i => ?_
    rw [List.getElem?_drop, List.getElem?_drop]
    exact (hsame _ (.inr (Nat.le_add_right _ _))).symm
  refine ⟨_, _, (l'.drop j).take n, _, hcut l, ?_, ?_, ?_⟩
  · rw [← htake, ← hdrop]
    exact hcut l'
  · simp [hlength]
  · simp

/-- A change inside four consecutive bytes of the payload leaves the header, and is one of the
payload. -/
theorem exists_changed_payload {r : WalRecord} {bs : Bytes}
    (hlength : bs.length = (encodeRecord r).length) {j : ℕ}
    (hsame : ∀ i, i < kWalRecordHeaderBytes + j ∨ kWalRecordHeaderBytes + j + 4 ≤ i →
      bs[i]? = (encodeRecord r)[i]?) :
    ∃ p, bs = recordHeader r ++ p ∧ p.length = r.payload.length ∧
      ∀ i, i < j ∨ j + 4 ≤ i → p[i]? = r.payload[i]? := by
  have hheader : bs.take kWalRecordHeaderBytes = recordHeader r := by
    refine List.ext_getElem? fun i => ?_
    rw [List.getElem?_take]
    split_ifs with hi
    · rw [hsame i (.inl (by omega)), encodeRecord_eq,
        List.getElem?_append_left (by rwa [length_recordHeader])]
    · rw [List.getElem?_eq_none (by rw [length_recordHeader]; omega)]
  rw [length_encodeRecord] at hlength
  refine ⟨bs.drop kWalRecordHeaderBytes, ?_, ?_, fun i hi => ?_⟩
  · rw [← hheader, List.take_append_drop]
  · rw [List.length_drop]
    omega
  · rw [List.getElem?_drop, hsame _ (by omega), encodeRecord_eq,
      List.getElem?_append_right (by rw [length_recordHeader]; omega), length_recordHeader,
      Nat.add_sub_cancel_left]

/-- For every record within the cap, and every change of its bytes inside four consecutive ones of
its payload. -/
theorem burst_detected {r : WalRecord} (hr : r.payload.length ≤ kWalMaxPayloadBytes) {bs : Bytes}
    (hlength : bs.length = (encodeRecord r).length) (hne : bs ≠ encodeRecord r) {j : ℕ}
    (hsame : ∀ i, i < kWalRecordHeaderBytes + j ∨ kWalRecordHeaderBytes + j + 4 ≤ i →
      bs[i]? = (encodeRecord r)[i]?) : decodeRecord bs 0 = none := by
  obtain ⟨p, rfl, hpayload, hbytes⟩ := exists_changed_payload hlength hsame
  refine decodeRecord_other_payload hr hpayload ?_
  obtain ⟨pre, xs, ys, post, rfl, hys, hxy, hxs⟩ := exists_window hpayload hbytes
  rw [hys]
  refine crc32_ne_of_burst pre post hxy hxs ?_
  rintro rfl
  exact hne (by rw [encodeRecord_eq, hys])

/-- Two bytes of a payload are changed. -/
theorem burst_detected_twoBytes :
    decodeRecord (recordHeader ⟨5, ascii "event"⟩ ++ ascii "eXeYt") 0 = none := by
  refine burst_detected (r := ⟨5, ascii "event"⟩) (j := 1) (by decide) (by decide +kernel)
    (by decide +kernel) ?_
  rintro i (hi | hi)
  · revert i
    decide +kernel
  · have hend : 21 ≤ i := hi
    rw [List.getElem?_eq_none, List.getElem?_eq_none] <;> exact hend

/-! ## A flipped bit -/

/-- The bit `i` of a byte string is inverted, counted from the lowest bit of its first byte. -/
def flipBit : Bytes → ℕ → Bytes
  | [], _ => []
  | b :: bs, i => if i < 8 then (b ^^^ (1 <<< UInt8.ofNat i)) :: bs else b :: flipBit bs (i - 8)

theorem xor_two_pow_ne (n i : ℕ) : n ^^^ 2 ^ i ≠ n := by
  intro h
  have hbit := congrArg (Nat.testBit · i) h
  simp [Nat.testBit_xor] at hbit

theorem toNat_flip (b : UInt8) {i : ℕ} (hi : i < 8) :
    (b ^^^ (1 <<< UInt8.ofNat i)).toNat = b.toNat ^^^ 2 ^ i := by
  have hmask : (1 <<< UInt8.ofNat i).toNat = 2 ^ i := by
    revert i
    decide
  rw [UInt8.toNat_xor, hmask]

@[simp] theorem length_flipBit : ∀ (bs : Bytes) (i : ℕ), (flipBit bs i).length = bs.length
  | [], _ => rfl
  | b :: bs, i => by
    unfold flipBit
    split_ifs
    · rfl
    · rw [List.length_cons, length_flipBit, List.length_cons]

theorem flipBit_append_left : ∀ {xs : Bytes} (ys : Bytes) {i : ℕ}, i < 8 * xs.length →
    flipBit (xs ++ ys) i = flipBit xs i ++ ys
  | [], _, _, hi => absurd hi (Nat.not_lt_zero _)
  | x :: xs, ys, i, hi => by
    rw [List.cons_append, flipBit, flipBit]
    split_ifs with hlow
    · rfl
    · rw [flipBit_append_left ys (by rw [List.length_cons] at hi; omega), List.cons_append]

theorem flipBit_append_right : ∀ {xs : Bytes} (ys : Bytes) {n : ℕ} (i : ℕ), 8 * xs.length = n →
    flipBit (xs ++ ys) (n + i) = xs ++ flipBit ys i
  | [], ys, n, i, hn => by
    obtain rfl : 0 = n := hn
    rw [List.nil_append, Nat.zero_add, List.nil_append]
  | x :: xs, ys, n, i, hn => by
    rw [List.length_cons] at hn
    have hrest : n + i - 8 = n - 8 + i := by omega
    rw [List.cons_append, flipBit, if_neg (by omega), hrest,
      flipBit_append_right ys i (by omega), List.cons_append]

/-- The byte that has the bit is changed, and no other. -/
theorem exists_flipBit : ∀ (bs : Bytes) (i : ℕ), i < 8 * bs.length → ∃ pre b b' post,
    bs = pre ++ [b] ++ post ∧ flipBit bs i = pre ++ [b'] ++ post ∧ b ≠ b'
  | [], _, hi => absurd hi (Nat.not_lt_zero _)
  | b :: bs, i, hi => by
    rw [flipBit]
    split_ifs with hlow
    · refine ⟨[], b, _, bs, rfl, rfl, fun h => ?_⟩
      have hnat := congrArg UInt8.toNat h
      rw [toNat_flip b hlow] at hnat
      exact xor_two_pow_ne _ _ hnat.symm
    · obtain ⟨pre, c, c', post, rfl, heq, hne⟩ :=
        exists_flipBit bs (i - 8) (by rw [List.length_cons] at hi; omega)
      exact ⟨b :: pre, c, c', post, rfl, by rw [heq]; rfl, hne⟩

theorem xor_two_limbs (a a' : ℕ) {b b' : ℕ} (hb : b < 256) (hb' : b' < 256) :
    (b + 256 * a) ^^^ (b' + 256 * a') = (b ^^^ b') + 256 * (a ^^^ a') := by
  have hxor : b ^^^ b' < 2 ^ 8 := Nat.xor_lt_two_pow hb hb'
  refine Nat.eq_of_testBit_eq fun j => ?_
  rw [Nat.testBit_xor, Nat.add_comm b, Nat.add_comm b', Nat.add_comm (b ^^^ b'),
    show 256 = 2 ^ 8 from rfl, Nat.testBit_two_pow_mul_add _ hb, Nat.testBit_two_pow_mul_add _ hb',
    Nat.testBit_two_pow_mul_add _ hxor]
  split_ifs <;> rw [Nat.testBit_xor]

/-- A flipped bit of a little-endian field is that bit of its number. -/
theorem ofLeBytes_flipBit : ∀ {bs : Bytes} {i : ℕ}, i < 8 * bs.length →
    ofLeBytes (flipBit bs i) = ofLeBytes bs ^^^ 2 ^ i
  | [], _, hi => absurd hi (Nat.not_lt_zero _)
  | b :: bs, i, hi => by
    have hb := b.toNat_lt
    rw [flipBit]
    split_ifs with hlow
    · have hpow : 2 ^ i < 256 := Nat.pow_lt_pow_right (by decide) hlow
      have hlimbs := xor_two_limbs (ofLeBytes bs) 0 hb hpow
      rw [Nat.mul_zero, Nat.add_zero, Nat.xor_zero] at hlimbs
      rw [ofLeBytes, ofLeBytes, toNat_flip b hlow, hlimbs]
    · have hpow : 256 * 2 ^ (i - 8) = 2 ^ i := by
        rw [show 256 = 2 ^ 8 from rfl, ← Nat.pow_add, Nat.add_sub_cancel' (not_lt.1 hlow)]
      have hlimbs := xor_two_limbs (ofLeBytes bs) (2 ^ (i - 8)) hb (by decide : 0 < 256)
      rw [Nat.zero_add, hpow, Nat.xor_zero] at hlimbs
      rw [ofLeBytes, ofLeBytes, hlimbs,
        ofLeBytes_flipBit (by rw [List.length_cons] at hi; omega)]

/-- What `DecodeRecord` reads of the record with the bit `i` inverted is the record itself. -/
def FlipSafe (r : WalRecord) (i : ℕ) : Prop :=
  ∀ r' recordEnd, decodeRecord (flipBit (encodeRecord r) i) 0 = some (r', recordEnd) → r' = r

section

variable {r : WalRecord} (hr : r.payload.length ≤ kWalMaxPayloadBytes) {i : ℕ}
include hr

/-- A flipped bit of the seq is read as another seq. -/
theorem decodeRecord_flip_seq (hi : i < 64) : decodeRecord (flipBit (encodeRecord r) i) 0 =
    some (⟨UInt64.ofNat (r.seq.toNat ^^^ 2 ^ i), r.payload⟩,
      kWalRecordHeaderBytes + r.payload.length) := by
  have hseq : ofLeBytes (flipBit (leBytes 8 r.seq.toNat) i) = r.seq.toNat ^^^ 2 ^ i := by
    rw [ofLeBytes_flipBit (by simpa using hi), ofLeBytes_leBytes r.seq.toNat_lt]
  rw [encodeRecord, flipBit_append_left _ (by simp; omega), flipBit_append_left _ (by simp; omega),
    flipBit_append_left _ (by simp; omega), decodeRecord_header (by simp) (by simp) (by simp),
    lengthField hr, crcField, hseq, if_pos (by simp [hr])]
  simp

/-- One of the length is read only if it makes the payload shorter and leaves its checksum. -/
theorem decodeRecord_flip_length (hi : i < 32) :
    decodeRecord (flipBit (encodeRecord r) (64 + i)) 0 =
      if r.payload.length ^^^ 2 ^ i < r.payload.length ∧
          crc32 (r.payload.take (r.payload.length ^^^ 2 ^ i)) = crc32 r.payload then
        some (⟨r.seq, r.payload.take (r.payload.length ^^^ 2 ^ i)⟩,
          kWalRecordHeaderBytes + (r.payload.length ^^^ 2 ^ i))
      else none := by
  have hfield : flipBit (leBytes 8 r.seq.toNat ++ leBytes 4 (r.payload.length % 2 ^ 32)) (64 + i) =
      leBytes 8 r.seq.toNat ++ flipBit (leBytes 4 (r.payload.length % 2 ^ 32)) i :=
    flipBit_append_right _ i (by simp)
  have hlength : ofLeBytes (flipBit (leBytes 4 (r.payload.length % 2 ^ 32)) i) =
      r.payload.length ^^^ 2 ^ i := by
    rw [ofLeBytes_flipBit (by simpa using hi), lengthField hr]
  have hne := xor_two_pow_ne r.payload.length i
  rw [encodeRecord, flipBit_append_left _ (by simp; omega), flipBit_append_left _ (by simp; omega),
    hfield, decodeRecord_header (by simp) (by simp) (by simp), hlength, seqField, crcField]
  refine if_congr ?_ rfl rfl
  constructor
  · rintro ⟨-, hle, hcrc⟩
    exact ⟨lt_of_le_of_ne hle hne, hcrc⟩
  · rintro ⟨hlt, hcrc⟩
    exact ⟨hlt.le.trans hr, hlt.le, hcrc⟩

/-- One of the checksum is noticed. -/
theorem decodeRecord_flip_crc (hi : i < 32) :
    decodeRecord (flipBit (encodeRecord r) (96 + i)) 0 = none := by
  have hfield : flipBit (recordHeader r) (96 + i) = leBytes 8 r.seq.toNat ++
      leBytes 4 (r.payload.length % 2 ^ 32) ++ flipBit (leBytes 4 (crc32 r.payload).toNat) i :=
    flipBit_append_right _ i (by simp)
  have hcrc : ofLeBytes (flipBit (leBytes 4 (crc32 r.payload).toNat) i) =
      (crc32 r.payload).toNat ^^^ 2 ^ i := by
    rw [ofLeBytes_flipBit (by simpa using hi), ofLeBytes_leBytes (crc32 r.payload).toNat_lt]
  have hlt : (crc32 r.payload).toNat ^^^ 2 ^ i < 2 ^ 32 :=
    Nat.xor_lt_two_pow (crc32 r.payload).toNat_lt (Nat.pow_lt_pow_right (by decide) hi)
  have hother : crc32 r.payload ≠ UInt32.ofNat ((crc32 r.payload).toNat ^^^ 2 ^ i) := by
    intro h
    have hnat := congrArg UInt32.toNat h
    rw [UInt32.toNat_ofNat', Nat.mod_eq_of_lt hlt] at hnat
    exact xor_two_pow_ne _ _ hnat.symm
  have hheader : 96 + i < 8 * (recordHeader r).length := by
    rw [length_recordHeader, kWalRecordHeaderBytes]
    omega
  rw [encodeRecord_eq, flipBit_append_left _ hheader, hfield,
    decodeRecord_header (by simp) (by simp) (by simp), lengthField hr, hcrc,
    List.take_of_length_le le_rfl, if_neg fun h => hother h.2.2]

/-- One of the payload is noticed. -/
theorem decodeRecord_flip_payload (hi : i < 8 * r.payload.length) :
    decodeRecord (flipBit (encodeRecord r) (128 + i)) 0 = none := by
  have hfield : flipBit (encodeRecord r) (128 + i) = recordHeader r ++ flipBit r.payload i :=
    flipBit_append_right _ i (by simp)
  obtain ⟨pre, b, b', post, hbytes, hflip, hne⟩ := exists_flipBit r.payload i hi
  rw [hfield]
  refine decodeRecord_other_payload hr (length_flipBit _ _) ?_
  rw [hflip, hbytes]
  exact crc32_ne_of_burst pre post rfl (by simp) fun h => hne (List.singleton_inj.1 h).symm

/-- A record with another seq is read. -/
theorem not_flipSafe_seq (hi : i < 64) : ¬ FlipSafe r i := by
  intro hsafe
  have hread := congrArg WalRecord.seq (hsafe _ _ (decodeRecord_flip_seq hr hi))
  have hnat := congrArg UInt64.toNat hread
  have hlt : r.seq.toNat ^^^ 2 ^ i < 2 ^ 64 :=
    Nat.xor_lt_two_pow r.seq.toNat_lt (Nat.pow_lt_pow_right (by decide) hi)
  rw [UInt64.toNat_ofNat', Nat.mod_eq_of_lt hlt] at hnat
  exact xor_two_pow_ne _ _ hnat

theorem flipSafe_length_iff (hi : i < 32) :
    FlipSafe r (64 + i) ↔ (r.payload.length ^^^ 2 ^ i < r.payload.length →
      crc32 (r.payload.take (r.payload.length ^^^ 2 ^ i)) ≠ crc32 r.payload) := by
  have hread := decodeRecord_flip_length hr hi
  by_cases hshort : r.payload.length ^^^ 2 ^ i < r.payload.length ∧
      crc32 (r.payload.take (r.payload.length ^^^ 2 ^ i)) = crc32 r.payload
  · -- a shorter payload is read
    rw [if_pos hshort] at hread
    refine iff_of_false (fun hsafe => ?_) fun h => h hshort.1 hshort.2
    have hpayload := congrArg (fun r' => r'.payload.length) (hsafe _ _ hread)
    simp only [List.length_take] at hpayload
    omega
  · rw [if_neg hshort] at hread
    exact iff_of_true (fun _ _ h => by simp [hread] at h) fun hlt hcrc => hshort ⟨hlt, hcrc⟩

/-- Behind the length every bit is noticed. -/
theorem decodeRecord_flip_behind (hi : 96 + i < 8 * (encodeRecord r).length) :
    decodeRecord (flipBit (encodeRecord r) (96 + i)) 0 = none := by
  rw [length_encodeRecord, kWalRecordHeaderBytes] at hi
  rcases Nat.lt_or_ge i 32 with hcrc | hcrc
  · exact decodeRecord_flip_crc hr hcrc
  · obtain ⟨k, rfl⟩ := Nat.exists_eq_add_of_le hcrc
    rw [← Nat.add_assoc]
    exact decodeRecord_flip_payload hr (by omega)

/-- For every record within the cap and every single bit of it. -/
theorem flip_safe_iff (hi : i < 8 * (encodeRecord r).length) :
    FlipSafe r i ↔ 64 ≤ i ∧ (i < 96 →
      r.payload.length ^^^ 2 ^ (i - 64) < r.payload.length →
        crc32 (r.payload.take (r.payload.length ^^^ 2 ^ (i - 64))) ≠ crc32 r.payload) := by
  rcases Nat.lt_or_ge i 64 with hseq | hseq
  · exact iff_of_false (not_flipSafe_seq hr hseq) fun h => absurd h.1 (not_le.2 hseq)
  obtain ⟨k, rfl⟩ := Nat.exists_eq_add_of_le hseq
  rw [Nat.add_sub_cancel_left]
  rcases Nat.lt_or_ge k 32 with hlength | hlength
  · rw [flipSafe_length_iff hr hlength]
    exact ⟨fun h => ⟨hseq, fun _ => h⟩, fun h => h.2 (by omega)⟩
  · obtain ⟨j, rfl⟩ := Nat.exists_eq_add_of_le hlength
    rw [← Nat.add_assoc] at hi ⊢
    have hnone := decodeRecord_flip_behind hr hi
    exact iff_of_true (fun _ _ h => by simp [hnone] at h) ⟨by omega, fun h => by omega⟩

end

/-- A bit of the payload. -/
theorem flip_safe_iff_payloadBit :
    130 < 8 * (encodeRecord ⟨5, ascii "event"⟩).length ∧ FlipSafe ⟨5, ascii "event"⟩ 130 :=
  ⟨by decide +kernel, (flip_safe_iff (by decide) (by decide +kernel)).2
    ⟨by decide, fun h => absurd h (by decide)⟩⟩

/-- The lowest bit of the seq makes 4 of 5. Four bytes with the checksum 0, which is that of the
empty payload, are lost with a bit of their length. -/
theorem flipped_bits_unnoticed :
    decodeRecord (flipBit (encodeRecord ⟨5, ascii "event"⟩) 0) 0 =
        some (⟨4, ascii "event"⟩, 21) ∧
      decodeRecord (flipBit (encodeRecord ⟨5, [0x9D, 0x0A, 0xD9, 0x6D]⟩) 66) 0 =
        some (⟨5, []⟩, 16) := by
  decide +kernel

end Ridgeline
