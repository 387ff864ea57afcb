import Mathlib.Logic.Function.Iterate
import Ridgeline.Word
import Ridgeline.Framing

/-!
# The record codec of the write-ahead log

`crc32.h` and `wal_record_codec.h`. A record is `[seq u64][len u32][crc32 u32][payload]`,
little-endian. `encodeRecord` writes one, `decodeRecord` reads one at an offset of a
buffer and refuses a short, oversized or corrupt one.

`walFraming` is the codec as a `Framing` : a record whose payload is at most
`kWalMaxPayloadBytes` decodes to itself, and what decodes re-encodes to the same bytes.
`whileDecode` is the loop `ReplayUnacked` and `Compact` share, and `whileDecode_eq` says
it folds its body over the records of the framing.
-/

namespace Ridgeline

/-! ## The checksum -/

/-- One of the eight steps that build a table entry. -/
def crc32Bit (c : UInt32) : UInt32 :=
  if c &&& 1 ≠ 0 then (0xEDB88320 : UInt32) ^^^ (c >>> 1) else c >>> 1

/-- The table of `Crc32` : entry `i` is eight steps from `i`. -/
def crc32Table : List UInt32 :=
  (List.range 256).map fun i => crc32Bit^[8] (UInt32.ofNat i)

/-- The register after the byte `b`. -/
def crc32Byte (crc : UInt32) (b : UInt8) : UInt32 :=
  crc32Table.getD ((crc ^^^ b.toUInt32) &&& 0xFF).toNat 0 ^^^ (crc >>> 8)

/-- `Crc32`. -/
def crc32 (data : Bytes) : UInt32 :=
  data.foldl crc32Byte 0xFFFFFFFF ^^^ 0xFFFFFFFF

/-! ## One record -/

/-- `WalRecord`. -/
structure WalRecord where
  seq : UInt64
  payload : Bytes
  deriving DecidableEq, Repr

/-- `kWalRecordHeaderBytes` : 8 for the seq, 4 for the length, 4 for the checksum. -/
def kWalRecordHeaderBytes : ℕ := 16

/-- `kWalMaxPayloadBytes`. -/
def kWalMaxPayloadBytes : ℕ := 16 * 1024 * 1024

/-- `EncodeRecord`. The length field is the payload's size cast to 32 bits. -/
def encodeRecord (r : WalRecord) : Bytes :=
  leBytes 8 r.seq.toNat ++ leBytes 4 (r.payload.length % 2 ^ 32) ++
    leBytes 4 (crc32 r.payload).toNat ++ r.payload

/-- `DecodeRecord` at `buf[offset..]` : the record and the offset past it, or `none` with
nothing consumed. -/
def decodeRecord (buf : Bytes) (offset : ℕ) : Option (WalRecord × ℕ) :=
  if offset + kWalRecordHeaderBytes > buf.length then none
  else
    let recordSeq := UInt64.ofNat (ofLeBytes ((buf.drop offset).take 8))
    let len := ofLeBytes ((buf.drop (offset + 8)).take 4)
    let storedCrc := UInt32.ofNat (ofLeBytes ((buf.drop (offset + 12)).take 4))
    if len > kWalMaxPayloadBytes then none
    else
      let recordEnd := offset + kWalRecordHeaderBytes + len
      if recordEnd > buf.length ∨ recordEnd < offset then none
      else
        let payload := (buf.drop (offset + kWalRecordHeaderBytes)).take len
        if crc32 payload ≠ storedCrc then none
        else some (⟨recordSeq, payload⟩, recordEnd)

/-- The loop `while (DecodeRecord(data, offset, seq, payload)) body` from `offset`, with
the accumulator and the offset it stops at. -/
def whileDecode {γ : Type*} (data : Bytes) (body : γ → WalRecord → γ) : ℕ → ℕ → γ → γ × ℕ
  | 0, offset, acc => (acc, offset)
  | fuel + 1, offset, acc =>
    match decodeRecord data offset with
    | none => (acc, offset)
    | some (r, next) => whileDecode data body fuel next (body acc r)

/-! ## The codec as a framing -/

@[simp] theorem length_encodeRecord (r : WalRecord) :
    (encodeRecord r).length = kWalRecordHeaderBytes + r.payload.length := by
  simp [encodeRecord, kWalRecordHeaderBytes]
  omega

theorem toNat_ofNat_ofLeBytes_eight {bs : Bytes} (h : bs.length = 8) :
    (UInt64.ofNat (ofLeBytes bs)).toNat = ofLeBytes bs := by
  have := ofLeBytes_lt bs
  rw [h] at this
  rw [UInt64.toNat_ofNat']
  exact Nat.mod_eq_of_lt this

theorem toNat_ofNat_ofLeBytes_four {bs : Bytes} (h : bs.length = 4) :
    (UInt32.ofNat (ofLeBytes bs)).toNat = ofLeBytes bs := by
  have := ofLeBytes_lt bs
  rw [h] at this
  rw [UInt32.toNat_ofNat']
  exact Nat.mod_eq_of_lt this

/-- The three header fields and what follows them. -/
theorem header_split {bs : Bytes} (h : kWalRecordHeaderBytes ≤ bs.length) :
    ∃ s l c rest, bs = s ++ l ++ c ++ rest ∧ s.length = 8 ∧ l.length = 4 ∧ c.length = 4 := by
  unfold kWalRecordHeaderBytes at h
  refine ⟨bs.take 8, (bs.drop 8).take 4, (bs.drop 12).take 4, bs.drop 16, ?_, ?_, ?_, ?_⟩
  · rw [List.append_assoc, List.append_assoc]
    conv_lhs => rw [← List.take_append_drop 8 bs, ← List.take_append_drop 4 (bs.drop 8),
      ← List.take_append_drop 4 ((bs.drop 8).drop 4)]
    simp
  all_goals simp; omega

/-- `DecodeRecord` on a buffer cut into its header fields. -/
theorem decodeRecord_header {s l c rest : Bytes} (hs : s.length = 8) (hl : l.length = 4)
    (hc : c.length = 4) : decodeRecord (s ++ l ++ c ++ rest) 0 =
      if ofLeBytes l ≤ kWalMaxPayloadBytes ∧ ofLeBytes l ≤ rest.length ∧
          crc32 (rest.take (ofLeBytes l)) = UInt32.ofNat (ofLeBytes c) then
        some (⟨UInt64.ofNat (ofLeBytes s), rest.take (ofLeBytes l)⟩,
          kWalRecordHeaderBytes + ofLeBytes l)
      else none := by
  have h1 : (s ++ l ++ c ++ rest).take 8 = s := by
    simp only [List.append_assoc]
    exact List.take_left' hs
  have h2 : ((s ++ l ++ c ++ rest).drop 8).take 4 = l := by
    simp only [List.append_assoc]
    rw [List.drop_left' hs, List.take_left' hl]
  have h3 : ((s ++ l ++ c ++ rest).drop 12).take 4 = c := by
    rw [List.append_assoc, List.drop_left' (by simp [hs, hl]), List.take_left' hc]
  have h4 : (s ++ l ++ c ++ rest).drop 16 = rest := List.drop_left' (by simp [hs, hl, hc])
  have hlen : (s ++ l ++ c ++ rest).length = 16 + rest.length := by
    simp [hs, hl, hc]
    omega
  simp only [decodeRecord, kWalRecordHeaderBytes, Nat.zero_add, List.drop_zero, h1, h2, h3, h4,
    hlen]
  rw [if_neg (by omega)]
  by_cases hmax : ofLeBytes l ≤ kWalMaxPayloadBytes
  · rw [if_neg (by omega)]
    by_cases hend : ofLeBytes l ≤ rest.length
    · rw [if_neg (by omega)]
      by_cases hcrc : crc32 (rest.take (ofLeBytes l)) = UInt32.ofNat (ofLeBytes c)
      · simp [hmax, hend, hcrc]
      · simp [hcrc]
    · rw [if_pos (by omega), if_neg (by tauto)]
  · rw [if_pos (by omega), if_neg (by tauto)]

theorem decodeRecord_short {bs : Bytes} (h : bs.length < kWalRecordHeaderBytes) :
    decodeRecord bs 0 = none := by
  rw [decodeRecord, if_pos (by omega)]

theorem lengthField {n : ℕ} (h : n ≤ kWalMaxPayloadBytes) :
    ofLeBytes (leBytes 4 (n % 2 ^ 32)) = n := by
  have hlt : n < 2 ^ 32 := by
    unfold kWalMaxPayloadBytes at h
    omega
  rw [Nat.mod_eq_of_lt hlt]
  exact ofLeBytes_leBytes hlt

theorem seqField (seq : UInt64) : UInt64.ofNat (ofLeBytes (leBytes 8 seq.toNat)) = seq := by
  rw [ofLeBytes_leBytes seq.toNat_lt, UInt64.ofNat_toNat]

theorem crcField (crc : UInt32) : UInt32.ofNat (ofLeBytes (leBytes 4 crc.toNat)) = crc := by
  rw [ofLeBytes_leBytes crc.toNat_lt, UInt32.ofNat_toNat]

/-- `DecodeRecord` reads a record back, whatever follows it. -/
theorem decodeRecord_encodeRecord {r : WalRecord} (h : r.payload.length ≤ kWalMaxPayloadBytes)
    (bs : Bytes) : decodeRecord (encodeRecord r ++ bs) 0 =
      some (r, kWalRecordHeaderBytes + r.payload.length) := by
  rw [encodeRecord, List.append_assoc, decodeRecord_header (by simp) (by simp) (by simp),
    lengthField h, seqField, crcField, if_pos (by simp [h])]
  simp

/-- What `DecodeRecord` reads is a record within the cap, followed by anything. -/
theorem encodeRecord_of_decodeRecord {bs : Bytes} {r : WalRecord} {n : ℕ}
    (h : decodeRecord bs 0 = some (r, n)) : r.payload.length ≤ kWalMaxPayloadBytes ∧
      n = kWalRecordHeaderBytes + r.payload.length ∧ bs = encodeRecord r ++ bs.drop n := by
  rcases Nat.lt_or_ge bs.length kWalRecordHeaderBytes with hlt | hge
  · rw [decodeRecord_short hlt] at h
    cases h
  obtain ⟨s, l, c, rest, rfl, hs, hl, hc⟩ := header_split hge
  rw [decodeRecord_header hs hl hc] at h
  split_ifs at h with hok
  obtain ⟨hmax, hrest, hcrc⟩ := hok
  cases h
  have hlen : (rest.take (ofLeBytes l)).length = ofLeBytes l := by
    rw [List.length_take]
    omega
  refine ⟨hlen.symm ▸ hmax, by rw [hlen], ?_⟩
  have e1 : leBytes 8 (UInt64.ofNat (ofLeBytes s)).toNat = s := by
    rw [toNat_ofNat_ofLeBytes_eight hs, ← hs, leBytes_ofLeBytes]
  have e2 : leBytes 4 ((rest.take (ofLeBytes l)).length % 2 ^ 32) = l := by
    unfold kWalMaxPayloadBytes at hmax
    rw [hlen, Nat.mod_eq_of_lt (by omega), ← hl, leBytes_ofLeBytes]
  have e3 : leBytes 4 (crc32 (rest.take (ofLeBytes l))).toNat = c := by
    rw [hcrc, toNat_ofNat_ofLeBytes_four hc, ← hc, leBytes_ofLeBytes]
  have hdrop : (s ++ l ++ c ++ rest).drop (kWalRecordHeaderBytes + ofLeBytes l) =
      rest.drop (ofLeBytes l) := by
    rw [← List.drop_drop, List.drop_left' (by simp [hs, hl, hc, kWalRecordHeaderBytes])]
  rw [hdrop, encodeRecord, e1, e2, e3, List.append_assoc _ (rest.take _), List.take_append_drop]

/-- The codec of the log, reading from the front of what is left. -/
def walFraming : Framing WalRecord UInt8 where
  encode := encodeRecord
  decode bs := (decodeRecord bs 0).map fun p => (p.1, bs.drop p.2)
  Valid r := r.payload.length ≤ kWalMaxPayloadBytes
  encode_ne_nil r h := by
    have := congrArg List.length h
    simp [kWalRecordHeaderBytes] at this
  decode_encode r bs h := by
    rw [decodeRecord_encodeRecord h]
    simp [List.drop_left' (length_encodeRecord r)]
  decode_sound r bs cs h := by
    obtain ⟨⟨r', n⟩, hd, heq⟩ := Option.map_eq_some_iff.1 h
    cases heq
    obtain ⟨hmax, -, hbs⟩ := encodeRecord_of_decodeRecord hd
    exact ⟨hmax, hbs⟩

/-! ## The loop over a buffer -/

/-- `DecodeRecord` at an offset is `DecodeRecord` at the front of what follows it. -/
theorem decodeRecord_drop (buf : Bytes) (offset : ℕ) : decodeRecord buf offset =
    (decodeRecord (buf.drop offset) 0).map fun p => (p.1, offset + p.2) := by
  have hlen : (buf.drop offset).length = buf.length - offset := List.length_drop
  have hheader : kWalRecordHeaderBytes > buf.length - offset ↔
      offset + kWalRecordHeaderBytes > buf.length := by
    unfold kWalRecordHeaderBytes
    omega
  have hend : ∀ len, kWalRecordHeaderBytes + len > buf.length - offset ∨
      kWalRecordHeaderBytes + len < 0 ↔ offset + kWalRecordHeaderBytes + len > buf.length ∨
        offset + kWalRecordHeaderBytes + len < offset := fun len => by
    unfold kWalRecordHeaderBytes
    omega
  simp only [decodeRecord, List.drop_drop, Nat.add_zero, Nat.zero_add, hlen, hheader, hend]
  split_ifs <;> simp [Nat.add_assoc]

theorem decode_drop_of_none {data : Bytes} {offset : ℕ} (h : decodeRecord data offset = none) :
    walFraming.decode (data.drop offset) = none := by
  rw [decodeRecord_drop, Option.map_eq_none_iff] at h
  simp [walFraming, h]

theorem decode_drop_of_some {data : Bytes} {offset next : ℕ} {r : WalRecord}
    (h : decodeRecord data offset = some (r, next)) :
    walFraming.decode (data.drop offset) = some (r, data.drop next) ∧
      offset < next ∧ next ≤ data.length := by
  rw [decodeRecord_drop] at h
  obtain ⟨⟨r', n⟩, hd, heq⟩ := Option.map_eq_some_iff.1 h
  cases heq
  obtain ⟨-, hn, hsplit⟩ := encodeRecord_of_decodeRecord hd
  have hlen := congrArg List.length hsplit
  simp only [List.length_append, length_encodeRecord, List.length_drop] at hlen
  unfold kWalRecordHeaderBytes at hn hlen
  exact ⟨by simp [walFraming, hd], by omega, by omega⟩

/-- The loop folds its body over the records of the buffer, and stops where the
remainder does not decode. -/
theorem whileDecode_drop {γ : Type*} (data : Bytes) (body : γ → WalRecord → γ) :
    ∀ (fuel offset : ℕ) (acc : γ), offset ≤ data.length → data.length - offset ≤ fuel →
      whileDecode data body fuel offset acc =
        ((walFraming.records (data.drop offset)).foldl body acc,
          data.length - (walFraming.tail (data.drop offset)).length)
  | 0, offset, acc, hle, hfuel => by
    have hnil : data.drop offset = [] := by
      rw [List.drop_eq_nil_iff]
      omega
    rw [hnil, whileDecode, Framing.records_of_decode_none Framing.decode_nil,
      Framing.tail_of_decode_none Framing.decode_nil]
    simp
    omega
  | fuel + 1, offset, acc, hle, hfuel => by
    cases h : decodeRecord data offset with
    | none =>
      have hd := decode_drop_of_none h
      rw [whileDecode, h, Framing.records_of_decode_none hd, Framing.tail_of_decode_none hd]
      simp
      omega
    | some p =>
      obtain ⟨r, next⟩ := p
      obtain ⟨hd, hlt, hnext⟩ := decode_drop_of_some h
      rw [whileDecode, h, Framing.records_of_decode hd, Framing.tail_of_decode hd]
      exact whileDecode_drop data body fuel next (body acc r) hnext (by omega)

theorem whileDecode_eq {γ : Type*} (data : Bytes) (body : γ → WalRecord → γ) (acc : γ) :
    (whileDecode data body data.length 0 acc).1 = (walFraming.records data).foldl body acc := by
  rw [whileDecode_drop data body data.length 0 acc (Nat.zero_le _) (by omega), List.drop_zero]

end Ridgeline
