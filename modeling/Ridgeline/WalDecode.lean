import Mathlib.Logic.Relation
import Ridgeline.WalRecord

/-!
# `DecodeRecord` in memory

`decodeRecord` with its machine arithmetic and its memory accesses : offsets are `size_t` and wrap,
the caller's `offset`, `seq` and `payload` are assigned through references, and every read is of
bytes at an address, which the buffer may not have. The buffer is a `std::string`, so its size is at
most what `max_size` allows.

From an offset that is in the buffer, no sum wraps and no read is outside, and the call does what
`decodeRecord` says (`Buffer.decodeRecord_eq`). So the loop `while (DecodeRecord(…))` stops, on
every buffer, with its records encoding the bytes before the offset (`Buffer.decoding_safe`).
`whileDecode`, which the model of the log uses, is that loop (`Buffer.While.whileDecode_eq`), and
the fuzzer's loop, which has two more exits, sees the same records (`Buffer.While.fuzz`).
-/

namespace Ridgeline

/-- A `std::string`. -/
structure Buffer where
  bytes : Bytes
  size_lt : bytes.length < 2 ^ 63

/-- The variables that `DecodeRecord` is called with. -/
structure DecodeVars where
  offset : UInt64 := 0
  seq : UInt64 := 0
  payload : Bytes := []
  deriving DecidableEq, Repr

namespace Buffer

/-- `size()`. -/
def size (b : Buffer) : UInt64 :=
  UInt64.ofNat b.bytes.length

/-- The `n` bytes from `data() + pos` on, or `none` if one of them is outside. -/
def read (b : Buffer) (pos n : ℕ) : Option Bytes :=
  if pos + n ≤ b.bytes.length then some ((b.bytes.drop pos).take n) else none

/-- `DecodeRecord` : what it returns, and the variables behind it. It is `none` if a byte outside
the buffer is read. -/
def decodeRecord (b : Buffer) (v : DecodeVars) : Option (Bool × DecodeVars) :=
  if v.offset + UInt64.ofNat kWalRecordHeaderBytes > b.size then some (false, v)
  else do
    let recordSeq ← b.read v.offset.toNat 8
    let lenBytes ← b.read (v.offset.toNat + 8) 4
    let crcBytes ← b.read (v.offset.toNat + 12) 4
    let len := ofLeBytes lenBytes
    if len > kWalMaxPayloadBytes then some (false, v)
    else
      let recordEnd := v.offset + UInt64.ofNat kWalRecordHeaderBytes + UInt64.ofNat len
      if recordEnd > b.size ∨ recordEnd < v.offset then some (false, v)
      else do
        let payload ← b.read (v.offset.toNat + kWalRecordHeaderBytes) len
        if crc32 payload ≠ UInt32.ofNat (ofLeBytes crcBytes) then some (false, v)
        else some (true, ⟨recordEnd, UInt64.ofNat (ofLeBytes recordSeq), payload⟩)

/-- The loop `while (DecodeRecord(buf, offset, seq, payload))` from `v` : the records that it
decodes, and the variables behind it. -/
inductive While (b : Buffer) : DecodeVars → List WalRecord → DecodeVars → Prop
  | stop {v v' : DecodeVars} : b.decodeRecord v = some (false, v') → While b v [] v'
  | next {v v' v'' : DecodeVars} {rs : List WalRecord} : b.decodeRecord v = some (true, v') →
      While b v' rs v'' → While b v (⟨v'.seq, v'.payload⟩ :: rs) v''

/-- The loop of `LLVMFuzzerTestOneInput`, which also ends at the end of the buffer, and if the
offset has not grown. -/
inductive Fuzz (b : Buffer) : DecodeVars → List WalRecord → DecodeVars → Prop
  | done {v : DecodeVars} : ¬ v.offset < b.size → Fuzz b v [] v
  | failed {v v' : DecodeVars} : v.offset < b.size → b.decodeRecord v = some (false, v') →
      Fuzz b v [] v'
  | stuck {v v' : DecodeVars} : v.offset < b.size → b.decodeRecord v = some (true, v') →
      v'.offset ≤ v.offset → Fuzz b v [⟨v'.seq, v'.payload⟩] v'
  | next {v v' v'' : DecodeVars} {rs : List WalRecord} : v.offset < b.size →
      b.decodeRecord v = some (true, v') → ¬ v'.offset ≤ v.offset → Fuzz b v' rs v'' →
        Fuzz b v (⟨v'.seq, v'.payload⟩ :: rs) v''

/-! ## One call -/

variable {b : Buffer} {v v' : DecodeVars}

theorem toNat_size (b : Buffer) : b.size.toNat = b.bytes.length := by
  have := b.size_lt
  rw [size, UInt64.toNat_ofNat']
  omega

theorem read_of_le {pos n : ℕ} (h : pos + n ≤ b.bytes.length) :
    b.read pos n = some ((b.bytes.drop pos).take n) :=
  if_pos h

/-- From an offset in the buffer, the end of the header does not wrap. -/
theorem toNat_headerEnd (hv : v.offset.toNat ≤ b.bytes.length) :
    (v.offset + UInt64.ofNat kWalRecordHeaderBytes).toNat =
      v.offset.toNat + kWalRecordHeaderBytes := by
  have := b.size_lt
  simp only [UInt64.toNat_add, UInt64.toNat_ofNat', kWalRecordHeaderBytes]
  omega

/-- Nor does the end of a record that is not too long. -/
theorem toNat_recordEnd (hv : v.offset.toNat ≤ b.bytes.length) {len : ℕ}
    (hlen : len ≤ kWalMaxPayloadBytes) :
    (v.offset + UInt64.ofNat kWalRecordHeaderBytes + UInt64.ofNat len).toNat =
      v.offset.toNat + kWalRecordHeaderBytes + len := by
  have := b.size_lt
  unfold kWalMaxPayloadBytes at hlen
  rw [UInt64.toNat_add, toNat_headerEnd hv, UInt64.toNat_ofNat', kWalRecordHeaderBytes]
  omega

theorem headerEnd_gt_iff (hv : v.offset.toNat ≤ b.bytes.length) :
    v.offset + UInt64.ofNat kWalRecordHeaderBytes > b.size ↔
      v.offset.toNat + kWalRecordHeaderBytes > b.bytes.length := by
  rw [gt_iff_lt, UInt64.lt_iff_toNat_lt, toNat_headerEnd hv, toNat_size]

theorem recordEnd_out_iff (hv : v.offset.toNat ≤ b.bytes.length) {len : ℕ}
    (hlen : len ≤ kWalMaxPayloadBytes) :
    (v.offset + UInt64.ofNat kWalRecordHeaderBytes + UInt64.ofNat len > b.size ∨
        v.offset + UInt64.ofNat kWalRecordHeaderBytes + UInt64.ofNat len < v.offset) ↔
      v.offset.toNat + kWalRecordHeaderBytes + len > b.bytes.length ∨
        v.offset.toNat + kWalRecordHeaderBytes + len < v.offset.toNat := by
  simp only [gt_iff_lt, UInt64.lt_iff_toNat_lt, toNat_recordEnd hv hlen, toNat_size]

/-- From an offset in the buffer, `DecodeRecord` reads no byte outside of it. -/
theorem decodeRecord_eq (hv : v.offset.toNat ≤ b.bytes.length) : b.decodeRecord v =
    match Ridgeline.decodeRecord b.bytes v.offset.toNat with
    | none => some (false, v)
    | some (r, recordEnd) => some (true, ⟨UInt64.ofNat recordEnd, r.seq, r.payload⟩) := by
  unfold decodeRecord Ridgeline.decodeRecord
  by_cases hshort : v.offset.toNat + kWalRecordHeaderBytes > b.bytes.length
  · rw [if_pos ((headerEnd_gt_iff hv).2 hshort), if_pos hshort]
  have hread : ∀ k n, k + n ≤ kWalRecordHeaderBytes → b.read (v.offset.toNat + k) n =
      some ((b.bytes.drop (v.offset.toNat + k)).take n) := fun k n hk => read_of_le (by omega)
  rw [if_neg (mt (headerEnd_gt_iff hv).1 hshort), if_neg hshort,
    show b.read v.offset.toNat 8 = _ from hread 0 8 (by decide), hread 8 4 (by decide),
    hread 12 4 (by decide)]
  simp only [Option.bind_eq_bind, Option.bind_some, Nat.add_zero]
  generalize ofLeBytes ((b.bytes.drop (v.offset.toNat + 8)).take 4) = len
  by_cases hlong : len > kWalMaxPayloadBytes
  · rw [if_pos hlong, if_pos hlong]
  have hout := recordEnd_out_iff hv (not_lt.1 hlong)
  rw [if_neg hlong, if_neg hlong]
  by_cases hover : v.offset.toNat + kWalRecordHeaderBytes + len > b.bytes.length ∨
      v.offset.toNat + kWalRecordHeaderBytes + len < v.offset.toNat
  · rw [if_pos (hout.2 hover), if_pos hover]
  rw [if_neg (mt hout.1 hover), if_neg hover, read_of_le (by omega)]
  simp only [Option.bind_some, ← toNat_recordEnd hv (not_lt.1 hlong)]
  split_ifs
  · rfl
  · simp only [UInt64.ofNat_toNat]

/-- The two ways a call ends. -/
theorem decodeRecord_cases (hv : v.offset.toNat ≤ b.bytes.length) :
    (b.decodeRecord v = some (false, v) ∧
      walFraming.decode (b.bytes.drop v.offset.toNat) = none) ∨
    ∃ v', b.decodeRecord v = some (true, v') ∧ walFraming.decode (b.bytes.drop v.offset.toNat) =
        some (⟨v'.seq, v'.payload⟩, b.bytes.drop v'.offset.toNat) ∧
      v'.offset.toNat = v.offset.toNat + kWalRecordHeaderBytes + v'.payload.length ∧
        v'.offset.toNat ≤ b.bytes.length := by
  have heq := decodeRecord_eq hv
  cases h : Ridgeline.decodeRecord b.bytes v.offset.toNat with
  | none =>
    rw [h] at heq
    exact .inl ⟨heq, decode_drop_of_none h⟩
  | some p =>
    obtain ⟨r, recordEnd⟩ := p
    rw [h] at heq
    obtain ⟨hdecode, hlt, hle⟩ := decode_drop_of_some h
    have hend : (UInt64.ofNat recordEnd).toNat = recordEnd := by
      have := b.size_lt
      rw [UInt64.toNat_ofNat']
      omega
    have hsplit := congrArg List.length (walFraming.decode_sound _ _ _ hdecode).2
    simp only [List.length_append, List.length_drop] at hsplit
    refine .inr ⟨_, heq, by rw [hend]; exact hdecode, ?_, by rw [hend]; exact hle⟩
    have hlength : (walFraming.encode r).length = _ := length_encodeRecord r
    simp only [hend]
    omega

/-! ## The loop -/

/-- The loop decodes the records of the rest of the buffer, and leaves the offset behind them. -/
theorem exists_while (bs : Bytes) : ∀ v : DecodeVars, v.offset.toNat ≤ b.bytes.length →
    b.bytes.drop v.offset.toNat = bs → ∃ v', While b v (walFraming.records bs) v' ∧
      v'.offset.toNat ≤ b.bytes.length ∧ b.bytes.drop v'.offset.toNat = walFraming.tail bs := by
  induction bs using walFraming.decode_induction with
  | stop bs hnone =>
    rintro v hv rfl
    rw [Framing.records_of_decode_none hnone, Framing.tail_of_decode_none hnone]
    rcases decodeRecord_cases hv with ⟨hstop, -⟩ | ⟨v', -, hsome, -⟩
    · exact ⟨v, .stop hstop, hv, rfl⟩
    · simp [hnone] at hsome
  | next r bs cs hsome ih =>
    rintro v hv rfl
    rw [Framing.records_of_decode hsome, Framing.tail_of_decode hsome]
    rcases decodeRecord_cases hv with ⟨-, hnone⟩ | ⟨v', hnext, hsome', -, hv'⟩
    · simp [hnone] at hsome
    · obtain ⟨rfl, rfl⟩ : r = ⟨v'.seq, v'.payload⟩ ∧ cs = b.bytes.drop v'.offset.toNat := by
        simpa using hsome.symm.trans hsome'
      obtain ⟨v'', hwhile, hend⟩ := ih v' hv' rfl
      exact ⟨v'', .next hnext hwhile, hend⟩

/-- The loop decodes in one way. -/
theorem While.unique {rs rs' : List WalRecord} {w w' : DecodeVars} (h : While b v rs w)
    (h' : While b v rs' w') : rs = rs' ∧ w = w' := by
  induction h generalizing rs' with
  | stop hstop =>
    cases h' with
    | stop hstop' => simpa using hstop.symm.trans hstop'
    | next hnext _ => simp [hstop] at hnext
  | next hnext _ ih =>
    cases h' with
    | stop hstop => simp [hnext] at hstop
    | next hnext' hrest =>
      obtain rfl : _ = _ := by simpa using hnext.symm.trans hnext'
      obtain ⟨rfl, rfl⟩ := ih hrest
      exact ⟨rfl, rfl⟩

/-- The variables with which `DecodeRecord` is called in the loop from `v`. -/
def Called (b : Buffer) (v : DecodeVars) : DecodeVars → Prop :=
  Relation.ReflTransGen (fun u u' => b.decodeRecord u = some (true, u')) v

theorem Called.offset_le (hv : v.offset.toNat ≤ b.bytes.length) (h : b.Called v v') :
    v'.offset.toNat ≤ b.bytes.length := by
  induction h with
  | refl => exact hv
  | tail _ hnext ih =>
    rcases decodeRecord_cases ih with ⟨hstop, -⟩ | ⟨u', hnext', -, -, hle⟩
    · simp [hstop] at hnext
    · obtain rfl : u' = _ := by simpa using hnext'.symm.trans hnext
      exact hle

/-- What a call does. -/
structure SafeCall (b : Buffer) (v : DecodeVars) : Prop where
  /-- It reads no byte outside the buffer. -/
  inside : b.decodeRecord v ≠ none
  /-- A call that returns true moves the offset behind the record, which is in the buffer. -/
  success : ∀ v', b.decodeRecord v = some (true, v') →
    v'.offset.toNat = v.offset.toNat + kWalRecordHeaderBytes + v'.payload.length ∧
      v'.offset.toNat ≤ b.bytes.length
  /-- A call that returns false assigns nothing. -/
  failure : ∀ v', b.decodeRecord v = some (false, v') → v' = v

theorem safeCall (hv : v.offset.toNat ≤ b.bytes.length) : b.SafeCall v := by
  rcases decodeRecord_cases hv with ⟨hstop, -⟩ | ⟨v', hnext, -, hend⟩
  · exact ⟨by simp [hstop], by simp [hstop], by simp [hstop]⟩
  · refine ⟨by simp [hnext], fun u hu => ?_, by simp [hnext]⟩
    obtain rfl : v' = u := by simpa using hnext.symm.trans hu
    exact hend

/-- The loop from offset 0 over any buffer, with whatever `seq` and `payload` hold before. -/
structure SafeLoop (b : Buffer) (v : DecodeVars) : Prop where
  calls : ∀ u, b.Called v u → b.SafeCall u
  /-- It stops, in one way, and the records encode the bytes before the offset. -/
  stops : ∃ rs w, (∀ rs' w', While b v rs' w' ↔ rs' = rs ∧ w' = w) ∧ b.Called v w ∧
    b.decodeRecord w = some (false, w) ∧ rs.flatMap encodeRecord = b.bytes.take w.offset.toNat

theorem While.called {rs : List WalRecord} {w : DecodeVars} (hv : v.offset.toNat ≤ b.bytes.length)
    (h : While b v rs w) : b.Called v w ∧ b.decodeRecord w = some (false, w) := by
  induction h with
  | stop hstop =>
    obtain rfl := (safeCall hv).failure _ hstop
    exact ⟨.refl, hstop⟩
  | next hnext _ ih =>
    obtain ⟨hcalled, hstop⟩ := ih ((safeCall hv).success _ hnext).2
    exact ⟨.head hnext hcalled, hstop⟩

theorem decoding_safe (b : Buffer) (seq : UInt64) (payload : Bytes) :
    b.SafeLoop ⟨0, seq, payload⟩ := by
  have hv : (⟨0, seq, payload⟩ : DecodeVars).offset.toNat ≤ b.bytes.length := Nat.zero_le _
  refine ⟨fun u hu => safeCall (hu.offset_le hv), ?_⟩
  obtain ⟨w, hwhile, hle, htail⟩ := exists_while b.bytes _ hv rfl
  obtain ⟨hcalled, hstop⟩ := hwhile.called hv
  refine ⟨_, w, fun rs' w' => ⟨fun h => h.unique hwhile, ?_⟩, hcalled, hstop, ?_⟩
  · rintro ⟨rfl, rfl⟩
    exact hwhile
  · have hsplit := walFraming.encodeAll_records_append_tail b.bytes
    have htake := (List.take_append_drop w.offset.toNat b.bytes).symm
    rw [← htail] at hsplit
    exact List.append_cancel_right (hsplit.trans htake)

/-- `whileDecode` is the loop : its body sees the same records, and it stops at the same offset. -/
theorem While.whileDecode_eq {γ : Type*} {rs : List WalRecord} {w : DecodeVars}
    (hv : v.offset = 0) (h : While b v rs w) (body : γ → WalRecord → γ) (acc : γ) :
    whileDecode b.bytes body b.bytes.length 0 acc = (rs.foldl body acc, w.offset.toNat) := by
  obtain ⟨w', hwhile, hle, htail⟩ :=
    exists_while (b := b) b.bytes v (by simp [hv]) (by simp [hv])
  obtain ⟨rfl, rfl⟩ := h.unique hwhile
  have hlength := congrArg List.length htail
  rw [List.length_drop] at hlength
  rw [whileDecode_drop b.bytes body b.bytes.length 0 acc (Nat.zero_le _) (by omega),
    List.drop_zero, ← hlength, Nat.sub_sub_self hle]

/-- The fuzzer's loop decodes the same records, and leaves the same variables. -/
theorem While.fuzz {rs : List WalRecord} {w : DecodeVars} (hv : v.offset.toNat ≤ b.bytes.length)
    (h : While b v rs w) : Fuzz b v rs w := by
  have hsize := b.toNat_size
  induction h with
  | @stop v w hstop =>
    by_cases hlt : v.offset < b.size
    · exact .failed hlt hstop
    · obtain rfl := (safeCall hv).failure _ hstop
      exact .done hlt
  | @next v v' w rs hnext _ ih =>
    obtain ⟨hmoved, hle⟩ := (safeCall hv).success _ hnext
    unfold kWalRecordHeaderBytes at hmoved
    refine .next ?_ hnext ?_ (ih hle)
    · rw [UInt64.lt_iff_toNat_lt]
      omega
    · rw [UInt64.le_iff_toNat_le]
      omega

end Buffer

end Ridgeline
