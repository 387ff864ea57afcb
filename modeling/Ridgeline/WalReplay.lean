import Mathlib.Data.List.Flatten
import Ridgeline.Wal

/-!
# What replay reads back

The log as a codec of whole files. A log that is cut anywhere replays the records that are complete
(`truncated_log_replays`). A compacted log replays, at every later ack, what the original would
have, whatever bytes the original is made of (`compaction_invisible`).

`Append` takes a payload of any length, and `DecodeRecord` none above `kWalMaxPayloadBytes`. So what
was appended is read back exactly when no payload is longer than that (`appended_readable_iff`) : a
longer one is not read, and hides what was appended behind it (`oversized_append_hides`).
-/

namespace Ridgeline

/-- The body of a loop that keeps the records. -/
def collect (rs : List WalRecord) (r : WalRecord) : List WalRecord :=
  rs ++ [r]

/-- The body of the loop of `ReplayUnacked` : the calls of `on_record`, and `replayed`. -/
def replayCountBody (lastAckedSeq : UInt64) (s : List WalRecord × ℕ) (r : WalRecord) :
    List WalRecord × ℕ :=
  if r.seq > lastAckedSeq then (s.1 ++ [r], s.2 + 1) else s

theorem foldl_collect : ∀ rs acc : List WalRecord, rs.foldl collect acc = acc ++ rs
  | [], acc => (List.append_nil acc).symm
  | r :: rs, acc => by
    rw [List.foldl_cons, foldl_collect rs, collect, List.append_assoc]
    rfl

/-- The loop stops behind the records that it has decoded. -/
theorem whileDecode_collect (data : Bytes) : whileDecode data collect data.length 0 [] =
    (walFraming.records data, (walFraming.encodeAll (walFraming.records data)).length) := by
  have hlength := congrArg List.length (walFraming.encodeAll_records_append_tail data)
  rw [List.length_append] at hlength
  rw [whileDecode_drop data collect data.length 0 [] (Nat.zero_le _) (by omega), foldl_collect,
    List.drop_zero, List.nil_append]
  exact congrArg (Prod.mk _) (by omega)

/-- `DecodeRecord` fails behind the records. -/
theorem decodeRecord_behind (data : Bytes) :
    decodeRecord data (walFraming.encodeAll (walFraming.records data)).length = none := by
  have hdrop : data.drop (walFraming.encodeAll (walFraming.records data)).length =
      walFraming.tail data := by
    have hsplit := congrArg (List.drop (walFraming.encodeAll (walFraming.records data)).length)
      (walFraming.encodeAll_records_append_tail data)
    rw [List.drop_left] at hsplit
    exact hsplit.symm
  have hnone : walFraming.decode (walFraming.tail data) = none := Framing.decode_tail data
  rw [decodeRecord_drop, hdrop, Option.map_eq_none_iff]
  exact Option.map_eq_none_iff.1 hnone

namespace Wal

/-- `Wal::ReplayUnacked` : the calls of `on_record`, and the number it returns. -/
def replayUnackedCount (w : Wal) : List WalRecord × ℕ :=
  (whileDecode w.disk.wal (replayCountBody w.lastAckedSeq) w.disk.wal.length 0 ([], 0)).1

theorem foldl_replayCountBody (n : UInt64) : ∀ (rs calls : List WalRecord) (replayed : ℕ),
    rs.foldl (replayCountBody n) (calls, replayed) =
      (calls ++ unacked n rs, replayed + (unacked n rs).length)
  | [], calls, replayed => by simp [unacked]
  | r :: rs, calls, replayed => by
    by_cases h : n < r.seq
    · simp [replayCountBody, unacked, h, foldl_replayCountBody n rs, Nat.add_assoc, Nat.add_comm]
    · simp [replayCountBody, unacked, h, foldl_replayCountBody n rs]

/-- It returns the number of its calls. -/
theorem replayUnackedCount_eq (w : Wal) :
    w.replayUnackedCount = (w.replayUnacked, w.replayUnacked.length) := by
  rw [replayUnackedCount, whileDecode_eq, foldl_replayCountBody, List.nil_append, Nat.zero_add,
    replayUnacked_eq, records]

/-! ## A log that is cut -/

/-- For all records within the cap and every cut, also inside a header or a payload. -/
theorem truncated_log_replays {rs : List WalRecord}
    (hrs : ∀ r ∈ rs, r.payload.length ≤ kWalMaxPayloadBytes) (n : ℕ) (checkpoint : Bytes)
    (lastAckedSeq : UInt64) :
    ∃ ps, walFraming.LongestFit n rs ps ∧
      whileDecode ((rs.flatMap encodeRecord).take n) collect
          ((rs.flatMap encodeRecord).take n).length 0 [] =
        (ps, (ps.flatMap encodeRecord).length) ∧
      decodeRecord ((rs.flatMap encodeRecord).take n) (ps.flatMap encodeRecord).length = none ∧
      replayUnackedCount ⟨⟨(rs.flatMap encodeRecord).take n, checkpoint⟩, lastAckedSeq⟩ =
        (ps.filter (lastAckedSeq < ·.seq), (ps.filter (lastAckedSeq < ·.seq)).length) := by
  refine ⟨_, Framing.longestFit_records_take n hrs, whileDecode_collect _,
    decodeRecord_behind _, ?_⟩
  rw [replayUnackedCount_eq, replayUnacked_eq]
  rfl

/-- The records of a small log. -/
def threeRecords : List WalRecord :=
  [⟨1, [97]⟩, ⟨2, []⟩, ⟨3, [98, 99]⟩]

/-- Cut in the payload of the third record, with the first one acked. -/
theorem truncated_log_replays_threeRecords :
    (∀ r ∈ threeRecords, r.payload.length ≤ kWalMaxPayloadBytes) ∧
      ∃ ps, walFraming.LongestFit 50 threeRecords ps ∧
        replayUnackedCount ⟨⟨(threeRecords.flatMap encodeRecord).take 50, []⟩, 1⟩ =
          (ps.filter ((1 : UInt64) < ·.seq), (ps.filter ((1 : UInt64) < ·.seq)).length) := by
  have hrs : ∀ r ∈ threeRecords, r.payload.length ≤ kWalMaxPayloadBytes := by decide
  obtain ⟨ps, hfit, -, -, hreplay⟩ := truncated_log_replays hrs 50 [] 1
  exact ⟨hrs, ps, hfit, hreplay⟩

/-! ## Compaction -/

/-- What `Compact` on `w` leaves, compared with `w`, when `m` is acked later. -/
structure CompactionInvisible (w : Wal) (m : UInt64) : Prop where
  replay : replayUnacked { w.compact with lastAckedSeq := m } =
    replayUnacked { w with lastAckedSeq := m }
  /-- The new file decodes to its last byte. -/
  decodes : (whileDecode w.compact.disk.wal collect w.compact.disk.wal.length 0 []).2 =
    w.compact.disk.wal.length
  noLonger : w.compact.disk.wal.length ≤ w.disk.wal.length
  again : w.compact.compact.disk.wal = w.compact.disk.wal
  later : (compact { w.compact with lastAckedSeq := m }).disk.wal =
    (compact { w with lastAckedSeq := m }).disk.wal

theorem length_compact_le (w : Wal) : w.compact.disk.wal.length ≤ w.disk.wal.length := by
  have hsub : (unacked w.lastAckedSeq w.records).Sublist w.records := List.filter_sublist
  have hkept := (hsub.flatMap walFraming.encode).length_le
  have hwhole := congrArg List.length (walFraming.encodeAll_records_append_tail w.disk.wal)
  rw [List.length_append] at hwhole
  rw [compact_wal]
  exact hkept.trans (by rw [records, ← hwhole]; exact Nat.le_add_right _ _)

/-- For every log file, whatever bytes it has, and every later ack. -/
theorem compaction_invisible (w : Wal) {m : UInt64} (hm : w.lastAckedSeq ≤ m) :
    w.CompactionInvisible m := by
  have hrecords : records { w.compact with lastAckedSeq := m } = unacked w.lastAckedSeq w.records :=
    records_compact w
  refine ⟨?_, ?_, w.length_compact_le, ?_, ?_⟩
  · rw [replayUnacked_eq, replayUnacked_eq, hrecords, unacked_unacked hm]
    rfl
  · rw [whileDecode_collect, ← records, w.clean_compact.encodeAll_records]
  · rw [compact_wal, records_compact]
    exact (congrArg walFraming.encodeAll (unacked_unacked (le_refl _) w.records)).trans
      w.compact_wal.symm
  · rw [compact_wal, compact_wal, hrecords, unacked_unacked hm]
    rfl

/-- A log with a torn tail, in which the first record is acked. -/
def tornLog : Wal :=
  ⟨⟨threeRecords.flatMap encodeRecord ++ [4, 0], []⟩, 1⟩

theorem compaction_invisible_tornLog :
    tornLog.lastAckedSeq ≤ 2 ∧ tornLog.CompactionInvisible 2 :=
  ⟨by decide, compaction_invisible tornLog (by decide)⟩

/-! ## Payloads of any length -/

/-- A new log in an empty directory. -/
def fresh : Wal :=
  .open ⟨[], []⟩

/-- Calls of `Append`, one after the other. -/
def appendAll (w : Wal) (rs : List WalRecord) : Wal :=
  rs.foldl append w

/-- Replay delivers what was appended under a seq above 0, as it was appended and in order. -/
def ReadsBack (rs : List WalRecord) : Prop :=
  (fresh.appendAll rs).replayUnacked = rs.filter ((0 : UInt64) < ·.seq)

theorem lastAckedSeq_appendAll : ∀ (rs : List WalRecord) (w : Wal),
    (w.appendAll rs).lastAckedSeq = w.lastAckedSeq
  | [], _ => rfl
  | r :: rs, w => lastAckedSeq_appendAll rs (w.append r)

theorem wal_appendAll : ∀ (rs : List WalRecord) (w : Wal),
    (w.appendAll rs).disk.wal = w.disk.wal ++ walFraming.encodeAll rs
  | [], w => (List.append_nil _).symm
  | r :: rs, w => by
    have ih := wal_appendAll rs (w.append r)
    rw [Framing.encodeAll_cons, ← List.append_assoc]
    exact ih

theorem replayUnacked_appendAll (rs : List WalRecord) : (fresh.appendAll rs).replayUnacked =
    unacked 0 (walFraming.records (walFraming.encodeAll rs)) := by
  rw [replayUnacked_eq, lastAckedSeq_appendAll, records, wal_appendAll]
  rfl

/-- A record that is too long is not read back. -/
theorem ReadsBack.payload_le {rs : List WalRecord} (h : ReadsBack rs) {r : WalRecord} (hr : r ∈ rs)
    (hseq : 0 < r.seq) : r.payload.length ≤ kWalMaxPayloadBytes := by
  have hmem : r ∈ (fresh.appendAll rs).replayUnacked := by
    rw [h]
    exact List.mem_filter.2 ⟨hr, by simpa using hseq⟩
  rw [replayUnacked_eq] at hmem
  exact valid_of_mem_unacked r hmem

theorem readsBack_of_le {rs : List WalRecord}
    (h : ∀ r ∈ rs, r.payload.length ≤ kWalMaxPayloadBytes) : ReadsBack rs := by
  rw [ReadsBack, replayUnacked_appendAll, Framing.records_encodeAll h]
  rfl

/-- Appends of the payloads `ps`, under whatever seqs, are read back exactly if no payload is too
long. -/
theorem appended_readable_iff (ps : List Bytes) :
    (∀ rs : List WalRecord, rs.map WalRecord.payload = ps → ReadsBack rs) ↔
      ∀ p ∈ ps, p.length ≤ kWalMaxPayloadBytes := by
  constructor
  · intro h p hp
    have hread := h (ps.map fun p => ⟨1, p⟩) (by simp [Function.comp_def])
    have hone : (0 : UInt64) < 1 := by decide
    exact hread.payload_le (List.mem_map_of_mem hp) hone
  · rintro h rs rfl
    exact readsBack_of_le fun r hr => h r.payload (List.mem_map_of_mem hr)

/-- A record that is too long, but not so long that its length wraps, stops the reader. -/
theorem records_oversized {r : WalRecord} (hlong : kWalMaxPayloadBytes < r.payload.length)
    (hwrap : r.payload.length < 2 ^ 32) (bs : Bytes) :
    walFraming.records (walFraming.encode r ++ bs) = [] := by
  have hl : ofLeBytes (leBytes 4 (r.payload.length % 2 ^ 32)) = r.payload.length := by
    rw [Nat.mod_eq_of_lt hwrap]
    exact ofLeBytes_leBytes hwrap
  have hnone : decodeRecord (encodeRecord r ++ bs) 0 = none := by
    rw [encodeRecord, List.append_assoc, decodeRecord_header (by simp) (by simp) (by simp), hl,
      if_neg fun h => absurd h.1 (not_le.2 hlong)]
  have hdecode : walFraming.decode (encodeRecord r ++ bs) = none := by
    simp only [walFraming, hnone, Option.map_none]
  exact Framing.records_of_decode_none hdecode

/-- One byte too many, and a record behind it. -/
theorem oversized_append_hides :
    (fresh.appendAll [⟨1, List.replicate (kWalMaxPayloadBytes + 1) 0⟩, ⟨2, [97]⟩]).replayUnacked =
      [] := by
  rw [replayUnacked_appendAll, Framing.encodeAll_cons, records_oversized]
  · rfl
  · simp
  · simp only [List.length_replicate]
    decide

end Wal

end Ridgeline
