import Ridgeline.WalRecord

/-!
# The write-ahead log

`wal.h` and `wal.cc`, one call at a time : the log file and the checkpoint file are byte
strings, a missing file reads as empty, and each call either returns with its files
replaced as below or throws and is not part of a run.

Every call is described on the records of the log (`Wal.records`) : `replayUnacked_eq`,
`Clean.records_append`, `records_compact`, and `Clean.records_torn` for a file whose last
`Append` was cut short. `Wal.Clean` says that the file ends where its last record does.
-/

namespace Ridgeline

/-- The log file and the checkpoint file. -/
structure Disk where
  wal : Bytes
  checkpoint : Bytes
  deriving DecidableEq, Repr

/-- `Wal` : its two files and `last_acked_seq_`. -/
structure Wal where
  disk : Disk
  lastAckedSeq : UInt64
  deriving DecidableEq, Repr

/-- `Wal::LoadCheckpoint` on the contents of the checkpoint file. -/
def loadCheckpoint (data : Bytes) : UInt64 :=
  if data.length = 8 then UInt64.ofNat (ofLeBytes data) else 0

/-- What `Wal::Acknowledge` writes to the checkpoint file. -/
def checkpointBytes (upToSeq : UInt64) : Bytes :=
  leBytes 8 upToSeq.toNat

@[simp] theorem loadCheckpoint_checkpointBytes (n : UInt64) :
    loadCheckpoint (checkpointBytes n) = n := by
  rw [loadCheckpoint, checkpointBytes, if_pos (length_leBytes 8 _),
    ofLeBytes_leBytes n.toNat_lt, UInt64.ofNat_toNat]

/-- The body of the loop of `ReplayUnacked` : the calls of `on_record` so far. -/
def replayBody (lastAckedSeq : UInt64) (calls : List WalRecord) (r : WalRecord) :
    List WalRecord :=
  if r.seq > lastAckedSeq then calls ++ [r] else calls

/-- The body of the loop of `Compact` : the bytes kept so far. -/
def compactBody (lastAckedSeq : UInt64) (kept : Bytes) (r : WalRecord) : Bytes :=
  if r.seq > lastAckedSeq then kept ++ encodeRecord r else kept

namespace Wal

/-- The constructor : both files are there already or are created empty. -/
def «open» (d : Disk) : Wal :=
  ⟨d, loadCheckpoint d.checkpoint⟩

/-- `Wal::Append`, when it returns. -/
def append (w : Wal) (r : WalRecord) : Wal :=
  { w with disk := { w.disk with wal := w.disk.wal ++ encodeRecord r } }

/-- `Wal::Acknowledge`. A stale ack does nothing. -/
def acknowledge (w : Wal) (upToSeq : UInt64) : Wal :=
  if upToSeq ≤ w.lastAckedSeq then w
  else ⟨{ w.disk with checkpoint := checkpointBytes upToSeq }, upToSeq⟩

/-- `Wal::ReplayUnacked` : the calls of `on_record`, in order. -/
def replayUnacked (w : Wal) : List WalRecord :=
  (whileDecode w.disk.wal (replayBody w.lastAckedSeq) w.disk.wal.length 0 []).1

/-- `Wal::Compact`. -/
def compact (w : Wal) : Wal :=
  { w with disk := { w.disk with wal :=
      (whileDecode w.disk.wal (compactBody w.lastAckedSeq) w.disk.wal.length 0 []).1 } }

/-! ## The records of the log -/

/-- The records a reader of the log file sees. -/
def records (w : Wal) : List WalRecord :=
  walFraming.records w.disk.wal

/-- The log file ends where its last record does. -/
def Clean (w : Wal) : Prop :=
  walFraming.tail w.disk.wal = []

instance (w : Wal) : Decidable w.Clean :=
  inferInstanceAs (Decidable (_ = _))

/-- The records with a seq above `n`. -/
def unacked (n : UInt64) (rs : List WalRecord) : List WalRecord :=
  rs.filter fun r => n < r.seq

@[simp] theorem unacked_append (n : UInt64) (rs ts : List WalRecord) :
    unacked n (rs ++ ts) = unacked n rs ++ unacked n ts :=
  List.filter_append rs ts

/-- Filtering at `n` and then at a larger `m` filters at `m`. -/
theorem unacked_unacked {n m : UInt64} (h : n ≤ m) (rs : List WalRecord) :
    unacked m (unacked n rs) = unacked m rs := by
  rw [unacked, unacked, unacked, List.filter_filter]
  refine List.filter_congr fun r _ => ?_
  by_cases hr : m < r.seq
  · simp [hr, lt_of_le_of_lt h hr]
  · simp [hr]

theorem foldl_replayBody (n : UInt64) : ∀ rs calls : List WalRecord,
    rs.foldl (replayBody n) calls = calls ++ unacked n rs
  | [], calls => by simp [unacked]
  | r :: rs, calls => by
    rw [List.foldl_cons, foldl_replayBody n rs]
    by_cases h : n < r.seq <;> simp [replayBody, unacked, h]

theorem foldl_compactBody (n : UInt64) : ∀ (rs : List WalRecord) (kept : Bytes),
    rs.foldl (compactBody n) kept = kept ++ walFraming.encodeAll (unacked n rs)
  | [], kept => by simp [unacked]
  | r :: rs, kept => by
    rw [List.foldl_cons, foldl_compactBody n rs]
    by_cases h : n < r.seq <;> simp [compactBody, unacked, walFraming, h]

/-- `ReplayUnacked` calls `on_record` for the records above the acked seq, in order. -/
theorem replayUnacked_eq (w : Wal) : w.replayUnacked = unacked w.lastAckedSeq w.records := by
  rw [replayUnacked, whileDecode_eq, foldl_replayBody, List.nil_append, records]

/-- `Compact` leaves the encodings of the records above the acked seq. -/
theorem compact_wal (w : Wal) :
    w.compact.disk.wal = walFraming.encodeAll (unacked w.lastAckedSeq w.records) := by
  simp only [compact, whileDecode_eq, foldl_compactBody, List.nil_append, records]

theorem valid_of_mem_unacked {w : Wal} {n : UInt64} :
    ∀ r ∈ unacked n w.records, walFraming.Valid r := fun r hr =>
  Framing.valid_of_mem_records _ r (List.mem_filter.1 hr).1

theorem records_compact (w : Wal) : w.compact.records = unacked w.lastAckedSeq w.records := by
  rw [records, compact_wal, Framing.records_encodeAll valid_of_mem_unacked]

/-- Compaction drops a torn tail. -/
theorem clean_compact (w : Wal) : w.compact.Clean := by
  rw [Clean, compact_wal, Framing.tail_encodeAll valid_of_mem_unacked]

theorem Clean.encodeAll_records {w : Wal} (h : w.Clean) :
    walFraming.encodeAll w.records = w.disk.wal := by
  have := walFraming.encodeAll_records_append_tail w.disk.wal
  rwa [h, List.append_nil] at this

theorem Clean.append_wal {w : Wal} (h : w.Clean) (r : WalRecord) :
    (w.append r).disk.wal = walFraming.encodeAll (w.records ++ [r]) := by
  rw [Framing.encodeAll_append, h.encodeAll_records]
  simp [append, walFraming]

theorem valid_records_snoc {w : Wal} {r : WalRecord} (hr : r.payload.length ≤ kWalMaxPayloadBytes) :
    ∀ s ∈ w.records ++ [r], walFraming.Valid s :=
  List.forall_mem_append.2 ⟨Framing.valid_of_mem_records _, List.forall_mem_singleton.2 hr⟩

/-- Behind a clean file, `Append` adds its record. -/
theorem Clean.records_append {w : Wal} (h : w.Clean) {r : WalRecord}
    (hr : r.payload.length ≤ kWalMaxPayloadBytes) : (w.append r).records = w.records ++ [r] := by
  rw [records, h.append_wal, Framing.records_encodeAll (valid_records_snoc hr)]

theorem Clean.append {w : Wal} (h : w.Clean) {r : WalRecord}
    (hr : r.payload.length ≤ kWalMaxPayloadBytes) : (w.append r).Clean := by
  rw [Clean, h.append_wal, Framing.tail_encodeAll (valid_records_snoc hr)]

/-- Behind a clean file, an `Append` cut short adds nothing a reader sees. -/
theorem Clean.records_torn {w : Wal} (h : w.Clean) {r : WalRecord}
    (hr : r.payload.length ≤ kWalMaxPayloadBytes) {k : ℕ} (hk : k < (encodeRecord r).length) :
    walFraming.records (w.disk.wal ++ (encodeRecord r).take k) = w.records := by
  have hnone : walFraming.decode ((encodeRecord r).take k) = none :=
    walFraming.decode_take_encode hr hk
  have hvalid : ∀ s ∈ w.records, walFraming.Valid s := Framing.valid_of_mem_records _
  rw [← h.encodeAll_records, Framing.records_encodeAll_append _ hvalid,
    Framing.records_of_decode_none hnone, List.append_nil]

end Wal

end Ridgeline
