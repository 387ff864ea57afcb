import Mathlib.Logic.Function.Basic
import Ridgeline.Transition
import Ridgeline.Wal

/-!
# The log under the agent's threads

`main` shares one `Wal` between three threads : the producer calls `Append`, the reader
of the stream calls `Acknowledge`, and the send loop calls `Compact`. There is no lock.
Here each file-system call is one step. `open` resolves the path to an inode once, and
the descriptor keeps that inode when `rename` puts another one at the path; reads and
writes may be short; the filter of `Compact` reads `last_acked_seq_` at each record.

`Compact` replaces the file by what it read from it. An `Append` that opens the log, or
is still writing to it, after `Compact` has seen the end of the file writes to an inode
that the rename then drops (`compact_drops_append`). Over the schedules in which neither
happens (`Exclusive`), every event whose `Append` has returned is in the log or at most
the checkpointed seq, at every moment (`returned_in_log`).
-/

namespace Ridgeline

/-! ## `AtomicWriteFile` -/

/-- `AtomicWriteFile` up to its `rename` : entered, the temp file open and the first bytes
written, or the temp file complete and synced. No other thread opens the temp file. -/
inductive AtomicWrite
  | entered (contents : Bytes)
  | writing (tmp rest : Bytes)
  | synced (tmp : Bytes)
  deriving DecidableEq, Repr

/-- The calls of `AtomicWriteFile` before `rename`. -/
inductive AtomicWriteAct
  | openTmp
  | write (n : ℕ)
  | fsync
  deriving DecidableEq, Repr

namespace AtomicWrite

/-- One call. A `write` takes any number of the bytes it is offered. -/
def step : AtomicWrite → AtomicWriteAct → Option AtomicWrite
  | entered contents, .openTmp => some (writing [] contents)
  | writing tmp (b :: rest), .write n =>
    if n ≤ (b :: rest).length then
      some (writing (tmp ++ (b :: rest).take n) ((b :: rest).drop n))
    else none
  | writing tmp [], .fsync => some (synced tmp)
  | _, _ => none

/-- The contents the file will have. -/
def contents : AtomicWrite → Bytes
  | entered contents => contents
  | writing tmp rest => tmp ++ rest
  | synced tmp => tmp

theorem contents_step {w v : AtomicWrite} {a : AtomicWriteAct} (h : w.step a = some v) :
    v.contents = w.contents := by
  rcases w with c | ⟨tmp, _ | ⟨b, rest⟩⟩ | tmp <;> rcases a with _ | n | _ <;>
    simp only [step, reduceCtorEq, Option.some.injEq] at h
  · rw [← h]
    rfl
  · rw [← h]
    simp [contents]
  · split_ifs at h
    cases h
    simp only [contents, List.append_assoc, List.take_append_drop]

end AtomicWrite

/-! ## The three threads -/

/-- `Append` : the inode it opened, the record, and the bytes written and left. -/
inductive AppendPc
  | idle
  | writing (ino : ℕ) (r : WalRecord) (written rest : Bytes)
  deriving DecidableEq, Repr

/-- `Compact` : reading the inode it opened, in the decode loop, or replacing the file. -/
inductive CompactPc
  | idle
  | reading (ino : ℕ) (data : Bytes)
  | filtering (data : Bytes) (offset : ℕ) (kept : Bytes)
  | replacing (file : AtomicWrite)
  deriving DecidableEq, Repr

/-- `Acknowledge` : replacing the checkpoint file, or about to set `last_acked_seq_`. -/
inductive AckPc
  | idle
  | replacing (upToSeq : UInt64) (file : AtomicWrite)
  | renamed (upToSeq : UInt64)
  deriving DecidableEq, Repr

/-- The files by inode, the inode at `wal_path`, the next unused inode, the checkpoint
file, `last_acked_seq_`, the three threads, and the records whose `Append` has returned. -/
structure WalThreads where
  inode : ℕ → Bytes
  walIno : ℕ
  fresh : ℕ
  checkpoint : Bytes
  lastAckedSeq : UInt64
  producer : AppendPc
  sender : CompactPc
  reader : AckPc
  returned : List WalRecord

/-- The file-system calls of `Append`. It returns after its `fsync`. -/
inductive AppendAct
  | openLog (r : WalRecord)
  | write (n : ℕ)
  | fsync
  deriving DecidableEq, Repr

/-- The file-system calls of `Compact`, and the steps of its decode loop. A `read` that
returns nothing is the end of the file. -/
inductive CompactAct
  | openLog
  | read (n : ℕ)
  | eof
  | decode
  | tmp (a : AtomicWriteAct)
  | rename
  deriving DecidableEq, Repr

/-- The call of `Acknowledge`, its file-system calls, and the assignment at its end. -/
inductive AckAct
  | enter (upToSeq : UInt64)
  | tmp (a : AtomicWriteAct)
  | rename
  | set
  deriving DecidableEq, Repr

/-- A step of one of the threads. -/
inductive WalAct
  | append (a : AppendAct)
  | compact (a : CompactAct)
  | ack (a : AckAct)
  deriving DecidableEq, Repr

/-- The size of the buffer of `ReadWholeFile`. -/
def kReadBufBytes : ℕ := 65536

namespace WalThreads

/-- The threads of a process that has opened the log on `d`. -/
def start (d : Disk) : WalThreads where
  inode := Function.update (fun _ => []) 0 d.wal
  walIno := 0
  fresh := 1
  checkpoint := d.checkpoint
  lastAckedSeq := (Wal.open d).lastAckedSeq
  producer := .idle
  sender := .idle
  reader := .idle
  returned := []

/-- The file at `wal_path`. -/
def walFile (s : WalThreads) : Bytes :=
  s.inode s.walIno

/-- One step of the producer in `Append`. -/
def appendStep (s : WalThreads) : AppendAct → Option WalThreads
  | .openLog r =>
    match s.producer with
    | .idle => some { s with producer := .writing s.walIno r [] (encodeRecord r) }
    | _ => none
  | .write n =>
    match s.producer with
    | .writing ino r written (b :: rest) =>
      if n ≤ (b :: rest).length then
        some { s with
          inode := Function.update s.inode ino (s.inode ino ++ (b :: rest).take n)
          producer := .writing ino r (written ++ (b :: rest).take n) ((b :: rest).drop n) }
      else none
    | _ => none
  | .fsync =>
    match s.producer with
    | .writing _ r _ [] => some { s with producer := .idle, returned := s.returned ++ [r] }
    | _ => none

/-- One step of the send loop in `Compact`. -/
def compactStep (s : WalThreads) : CompactAct → Option WalThreads
  | .openLog =>
    match s.sender with
    | .idle => some { s with sender := .reading s.walIno [] }
    | _ => none
  | .read n =>
    match s.sender with
    | .reading ino data =>
      let avail := (s.inode ino).drop data.length
      if 0 < n ∧ n ≤ kReadBufBytes ∧ n ≤ avail.length then
        some { s with sender := .reading ino (data ++ avail.take n) }
      else none
    | _ => none
  | .eof =>
    match s.sender with
    | .reading ino data =>
      if (s.inode ino).drop data.length = [] then
        some { s with sender := .filtering data 0 [] }
      else none
    | _ => none
  | .decode =>
    match s.sender with
    | .filtering data offset kept =>
      match decodeRecord data offset with
      | some (r, next) =>
        some { s with sender := .filtering data next (compactBody s.lastAckedSeq kept r) }
      | none => some { s with sender := .replacing (.entered kept) }
    | _ => none
  | .tmp a =>
    match s.sender with
    | .replacing file => (file.step a).map fun file' => { s with sender := .replacing file' }
    | _ => none
  | .rename =>
    match s.sender with
    | .replacing (.synced tmp) =>
      some { s with
        inode := Function.update s.inode s.fresh tmp
        walIno := s.fresh
        fresh := s.fresh + 1
        sender := .idle }
    | _ => none

/-- One step of the reader of the stream in `Acknowledge`. -/
def ackStep (s : WalThreads) : AckAct → Option WalThreads
  | .enter upToSeq =>
    match s.reader with
    | .idle =>
      if upToSeq ≤ s.lastAckedSeq then some s
      else some { s with reader := .replacing upToSeq (.entered (checkpointBytes upToSeq)) }
    | _ => none
  | .tmp a =>
    match s.reader with
    | .replacing upToSeq file =>
      (file.step a).map fun file' => { s with reader := .replacing upToSeq file' }
    | _ => none
  | .rename =>
    match s.reader with
    | .replacing upToSeq (.synced tmp) =>
      some { s with checkpoint := tmp, reader := .renamed upToSeq }
    | _ => none
  | .set =>
    match s.reader with
    | .renamed upToSeq => some { s with lastAckedSeq := upToSeq, reader := .idle }
    | _ => none

/-- One step of the system. -/
def step (s : WalThreads) : WalAct → Option WalThreads
  | .append a => s.appendStep a
  | .compact a => s.compactStep a
  | .ack a => s.ackStep a

/-- Every event whose `Append` has returned is in the log at `wal_path`, or at most the
checkpointed seq. -/
def ReturnedHeld (s : WalThreads) : Prop :=
  ∀ r ∈ s.returned, r ∈ walFraming.records s.walFile ∨ r.seq ≤ loadCheckpoint s.checkpoint

instance (s : WalThreads) : Decidable s.ReturnedHeld :=
  inferInstanceAs (Decidable (∀ r ∈ s.returned, _ ∨ _))

end WalThreads

/-- `Append` has opened the log and has bytes left to write. -/
def AppendPc.Unfinished : AppendPc → Prop
  | writing _ _ _ (_ :: _) => True
  | _ => False

instance : ∀ p : AppendPc, Decidable p.Unfinished
  | .idle | .writing _ _ _ [] => .isFalse id
  | .writing _ _ _ (_ :: _) => .isTrue trivial

/-- `Compact` has seen the end of the log and has not renamed its copy yet. -/
def CompactPc.HasCopy : CompactPc → Prop
  | filtering _ _ _ | replacing _ => True
  | _ => False

instance : ∀ p : CompactPc, Decidable p.HasCopy
  | .idle | .reading _ _ => .isFalse id
  | .filtering _ _ _ | .replacing _ => .isTrue trivial

namespace WalThreads

/-- `Append` does not open the log while `Compact` holds a copy of it, `Compact` does not
see the end of the log while an `Append` is writing, and payloads are within the cap. -/
def Exclusive (s : WalThreads) : WalAct → Prop
  | .append (.openLog r) => r.payload.length ≤ kWalMaxPayloadBytes ∧ ¬ s.sender.HasCopy
  | .compact .eof => ¬ s.producer.Unfinished
  | _ => True

instance (s : WalThreads) : ∀ a, Decidable (s.Exclusive a)
  | .append (.openLog _) => inferInstanceAs (Decidable (_ ∧ ¬ _))
  | .compact .eof => inferInstanceAs (Decidable (¬ _))
  | .append (.write _) | .append .fsync | .compact .openLog | .compact (.read _)
  | .compact .decode | .compact (.tmp _) | .compact .rename | .ack _ => .isTrue trivial

end WalThreads

/-! ## The invariant -/

/-- Every record of `written` is in `rs` or at most `acked`. -/
def HeldIn (written : List WalRecord) (acked : UInt64) (rs : List WalRecord) : Prop :=
  ∀ r ∈ written, r ∈ rs ∨ r.seq ≤ acked

theorem HeldIn.mono {written rs : List WalRecord} {acked acked' : UInt64} (h : acked ≤ acked')
    (hheld : HeldIn written acked rs) : HeldIn written acked' rs := fun r hr =>
  (hheld r hr).imp_right fun hle => hle.trans h

/-- A record that is acked need not be kept. -/
theorem HeldIn.drop_acked {written ks rs : List WalRecord} {r : WalRecord} {acked : UInt64}
    (h : HeldIn written acked (ks ++ r :: rs)) (hr : r.seq ≤ acked) :
    HeldIn written acked (ks ++ rs) := by
  intro r' hr'
  rcases h r' hr' with hmem | hle
  · rcases List.mem_append.1 hmem with hmem | hmem
    · exact .inl (List.mem_append_left _ hmem)
    · rcases List.mem_cons.1 hmem with rfl | hmem
      · exact .inr hr
      · exact .inl (List.mem_append_right _ hmem)
  · exact .inr hle

/-- The bytes an unfinished `Append` has left at the end of the log. -/
def AppendPc.torn : AppendPc → Bytes
  | writing _ _ written (_ :: _) => written
  | _ => []

/-- The record of an `Append` that has written all of it and has not returned. -/
def AppendPc.complete : AppendPc → List WalRecord
  | writing _ r _ [] => [r]
  | _ => []

/-- An unfinished `Append` writes to the inode at `wal_path`, and `Compact` has no copy. -/
def AppendPc.Inv (walIno : ℕ) (hasCopy : Prop) : AppendPc → Prop
  | writing ino r written (b :: rest) => ino = walIno ∧ walFraming.Valid r ∧
      written ++ b :: rest = encodeRecord r ∧ ¬ hasCopy
  | _ => True

/-- The checkpoint file is ahead of `last_acked_seq_` only between its rename and the
assignment. -/
def AckPc.Inv (acked lastAckedSeq : UInt64) : AckPc → Prop
  | idle => acked = lastAckedSeq
  | replacing upToSeq file => acked = lastAckedSeq ∧ lastAckedSeq ≤ upToSeq ∧
      file.contents = checkpointBytes upToSeq
  | renamed upToSeq => acked = upToSeq ∧ lastAckedSeq ≤ upToSeq

/-- What `Compact` has read is the front of the log, and what it keeps, with what it has
yet to decode, holds everything written. -/
def CompactPc.Inv (walIno : ℕ) (walFile : Bytes) (held : List WalRecord → Prop) :
    CompactPc → Prop
  | idle => True
  | reading ino data => ino = walIno ∧ data <+: walFile
  | filtering data offset kept => ∃ ks, (∀ r ∈ ks, walFraming.Valid r) ∧
      kept = walFraming.encodeAll ks ∧ held (ks ++ walFraming.records (data.drop offset))
  | replacing file => ∃ ks, (∀ r ∈ ks, walFraming.Valid r) ∧
      file.contents = walFraming.encodeAll ks ∧ held ks

theorem AppendPc.torn_eq_nil : ∀ {p : AppendPc}, ¬ p.Unfinished → p.torn = []
  | idle, _ | writing _ _ _ [], _ => rfl
  | writing _ _ _ (_ :: _), h => (h trivial).elim

theorem AppendPc.Inv.not_unfinished {walIno : ℕ} {hasCopy : Prop} (hcopy : hasCopy) :
    ∀ {p : AppendPc}, p.Inv walIno hasCopy → ¬ p.Unfinished
  | idle, _ | writing _ _ _ [], _ => id
  | writing _ _ _ (_ :: _), h => fun _ => h.2.2.2 hcopy

theorem AppendPc.Inv.of_not_unfinished {walIno : ℕ} {hasCopy : Prop} :
    ∀ {p : AppendPc}, ¬ p.Unfinished → p.Inv walIno hasCopy
  | idle, _ | writing _ _ _ [], _ => trivial
  | writing _ _ _ (_ :: _), h => (h trivial).elim

theorem AckPc.Inv.lastAcked_le {acked lastAckedSeq : UInt64} :
    ∀ {p : AckPc}, p.Inv acked lastAckedSeq → lastAckedSeq ≤ acked
  | idle, h => h.ge
  | replacing _ _, h => h.1.ge
  | renamed _, h => h.1.symm ▸ h.2

/-- The invariant of `Compact` is kept while the log grows and less has to be held. -/
theorem CompactPc.Inv.mono {walIno : ℕ} {file file' : Bytes} {held held' : List WalRecord → Prop}
    (hfile : file <+: file') (hheld : ∀ rs, held rs → held' rs) :
    ∀ {p : CompactPc}, p.Inv walIno file held → p.Inv walIno file' held'
  | idle, _ => trivial
  | reading _ _, h => ⟨h.1, h.2.trans hfile⟩
  | filtering _ _ _, ⟨ks, hks, hkept, h⟩ => ⟨ks, hks, hkept, hheld _ h⟩
  | replacing _, ⟨ks, hks, hkept, h⟩ => ⟨ks, hks, hkept, hheld _ h⟩

/-- Without a copy of the log there is nothing to hold. -/
theorem CompactPc.Inv.of_not_hasCopy {walIno : ℕ} {file file' : Bytes}
    {held held' : List WalRecord → Prop} (hfile : file <+: file') :
    ∀ {p : CompactPc}, ¬ p.HasCopy → p.Inv walIno file held → p.Inv walIno file' held'
  | idle, _, _ => trivial
  | reading _ _, _, h => ⟨h.1, h.2.trans hfile⟩
  | filtering _ _ _, h, _ | replacing _, h, _ => (h trivial).elim

/-- A `read` goes on where the last one ended. -/
theorem CompactPc.Inv.read {walIno ino : ℕ} {file data : Bytes} {held : List WalRecord → Prop}
    (h : (reading ino data).Inv walIno file held) (n : ℕ) :
    (reading ino (data ++ (file.drop data.length).take n)).Inv walIno file held := by
  obtain ⟨rfl, c, rfl⟩ := h
  refine ⟨rfl, ?_⟩
  rw [List.drop_left, List.prefix_append_right_inj]
  exact List.take_prefix n c

/-- At the end of a log of whole records the copy is the log. -/
theorem CompactPc.Inv.eof {walIno ino : ℕ} {file data : Bytes} {held : List WalRecord → Prop}
    {rs : List WalRecord} (h : (reading ino data).Inv walIno file held)
    (heof : file.drop data.length = []) (hfile : file = walFraming.encodeAll rs)
    (hrs : ∀ r ∈ rs, walFraming.Valid r) (hheld : held rs) :
    (filtering data 0 []).Inv walIno file held := by
  obtain ⟨rfl, c, hc⟩ := h
  have hdata : data = walFraming.encodeAll rs := by
    rw [← hc, List.drop_left] at heof
    rw [← hfile, ← hc, heof, List.append_nil]
  refine ⟨[], nofun, rfl, ?_⟩
  rw [List.drop_zero, hdata, Framing.records_encodeAll hrs]
  exact hheld

/-- A record that is decoded is kept unless it is acked. -/
theorem CompactPc.Inv.decode {walIno offset next : ℕ} {file data kept : Bytes} {r : WalRecord}
    {written : List WalRecord} {acked lastAckedSeq : UInt64}
    (h : (filtering data offset kept).Inv walIno file (HeldIn written acked))
    (hdec : decodeRecord data offset = some (r, next)) (hle : lastAckedSeq ≤ acked) :
    (filtering data next (compactBody lastAckedSeq kept r)).Inv walIno file
      (HeldIn written acked) := by
  obtain ⟨ks, hks, rfl, hkeep⟩ := h
  obtain ⟨hdec, -, -⟩ := decode_drop_of_some hdec
  rw [Framing.records_of_decode hdec] at hkeep
  by_cases hr : r.seq > lastAckedSeq
  · have hvalid : walFraming.Valid r := (walFraming.decode_sound _ _ _ hdec).1
    rw [List.append_cons] at hkeep
    refine ⟨ks ++ [r], List.forall_mem_append.2 ⟨hks, List.forall_mem_singleton.2 hvalid⟩, ?_,
      hkeep⟩
    simp [compactBody, hr, walFraming]
  · exact ⟨ks, hks, by simp [compactBody, hr], hkeep.drop_acked ((not_lt.1 hr).trans hle)⟩

namespace WalThreads

/-- The records that are completely written : those returned, and that of an `Append`
that has only to return. -/
def written (s : WalThreads) : List WalRecord :=
  s.returned ++ s.producer.complete

/-- What holds in every state of an exclusive schedule. The log is whole records followed
by the bytes of an unfinished `Append`, and holds everything written. -/
structure Inv (s : WalThreads) : Prop where
  ack : s.reader.Inv (loadCheckpoint s.checkpoint) s.lastAckedSeq
  append : s.producer.Inv s.walIno s.sender.HasCopy
  compact : s.sender.Inv s.walIno s.walFile (HeldIn s.written (loadCheckpoint s.checkpoint))
  file : ∃ rs, (∀ r ∈ rs, walFraming.Valid r) ∧
    s.walFile = walFraming.encodeAll rs ++ s.producer.torn ∧
      HeldIn s.written (loadCheckpoint s.checkpoint) rs

theorem Inv.returnedHeld {s : WalThreads} (h : Inv s) : s.ReturnedHeld := by
  obtain ⟨rs, hrs, hfile, hheld⟩ := h.file
  intro r hr
  refine (hheld r (List.mem_append_left _ hr)).imp_left fun hmem => ?_
  rw [hfile, Framing.records_encodeAll_append _ hrs]
  exact List.mem_append_left _ hmem

theorem inv_start {d : Disk} (h : (Wal.open d).Clean) : Inv (start d) where
  ack := rfl
  append := trivial
  compact := trivial
  file := by
    have hfile : (start d).walFile = d.wal := by simp [walFile, start]
    refine ⟨(Wal.open d).records, Framing.valid_of_mem_records _, ?_, nofun⟩
    rw [hfile, h.encodeAll_records]
    exact (List.append_nil d.wal).symm

/-! ## One lemma per thread -/

theorem exists_cons_encodeRecord (r : WalRecord) : ∃ b rest, encodeRecord r = b :: rest :=
  List.exists_cons_of_ne_nil (walFraming.encode_ne_nil r)

/-- A `write` of `Append` extends the unfinished record, and its last one completes it. -/
theorem file_appendWrite {file pre rest : Bytes} {r : WalRecord} {rs written : List WalRecord}
    {acked : UInt64} {ino n : ℕ} (hr : walFraming.Valid r) (hrec : pre ++ rest = encodeRecord r)
    (hrs : ∀ r ∈ rs, walFraming.Valid r) (hfile : file = walFraming.encodeAll rs ++ pre)
    (hheld : HeldIn written acked rs) :
    ∃ rs', (∀ r ∈ rs', walFraming.Valid r) ∧ file ++ rest.take n = walFraming.encodeAll rs' ++
        (AppendPc.writing ino r (pre ++ rest.take n) (rest.drop n)).torn ∧
      HeldIn (written ++ (AppendPc.writing ino r (pre ++ rest.take n) (rest.drop n)).complete)
        acked rs' := by
  cases hdrop : rest.drop n with
  | nil =>
    have htake : rest.take n = rest := List.take_of_length_le (List.drop_eq_nil_iff.1 hdrop)
    refine ⟨rs ++ [r], List.forall_mem_append.2 ⟨hrs, List.forall_mem_singleton.2 hr⟩, ?_, ?_⟩
    · rw [htake, hfile, List.append_assoc, hrec]
      simp [walFraming, AppendPc.torn]
    · intro r' hr'
      rcases List.mem_append.1 hr' with hr' | hr'
      · exact (hheld r' hr').imp_left (List.mem_append_left _)
      · exact .inl (List.mem_append_right _ hr')
  | cons b bs =>
    refine ⟨rs, hrs, ?_, ?_⟩
    · rw [hfile, List.append_assoc]
      rfl
    · simpa [AppendPc.complete] using hheld

/-- The steps of `Append`. -/
theorem inv_appendStep {s t : WalThreads} {a : AppendAct} (hs : Inv s)
    (hok : s.Exclusive (.append a))
    (h : s.appendStep a = some t) : Inv t := by
  obtain ⟨hack, happend, hcompact, rs, hrs, hfile, hheld⟩ := hs
  cases a with
  | openLog r =>
    obtain ⟨hlen, hcopy⟩ := hok
    simp only [appendStep] at h
    split at h
    · rename_i hidle
      cases h
      obtain ⟨b, rest, hbr⟩ := exists_cons_encodeRecord r
      refine ⟨hack, ?_, ?_, rs, hrs, ?_, ?_⟩
      · simpa [AppendPc.Inv, hbr] using ⟨hlen, hcopy⟩
      · exact hcompact.of_not_hasCopy (List.prefix_refl _) hcopy
      · simpa [walFile, hidle, hbr, AppendPc.torn] using hfile
      · simpa [written, hidle, hbr, AppendPc.complete] using hheld
    · cases h
  | write n =>
    simp only [appendStep] at h
    split at h
    · rename_i ino r pre b rest hwriting
      split_ifs at h with hn
      cases h
      rw [hwriting] at happend
      obtain ⟨rfl, hr, hrec, hcopy⟩ := happend
      rw [hwriting] at hfile
      have hwritten : s.written = s.returned := by simp [written, hwriting, AppendPc.complete]
      refine ⟨hack, ?_, ?_, ?_⟩
      · cases hdrop : (b :: rest).drop n with
        | nil => trivial
        | cons b' rest' =>
          refine ⟨rfl, hr, ?_, hcopy⟩
          rw [← hdrop, List.append_assoc, List.take_append_drop, hrec]
      · refine hcompact.of_not_hasCopy ?_ hcopy
        simp only [walFile, Function.update_self]
        exact List.prefix_append _ _
      · simp only [walFile, Function.update_self]
        exact file_appendWrite hr hrec hrs hfile (hwritten ▸ hheld)
    · cases h
  | fsync =>
    simp only [appendStep] at h
    split at h
    · rename_i ino r pre hdone
      cases h
      have hwritten : s.written = s.returned ++ [r] := by
        simp [written, hdone, AppendPc.complete]
      have hnew : s.returned ++ [r] ++ AppendPc.idle.complete = s.written := by
        simp [hwritten, AppendPc.complete]
      refine ⟨hack, trivial, ?_, rs, hrs, ?_, ?_⟩
      · rw [written, hnew]
        exact hcompact
      · rw [hdone] at hfile
        exact hfile
      · rw [written, hnew]
        exact hheld
    · cases h

/-- `Compact` goes on without a change to the files. -/
theorem Inv.setSender {s : WalThreads} (hs : Inv s) {p : CompactPc}
    (happend : s.producer.Inv s.walIno p.HasCopy)
    (hp : p.Inv s.walIno s.walFile (HeldIn s.written (loadCheckpoint s.checkpoint))) :
    Inv { s with sender := p } :=
  ⟨hs.ack, happend, hp, hs.file⟩

/-- `Acknowledge` goes on without a change to the checkpoint file. -/
theorem Inv.setReader {s : WalThreads} (hs : Inv s) {p : AckPc}
    (hp : p.Inv (loadCheckpoint s.checkpoint) s.lastAckedSeq) : Inv { s with reader := p } :=
  ⟨hp, hs.append, hs.compact, hs.file⟩

/-- The steps of `Compact`. At the end of the log its copy is the log, each record of the
copy is kept unless it is acked, and the rename installs what was kept. -/
theorem inv_compactStep {s t : WalThreads} {a : CompactAct} (hs : Inv s)
    (hok : s.Exclusive (.compact a))
    (h : s.compactStep a = some t) : Inv t := by
  have happend := hs.append
  have hcompact := hs.compact
  cases a with
  | openLog =>
    simp only [compactStep] at h
    split at h
    · rename_i hidle
      cases h
      rw [hidle] at happend
      exact hs.setSender happend ⟨rfl, List.nil_prefix⟩
    · cases h
  | read n =>
    simp only [compactStep] at h
    split at h
    · rename_i ino data hreading
      split_ifs at h
      cases h
      rw [hreading] at happend hcompact
      obtain rfl := hcompact.1
      exact hs.setSender happend (hcompact.read n)
    · cases h
  | eof =>
    simp only [compactStep] at h
    split at h
    · rename_i ino data hreading
      split_ifs at h with heof
      cases h
      rw [hreading] at hcompact
      obtain rfl := hcompact.1
      obtain ⟨rs, hrs, hfile, hheld⟩ := hs.file
      have hwhole : s.walFile = walFraming.encodeAll rs := by
        rw [hfile, AppendPc.torn_eq_nil hok, List.append_nil]
      exact hs.setSender (.of_not_unfinished hok) (hcompact.eof heof hwhole hrs hheld)
    · cases h
  | decode =>
    simp only [compactStep] at h
    split at h
    · rename_i data offset kept hfiltering
      rw [hfiltering] at happend hcompact
      split at h
      · rename_i r next hdec
        cases h
        exact hs.setSender happend (hcompact.decode hdec hs.ack.lastAcked_le)
      · rename_i hdec
        cases h
        obtain ⟨ks, hks, rfl, hkeep⟩ := hcompact
        rw [Framing.records_of_decode_none (decode_drop_of_none hdec), List.append_nil] at hkeep
        exact hs.setSender happend ⟨ks, hks, rfl, hkeep⟩
    · cases h
  | tmp a =>
    simp only [compactStep] at h
    split at h
    · rename_i file hreplacing
      obtain ⟨file', hstep, rfl⟩ := Option.map_eq_some_iff.1 h
      rw [hreplacing] at happend hcompact
      obtain ⟨ks, hks, hkept, hkeep⟩ := hcompact
      refine hs.setSender happend ⟨ks, hks, ?_, hkeep⟩
      rw [AtomicWrite.contents_step hstep, hkept]
    · cases h
  | rename =>
    simp only [compactStep] at h
    split at h
    · rename_i tmp hreplacing
      cases h
      rw [hreplacing] at happend hcompact
      obtain ⟨ks, hks, rfl, hkeep⟩ := hcompact
      have hun : ¬ s.producer.Unfinished := happend.not_unfinished trivial
      refine ⟨hs.ack, .of_not_unfinished hun, trivial, ks, hks, ?_, hkeep⟩
      simp only [AppendPc.torn_eq_nil hun, List.append_nil, walFile, Function.update_self]
    · cases h

/-- The steps of `Acknowledge` : the checkpointed seq only grows. -/
theorem inv_ackStep {s t : WalThreads} {a : AckAct} (hs : Inv s) (h : s.ackStep a = some t) :
    Inv t := by
  have hack := hs.ack
  cases a with
  | enter upToSeq =>
    simp only [ackStep] at h
    split at h
    · rename_i hidle
      split_ifs at h with hstale
      · cases h
        exact hs
      · cases h
        rw [hidle] at hack
        exact hs.setReader ⟨hack, (not_le.1 hstale).le, rfl⟩
    · cases h
  | tmp a =>
    simp only [ackStep] at h
    split at h
    · rename_i upToSeq file hreplacing
      obtain ⟨file', hstep, rfl⟩ := Option.map_eq_some_iff.1 h
      rw [hreplacing] at hack
      obtain ⟨hacked, hle, hcontents⟩ := hack
      refine hs.setReader ⟨hacked, hle, ?_⟩
      rw [AtomicWrite.contents_step hstep, hcontents]
    · cases h
  | rename =>
    simp only [ackStep] at h
    split at h
    · rename_i upToSeq tmp hreplacing
      cases h
      rw [hreplacing] at hack
      obtain ⟨hacked, hle, hcontents⟩ := hack
      obtain ⟨rs, hrs, hfile, hheld⟩ := hs.file
      have hnew : loadCheckpoint tmp = upToSeq := by
        rw [show tmp = checkpointBytes upToSeq from hcontents, loadCheckpoint_checkpointBytes]
      have hgrow : loadCheckpoint s.checkpoint ≤ loadCheckpoint tmp := by
        rw [hacked, hnew]
        exact hle
      exact ⟨⟨hnew, hle⟩, hs.append, hs.compact.mono (List.prefix_refl _) fun _ => .mono hgrow,
        rs, hrs, hfile, hheld.mono hgrow⟩
    · cases h
  | set =>
    simp only [ackStep] at h
    split at h
    · rename_i upToSeq hrenamed
      cases h
      rw [hrenamed] at hack
      exact ⟨hack.1, hs.append, hs.compact, hs.file⟩
    · cases h

theorem inv_step {s t : WalThreads} {a : WalAct} (hs : Inv s) (hok : s.Exclusive a)
    (h : s.step a = some t) : Inv t := by
  cases a with
  | append a => exact inv_appendStep hs hok h
  | compact a => exact inv_compactStep hs hok h
  | ack a => exact inv_ackStep hs h

/-! ## Committed events under the three threads -/

/-- On a log that starts as whole records, every event whose `Append` has returned is in
the log at `wal_path` or at most the checkpointed seq, in every state of every schedule
whose steps are exclusive. -/
theorem returned_in_log {d : Disk} (hclean : (Wal.open d).Clean) {as : List WalAct}
    {s : WalThreads} (hok : Guarded step Exclusive (start d) as)
    (h : exec step (start d) as = some s) : s.ReturnedHeld :=
  (exec_invariant_guarded (fun _ _ _ hs ha ht => inv_step hs ha ht) (inv_start hclean) hok
    h).returnedHeld

/-- Seq 1 is appended and acked, then a compaction races with the `Append` of seq 2. -/
def exclusiveRun : List WalAct :=
  [.append (.openLog ⟨1, ascii "a"⟩), .append (.write 5), .append (.write 12), .append .fsync,
    .ack (.enter 1), .ack (.tmp .openTmp), .compact .openLog, .compact (.read 17),
    .ack (.tmp (.write 8)), .ack (.tmp .fsync), .ack .rename, .append (.openLog ⟨2, ascii "b"⟩),
    .append (.write 17), .ack .set, .compact (.read 17), .compact .eof, .compact .decode,
    .compact .decode, .compact .decode, .compact (.tmp .openTmp), .compact (.tmp (.write 17)),
    .compact (.tmp .fsync), .compact .rename, .append .fsync]

theorem returned_in_log_exclusiveRun : ∃ s, exec step (start ⟨[], []⟩) exclusiveRun = some s ∧
    s.returned.map WalRecord.seq = [1, 2] ∧ s.ReturnedHeld := by
  obtain ⟨s, hs, hseqs⟩ : ∃ s, exec step (start ⟨[], []⟩) exclusiveRun = some s ∧
      s.returned.map WalRecord.seq = [1, 2] := exists_exec_of_any (by decide +kernel)
  exact ⟨s, hs, hseqs, returned_in_log (by decide +kernel) (by decide +kernel) hs⟩

/-- `Compact` reads the empty log to its end, `Append` of seq 1 runs and returns, and
`Compact` renames the empty copy over the log. -/
def racingRun : List WalAct :=
  [.compact .openLog, .compact .eof, .append (.openLog ⟨1, ascii "a"⟩), .append (.write 17),
    .append .fsync, .compact .decode, .compact (.tmp .openTmp), .compact (.tmp .fsync),
    .compact .rename]

/-- Seq 1 is returned and not acked, and the log at `wal_path` is empty. -/
theorem compact_drops_append : ∃ s, exec step (start ⟨[], []⟩) racingRun = some s ∧
    s.walFile = [] ∧ ¬ s.ReturnedHeld :=
  exists_exec_of_any (by decide +kernel)

end WalThreads

end Ridgeline
