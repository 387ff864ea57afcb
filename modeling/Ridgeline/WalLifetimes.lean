import Mathlib.Data.List.Nodup
import Ridgeline.Transition
import Ridgeline.Wal

/-!
# The log across process lifetimes

The agent's use of the log over any number of lifetimes on the same two files. A
lifetime opens the `Wal`, replays it, and takes `next_seq` past the acked seq and
everything replayed (`Agent.start`); `emit` appends under `next_seq` and increments it.
A crash ends a lifetime, between two calls or inside an `Append`, which then leaves a
proper prefix of its record at the end of the file.

Nothing truncates that prefix. While the file ends in one, `Append` writes behind bytes
that do not decode, and replay stops before what it wrote (`torn_tail_hides_append`).
Over the runs in which every `Append` finds a clean file and a `next_seq` that has not
wrapped (`AppendsClean`), every restart replays exactly the committed records above the
checkpoint, in order, and no seq is given twice (`restart_replays_committed`).
-/

namespace Ridgeline

/-- The agent's log, its `next_seq`, every record whose `Append` has returned in any
lifetime, and what this lifetime's start passed to `on_record`. -/
structure Agent where
  wal : Wal
  nextSeq : UInt64
  committed : List WalRecord
  replayed : List WalRecord
  deriving DecidableEq, Repr

/-- What happens to the log. The two crashes restart the agent. -/
inductive WalOp
  | append (payload : Bytes)
  | acknowledge (upToSeq : UInt64)
  | compact
  | replayUnacked
  | crash
  | crashInAppend (payload : Bytes) (k : ℕ)
  deriving DecidableEq, Repr

/-- The steps after which a new lifetime has opened the log and replayed it. -/
def WalOp.IsRestart : WalOp → Prop
  | crash | crashInAppend _ _ => True
  | _ => False

namespace Wal

/-- The log holds those of the records `committed` that are above its acked seq, which is the
one in the checkpoint. -/
structure Keeps (w : Wal) (committed : List WalRecord) : Prop where
  lastAcked : w.lastAckedSeq = loadCheckpoint w.disk.checkpoint
  unacked : Wal.unacked w.lastAckedSeq w.records = Wal.unacked w.lastAckedSeq committed

variable {w : Wal} {committed : List WalRecord}

theorem Keeps.append (hw : w.Keeps committed) (hclean : w.Clean) {r : WalRecord}
    (hr : r.payload.length ≤ kWalMaxPayloadBytes) : (w.append r).Keeps (committed ++ [r]) := by
  refine ⟨hw.lastAcked, ?_⟩
  rw [hclean.records_append hr, unacked_append, unacked_append]
  exact congrArg (· ++ _) hw.unacked

theorem Keeps.acknowledge (hw : w.Keeps committed) (upToSeq : UInt64) :
    (w.acknowledge upToSeq).Keeps committed := by
  by_cases hstale : upToSeq ≤ w.lastAckedSeq
  · rwa [Wal.acknowledge, if_pos hstale]
  · rw [Wal.acknowledge, if_neg hstale]
    refine ⟨(loadCheckpoint_checkpointBytes upToSeq).symm, ?_⟩
    have hle : w.lastAckedSeq ≤ upToSeq := (not_le.1 hstale).le
    have hunacked := congrArg (Wal.unacked upToSeq) hw.unacked
    rwa [unacked_unacked hle, unacked_unacked hle] at hunacked

theorem Keeps.compact (hw : w.Keeps committed) : w.compact.Keeps committed := by
  refine ⟨hw.lastAcked, ?_⟩
  rw [records_compact]
  exact (unacked_unacked le_rfl _).trans hw.unacked

theorem Keeps.reopen (hw : w.Keeps committed) : (Wal.open w.disk).Keeps committed := by
  rwa [Wal.open, ← hw.lastAcked]

end Wal

namespace Agent

/-- The start of `main` : open the log, replay it, and take `next_seq` past the acked seq
and every replayed one. -/
def start (d : Disk) (committed : List WalRecord) : Agent :=
  let wal := Wal.open d
  let replayed := wal.replayUnacked
  let maxReplayed := replayed.foldl (fun m r => max m r.seq) wal.lastAckedSeq
  ⟨wal, maxReplayed + 1, committed, replayed⟩

/-- The first lifetime, on files that do not exist yet. -/
def init : Agent :=
  start ⟨[], []⟩ []

/-- One call on the log, or a crash. Payloads are at most `kWalMaxPayloadBytes`, and an
`Append` that is cut short has written a proper prefix of its record. -/
def step (a : Agent) : WalOp → Option Agent
  | .append payload =>
    if payload.length ≤ kWalMaxPayloadBytes then
      some { a with
        wal := a.wal.append ⟨a.nextSeq, payload⟩
        nextSeq := a.nextSeq + 1
        committed := a.committed ++ [⟨a.nextSeq, payload⟩] }
    else none
  | .acknowledge upToSeq => some { a with wal := a.wal.acknowledge upToSeq }
  | .compact => some { a with wal := a.wal.compact }
  | .replayUnacked => some a
  | .crash => some (start a.wal.disk a.committed)
  | .crashInAppend payload k =>
    let record := encodeRecord ⟨a.nextSeq, payload⟩
    if payload.length ≤ kWalMaxPayloadBytes ∧ k < record.length then
      some (start { a.wal.disk with wal := a.wal.disk.wal ++ record.take k } a.committed)
    else none

/-- Every `Append`, whether it returns or is cut short, finds a file that ends where its
last record does, and a `next_seq` that has not wrapped to zero. -/
def AppendsClean (a : Agent) : WalOp → Prop
  | .append _ | .crashInAppend _ _ => a.wal.Clean ∧ a.nextSeq ≠ 0
  | _ => True

instance (a : Agent) : ∀ op, Decidable (a.AppendsClean op)
  | .append _ | .crashInAppend _ _ => inferInstanceAs (Decidable (_ = _ ∧ _ ≠ _))
  | .acknowledge _ | .compact | .replayUnacked | .crash => .isTrue trivial

/-- At every restart along `ops`, `on_record` gets exactly the committed records above
the checkpointed seq, once each and in the order they were appended. -/
def ReplaysCommitted (ops : List WalOp) : Prop :=
  ∀ pre op post b, ops = pre ++ op :: post → op.IsRestart →
    exec step init (pre ++ [op]) = some b →
      b.replayed = Wal.unacked (loadCheckpoint b.wal.disk.checkpoint) b.committed

/-- No seq was given to two committed events. -/
def SeqsDistinct (a : Agent) : Prop :=
  (a.committed.map WalRecord.seq).Nodup

/-! ## The invariant -/

/-- What holds between two calls of a run whose appends are clean. -/
structure Inv (a : Agent) : Prop where
  lastAcked : a.wal.lastAckedSeq = loadCheckpoint a.wal.disk.checkpoint
  unacked : Wal.unacked a.wal.lastAckedSeq a.wal.records =
    Wal.unacked a.wal.lastAckedSeq a.committed
  nodup : a.SeqsDistinct
  below : a.nextSeq ≠ 0 → ∀ r ∈ a.committed, r.seq < a.nextSeq

theorem Inv.keeps {a : Agent} (ha : Inv a) : a.wal.Keeps a.committed :=
  ⟨ha.lastAcked, ha.unacked⟩

theorem le_foldl_max : ∀ (rs : List WalRecord) (n : UInt64),
    n ≤ rs.foldl (fun m r => max m r.seq) n ∧
      ∀ r ∈ rs, r.seq ≤ rs.foldl (fun m r => max m r.seq) n
  | [], n => ⟨le_refl n, by simp⟩
  | r :: rs, n => by
    obtain ⟨h1, h2⟩ := le_foldl_max rs (max n r.seq)
    refine ⟨(le_max_left n r.seq).trans h1, ?_⟩
    rintro s (_ | ⟨_, hs⟩)
    · exact (le_max_right n r.seq).trans h1
    · exact h2 s hs

theorem lt_add_one_of_le {a b : UInt64} (h : a ≤ b) (hb : b + 1 ≠ 0) : a < b + 1 := by
  have hb' : b.toNat + 1 < 2 ^ 64 := by
    by_contra hge
    have hlt := b.toNat_lt
    apply hb
    apply UInt64.toNat_inj.1
    rw [UInt64.toNat_add, UInt64.toNat_one, show b.toNat + 1 = 2 ^ 64 by omega]
    rfl
  rw [UInt64.lt_iff_toNat_lt, toNat_add_one hb']
  exact Nat.lt_succ_of_le (UInt64.le_iff_toNat_le.1 h)

/-- A restart on files whose records above the checkpoint are the committed ones replays
those, and takes `next_seq` past all of them. -/
theorem inv_start {d : Disk} {committed : List WalRecord}
    (h : Wal.unacked (loadCheckpoint d.checkpoint) (walFraming.records d.wal) =
      Wal.unacked (loadCheckpoint d.checkpoint) committed)
    (hnodup : (committed.map WalRecord.seq).Nodup) :
    Inv (start d committed) ∧
      (start d committed).replayed = Wal.unacked (loadCheckpoint d.checkpoint) committed := by
  have hreplayed : (Wal.open d).replayUnacked =
      Wal.unacked (loadCheckpoint d.checkpoint) committed := by
    rw [Wal.replayUnacked_eq]
    exact h
  refine ⟨⟨rfl, h, hnodup, fun hne r hr => ?_⟩, hreplayed⟩
  obtain ⟨hacked, hmax⟩ := le_foldl_max (Wal.open d).replayUnacked (loadCheckpoint d.checkpoint)
  refine lt_add_one_of_le ?_ hne
  rcases lt_or_ge (loadCheckpoint d.checkpoint) r.seq with hlt | hge
  · refine hmax r ?_
    rw [hreplayed]
    exact List.mem_filter.2 ⟨hr, by simpa using hlt⟩
  · exact hge.trans hacked

theorem inv_init : Inv init :=
  (@inv_start ⟨[], []⟩ [] rfl List.nodup_nil).1

/-- A restart step replays the committed records above the checkpoint. -/
theorem inv_restart {a b : Agent} {op : WalOp} (ha : Inv a) (hok : a.AppendsClean op)
    (hop : op.IsRestart) (h : step a op = some b) : Inv b ∧
      b.replayed = Wal.unacked (loadCheckpoint b.wal.disk.checkpoint) b.committed := by
  have hunacked := ha.keeps.reopen.unacked
  cases op with
  | crash =>
    cases h
    exact inv_start hunacked ha.nodup
  | crashInAppend payload k =>
    simp only [step] at h
    split_ifs at h with hk
    cases h
    refine inv_start ?_ ha.nodup
    rw [hok.1.records_torn hk.1 hk.2]
    exact hunacked
  | append | acknowledge | compact | replayUnacked => exact hop.elim

/-- A clean step keeps the invariant. -/
theorem inv_step {a b : Agent} {op : WalOp} (ha : Inv a) (hok : a.AppendsClean op)
    (h : step a op = some b) : Inv b := by
  cases op with
  | append payload =>
    obtain ⟨hclean, hne⟩ := hok
    simp only [step] at h
    split_ifs at h with hlen
    cases h
    have hbelow := ha.below hne
    obtain ⟨hlast, hunacked⟩ := ha.keeps.append hclean (r := ⟨a.nextSeq, payload⟩) hlen
    refine ⟨hlast, hunacked, ?_, fun hne' r hr => ?_⟩
    · rw [SeqsDistinct, List.map_append, List.nodup_append']
      refine ⟨ha.nodup, List.nodup_singleton _, ?_⟩
      rintro s hs hs'
      obtain ⟨r, hr, rfl⟩ := List.mem_map.1 hs
      exact (hbelow r hr).ne (List.mem_singleton.1 hs')
    · refine lt_add_one_of_le ?_ hne'
      rcases List.mem_append.1 hr with hr | hr
      · exact (hbelow r hr).le
      · rw [List.mem_singleton.1 hr]
  | acknowledge upToSeq =>
    cases h
    obtain ⟨hlast, hunacked⟩ := ha.keeps.acknowledge upToSeq
    exact ⟨hlast, hunacked, ha.nodup, ha.below⟩
  | compact =>
    cases h
    obtain ⟨hlast, hunacked⟩ := ha.keeps.compact
    exact ⟨hlast, hunacked, ha.nodup, ha.below⟩
  | replayUnacked =>
    cases h
    exact ha
  | crash | crashInAppend => exact (inv_restart ha hok trivial h).1

theorem inv_of_run {ops : List WalOp} {a : Agent} (hok : Guarded step AppendsClean init ops)
    (h : exec step init ops = some a) : Inv a :=
  exec_invariant_guarded (fun _ _ _ ha hop hs => inv_step ha hop hs) inv_init hok h

/-! ## Durability -/

/-- Over every run whose appends find a clean file and an unwrapped `next_seq`, every
restart replays exactly the committed records above the checkpoint, in append order, and
no seq is given to two committed events. -/
theorem restart_replays_committed {ops : List WalOp} {a : Agent}
    (hok : Guarded step AppendsClean init ops) (h : exec step init ops = some a) :
    ReplaysCommitted ops ∧ a.SeqsDistinct := by
  refine ⟨?_, (inv_of_run hok h).nodup⟩
  rintro pre op post b rfl hop hb
  obtain ⟨a', ha', hb⟩ := exec_snoc_iff.1 hb
  have hok' : Guarded step AppendsClean init (pre ++ [op]) := by
    rw [List.append_cons] at hok
    exact hok.of_append
  exact (inv_restart (inv_of_run hok'.of_append ha') (hok'.of_snoc ha') hop hb).2

/-- A run with two lifetimes, a torn record that `Compact` drops, and acks. -/
def compactedRun : List WalOp :=
  [.append (ascii "a"), .append (ascii "b"), .crashInAppend (ascii "c") 5, .acknowledge 1,
    .compact, .append (ascii "d"), .crash]

theorem restart_replays_committed_compactedRun : ∃ a, exec step init compactedRun = some a ∧
    a.replayed.map WalRecord.seq = [2, 3] ∧ ReplaysCommitted compactedRun ∧ a.SeqsDistinct := by
  obtain ⟨a, ha, hseqs⟩ : ∃ a, exec step init compactedRun = some a ∧
      a.replayed.map WalRecord.seq = [2, 3] := exists_exec_of_any (by decide +kernel)
  exact ⟨a, ha, hseqs, restart_replays_committed (by decide +kernel) ha⟩

/-- Seq 1 is committed, the next `Append` is cut after its first byte, and the lifetime
after that commits seq 2 behind this byte. -/
def tornRun : List WalOp :=
  [.append (ascii "a"), .crashInAppend (ascii "b") 1, .append (ascii "c"), .crash]

/-- Seq 2 is committed and above the checkpoint, and the restart does not replay it. -/
theorem torn_tail_hides_append : ¬ ReplaysCommitted tornRun := by
  intro hrep
  obtain ⟨b, hb, hlost⟩ : ∃ b, exec step init tornRun = some b ∧
      b.replayed ≠ Wal.unacked (loadCheckpoint b.wal.disk.checkpoint) b.committed :=
    exists_exec_of_any (by decide +kernel)
  exact hlost (hrep (tornRun.take 3) .crash [] b rfl trivial hb)

end Agent

end Ridgeline
