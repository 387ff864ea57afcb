import Ridgeline.WalLifetimes

/-!
# A lost checkpoint

The checkpoint file may be removed, or hold something that is not 8 bytes. The agent then starts
as if nothing had been acked : it replays everything that is still in the log, and takes
`next_seq` past what it has replayed.

Over the runs in which no `Append` is cut short, that is no less than the events that are not
acked (`Whole.sublist_replayed`). It is past every seq that was given only if none of them is
beyond the log (`checkpoint_loss_iff`) : `Compact` drops the acked events, and with the checkpoint
nothing else remembers their seqs.
-/

namespace Ridgeline

/-- No `Append` is cut short. The agent may restart between two calls. -/
def WalOp.NotTorn : WalOp → Prop
  | crashInAppend _ _ => False
  | _ => True

instance : ∀ op : WalOp, Decidable op.NotTorn
  | .crashInAppend _ _ => .isFalse id
  | .append _ | .acknowledge _ | .compact | .replayUnacked | .crash => .isTrue trivial

theorem Wal.unacked_sublist {n m : UInt64} (h : n ≤ m) (rs : List WalRecord) :
    (unacked m rs).Sublist (unacked n rs) := by
  rw [← unacked_unacked h]
  exact List.filter_sublist

namespace Agent

/-- The agent starts again, and finds `data` in the place of its checkpoint. A file that was
removed reads as empty. -/
def restartWith (a : Agent) (data : Bytes) : Agent :=
  start { a.wal.disk with checkpoint := data } a.committed

/-- The restart replays the unacked events, in order and with others perhaps, and no seq will be
given again. -/
structure LossHarmless (a : Agent) (data : Bytes) : Prop where
  replayed : (Wal.unacked a.wal.lastAckedSeq a.committed).Sublist (a.restartWith data).replayed
  nextSeq : ∀ r ∈ a.committed, r.seq < (a.restartWith data).nextSeq

/-- No committed event is beyond the log, nor has the largest seq. Seq 0 is given only when
`next_seq` has wrapped, and is below any other. -/
def LogReachesCommitted (a : Agent) : Prop :=
  ∀ r ∈ a.committed, r.seq ≠ 0 → r.seq + 1 ≠ 0 ∧ ∃ q ∈ a.wal.records, r.seq ≤ q.seq

instance (a : Agent) : Decidable a.LogReachesCommitted :=
  inferInstanceAs (Decidable (∀ r ∈ a.committed, _ → _ ∧ ∃ q ∈ a.wal.records, _))

/-! ## The invariant -/

/-- The log holds the unacked events, and nothing else but committed ones. -/
structure Whole (a : Agent) : Prop where
  clean : a.wal.Clean
  keeps : a.wal.Keeps a.committed
  logged : a.wal.records ⊆ a.committed

theorem whole_step {a b : Agent} {op : WalOp} (ha : Whole a) (hop : op.NotTorn)
    (h : step a op = some b) : Whole b := by
  cases op with
  | append payload =>
    simp only [step] at h
    split_ifs at h with hlen
    cases h
    refine ⟨ha.clean.append hlen, ha.keeps.append ha.clean hlen, ?_⟩
    show (a.wal.append ⟨a.nextSeq, payload⟩).records ⊆ _
    rw [ha.clean.records_append hlen]
    exact List.append_subset.2 ⟨fun r hr => List.mem_append_left _ (ha.logged hr),
      List.subset_append_right _ _⟩
  | acknowledge upToSeq =>
    cases h
    have hdisk : (a.wal.acknowledge upToSeq).disk.wal = a.wal.disk.wal := by
      rw [Wal.acknowledge]
      split_ifs <;> rfl
    refine ⟨?_, ha.keeps.acknowledge upToSeq, ?_⟩
    · show walFraming.tail (a.wal.acknowledge upToSeq).disk.wal = []
      rw [hdisk]
      exact ha.clean
    · show walFraming.records (a.wal.acknowledge upToSeq).disk.wal ⊆ _
      rw [hdisk]
      exact ha.logged
  | compact =>
    cases h
    refine ⟨a.wal.clean_compact, ha.keeps.compact, ?_⟩
    show a.wal.compact.records ⊆ _
    rw [Wal.records_compact]
    exact fun r hr => ha.logged (List.mem_of_mem_filter hr)
  | replayUnacked =>
    cases h
    exact ha
  | crash =>
    cases h
    exact ⟨ha.clean, ha.keeps.reopen, ha.logged⟩
  | crashInAppend => exact hop.elim

theorem whole_of_exec {ops : List WalOp} {a : Agent} (hops : ∀ op ∈ ops, op.NotTorn)
    (h : exec step init ops = some a) : Whole a := by
  have hinit : Whole init := ⟨by decide, ⟨by decide, by decide⟩, by decide⟩
  exact exec_invariant_guarded (fun _ _ _ ha hop hstep => whole_step ha hop hstep) hinit
    (.of_forall fun _ => hops) h

/-! ## The restart -/

variable {a : Agent} {data : Bytes}

/-- Without a checkpoint, everything in the log is replayed. -/
theorem replayed_restartWith (hdata : data.length ≠ 8) :
    (a.restartWith data).replayed = Wal.unacked 0 a.wal.records := by
  have hzero : loadCheckpoint data = 0 := if_neg hdata
  show (Wal.open { a.wal.disk with checkpoint := data }).replayUnacked = _
  rw [Wal.replayUnacked_eq]
  show Wal.unacked (loadCheckpoint data) a.wal.records = _
  rw [hzero]

theorem Whole.sublist_replayed (ha : Whole a) (hdata : data.length ≠ 8) :
    (Wal.unacked a.wal.lastAckedSeq a.committed).Sublist (a.restartWith data).replayed := by
  rw [← ha.keeps.unacked, replayed_restartWith hdata]
  exact Wal.unacked_sublist UInt64.zero_le _

/-- The largest seq of a list is that of one of its records, or the seq it is compared with. -/
theorem foldl_max_eq : ∀ (rs : List WalRecord) (n : UInt64),
    rs.foldl (fun m r => max m r.seq) n = n ∨
      ∃ r ∈ rs, rs.foldl (fun m r => max m r.seq) n = r.seq
  | [], n => .inl rfl
  | r :: rs, n => by
    rw [List.foldl_cons]
    rcases foldl_max_eq rs (max n r.seq) with h | ⟨q, hq, h⟩
    · rcases max_choice n r.seq with hmax | hmax
      · exact .inl (h.trans hmax)
      · exact .inr ⟨r, List.mem_cons_self, h.trans hmax⟩
    · exact .inr ⟨q, List.mem_cons_of_mem _ hq, h⟩

theorem nextSeq_restartWith (hdata : data.length ≠ 8) : (a.restartWith data).nextSeq =
    (Wal.unacked 0 a.wal.records).foldl (fun m r => max m r.seq) 0 + 1 := by
  have hzero : loadCheckpoint data = 0 := if_neg hdata
  rw [← replayed_restartWith hdata, ← hzero]
  rfl

theorem le_of_lt_add_one {m n : UInt64} (h : m < n + 1) : m ≤ n ∧ m + 1 ≠ 0 := by
  have hlt := UInt64.lt_iff_toNat_lt.1 h
  have hn := (n + 1).toNat_lt
  have hle : (n + 1).toNat ≤ n.toNat + 1 := by
    rw [UInt64.toNat_add, UInt64.toNat_one]
    exact Nat.mod_le _ _
  refine ⟨UInt64.le_iff_toNat_le.2 (by omega), fun hzero => ?_⟩
  have hone := toNat_add_one (a := m) (by omega)
  rw [hzero, UInt64.toNat_zero] at hone
  omega

theorem Whole.nextSeq_iff (ha : Whole a) (hdata : data.length ≠ 8) :
    (∀ r ∈ a.committed, r.seq < (a.restartWith data).nextSeq) ↔ a.LogReachesCommitted := by
  rw [nextSeq_restartWith hdata]
  have hin : ∀ r ∈ a.wal.records, r.seq ≤
      (Wal.unacked 0 a.wal.records).foldl (fun m r => max m r.seq) 0 := by
    intro r hr
    by_cases hpos : 0 < r.seq
    · exact (le_foldl_max _ _).2 r (List.mem_filter.2 ⟨hr, by simpa using hpos⟩)
    · exact (not_lt.1 hpos).trans UInt64.zero_le
  have htop := foldl_max_eq (Wal.unacked 0 a.wal.records) 0
  generalize (Wal.unacked 0 a.wal.records).foldl (fun m r => max m r.seq) 0 = top at hin htop ⊢
  constructor
  · intro hbelow r hr hne
    obtain ⟨hle, hsucc⟩ := le_of_lt_add_one (hbelow r hr)
    rcases htop with rfl | ⟨q, hq, rfl⟩
    · exact absurd (le_antisymm hle UInt64.zero_le) hne
    · exact ⟨hsucc, q, List.mem_of_mem_filter hq, hle⟩
  · intro hreach r hr
    -- the largest seq in the log is that of a committed event, so it is not the largest number
    have hsucc : top + 1 ≠ 0 := by
      rcases htop with rfl | ⟨q, hq, rfl⟩
      · decide
      · obtain ⟨hmem, hpos⟩ := List.mem_filter.1 hq
        have hpos : 0 < q.seq := of_decide_eq_true hpos
        exact (hreach q (ha.logged hmem) hpos.ne').1
    refine lt_add_one_of_le ?_ hsucc
    by_cases hzero : r.seq = 0
    · exact hzero ▸ UInt64.zero_le
    · obtain ⟨q, hq, hle⟩ := (hreach r hr hzero).2
      exact hle.trans (hin q hq)

/-- In every state that the agent reaches without an `Append` that is cut short, the loss of the
checkpoint is harmless exactly when the log still reaches every committed event. -/
theorem checkpoint_loss_iff {ops : List WalOp} (hops : ∀ op ∈ ops, op.NotTorn)
    (h : exec step init ops = some a) (hdata : data.length ≠ 8) :
    a.LossHarmless data ↔ a.LogReachesCommitted := by
  have ha := whole_of_exec hops h
  refine ⟨fun hloss => (ha.nextSeq_iff hdata).1 hloss.nextSeq, fun hreach => ?_⟩
  exact ⟨ha.sublist_replayed hdata, (ha.nextSeq_iff hdata).2 hreach⟩

/-- Two events, of which the first is acked and dropped. -/
def firstDroppedRun : List WalOp :=
  [.append (ascii "a"), .append (ascii "b"), .acknowledge 1, .compact]

theorem checkpoint_loss_iff_firstDroppedRun : ∃ a, exec step init firstDroppedRun = some a ∧
    a.committed.length = 2 ∧ a.LossHarmless [] := by
  obtain ⟨a, ha, hlen, hreach⟩ : ∃ a, exec step init firstDroppedRun = some a ∧
      a.committed.length = 2 ∧ a.LogReachesCommitted := exists_exec_of_any (by decide +kernel)
  exact ⟨a, ha, hlen, (checkpoint_loss_iff (by decide) ha (by decide)).2 hreach⟩

/-- One event, acked and dropped. -/
def allDroppedRun : List WalOp :=
  [.append (ascii "a"), .acknowledge 1, .compact]

/-- The checkpoint is removed, the agent starts, and its first event gets seq 1 again. -/
theorem checkpoint_loss_reuses_seq : ∃ a, exec step init allDroppedRun = some a ∧
    (∀ op ∈ allDroppedRun, op.NotTorn) ∧ ¬ a.LossHarmless [] ∧
      ∃ b, exec step (a.restartWith []) [.append (ascii "b")] = some b ∧ ¬ b.SeqsDistinct := by
  obtain ⟨a, ha, ⟨r, hr, hgiven⟩, hreused⟩ : ∃ a, exec step init allDroppedRun = some a ∧
      (∃ r ∈ a.committed, ¬ r.seq < (a.restartWith []).nextSeq) ∧
        (exec step (a.restartWith []) [.append (ascii "b")]).any
          fun b => ¬ (b.committed.map WalRecord.seq).Nodup := exists_exec_of_any (by decide +kernel)
  refine ⟨a, ha, by decide, fun hloss => hgiven (hloss.nextSeq r hr), ?_⟩
  obtain ⟨b, hb, hdup⟩ := exists_exec_of_any hreused
  exact ⟨b, hb, hdup⟩

end Agent

end Ridgeline
