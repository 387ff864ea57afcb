import Ridgeline.WalLifetimes

/-!
# How large the log becomes

`Append` is the only call that makes the log file longer, and `Acknowledge` does not make it
shorter. The send loop of the agent compacts it when it is more than 1 MiB longer than it was
after the last compaction of this process (`check`). So the file is never longer than the
records that were not acked at some earlier moment, 1 MiB, and what was written since the last
check (`fileSize_le`). The earlier moment is the last compaction : a backlog that has been acked
since still counts. Since the compaction before it, or the first start, each compaction is matched
by more than 1 MiB of new records, or by a crash (`compactions_le`).

As in `Ridgeline.WalLifetimes`, no `Append` overlaps a `Compact`. Nor does anything else run inside
a check : `FileSizeBytes`, `Compact` and the second `FileSizeBytes`, whose result is kept, are one
step. In the agent the producer may append between the last two, and what it appends is then
counted as compacted.
-/

namespace Ridgeline

/-- `Wal::FileSizeBytes`. -/
def Wal.fileSizeBytes (w : Wal) : ℕ :=
  w.disk.wal.length

/-- The length of the records that are not acked. -/
def Agent.backlog (a : Agent) : ℕ :=
  ((Wal.unacked a.wal.lastAckedSeq a.committed).map fun r => (encodeRecord r).length).sum

/-- The agent's log, `bytes_since_compact` of the process, and how often `Compact` was called. -/
structure WalGrowth where
  agent : Agent
  bytesSinceCompact : ℕ := 0
  compactions : ℕ := 0
  deriving DecidableEq, Repr

/-- A call of the producer or the reader on the log, the check at the end of a pass of the send
loop, as a whole, or a crash with the next start. -/
inductive GrowthAct
  | append (payload : Bytes)
  | acknowledge (upToSeq : UInt64)
  | check
  | crash
  | crashInAppend (payload : Bytes) (k : ℕ)
  deriving DecidableEq, Repr

namespace GrowthAct

/-- The bytes that a step writes to the end of the log. -/
def written : GrowthAct → ℕ
  | append payload => kWalRecordHeaderBytes + payload.length
  | crashInAppend _ k => k
  | _ => 0

/-- The bytes written since the last check. -/
def unchecked (as : List GrowthAct) : ℕ :=
  as.foldl (fun n a => if a = .check then 0 else n + a.written) 0

theorem unchecked_snoc (as : List GrowthAct) (a : GrowthAct) :
    unchecked (as ++ [a]) = if a = .check then 0 else unchecked as + a.written :=
  List.foldl_append

/-- A crash ends the process. -/
def isCrash : GrowthAct → Bool
  | crash | crashInAppend _ _ => true
  | _ => false

end GrowthAct

/-- The growth that is let pass : `1u << 20`. -/
def kCompactSlackBytes : ℕ := 2 ^ 20

namespace WalGrowth

/-- The first lifetime. -/
def init : WalGrowth :=
  { agent := .init }

/-- One step. A check is a single one, so nothing runs inside it. -/
def step (s : WalGrowth) : GrowthAct → Option WalGrowth
  | .append payload => (s.agent.step (.append payload)).map fun agent => { s with agent }
  | .acknowledge n => (s.agent.step (.acknowledge n)).map fun agent => { s with agent }
  | .check =>
    if s.agent.wal.fileSizeBytes > s.bytesSinceCompact + kCompactSlackBytes then
      (s.agent.step .compact).map fun agent =>
        ⟨agent, agent.wal.fileSizeBytes, s.compactions + 1⟩
    else some s
  | .crash =>
    (s.agent.step .crash).map fun agent => { s with agent, bytesSinceCompact := 0 }
  | .crashInAppend payload k =>
    (s.agent.step (.crashInAppend payload k)).map fun agent =>
      { s with agent, bytesSinceCompact := 0 }

/-- Every `Append` finds a clean file and a `next_seq` that has not wrapped, as in
`Agent.AppendsClean`. -/
def AppendsClean (s : WalGrowth) : GrowthAct → Prop
  | .append payload => s.agent.AppendsClean (.append payload)
  | .crashInAppend payload k => s.agent.AppendsClean (.crashInAppend payload k)
  | _ => True

variable {s t : WalGrowth} {a : GrowthAct}

/-! ## The size of the file -/

theorem fileSizeBytes_append {a b : Agent} {payload : Bytes}
    (h : a.step (.append payload) = some b) :
    b.wal.fileSizeBytes = a.wal.fileSizeBytes + (kWalRecordHeaderBytes + payload.length) := by
  obtain ⟨-, h⟩ := Option.ite_none_right_eq_some.1 h
  cases h
  simp [Wal.fileSizeBytes, Wal.append]

theorem fileSizeBytes_acknowledge (w : Wal) (n : UInt64) :
    (w.acknowledge n).fileSizeBytes = w.fileSizeBytes := by
  unfold Wal.acknowledge
  split_ifs <;> rfl

theorem fileSizeBytes_crashInAppend {a b : Agent} {payload : Bytes} {k : ℕ}
    (h : a.step (.crashInAppend payload k) = some b) :
    b.wal.fileSizeBytes = a.wal.fileSizeBytes + k := by
  obtain ⟨hk, h⟩ := Option.ite_none_right_eq_some.1 h
  cases h
  simpa [Wal.fileSizeBytes, Agent.start, Wal.open] using hk.2.le

/-- A compaction leaves the backlog. -/
theorem fileSizeBytes_compact {a : Agent} (ha : a.Inv) :
    a.wal.compact.fileSizeBytes = a.backlog := by
  rw [Wal.fileSizeBytes, Wal.compact_wal, ha.unacked, Framing.encodeAll, List.length_flatMap]
  rfl

/-- What a step does to the file and to `bytes_since_compact`. -/
inductive Grows (s t : WalGrowth) : GrowthAct → Prop
  | compacts (large : s.agent.wal.fileSizeBytes > s.bytesSinceCompact + kCompactSlackBytes)
      (agent : t.agent = { s.agent with wal := s.agent.wal.compact })
      (size : t.bytesSinceCompact = t.agent.wal.fileSizeBytes)
      (count : t.compactions = s.compactions + 1) : Grows s t .check
  | passes (small : s.agent.wal.fileSizeBytes ≤ s.bytesSinceCompact + kCompactSlackBytes)
      (same : t = s) : Grows s t .check
  | writes (a : GrowthAct) (hcheck : a ≠ .check) (hcrash : a.isCrash = false)
      (size : t.agent.wal.fileSizeBytes = s.agent.wal.fileSizeBytes + a.written)
      (same : t.bytesSinceCompact = s.bytesSinceCompact)
      (count : t.compactions = s.compactions) : Grows s t a
  | crashes (a : GrowthAct) (hcheck : a ≠ .check) (hcrash : a.isCrash = true)
      (size : t.agent.wal.fileSizeBytes = s.agent.wal.fileSizeBytes + a.written)
      (reset : t.bytesSinceCompact = 0) (count : t.compactions = s.compactions) : Grows s t a

theorem grows (h : s.step a = some t) : Grows s t a := by
  cases a with
  | append payload =>
    obtain ⟨agent, hagent, rfl⟩ := Option.map_eq_some_iff.1 h
    exact .writes _ (by simp) rfl (fileSizeBytes_append hagent) rfl rfl
  | acknowledge n =>
    simp only [step] at h
    obtain ⟨agent, hagent, rfl⟩ := Option.map_eq_some_iff.1 h
    cases hagent
    exact .writes _ (by simp) rfl (fileSizeBytes_acknowledge _ _) rfl rfl
  | check =>
    simp only [step] at h
    split_ifs at h with hlarge
    · obtain ⟨agent, hagent, rfl⟩ := Option.map_eq_some_iff.1 h
      cases hagent
      exact .compacts hlarge rfl rfl rfl
    · cases h
      exact .passes (not_lt.1 hlarge) rfl
  | crash =>
    simp only [step] at h
    obtain ⟨agent, hagent, rfl⟩ := Option.map_eq_some_iff.1 h
    cases hagent
    exact .crashes _ (by simp) rfl rfl rfl rfl
  | crashInAppend payload k =>
    obtain ⟨agent, hagent, rfl⟩ := Option.map_eq_some_iff.1 h
    exact .crashes _ (by simp) rfl (fileSizeBytes_crashInAppend hagent) rfl rfl

/-! ## The bounds -/

theorem inv_step (hs : s.agent.Inv) (hok : s.AppendsClean a) (h : s.step a = some t) :
    t.agent.Inv := by
  cases a with
  | check =>
    simp only [step] at h
    split_ifs at h
    · obtain ⟨agent, hagent, rfl⟩ := Option.map_eq_some_iff.1 h
      refine Agent.inv_step hs ?_ hagent
      trivial
    · cases h
      exact hs
  | append | crashInAppend =>
    obtain ⟨agent, hagent, rfl⟩ := Option.map_eq_some_iff.1 h
    refine Agent.inv_step hs ?_ hagent
    exact hok
  | acknowledge | crash =>
    simp only [step] at h
    obtain ⟨agent, hagent, rfl⟩ := Option.map_eq_some_iff.1 h
    refine Agent.inv_step hs ?_ hagent
    trivial

/-- At some moment of the run the backlog was at least `n`. -/
def HadBacklog (as : List GrowthAct) (n : ℕ) : Prop :=
  ∃ pre u, pre <+: as ∧ exec step init pre = some u ∧ n ≤ u.agent.backlog

theorem HadBacklog.mono {as bs : List GrowthAct} {n m : ℕ} (h : HadBacklog as n) (hle : m ≤ n)
    (hpre : as <+: bs) : HadBacklog bs m := by
  obtain ⟨pre, u, hu, hrun, hn⟩ := h
  exact ⟨pre, u, hu.trans hpre, hrun, hle.trans hn⟩

/-- What a run keeps : both `bytes_since_compact` and the file are within a backlog there has
been. -/
structure Bounded (as : List GrowthAct) (s : WalGrowth) : Prop where
  inv : s.agent.Inv
  since : HadBacklog as s.bytesSinceCompact
  size : ∃ n, HadBacklog as n ∧
    s.agent.wal.fileSizeBytes ≤ n + kCompactSlackBytes + GrowthAct.unchecked as

theorem Bounded.snoc {as : List GrowthAct} (hrun : exec step init as = some s)
    (hs : Bounded as s) (hok : s.AppendsClean a) (h : s.step a = some t) :
    Bounded (as ++ [a]) t := by
  have hpre : as <+: as ++ [a] := List.prefix_append _ _
  obtain ⟨n, hn, hsize⟩ := hs.size
  have hinv := inv_step hs.inv hok h
  cases grows h with
  | compacts _ hagent hsince _ =>
    -- What is left is the backlog of the state before.
    have hbacklog : t.agent.wal.fileSizeBytes = s.agent.backlog := by
      rw [hagent]
      exact fileSizeBytes_compact hs.inv
    have hhad : HadBacklog (as ++ [.check]) t.agent.wal.fileSizeBytes :=
      ⟨as, s, hpre, hrun, hbacklog.le⟩
    exact ⟨hinv, hsince ▸ hhad, _, hhad, by omega⟩
  | passes hsmall hsame =>
    subst hsame
    exact ⟨hinv, hs.since.mono le_rfl hpre, _, hs.since.mono le_rfl hpre, by omega⟩
  | writes _ hcheck _ hwritten hsame _ =>
    refine ⟨hinv, hsame ▸ hs.since.mono le_rfl hpre, n, hn.mono le_rfl hpre, ?_⟩
    rw [GrowthAct.unchecked_snoc, if_neg hcheck]
    omega
  | crashes _ hcheck _ hwritten hreset _ =>
    refine ⟨hinv, hs.since.mono (hreset ▸ Nat.zero_le _) hpre, n, hn.mono le_rfl hpre, ?_⟩
    rw [GrowthAct.unchecked_snoc, if_neg hcheck]
    omega

/-- Over every run with crashes, whose appends are clean, the log file is never longer than the
records that were not acked at some moment of the run, 1 MiB, and what was written since the
last check. -/
theorem fileSize_le {as : List GrowthAct} (hok : Guarded step AppendsClean init as)
    (h : exec step init as = some s) : ∃ pre u, pre <+: as ∧ exec step init pre = some u ∧
      s.agent.wal.fileSizeBytes ≤
        u.agent.backlog + kCompactSlackBytes + GrowthAct.unchecked as := by
  have hstart : Bounded [] init :=
    have hzero : HadBacklog [] 0 := ⟨[], init, List.prefix_rfl, rfl, Nat.zero_le _⟩
    ⟨Agent.inv_init, hzero, 0, hzero, Nat.zero_le _⟩
  obtain ⟨n, ⟨pre, u, hpre, hu, hn⟩, hsize⟩ :=
    (exec_history hstart (fun _ _ _ _ => Bounded.snoc) hok h).size
  exact ⟨pre, u, hpre, hu, by omega⟩

/-- The growth since the last compaction, up to what a compaction takes. -/
def credit (s : WalGrowth) : ℕ :=
  min (s.agent.wal.fileSizeBytes - s.bytesSinceCompact) (kCompactSlackBytes + 1)

/-- What a step pays in : the bytes it writes, and for a crash, which forgets
`bytes_since_compact`, a compaction. -/
def payment (a : GrowthAct) : ℕ :=
  a.written + if a.isCrash then kCompactSlackBytes + 1 else 0

theorem sum_payment (as : List GrowthAct) : (as.map payment).sum =
    (as.map GrowthAct.written).sum +
      as.countP GrowthAct.isCrash * (kCompactSlackBytes + 1) := by
  induction as with
  | nil => rfl
  | cons a as ih =>
    simp only [List.map_cons, List.sum_cons, List.countP_cons, ih, payment]
    split_ifs <;> ring

/-- The check compacts the log. -/
def Compacts (s t : WalGrowth) : Prop :=
  s.step .check = some t ∧ t.compactions = s.compactions + 1

theorem Compacts.credit (h : Compacts s t) :
    s.credit = kCompactSlackBytes + 1 ∧ t.credit = 0 := by
  obtain ⟨hstep, hcount⟩ := h
  unfold WalGrowth.credit
  cases grows hstep with
  | compacts hlarge _ hsince _ => omega
  | passes _ hsame =>
    subst hsame
    omega
  | writes _ hcheck => exact absurd rfl hcheck
  | crashes _ hcheck => exact absurd rfl hcheck

/-- A compaction takes the credit, and everything else pays for what it adds. -/
theorem credit_step (h : s.step a = some t) :
    t.compactions * (kCompactSlackBytes + 1) + t.credit ≤
      s.compactions * (kCompactSlackBytes + 1) + s.credit + payment a := by
  unfold credit payment
  cases grows h with
  | compacts hlarge _ hsince hcount =>
    have hfull : min (s.agent.wal.fileSizeBytes - s.bytesSinceCompact) (kCompactSlackBytes + 1) =
        kCompactSlackBytes + 1 := by omega
    rw [hsince, hcount, hfull, Nat.sub_self, Nat.zero_min, Nat.succ_mul]
    omega
  | passes _ hsame =>
    subst hsame
    omega
  | writes _ _ hcrash hwritten hsame hcount =>
    rw [hwritten, hsame, hcount]
    omega
  | crashes _ _ hcrash hwritten hreset hcount =>
    rw [hwritten, hreset, hcount, if_pos hcrash]
    omega

theorem credit_le (h : s.step a = some t) : t.credit ≤ s.credit + payment a := by
  have hle := credit_step h
  have hmono : s.compactions * (kCompactSlackBytes + 1) ≤
      t.compactions * (kCompactSlackBytes + 1) := by
    refine Nat.mul_le_mul_right _ ?_
    cases grows h with
    | compacts _ _ _ hcount => omega
    | passes _ hsame => exact hsame ▸ le_rfl
    | writes _ _ _ _ _ hcount | crashes _ _ _ _ _ hcount => exact hcount.ge
  omega

/-- Since the last compaction, or the first start, more than 1 MiB was written or the process
crashed, if the check compacts again. -/
theorem written_of_compacts {r : WalGrowth} {mid : List GrowthAct} (hr : r.credit = 0)
    (h : exec step r mid = some s) (hcompacts : Compacts s t) :
    (∃ a ∈ mid, a.isCrash = true) ∨ kCompactSlackBytes < (mid.map GrowthAct.written).sum := by
  have hle := exec_le_sum (fun _ _ _ h => credit_le h) h
  rw [hr, hcompacts.credit.1, sum_payment] at hle
  rcases Nat.eq_zero_or_pos (mid.countP GrowthAct.isCrash) with hnone | hsome
  · rw [hnone] at hle
    exact .inr (by omega)
  · exact .inl (List.countP_pos_iff.1 hsome)

/-- Over every run, between a compaction and the one before it, or the first start, more than
1 MiB of records were written, or the process crashed. So in total there are no more compactions
than the bytes written and the crashes pay for. -/
theorem compactions_le {as : List GrowthAct} (h : exec step init as = some s) :
    (∀ pre mid post r t u, as = pre ++ mid ++ .check :: post → exec step init pre = some r →
      (pre = [] ∨ ∃ q, Compacts q r) → exec step r mid = some t → Compacts t u →
        (∃ a ∈ mid, a.isCrash = true) ∨ kCompactSlackBytes < (mid.map GrowthAct.written).sum) ∧
    s.compactions * (kCompactSlackBytes + 1) ≤
      (as.map GrowthAct.written).sum +
        as.countP GrowthAct.isCrash * (kCompactSlackBytes + 1) := by
  have hcredit : init.credit = 0 := by decide
  refine ⟨fun pre mid post r t u _ hpre hlast hmid hcompacts => ?_, ?_⟩
  · refine written_of_compacts ?_ hmid hcompacts
    rcases hlast with rfl | ⟨q, hq⟩
    · cases hpre
      exact hcredit
    · exact hq.credit.2
  have hle : s.compactions * (kCompactSlackBytes + 1) + s.credit ≤
      init.compactions * (kCompactSlackBytes + 1) + init.credit + (as.map payment).sum :=
    exec_le_sum (fun _ _ _ h => credit_step h) h
  have hzero : init.compactions * (kCompactSlackBytes + 1) + init.credit = 0 := by decide
  rw [sum_payment, hzero] at hle
  omega

/-! ## A compaction -/

/-- A record is appended and acked, and the check comes. -/
def appendAckCheck (payload : Bytes) : List GrowthAct :=
  [.append payload, .acknowledge 1, .check]

theorem guarded_appendAckCheck (payload : Bytes) :
    Guarded step AppendsClean init (appendAckCheck payload) := by
  have hclean : init.AppendsClean (.append payload) :=
    show init.agent.wal.Clean ∧ init.agent.nextSeq ≠ 0 by decide
  exact ⟨hclean, fun _ _ => ⟨trivial, fun _ _ => ⟨trivial, fun _ _ => trivial⟩⟩⟩

/-- With a payload of 1 MiB the file is too long, and nothing of it is left. -/
theorem exec_appendAckCheck {payload : Bytes} (hlen : payload.length = 2 ^ 20) :
    ∃ r s, exec step init [.append payload, .acknowledge 1] = some r ∧ Compacts r s ∧
      s.compactions = 1 ∧ s.agent.wal.fileSizeBytes = 0 := by
  have hmax : payload.length ≤ kWalMaxPayloadBytes := by
    rw [hlen]
    decide
  have hseq : Agent.init.nextSeq = 1 := by decide
  have hacked : Agent.init.wal.lastAckedSeq = 0 := by decide
  let a : Agent :=
    { Agent.init with
      wal := Agent.init.wal.append ⟨Agent.init.nextSeq, payload⟩
      nextSeq := Agent.init.nextSeq + 1
      committed := Agent.init.committed ++ [⟨Agent.init.nextSeq, payload⟩] }
  let b : Agent := { a with wal := a.wal.acknowledge 1 }
  have happend : init.step (.append payload) = some { init with agent := a } := by
    simp only [step, Agent.step, init, if_pos hmax, Option.map_some, a]
  have hack : ({ init with agent := a } : WalGrowth).step (.acknowledge 1) =
      some { init with agent := b } := by
    simp only [step, Agent.step, Option.map_some, b]
  have hsize : b.wal.fileSizeBytes = kWalRecordHeaderBytes + 2 ^ 20 := by
    rw [fileSizeBytes_acknowledge]
    simp [Wal.fileSizeBytes, Wal.append, hlen, Agent.init, Agent.start, Wal.open, a]
  have hcheck : ({ init with agent := b } : WalGrowth).step .check =
      some ⟨{ b with wal := b.wal.compact }, b.wal.compact.fileSizeBytes, 1⟩ := by
    have hlarge : b.wal.fileSizeBytes > init.bytesSinceCompact + kCompactSlackBytes := by
      rw [hsize]
      decide
    simp only [step, if_pos hlarge, Agent.step, Option.map_some]
    rfl
  have hleft : b.wal.compact.fileSizeBytes = 0 := by
    have hinv : b.Inv := by
      refine inv_step (inv_step Agent.inv_init (guarded_appendAckCheck payload).1 happend) ?_ hack
      trivial
    have hlast : b.wal.lastAckedSeq = 1 := by
      simp [b, a, Wal.acknowledge, Wal.append, hacked]
    rw [fileSizeBytes_compact hinv, Agent.backlog, hlast]
    have hnone : Agent.init.committed = [] := rfl
    simp [b, a, hseq, hnone, Wal.unacked]
  exact ⟨{ init with agent := b },
    ⟨{ b with wal := b.wal.compact }, b.wal.compact.fileSizeBytes, 1⟩,
    exec_cons_iff.2 ⟨_, happend, exec_cons_iff.2 ⟨_, hack, rfl⟩⟩, ⟨hcheck, rfl⟩, rfl, hleft⟩

theorem fileSize_le_oneMebibyte : ∃ s,
    exec step init (appendAckCheck (List.replicate (2 ^ 20) 0)) = some s ∧ s.compactions = 1 ∧
      ∃ pre u, pre <+: appendAckCheck (List.replicate (2 ^ 20) 0) ∧
        exec step init pre = some u ∧ s.agent.wal.fileSizeBytes ≤
          u.agent.backlog + kCompactSlackBytes +
            GrowthAct.unchecked (appendAckCheck (List.replicate (2 ^ 20) 0)) := by
  have hlen : (List.replicate (2 ^ 20) (0 : UInt8)).length = 2 ^ 20 := List.length_replicate
  generalize List.replicate (2 ^ 20) (0 : UInt8) = payload at hlen ⊢
  obtain ⟨r, s, hr, hs, hcount, -⟩ := exec_appendAckCheck hlen
  have h := exec_snoc_iff.2 ⟨r, hr, hs.1⟩
  exact ⟨s, h, hcount, fileSize_le (guarded_appendAckCheck _) h⟩

theorem compactions_le_oneMebibyte : ∃ s,
    exec step init (appendAckCheck (List.replicate (2 ^ 20) 0)) = some s ∧
      kCompactSlackBytes <
        ([.append (List.replicate (2 ^ 20) 0), .acknowledge 1].map GrowthAct.written).sum ∧
      1 * (kCompactSlackBytes + 1) ≤
        ((appendAckCheck (List.replicate (2 ^ 20) 0)).map GrowthAct.written).sum +
          (appendAckCheck (List.replicate (2 ^ 20) 0)).countP GrowthAct.isCrash *
            (kCompactSlackBytes + 1) := by
  have hlen : (List.replicate (2 ^ 20) (0 : UInt8)).length = 2 ^ 20 := List.length_replicate
  generalize List.replicate (2 ^ 20) (0 : UInt8) = payload at hlen ⊢
  obtain ⟨r, s, hr, hs, hcount, -⟩ := exec_appendAckCheck hlen
  have h := exec_snoc_iff.2 ⟨r, hr, hs.1⟩
  obtain ⟨heach, hle⟩ := compactions_le h
  rw [hcount] at hle
  have hwritten := heach [] _ [] init r s rfl rfl (.inl rfl) hr hs
  exact ⟨s, h, hwritten.resolve_left (by simp [GrowthAct.isCrash]), hle⟩

end WalGrowth

end Ridgeline
