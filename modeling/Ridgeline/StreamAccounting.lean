import Mathlib.Data.List.Pairwise
import Ridgeline.Ingest
import Ridgeline.Transition

/-!
# The accounts of a stream

What `Connect` counts while it reads detections. Each detection ends in one of four ways : it
is a duplicate, the rate limiter rejects it, its publish fails, or it is accepted, and each way
has its counter (`Account.step_cases`).

After a Hello with durable state the accounts balance after every detection
(`accounts_balance`). The last seq is the Hello's plus the detections accepted plus the seqs
skipped, so none of the three wraps. The seqs accepted increase, and the acks do not decrease.

After a Hello without durable state the first detection that passes is to be the new baseline.
The test for duplicates comes first, and compares with the seq of a Hello that has no meaning.
So it is the new baseline exactly when it is above that seq (`resync_iff`).
-/

namespace Ridgeline

/-- A detection with what the calls it makes return. -/
abbrev Delivery := DetectionEvent × Answers

/-! ## After a Hello with durable state -/

/-- A stream with the detections read, the seqs accepted, those whose publish was confirmed,
and the acks written, each with the seq of the detection it answers. -/
structure Account where
  stream : Stream
  read : List DetectionEvent := []
  accepted : List UInt64 := []
  published : List UInt64 := []
  acks : List (UInt64 × UInt64) := []
  ended : Bool := false
  deriving DecidableEq, Repr

namespace Account

variable (g : Integrations)

/-- The acks after a message to the agent. -/
def writeTo (acks : List (UInt64 × UInt64)) (seq : UInt64) :
    Option GatewayMessage → List (UInt64 × UInt64)
  | some (.ack upToSeq) => acks ++ [(seq, upToSeq)]
  | _ => acks

/-- Read and handle one detection. -/
def step (s : Account) (x : Delivery) : Option Account :=
  if s.ended then none
  else
    let out := s.stream.onDetection g x.1 x.2
    some
      { stream := out.stream
        read := s.read ++ [x.1]
        accepted := if s.stream.Accepts g x.1 x.2 then s.accepted ++ [x.1.seq] else s.accepted
        published :=
          if .publishSync s.stream.deviceId x.1 ∈ out.calls ∧ x.2.published then
            s.published ++ [x.1.seq]
          else s.published
        acks := writeTo s.acks x.1.seq out.sent
        ended := out.status.isSome }

/-- The stream after its Hello. -/
def start (certCn : Option Bytes) (h : Hello) : Account :=
  let out := ({} : Stream).onHello certCn h
  { stream := out.stream, ended := out.status.isSome }

/-- The accounts of a stream whose Hello acked `b`. -/
structure Balanced (b : UInt64) (s : Account) : Prop where
  /-- No wrap-around, as the equation is one of natural numbers. -/
  lastSeq : s.stream.lastSeq.toNat =
    b.toNat + s.stream.received.toNat + s.stream.gapEvents.toNat
  accepted : s.accepted.Pairwise (· < ·)
  published : s.published.Nodup
  acks : (s.acks.map Prod.snd).Pairwise (· ≤ ·)
  /-- An ack is at least the seq it answers, and at most `b` or a seq accepted. -/
  answered : ∀ a ∈ s.acks, a.1 ≤ a.2 ∧ (a.2 ≤ b ∨ ∃ k ∈ s.accepted, a.2 ≤ k)
  /-- In the arithmetic of the counters. -/
  counted : s.stream.received + s.stream.duplicates + s.stream.rateLimited +
    s.stream.kafkaFailed = UInt64.ofNat s.read.length
  /-- As numbers, as long as no counter can have wrapped. -/
  counted_nat : s.read.length < 2 ^ 64 → s.stream.received.toNat + s.stream.duplicates.toNat +
    s.stream.rateLimited.toNat + s.stream.kafkaFailed.toNat = s.read.length

/-- The four counters are those of the ways in which a detection ends. -/
def Counts (s : Account) (received duplicates rateLimited kafkaFailed : ℕ) : Prop :=
  received + duplicates + rateLimited + kafkaFailed = s.read.length ∧
    s.stream.received = UInt64.ofNat received ∧ s.stream.duplicates = UInt64.ofNat duplicates ∧
      s.stream.rateLimited = UInt64.ofNat rateLimited ∧
        s.stream.kafkaFailed = UInt64.ofNat kafkaFailed

/-- What is kept by every detection. -/
structure Inv (b : UInt64) (s : Account) : Prop where
  device : s.stream.deviceId ≠ []
  durable : s.stream.awaitingResync = false
  lastSeq : s.stream.lastSeq.toNat =
    b.toNat + s.stream.received.toNat + s.stream.gapEvents.toNat
  last : s.stream.lastSeq = b ∨ s.stream.lastSeq ∈ s.accepted
  accepted : s.accepted.Pairwise (· < ·)
  below : ∀ k ∈ s.accepted, k ≤ s.stream.lastSeq
  published : s.published.Sublist s.accepted
  acks : (s.acks.map Prod.snd).Pairwise (· ≤ ·)
  answered : ∀ a ∈ s.acks, a.1 ≤ a.2 ∧ a.2 ≤ s.stream.lastSeq
  counts : ∃ r d l k, s.Counts r d l k

variable {g} {b : UInt64} {s t : Account}

theorem inv_start {certCn : Option Bytes} {h : Hello}
    (hok : (({} : Stream).onHello certCn h).status = none) (hdurable : h.durableResume = true) :
    (start certCn h).Inv h.lastAckedSeq := by
  have hdev := (Stream.status_onHello_iff.1 hok).1
  rw [start, Stream.stream_onHello hok]
  exact {
    device := hdev
    durable := by simp [hdurable]
    lastSeq := by simp
    last := .inl rfl
    accepted := .nil
    below := nofun
    published := List.Sublist.refl _
    acks := .nil
    answered := nofun
    counts := ⟨0, 0, 0, 0, rfl, rfl, rfl, rfl, rfl⟩ }

/-- The four ways in which a detection ends. -/
theorem step_cases {x : Delivery} (hdev : s.stream.deviceId ≠ []) (h : s.step g x = some t) :
    (x.1.seq ≤ s.stream.lastSeq ∧ ∃ e, t = { s with
      stream := { s.stream with duplicates := s.stream.duplicates + 1 }
      read := s.read ++ [x.1]
      acks := s.acks ++ [(x.1.seq, s.stream.lastSeq)]
      ended := e }) ∨
    (s.stream.lastSeq < x.1.seq ∧ x.2.rateOk = false ∧ t = { s with
      stream := { s.stream with rateLimited := s.stream.rateLimited + 1 }
      read := s.read ++ [x.1] }) ∨
    (s.stream.lastSeq < x.1.seq ∧ x.2.rateOk ∧ g.kafka ∧ x.2.published = false ∧ t = { s with
      stream := { s.stream with kafkaFailed := s.stream.kafkaFailed + 1 }
      read := s.read ++ [x.1] }) ∨
    (s.stream.lastSeq < x.1.seq ∧ Stream.passes g x.2 ∧ ∃ n published e,
      published.Sublist (s.published ++ [x.1.seq]) ∧ t = { s with
        stream := Stream.accept { s.stream with kafkaPublished := n } x.1
        read := s.read ++ [x.1]
        accepted := s.accepted ++ [x.1.seq]
        published := published
        acks := s.acks ++ [(x.1.seq, x.1.seq)]
        ended := e }) := by
  have hrun : s.ended = false := by
    by_contra hne
    simp [step, hne] at h
  have haccepts := Stream.accepts_iff g x.1 x.2 hdev
  simp only [step, hrun, Bool.false_eq_true, if_false, Option.some.injEq] at h
  subst h
  rcases Stream.onDetection_cases g x.1 x.2 hdev with ⟨hle, heq⟩ | ⟨hlt, hrate, heq⟩ |
    ⟨hlt, hrate, hkafka, hpub, heq⟩ | ⟨hlt, hpass, n, calls, -, -, heq⟩
  · have hnot : ¬ s.stream.Accepts g x.1 x.2 := fun hacc => (haccepts.1 hacc).1.not_ge hle
    exact .inl ⟨hle, _, by simp [heq, Stream.writeAck, writeTo, hnot]; rfl⟩
  · have hnot : ¬ s.stream.Accepts g x.1 x.2 := fun hacc => by
      simpa [Stream.passes, hrate] using (haccepts.1 hacc).2
    exact .inr (.inl ⟨hlt, hrate, by simp [heq, writeTo, hnot, hrun]⟩)
  · have hnot : ¬ s.stream.Accepts g x.1 x.2 := fun hacc => by
      simpa [Stream.passes, hkafka, hpub] using (haccepts.1 hacc).2
    exact .inr (.inr (.inl ⟨hlt, hrate, hkafka, hpub, by simp [heq, writeTo, hnot, hpub, hrun]⟩))
  · have hacc : s.stream.Accepts g x.1 x.2 := haccepts.2 ⟨hlt, hpass⟩
    refine .inr (.inr (.inr ⟨hlt, hpass, n, _, _, ?_, by
      simp only [heq, Stream.writeAck, writeTo, hacc, if_true]
      rfl⟩))
    split_ifs
    · exact List.Sublist.refl _
    · exact List.sublist_append_left _ _

/-- The seqs skipped up to an accepted detection are added to the gaps. -/
theorem lastSeq_accept (st : Stream) {d : DetectionEvent} (hdurable : st.awaitingResync = false)
    (hlast : st.lastSeq.toNat = b.toNat + st.received.toNat + st.gapEvents.toNat)
    (hlt : st.lastSeq < d.seq) :
    d.seq.toNat = b.toNat + (st.accept d).received.toNat + (st.accept d).gapEvents.toNat := by
  have hd := d.seq.toNat_lt
  have hlt' := UInt64.lt_iff_toNat_lt.1 hlt
  have hreceived : (st.accept d).received.toNat = st.received.toNat + 1 :=
    toNat_add_one (by omega)
  have hskip : (d.seq - st.lastSeq - 1).toNat = d.seq.toNat - st.lastSeq.toNat - 1 := by
    have hsub := UInt64.toNat_sub_of_le _ _ hlt.le
    rw [UInt64.toNat_sub_of_le, hsub, UInt64.toNat_one]
    rw [UInt64.le_iff_toNat_le, hsub, UInt64.toNat_one]
    omega
  have hgap : (st.accept d).gapEvents.toNat =
      st.gapEvents.toNat + (d.seq.toNat - st.lastSeq.toNat - 1) := by
    simp only [Stream.accept, hdurable, Bool.false_eq_true, if_false]
    split_ifs with hne
    · rw [UInt64.toNat_add, hskip]
      exact Nat.mod_eq_of_lt (by omega)
    · rw [ne_eq, not_not] at hne
      have hnext : d.seq.toNat = st.lastSeq.toNat + 1 := by
        rw [hne]
        exact toNat_add_one (by omega)
      omega
  omega

/-- An ack that is not below those before it. -/
theorem pairwise_acks_snoc {acks : List (UInt64 × UInt64)} {seq upToSeq : UInt64}
    (h : (acks.map Prod.snd).Pairwise (· ≤ ·)) (hle : ∀ a ∈ acks, a.2 ≤ upToSeq) :
    ((acks ++ [(seq, upToSeq)]).map Prod.snd).Pairwise (· ≤ ·) := by
  rw [List.map_append, List.pairwise_append]
  refine ⟨h, List.pairwise_singleton _ _, ?_⟩
  rintro n hn m hm
  obtain ⟨a, ha, rfl⟩ := List.mem_map.1 hn
  rw [List.map_singleton, List.mem_singleton] at hm
  exact hm ▸ hle a ha

theorem inv_step (s : Account) (x : Delivery) (t : Account) (hs : s.Inv b)
    (h : s.step g x = some t) : t.Inv b := by
  obtain ⟨r, d, l, k, hread, hr, hd, hl, hk⟩ := hs.counts
  have hacks := fun a ha => (hs.answered a ha).2
  rcases step_cases hs.device h with ⟨hle, e, rfl⟩ | ⟨hlt, -, rfl⟩ | ⟨hlt, -, -, -, rfl⟩ |
    ⟨hlt, -, n, published, e, hpub, rfl⟩
  · refine { hs with acks := ?acks, answered := ?answered, counts := ⟨r, d + 1, l, k, ?counts⟩ }
    case acks => exact pairwise_acks_snoc hs.acks hacks
    case answered =>
      exact List.forall_mem_append.2 ⟨hs.answered, List.forall_mem_singleton.2 ⟨hle, le_rfl⟩⟩
    case counts => exact ⟨by simp; omega, hr, by simp [hd, UInt64.ofNat_add], hl, hk⟩
  · exact { hs with
      counts := ⟨r, d, l + 1, k, by simp; omega, hr, hd, by simp [hl, UInt64.ofNat_add], hk⟩ }
  · exact { hs with
      counts := ⟨r, d, l, k + 1, by simp; omega, hr, hd, hl, by simp [hk, UInt64.ofNat_add]⟩ }
  · refine {
      device := hs.device, durable := rfl, lastSeq := ?lastSeq,
      last := .inr (by simp [Stream.accept]), accepted := ?accepted, below := ?below,
      published := ?published, acks := ?acks, answered := ?answered,
      counts := ⟨r + 1, d, l, k, ?counts⟩ }
    case lastSeq =>
      exact lastSeq_accept { s.stream with kafkaPublished := n } hs.durable hs.lastSeq hlt
    case accepted =>
      refine List.pairwise_append.2 ⟨hs.accepted, List.pairwise_singleton _ _, ?_⟩
      exact fun m hm w hw => List.mem_singleton.1 hw ▸ (hs.below m hm).trans_lt hlt
    case below =>
      exact List.forall_mem_append.2
        ⟨fun m hm => ((hs.below m hm).trans_lt hlt).le, List.forall_mem_singleton.2 le_rfl⟩
    case published => exact hpub.trans (hs.published.append (List.Sublist.refl _))
    case acks => exact pairwise_acks_snoc hs.acks fun a ha => ((hacks a ha).trans_lt hlt).le
    case answered =>
      exact List.forall_mem_append.2
        ⟨fun a ha => ⟨(hs.answered a ha).1, ((hacks a ha).trans_lt hlt).le⟩,
          List.forall_mem_singleton.2 ⟨le_rfl, le_rfl⟩⟩
    case counts => exact ⟨by simp; omega, by simp [Stream.accept, hr, UInt64.ofNat_add], hd, hl, hk⟩

theorem Inv.balanced (hs : s.Inv b) : s.Balanced b where
  lastSeq := hs.lastSeq
  accepted := hs.accepted
  published := hs.published.nodup (hs.accepted.imp fun h => h.ne)
  acks := hs.acks
  answered := by
    intro a ha
    obtain ⟨hle, hlast⟩ := hs.answered a ha
    rcases hs.last with hbase | hmem
    · exact ⟨hle, .inl (hbase ▸ hlast)⟩
    · exact ⟨hle, .inr ⟨_, hmem, hlast⟩⟩
  counted := by
    obtain ⟨r, d, l, k, hread, hr, hd, hl, hk⟩ := hs.counts
    rw [hr, hd, hl, hk, ← hread, UInt64.ofNat_add, UInt64.ofNat_add, UInt64.ofNat_add]
  counted_nat := by
    intro hlt
    obtain ⟨r, d, l, k, hread, hr, hd, hl, hk⟩ := hs.counts
    have hmod : ∀ m, m ≤ s.read.length → (UInt64.ofNat m).toNat = m := fun m hm => by
      rw [UInt64.toNat_ofNat']
      exact Nat.mod_eq_of_lt (hm.trans_lt hlt)
    rw [hr, hd, hl, hk, hmod r (by omega), hmod d (by omega), hmod l (by omega), hmod k (by omega),
      hread]

/-- For every stream with one Hello, of durable state, and any detections behind it, whatever
the rate limiter and Kafka answer, the accounts balance after every detection. -/
theorem accounts_balance (g : Integrations) (certCn : Option Bytes) {h : Hello}
    (hok : (({} : Stream).onHello certCn h).status = none) (hdurable : h.durableResume = true)
    {xs : List Delivery} (hs : exec (step g) (start certCn h) xs = some s) :
    s.Balanced h.lastAckedSeq :=
  (exec_invariant inv_step (inv_start hok hdurable) hs).balanced

/-- A redelivery, a gap, a rejection of each kind, and the largest seq. -/
def mixedDeliveries : List Delivery :=
  [(⟨4, []⟩, {}), (⟨6, []⟩, {}), (⟨9, []⟩, { rateOk := false }), (⟨8, []⟩, { published := false }),
    (⟨18446744073709551615, []⟩, {}), (⟨7, []⟩, {})]

/-- The Hello of a camera that has been acked up to 4. -/
def helloAt4 : Hello :=
  ⟨ascii "cam-0001", 4, true, []⟩

theorem accounts_balance_mixed : ∃ s,
    exec (step ⟨true, false, false, false⟩) (start none helloAt4) mixedDeliveries = some s ∧
      s.stream.received = 2 ∧ s.stream.duplicates = 2 ∧ s.Balanced 4 := by
  obtain ⟨s, hs, hreceived, hdup⟩ : ∃ s,
      exec (step ⟨true, false, false, false⟩) (start none helloAt4) mixedDeliveries = some s ∧
        s.stream.received = 2 ∧ s.stream.duplicates = 2 := exists_exec_of_any (by decide)
  exact ⟨s, hs, hreceived, hdup, accounts_balance _ none (h := helloAt4) rfl rfl hs⟩

end Account

/-! ## After a Hello without durable state -/

namespace Stream

variable (g : Integrations)

/-- What the detections do, as long as the stream goes on. -/
def outcomes (s : Stream) : List Delivery → List Outcome
  | [] => []
  | x :: xs =>
    let out := s.onDetection g x.1 x.2
    out :: if out.status.isSome then [] else outcomes out.stream xs

/-- The stream as one with durable state. -/
def asDurable (s : Stream) : Stream :=
  { s with durableResume := true }

/-- The detection is taken as the new baseline, and what follows is handled as on a stream with
durable state whose last seq is that of the detection. -/
structure Resyncs (s : Stream) (d : DetectionEvent) (ans : Answers) : Prop where
  received : (s.onDetection g d ans).stream.received = s.received + 1
  published : g.kafka → .publishSync s.deviceId d ∈ (s.onDetection g d ans).calls ∧
    (s.onDetection g d ans).stream.kafkaPublished = s.kafkaPublished + 1
  duplicates : (s.onDetection g d ans).stream.duplicates = s.duplicates
  gapEvents : (s.onDetection g d ans).stream.gapEvents = s.gapEvents
  lastSeq : (s.onDetection g d ans).stream.lastSeq = d.seq
  later : ∀ xs, (outcomes g (s.onDetection g d ans).stream xs).map
      (fun out => { out with stream := out.stream.asDurable }) =
    outcomes g { (s.onDetection g d ans).stream with
      durableResume := true, awaitingResync := false, lastSeq := d.seq } xs

variable {g} {s : Stream} {d : DetectionEvent} {ans : Answers}

/-- The handler of a detection does not look at `durable_resume`. -/
theorem onDetection_asDurable (s : Stream) (d : DetectionEvent) (ans : Answers) :
    s.asDurable.onDetection g d ans =
      { s.onDetection g d ans with stream := (s.onDetection g d ans).stream.asDurable } := by
  have hdev : s.asDurable.deviceId = s.deviceId := rfl
  have hlast : s.asDurable.lastSeq = s.lastSeq := rfl
  unfold onDetection
  rw [hdev, hlast]
  by_cases hempty : s.deviceId = []
  · simp only [if_pos hempty]
  by_cases hle : d.seq ≤ s.lastSeq
  · simp only [if_neg hempty, if_pos hle]
    rfl
  cases hrate : ans.rateOk <;> cases hkafka : g.kafka <;> cases hpub : ans.published <;>
    simp only [if_neg hempty, if_neg hle] <;> rfl

theorem outcomes_asDurable : ∀ (xs : List Delivery) (s : Stream),
    (outcomes g s xs).map (fun out => { out with stream := out.stream.asDurable }) =
      outcomes g s.asDurable xs
  | [], _ => rfl
  | x :: xs, s => by
    simp only [outcomes, onDetection_asDurable, List.map_cons]
    split_ifs
    · rfl
    · rw [outcomes_asDurable xs]

/-- A detection above the last seq that passes is published, if Kafka is configured, and then
accepted. -/
theorem onDetection_of_passes (hdev : s.deviceId ≠ []) (hlt : s.lastSeq < d.seq)
    (hpass : passes g ans) : ∃ n calls,
      (g.kafka → .publishSync s.deviceId d ∈ calls ∧ n = s.kafkaPublished + 1) ∧
        s.onDetection g d ans = writeAck (accept { s with kafkaPublished := n } d) calls ans := by
  obtain ⟨hrate, hpub⟩ : ans.rateOk = true ∧ (g.kafka = true → ans.published = true) := by
    cases hk : g.kafka <;> simpa [passes, hk] using hpass
  rw [onDetection, if_neg hdev, if_neg (not_le.2 hlt)]
  cases hk : g.kafka with
  | false => exact ⟨s.kafkaPublished, [.checkRateLimit s.rateKey], by simp, by simp [hrate]⟩
  | true =>
    exact ⟨s.kafkaPublished + 1, [.checkRateLimit s.rateKey, .publishSync s.deviceId d], by simp,
      by simp [hrate, hpub hk]⟩

/-- After a Hello without durable state, the first detection, if the rate limiter and Kafka do
not reject it, is the new baseline exactly when it is above the seq of the Hello. -/
theorem resync_iff (g : Integrations) (certCn : Option Bytes) (s : Stream) {h : Hello}
    (hok : (s.onHello certCn h).status = none) (hvolatile : h.durableResume = false)
    (d : DetectionEvent) {ans : Answers} (hpass : passes g ans) :
    (s.onHello certCn h).stream.Resyncs g d ans ↔ h.lastAckedSeq < d.seq := by
  have hstream := stream_onHello hok
  have hdev : (s.onHello certCn h).stream.deviceId ≠ [] := by
    rw [hstream]
    exact (status_onHello_iff.1 hok).1
  have hlast : (s.onHello certCn h).stream.lastSeq = h.lastAckedSeq := by rw [hstream]
  have hwait : (s.onHello certCn h).stream.awaitingResync = true := by
    rw [hstream]
    simp [hvolatile]
  generalize (s.onHello certCn h).stream = t at *
  constructor
  · intro hres
    by_contra hle
    have hdup := hres.duplicates
    rw [onDetection, if_neg hdev, if_pos (hlast ▸ not_lt.1 hle)] at hdup
    simp [writeAck] at hdup
  · intro hlt
    obtain ⟨n, calls, hpublish, hout⟩ := onDetection_of_passes hdev (hlast ▸ hlt) hpass
    exact {
      received := by rw [hout]; rfl
      published := fun hk => by rw [hout]; exact hpublish hk
      duplicates := by rw [hout]; rfl
      gapEvents := by rw [hout]; simp [writeAck, accept, hwait]
      lastSeq := by rw [hout]; rfl
      later := fun xs => by rw [hout, outcomes_asDurable]; rfl }

/-- The Hello of an agent that started over, whose seqs begin at 1 again. -/
def volatileHello : Hello :=
  ⟨ascii "cam-0001", 5, false, []⟩

theorem resync_iff_above :
    (onHello none {} volatileHello).stream.Resyncs ⟨true, false, false, false⟩ ⟨9, []⟩ {} :=
  (resync_iff _ none {} (h := volatileHello) rfl rfl ⟨9, []⟩ (by decide)).2 (by decide)

/-- Its first detection is taken for a redelivery, and is acked without being published. -/
theorem restarted_agent_deduped :
    passes ⟨true, false, false, false⟩ {} ∧
      ¬ (onHello none {} volatileHello).stream.Resyncs ⟨true, false, false, false⟩ ⟨1, []⟩ {} ∧
        (onHello none {} volatileHello).stream.onDetection ⟨true, false, false, false⟩ ⟨1, []⟩ {} =
          { stream := { (onHello none {} volatileHello).stream with duplicates := 1 }
            sent := some (.ack 5) } :=
  ⟨by decide, fun h => absurd h.duplicates (by decide), by decide⟩

end Stream

end Ridgeline
