import Ridgeline.CumulativeAck
import Ridgeline.Ingest
import Ridgeline.Transition

/-!
# What the gateway's acks cover

An ack is cumulative, and the agent drops every event up to it from its outbox and its
log. A rejected detection gets no ack of its own, but the next accepted one acks past it.
So the acks of a stream cover only accepted detections exactly when, since each Hello, no
detection that passes overtakes one that has not passed before (`acks_sound_iff`). One
rejection followed by one acceptance is enough to break it (`rejected_then_acked`).
-/

namespace Ridgeline

/-- A message with what the calls it makes return. -/
abbrev Input := AgentMessage × Answers

/-- A stream with its history since the last Hello : the seq that Hello acked, the
detections that arrived, and those accepted. -/
structure Session where
  stream : Stream := {}
  baseline : UInt64 := 0
  arrived : List DetectionEvent := []
  accepted : List DetectionEvent := []
  ended : Bool := false
  deriving DecidableEq, Repr

namespace Session

variable (g : Integrations) (certCn : Option Bytes)

/-- The handler run on the next message. -/
def outcome (s : Session) (x : Input) : Outcome :=
  s.stream.onMessage g certCn x.1 x.2

/-- Read and handle one message. -/
def step (s : Session) (x : Input) : Option Session :=
  if s.ended then none
  else
    let out := s.outcome g certCn x
    let t := { s with stream := out.stream, ended := out.status.isSome }
    match x.1 with
    | .hello h =>
      if out.status.isSome then some t
      else some { t with baseline := h.lastAckedSeq, arrived := [], accepted := [] }
    | .detection d => some { t with
        arrived := s.arrived ++ [d]
        accepted := if s.stream.Accepts g d x.2 then s.accepted ++ [d] else s.accepted }
    | _ => some t

/-- Whenever an ack of `n` is written along `ins`, every detection that arrived since the
last Hello with a seq above that Hello's and at most `n` has been accepted since. -/
def AcksSound (ins : List Input) : Prop :=
  ∀ pre x post s t n, ins = pre ++ x :: post → exec (step g certCn) {} pre = some s →
    s.step g certCn x = some t → (s.outcome g certCn x).sent = some (.ack n) →
      ∀ d ∈ t.arrived, t.baseline < d.seq → d.seq ≤ n → ∃ a ∈ t.accepted, a.seq = d.seq

/-- The detection as an item of a receiver with cumulative acks. -/
def arrival (d : DetectionEvent) (ans : Answers) : Arrival UInt64 :=
  ⟨d.seq, Stream.passes g ans⟩

/-- Since the last Hello of `ins` : the seq it acked and the detections with their
verdicts. -/
def sinceHello (ins : List Input) : Option (UInt64 × List (Arrival UInt64)) :=
  ins.foldl (fun since x =>
    match x.1 with
    | .hello h => some (h.lastAckedSeq, [])
    | .detection d => since.map fun p => (p.1, p.2 ++ [arrival g d x.2])
    | _ => since) none

/-- Since every Hello, no detection that passes overtakes one that has not passed. -/
def NoOvertake (ins : List Input) : Prop :=
  ∀ pre b as, pre <+: ins → sinceHello g pre = some (b, as) → Receiver.NoOvertake b as

/-! ## The stream is a receiver with cumulative acks -/

/-- The history is the one of the receiver that took the arrivals since the last Hello. -/
structure Tracks (s : Session) (b : UInt64) (as : List (Arrival UInt64)) : Prop where
  baseline : s.baseline = b
  arrived : s.arrived.map DetectionEvent.seq = as.map Arrival.key
  accepted : s.accepted.map DetectionEvent.seq = (Receiver.run b as).accepted
  last : s.stream.lastSeq = (Receiver.run b as).last

/-- Before the first Hello the stream has no device, and after it the history is the
receiver's. -/
def Inv (s : Session) (ins : List Input) : Prop :=
  match sinceHello g ins with
  | none => s.stream.deviceId = []
  | some (b, as) => s.stream.deviceId ≠ [] ∧ s.Tracks b as

theorem sinceHello_snoc (ins : List Input) (x : Input) : sinceHello g (ins ++ [x]) =
    match x.1 with
    | .hello h => some (h.lastAckedSeq, [])
    | .detection d => (sinceHello g ins).map fun p => (p.1, p.2 ++ [arrival g d x.2])
    | _ => sinceHello g ins := by
  rw [sinceHello, List.foldl_append]
  rfl

variable {g certCn} {s t : Session}

theorem ended_of_step {x : Input} (h : s.step g certCn x = some t) : s.ended = false := by
  by_contra hne
  simp [step, hne] at h

theorem detection_of_step {d : DetectionEvent} {ans : Answers}
    (h : s.step g certCn (.detection d, ans) = some t) :
    t.stream = (s.stream.onDetection g d ans).stream ∧ t.baseline = s.baseline ∧
      t.arrived = s.arrived ++ [d] ∧
        t.accepted = if s.stream.Accepts g d ans then s.accepted ++ [d] else s.accepted := by
  by_cases hended : s.ended
  · simp [step, hended] at h
  · simp only [step, hended, Bool.false_eq_true, if_false, Option.some.injEq] at h
    rw [← h]
    exact ⟨rfl, rfl, rfl, rfl⟩

/-- The last seq after a detection is the receiver's kept key. -/
theorem Tracks.lastSeq {b : UInt64} {as : List (Arrival UInt64)} {d : DetectionEvent}
    {ans : Answers} (h : s.Tracks b as) (hdev : s.stream.deviceId ≠ []) :
    (s.stream.onDetection g d ans).stream.lastSeq =
      (Receiver.run b (as ++ [arrival g d ans])).last := by
  rw [Stream.lastSeq_onDetection g d ans hdev, Receiver.run_snoc, Receiver.last_receive, h.last]
  rfl

/-- A detection after a Hello is taken as the receiver takes it. -/
theorem Tracks.detection {b : UInt64} {as : List (Arrival UInt64)} {d : DetectionEvent}
    {ans : Answers} (h : s.Tracks b as) (hdev : s.stream.deviceId ≠ [])
    (ht : s.step g certCn (.detection d, ans) = some t) :
    t.Tracks b (as ++ [arrival g d ans]) := by
  obtain ⟨hstream, hbase, harrived, haccepted⟩ := detection_of_step ht
  refine ⟨hbase.trans h.baseline, ?_, ?_, hstream ▸ h.lastSeq hdev⟩
  · rw [harrived, List.map_append, List.map_append, h.arrived]
    rfl
  · rw [haccepted, Receiver.run_snoc, Receiver.accepted_receive, ← h.last, ← h.accepted]
    have hiff := Stream.accepts_iff g d ans hdev
    by_cases hacc : s.stream.Accepts g d ans
    · simp [arrival, hacc, hiff.1 hacc]
    · simp only [arrival, hacc, mt hiff.2 hacc, if_false]

/-- While the stream is open, each message keeps the invariant. -/
theorem inv_step {ins : List Input} {x : Input} (hs : s.Inv g ins)
    (ht : s.step g certCn x = some t) (hopen : t.ended = false) : t.Inv g (ins ++ [x]) := by
  have hended := ended_of_step ht
  obtain ⟨msg, ans⟩ := x
  rw [Inv, sinceHello_snoc]
  cases msg with
  | hello h =>
    have hstatus : (s.stream.onHello certCn h).status = none := by
      by_contra hne
      have hsome : (s.stream.onHello certCn h).status.isSome := Option.isSome_iff_ne_none.2 hne
      simp only [step, hended, outcome, Stream.onMessage, hsome, if_true, Bool.false_eq_true,
        if_false, Option.some.injEq] at ht
      simp [← ht] at hopen
    simp only [step, hended, outcome, Stream.onMessage, hstatus, Bool.false_eq_true, if_false,
      Option.isSome_none, Option.some.injEq, Stream.stream_onHello hstatus] at ht
    rw [← ht]
    exact ⟨(Stream.status_onHello_iff.1 hstatus).1, rfl, rfl, rfl, rfl⟩
  | detection d =>
    rw [Inv] at hs
    have hdevice : t.stream.deviceId = s.stream.deviceId := by
      rw [(detection_of_step ht).1, Stream.deviceId_onDetection]
    cases hsince : sinceHello g ins with
    | none =>
      rw [hsince] at hs
      exact hdevice.trans hs
    | some p =>
      rw [hsince] at hs
      exact ⟨hdevice ▸ hs.1, hs.2.detection hs.1 ht⟩
  | heartbeat hb =>
    simp only [step, hended, outcome, Stream.onMessage, Bool.false_eq_true, if_false,
      Option.some.injEq, Stream.stream_onHeartbeat] at ht
    rw [Inv] at hs
    rw [← ht]
    cases hsince : sinceHello g ins with
    | none =>
      rw [hsince] at hs
      exact hs
    | some p =>
      rw [hsince] at hs
      exact ⟨hs.1, hs.2.baseline, hs.2.arrived, hs.2.accepted, hs.2.last⟩
  | notSet =>
    simp only [step, hended, outcome, Stream.onMessage, Bool.false_eq_true, if_false,
      Option.some.injEq] at ht
    simp [← ht] at hopen

/-- A stream that is still open after `ins` keeps the invariant. -/
theorem inv_of_exec {ins : List Input} (h : exec (step g certCn) {} ins = some s)
    (hopen : s.ended = false) : s.Inv g ins := by
  induction ins using List.reverseRecOn generalizing s with
  | nil =>
    cases h
    rfl
  | append_singleton ins x ih =>
    obtain ⟨u, hu, hs⟩ := exec_snoc_iff.1 h
    exact inv_step (ih hu (ended_of_step hs)) hs hopen

/-- The acks of a stream come from its detections, as the receiver answers them. -/
theorem sent_iff {b n : UInt64} {as : List (Arrival UInt64)} {d : DetectionEvent} {ans : Answers}
    (hs : s.Tracks b as) (hdev : s.stream.deviceId ≠ []) :
    (s.outcome g certCn (.detection d, ans)).sent = some (.ack n) ↔
      (Receiver.run b as).Answers (arrival g d ans) ∧
        n = (Receiver.run b (as ++ [arrival g d ans])).last := by
  rw [outcome, Stream.onMessage, Stream.sent_onDetection g d ans hdev, hs.lastSeq hdev,
    Receiver.Answers, ← hs.last]
  simp only [arrival]
  split_ifs with h
  · rw [Option.some.injEq, GatewayMessage.ack.injEq, eq_comm]
    exact (and_iff_right h).symm
  · simp [h]

/-- An ack is only written for a detection, on a stream that has had a Hello. -/
theorem detection_of_sent {n : UInt64} {x : Input}
    (h : (s.outcome g certCn x).sent = some (.ack n)) :
    s.stream.deviceId ≠ [] ∧ ∃ d ans, x = (.detection d, ans) := by
  obtain ⟨msg, ans⟩ := x
  cases msg with
  | hello hello =>
    rw [outcome, Stream.onMessage, (Stream.onHello_quiet _ _ _).1] at h
    cases h
  | detection d =>
    refine ⟨fun hdev => ?_, d, ans, rfl⟩
    simp [outcome, Stream.onMessage, Stream.onDetection, hdev] at h
  | heartbeat hb => exact absurd h (Stream.sent_onHeartbeat_ne _ _ _ _ _)
  | notSet => simp [outcome, Stream.onMessage] at h

/-- Every arrival since the last Hello is a detection of the run, taken after the arrivals
before it. -/
theorem exists_of_sinceHello {ins : List Input} {b : UInt64} {p q : List (Arrival UInt64)}
    {a : Arrival UInt64} (h : sinceHello g ins = some (b, p ++ a :: q)) :
    ∃ pre d ans post, ins = pre ++ (.detection d, ans) :: post ∧
      sinceHello g pre = some (b, p) ∧ a = arrival g d ans := by
  induction ins using List.reverseRecOn generalizing q with
  | nil => simp [sinceHello] at h
  | append_singleton ins x ih =>
    obtain ⟨msg, ans⟩ := x
    have hold : ∀ {q}, sinceHello g ins = some (b, p ++ a :: q) → ∃ pre d ans' post,
        ins ++ [(msg, ans)] = pre ++ (.detection d, ans') :: post ∧
          sinceHello g pre = some (b, p) ∧ a = arrival g d ans' := fun h => by
      obtain ⟨pre, d, ans', post, rfl, hpre, ha⟩ := ih h
      exact ⟨pre, d, ans', post ++ [(msg, ans)], by simp, hpre, ha⟩
    rw [sinceHello_snoc] at h
    cases msg with
    | hello hello => simp at h
    | detection d =>
      obtain ⟨⟨b', as⟩, hsince, heq⟩ := Option.map_eq_some_iff.1 h
      simp only [Prod.mk.injEq] at heq
      obtain ⟨rfl, heq⟩ := heq
      rcases List.eq_nil_or_concat' q with rfl | ⟨q', z, rfl⟩
      · obtain ⟨rfl, hz⟩ := List.append_inj' heq rfl
        exact ⟨ins, d, ans, [], rfl, hsince, (List.singleton_inj.1 hz).symm⟩
      · rw [← List.cons_append, ← List.append_assoc] at heq
        obtain ⟨rfl, -⟩ := List.append_inj' heq rfl
        exact hold hsince
    | heartbeat hb => exact hold h
    | notSet => exact hold h

/-! ## Ack soundness -/

/-- The acks of the detection's answer cover only accepted detections, in the terms of
the receiver. -/
theorem covers_iff {b n : UInt64} {as : List (Arrival UInt64)} (hs : s.Tracks b as) :
    (∀ d ∈ s.arrived, s.baseline < d.seq → d.seq ≤ n → ∃ a ∈ s.accepted, a.seq = d.seq) ↔
      Receiver.Covers b n as (Receiver.run b as).accepted := by
  have harrived : ∀ P : UInt64 → Prop, (∀ d ∈ s.arrived, P d.seq) ↔ ∀ e ∈ as, P e.key := by
    intro P
    rw [← List.forall_mem_map, hs.arrived, List.forall_mem_map]
  have haccepted : ∀ k, (∃ a ∈ s.accepted, a.seq = k) ↔ k ∈ (Receiver.run b as).accepted := by
    intro k
    rw [← hs.accepted, List.mem_map]
  simp only [haccepted, hs.baseline]
  exact harrived fun k => b < k → k ≤ n → k ∈ (Receiver.run b as).accepted

/-- For every sequence of messages read on a stream, with any answers of the rate limiter
and of Kafka, the acks cover only accepted detections exactly when, since each Hello, no
detection that passes overtakes one that has not passed before it. -/
theorem acks_sound_iff {ins : List Input} (h : exec (step g certCn) {} ins = some s) :
    AcksSound g certCn ins ↔ NoOvertake g ins := by
  constructor
  · rintro hsound pre b as ⟨post, rfl⟩ hsince
    rw [← Receiver.acksSound_iff]
    rintro p a q rfl hans
    obtain ⟨ins₁, d, ans, ins₂, rfl, hsince₁, rfl⟩ := exists_of_sinceHello hsince
    rw [List.append_assoc] at h hsound
    obtain ⟨u, hu, h⟩ := exec_append_iff.1 h
    obtain ⟨t, ht, -⟩ := exec_cons_iff.1 h
    have hinv := inv_of_exec hu (ended_of_step ht)
    rw [Inv, hsince₁] at hinv
    obtain ⟨hdev, htracks⟩ := hinv
    rw [← covers_iff (htracks.detection hdev ht)]
    exact hsound ins₁ _ (ins₂ ++ post) u t _ rfl hu ht ((sent_iff htracks hdev).2 ⟨hans, rfl⟩)
  · rintro hno pre x post u t n rfl hu ht hsent
    obtain ⟨hdev, d, ans, rfl⟩ := detection_of_sent hsent
    have hinv := inv_of_exec hu (ended_of_step ht)
    rw [Inv] at hinv
    split at hinv
    · exact absurd hinv hdev
    · rename_i b as hsince
      obtain ⟨-, htracks⟩ := hinv
      obtain ⟨hans, rfl⟩ := (sent_iff htracks hdev).1 hsent
      have hpre : pre ++ [(.detection d, ans)] <+: pre ++ (.detection d, ans) :: post :=
        ⟨post, by simp⟩
      have hsince' : sinceHello g (pre ++ [(.detection d, ans)]) =
          some (b, as ++ [arrival g d ans]) := by
        simp [sinceHello_snoc, hsince]
      rw [covers_iff (htracks.detection hdev ht)]
      exact Receiver.acksSound_iff.2 (hno _ b _ hpre hsince') as _ [] rfl hans

/-- A stream without Kafka on which everything passes, with a redelivery. -/
def acceptedRun : List Input :=
  [(.hello ⟨ascii "cam-0001", 0, true, []⟩, {}), (.detection ⟨1, []⟩, {}),
    (.detection ⟨2, []⟩, {}), (.detection ⟨1, []⟩, {})]

theorem acks_sound_iff_acceptedRun :
    (exec (step ⟨false, false, false, false⟩ none) {} acceptedRun).isSome ∧
      (AcksSound ⟨false, false, false, false⟩ none acceptedRun ↔
        NoOvertake ⟨false, false, false, false⟩ acceptedRun) := by
  have hsome : (exec (step ⟨false, false, false, false⟩ none) {} acceptedRun).isSome := by decide
  obtain ⟨s, hs⟩ := Option.isSome_iff_exists.1 hsome
  exact ⟨hsome, acks_sound_iff hs⟩

/-- Seq 1 is rejected by the rate limiter and seq 2 is accepted. -/
def rejectedRun : List Input :=
  [(.hello ⟨ascii "cam-0001", 0, true, []⟩, {}), (.detection ⟨1, []⟩, { rateOk := false }),
    (.detection ⟨2, []⟩, {})]

/-- The ack of seq 2 covers seq 1, which was not accepted. -/
theorem rejected_then_acked : ¬ AcksSound ⟨false, false, false, false⟩ none rejectedRun := by
  intro h
  obtain ⟨a, ha, hseq⟩ := h (rejectedRun.take 2) (.detection ⟨2, []⟩, {}) [] _ _ 2 rfl rfl rfl rfl
    ⟨1, []⟩ (by decide) (by decide) (by decide)
  revert a
  decide

end Session

end Ridgeline
