import Mathlib.Data.Rat.Defs
import Ridgeline.Decimal

/-!
# The ingest stream

`IngestServiceImpl::Connect` of the gateway, one message at a time. The handler of a
message is a function of the stream's variables, the message, and what the calls it
makes return (`Answers`); it gives the new variables, the calls it made, the message it
writes, and the status if `Connect` returns.

Only logging is left out : `max_transit_ns`, the weather alert and the log lines change
nothing else.
-/

namespace Ridgeline

/-! ## Messages -/

/-- `Hello`. Its `agent_version` is not read. -/
structure Hello where
  deviceId : Bytes
  lastAckedSeq : UInt64
  durableResume : Bool
  tenantId : Bytes
  deriving DecidableEq, Repr

/-- `DetectionEvent` : its seq, and the other fields as the bytes they serialize to. -/
structure DetectionEvent where
  seq : UInt64
  body : Bytes
  deriving DecidableEq, Repr

/-- `Heartbeat`. Its `sent_time_unix_ns` is not read. -/
structure Heartbeat where
  queueDepth : UInt32
  framesDropped : UInt64
  appliedConfigVersion : UInt64
  deriving DecidableEq, Repr

/-- `AgentMessage`, whose payload may not be set. -/
inductive AgentMessage
  | hello (h : Hello)
  | detection (d : DetectionEvent)
  | heartbeat (hb : Heartbeat)
  | notSet
  deriving DecidableEq, Repr

/-- `ConfigUpdate`. -/
structure ConfigUpdate where
  version : UInt64
  confidenceThreshold : ℚ
  confirmK : UInt32
  confirmN : UInt32
  targetFps : UInt32
  deriving DecidableEq, Repr

/-- `GatewayMessage`. -/
inductive GatewayMessage
  | ack (upToSeq : UInt64)
  | config (update : ConfigUpdate)
  deriving DecidableEq, Repr

/-- The codes `Connect` returns. -/
inductive StatusCode
  | invalidArgument
  | permissionDenied
  | failedPrecondition
  | unavailable
  deriving DecidableEq, Repr

/-- `grpc::Status`, other than `OK`. -/
structure Status where
  code : StatusCode
  message : String
  deriving DecidableEq, Repr

/-! ## The calls a message makes -/

/-- `DeviceHotState`. -/
structure DeviceHotState where
  lastSeenUnixNs : ℤ
  queueDepth : UInt32
  framesDropped : UInt64
  deriving DecidableEq, Repr

/-- A call to something the streams share. -/
inductive Call
  | checkRateLimit (key : Bytes)
  | publishSync (key : Bytes) (d : DetectionEvent)
  | redisUpdate (deviceId : Bytes) (state : DeviceHotState)
  | upsertReported (deviceId reportedJson : Bytes)
  deriving DecidableEq, Repr

/-- What the calls made for one message return, if they are made : `CheckRateLimit`,
`PublishSync`, `stream->Write`, the two readings of `NowUnixNs` in the heartbeat, and
the table `LoadDesiredConfigs` reads. -/
structure Answers where
  rateOk : Bool := true
  published : Bool := true
  wrote : Bool := true
  redisNow : ℤ := 0
  shadowNow : ℤ := 0
  desired : Bytes → Option ConfigUpdate := fun _ => none

/-- `GatewayIntegrations` : which of the integrations are configured. -/
structure Integrations where
  kafka : Bool
  redis : Bool
  shadowStore : Bool
  desiredConfigs : Bool
  deriving DecidableEq, Repr

/-! ## The stream -/

/-- The variables of `Connect`. -/
structure Stream where
  deviceId : Bytes := []
  tenantId : Bytes := []
  lastSeq : UInt64 := 0
  received : UInt64 := 0
  duplicates : UInt64 := 0
  gapEvents : UInt64 := 0
  rateLimited : UInt64 := 0
  durableResume : Bool := true
  awaitingResync : Bool := false
  kafkaPublished : UInt64 := 0
  kafkaFailed : UInt64 := 0
  deriving DecidableEq, Repr

/-- What one message does. -/
structure Outcome where
  stream : Stream
  calls : List Call := []
  sent : Option GatewayMessage := none
  status : Option Status := none
  deriving DecidableEq, Repr

/-- The common name that the claimed identity should have. -/
def expectedCn (h : Hello) : Bytes :=
  if h.tenantId = [] then h.deviceId else h.tenantId ++ ascii ":" ++ h.deviceId

namespace Stream

/-- The key of the bucket the stream's detections are charged to. -/
def rateKey (s : Stream) : Bytes :=
  if s.tenantId = [] then ascii "device:" ++ s.deviceId else ascii "tenant:" ++ s.tenantId

/-- The case `kHello`. `certCn` is the common name of the client certificate; a plaintext
connection has none. -/
def onHello (certCn : Option Bytes) (s : Stream) (h : Hello) : Outcome :=
  if h.deviceId = [] then
    { stream := s, status := some ⟨.invalidArgument, "hello.device_id is required"⟩ }
  else if certCn.any (· ≠ expectedCn h) then
    { stream := s, status := some ⟨.permissionDenied,
        "claimed identity does not match client certificate"⟩ }
  else
    { stream := { s with
        deviceId := h.deviceId
        tenantId := h.tenantId
        lastSeq := h.lastAckedSeq
        durableResume := h.durableResume
        awaitingResync := !h.durableResume } }

/-- The end of the case `kDetection` for a detection that is accepted : the gap against
the last seq is counted, unless the stream is waiting for a new baseline. -/
def accept (s : Stream) (d : DetectionEvent) : Stream :=
  { s with
    awaitingResync := false
    gapEvents :=
      if s.awaitingResync then s.gapEvents
      else if d.seq ≠ s.lastSeq + 1 then s.gapEvents + (d.seq - s.lastSeq - 1)
      else s.gapEvents
    lastSeq := d.seq
    received := s.received + 1 }

/-- The write of an ack, at the end of the case `kDetection`. -/
def writeAck (s : Stream) (calls : List Call) (ans : Answers) : Outcome :=
  { stream := s
    calls := calls
    sent := some (.ack s.lastSeq)
    status := if ans.wrote then none else some ⟨.unavailable, "failed to write ack"⟩ }

/-- The case `kDetection`. -/
def onDetection (g : Integrations) (s : Stream) (d : DetectionEvent) (ans : Answers) : Outcome :=
  if s.deviceId = [] then
    { stream := s, status := some ⟨.failedPrecondition, "hello must be first"⟩ }
  else if d.seq ≤ s.lastSeq then
    writeAck { s with duplicates := s.duplicates + 1 } [] ans
  else if !ans.rateOk then
    { stream := { s with rateLimited := s.rateLimited + 1 }, calls := [.checkRateLimit s.rateKey] }
  else if g.kafka then
    let calls := [.checkRateLimit s.rateKey, .publishSync s.deviceId d]
    if ans.published then
      writeAck (accept { s with kafkaPublished := s.kafkaPublished + 1 } d) calls ans
    else { stream := { s with kafkaFailed := s.kafkaFailed + 1 }, calls := calls }
  else writeAck (accept s d) [.checkRateLimit s.rateKey] ans

/-- The JSON text of a heartbeat's report. -/
def reportedJson (hb : Heartbeat) (now : ℤ) : Bytes :=
  ascii "\x7b\"frames_dropped\":" ++ decimal hb.framesDropped.toNat ++
    ascii ",\"last_seen_unix_ns\":" ++ decimalInt now ++
      ascii ",\"queue_depth\":" ++ decimal hb.queueDepth.toNat ++ ascii "\x7d"

/-- The update a heartbeat is answered with, if its version is behind the desired one. -/
def configPush (g : Integrations) (s : Stream) (hb : Heartbeat) (ans : Answers) :
    Option ConfigUpdate :=
  if g.desiredConfigs then
    (ans.desired s.deviceId).filter fun update => update.version > hb.appliedConfigVersion
  else none

/-- The case `kHeartbeat`. -/
def onHeartbeat (g : Integrations) (s : Stream) (hb : Heartbeat) (ans : Answers) : Outcome :=
  if s.deviceId = [] then
    { stream := s, status := some ⟨.failedPrecondition, "hello must be first"⟩ }
  else
    let push := configPush g s hb ans
    { stream := s
      calls :=
        (if g.redis then
          [.redisUpdate s.deviceId ⟨ans.redisNow, hb.queueDepth, hb.framesDropped⟩]
        else []) ++
        if g.shadowStore then [.upsertReported s.deviceId (reportedJson hb ans.shadowNow)] else []
      sent := push.map .config
      status :=
        if push.isSome ∧ ans.wrote = false then
          some ⟨.unavailable, "failed to write config update"⟩
        else none }

/-- The body of the loop of `Connect`. -/
def onMessage (g : Integrations) (certCn : Option Bytes) (s : Stream) (msg : AgentMessage)
    (ans : Answers) : Outcome :=
  match msg with
  | .hello h => s.onHello certCn h
  | .detection d => s.onDetection g d ans
  | .heartbeat hb => s.onHeartbeat g hb ans
  | .notSet => { stream := s, status := some ⟨.invalidArgument, "empty AgentMessage"⟩ }

/-- The events `Connect` reports as lost when the stream ends. -/
def attributedLost (s : Stream) : UInt64 :=
  if s.gapEvents > s.rateLimited then s.gapEvents - s.rateLimited else 0

/-! ## What a Hello does -/

/-- A Hello is accepted if it names a device and the certificate, if there is one, has
the common name that the claimed identity should have. -/
theorem status_onHello_iff {certCn : Option Bytes} {s : Stream} {h : Hello} :
    (s.onHello certCn h).status = none ↔ h.deviceId ≠ [] ∧ ∀ cn ∈ certCn, cn = expectedCn h := by
  unfold onHello
  split_ifs with hdev hcn
  · simp [hdev]
  · simp only [false_iff, not_and, not_forall]
    intro _
    obtain ⟨cn, rfl, hne⟩ := (Option.any_eq_true _ _).1 hcn
    exact ⟨cn, rfl, of_decide_eq_true hne⟩
  · refine iff_of_true rfl ⟨hdev, fun cn hmem => ?_⟩
    by_contra hne
    exact hcn ((Option.any_eq_true _ _).2 ⟨cn, hmem, decide_eq_true hne⟩)

theorem stream_onHello {certCn : Option Bytes} {s : Stream} {h : Hello}
    (hok : (s.onHello certCn h).status = none) : (s.onHello certCn h).stream =
      { s with
        deviceId := h.deviceId
        tenantId := h.tenantId
        lastSeq := h.lastAckedSeq
        durableResume := h.durableResume
        awaitingResync := !h.durableResume } := by
  unfold onHello at hok ⊢
  split_ifs at hok ⊢
  rfl

/-- A Hello is not answered, and changes no counter. -/
theorem onHello_quiet (certCn : Option Bytes) (s : Stream) (h : Hello) :
    (s.onHello certCn h).sent = none ∧ (s.onHello certCn h).stream.gapEvents = s.gapEvents ∧
      (s.onHello certCn h).stream.duplicates = s.duplicates := by
  unfold onHello
  split_ifs <;> exact ⟨rfl, rfl, rfl⟩

/-- A heartbeat is not answered with an ack, and changes no variable. -/
theorem sent_onHeartbeat_ne (g : Integrations) (s : Stream) (hb : Heartbeat) (ans : Answers)
    (n : UInt64) : (s.onHeartbeat g hb ans).sent ≠ some (.ack n) := by
  unfold onHeartbeat
  split_ifs <;> simp

theorem stream_onHeartbeat (g : Integrations) (s : Stream) (hb : Heartbeat) (ans : Answers) :
    (s.onHeartbeat g hb ans).stream = s := by
  unfold onHeartbeat
  split_ifs <;> rfl

/-! ## What a detection does -/

/-- The verdict a detection gets if it is not a duplicate : the rate limiter lets it pass,
and the publish is confirmed where Kafka is configured. -/
def passes (g : Integrations) (ans : Answers) : Bool :=
  ans.rateOk && (!g.kafka || ans.published)

/-- The detection has passed the rate limiter, and its publish is confirmed where Kafka
is configured. -/
def Accepts (g : Integrations) (s : Stream) (d : DetectionEvent) (ans : Answers) : Prop :=
  let calls := (s.onDetection g d ans).calls
  .checkRateLimit s.rateKey ∈ calls ∧ ans.rateOk ∧
    (g.kafka → .publishSync s.deviceId d ∈ calls ∧ ans.published)

instance (g : Integrations) (s : Stream) (d : DetectionEvent) (ans : Answers) :
    Decidable (s.Accepts g d ans) :=
  inferInstanceAs (Decidable (_ ∧ _ ∧ (_ → _)))

variable (g : Integrations) {s : Stream} (d : DetectionEvent) (ans : Answers)

/-- The four ends of the case `kDetection` after a Hello. -/
theorem onDetection_cases (hdev : s.deviceId ≠ []) :
    (d.seq ≤ s.lastSeq ∧
      s.onDetection g d ans = writeAck { s with duplicates := s.duplicates + 1 } [] ans) ∨
    (s.lastSeq < d.seq ∧ ans.rateOk = false ∧ s.onDetection g d ans =
      { stream := { s with rateLimited := s.rateLimited + 1 },
        calls := [.checkRateLimit s.rateKey] }) ∨
    (s.lastSeq < d.seq ∧ ans.rateOk ∧ g.kafka ∧ ans.published = false ∧ s.onDetection g d ans =
      { stream := { s with kafkaFailed := s.kafkaFailed + 1 },
        calls := [.checkRateLimit s.rateKey, .publishSync s.deviceId d] }) ∨
    (s.lastSeq < d.seq ∧ passes g ans ∧ ∃ n calls, .checkRateLimit s.rateKey ∈ calls ∧
      (g.kafka → .publishSync s.deviceId d ∈ calls) ∧
        s.onDetection g d ans = writeAck (accept { s with kafkaPublished := n } d) calls ans) := by
  rw [onDetection, if_neg hdev]
  by_cases hle : d.seq ≤ s.lastSeq
  · exact .inl ⟨hle, if_pos hle⟩
  rw [if_neg hle]
  have hlt := not_le.1 hle
  cases hrate : ans.rateOk with
  | false => exact .inr (.inl ⟨hlt, rfl, by simp⟩)
  | true =>
    cases hkafka : g.kafka with
    | false =>
      refine .inr (.inr (.inr ⟨hlt, by simp [passes, hrate, hkafka], s.kafkaPublished,
        [.checkRateLimit s.rateKey], by simp, nofun, by simp⟩))
    | true =>
      cases hpub : ans.published with
      | false => exact .inr (.inr (.inl ⟨hlt, rfl, rfl, rfl, by simp⟩))
      | true =>
        exact .inr (.inr (.inr ⟨hlt, by simp [passes, hrate, hpub], s.kafkaPublished + 1,
          [.checkRateLimit s.rateKey, .publishSync s.deviceId d], by simp, by simp, by simp⟩))

/-- A detection is accepted exactly when it is above the last seq and passes. -/
theorem accepts_iff (hdev : s.deviceId ≠ []) :
    s.Accepts g d ans ↔ s.lastSeq < d.seq ∧ passes g ans := by
  rcases onDetection_cases g d ans hdev with ⟨hle, heq⟩ | ⟨-, hrate, -⟩ |
    ⟨-, hrate, hkafka, hpub, -⟩ | ⟨hlt, hpass, n, calls, hcheck, hpublish, heq⟩
  · simp [Accepts, heq, writeAck, not_lt.2 hle]
  · simp [Accepts, passes, hrate]
  · simp [Accepts, passes, hkafka, hpub]
  · have hverdict : ans.rateOk ∧ (g.kafka → ans.published) := by
      cases hk : g.kafka <;> simpa [passes, hk] using hpass
    refine iff_of_true ?_ ⟨hlt, hpass⟩
    rw [Accepts, heq]
    exact ⟨hcheck, hverdict.1, fun hk => ⟨hpublish hk, hverdict.2 hk⟩⟩

/-- A detection is answered unless it is above the last seq and does not pass, and the
answer acks the new last seq. -/
theorem sent_onDetection (hdev : s.deviceId ≠ []) : (s.onDetection g d ans).sent =
    if d.seq ≤ s.lastSeq ∨ passes g ans then some (.ack (s.onDetection g d ans).stream.lastSeq)
    else none := by
  rcases onDetection_cases g d ans hdev with ⟨hle, heq⟩ | ⟨hlt, hrate, heq⟩ |
    ⟨hlt, hrate, hkafka, hpub, heq⟩ | ⟨hlt, hpass, n, calls, -, -, heq⟩
  · simp [heq, writeAck, hle]
  · simp [heq, passes, hrate, not_le.2 hlt]
  · simp [heq, passes, hkafka, hpub, not_le.2 hlt]
  · simp [heq, writeAck, hpass]

/-- The last seq moves to an accepted detection's. -/
theorem lastSeq_onDetection (hdev : s.deviceId ≠ []) : (s.onDetection g d ans).stream.lastSeq =
    if d.seq ≤ s.lastSeq then s.lastSeq else if passes g ans then d.seq else s.lastSeq := by
  rcases onDetection_cases g d ans hdev with ⟨hle, heq⟩ | ⟨hlt, hrate, heq⟩ |
    ⟨hlt, hrate, hkafka, hpub, heq⟩ | ⟨hlt, hpass, n, calls, -, -, heq⟩
  · simp [heq, writeAck, hle]
  · simp [heq, passes, hrate]
  · simp [heq, passes, hkafka, hpub]
  · simp [heq, writeAck, accept, hpass, not_le.2 hlt]

theorem deviceId_onDetection : (s.onDetection g d ans).stream.deviceId = s.deviceId := by
  unfold onDetection
  split_ifs <;> rfl

theorem tenantId_onDetection : (s.onDetection g d ans).stream.tenantId = s.tenantId := by
  unfold onDetection
  split_ifs <;> rfl

end Stream

/-! ## Whom a detection is charged to -/

/-- Whom a detection is charged to. -/
inductive Principal
  | tenant (tenantId : Bytes)
  | device (deviceId : Bytes)
  deriving DecidableEq, Repr

/-- The text that `rate_key` is built of. -/
def Principal.key : Principal → Bytes
  | .tenant tenantId => ascii "tenant:" ++ tenantId
  | .device deviceId => ascii "device:" ++ deviceId

/-- The tenant of the stream, or its device if it has no tenant. -/
def Stream.principal (s : Stream) : Principal :=
  if s.tenantId = [] then .device s.deviceId else .tenant s.tenantId

theorem Stream.rateKey_eq (s : Stream) : s.rateKey = s.principal.key := by
  unfold rateKey principal
  split_ifs <;> rfl

theorem Principal.tenant_key_ne (tenantId deviceId : Bytes) :
    (Principal.tenant tenantId).key ≠ (Principal.device deviceId).key := by
  simp [key, ascii]

/-- Two principals never share a bucket. -/
theorem Principal.key_injective : Function.Injective Principal.key := by
  rintro (t | d) (t' | d') h
  · exact congrArg _ (List.append_cancel_left h)
  · exact absurd h (tenant_key_ne t d')
  · exact absurd h.symm (tenant_key_ne t' d)
  · exact congrArg _ (List.append_cancel_left h)

theorem Stream.tenantId_eq_of_principal {s s' : Stream} (h : s.principal = s'.principal) :
    s.tenantId = s'.tenantId := by
  unfold principal at h
  split_ifs at h with hs hs'
  · rw [hs, hs']
  · exact Principal.tenant.inj h

end Ridgeline
