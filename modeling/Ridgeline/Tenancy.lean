import Ridgeline.Ingest
import Ridgeline.ShadowStore
import Ridgeline.TokenBucket
import Ridgeline.Transition

/-!
# Two tenants at one gateway

The state that the streams of a gateway share : the buckets of the rate limiter, the
hashes in Redis and the items in the shadow table. Each is found by a key, which a
stream makes of its identity. The key of a bucket has the tenant if there is one; the key
of the hash and of the item have only the device.

So what the gateway keeps for one identity does not depend on the messages of another
exactly when their devices have different keys in the stores that are configured
(`noninterfering_iff`). Two tenants that have a device of the same name share both
(`same_device_interferes`).
-/

namespace Ridgeline

/-- The identity that a Hello has claimed. -/
structure Identity where
  tenantId : Bytes
  deviceId : Bytes
  deviceId_ne : deviceId ≠ []

/-- The messages that a stream sends after its Hello. -/
inductive Report
  | detection (d : DetectionEvent)
  | heartbeat (hb : Heartbeat)
  deriving DecidableEq, Repr

/-- The message. -/
def Report.message : Report → AgentMessage
  | .detection d => .detection d
  | .heartbeat hb => .heartbeat hb

/-- What a C function sees of a string : the bytes before the first 0. -/
def cString (bs : Bytes) : Bytes :=
  bs.takeWhile (· ≠ 0)

/-- The key that `RedisHotStateStore::Update` passes as `%s`. -/
def redisKey (deviceId : Bytes) : Bytes :=
  cString (ascii "device:" ++ deviceId)

/-- `rate_limiters_`, the hashes in Redis by key, and the shadow table by device. -/
structure Stores where
  buckets : RateLimiters
  redis : Bytes → Option DeviceHotState
  shadow : Bytes → Option Item

/-- The integrations, with the rate limits and the shadow table. -/
structure GatewayConfig where
  integrations : Integrations
  limits : RateLimits
  table : ShadowTable

/-- What the clock, Kafka, the network and the desired configs are while a message is
handled. A stream whose write fails has no more messages, so writes succeed. -/
structure Env where
  now : RateClock := ⟨0, 0⟩
  published : Bool := true
  redisNow : ℤ := 0
  redisApplied : Bool := true
  shadowNow : ℤ := 0
  fates : List Fate := []
  desired : Bytes → Option ConfigUpdate := fun _ => none

namespace Stores

/-- What the calls of a message return. -/
def answers (cfg : GatewayConfig) (env : Env) (st : Stores) (s : Stream) : Answers where
  rateOk := (checkRateLimit cfg.limits env.now s.rateKey st.buckets).1
  published := env.published
  redisNow := env.redisNow
  shadowNow := env.shadowNow
  desired := env.desired

/-- What a call does to the stores. The shadow item is upserted while no one else uses it. -/
def call (cfg : GatewayConfig) (env : Env) (st : Stores) : Call → Stores
  | .checkRateLimit key =>
    { st with buckets := (checkRateLimit cfg.limits env.now key st.buckets).2 }
  | .publishSync _ _ => st
  | .redisUpdate deviceId state =>
    if env.redisApplied then
      { st with redis := Function.update st.redis (redisKey deviceId) (some state) }
    else st
  | .upsertReported deviceId json =>
    { st with
      shadow := Function.update st.shadow deviceId
        (upsertReportedWithRetry cfg.table deviceId json env.fates (st.shadow deviceId)) }

end Stores

/-- One of the two streams. -/
inductive Peer
  | first
  | second
  deriving DecidableEq, Repr

/-- A message that the gateway reads. -/
structure Incoming where
  peer : Peer
  report : Report
  env : Env := {}

/-- The shared stores and the variables of the two streams. -/
structure Gateway where
  stores : Stores
  streams : Peer → Stream

namespace Gateway

variable (cfg : GatewayConfig)

/-- The gateway handles a message. -/
def step (g : Gateway) (m : Incoming) : Option Gateway :=
  let s := g.streams m.peer
  let out := s.onMessage cfg.integrations none m.report.message (g.stores.answers cfg m.env s)
  if out.status.isSome then none
  else some
    { stores := out.calls.foldl (Stores.call cfg m.env) g.stores
      streams := Function.update g.streams m.peer out.stream }

end Gateway

/-- The stream has accepted a Hello of the identity. -/
def Stream.SpeaksFor (s : Stream) (p : Identity) : Prop :=
  s.tenantId = p.tenantId ∧ s.deviceId = p.deviceId

/-- The bucket of the identity. -/
def Identity.rateKey (p : Identity) : Bytes :=
  Stream.rateKey { deviceId := p.deviceId, tenantId := p.tenantId }

/-- The stores hold the same for `p` : its hash, its shadow item, and its bucket if `q` is
of another tenant. -/
structure Stores.SameFor (p q : Identity) (st st' : Stores) : Prop where
  redis : st.redis (redisKey p.deviceId) = st'.redis (redisKey p.deviceId)
  shadow : st.shadow p.deviceId = st'.shadow p.deviceId
  bucket : p.tenantId ≠ q.tenantId → st.buckets p.rateKey = st'.buckets p.rateKey

/-- Whatever the stores hold, and in whatever way messages of the two streams are
interleaved, the stores hold for `p` what they would hold without the messages of `q`. -/
def Noninterfering (cfg : GatewayConfig) (p q : Identity) : Prop :=
  ∀ g : Gateway, (g.streams .first).SpeaksFor p → (g.streams .second).SpeaksFor q →
    ∀ ms : List Incoming, ∃ t t', exec (Gateway.step cfg) g ms = some t ∧
      exec (Gateway.step cfg) g (ms.filter (·.peer = .first)) = some t' ∧
        t.stores.SameFor p q t'.stores

/-! ## What a message does to the stores -/

variable {cfg : GatewayConfig} {env : Env}

theorem Stream.SpeaksFor.rateKey_eq {s : Stream} {p : Identity} (h : s.SpeaksFor p) :
    s.rateKey = p.rateKey := by
  rw [Identity.rateKey, Stream.rateKey, Stream.rateKey, h.1, h.2]

/-- Identities of different tenants have different buckets. -/
theorem Identity.rateKey_ne {p q : Identity} (h : p.tenantId ≠ q.tenantId) :
    p.rateKey ≠ q.rateKey := by
  rw [Identity.rateKey, Identity.rateKey, Stream.rateKey_eq, Stream.rateKey_eq]
  exact Principal.key_injective.ne fun heq => h (Stream.tenantId_eq_of_principal heq)

/-- A heartbeat sets the hash and upserts the item, where they are configured. -/
theorem foldl_onHeartbeat {s : Stream} (hdev : s.deviceId ≠ []) (hb : Heartbeat) (ans : Answers)
    (st : Stores) :
    (s.onHeartbeat cfg.integrations hb ans).calls.foldl (Stores.call cfg env) st =
      { st with
        redis :=
          if cfg.integrations.redis ∧ env.redisApplied then
            Function.update st.redis (redisKey s.deviceId)
              (some ⟨ans.redisNow, hb.queueDepth, hb.framesDropped⟩)
          else st.redis
        shadow :=
          if cfg.integrations.shadowStore then
            Function.update st.shadow s.deviceId (upsertReportedWithRetry cfg.table s.deviceId
              (Stream.reportedJson hb ans.shadowNow) env.fates (st.shadow s.deviceId))
          else st.shadow } := by
  cases hr : cfg.integrations.redis <;> cases hs : cfg.integrations.shadowStore <;>
    cases ha : env.redisApplied <;> simp [Stream.onHeartbeat, hdev, hr, hs, Stores.call, ha]

/-- A detection charges the bucket, if it gets as far. -/
theorem foldl_onDetection {s : Stream} (d : DetectionEvent) (ans : Answers) (st : Stores) :
    (s.onDetection cfg.integrations d ans).calls.foldl (Stores.call cfg env) st =
      if (s.onDetection cfg.integrations d ans).calls.isEmpty then st
      else { st with buckets := (checkRateLimit cfg.limits env.now s.rateKey st.buckets).2 } := by
  unfold Stream.onDetection
  split_ifs <;> simp_all [Stream.writeAck, Stores.call]

theorem status_onHeartbeat {g : Integrations} {s : Stream} (hdev : s.deviceId ≠ []) (hb : Heartbeat)
    {ans : Answers} (hwrote : ans.wrote = true) : (s.onHeartbeat g hb ans).status = none := by
  simp [Stream.onHeartbeat, hdev, hwrote]

theorem status_onDetection {g : Integrations} {s : Stream} (hdev : s.deviceId ≠ [])
    (d : DetectionEvent) {ans : Answers} (hwrote : ans.wrote = true) :
    (s.onDetection g d ans).status = none := by
  rcases Stream.onDetection_cases g d ans hdev with ⟨-, heq⟩ | ⟨-, -, heq⟩ | ⟨-, -, -, -, heq⟩ |
    ⟨-, -, n, calls, -, -, heq⟩ <;> simp [heq, Stream.writeAck, hwrote]

namespace Gateway

variable {g g' t t' : Gateway} {peer : Peer}

/-- What a heartbeat of the identity `r` leaves in the stores. -/
def heartbeatStores (cfg : GatewayConfig) (env : Env) (hb : Heartbeat) (r : Identity)
    (st : Stores) : Stores :=
  { st with
    redis :=
      if cfg.integrations.redis ∧ env.redisApplied then
        Function.update st.redis (redisKey r.deviceId)
          (some ⟨env.redisNow, hb.queueDepth, hb.framesDropped⟩)
      else st.redis
    shadow :=
      if cfg.integrations.shadowStore then
        Function.update st.shadow r.deviceId (upsertReportedWithRetry cfg.table r.deviceId
          (Stream.reportedJson hb env.shadowNow) env.fates (st.shadow r.deviceId))
      else st.shadow }

theorem step_heartbeat {r : Identity} (hr : (g.streams peer).SpeaksFor r) (hb : Heartbeat) :
    g.step cfg ⟨peer, .heartbeat hb, env⟩ =
      some { g with stores := heartbeatStores cfg env hb r g.stores } := by
  have hdev : (g.streams peer).deviceId ≠ [] := hr.2 ▸ r.deviceId_ne
  simp only [step, Report.message, Stream.onMessage, status_onHeartbeat hdev,
    foldl_onHeartbeat hdev, Stream.stream_onHeartbeat, Function.update_eq_self, Stores.answers,
    hr.2, heartbeatStores, Option.isSome_none, Bool.false_eq_true, if_false]

/-- The outcome of a detection. -/
def detected (cfg : GatewayConfig) (env : Env) (d : DetectionEvent) (st : Stores) (s : Stream) :
    Outcome :=
  s.onDetection cfg.integrations d (st.answers cfg env s)

/-- What a detection of the identity `r` leaves in the stores. -/
def detectionStores (cfg : GatewayConfig) (env : Env) (d : DetectionEvent) (r : Identity)
    (st : Stores) (s : Stream) : Stores :=
  if (detected cfg env d st s).calls.isEmpty then st
  else { st with buckets := (checkRateLimit cfg.limits env.now r.rateKey st.buckets).2 }

theorem step_detection {r : Identity} (hr : (g.streams peer).SpeaksFor r) (d : DetectionEvent) :
    g.step cfg ⟨peer, .detection d, env⟩ = some
      { stores := detectionStores cfg env d r g.stores (g.streams peer)
        streams := Function.update g.streams peer
          (detected cfg env d g.stores (g.streams peer)).stream } := by
  have hdev : (g.streams peer).deviceId ≠ [] := hr.2 ▸ r.deviceId_ne
  simp only [step, Report.message, Stream.onMessage, foldl_onDetection, hr.rateKey_eq,
    status_onDetection hdev d (rfl : (g.stores.answers cfg env (g.streams peer)).wrote = true),
    Option.isSome_none, Bool.false_eq_true, if_false]
  rfl

section

variable (d : DetectionEvent) (r : Identity) (st : Stores) (s : Stream)

theorem redis_detectionStores : (detectionStores cfg env d r st s).redis = st.redis := by
  unfold detectionStores
  split_ifs <;> rfl

theorem shadow_detectionStores : (detectionStores cfg env d r st s).shadow = st.shadow := by
  unfold detectionStores
  split_ifs <;> rfl

theorem buckets_detectionStores {key : Bytes} (h : key ≠ r.rateKey) :
    (detectionStores cfg env d r st s).buckets key = st.buckets key := by
  unfold detectionStores
  split_ifs
  · rfl
  · exact checkRateLimit_of_ne _ _ h

end

/-- What becomes of a detection depends on the stream and its bucket only. -/
theorem detected_congr {d : DetectionEvent} {r : Identity} {st st' : Stores} {s : Stream}
    (hr : s.SpeaksFor r) (h : st.buckets r.rateKey = st'.buckets r.rateKey) :
    detected cfg env d st s = detected cfg env d st' s ∧
      (detectionStores cfg env d r st s).buckets r.rateKey =
        (detectionStores cfg env d r st' s).buckets r.rateKey := by
  obtain ⟨hok, hbucket⟩ := checkRateLimit_congr cfg.limits env.now h
  have hdetected : detected cfg env d st s = detected cfg env d st' s := by
    simp only [detected, Stores.answers, hr.rateKey_eq, hok]
  refine ⟨hdetected, ?_⟩
  simp only [detectionStores, hdetected]
  split_ifs
  · exact h
  · exact hbucket

theorem speaksFor_detected {st : Stores} {s : Stream} {r : Identity} (hr : s.SpeaksFor r)
    (d : DetectionEvent) : (detected cfg env d st s).stream.SpeaksFor r :=
  ⟨(Stream.tenantId_onDetection ..).trans hr.1, (Stream.deviceId_onDetection ..).trans hr.2⟩

/-- The streams speak for the two identities. -/
def Speak (p q : Identity) (g : Gateway) : Prop :=
  (g.streams .first).SpeaksFor p ∧ (g.streams .second).SpeaksFor q

theorem Speak.exists_speaksFor {p q : Identity} (h : g.Speak p q) (peer : Peer) :
    ∃ r, (g.streams peer).SpeaksFor r := by
  cases peer with
  | first => exact ⟨p, h.1⟩
  | second => exact ⟨q, h.2⟩

theorem Speak.update {p q : Identity} {s : Stream} (h : g.Speak p q)
    (hs : ∀ r, (g.streams peer).SpeaksFor r → s.SpeaksFor r) :
    ∀ st, Speak p q ⟨st, Function.update g.streams peer s⟩ := by
  intro st
  cases peer with
  | first => exact ⟨by simpa using hs p h.1, by simpa using h.2⟩
  | second => exact ⟨by simpa using h.1, by simpa using hs q h.2⟩

/-- No message ends a stream. -/
theorem exists_step {p q : Identity} (h : g.Speak p q) (m : Incoming) :
    ∃ t, g.step cfg m = some t ∧ t.Speak p q := by
  obtain ⟨peer, report, env⟩ := m
  obtain ⟨r, hr⟩ := h.exists_speaksFor peer
  cases report with
  | heartbeat hb => exact ⟨_, step_heartbeat hr hb, h⟩
  | detection d =>
    exact ⟨_, step_detection hr d, h.update (fun _ hr' => speaksFor_detected hr' d) _⟩

/-- The two gateways agree on what they keep for `p` : its stream has the same identity, and
the same variables if its bucket is not shared. -/
structure Agree (p q : Identity) (g g' : Gateway) : Prop where
  speak : g.Speak p q
  speak' : g'.Speak p q
  stores : g.stores.SameFor p q g'.stores
  stream : p.tenantId ≠ q.tenantId → g.streams .first = g'.streams .first

variable {p q : Identity}

/-- A message of `p` keeps the agreement. -/
theorem Agree.first {report : Report} (h : Agree p q g g')
    (ht : g.step cfg ⟨.first, report, env⟩ = some t)
    (ht' : g'.step cfg ⟨.first, report, env⟩ = some t') : Agree p q t t' := by
  cases report with
  | heartbeat hb =>
    rw [step_heartbeat h.speak.1, Option.some.injEq] at ht
    rw [step_heartbeat h.speak'.1, Option.some.injEq] at ht'
    subst ht ht'
    refine ⟨h.speak, h.speak', ⟨?_, ?_, h.stores.bucket⟩, h.stream⟩
    · simp only [heartbeatStores]
      split_ifs
      · simp
      · exact h.stores.redis
    · simp only [heartbeatStores]
      split_ifs
      · simp [h.stores.shadow]
      · exact h.stores.shadow
  | detection d =>
    rw [step_detection h.speak.1, Option.some.injEq] at ht
    rw [step_detection h.speak'.1, Option.some.injEq] at ht'
    subst ht ht'
    refine ⟨h.speak.update (fun _ hr => speaksFor_detected hr d) _,
      h.speak'.update (fun _ hr => speaksFor_detected hr d) _,
      ⟨?_, ?_, fun hne => ?_⟩, fun hne => ?_⟩
    · rw [redis_detectionStores, redis_detectionStores, h.stores.redis]
    · rw [shadow_detectionStores, shadow_detectionStores, h.stores.shadow]
    · rw [← h.stream hne]
      exact (detected_congr h.speak.1 (h.stores.bucket hne)).2
    · rw [← h.stream hne]
      simp [(detected_congr h.speak.1 (h.stores.bucket hne)).1]

/-- A message of `q` is not noticed, if the devices have different keys. -/
theorem Agree.second {report : Report} (h : Agree p q g g')
    (hredis : cfg.integrations.redis → redisKey p.deviceId ≠ redisKey q.deviceId)
    (hshadow : cfg.integrations.shadowStore → p.deviceId ≠ q.deviceId)
    (ht : g.step cfg ⟨.second, report, env⟩ = some t) : Agree p q t g' := by
  cases report with
  | heartbeat hb =>
    rw [step_heartbeat h.speak.2, Option.some.injEq] at ht
    subst ht
    refine ⟨h.speak, h.speak', ⟨?_, ?_, h.stores.bucket⟩, h.stream⟩
    · simp only [heartbeatStores]
      split_ifs with hset
      · rw [Function.update_of_ne (hredis hset.1), h.stores.redis]
      · exact h.stores.redis
    · simp only [heartbeatStores]
      split_ifs with hset
      · rw [Function.update_of_ne (hshadow hset), h.stores.shadow]
      · exact h.stores.shadow
  | detection d =>
    rw [step_detection h.speak.2, Option.some.injEq] at ht
    subst ht
    refine ⟨h.speak.update (fun _ hr => speaksFor_detected hr d) _, h.speak',
      ⟨?_, ?_, fun hne => ?_⟩, fun hne => ?_⟩
    · rw [redis_detectionStores, h.stores.redis]
    · rw [shadow_detectionStores, h.stores.shadow]
    · rw [buckets_detectionStores _ _ _ _ (Identity.rateKey_ne hne), h.stores.bucket hne]
    · simpa using h.stream hne

end Gateway

/-! ## Noninterference -/

variable {p q : Identity}

theorem noninterfering_of_keys
    (hredis : cfg.integrations.redis → redisKey p.deviceId ≠ redisKey q.deviceId)
    (hshadow : cfg.integrations.shadowStore → p.deviceId ≠ q.deviceId) :
    Noninterfering cfg p q := by
  intro g hp hq ms
  have hspeak : g.Speak p q := ⟨hp, hq⟩
  obtain ⟨t, ht⟩ : ∃ t, exec (Gateway.step cfg) g ms = some t :=
    exists_exec (fun _ m h => Gateway.exists_step h m) ms hspeak
  have hagree : Gateway.Agree p q g g := ⟨hspeak, hspeak, ⟨rfl, rfl, fun _ => rfl⟩, fun _ => rfl⟩
  obtain ⟨t', ht', hagree'⟩ := exec_purge (fun m : Incoming => m.peer = .first) (by
      rintro g ⟨peer, report, env⟩ t g' hagree hpeer ht
      cases of_decide_eq_true hpeer
      obtain ⟨t', ht', -⟩ := Gateway.exists_step hagree.speak' ⟨.first, report, env⟩
      exact ⟨t', ht', hagree.first ht ht'⟩) (by
      rintro g ⟨peer, report, env⟩ t g' hagree hpeer ht
      cases peer with
      | first => cases hpeer
      | second => exact hagree.second hredis hshadow ht) hagree ht
  exact ⟨t, t', ht, ht', hagree'.stores⟩

/-- Nothing is stored, and both streams have said Hello. -/
def freshGateway (p q : Identity) : Gateway where
  stores := ⟨fun _ => none, fun _ => none, fun _ => none⟩
  streams
    | .first => { deviceId := p.deviceId, tenantId := p.tenantId }
    | .second => { deviceId := q.deviceId, tenantId := q.tenantId }

/-- The run of one heartbeat of `q`. -/
theorem sameFor_heartbeat (h : Noninterfering cfg p q) : Stores.SameFor p q
    (Gateway.heartbeatStores cfg {} ⟨0, 0, 0⟩ q (freshGateway p q).stores)
    (freshGateway p q).stores := by
  have hq : ((freshGateway p q).streams .second).SpeaksFor q := ⟨rfl, rfl⟩
  obtain ⟨t, t', ht, ht', hsame⟩ := h (freshGateway p q) ⟨rfl, rfl⟩ hq
    [⟨.second, .heartbeat ⟨0, 0, 0⟩, {}⟩]
  obtain ⟨u, hu, ht⟩ := exec_cons_iff.1 ht
  rw [Gateway.step_heartbeat hq] at hu
  cases hu
  cases ht
  cases ht'
  exact hsame

theorem redisKey_ne_of_noninterfering (h : Noninterfering cfg p q)
    (hredis : cfg.integrations.redis) : redisKey p.deviceId ≠ redisKey q.deviceId := by
  intro heq
  have := (sameFor_heartbeat h).redis
  simp [Gateway.heartbeatStores, hredis, heq, freshGateway] at this

theorem deviceId_ne_of_noninterfering (h : Noninterfering cfg p q)
    (hshadow : cfg.integrations.shadowStore) : p.deviceId ≠ q.deviceId := by
  intro heq
  have := (sameFor_heartbeat h).shadow
  simp [Gateway.heartbeatStores, hshadow, heq, freshGateway, upsertReportedWithRetry_none] at this

/-- What the gateway keeps for `p` does not depend on the messages of `q` exactly when
their devices have different keys in Redis, if it is configured, and different items in the
shadow table, if it is configured. -/
theorem noninterfering_iff (cfg : GatewayConfig) (p q : Identity) : Noninterfering cfg p q ↔
    (cfg.integrations.redis → redisKey p.deviceId ≠ redisKey q.deviceId) ∧
      (cfg.integrations.shadowStore → p.deviceId ≠ q.deviceId) :=
  ⟨fun h => ⟨redisKey_ne_of_noninterfering h, deviceId_ne_of_noninterfering h⟩,
    fun ⟨hredis, hshadow⟩ => noninterfering_of_keys hredis hshadow⟩

/-- Two tenants have a camera of the same name. -/
theorem same_device_interferes : ¬ Noninterfering ⟨⟨false, true, true, false⟩, ⟨0, 0⟩, plainTable⟩
    ⟨ascii "tenant-a", ascii "cam-0001", by decide⟩
    ⟨ascii "tenant-b", ascii "cam-0001", by decide⟩ :=
  fun h => deviceId_ne_of_noninterfering h rfl rfl

end Ridgeline
