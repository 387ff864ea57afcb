import Ridgeline.ResumeSafety
import Ridgeline.WalLifetimes

/-!
# An agent and its gateway over many lifetimes

The log of the agent (`Agent`), its outbox and connections (`Net`) and the streams of the
gateway in one system. The producer first appends an event to the log and then pushes it to
the outbox (`append`, `push`); the reader first pops the outbox and then records the ack in
the log (`deliver`, `acknowledge`). A crash ends the process between any two of these, or in
an `Append`, and the next lifetime fills its outbox from the log (`restarted`). The gateway
goes on reading what was in flight on the streams of earlier lifetimes.

Here the rate limiter and Kafka may refuse a detection, and the write of an ack may fail :
the calls that a message makes return anything (`Link.serve`). `Deployment.decisions` is what
the gateway decided, in order, on every detection that was no duplicate.

`Compact` is one step, so no `Append` overlaps it. In `main` they run in two threads without a
lock, and a `Compact` can drop an `Append` that it overlaps (`Ridgeline.WalThreads`), so what is
proved of a deployment is about the runs in which none does. A crash inside `Acknowledge` or
`Compact` is a crash before or after it (`Ridgeline.WalCrash`).
-/

namespace Ridgeline

/-- `SerializeAsString` and `ParseFromString` of `DetectionEvent`. -/
structure DetectionCodec where
  serialize : DetectionEvent → Bytes
  parse : Bytes → DetectionEvent
  parse_serialize : ∀ d, parse (serialize d) = d

/-- The record of an event in the log. -/
def DetectionCodec.record (codec : DetectionCodec) (d : DetectionEvent) : WalRecord :=
  ⟨d.seq, codec.serialize d⟩

/-- The decision of a stream on a detection. -/
structure Decision where
  stream : ℕ
  event : DetectionEvent
  ok : Bool
  deriving DecidableEq, Repr

namespace Link

variable (p : Peers) (l : Link)

/-- The detection of a message that is no duplicate, and whether it is accepted. -/
def decision (msg : AgentMessage) (ans : Answers) : Option (DetectionEvent × Bool) :=
  match msg with
  | .detection d =>
    if l.stream.deviceId ≠ [] ∧ l.stream.lastSeq < d.seq then
      some (d, l.stream.Accepts p.integrations d ans)
    else none
  | _ => none

/-- The gateway reads the next message of a stream, and the calls that it makes return what
`ans` says. -/
def serve (ans : Answers) : Option (Link × Option (DetectionEvent × Bool)) :=
  match l.closed, l.up with
  | false, msg :: rest =>
    let out := l.stream.onMessage p.integrations p.certCn msg ans
    some ({ l with
      stream := out.stream
      closed := out.status.isSome
      up := rest
      down := if out.status.isSome then l.down else l.down ++ out.sent.toList
      acks := l.acks ++ out.ackSeq.toList }, l.decision p msg ans)
  | _, _ => none

variable {p l} {l' : Link} {ans : Answers} {v : Option (DetectionEvent × Bool)}

theorem serve_iff : l.serve p ans = some (l', v) ↔
    l.closed = false ∧ ∃ msg rest, l.up = msg :: rest ∧ v = l.decision p msg ans ∧
      l' = { l with
        stream := (l.stream.onMessage p.integrations p.certCn msg ans).stream
        closed := (l.stream.onMessage p.integrations p.certCn msg ans).status.isSome
        up := rest
        down :=
          if (l.stream.onMessage p.integrations p.certCn msg ans).status.isSome then l.down
          else l.down ++ (l.stream.onMessage p.integrations p.certCn msg ans).sent.toList
        acks := l.acks ++ (l.stream.onMessage p.integrations p.certCn msg ans).ackSeq.toList } := by
  unfold serve
  cases hopen : l.closed with
  | true => simp
  | false =>
    cases hup : l.up with
    | nil => simp
    | cons msg rest =>
      simp only [Option.some.injEq, Prod.mk.injEq, List.cons.injEq, true_and]
      constructor
      · rintro ⟨rfl, rfl⟩
        exact ⟨msg, rest, ⟨rfl, rfl⟩, rfl, rfl⟩
      · rintro ⟨_, _, ⟨rfl, rfl⟩, rfl, rfl⟩
        exact ⟨rfl, rfl⟩

end Link

/-- The gateway lets the agent in. -/
def Peers.Admits (p : Peers) : Prop :=
  p.deviceId ≠ [] ∧ ∀ cn ∈ p.certCn, cn = expectedCn ⟨p.deviceId, 0, true, p.tenantId⟩

/-- The first message of a stream, from an agent that is let in. -/
theorem Link.serve_hello {p : Peers} (hp : p.Admits) (lastAcked : UInt64) (ans : Answers) :
    Link.serve p { up := [.hello ⟨p.deviceId, lastAcked, true, p.tenantId⟩] } ans =
      some ({ stream := { deviceId := p.deviceId, tenantId := p.tenantId, lastSeq := lastAcked } },
        none) := by
  have hadmitted : ({} : Stream).onHello p.certCn ⟨p.deviceId, lastAcked, true, p.tenantId⟩ =
      { stream := { deviceId := p.deviceId, tenantId := p.tenantId, lastSeq := lastAcked } } := by
    have hstatus : (({} : Stream).onHello p.certCn
        ⟨p.deviceId, lastAcked, true, p.tenantId⟩).status = none := Stream.status_onHello_iff.2 hp
    unfold Stream.onHello at hstatus ⊢
    split_ifs at hstatus ⊢
    rfl
  simp only [serve, Stream.onMessage, hadmitted]
  rfl

/-- The agent's log, its outbox and connections with the gateway's streams, the event that is
in the log and not yet in the outbox, and the decisions of the gateway. The streams are
numbered in the order of their connections. -/
structure Deployment where
  agent : Agent
  net : Net
  appended : Option DetectionEvent := none
  decisions : List Decision := []
  deriving DecidableEq, Repr

/-- A step of the producer or the send loop on the log, a step on a connection, or a crash
with the next start. Of what the agent wrote to its connection the gateway gets a prefix. -/
inductive DeployAct
  | append (body : Bytes)
  | push
  | compact
  | net (a : NetAct)
  | crash (up : ℕ)
  | crashInAppend (body : Bytes) (k up : ℕ)

namespace Deployment

variable (p : Peers) (codec : DetectionCodec)

/-- The first lifetime, on files that do not exist yet. -/
def init : Deployment :=
  { agent := .init, net := .start [] Agent.init.wal.lastAckedSeq Agent.init.nextSeq }

/-- The events whose `Append` has returned in any lifetime. -/
def committed (s : Deployment) : List DetectionEvent :=
  s.agent.committed.map fun r => codec.parse r.payload

/-- The stream `i` has decided on a detection. -/
def judge (s : Deployment) (net : Net) (i : ℕ) (v : Option (DetectionEvent × Bool)) :
    Deployment :=
  { s with
    net := { net with accepted := net.accepted ++ (v.toList.filter Prod.snd).map Prod.fst }
    decisions := s.decisions ++ v.toList.map fun x => ⟨i, x.1, x.2⟩ }

/-- A step of the send loop, the reader, the network or the gateway. -/
def netStep (s : Deployment) : NetAct → Option Deployment
  | .emit _ => none
  | .read ans => s.net.conn.bind fun c => (c.link.serve p ans).map fun (l, v) =>
      s.judge { s.net with conn := some { c with link := l } } s.net.old.length v
  | .readOld i ans => s.net.old[i]?.bind fun l => (l.serve p ans).map fun (l', v) =>
      s.judge { s.net with old := s.net.old.set i l' } i v
  | .acknowledge => s.net.conn.bind fun c => c.pendingAck.bind fun n =>
      (s.net.acknowledge c).bind fun net =>
        (s.agent.step (.acknowledge n)).map fun agent => { s with net, agent }
  | a => (s.net.step p a).map fun net => { s with net }

/-- The start of `main` after a crash : the outbox is what was replayed. The events that the
checkpoint covers count as popped. -/
def restarted (s : Deployment) (agent : Agent) (up : ℕ) : Deployment :=
  { s with
    agent
    appended := none
    net :=
      { outbox := agent.replayed.map fun r => codec.parse r.payload
        lastAcked := agent.wal.lastAckedSeq
        nextSeq := agent.nextSeq
        old := s.net.old ++ (s.net.conn.map fun c => (c.lose up 0).link).toList
        left := (agent.committed.filter fun r => r.seq ≤ agent.wal.lastAckedSeq).map fun r =>
          codec.parse r.payload
        accepted := s.net.accepted } }

/-- One step. `Compact` is a single one, so no `Append` overlaps it. -/
def step (s : Deployment) : DeployAct → Option Deployment
  | .append body =>
    match s.appended with
    | none =>
      let d : DetectionEvent := ⟨s.net.nextSeq, body⟩
      (s.agent.step (.append (codec.serialize d))).map fun agent =>
        { s with agent, appended := some d }
    | some _ => none
  | .push => s.appended.map fun d => { s with net := s.net.emit d.body, appended := none }
  | .compact => (s.agent.step .compact).map fun agent => { s with agent }
  | .net a => s.netStep p a
  | .crash up => (s.agent.step .crash).map fun agent => s.restarted codec agent up
  | .crashInAppend body k up =>
    match s.appended with
    | none =>
      (s.agent.step (.crashInAppend (codec.serialize ⟨s.net.nextSeq, body⟩) k)).map fun agent =>
        s.restarted codec agent up
    | some _ => none

/-- Every `Append` finds a file that ends where its last record does, and a `next_seq` that has
not wrapped, as in `Agent.AppendsClean`. -/
def AppendsClean (s : Deployment) : DeployAct → Prop
  | .append _ | .crashInAppend _ _ _ => s.agent.wal.Clean ∧ s.agent.nextSeq ≠ 0
  | _ => True

instance (s : Deployment) : ∀ a, Decidable (s.AppendsClean a)
  | .append _ | .crashInAppend _ _ _ => inferInstanceAs (Decidable (_ ∧ _ ≠ _))
  | .push | .compact | .net _ | .crash _ => .isTrue trivial

end Deployment

end Ridgeline
