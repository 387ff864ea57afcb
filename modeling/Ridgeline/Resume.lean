import Ridgeline.Ingest
import Ridgeline.Transition

/-!
# The agent's connections

The agent's outbox and connection loop, composed with the gateway's streams over two FIFO
channels. The rate limiter lets everything pass and every publish succeeds.

The producer, the send loop and the reader of the stream are three threads : the outbox is
copied under its lock (`snapshot`), sent one event at a time, and popped by the reader,
which then records the ack in the log (`deliver`, `acknowledge`). A loss keeps a prefix of
each channel. The gateway may read what is left of a lost connection at any later time, so
its streams outlive the agent's connections (`Net.old`).
-/

namespace Ridgeline

/-- One stream : the gateway's variables, whether `Connect` has returned, the messages in
flight, the detections the agent wrote to it and the acks the gateway wrote. -/
structure Link where
  stream : Stream := {}
  closed : Bool := false
  up : List AgentMessage := []
  down : List GatewayMessage := []
  sent : List DetectionEvent := []
  acks : List UInt64 := []
  deriving DecidableEq, Repr

/-- Where the send loop of a connection is : before the first snapshot, in the resend of
the first snapshot, or in a pass of the loop. -/
inductive SendPhase
  | connected
  | resending
  | sending
  deriving DecidableEq, Repr

/-- A connection of the agent : the rest of the snapshot it sends, `last_sent_seq`, the
ack that is popped from the outbox and not yet in the log, and whether writes succeed. -/
structure Connection where
  phase : SendPhase := .connected
  todo : List DetectionEvent := []
  lastSentSeq : UInt64 := 0
  pendingAck : Option UInt64 := none
  ok : Bool := true
  link : Link
  deriving DecidableEq, Repr

/-- The agent and the gateway. `left` are the events popped from the outbox and `accepted`
those the gateway accepted on any stream. -/
structure Net where
  outbox : List DetectionEvent
  lastAcked : UInt64
  nextSeq : UInt64
  conn : Option Connection := none
  old : List Link := []
  left : List DetectionEvent := []
  accepted : List DetectionEvent := []
  deriving DecidableEq, Repr

/-- A step of the producer, the send loop, the reader, the network or the gateway. -/
inductive NetAct
  | emit (body : Bytes)
  | connect
  | snapshot
  | send
  | heartbeat (hb : Heartbeat)
  | deliver
  | acknowledge
  | lose (up down : ℕ)
  | read (ans : Answers)
  | readOld (i : ℕ) (ans : Answers)

/-- What the agent and the gateway are configured with. -/
structure Peers where
  integrations : Integrations
  certCn : Option Bytes
  deviceId : Bytes
  tenantId : Bytes
  deriving DecidableEq, Repr

/-- The seq a message is answered with, if it is answered with an ack. -/
def Outcome.ackSeq (out : Outcome) : Option UInt64 :=
  match out.sent with
  | some (.ack n) => some n
  | _ => none

namespace Link

variable (p : Peers) (l : Link)

/-- The calls a message makes return what `ans` says, but the rate limiter is off and
Kafka confirms every publish. -/
def answers (ans : Answers) : Answers :=
  { ans with rateOk := true, published := true }

/-- What the stream does on a message. -/
def outcome (msg : AgentMessage) (ans : Answers) : Outcome :=
  l.stream.onMessage p.integrations p.certCn msg (answers ans)

/-- The detection of a message that the stream accepts. -/
def acceptedOf (msg : AgentMessage) (ans : Answers) : List DetectionEvent :=
  match msg with
  | .detection d => if l.stream.Accepts p.integrations d (answers ans) then [d] else []
  | _ => []

/-- The gateway reads the next message of a stream, with the detections it accepts. -/
def read (ans : Answers) : Option (Link × List DetectionEvent) :=
  match l.closed, l.up with
  | false, msg :: rest =>
    let out := l.outcome p msg ans
    some ({ l with
      stream := out.stream
      closed := out.status.isSome
      up := rest
      down := if out.status.isSome then l.down else l.down ++ out.sent.toList
      acks := l.acks ++ out.ackSeq.toList }, l.acceptedOf p msg ans)
  | _, _ => none

end Link

/-- `Outbox::AckUpTo` : what is popped and what stays. -/
def ackUpTo (upToSeq : UInt64) (outbox : List DetectionEvent) :
    List DetectionEvent × List DetectionEvent :=
  outbox.span fun d => d.seq ≤ upToSeq

namespace Net

variable (p : Peers)

/-- The agent before its first connection. -/
def start (outbox : List DetectionEvent) (lastAcked nextSeq : UInt64) : Net :=
  { outbox, lastAcked, nextSeq }

/-- `emit` : the event is in the log and goes to the back of the outbox. -/
def emit (s : Net) (body : Bytes) : Net :=
  { s with
    outbox := s.outbox ++ [⟨s.nextSeq, body⟩]
    nextSeq := s.nextSeq + 1 }

/-- Open a stream and write the Hello, once the reader of the last connection has ended. -/
def connect (s : Net) : Option Net :=
  let hello : Hello := ⟨p.deviceId, s.lastAcked, true, p.tenantId⟩
  let fresh : Connection := { link := { up := [.hello hello] } }
  match s.conn with
  | none => some { s with conn := some fresh }
  | some c =>
    if c.ok = false ∧ c.pendingAck = none ∧ c.link.down = [] then
      some { s with conn := some fresh, old := s.old ++ [c.link] }
    else none

/-- Copy the outbox : once before the resend, and again whenever a pass is over. -/
def snapshot (s : Net) (c : Connection) : Option Connection :=
  match c.phase, c.todo with
  | .connected, _ => some { c with phase := .resending, todo := s.outbox }
  | _, [] => some { c with phase := .sending, todo := s.outbox }
  | _, _ :: _ => none

end Net

namespace Connection

/-- The next event of the snapshot. A pass of the loop skips what is at most
`last_sent_seq`; the resend skips nothing. -/
def send (c : Connection) : Option Connection :=
  match c.todo with
  | [] => none
  | d :: todo =>
    if c.phase = .sending ∧ d.seq ≤ c.lastSentSeq then some { c with todo := todo }
    else some { c with
      todo := todo
      lastSentSeq := max c.lastSentSeq d.seq
      link := { c.link with
        up := c.link.up ++ [.detection d]
        sent := c.link.sent ++ [d] } }

/-- A heartbeat, after a pass of the loop. -/
def heartbeat (c : Connection) (hb : Heartbeat) : Option Connection :=
  if c.phase = .sending ∧ c.todo = [] then
    some { c with link := { c.link with up := c.link.up ++ [.heartbeat hb] } }
  else none

/-- The connection is lost : a prefix of each channel is kept and writes fail. -/
def lose (c : Connection) (up down : ℕ) : Connection :=
  { c with
    ok := false
    link := { c.link with up := c.link.up.take up, down := c.link.down.take down } }

end Connection

namespace Net

variable (p : Peers)

/-- The reader takes the next message : for an ack it first pops the outbox. -/
def deliver (s : Net) (c : Connection) : Option Net :=
  match c.pendingAck, c.link.down with
  | none, .ack n :: down =>
    some { s with
      outbox := (ackUpTo n s.outbox).2
      left := s.left ++ (ackUpTo n s.outbox).1
      conn := some { c with pendingAck := some n, link := { c.link with down := down } } }
  | none, .config _ :: down =>
    some { s with conn := some { c with link := { c.link with down := down } } }
  | _, _ => none

/-- The reader records the ack in the log : `Wal::Acknowledge`. -/
def acknowledge (s : Net) (c : Connection) : Option Net :=
  c.pendingAck.map fun n =>
    { s with
      lastAcked := if n ≤ s.lastAcked then s.lastAcked else n
      conn := some { c with pendingAck := none } }

/-- The gateway reads on the current stream. -/
def read (s : Net) (c : Connection) (ans : Answers) : Option Net :=
  (c.link.read p ans).map fun (l, accepted) =>
    { s with conn := some { c with link := l }, accepted := s.accepted ++ accepted }

/-- The gateway reads on the stream of an earlier connection. -/
def readOld (s : Net) (i : ℕ) (ans : Answers) : Option Net :=
  s.old[i]?.bind fun l => (l.read p ans).map fun (l', accepted) =>
    { s with old := s.old.set i l', accepted := s.accepted ++ accepted }

/-- One step. The send loop only writes while writes succeed. -/
def step (s : Net) : NetAct → Option Net
  | .emit body => some (s.emit body)
  | .connect => s.connect p
  | .readOld i ans => s.readOld p i ans
  | .snapshot => s.conn.bind fun c =>
      if c.ok then (s.snapshot c).map fun c' => { s with conn := some c' } else none
  | .send => s.conn.bind fun c =>
      if c.ok then c.send.map fun c' => { s with conn := some c' } else none
  | .heartbeat hb => s.conn.bind fun c =>
      if c.ok then (c.heartbeat hb).map fun c' => { s with conn := some c' } else none
  | .deliver => s.conn.bind s.deliver
  | .acknowledge => s.conn.bind s.acknowledge
  | .lose up down => s.conn.map fun c => { s with conn := some (c.lose up down) }
  | .read ans => s.conn.bind fun c => s.read p c ans

/-! ## What the protocol is for -/

/-- The outbox holds exactly the seqs after `lastAcked` and before `nextSeq`, in order. -/
structure Ready (outbox : List DetectionEvent) (lastAcked nextSeq : UInt64) : Prop where
  seqs : outbox.map (fun d => d.seq.toNat) = List.range' (lastAcked.toNat + 1) outbox.length
  next : nextSeq = UInt64.ofNat (lastAcked.toNat + outbox.length + 1)

/-- The streams of all connections so far. -/
def links (s : Net) : List Link :=
  (s.conn.map Connection.link).toList ++ s.old

end Net

/-- The next detection the gateway reads on the stream carries exactly `last_seq + 1`, it
has counted no gap and no duplicate, and each of its acks is at most a seq sent on it. -/
structure Link.Exact (l : Link) : Prop where
  next : l.closed = false → ∀ d rest, l.up = .detection d :: rest →
    d.seq = l.stream.lastSeq + 1 ∧ l.stream.lastSeq < d.seq
  gapEvents : l.stream.gapEvents = 0
  duplicates : l.stream.duplicates = 0
  acks : ∀ n ∈ l.acks, ∃ d ∈ l.sent, n ≤ d.seq

/-- Every stream is exact, and what has left the outbox was accepted. -/
structure Net.Safe (s : Net) : Prop where
  links : ∀ l ∈ s.links, l.Exact
  left : ∀ d ∈ s.left, d ∈ s.accepted

/-- An event is emitted under a seq that has not wrapped. -/
def Net.Unwrapped (s : Net) : NetAct → Prop
  | .emit _ => s.nextSeq ≠ 0
  | _ => True

instance (s : Net) : ∀ a, Decidable (s.Unwrapped a)
  | .emit _ => inferInstanceAs (Decidable (_ ≠ _))
  | .connect | .snapshot | .send | .heartbeat _ | .deliver | .acknowledge | .lose _ _
  | .read _ | .readOld _ _ => .isTrue trivial

end Ridgeline
