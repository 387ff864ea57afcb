import Ridgeline.Deployment

/-!
# A stream beside one that refuses nothing

The agent sees of a stream only the acks it gets. So a connection to a gateway that refuses
detections is followed by the same connection to a stream that refuses nothing, with the
variables `st` : what the agent does changes both in the same way (`Net.step_withStream`), and
what the gateway reads is read by both (`Link.serve_follows`). The second stream acks more, and
the acks that the first does not write are taken away again. So what `Net.Inv` says of a
gateway without refusals can be said of the agent of any gateway.
-/

namespace Ridgeline

/-- The link with other variables of the stream and other acks. -/
def Link.withStream (l : Link) (stream : Stream) (acks : List UInt64) : Link :=
  { l with stream, acks }

/-- The connection with other variables of its stream and other acks. -/
def Connection.withStream (c : Connection) (stream : Stream) (acks : List UInt64) : Connection :=
  { c with link := c.link.withStream stream acks }

namespace Connection

variable (c : Connection) (st : Stream) (acks : List UInt64)

theorem send_withStream :
    (c.withStream st acks).send = c.send.map fun c' => c'.withStream st acks := by
  unfold send withStream
  cases c.todo with
  | nil => rfl
  | cons d todo => dsimp only; split_ifs <;> rfl

theorem heartbeat_withStream (hb : Heartbeat) :
    (c.withStream st acks).heartbeat hb = (c.heartbeat hb).map fun c' => c'.withStream st acks := by
  unfold heartbeat withStream
  dsimp only
  split_ifs <;> rfl

end Connection

namespace Net

/-- The agent with other variables of its stream, without the earlier streams. -/
def withStream (s : Net) (st : Stream) (acks : List UInt64) (accepted : List DetectionEvent) :
    Net :=
  { s with conn := s.conn.map fun c => c.withStream st acks, old := [], accepted }

variable {s : Net} {c : Connection} (st : Stream) (acks : List UInt64)
  (accepted : List DetectionEvent)

theorem snapshot_withStream :
    (s.withStream st acks accepted).snapshot (c.withStream st acks) =
      (s.snapshot c).map fun c' => c'.withStream st acks := by
  unfold snapshot Connection.withStream
  dsimp only
  split <;> rfl

theorem deliver_withStream (hc : s.conn = some c) :
    (s.withStream st acks accepted).deliver (c.withStream st acks) =
      (s.deliver c).map fun t => t.withStream st acks accepted := by
  unfold deliver
  dsimp only [Connection.withStream, Link.withStream]
  split <;> simp_all [withStream, Connection.withStream, Link.withStream]

theorem acknowledge_withStream :
    (s.withStream st acks accepted).acknowledge (c.withStream st acks) =
      (s.acknowledge c).map fun t => t.withStream st acks accepted := by
  unfold acknowledge
  rw [Option.map_map]
  rfl

/-- The steps of the agent on its connection. -/
def OnConnection : NetAct → Prop
  | .snapshot | .send | .heartbeat _ | .deliver | .acknowledge | .lose _ _ => True
  | _ => False

theorem conn_withStream (hc : s.conn = some c) :
    (s.withStream st acks accepted).conn = some (c.withStream st acks) := by
  rw [withStream, hc]
  rfl

/-- The agent does not see the variables of the stream. -/
theorem step_withStream {p : Peers} {a : NetAct} {t : Net} (ha : OnConnection a)
    (h : s.step p a = some t) :
    (s.withStream st acks accepted).step p a = some (t.withStream st acks accepted) := by
  cases a with
  | snapshot =>
    obtain ⟨c, hc, h⟩ := Option.bind_eq_some_iff.1 h
    split_ifs at h with hok
    obtain ⟨c', hc', rfl⟩ := Option.map_eq_some_iff.1 h
    have hsnap := snapshot_withStream (s := s) (c := c) st acks accepted
    rw [hc'] at hsnap
    rw [step, conn_withStream st acks accepted hc, Option.bind_some, if_pos (by exact hok), hsnap]
    rfl
  | send =>
    obtain ⟨c, hc, h⟩ := Option.bind_eq_some_iff.1 h
    split_ifs at h with hok
    obtain ⟨c', hc', rfl⟩ := Option.map_eq_some_iff.1 h
    rw [step, conn_withStream st acks accepted hc, Option.bind_some, if_pos (by exact hok),
      c.send_withStream, hc']
    rfl
  | heartbeat hb =>
    obtain ⟨c, hc, h⟩ := Option.bind_eq_some_iff.1 h
    split_ifs at h with hok
    obtain ⟨c', hc', rfl⟩ := Option.map_eq_some_iff.1 h
    rw [step, conn_withStream st acks accepted hc, Option.bind_some, if_pos (by exact hok),
      c.heartbeat_withStream, hc']
    rfl
  | deliver =>
    obtain ⟨c, hc, h⟩ := Option.bind_eq_some_iff.1 h
    rw [step, conn_withStream st acks accepted hc, Option.bind_some,
      deliver_withStream st acks accepted hc, h]
    rfl
  | acknowledge =>
    obtain ⟨c, hc, h⟩ := Option.bind_eq_some_iff.1 h
    rw [step, conn_withStream st acks accepted hc, Option.bind_some, acknowledge_withStream, h]
    rfl
  | lose up down =>
    obtain ⟨c, hc, rfl⟩ := Option.map_eq_some_iff.1 h
    rw [step, conn_withStream st acks accepted hc]
    rfl
  | emit | connect | read | readOld => exact ha.elim

/-- What a step of the agent on its connection leaves alone. -/
structure SameStream (s t : Net) (c c' : Connection) : Prop where
  before : s.conn = some c
  after : t.conn = some c'
  old : t.old = s.old
  accepted : t.accepted = s.accepted
  nextSeq : t.nextSeq = s.nextSeq
  events : t.events = s.events
  stream : c'.link.stream = c.link.stream
  hello : ∀ h, .hello h ∈ c'.link.up → .hello h ∈ c.link.up

theorem sameStream_of_step {p : Peers} {a : NetAct} {t : Net} (ha : OnConnection a)
    (h : s.step p a = some t) : ∃ c c', SameStream s t c c' := by
  cases a with
  | snapshot =>
    obtain ⟨c, hc, h⟩ := Option.bind_eq_some_iff.1 h
    split_ifs at h with hok
    obtain ⟨c', hc', rfl⟩ := Option.map_eq_some_iff.1 h
    have hkept : c'.link = c.link := by
      unfold snapshot at hc'
      split at hc' <;> cases hc' <;> rfl
    exact ⟨c, c', hc, rfl, rfl, rfl, rfl, rfl, by rw [hkept], fun h hh => hkept ▸ hh⟩
  | send =>
    obtain ⟨c, hc, h⟩ := Option.bind_eq_some_iff.1 h
    split_ifs at h with hok
    obtain ⟨c', hc', rfl⟩ := Option.map_eq_some_iff.1 h
    refine ⟨c, c', hc, rfl, rfl, rfl, rfl, rfl, ?_, ?_⟩ <;> unfold Connection.send at hc' <;>
      split at hc'
    · cases hc'
    · split_ifs at hc' <;> cases hc' <;> rfl
    · cases hc'
    · split_ifs at hc' <;> cases hc' <;> simp
  | heartbeat hb =>
    obtain ⟨c, hc, h⟩ := Option.bind_eq_some_iff.1 h
    split_ifs at h with hok
    obtain ⟨c', hc', rfl⟩ := Option.map_eq_some_iff.1 h
    unfold Connection.heartbeat at hc'
    split_ifs at hc'
    cases hc'
    exact ⟨c, _, hc, rfl, rfl, rfl, rfl, rfl, rfl, by simp⟩
  | deliver =>
    obtain ⟨c, hc, h⟩ := Option.bind_eq_some_iff.1 h
    unfold deliver at h
    split at h
    · rename_i n down _ _
      cases h
      refine ⟨c, _, hc, rfl, rfl, rfl, rfl, ?_, rfl, fun _ => id⟩
      rw [events, List.append_assoc, ackUpTo_append]
      rfl
    · cases h
      exact ⟨c, _, hc, rfl, rfl, rfl, rfl, rfl, rfl, fun _ => id⟩
    · cases h
  | acknowledge =>
    obtain ⟨c, hc, h⟩ := Option.bind_eq_some_iff.1 h
    obtain ⟨n, -, rfl⟩ := Option.map_eq_some_iff.1 h
    exact ⟨c, _, hc, rfl, rfl, rfl, rfl, rfl, rfl, fun _ => id⟩
  | lose up down =>
    obtain ⟨c, hc, rfl⟩ := Option.map_eq_some_iff.1 h
    exact ⟨c, _, hc, rfl, rfl, rfl, rfl, rfl, rfl, fun _ => List.mem_of_mem_take⟩
  | emit | connect | read | readOld => exact ha.elim

end Net

/-! ## Reading -/

/-- What a stream that refuses nothing does on a message which the stream of `l` takes to `l'`
with the decision `v` : its variables go from `st` to `st'`. -/
structure Link.Follows (l l' : Link) (v : Option (DetectionEvent × Bool)) (st st' : Stream) :
    Prop where
  deviceId : st'.deviceId = l'.stream.deviceId
  lastSeq : l'.stream.lastSeq ≤ st'.lastSeq
  cases : (v = none ∧ st' = st) ∨
    (v = none ∧ st'.deviceId ≠ [] ∧ ∃ h rest, l.up = .hello h :: rest ∧
      st'.lastSeq = h.lastAckedSeq) ∨
    ∃ d ok rest, v = some (d, ok) ∧ l.up = .detection d :: rest ∧ st'.lastSeq = d.seq ∧
      st.deviceId ≠ [] ∧ st'.deviceId = st.deviceId

namespace Link

variable {p : Peers} {l l' : Link} {ans : Answers} {v : Option (DetectionEvent × Bool)}
  {st : Stream} {acks : List UInt64}

/-- The stream with the variables `st` reads a message with the answers `ans'` as that of `l`
does with `ans`, except that it may write an ack where the other writes none. -/
structure Agrees (p : Peers) (l : Link) (st : Stream) (msg : AgentMessage) (ans ans' : Answers) :
    Prop where
  status : (st.onMessage p.integrations p.certCn msg (answers ans')).status.isSome =
    (l.stream.onMessage p.integrations p.certCn msg ans).status.isSome
  sent : ∀ n, (l.stream.onMessage p.integrations p.certCn msg ans).sent = some (.ack n) →
    (st.onMessage p.integrations p.certCn msg (answers ans')).sent = some (.ack n)
  accepted : (l.withStream st []).acceptedOf p msg ans' =
    ((l.decision p msg ans).map Prod.fst).toList

/-- The message is read with the same effect on the agent, once the acks that the refusing
stream does not write are taken away. -/
theorem Agrees.read {msg : AgentMessage} {rest : List AgentMessage} {ans' : Answers}
    (hag : Agrees p l st msg ans ans') (hup : l.up = msg :: rest)
    (h : l.serve p ans = some (l', v)) (acks : List UInt64) :
    ∃ u, (l.withStream st acks).read p ans' = some (u, (v.map Prod.fst).toList) ∧
      l'.withStream u.stream u.acks = { u with down := l'.down } ∧
      (∀ n, .ack n ∈ l'.down → .ack n ∈ u.down) ∧
      u.stream = (st.onMessage p.integrations p.certCn msg (answers ans')).stream := by
  obtain ⟨hopen, msg', rest', hup', rfl, rfl⟩ := serve_iff.1 h
  rw [hup] at hup'
  cases hup'
  have hread : (l.withStream st acks).read p ans' = some
      ({ l with
        stream := (st.onMessage p.integrations p.certCn msg (answers ans')).stream
        closed := (st.onMessage p.integrations p.certCn msg (answers ans')).status.isSome
        up := rest
        down :=
          if (st.onMessage p.integrations p.certCn msg (answers ans')).status.isSome then l.down
          else l.down ++ (st.onMessage p.integrations p.certCn msg (answers ans')).sent.toList
        acks := acks ++
          (st.onMessage p.integrations p.certCn msg (answers ans')).ackSeq.toList },
        ((l.decision p msg ans).map Prod.fst).toList) := by
    rw [← hag.accepted]
    simp only [Link.read, withStream, hopen, hup]
    rfl
  refine ⟨_, hread, ?_, ?_, rfl⟩
  · simp only [withStream, hag.status]
  · intro n hn
    simp only [hag.status] at hn ⊢
    split_ifs at hn ⊢
    · exact hn
    · rw [List.mem_append, Option.mem_toList] at hn ⊢
      exact hn.imp_right (hag.sent n)

theorem agrees_hello (hdev : st.deviceId = l.stream.deviceId)
    (hseq : l.stream.lastSeq ≤ st.lastSeq) {hello : Hello} {rest : List AgentMessage}
    (hup : l.up = .hello hello :: rest) (h : l.serve p ans = some (l', v)) :
    Agrees p l st (.hello hello) ans ans ∧
      Follows l l' v st
        (st.onMessage p.integrations p.certCn (.hello hello) (answers ans)).stream := by
  obtain ⟨-, msg, rest', hup', rfl, rfl⟩ := serve_iff.1 h
  rw [hup] at hup'
  cases hup'
  have hquiet : ∀ n, (l.stream.onHello p.certCn hello).sent ≠ some (.ack n) := by
    rw [(Stream.onHello_quiet p.certCn l.stream hello).1]
    nofun
  by_cases hok : (l.stream.onHello p.certCn hello).status = none
  · have hok' : (st.onHello p.certCn hello).status = none :=
      Stream.status_onHello_iff.2 (Stream.status_onHello_iff.1 hok)
    refine ⟨⟨by simp [Stream.onMessage, hok, hok'], fun n hn => absurd hn (hquiet n), rfl⟩, ?_,
      ?_, ?_⟩
    · simp [Stream.onMessage, Stream.stream_onHello hok, Stream.stream_onHello hok']
    · simp [Stream.onMessage, Stream.stream_onHello hok, Stream.stream_onHello hok']
    · refine .inr (.inl ⟨rfl, ?_, hello, rest, hup, ?_⟩)
      · simp [Stream.onMessage, Stream.stream_onHello hok', (Stream.status_onHello_iff.1 hok).1]
      · simp [Stream.onMessage, Stream.stream_onHello hok']
  · have hrefused : ∀ s : Stream, (s.onHello p.certCn hello).status.isSome ∧
        (s.onHello p.certCn hello).stream = s := by
      intro s
      have hne : (s.onHello p.certCn hello).status ≠ none := fun hs =>
        hok (Stream.status_onHello_iff.2 (Stream.status_onHello_iff.1 hs))
      refine ⟨Option.isSome_iff_ne_none.2 hne, ?_⟩
      unfold Stream.onHello at hne ⊢
      split_ifs at hne ⊢
      · rfl
      · rfl
      · exact absurd rfl hne
    refine ⟨⟨?_, fun n hn => absurd hn (hquiet n), rfl⟩, ?_, ?_, .inl ⟨rfl, (hrefused st).2⟩⟩
    · rw [Stream.onMessage, Stream.onMessage, (hrefused st).1, (hrefused l.stream).1]
    · rw [Stream.onMessage, (hrefused st).2, Stream.onMessage, (hrefused l.stream).2, hdev]
    · rw [Stream.onMessage, Stream.onMessage, (hrefused st).2, (hrefused l.stream).2]
      exact hseq

theorem agrees_heartbeat (hdev : st.deviceId = l.stream.deviceId)
    (hseq : l.stream.lastSeq ≤ st.lastSeq) {hb : Heartbeat} {rest : List AgentMessage}
    (hup : l.up = .heartbeat hb :: rest) (h : l.serve p ans = some (l', v)) :
    Agrees p l st (.heartbeat hb) ans ans ∧ Follows l l' v st
      (st.onMessage p.integrations p.certCn (.heartbeat hb) (answers ans)).stream := by
  obtain ⟨-, msg, rest', hup', rfl, rfl⟩ := serve_iff.1 h
  rw [hup] at hup'
  cases hup'
  have hkept : ∀ (s : Stream) ans,
      (s.onMessage p.integrations p.certCn (.heartbeat hb) ans).stream = s :=
    fun s ans => Stream.stream_onHeartbeat p.integrations s hb ans
  refine ⟨⟨?_, fun n hn => absurd hn (Stream.sent_onHeartbeat_ne _ _ _ _ n), rfl⟩, ?_, ?_,
    .inl ⟨rfl, hkept _ _⟩⟩
  · simp only [Stream.onMessage, Stream.onHeartbeat, Stream.configPush, hdev, answers]
    by_cases hearly : l.stream.deviceId = []
    · simp only [if_pos hearly]
    · simp only [if_neg hearly]
      rfl
  · rw [hkept, hkept, hdev]
  · rw [hkept, hkept]
    exact hseq

/-- A detection before the Hello ends both streams. -/
theorem agrees_early (hdev : st.deviceId = l.stream.deviceId)
    (hseq : l.stream.lastSeq ≤ st.lastSeq) {d : DetectionEvent} {rest : List AgentMessage}
    (hup : l.up = .detection d :: rest) (h : l.serve p ans = some (l', v))
    (hearly : l.stream.deviceId = []) : Agrees p l st (.detection d) ans ans ∧ Follows l l' v st
      (st.onMessage p.integrations p.certCn (.detection d) (answers ans)).stream := by
  obtain ⟨-, msg, rest', hup', rfl, rfl⟩ := serve_iff.1 h
  rw [hup] at hup'
  cases hup'
  have hearly' : st.deviceId = [] := hdev.trans hearly
  refine ⟨⟨?_, ?_, ?_⟩, ?_, ?_, .inl ⟨?_, ?_⟩⟩ <;>
    simp [Stream.onMessage, Stream.onDetection, hearly, hearly', decision, acceptedOf, withStream,
      Stream.Accepts, hseq]

/-- A new detection is accepted by a stream that refuses nothing. -/
theorem onMessage_answers {d : DetectionEvent} (hstarted : st.deviceId ≠ [])
    (hnew : st.lastSeq < d.seq) (ans : Answers) : st.Accepts p.integrations d (answers ans) ∧
      ∃ n calls, st.onMessage p.integrations p.certCn (.detection d) (answers ans) =
        Stream.writeAck (Stream.accept { st with kafkaPublished := n } d) calls (answers ans) := by
  refine ⟨(Stream.accepts_iff _ _ _ hstarted).2 ⟨hnew, by simp [Stream.passes, answers]⟩, ?_⟩
  rcases Stream.onDetection_cases p.integrations d (answers ans) hstarted with ⟨hle, -⟩ |
    ⟨-, hrate, -⟩ | ⟨-, -, -, hpub, -⟩ | ⟨-, -, n, calls, -, -, heq⟩
  · exact absurd hnew (not_lt.2 hle)
  · cases hrate
  · cases hpub
  · exact ⟨n, calls, heq⟩

/-- What the other stream does on a new detection : it writes an ack, or refuses it in silence. -/
theorem onMessage_new {s : Stream} {d : DetectionEvent} (hstarted : s.deviceId ≠ [])
    (hnew : s.lastSeq < d.seq) (ans : Answers) :
    ((s.onMessage p.integrations p.certCn (.detection d) ans).status = none ∧
      (s.onMessage p.integrations p.certCn (.detection d) ans).sent = none ∧
      (s.onMessage p.integrations p.certCn (.detection d) ans).stream.lastSeq = s.lastSeq) ∨
    ∃ n calls, s.onMessage p.integrations p.certCn (.detection d) ans =
      Stream.writeAck (Stream.accept { s with kafkaPublished := n } d) calls ans := by
  rcases Stream.onDetection_cases p.integrations d ans hstarted with ⟨hle, -⟩ | ⟨-, -, heq⟩ |
    ⟨-, -, -, -, heq⟩ | ⟨-, -, n, calls, -, -, heq⟩
  · exact absurd hnew (not_lt.2 hle)
  · exact .inl (by simp [Stream.onMessage, heq])
  · exact .inl (by simp [Stream.onMessage, heq])
  · exact .inr ⟨n, calls, heq⟩

/-- A detection that is new to both streams. -/
theorem agrees_detection (hdev : st.deviceId = l.stream.deviceId)
    (hseq : l.stream.lastSeq ≤ st.lastSeq) {d : DetectionEvent} {rest : List AgentMessage}
    (hup : l.up = .detection d :: rest) (h : l.serve p ans = some (l', v))
    (hstarted : l.stream.deviceId ≠ []) (hnew : st.lastSeq < d.seq) :
    ∃ ans', Agrees p l st (.detection d) ans ans' ∧ Follows l l' v st
      (st.onMessage p.integrations p.certCn (.detection d) (answers ans')).stream := by
  obtain ⟨-, msg, rest', hup', rfl, rfl⟩ := serve_iff.1 h
  rw [hup] at hup'
  cases hup'
  have hnew' : l.stream.lastSeq < d.seq := lt_of_le_of_lt hseq hnew
  have hstarted' : st.deviceId ≠ [] := hdev ▸ hstarted
  have hdecision : l.decision p (.detection d) ans =
      some (d, decide (l.stream.Accepts p.integrations d ans)) := if_pos ⟨hstarted, hnew'⟩
  have haccepted : ∀ ans', (l.withStream st []).acceptedOf p (.detection d) ans' =
      ((l.decision p (.detection d) ans).map Prod.fst).toList := fun ans' => by
    rw [hdecision]
    exact if_pos (onMessage_answers (p := p) hstarted' hnew ans').1
  have hkept : (l.stream.onMessage p.integrations p.certCn (.detection d) ans).stream.deviceId =
      l.stream.deviceId := Stream.deviceId_onDetection _ _ _
  rcases onMessage_new (p := p) hstarted hnew' ans with ⟨hstatus, hsent, hlast⟩ | ⟨n, calls, heq⟩
  · obtain ⟨m, calls', heq'⟩ :=
      (onMessage_answers (p := p) hstarted' hnew { ans with wrote := true }).2
    refine ⟨{ ans with wrote := true }, ⟨?_, fun n hn => ?_, haccepted _⟩, ?_, ?_,
      .inr (.inr ⟨d, _, rest, hdecision, hup, ?_, hstarted', ?_⟩)⟩ <;> rw [heq']
    · simp [hstatus, Stream.writeAck, answers]
    · simp [hsent] at hn
    · exact hdev.trans hkept.symm
    · exact hlast.le.trans hnew'.le
    · rfl
    · rfl
  · obtain ⟨m, calls', heq'⟩ := (onMessage_answers (p := p) hstarted' hnew ans).2
    refine ⟨ans, ⟨?_, fun n hn => ?_, haccepted _⟩, ?_, ?_,
      .inr (.inr ⟨d, _, rest, hdecision, hup, ?_, hstarted', ?_⟩)⟩ <;> rw [heq']
    · rw [heq]
      rfl
    · rw [heq] at hn
      exact hn
    · exact hdev.trans hkept.symm
    · simp only [heq]
      exact le_rfl
    · rfl
    · rfl

/-- Whatever the stream of `l` does on its next message, one that refuses nothing does it too,
but for acks. -/
theorem serve_follows (hdev : st.deviceId = l.stream.deviceId)
    (hseq : l.stream.lastSeq ≤ st.lastSeq)
    (hnext : ∀ d rest, l.up = .detection d :: rest → l.stream.deviceId ≠ [] → st.lastSeq < d.seq)
    (h : l.serve p ans = some (l', v)) (acks : List UInt64) :
    ∃ ans' u, (l.withStream st acks).read p ans' = some (u, (v.map Prod.fst).toList) ∧
      l'.withStream u.stream u.acks = { u with down := l'.down } ∧
      (∀ n, .ack n ∈ l'.down → .ack n ∈ u.down) ∧ Follows l l' v st u.stream := by
  obtain ⟨-, msg, rest, hup, -⟩ := serve_iff.1 h
  obtain ⟨ans', hag, hfollows⟩ : ∃ ans', Agrees p l st msg ans ans' ∧ Follows l l' v st
      (st.onMessage p.integrations p.certCn msg (answers ans')).stream := by
    cases msg with
    | hello hello => exact ⟨ans, agrees_hello hdev hseq hup h⟩
    | heartbeat hb => exact ⟨ans, agrees_heartbeat hdev hseq hup h⟩
    | detection d =>
      by_cases hearly : l.stream.deviceId = []
      · exact ⟨ans, agrees_early hdev hseq hup h hearly⟩
      · exact agrees_detection hdev hseq hup h hearly (hnext d rest hup hearly)
    | notSet =>
      obtain ⟨-, msg, rest', hup', rfl, rfl⟩ := serve_iff.1 h
      rw [hup] at hup'
      cases hup'
      exact ⟨ans, ⟨rfl, nofun, rfl⟩, hdev, hseq, .inl ⟨rfl, rfl⟩⟩
  obtain ⟨u, hread, heq, hdown, hstream⟩ := hag.read hup h acks
  exact ⟨ans', u, hread, heq, hdown, hstream ▸ hfollows⟩

end Link

end Ridgeline
