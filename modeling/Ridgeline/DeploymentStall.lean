import Ridgeline.DeploymentProgress

/-!
# When an agent can finish on its stream

The send loop of the agent ends when the producer is done and the outbox is empty. A detection
that the rate limiter or Kafka refuses is not acked, and the loop does not send it again on the
same connection. An ack of a later event covers it. So what decides is the last event : once
everything has been sent and read, and no new event comes, the outbox is or becomes empty on
this stream if and only if the last decision of the stream was to accept
(`finishes_iff_last_accepted`). Otherwise the agent waits until the connection is lost.

`Live` follows the decisions and the acks of the present stream while it is open. Every
detection that is read is decided on, and the acks on their way to the agent end with the
stream's `last_seq`.
-/

namespace Ridgeline

/-- The seqs of the acks among the messages to the agent. -/
def ackSeqs (down : List GatewayMessage) : List UInt64 :=
  down.filterMap fun msg =>
    match msg with
    | .ack n => some n
    | _ => none

@[simp] theorem ackSeqs_append (us vs : List GatewayMessage) :
    ackSeqs (us ++ vs) = ackSeqs us ++ ackSeqs vs :=
  List.filterMap_append

/-- A message that leaves the stream open : from `l` to `l'`, with the decision. A duplicate is
left out. -/
inductive Link.Served (l l' : Link) : AgentMessage → Option (DetectionEvent × Bool) → Prop
  | hello (h : Hello) (greeted : l'.stream.deviceId ≠ [])
      (lastSeq : l'.stream.lastSeq = h.lastAckedSeq) (acks : ackSeqs l'.down = ackSeqs l.down) :
      Served l l' (.hello h) none
  | heartbeat (hb : Heartbeat) (greeted : l.stream.deviceId ≠ []) (stream : l'.stream = l.stream)
      (acks : ackSeqs l'.down = ackSeqs l.down) : Served l l' (.heartbeat hb) none
  | refused (d : DetectionEvent) (greeted : l.stream.deviceId ≠ [])
      (deviceId : l'.stream.deviceId = l.stream.deviceId)
      (lastSeq : l'.stream.lastSeq = l.stream.lastSeq) (acks : ackSeqs l'.down = ackSeqs l.down) :
      Served l l' (.detection d) (some (d, false))
  | accepted (d : DetectionEvent) (greeted : l.stream.deviceId ≠ [])
      (deviceId : l'.stream.deviceId = l.stream.deviceId) (lastSeq : l'.stream.lastSeq = d.seq)
      (acks : ackSeqs l'.down = ackSeqs l.down ++ [d.seq]) :
      Served l l' (.detection d) (some (d, true))

theorem ackSeqs_sent (out : Outcome) : ackSeqs out.sent.toList = out.ackSeq.toList := by
  cases hsent : out.sent with
  | none => simp [Outcome.ackSeq, hsent, ackSeqs]
  | some msg => cases msg <;> simp [Outcome.ackSeq, hsent, ackSeqs]

theorem ackSeq_heartbeat (p : Peers) (st : Stream) (hb : Heartbeat) (ans : Answers) :
    (st.onMessage p.integrations p.certCn (.heartbeat hb) ans).ackSeq = none :=
  Option.eq_none_iff_forall_ne_some.2 fun n hn =>
    Stream.sent_onHeartbeat_ne _ _ _ _ n (Link.ackSeq_eq_some_iff.1 hn)

theorem Link.served {p : Peers} {l l' : Link} {ans : Answers} {v : Option (DetectionEvent × Bool)}
    (hnew : ∀ d rest, l.up = .detection d :: rest → l.stream.lastSeq < d.seq)
    (h : l.serve p ans = some (l', v)) (hopen : l'.closed = false) :
    ∃ msg, l.up = msg :: l'.up ∧ l'.sent = l.sent ∧ l.Served l' msg v := by
  obtain ⟨-, msg, rest, hup, rfl, rfl⟩ := serve_iff.1 h
  refine ⟨msg, hup, rfl, ?_⟩
  have hstatus : (l.stream.onMessage p.integrations p.certCn msg ans).status = none := by
    simpa using hopen
  have hdown : ∀ out : Outcome, out.status = none →
      ackSeqs (if out.status.isSome then l.down else l.down ++ out.sent.toList) =
        ackSeqs l.down ++ out.ackSeq.toList := fun out hout => by
    simp [hout, ackSeqs_sent]
  cases msg with
  | hello x =>
    have hstream := Stream.stream_onHello hstatus
    refine .hello x ?_ ?_ ?_
    · simpa [Stream.onMessage, hstream] using (Stream.status_onHello_iff.1 hstatus).1
    · simp [Stream.onMessage, hstream]
    · rw [hdown _ hstatus]
      simp [Stream.onMessage, Outcome.ackSeq, (Stream.onHello_quiet p.certCn l.stream x).1]
  | heartbeat hb =>
    refine .heartbeat hb ?_ (Stream.stream_onHeartbeat _ _ _ _) ?_
    · intro hdev
      simp [Stream.onMessage, Stream.onHeartbeat, hdev] at hstatus
    · rw [hdown _ hstatus, ackSeq_heartbeat, Option.toList_none, List.append_nil]
  | detection d =>
    have hdev : l.stream.deviceId ≠ [] := fun hdev => by
      simp [Stream.onMessage, Stream.onDetection, hdev] at hstatus
    have hlt := hnew d rest hup
    have hdecision : l.decision p (.detection d) ans =
        some (d, decide (l.stream.Accepts p.integrations d ans)) := if_pos ⟨hdev, hlt⟩
    have haccepts := Stream.accepts_iff p.integrations d ans hdev
    rw [hdecision]
    rcases Stream.onDetection_cases p.integrations d ans hdev with ⟨hle, -⟩ | ⟨-, hrate, heq⟩ |
      ⟨-, -, hkafka, hpub, heq⟩ | ⟨-, hpass, n, calls, -, -, heq⟩
    · exact absurd hlt (not_lt.2 hle)
    · rw [decide_eq_false (by rw [haccepts]; simp [Stream.passes, hrate])]
      exact .refused d hdev (by simp [Stream.onMessage, heq]) (by simp [Stream.onMessage, heq])
        (by simp [Stream.onMessage, heq])
    · rw [decide_eq_false (by rw [haccepts]; simp [Stream.passes, hkafka, hpub])]
      exact .refused d hdev (by simp [Stream.onMessage, heq]) (by simp [Stream.onMessage, heq])
        (by simp [Stream.onMessage, heq])
    · rw [decide_eq_true (haccepts.2 ⟨hlt, hpass⟩)]
      refine .accepted d hdev ?_ ?_ ?_
      · simp [Stream.onMessage, heq, Stream.writeAck, Stream.accept]
      · simp [Stream.onMessage, heq, Stream.writeAck, Stream.accept]
      · rw [hdown _ hstatus]
        simp [Stream.onMessage, heq, Stream.writeAck, Stream.accept, Outcome.ackSeq]
  | notSet => simp [Stream.onMessage] at hstatus

namespace Deployment

variable {p : Peers} {codec : DetectionCodec} {s t : Deployment} {c : Connection}

/-! ## The present stream -/

/-- The decisions of the stream `i`, in order. -/
def decisionsOf (s : Deployment) (i : ℕ) : List Decision :=
  s.decisions.filter (·.stream = i)

/-- The last ack in the log and those that the agent will get to know on the connection, as long
as it is not lost. -/
def ackLine (s : Deployment) (c : Connection) : List UInt64 :=
  s.net.lastAcked :: (c.pendingAck.toList ++ ackSeqs c.link.down)

/-- The present stream, while it is open and writes succeed. -/
structure Live (s : Deployment) (c : Connection) : Prop where
  sent : (s.decisionsOf s.net.old.length).map Decision.event ++ detections c.link.up = c.link.sent
  last : ∀ x ∈ (s.decisionsOf s.net.old.length).getLast?,
    if x.ok then c.link.stream.lastSeq = x.event.seq else c.link.stream.lastSeq < x.event.seq
  sorted : (s.ackLine c).Pairwise (· ≤ ·)
  greeted : c.link.stream.deviceId ≠ [] →
    (s.ackLine c).getLast? = some c.link.stream.lastSeq
  ungreeted : c.link.stream.deviceId = [] →
    s.ackLine c = [s.net.lastAcked] ∧ s.decisionsOf s.net.old.length = [] ∧
      ∀ h, .hello h ∈ c.link.up → h.lastAckedSeq = s.net.lastAcked

/-- What is in flight to the present stream : the Hello, or only what comes after it, and no
duplicate. -/
theorem Inv.inFlight (hs : Inv codec s) (hc : s.net.conn = some c) (hok : c.ok = true)
    (hopen : c.link.closed = false) :
    (∀ d rest, c.link.up = .detection d :: rest →
      c.link.stream.deviceId ≠ [] ∧ c.link.stream.lastSeq < d.seq) ∧
      (c.link.stream.deviceId ≠ [] → ∀ h, .hello h ∉ c.link.up) ∧
        (c.link.stream.deviceId = [] → ∃ h rest, c.link.up = .hello h :: rest) := by
  obtain ⟨st, acks, hnet, hb⟩ := hs.conn
  have hideal : (s.ideal st acks).conn = some (c.withStream st acks) :=
    Net.conn_withStream st acks _ hc
  obtain ⟨h, r, hinv⟩ := hnet.conn _ hideal
  have hb := hb c hc
  have hdev : st.deviceId = c.link.stream.deviceId := hb.deviceId
  have hup : ∀ d rest, c.link.up = .detection d :: rest →
      c.link.stream.deviceId ≠ [] ∧ c.link.stream.lastSeq < d.seq := fun d rest hup => by
    have hnext := hinv.link.next (l := c.link.withStream st acks) hopen hup
    have hlt := ((hinv.link.exact hnet.numbered).next hopen _ _ hup).2
    exact ⟨hdev ▸ hnext.1.1, lt_of_le_of_lt hb.lastSeq hlt⟩
  refine ⟨hup, ?_⟩
  rcases hinv.alive hok with hclosed | ⟨hnone, -, hello, rest, hup, -⟩ | ⟨hsome, -, -, hno⟩
  · exact absurd (hopen.symm.trans hclosed) (by decide)
  · exact ⟨fun hne => absurd (hdev ▸ hnone) hne, fun _ => ⟨hello, rest, hup⟩⟩
  · exact ⟨fun _ => hno, fun hnone => absurd (hdev.trans hnone) hsome⟩

theorem decisionsOf_judge (s : Deployment) (net : Net) (i j : ℕ)
    (v : Option (DetectionEvent × Bool)) : (s.judge net i v).decisionsOf j =
      s.decisionsOf j ++ if i = j then v.toList.map fun x => ⟨i, x.1, x.2⟩ else [] := by
  cases v <;> simp [decisionsOf, judge, List.filter_append, List.filter_singleton]

/-- The last ack of a live stream is the largest. -/
theorem Live.le_lastSeq (hl : s.Live c) (hdev : c.link.stream.deviceId ≠ []) :
    ∀ n ∈ s.ackLine c, n ≤ c.link.stream.lastSeq := by
  obtain ⟨ns, hns⟩ := List.getLast?_eq_some_iff.1 (hl.greeted hdev)
  have hsorted := hl.sorted
  rw [hns] at hsorted ⊢
  intro n hn
  rcases List.mem_append.1 hn with hn | hn
  · exact (List.pairwise_append.1 hsorted).2.2 n hn _ List.mem_cons_self
  · exact (List.mem_singleton.1 hn).le

/-- The gateway reads on the present stream, which stays open. -/
theorem Live.read (hs : Inv codec s) (hl : s.Live c) (hc : s.net.conn = some c)
    (hok : c.ok = true) (hopen : c.link.closed = false) {l' : Link} {ans : Answers}
    {v : Option (DetectionEvent × Bool)} (h : c.link.serve p ans = some (l', v))
    (hopen' : l'.closed = false) (hold : t.net.old.length = s.net.old.length)
    (hacked : t.net.lastAcked = s.net.lastAcked)
    (hown : t.decisionsOf s.net.old.length = s.decisionsOf s.net.old.length ++
      v.toList.map fun x => ⟨s.net.old.length, x.1, x.2⟩) : t.Live { c with link := l' } := by
  obtain ⟨hnew, hgreeted, -⟩ := hs.inFlight hc hok hopen
  obtain ⟨msg, hup, hsent, hserved⟩ := Link.served (fun d rest hup => (hnew d rest hup).2) h hopen'
  have hline : ∀ acks, ackSeqs l'.down = ackSeqs c.link.down ++ acks →
      t.ackLine { c with link := l' } = s.ackLine c ++ acks := fun acks h => by
    simp [ackLine, hacked, h]
  have hflight := hl.sent
  rw [hup, ← hsent] at hflight
  cases hserved with
  | hello x hdev hlast hacks =>
    have hfresh : c.link.stream.deviceId = [] := by
      by_contra hne
      exact hgreeted hne x (hup ▸ List.mem_cons_self)
    obtain ⟨hone, hnone, hhello⟩ := hl.ungreeted hfresh
    have hline := hline [] (by simpa using hacks)
    rw [List.append_nil, hone] at hline
    have hown : t.decisionsOf t.net.old.length = [] := by simp [hold, hown, hnone]
    rw [hnone] at hflight
    refine ⟨?_, ?_, ?_, fun _ => ?_, fun hdev' => absurd hdev' hdev⟩
    · rw [hown]
      exact hflight
    · simp [hown]
    · simp [hline]
    · rw [hline, hlast, hhello x (hup ▸ List.mem_cons_self)]
      rfl
  | heartbeat hb hdev hstream hacks =>
    have hline := hline [] (by simpa using hacks)
    have hown : t.decisionsOf t.net.old.length = s.decisionsOf s.net.old.length := by
      simp [hold, hown]
    rw [List.append_nil] at hline
    refine ⟨?_, ?_, hline ▸ hl.sorted, fun _ => ?_, fun hdev' => absurd (hstream ▸ hdev') hdev⟩
    · rw [hown]
      exact hflight
    · rw [hown, hstream]
      exact hl.last
    · rw [hline, hstream]
      exact hl.greeted hdev
  | refused d hdev hdev' hlast hacks =>
    have hline := hline [] (by simpa using hacks)
    rw [List.append_nil] at hline
    refine ⟨?_, ?_, hline ▸ hl.sorted, fun _ => ?_, fun hnone => absurd (hdev' ▸ hnone) hdev⟩
    · rw [hold, hown, ← hflight]
      simp [detections]
    · rw [hold, hown, hlast]
      simpa using (hnew d _ hup).2
    · rw [hline, hlast]
      exact hl.greeted hdev
  | accepted d hdev hdev' hlast hacks =>
    have hline := hline [d.seq] hacks
    refine ⟨?_, ?_, ?_, fun _ => ?_, fun hnone => absurd (hdev' ▸ hnone) hdev⟩
    · rw [hold, hown, ← hflight]
      simp [detections]
    · rw [hold, hown, hlast]
      simp
    · rw [hline]
      refine List.pairwise_append.2 ⟨hl.sorted, List.pairwise_singleton _ _, fun n hn m hm => ?_⟩
      rw [List.mem_singleton.1 hm]
      exact (hl.le_lastSeq hdev n hn).trans (hnew d _ hup).2.le
    · rw [hline, hlast, List.getLast?_concat]

/-- The present stream is live as long as the connection is. -/
def Alive (s : Deployment) : Prop :=
  ∀ c, s.net.conn = some c → c.ok = true → c.link.closed = false → s.Live c

/-- What the stream is followed by has not changed. -/
theorem Live.congr {c' : Connection} (hl : s.Live c) (hold : t.net.old.length = s.net.old.length)
    (hacked : t.net.lastAcked = s.net.lastAcked)
    (hown : t.decisionsOf s.net.old.length = s.decisionsOf s.net.old.length)
    (hlink : c'.link = c.link) (hpending : c'.pendingAck = c.pendingAck) : t.Live c' := by
  have hline : t.ackLine c' = s.ackLine c := by simp [ackLine, hacked, hlink, hpending]
  obtain ⟨hsent, hlast, hsorted, hgreeted, hungreeted⟩ := hl
  constructor
  · rw [hold, hown, hlink]
    exact hsent
  · rw [hold, hown, hlink]
    exact hlast
  · rw [hline]
    exact hsorted
  · rw [hline, hlink]
    exact hgreeted
  · rw [hline, hold, hown, hlink, hacked]
    exact hungreeted

/-- A new stream. -/
theorem alive_connect (hs : Inv codec s) {net : Net} (h : s.net.connect p = some net) :
    ({ s with net } : Deployment).Alive := by
  obtain rfl := Net.eq_of_connect h
  intro c hc _ _
  cases hc
  have hown : s.decisionsOf (s.net.old ++ (s.net.conn.map Connection.link).toList).length = [] := by
    refine List.filter_eq_nil_iff.2 fun x hx => ?_
    have := hs.streams x hx
    simp only [Net.links, List.length_append, decide_eq_true_eq] at this ⊢
    omega
  refine ⟨?_, ?_, List.pairwise_singleton _ _, fun hdev => absurd rfl hdev,
    fun _ => ⟨rfl, hown, ?_⟩⟩
  · change (s.decisionsOf _).map Decision.event ++ [] = []
    rw [hown]
    rfl
  · change ∀ x ∈ (s.decisionsOf _).getLast?, _
    rw [hown]
    simp
  · intro h hh
    cases List.mem_singleton.1 hh
    rfl

/-- The next event goes to the stream, or is skipped. -/
theorem alive_send (hl : s.Alive) (hc : s.net.conn = some c) (hok : c.ok = true)
    {c' : Connection} (h : c.send = some c') :
    ({ s with net := { s.net with conn := some c' } } : Deployment).Alive := by
  rintro _ ⟨⟩ - hopen
  unfold Connection.send at h
  split at h
  · cases h
  split_ifs at h
  · cases h
    exact (hl c hc hok hopen).congr rfl rfl rfl rfl rfl
  · cases h
    have hl := hl c hc hok hopen
    refine { hl with
      sent := ?_
      ungreeted := fun hdev => ?_ }
    · simp only [detections_append, ← List.append_assoc]
      rw [← hl.sent]
      rfl
    · obtain ⟨hone, hnone, hhello⟩ := hl.ungreeted hdev
      exact ⟨hone, hnone, fun h hh => hhello h (by simpa using hh)⟩

theorem alive_heartbeat (hl : s.Alive) (hc : s.net.conn = some c) (hok : c.ok = true)
    {c' : Connection} {hb : Heartbeat} (h : c.heartbeat hb = some c') :
    ({ s with net := { s.net with conn := some c' } } : Deployment).Alive := by
  rintro _ ⟨⟩ - hopen
  obtain ⟨-, h⟩ := Option.ite_none_right_eq_some.1 h
  cases h
  have hl := hl c hc hok hopen
  refine { hl with
    sent := ?_
    ungreeted := fun hdev => ?_ }
  · simp only [detections_append]
    rw [← hl.sent]
    exact congrArg _ (List.append_nil _)
  · obtain ⟨hone, hnone, hhello⟩ := hl.ungreeted hdev
    exact ⟨hone, hnone, fun h hh => hhello h (by simpa using hh)⟩

/-- The reader takes a message : an ack is now the pending one. -/
theorem alive_deliver (hl : s.Alive) (hc : s.net.conn = some c) {net : Net}
    (h : s.net.deliver c = some net) : ({ s with net } : Deployment).Alive := by
  unfold Net.deliver at h
  split at h
  all_goals try cases h
  · rename_i n down hpending hdown
    intro c' hc' hok hopen
    cases hc'
    have hl := hl c hc hok hopen
    let c' : Connection := { c with pendingAck := some n, link := { c.link with down := down } }
    have hline : ({ s with net := { s.net with
        outbox := (ackUpTo n s.net.outbox).2
        left := s.net.left ++ (ackUpTo n s.net.outbox).1
        conn := some c' } } : Deployment).ackLine c' = s.ackLine c := by
      simp [ackLine, c', hpending, hdown, ackSeqs]
    exact ⟨hl.sent, hl.last, hline ▸ hl.sorted, hline ▸ hl.greeted, hline ▸ hl.ungreeted⟩
  · rename_i u down hpending hdown
    intro c' hc' hok hopen
    cases hc'
    have hl := hl c hc hok hopen
    have hline : ({ s with net := { s.net with
        conn := some { c with link := { c.link with down := down } } } } : Deployment).ackLine
          { c with link := { c.link with down := down } } = s.ackLine c := by
      simp [ackLine, hdown, ackSeqs]
    exact ⟨hl.sent, hl.last, hline ▸ hl.sorted, hline ▸ hl.greeted, hline ▸ hl.ungreeted⟩

/-- The reader records the ack. -/
theorem alive_acknowledge (hl : s.Alive) (hc : s.net.conn = some c) {net : Net} {agent : Agent}
    (h : s.net.acknowledge c = some net) : ({ s with net, agent } : Deployment).Alive := by
  obtain ⟨n, hpending, rfl⟩ := Option.map_eq_some_iff.1 h
  intro c' hc' hok hopen
  cases hc'
  have hl := hl c hc hok hopen
  have hline : s.ackLine c = s.net.lastAcked :: n :: ackSeqs c.link.down := by
    simp [ackLine, hpending]
  have hsorted := hl.sorted
  rw [hline] at hsorted
  have hle : s.net.lastAcked ≤ n := (List.pairwise_cons.1 hsorted).1 n List.mem_cons_self
  have hmax : (if n ≤ s.net.lastAcked then s.net.lastAcked else n) = n := by
    split_ifs with h
    · exact le_antisymm hle h
    · rfl
  have hline' : ({ s with
      agent
      net := { s.net with
        lastAcked := if n ≤ s.net.lastAcked then s.net.lastAcked else n
        conn := some { c with pendingAck := none } } } : Deployment).ackLine
          { c with pendingAck := none } = n :: ackSeqs c.link.down := by
    simp [ackLine, hmax]
  refine ⟨hl.sent, hl.last, ?_, fun hdev => ?_, fun hdev => ?_⟩
  · rw [hline']
    exact (List.pairwise_cons.1 hsorted).2
  · have hlast := hl.greeted hdev
    rw [hline, List.getLast?_cons_cons] at hlast
    rw [hline']
    exact hlast
  · have hone := (hl.ungreeted hdev).1
    rw [hline] at hone
    cases hone

theorem alive_netStep (hs : Inv codec s) (hl : s.Alive) {a : NetAct}
    (h : s.netStep p a = some t) : t.Alive := by
  cases a with
  | emit body => cases h
  | connect =>
    obtain ⟨net, hnet, rfl⟩ := Option.map_eq_some_iff.1 h
    exact alive_connect hs hnet
  | snapshot =>
    obtain ⟨net, hnet, rfl⟩ := Option.map_eq_some_iff.1 h
    obtain ⟨c, hc, hnet⟩ := Option.bind_eq_some_iff.1 hnet
    obtain ⟨hok, hnet⟩ := Option.ite_none_right_eq_some.1 hnet
    obtain ⟨c', hc', rfl⟩ := Option.map_eq_some_iff.1 hnet
    rintro _ ⟨⟩ - hopen
    unfold Net.snapshot at hc'
    split at hc' <;> cases hc'
    · exact (hl c hc hok hopen).congr rfl rfl rfl rfl rfl
    · exact (hl c hc hok hopen).congr rfl rfl rfl rfl rfl
  | send =>
    obtain ⟨net, hnet, rfl⟩ := Option.map_eq_some_iff.1 h
    obtain ⟨c, hc, hnet⟩ := Option.bind_eq_some_iff.1 hnet
    obtain ⟨hok, hnet⟩ := Option.ite_none_right_eq_some.1 hnet
    obtain ⟨c', hc', rfl⟩ := Option.map_eq_some_iff.1 hnet
    exact alive_send hl hc hok hc'
  | heartbeat hb =>
    obtain ⟨net, hnet, rfl⟩ := Option.map_eq_some_iff.1 h
    obtain ⟨c, hc, hnet⟩ := Option.bind_eq_some_iff.1 hnet
    obtain ⟨hok, hnet⟩ := Option.ite_none_right_eq_some.1 hnet
    obtain ⟨c', hc', rfl⟩ := Option.map_eq_some_iff.1 hnet
    exact alive_heartbeat hl hc hok hc'
  | deliver =>
    obtain ⟨net, hnet, rfl⟩ := Option.map_eq_some_iff.1 h
    obtain ⟨c, hc, hnet⟩ := Option.bind_eq_some_iff.1 hnet
    exact alive_deliver hl hc hnet
  | acknowledge =>
    obtain ⟨c, hc, h⟩ := Option.bind_eq_some_iff.1 h
    obtain ⟨n, -, h⟩ := Option.bind_eq_some_iff.1 h
    obtain ⟨net, hnet, h⟩ := Option.bind_eq_some_iff.1 h
    obtain ⟨agent, -, rfl⟩ := Option.map_eq_some_iff.1 h
    exact alive_acknowledge hl hc hnet
  | lose up down =>
    obtain ⟨net, hnet, rfl⟩ := Option.map_eq_some_iff.1 h
    obtain ⟨c, hc, rfl⟩ := Option.map_eq_some_iff.1 hnet
    rintro _ ⟨⟩ hok -
    cases hok
  | read ans =>
    obtain ⟨c, hc, h⟩ := Option.bind_eq_some_iff.1 h
    obtain ⟨⟨l, v⟩, hserve, rfl⟩ := Option.map_eq_some_iff.1 h
    rintro _ ⟨⟩ hok hopen
    have hopen' := (Link.serve_iff.1 hserve).1
    refine (hl c hc hok hopen').read hs hc hok hopen' hserve hopen rfl rfl ?_
    rw [decisionsOf_judge, if_pos rfl]
  | readOld i ans =>
    obtain ⟨l, hl', h⟩ := Option.bind_eq_some_iff.1 h
    obtain ⟨⟨l', v⟩, hserve, rfl⟩ := Option.map_eq_some_iff.1 h
    intro c hc hok hopen
    have hi := (List.getElem?_eq_some_iff.1 hl').1
    refine (hl c hc hok hopen).congr (List.length_set ..) rfl ?_ rfl rfl
    rw [decisionsOf_judge, if_neg hi.ne, List.append_nil]

theorem alive_step (hs : Inv codec s) (hl : s.Alive) {a : DeployAct}
    (h : s.step p codec a = some t) : t.Alive := by
  -- The log is not what a stream is followed by.
  have hlog : ∀ (net : Net) (agent : Agent) (appended : Option DetectionEvent),
      net.conn = s.net.conn → net.old = s.net.old → net.lastAcked = s.net.lastAcked →
      ({ s with net, agent, appended } : Deployment).Alive :=
    fun net agent appended hconn hold hacked c hc hok hopen =>
      (hl c (hconn ▸ hc) hok hopen).congr (congrArg _ hold) hacked rfl rfl rfl
  cases a with
  | append body =>
    obtain ⟨-, agent, -, rfl⟩ := append_step h
    exact hlog _ _ _ rfl rfl rfl
  | push =>
    obtain ⟨d, -, rfl⟩ := Option.map_eq_some_iff.1 h
    exact hlog _ _ _ rfl rfl rfl
  | compact =>
    simp only [step] at h
    obtain ⟨agent, -, rfl⟩ := Option.map_eq_some_iff.1 h
    exact hlog _ _ _ rfl rfl rfl
  | net a => exact alive_netStep hs hl h
  | crash up =>
    simp only [step] at h
    obtain ⟨agent, -, rfl⟩ := Option.map_eq_some_iff.1 h
    rintro c ⟨⟩
  | crashInAppend body k up =>
    simp only [step] at h
    split at h
    · obtain ⟨agent, -, rfl⟩ := Option.map_eq_some_iff.1 h
      rintro c ⟨⟩
    · cases h

theorem alive_of_run {as : List DeployAct} (hok : Guarded (step p codec) AppendsClean init as)
    (h : exec (step p codec) init as = some s) : Inv codec s ∧ s.Alive := by
  have hstep : ∀ s a t, Inv codec s ∧ s.Alive → s.AppendsClean a → s.step p codec a = some t →
      Inv codec t ∧ t.Alive := fun _ _ _ hs ha ht => ⟨inv_step hs.1 ha ht, alive_step hs.1 hs.2 ht⟩
  exact exec_invariant_guarded hstep ⟨inv_init, by rintro c ⟨⟩⟩ hok h

/-! ## Everything has been sent and read -/

/-- The loop of the agent is between two passes and has sent the whole outbox, and nothing is in
flight. -/
structure Settled (s : Deployment) (c : Connection) : Prop where
  conn : s.net.conn = some c
  ok : c.ok = true
  phase : c.phase = .sending
  todo : c.todo = []
  sent : ∀ d ∈ s.net.outbox, d.seq ≤ c.lastSentSeq
  pendingAck : c.pendingAck = none
  isOpen : c.link.closed = false
  up : c.link.up = []
  down : c.link.down = []

instance (s : Deployment) (c : Connection) : Decidable (s.Settled c) :=
  decidable_of_iff (s.net.conn = some c ∧ c.ok = true ∧ c.phase = .sending ∧ c.todo = [] ∧
    (∀ d ∈ s.net.outbox, d.seq ≤ c.lastSentSeq) ∧ c.pendingAck = none ∧ c.link.closed = false ∧
      c.link.up = [] ∧ c.link.down = [])
    ⟨fun ⟨h₁, h₂, h₃, h₄, h₅, h₆, h₇, h₈, h₉⟩ => ⟨h₁, h₂, h₃, h₄, h₅, h₆, h₇, h₈, h₉⟩,
      fun h => ⟨h.1, h.2, h.3, h.4, h.5, h.6, h.7, h.8, h.9⟩⟩

/-- The outbox is what is above the stream's `last_seq`. -/
theorem Settled.lastSeq (hs : Inv codec s) (hl : s.Alive) (hset : s.Settled c) :
    c.link.stream.lastSeq.toNat = s.net.left.length := by
  obtain ⟨-, -, hgreeting⟩ := hs.inFlight hset.conn hset.ok hset.isOpen
  have hdev : c.link.stream.deviceId ≠ [] := fun hnone => by
    obtain ⟨h, rest, hup⟩ := hgreeting hnone
    simp [hset.up] at hup
  have hlast := (hl c hset.conn hset.ok hset.isOpen).greeted hdev
  rw [ackLine, hset.pendingAck, hset.down] at hlast
  have hlast : s.net.lastAcked = c.link.stream.lastSeq := Option.some.inj hlast
  obtain ⟨st, acks, hnet, -⟩ := hs.conn
  have hacked := hnet.acked
  simpa [Net.ackedSeq, ideal, Net.withStream, hset.conn, Connection.withStream,
    hset.pendingAck, hlast] using hacked

/-- The stream has decided on the last event, if it is in the outbox. -/
theorem Settled.last_decision (hs : Inv codec s) (hl : s.Alive) (hset : s.Settled c)
    (hout : s.net.outbox ≠ []) : ∃ x ∈ (s.decisionsOf s.net.old.length).getLast?,
      x.event.seq.toNat = s.net.events.length := by
  have hsent := (hl c hset.conn hset.ok hset.isOpen).sent
  rw [hset.up, show detections [] = [] from rfl, List.append_nil] at hsent
  obtain ⟨st, acks, hnet, -⟩ := hs.conn
  obtain ⟨h, r, hinv⟩ := hnet.conn _ (Net.conn_withStream st acks _ hset.conn)
  have hlink : c.link.sent <+: s.net.events.drop h := hinv.link.sent
  have hlastSent : c.lastSentSeq.toNat =
      if c.link.sent = [] then 0 else 0 + h + c.link.sent.length := hinv.lastSent
  -- The last event of the outbox has been sent, and is the last one that was.
  obtain ⟨ds, e, hds⟩ := (List.eq_nil_or_concat' s.net.outbox).resolve_left hout
  have hlen : s.net.events.length = s.net.left.length + (ds.length + 1) := by
    simp [Net.events, hds]
  have he : e.seq.toNat = s.net.events.length := by
    have := hnet.numbered (s.net.left.length + ds.length) e (by
      show (s.net.left ++ s.net.outbox)[_]? = _
      simp [hds])
    omega
  have hle := UInt64.le_iff_toNat_le.1 (hset.sent e (by simp [hds]))
  have hne : c.link.sent ≠ [] := fun hnil => by
    rw [if_pos hnil] at hlastSent
    omega
  rw [if_neg hne] at hlastSent
  have hbound := hlink.length_le
  rw [List.length_drop] at hbound
  obtain ⟨xs, x, hxs⟩ := (List.eq_nil_or_concat' (s.decisionsOf s.net.old.length)).resolve_left
    fun hnil => hne (by simpa [hnil] using hsent.symm)
  rw [hxs, List.map_append, List.map_singleton] at hsent
  have hseq := Numbered.getElem (i := xs.length) (d := x.event) hnet.numbered hlink
    (by simp [← hsent])
  have hsentLen : c.link.sent.length = xs.length + 1 := by simp [← hsent]
  exact ⟨x, by simp [hxs], by omega⟩

/-- With everything sent and read, the outbox is empty if and only if the last decision of the
stream was to accept. -/
theorem Settled.outbox_eq_nil_iff (hs : Inv codec s) (hl : s.Alive) (hset : s.Settled c) :
    s.net.outbox = [] ↔ ∀ x ∈ (s.decisionsOf s.net.old.length).getLast?, x.ok = true := by
  have hlast := hset.lastSeq hs hl
  have hlive := hl c hset.conn hset.ok hset.isOpen
  have hlen : s.net.events.length = s.net.left.length + s.net.outbox.length := by
    simp [Net.events]
  constructor
  · intro hout x hx
    by_contra hrefused
    have hlt := hlive.last x hx
    rw [if_neg hrefused, UInt64.lt_iff_toNat_lt, hlast] at hlt
    obtain ⟨hx, hi⟩ := List.mem_filter.1 (List.mem_of_mem_getLast? hx)
    obtain ⟨st, acks, -, hb⟩ := hs.conn
    have hbefore := (hb c hset.conn).before x hx (of_decide_eq_true hi)
    have hcovered := (hb c hset.conn).covered.1
    rw [UInt64.le_iff_toNat_le] at hbefore
    rw [hout, List.length_nil] at hlen
    omega
  · intro haccepted
    by_contra hout
    obtain ⟨x, hx, hseq⟩ := hset.last_decision hs hl hout
    have heq := hlive.last x hx
    rw [if_pos (haccepted x hx)] at heq
    have := List.length_pos_iff.2 hout
    rw [heq] at hlast
    omega

/-! ## Nothing more happens on the stream -/

/-- The steps of a deployment that gets no new event, is not restarted and does not lose its
connection. -/
def Calm : DeployAct → Prop
  | .compact => True
  | .net (.lose _ _) => False
  | .net _ => True
  | _ => False

/-- Only heartbeats and configurations move, and the outbox is `events`. -/
structure Stuck (events : List DetectionEvent) (s : Deployment) (c : Connection) : Prop where
  conn : s.net.conn = some c
  outbox : s.net.outbox = events
  ok : c.ok = true
  phase : c.phase = .sending
  sent : ∀ d ∈ events, d.seq ≤ c.lastSentSeq
  todo : ∀ d ∈ c.todo, d.seq ≤ c.lastSentSeq
  pendingAck : c.pendingAck = none
  up : ∀ msg ∈ c.link.up, ∃ hb, msg = .heartbeat hb
  down : ackSeqs c.link.down = []

theorem Settled.stuck (hset : s.Settled c) : s.Stuck s.net.outbox c where
  conn := hset.conn
  outbox := rfl
  ok := hset.ok
  phase := hset.phase
  sent := hset.sent
  todo := by simp [hset.todo]
  pendingAck := hset.pendingAck
  up := by simp [hset.up]
  down := by rw [hset.down]; rfl

theorem Stuck.netStep {events : List DetectionEvent} (hs : s.Stuck events c) {a : NetAct}
    (ha : Calm (.net a)) (h : s.netStep p a = some t) : ∃ c', t.Stuck events c' := by
  cases a with
  | emit body => cases h
  | connect =>
    simp [Deployment.netStep, Net.step, Net.connect, hs.conn, hs.ok] at h
  | snapshot =>
    obtain ⟨net, hnet, rfl⟩ := Option.map_eq_some_iff.1 h
    simp only [Net.step, hs.conn, hs.ok, Option.bind_some, if_true] at hnet
    obtain ⟨c', hc', rfl⟩ := Option.map_eq_some_iff.1 hnet
    cases htodo : c.todo with
    | nil =>
      simp only [Net.snapshot, hs.phase, htodo, Option.some.injEq] at hc'
      subst hc'
      exact ⟨_, { hs with conn := rfl, phase := rfl, todo := hs.outbox ▸ hs.sent }⟩
    | cons d todo => simp [Net.snapshot, hs.phase, htodo] at hc'
  | send =>
    obtain ⟨net, hnet, rfl⟩ := Option.map_eq_some_iff.1 h
    simp only [Net.step, hs.conn, hs.ok, Option.bind_some, if_true] at hnet
    obtain ⟨c', hc', rfl⟩ := Option.map_eq_some_iff.1 hnet
    unfold Connection.send at hc'
    split at hc'
    · cases hc'
    · rename_i d todo htodo
      rw [if_pos ⟨hs.phase, hs.todo d (by simp [htodo])⟩] at hc'
      cases hc'
      exact ⟨_, { hs with conn := rfl, todo := fun d hd => hs.todo d (by simp [htodo, hd]) }⟩
  | heartbeat hb =>
    obtain ⟨net, hnet, rfl⟩ := Option.map_eq_some_iff.1 h
    simp only [Net.step, hs.conn, hs.ok, Option.bind_some, if_true] at hnet
    obtain ⟨c', hc', rfl⟩ := Option.map_eq_some_iff.1 hnet
    obtain ⟨-, hc'⟩ := Option.ite_none_right_eq_some.1 hc'
    cases hc'
    refine ⟨_, { hs with conn := rfl, up := fun msg hmsg => ?_ }⟩
    rcases List.mem_append.1 hmsg with hmsg | hmsg
    · exact hs.up msg hmsg
    · exact ⟨hb, List.mem_singleton.1 hmsg⟩
  | deliver =>
    obtain ⟨net, hnet, rfl⟩ := Option.map_eq_some_iff.1 h
    simp only [Net.step, hs.conn, Option.bind_some] at hnet
    unfold Net.deliver at hnet
    have hdown := hs.down
    split at hnet
    · rename_i n down _ hack
      simp [hack, ackSeqs] at hdown
    · rename_i u down _ hconfig
      cases hnet
      exact ⟨_, { hs with conn := rfl, down := by simpa [hconfig, ackSeqs] using hdown }⟩
    · cases hnet
  | acknowledge =>
    simp [Deployment.netStep, hs.conn, hs.pendingAck] at h
  | lose up down => exact ha.elim
  | read ans =>
    simp only [Deployment.netStep, hs.conn, Option.bind_some] at h
    obtain ⟨⟨l', v⟩, hserve, rfl⟩ := Option.map_eq_some_iff.1 h
    obtain ⟨-, msg, rest, hup, -, rfl⟩ := Link.serve_iff.1 hserve
    obtain ⟨hb, rfl⟩ := hs.up msg (by simp [hup])
    refine ⟨_, { hs with conn := rfl, up := fun m hm => hs.up m (by simp_all), down := ?_ }⟩
    simp only
    split_ifs
    · exact hs.down
    · rw [ackSeqs_append, hs.down, ackSeqs_sent, ackSeq_heartbeat]
      rfl
  | readOld i ans =>
    obtain ⟨l, -, h⟩ := Option.bind_eq_some_iff.1 h
    obtain ⟨⟨l', v⟩, -, rfl⟩ := Option.map_eq_some_iff.1 h
    exact ⟨c, { hs with }⟩

theorem Stuck.exec {events : List DetectionEvent} (hs : ∃ c, s.Stuck events c)
    {bs : List DeployAct} (hbs : ∀ b ∈ bs, Calm b) (h : exec (step p codec) s bs = some t) :
    ∃ c, t.Stuck events c := by
  have hstep : ∀ s a t, (∃ c, Stuck events s c) → Calm a → s.step p codec a = some t →
      ∃ c, Stuck events t c := by
    rintro s a t ⟨c, hs⟩ ha h
    cases a with
    | compact =>
      simp only [step] at h
      obtain ⟨agent, -, rfl⟩ := Option.map_eq_some_iff.1 h
      exact ⟨c, { hs with }⟩
    | net a => exact hs.netStep ha h
    | append | push | crash | crashInAppend => exact ha.elim
  exact exec_invariant_guarded hstep hs (.of_forall fun _ b hb => hbs b hb) h

/-- From every state of every run, whose appends have found a clean file, in which the present
stream has been sent everything and nothing is in flight, the outbox is or becomes empty, without a
new event, a crash or a lost connection, if and only if the last decision of the stream, if it has
made one, was to accept. -/
theorem finishes_iff_last_accepted {as : List DeployAct}
    (hok : Guarded (step p codec) AppendsClean init as)
    (h : exec (step p codec) init as = some s) (hset : s.Settled c) :
    (∃ bs t, (∀ b ∈ bs, Calm b) ∧ exec (step p codec) s bs = some t ∧ t.net.outbox = []) ↔
      ∀ x ∈ (s.decisionsOf s.net.old.length).getLast?, x.ok = true := by
  obtain ⟨hs, hl⟩ := alive_of_run hok h
  rw [← hset.outbox_eq_nil_iff hs hl]
  constructor
  · rintro ⟨bs, t, hbs, ht, hout⟩
    obtain ⟨c', hstuck⟩ := Stuck.exec ⟨c, hset.stuck⟩ hbs ht
    exact hstuck.outbox ▸ hout
  · intro hout
    exact ⟨[], s, by simp, rfl, hout⟩

/-- Seq 1 is accepted and acked, and seq 2, the last, is refused. -/
def lastRefusedRun : List DeployAct :=
  [.append (ascii "a"), .push, .append (ascii "b"), .push, .net .connect, .net .snapshot,
    .net .send, .net .send, .net (.read {}), .net (.read {}), .net (.read { rateOk := false }),
    .net .deliver, .net .acknowledge, .net .snapshot, .net .send]

theorem finishes_iff_last_accepted_lastRefused : ∃ s c,
    exec (step Net.plainPeers plainCodec) init lastRefusedRun = some s ∧ s.Settled c ∧
      s.net.outbox.map DetectionEvent.seq = [2] ∧
      ¬ ∃ bs t, (∀ b ∈ bs, Calm b) ∧
        exec (step Net.plainPeers plainCodec) s bs = some t ∧ t.net.outbox = [] := by
  have hok : Guarded (step Net.plainPeers plainCodec) AppendsClean init lastRefusedRun := by
    decide +kernel
  obtain ⟨s, h, ⟨c, -, hset⟩, hseqs, hlast⟩ : ∃ s,
      exec (step Net.plainPeers plainCodec) init lastRefusedRun = some s ∧
        (∃ c ∈ s.net.conn, s.Settled c) ∧ s.net.outbox.map DetectionEvent.seq = [2] ∧
          ¬ ∀ x ∈ (s.decisionsOf s.net.old.length).getLast?, x.ok = true :=
    exists_exec_of_any (by decide +kernel)
  exact ⟨s, c, h, hset, hseqs, (finishes_iff_last_accepted hok h hset).not.2 hlast⟩

end Deployment

end Ridgeline
