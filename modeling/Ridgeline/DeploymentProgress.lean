import Ridgeline.DeploymentSafety

/-!
# A deployment can always finish

From every state that a deployment can be in, a reconnect empties the outbox, if the gateway admits
the agent and the appends have found a clean file : the agent gives up its connection, records the
ack that its reader holds (`exists_connect`), and resends on a new stream from the checkpoint
(`exists_idle_of_connect`). If the gateway then refuses nothing, each event of the outbox is
accepted, acked and popped in turn (`Idle.oneEvent`, `Idle.drain`).
-/

namespace Ridgeline

/-- A stream with one new detection in flight, when nothing is refused and writes succeed. -/
theorem Link.serve_new {p : Peers} {l : Link} {d : DetectionEvent} (hopen : l.closed = false)
    (hup : l.up = [.detection d]) (hdown : l.down = []) (hstarted : l.stream.deviceId ≠ [])
    (hnew : l.stream.lastSeq < d.seq) : ∃ l', l.serve p {} = some (l', some (d, true)) ∧
      l'.closed = false ∧ l'.up = [] ∧ l'.down = [.ack d.seq] ∧
      l'.stream.deviceId = l.stream.deviceId ∧ l'.stream.lastSeq = d.seq := by
  obtain ⟨haccepts, n, calls, heq⟩ := onMessage_answers (p := p) hstarted hnew {}
  have hdecision : l.decision p (.detection d) {} = some (d, true) := by
    rw [decision, if_pos ⟨hstarted, hnew⟩]
    exact congrArg (fun b => some (d, b)) (decide_eq_true haccepts)
  rw [show answers {} = {} from rfl] at heq
  refine ⟨{ l with
    stream := Stream.accept { l.stream with kafkaPublished := n } d
    up := []
    down := [.ack d.seq]
    acks := l.acks ++ [d.seq] }, ?_, hopen, rfl, rfl, rfl, rfl⟩
  simp only [serve, hopen, hup, hdecision, heq, hdown]
  rfl

/-- The ack of the first event of the outbox pops that event. -/
theorem ackUpTo_head {b : ℕ} {d : DetectionEvent} {ds : List DetectionEvent}
    (hnum : Numbered b (d :: ds)) : ackUpTo d.seq (d :: ds) = ([d], ds) := by
  have hd : d.seq.toNat = b + 1 := hnum 0 d rfl
  have hlen := Net.length_popped hnum (n := d.seq) (by simp; omega)
  have happ : (ackUpTo d.seq (d :: ds)).1 ++ (ackUpTo d.seq (d :: ds)).2 = [d] ++ ds :=
    Net.ackUpTo_append d.seq (d :: ds)
  obtain ⟨hpopped, hrest⟩ := List.append_inj happ (by simp only [List.length_singleton]; omega)
  exact Prod.ext hpopped hrest

namespace Deployment

variable {p : Peers} {codec : DetectionCodec} {s t : Deployment}

/-- The resend is about to send the outbox, nothing is in flight, and the stream has been read
up to the checkpoint. -/
structure Idle (s : Deployment) (c : Connection) : Prop where
  conn : s.net.conn = some c
  ok : c.ok = true
  phase : c.phase = .resending
  todo : c.todo = s.net.outbox
  pendingAck : c.pendingAck = none
  isOpen : c.link.closed = false
  up : c.link.up = []
  down : c.link.down = []
  started : c.link.stream.deviceId ≠ []
  lastSeq : c.link.stream.lastSeq = s.net.lastAcked

theorem Idle.lastAcked (hs : Inv codec s) {c : Connection} (hidle : s.Idle c) :
    s.net.lastAcked.toNat = s.net.left.length := by
  obtain ⟨st, acks, hnet, -⟩ := hs.conn
  have hacked := hnet.acked
  simpa [Net.ackedSeq, ideal, Net.withStream, hidle.conn, Connection.withStream,
    hidle.pendingAck] using hacked

/-- With an empty outbox, the checkpoint covers the whole log. -/
theorem Idle.replayUnacked (hs : Inv codec s) {c : Connection} (hidle : s.Idle c)
    (hout : s.net.outbox = []) (happended : s.appended = none) :
    s.agent.wal.replayUnacked = [] := by
  have hlast := hidle.lastAcked hs
  have hlog := hs.committed
  have hnum := hs.numbered.1
  have hall : s.net.events ++ s.appended.toList = s.net.left := by
    simp [Net.events, hout, happended]
  rw [hall] at hlog hnum
  rw [Wal.replayUnacked_eq, hs.agent.unacked, hlog, unacked_records hnum, ← hs.lastAcked, hlast,
    List.drop_length]
  rfl

/-- One event is sent, read, acked and popped. -/
def oneEvent : List DeployAct :=
  [.net .send, .net (.read {}), .net .deliver, .net .acknowledge]

theorem Idle.oneEvent (hs : Inv codec s) {c : Connection} (hidle : s.Idle c) {d : DetectionEvent}
    {ds : List DetectionEvent} (hout : s.net.outbox = d :: ds) :
    ∃ t c', exec (step p codec) s oneEvent = some t ∧ t.Idle c' ∧ t.net.outbox = ds ∧
      t.net.accepted = s.net.accepted ++ [d] ∧ t.agent.committed = s.agent.committed ∧
      t.appended = s.appended := by
  have hlast := hidle.lastAcked hs
  obtain ⟨st, acks, hnet, -⟩ := hs.conn
  have hnum : Numbered (0 + s.net.left.length) s.net.outbox := hnet.numbered_outbox
  have hlt : s.net.lastAcked < d.seq := by
    have := hnum 0 d (by simp [hout])
    exact UInt64.lt_iff_toNat_lt.2 (by omega)
  have hpop : ackUpTo d.seq s.net.outbox = ([d], ds) := by
    rw [hout] at hnum ⊢
    exact ackUpTo_head hnum
  let l : Link := { c.link with up := [.detection d], sent := c.link.sent ++ [d] }
  let c₁ : Connection :=
    { c with todo := ds, lastSentSeq := max c.lastSentSeq d.seq, link := l }
  obtain ⟨l', hserve, hopen, hup, hdown, hdev, hseq⟩ := Link.serve_new (p := p) (d := d) (l := l)
    hidle.isOpen rfl hidle.down hidle.started (hidle.lastSeq ▸ hlt)
  let c₂ : Connection := { c₁ with pendingAck := none, link := { l' with down := [] } }
  let s₁ : Deployment := { s with net := { s.net with conn := some c₁ } }
  let s₂ := s₁.judge { s.net with conn := some { c₁ with link := l' } } s.net.old.length
    (some (d, true))
  let s₃ : Deployment :=
    { s₂ with net :=
        { s₂.net with
          outbox := ds
          left := s.net.left ++ [d]
          conn := some { c₂ with pendingAck := some d.seq } } }
  let s₄ : Deployment :=
    { s₃ with
      net := { s₃.net with lastAcked := d.seq, conn := some c₂ }
      agent := { s.agent with wal := s.agent.wal.acknowledge d.seq } }
  have hsend : s.step p codec (.net .send) = some s₁ := by
    simp [step, netStep, Net.step, hidle.conn, hidle.ok, Connection.send, hidle.todo, hout,
      hidle.phase, hidle.up, s₁, c₁, l]
  have hread : s₁.step p codec (.net (.read {})) = some s₂ := by
    simp only [step, netStep, s₁, c₁, Option.bind_some, hserve, Option.map_some]
    rfl
  have hdeliver : s₂.step p codec (.net .deliver) = some s₃ := by
    simp only [step, netStep, Net.step, s₂, judge, Option.bind_some, Net.deliver, c₁,
      hidle.pendingAck, hdown, hpop, Option.map_some]
    rfl
  have hack : s₃.step p codec (.net .acknowledge) = some s₄ := by
    simp only [step, netStep, s₃, s₂, judge, Option.bind_some, Net.acknowledge, Option.map_some,
      if_neg (not_le.2 hlt), Agent.step]
    rfl
  refine ⟨s₄, c₂, ?_, ⟨rfl, hidle.ok, hidle.phase, rfl, rfl, hopen, hup, rfl, ?_, hseq⟩,
    rfl, rfl, rfl, rfl⟩
  · simp only [Deployment.oneEvent, exec, hsend, hread, hdeliver, hack, Option.bind_some]
  · exact hdev ▸ hidle.started

/-- The steps of a recovery : what is in the log goes to the outbox, and the connections move. -/
def Recovers : DeployAct → Prop
  | .push | .net _ => True
  | _ => False

theorem Inv.recovers (hs : Inv codec s) {bs : List DeployAct} (hbs : ∀ b ∈ bs, Recovers b)
    (h : exec (step p codec) s bs = some t) : Inv codec t := by
  refine exec_invariant_guarded (fun _ _ _ hs ha ht => inv_step hs ha ht) hs
    (Guarded.of_forall fun u b hb => ?_) h
  have := hbs b hb
  cases b with
  | push | net => trivial
  | append | compact | crash | crashInAppend => exact this.elim

/-- The whole outbox is sent, read, acked and popped. -/
theorem Idle.drain : ∀ {ds : List DetectionEvent} {s : Deployment} {c : Connection}, Inv codec s →
    s.Idle c → s.net.outbox = ds → ∃ bs t c', (∀ b ∈ bs, Recovers b) ∧
      exec (step p codec) s bs = some t ∧ t.Idle c' ∧ t.net.outbox = [] ∧
      t.net.accepted = s.net.accepted ++ ds ∧ t.agent.committed = s.agent.committed ∧
      t.appended = s.appended
  | [], s, c, _, hidle, hout => ⟨[], s, c, by simp, rfl, hidle, hout, by simp, rfl, rfl⟩
  | d :: ds, s, c, hs, hidle, hout => by
    obtain ⟨u, c', hu, hidle', hout', haccepted, hcommitted, happended⟩ :=
      hidle.oneEvent (p := p) hs hout
    have hrec : ∀ b ∈ Deployment.oneEvent, Recovers b := by
      simp [Deployment.oneEvent, Recovers]
    obtain ⟨bs, t, c'', hbs, ht, hidle'', hout'', haccepted', hcommitted', happended'⟩ :=
      drain (hs.recovers hrec hu) hidle' hout'
    refine ⟨Deployment.oneEvent ++ bs, t, c'', ?_, exec_append_iff.2 ⟨u, hu, ht⟩, hidle'', hout'',
      by simp [haccepted', haccepted], hcommitted'.trans hcommitted,
      happended'.trans happended⟩
    exact List.forall_mem_append.2 ⟨hrec, hbs⟩

/-- A reconnect leaves the events where they are. -/
structure Kept (s t : Deployment) : Prop where
  outbox : t.net.outbox = s.net.outbox
  accepted : t.net.accepted = s.net.accepted
  committed : t.agent.committed = s.agent.committed
  appended : t.appended = s.appended

/-- After a reconnect the new stream is idle. -/
theorem exists_idle_of_connect (codec : DetectionCodec) (hp : p.Admits) {net : Net}
    (h : s.net.connect p = some net) :
    ∃ t c, exec (step p codec) s [.net .connect, .net (.read {}), .net .snapshot] = some t ∧
      t.Idle c ∧ Kept s t := by
  have hconnect : s.step p codec (.net .connect) = some { s with net } := by
    simp only [step, netStep, Net.step, h, Option.map_some]
  obtain rfl := Net.eq_of_connect h
  let l : Link :=
    { stream := { deviceId := p.deviceId, tenantId := p.tenantId, lastSeq := s.net.lastAcked } }
  let s₁ : Deployment := { s with net :=
    { s.net with
      conn := some (s.net.fresh p)
      old := s.net.old ++ (s.net.conn.map Connection.link).toList } }
  let s₂ := s₁.judge { s₁.net with conn := some { s.net.fresh p with link := l } }
    s₁.net.old.length none
  let c : Connection := { phase := .resending, todo := s.net.outbox, link := l }
  have hserve : (s.net.fresh p).link.serve p {} = some (l, none) :=
    Link.serve_hello hp s.net.lastAcked {}
  have hread : s₁.step p codec (.net (.read {})) = some s₂ := by
    simp only [step, netStep, s₁, Option.bind_some, hserve, Option.map_some]
    rfl
  have hsnapshot : s₂.step p codec (.net .snapshot) =
      some { s₂ with net := { s₂.net with conn := some c } } := by
    rfl
  refine ⟨{ s₂ with net := { s₂.net with conn := some c } }, c, ?_,
    ⟨rfl, rfl, rfl, rfl, rfl, rfl, rfl, rfl, hp.1, rfl⟩, rfl, List.append_nil _, rfl, rfl⟩
  simp only [exec, hconnect, Option.bind_some]
  rw [hread, Option.bind_some, hsnapshot, Option.bind_some]

/-- The connection is given up, and its last ack recorded. -/
theorem exists_connect (p : Peers) (codec : DetectionCodec) (s : Deployment) :
    ∃ bs t, (∀ b ∈ bs, Recovers b) ∧ exec (step p codec) s bs = some t ∧
      (t.net.connect p).isSome ∧ Kept s t := by
  cases hc : s.net.conn with
  | none =>
    refine ⟨[], s, by simp, rfl, ?_, rfl, rfl, rfl, rfl⟩
    simp [Net.connect, hc]
  | some c =>
    let s₁ : Deployment := { s with net := { s.net with conn := some (c.lose 0 0) } }
    have hlose : s.step p codec (.net (.lose 0 0)) = some s₁ := by
      simp only [step, netStep, Net.step, hc, Option.map_some]
      rfl
    cases hack : c.pendingAck with
    | none =>
      refine ⟨[.net (.lose 0 0)], s₁, by simp [Recovers], ?_, ?_, rfl, rfl, rfl, rfl⟩
      · simp only [exec, hlose, Option.bind_some]
      · simp [Net.connect, s₁, Connection.lose, hack]
    | some n =>
      let s₂ : Deployment :=
        { s with
          net :=
            { s.net with
              lastAcked := if n ≤ s.net.lastAcked then s.net.lastAcked else n
              conn := some { c.lose 0 0 with pendingAck := none } }
          agent := { s.agent with wal := s.agent.wal.acknowledge n } }
      have hrecord : s₁.step p codec (.net .acknowledge) = some s₂ := by
        simp only [step, netStep, s₁, Option.bind_some, Net.acknowledge, Connection.lose, hack,
          Option.map_some, Agent.step]
        rfl
      refine ⟨[.net (.lose 0 0), .net .acknowledge], s₂, by simp [Recovers], ?_, ?_, rfl, rfl,
        rfl, rfl⟩
      · simp only [exec, hlose, hrecord, Option.bind_some]
      · simp [Net.connect, s₂, Connection.lose]

/-- The event that is in the log only goes to the outbox. -/
theorem exists_push (hs : Inv codec s) : ∃ bs t, (∀ b ∈ bs, Recovers b) ∧
    exec (step p codec) s bs = some t ∧ t.net.outbox = s.net.outbox ++ s.appended.toList ∧
    t.net.accepted = s.net.accepted ∧ t.agent.committed = s.agent.committed ∧
    t.appended = none := by
  cases happ : s.appended with
  | none => exact ⟨[], s, by simp, rfl, by simp, rfl, rfl, happ⟩
  | some d =>
    refine ⟨[.push], { s with net := s.net.emit d.body, appended := none }, by simp [Recovers], ?_,
      ?_, rfl, rfl, rfl⟩
    · simp [exec, step, happ]
    · simp [Net.emit, ← (hs.appended d happ).1]

/-- From every state of every run, whatever has been refused or lost and wherever the
connections are, if the gateway admits the agent and the appends have found a clean file, the
deployment can go on with a reconnect and without a crash until nothing is left to send : the
outbox is empty, the log has nothing to replay, and every event that was in the outbox or on the
way to it has been accepted. -/
theorem can_always_drain (hp : p.Admits) {as : List DeployAct}
    (hok : Guarded (step p codec) AppendsClean init as)
    (h : exec (step p codec) init as = some s) :
    ∃ bs t, (∀ b ∈ bs, Recovers b) ∧ exec (step p codec) s bs = some t ∧
      t.net.outbox = [] ∧ t.appended = none ∧ t.committed codec = s.committed codec ∧
      t.agent.wal.replayUnacked = [] ∧
      ∀ d ∈ s.net.outbox ++ s.appended.toList, d ∈ t.net.accepted := by
  have hs := inv_of_run hok h
  obtain ⟨bs₁, s₁, hbs₁, hs₁, hout₁, -, hcom₁, happ₁⟩ := exists_push (p := p) hs
  obtain ⟨bs₂, s₂, hbs₂, hs₂, hready, hkept₂⟩ := exists_connect p codec s₁
  obtain ⟨net, hnet⟩ := Option.isSome_iff_exists.1 hready
  obtain ⟨s₃, c, hs₃, hidle, hkept₃⟩ := exists_idle_of_connect codec hp hnet
  have hrun := exec_append_iff.2 ⟨s₁, hs₁, exec_append_iff.2 ⟨s₂, hs₂, hs₃⟩⟩
  have hbs₃ : ∀ b ∈ ([.net .connect, .net (.read {}), .net .snapshot] : List DeployAct),
      Recovers b := by
    simp [Recovers]
  have hrec := List.forall_mem_append.2 ⟨hbs₁, List.forall_mem_append.2 ⟨hbs₂, hbs₃⟩⟩
  have hinv := hs.recovers hrec hrun
  obtain ⟨bs₄, t, c', hbs₄, ht, hidle', hout, hacc, hcom, happ⟩ := hidle.drain (p := p) hinv rfl
  have happ' : t.appended = none := by
    rw [happ, hkept₃.appended, hkept₂.appended, happ₁]
  refine ⟨_, t, List.forall_mem_append.2 ⟨hrec, hbs₄⟩, exec_append_iff.2 ⟨s₃, hrun, ht⟩, hout,
    happ', ?_, hidle'.replayUnacked (hinv.recovers hbs₄ ht) hout happ', fun d hd => ?_⟩
  · rw [Deployment.committed, hcom, hkept₃.committed, hkept₂.committed, hcom₁,
      Deployment.committed]
  · rw [hacc, hkept₃.outbox, hkept₂.outbox, hout₁]
    exact List.mem_append_right _ hd

theorem can_always_drain_refusedRun :
    ∃ s, exec (step Net.plainPeers plainCodec) init refusedRun = some s ∧
      s.appended.map DetectionEvent.seq = some 3 ∧
      ∃ bs t, (∀ b ∈ bs, Recovers b) ∧ exec (step Net.plainPeers plainCodec) s bs = some t ∧
        t.net.outbox = [] ∧ t.appended = none ∧
        t.committed plainCodec = s.committed plainCodec ∧ t.agent.wal.replayUnacked = [] ∧
        ∀ d ∈ s.net.outbox ++ s.appended.toList, d ∈ t.net.accepted := by
  obtain ⟨s, hs, happ⟩ : ∃ s, exec (step Net.plainPeers plainCodec) init refusedRun = some s ∧
      s.appended.map DetectionEvent.seq = some 3 := exists_exec_of_any (by decide +kernel)
  exact ⟨s, hs, happ, can_always_drain ⟨by decide, nofun⟩ guarded_refusedRun hs⟩

end Deployment

end Ridgeline
