import Ridgeline.ConfigReconciliation
import Ridgeline.Deployment
import Ridgeline.DesiredConfigs

/-!
# The configuration loop

The gateway's file of desired configurations, its stream with one agent, and the agent's
reconciliation in one system. Heartbeats report the applied version, the gateway loads the file
anew for each of them and pushes what the file asks for if that is newer, and the agent stores
and applies it. Anybody may edit the file at any time, the connection may be lost with a part
of what is in flight, and the agent may restart, which forgets all that it has applied. The
producer polls at any time. When it does is left to `Ridgeline.VideoProducer` and
`Ridgeline.FakeProducer`.

Once a heartbeat has been sent, and the stream is drained without being lost, the agent has applied
the version that the file asks for, or a newer one (`converges`), and from every state it gets
there with one reconnect and one heartbeat (`can_always_converge`). What it applies is always what
some content of the file asked for, and until a restart it never goes back : an edit that lowers
the version has no effect (`applies_asked_only`).
-/

namespace Ridgeline

/-- The file with the contents it has had, the agent's variables, the stream of the current
connection, and whether writes to it succeed. -/
structure ConfigLoop where
  file : Option Bytes
  agent : ConfigState
  link : Link
  ok : Bool
  edits : List (Option Bytes)
  deriving DecidableEq, Repr

/-- An edit of the file, a step of the agent's threads, the network or the gateway, or a
restart of the agent. -/
inductive ConfigLoopAct
  | edit (file : Option Bytes)
  | connect (lastAcked : UInt64)
  | send (d : DetectionEvent)
  | heartbeat (queueDepth : UInt32) (framesDropped : UInt64)
  | serve (ans : Answers)
  | deliver
  | lose (up down : ℕ)
  | poll
  | restart

/-- The step leaves the file and the agent's process as they are, and opens no stream. -/
def ConfigLoopAct.Calm : ConfigLoopAct → Prop
  | .edit _ | .connect _ | .restart => False
  | _ => True

/-- The step is neither an edit of the file nor a restart of the agent. -/
def ConfigLoopAct.Recovers : ConfigLoopAct → Prop
  | .edit _ | .restart => False
  | _ => True

namespace ConfigLoop

variable (p : Peers) (atof : Bytes → ℚ) (kind : ProducerKind) (params : LiveParams)

/-- The first start of the agent. -/
def start (file : Option Bytes) : ConfigLoop :=
  ⟨file, .start params, { closed := true }, false, [file]⟩

/-- `stream->Write`, on a connection where that succeeds. -/
def write (s : ConfigLoop) (msg : AgentMessage) : Option ConfigLoop :=
  if s.ok then some { s with link := { s.link with up := s.link.up ++ [msg] } } else none

/-- What `LoadDesiredConfigs` finds for the agent's device. -/
def desired (s : ConfigLoop) : Option ConfigUpdate :=
  loadDesiredConfigs atof s.file p.deviceId

/-- One step. A heartbeat is answered from the file as it is then. -/
def step (s : ConfigLoop) : ConfigLoopAct → Option ConfigLoop
  | .edit file => some { s with file, edits := s.edits ++ [file] }
  | .connect lastAcked =>
    if s.ok = false ∧ s.link.down = [] then
      some { s with
        ok := true
        link := { up := [.hello ⟨p.deviceId, lastAcked, true, p.tenantId⟩] } }
    else none
  | .send d => s.write (.detection d)
  | .heartbeat queueDepth framesDropped =>
    s.write (.heartbeat ⟨queueDepth, framesDropped, s.agent.slot.applied⟩)
  | .serve ans =>
    (s.link.serve p { ans with desired := loadDesiredConfigs atof s.file }).map fun (link, _) =>
      { s with link }
  | .deliver =>
    match s.link.down with
    | [] => none
    | .ack _ :: down => some { s with link := { s.link with down } }
    | .config u :: down => (s.agent.step kind (.offer u)).map fun agent =>
        { s with agent, link := { s.link with down } }
  | .lose up down =>
    some { s with
      ok := false
      link := { s.link with up := s.link.up.take up, down := s.link.down.take down } }
  | .poll => (s.agent.step kind .poll).map fun agent => { s with agent }
  | .restart => some { s with agent := .start params, link := { closed := true }, ok := false }

/-- The updates that the agent has received since its start, or that are on their way. -/
def received (s : ConfigLoop) : List ConfigUpdate :=
  s.agent.offered ++ s.link.down.filterMap fun
    | .config u => some u
    | .ack _ => none

/-- Nothing is in flight on the stream, and no update is pending. -/
structure Quiet (s : ConfigLoop) : Prop where
  up : s.link.up = []
  down : s.link.down = []
  taken : s.agent.slot.pendingSet = false

variable {p atof kind params} {s t : ConfigLoop} {a : ConfigLoopAct} {u w : ConfigUpdate}

theorem mem_received : w ∈ s.received ↔ w ∈ s.agent.offered ∨ .config w ∈ s.link.down := by
  rw [received, List.mem_append, List.mem_filterMap]
  refine or_congr_right ⟨?_, fun h => ⟨_, h, rfl⟩⟩
  rintro ⟨_ | v, hmem, heq⟩
  · cases heq
  · cases heq
    exact hmem

end ConfigLoop

/-! ## What a message is answered with -/

namespace Stream

variable {g : Integrations} {certCn : Option Bytes} {s : Stream} {msg : AgentMessage}
  {ans : Answers} {u : ConfigUpdate}

/-- Only a heartbeat that reports an older version is answered with an update, which is what
the file asks for. -/
theorem sent_onMessage_config_iff : (s.onMessage g certCn msg ans).sent = some (.config u) ↔
    ∃ hb, msg = .heartbeat hb ∧ s.deviceId ≠ [] ∧ g.desiredConfigs ∧
      ans.desired s.deviceId = some u ∧ hb.appliedConfigVersion < u.version := by
  cases msg with
  | hello h => simp [onMessage, (onHello_quiet certCn s h).1]
  | detection d =>
    by_cases hdev : s.deviceId = []
    · simp [onMessage, onDetection, hdev]
    · rw [onMessage, sent_onDetection g d ans hdev]
      split_ifs <;> simp
  | heartbeat hb =>
    by_cases hdev : s.deviceId = []
    · simp [onMessage, onHeartbeat, hdev]
    · by_cases hg : g.desiredConfigs <;>
        simp [onMessage, onHeartbeat, configPush, hdev, hg, Option.filter_eq_some_iff]
  | notSet => simp [onMessage]

/-- The device of a stream is the one of a Hello that was accepted. -/
theorem deviceId_onMessage : (s.onMessage g certCn msg ans).stream.deviceId = s.deviceId ∨
    ∃ h, msg = .hello h ∧ (s.onMessage g certCn msg ans).stream.deviceId = h.deviceId := by
  cases msg with
  | hello h =>
    simp only [onMessage, onHello]
    split_ifs
    · exact .inl rfl
    · exact .inl rfl
    · exact .inr ⟨h, rfl, rfl⟩
  | detection d => exact .inl (deviceId_onDetection g d ans)
  | heartbeat hb => exact .inl (congrArg _ (stream_onHeartbeat g s hb ans))
  | notSet => exact .inl rfl

end Stream

/-- A heartbeat on a stream that has been greeted is answered with the update or not at all. -/
theorem Link.serve_heartbeat {p : Peers} {st : Stream} (hdev : st.deviceId ≠ [])
    (hb : Heartbeat) {ans : Answers} (hwrote : ans.wrote = true) :
    Link.serve p { stream := st, up := [.heartbeat hb] } ans =
      some ({ stream := st,
              down := ((st.configPush p.integrations hb ans).map .config).toList }, none) := by
  cases hpush : st.configPush p.integrations hb ans <;>
    simp [Link.serve, Stream.onMessage, Stream.onHeartbeat, hdev, hpush, hwrote, Outcome.ackSeq,
      Link.decision]

namespace ConfigLoop

variable {p : Peers} {atof : Bytes → ℚ} {kind : ProducerKind} {params : LiveParams}
  {s t : ConfigLoop} {a : ConfigLoopAct} {u w : ConfigUpdate}

/-! ## The steps -/

theorem write_iff {msg : AgentMessage} : s.write msg = some t ↔
    s.ok = true ∧ t = { s with link := { s.link with up := s.link.up ++ [msg] } } := by
  unfold write
  split_ifs with hok <;> simp [hok, eq_comm]

/-- The gateway handles the next message. An update is pushed if that is a heartbeat with an
older version than the file asks for, and the write of it succeeds. -/
theorem step_serve {ans : Answers} (h : s.step p atof kind params (.serve ans) = some t) :
    ∃ msg rest, s.link.closed = false ∧ s.link.up = msg :: rest ∧
      t = { s with link := t.link } ∧ t.link.up = rest ∧
      (t.link.stream.deviceId = s.link.stream.deviceId ∨
        ∃ h, msg = .hello h ∧ t.link.stream.deviceId = h.deviceId) ∧
      (∀ w, .config w ∈ t.link.down → .config w ∈ s.link.down ∨
        loadDesiredConfigs atof s.file s.link.stream.deviceId = some w ∧
          s.link.stream.deviceId ≠ []) ∧
      (∀ w, .config w ∈ s.link.down → .config w ∈ t.link.down) ∧
      (t.link.closed = false → ∀ hb, msg = .heartbeat hb → s.link.stream.deviceId ≠ [] ∧
        (p.integrations.desiredConfigs = true → ∀ w,
          loadDesiredConfigs atof s.file s.link.stream.deviceId = some w →
            hb.appliedConfigVersion < w.version → .config w ∈ t.link.down)) := by
  obtain ⟨⟨l, v⟩, hserve, rfl⟩ := Option.map_eq_some_iff.1 h
  obtain ⟨hclosed, msg, rest, hup, -, rfl⟩ := Link.serve_iff.1 hserve
  refine ⟨msg, rest, hclosed, hup, rfl, rfl, Stream.deviceId_onMessage, ?_, ?_, ?_⟩
  · intro w hw
    simp only at hw
    split_ifs at hw with hstatus
    · exact .inl hw
    · refine (List.mem_append.1 hw).imp_right fun hw => ?_
      obtain ⟨hb, -, hdev, -, hfile, -⟩ :=
        Stream.sent_onMessage_config_iff.1 (Option.mem_toList.1 hw)
      exact ⟨hfile, hdev⟩
  · intro w hw
    simp only
    split_ifs with hstatus
    · exact hw
    · exact List.mem_append_left _ hw
  · rintro hopen hb rfl
    simp only at hopen ⊢
    have hdev : s.link.stream.deviceId ≠ [] := by
      intro hdev
      simp [Stream.onMessage, Stream.onHeartbeat, hdev] at hopen
    refine ⟨hdev, fun hg w hw hlt => ?_⟩
    rw [if_neg (by simp [hopen])]
    exact List.mem_append_right _ (Option.mem_toList.2
      (Stream.sent_onMessage_config_iff.2 ⟨hb, rfl, hdev, hg, hw, hlt⟩))

/-- The reader takes an ack, or an update, which it offers to the slot. -/
theorem step_deliver (h : s.step p atof kind params .deliver = some t) :
    ∃ msg down, s.link.down = msg :: down ∧
      t = { s with agent := t.agent, link := { s.link with down } } ∧
      ((∃ n, msg = .ack n ∧ t.agent = s.agent) ∨
        ∃ u, msg = .config u ∧ s.agent.step kind (.offer u) = some t.agent) := by
  simp only [step] at h
  split at h
  · cases h
  · next n down hdown =>
    cases h
    exact ⟨_, down, hdown, rfl, .inl ⟨n, rfl, rfl⟩⟩
  · next u down hdown =>
    obtain ⟨agent, hagent, rfl⟩ := Option.map_eq_some_iff.1 h
    exact ⟨_, down, hdown, rfl, .inr ⟨u, rfl, hagent⟩⟩

/-- The producer takes what is pending. -/
theorem poll_cases {agent agent' : ConfigState} (h : agent.step kind .poll = some agent') :
    agent'.offered = agent.offered ∧
      (agent'.taken = agent.taken ∨ agent'.taken = agent.taken ++ [agent.slot.pending]) := by
  simp only [ConfigState.step, SlotRun.step] at h
  split_ifs at h <;> cases h
  · exact ⟨rfl, .inr rfl⟩
  · exact ⟨rfl, .inl rfl⟩

/-- The updates received are the same before and after a delivery. -/
theorem mem_received_deliver (h : s.step p atof kind params .deliver = some t) :
    w ∈ t.received ↔ w ∈ s.received := by
  obtain ⟨msg, down, hdown, ht, hcases⟩ := step_deliver h
  have hlink : t.link.down = down := by rw [ht]
  rw [mem_received, mem_received, hlink, hdown, List.mem_cons]
  rcases hcases with ⟨n, rfl, hagent⟩ | ⟨u, rfl, hagent⟩
  · simp [hagent]
  · have hoffered : t.agent.offered = s.agent.offered ++ [u] := by
      rw [← Option.some.inj hagent]
    rw [hoffered, List.mem_append, List.mem_singleton, GatewayMessage.config.injEq]
    exact or_assoc

/-! ## The invariant -/

variable (p atof kind params) in
/-- The slot is in order, the stream belongs to the agent's device, heartbeats in flight report
what was applied, and every update comes from the file. -/
structure Inv (s : ConfigLoop) : Prop where
  slot : s.agent.Inv ConfigUpdate.version (LiveParams.apply kind) .zero params
  hello : ∀ h, .hello h ∈ s.link.up → h.deviceId = p.deviceId
  device : s.link.stream.deviceId = [] ∨ s.link.stream.deviceId = p.deviceId
  reported : ∀ hb, .heartbeat hb ∈ s.link.up → hb.appliedConfigVersion ≤ s.agent.slot.applied
  asked : ∀ u ∈ s.received, ∃ file ∈ s.edits, loadDesiredConfigs atof file p.deviceId = some u
  current : s.file ∈ s.edits

theorem inv_start (file : Option Bytes) : (start params file).Inv p atof kind params where
  slot := SlotRun.inv_start _ _ _ _
  hello := by simp [start]
  device := .inl rfl
  reported := by simp [start]
  asked := by simp [start, received, ConfigState.start, SlotRun.start]
  current := List.mem_singleton_self _

/-- A message that the agent writes. -/
theorem Inv.write (hs : s.Inv p atof kind params) {msg : AgentMessage}
    (hhello : ∀ h, msg ≠ .hello h)
    (hreport : ∀ hb, msg = .heartbeat hb → hb.appliedConfigVersion ≤ s.agent.slot.applied)
    (h : s.write msg = some t) : t.Inv p atof kind params := by
  obtain ⟨-, rfl⟩ := write_iff.1 h
  refine { hs with hello := fun h hmem => ?_, reported := fun hb hmem => ?_ }
  · rcases List.mem_append.1 hmem with hmem | hmem
    · exact hs.hello h hmem
    · exact absurd (List.mem_singleton.1 hmem).symm (hhello h)
  · rcases List.mem_append.1 hmem with hmem | hmem
    · exact hs.reported hb hmem
    · exact hreport hb (List.mem_singleton.1 hmem).symm

theorem Inv.serve (hs : s.Inv p atof kind params) {ans : Answers}
    (h : s.step p atof kind params (.serve ans) = some t) : t.Inv p atof kind params := by
  obtain ⟨msg, rest, -, hup, ht, hrest, hdevice, hpushed, -, -⟩ := step_serve h
  have hagent : t.agent = s.agent := by rw [ht]
  have hfile : t.file = s.file ∧ t.edits = s.edits := by rw [ht]; exact ⟨rfl, rfl⟩
  have hmem : ∀ m, m ∈ t.link.up → m ∈ s.link.up := fun m hm => by
    rw [hup, ← hrest]
    exact List.mem_cons_of_mem _ hm
  refine ⟨hagent ▸ hs.slot, fun h hmem' => hs.hello h (hmem _ hmem'), ?_,
    fun hb hmem' => hagent ▸ hs.reported hb (hmem _ hmem'), fun w hw => ?_,
    hfile.1 ▸ hfile.2 ▸ hs.current⟩
  · rcases hdevice with hdevice | ⟨h, rfl, hdevice⟩
    · exact hdevice ▸ hs.device
    · exact .inr (hdevice.trans (hs.hello h (hup ▸ List.mem_cons_self)))
  · rw [hfile.2]
    rcases mem_received.1 hw with hw | hw
    · exact hs.asked w (mem_received.2 (.inl (hagent ▸ hw)))
    · rcases hpushed w hw with hw | ⟨hw, hdev⟩
      · exact hs.asked w (mem_received.2 (.inr hw))
      · exact ⟨s.file, hs.current, hs.device.resolve_left hdev ▸ hw⟩

theorem Inv.deliver (hs : s.Inv p atof kind params)
    (h : s.step p atof kind params .deliver = some t) : t.Inv p atof kind params := by
  have hreceived := fun w => mem_received_deliver (w := w) h
  obtain ⟨msg, down, hdown, ht, hcases⟩ := step_deliver h
  have hslot : t.agent.Inv ConfigUpdate.version (LiveParams.apply kind) .zero params ∧
      s.agent.slot.applied ≤ t.agent.slot.applied := by
    rcases hcases with ⟨n, -, hagent⟩ | ⟨u, -, hagent⟩
    · rw [hagent]
      exact ⟨hs.slot, le_rfl⟩
    · exact ⟨SlotRun.inv_step hs.slot hagent, hs.slot.applied_le_of_step hagent⟩
  have hlink : t.link = { s.link with down } := by rw [ht]
  have hfile : t.file = s.file ∧ t.edits = s.edits := by rw [ht]; exact ⟨rfl, rfl⟩
  refine ⟨hslot.1, ?_, ?_, ?_, ?_, hfile.1 ▸ hfile.2 ▸ hs.current⟩
  · rw [hlink]
    exact hs.hello
  · rw [hlink]
    exact hs.device
  · rw [hlink]
    exact fun hb hmem => (hs.reported hb hmem).trans hslot.2
  · rw [hfile.2]
    exact fun w hw => hs.asked w ((hreceived w).1 hw)

theorem Inv.step (hs : s.Inv p atof kind params)
    (h : s.step p atof kind params a = some t) : t.Inv p atof kind params := by
  cases a with
  | edit file =>
    cases h
    refine { hs with asked := fun w hw => ?_, current := by simp }
    obtain ⟨f, hf, hw⟩ := hs.asked w hw
    exact ⟨f, List.mem_append_left _ hf, hw⟩
  | connect lastAcked =>
    simp only [ConfigLoop.step] at h
    split_ifs at h
    cases h
    refine { hs with hello := ?_, device := .inl rfl, reported := ?_, asked := fun w hw => ?_ }
    · rintro h hmem
      cases List.mem_singleton.1 hmem
      rfl
    · rintro hb hmem
      cases List.mem_singleton.1 hmem
    · exact hs.asked w (mem_received.2 ((mem_received.1 hw).imp_right (by simp)))
  | send d => exact hs.write (by simp) (by simp) h
  | heartbeat queueDepth framesDropped =>
    refine hs.write (by simp) (fun hb heq => ?_) h
    cases heq
    exact le_rfl
  | serve ans => exact hs.serve h
  | deliver => exact hs.deliver h
  | lose up down =>
    cases h
    refine { hs with
      hello := fun h hmem => hs.hello h (List.mem_of_mem_take hmem)
      reported := fun hb hmem => hs.reported hb (List.mem_of_mem_take hmem)
      asked := fun w hw => ?_ }
    exact hs.asked w (mem_received.2 ((mem_received.1 hw).imp_right List.mem_of_mem_take))
  | poll =>
    obtain ⟨agent, hagent, rfl⟩ := Option.map_eq_some_iff.1 h
    have hoffered := (poll_cases hagent).1
    refine { hs with
      slot := SlotRun.inv_step hs.slot hagent
      reported := fun hb hmem =>
        (hs.reported hb hmem).trans (hs.slot.applied_le_of_step hagent)
      asked := fun w hw => ?_ }
    exact hs.asked w (mem_received.2 ((mem_received.1 hw).imp_left (hoffered ▸ ·)))
  | restart =>
    cases h
    have hstart : (start params s.file).Inv p atof kind params := inv_start s.file
    exact { hstart with
      asked := by simp [received, ConfigState.start, SlotRun.start]
      current := hs.current }

theorem inv_of_exec {file : Option Bytes} {as : List ConfigLoopAct}
    (h : exec (step p atof kind params) (start params file) as = some s) :
    s.Inv p atof kind params :=
  exec_invariant (fun _ _ _ hs h => hs.step h) (inv_start file) h

/-! ## Convergence -/

/-- Since `s`, where the file asked for `u` : a heartbeat is on its way to the gateway, or `u`
to the agent, or the agent has received `u` or something newer, unless the stream is lost. -/
structure Toward (s : ConfigLoop) (u : ConfigUpdate) (t : ConfigLoop) : Prop where
  file : t.file = s.file
  known : ∀ w ∈ t.received, w = u ∨ w ∈ s.received
  coming : t.ok = true → t.link.closed = false →
    (∃ hb, .heartbeat hb ∈ t.link.up) ∨ .config u ∈ t.link.down ∨
      ∃ w ∈ .zero :: t.agent.offered, u.version ≤ w.version

variable {t' : ConfigLoop}

theorem Toward.write {msg : AgentMessage} (ht : Toward s u t) (h : t.write msg = some t') :
    Toward s u t' := by
  obtain ⟨-, rfl⟩ := write_iff.1 h
  refine { ht with coming := fun hok hopen => (ht.coming hok hopen).imp_left ?_ }
  rintro ⟨hb, hmem⟩
  exact ⟨hb, List.mem_append_left _ hmem⟩

theorem Toward.serve {ans : Answers} (ht : Toward s u t) (hinv : t.Inv p atof kind params)
    (hg : p.integrations.desiredConfigs = true) (hu : s.desired p atof = some u)
    (h : t.step p atof kind params (.serve ans) = some t') : Toward s u t' := by
  obtain ⟨msg, rest, hopen, hup, ht', hrest, -, hpushed, hkept, hpush⟩ := step_serve h
  have hagent : t'.agent = t.agent := by rw [ht']
  have hsame : t'.file = t.file ∧ t'.ok = t.ok := by rw [ht']; exact ⟨rfl, rfl⟩
  -- a stream that has a device is the agent's, and what it loads from the file is `u`
  have hload : t.link.stream.deviceId ≠ [] →
      loadDesiredConfigs atof t.file t.link.stream.deviceId = some u := fun hdev => by
    rw [ht.file, hinv.device.resolve_left hdev]
    exact hu
  refine ⟨hsame.1.trans ht.file, fun w hw => ?_, fun hok hopen' => ?_⟩
  · rcases mem_received.1 hw with hw | hw
    · exact ht.known w (mem_received.2 (.inl (hagent ▸ hw)))
    · rcases hpushed w hw with hw | ⟨hw, hdev⟩
      · exact ht.known w (mem_received.2 (.inr hw))
      · exact .inl (Option.some.inj (hw.symm.trans (hload hdev)))
  · rw [hagent]
    rcases ht.coming (hsame.2 ▸ hok) hopen with ⟨hb, hmem⟩ | hmem | hw
    · rw [hup] at hmem
      rcases List.mem_cons.1 hmem with rfl | hmem'
      · obtain ⟨hdev, hpush⟩ := hpush hopen' hb rfl
        by_cases hlt : hb.appliedConfigVersion < u.version
        · exact .inr (.inl (hpush hg u (hload hdev) hlt))
        · refine .inr (.inr ⟨t.agent.slot.pending, hinv.slot.pending_mem, ?_⟩)
          exact (not_lt.1 hlt).trans
            ((hinv.reported hb (hup ▸ hmem)).trans hinv.slot.applied_le)
      · exact .inl ⟨hb, hrest ▸ hmem'⟩
    · exact .inr (.inl (hkept u hmem))
    · exact .inr (.inr hw)

theorem Toward.deliver (ht : Toward s u t)
    (h : t.step p atof kind params .deliver = some t') : Toward s u t' := by
  have hreceived := fun w => mem_received_deliver (w := w) h
  obtain ⟨msg, down, hdown, ht', hcases⟩ := step_deliver h
  have hsame : t'.file = t.file ∧ t'.ok = t.ok ∧ t'.link = { t.link with down } := by
    rw [ht']
    exact ⟨rfl, rfl, rfl⟩
  have hoffered : t.agent.offered ⊆ t'.agent.offered := by
    rcases hcases with ⟨n, -, hagent⟩ | ⟨v, -, hagent⟩
    · rw [hagent]
      exact List.Subset.refl _
    · rw [← Option.some.inj hagent]
      exact List.subset_append_left _ _
  refine ⟨hsame.1.trans ht.file, fun w hw => ht.known w ((hreceived w).1 hw), ?_⟩
  rw [hsame.2.1, hsame.2.2]
  intro hok hopen
  rcases ht.coming hok hopen with hup | hmem | ⟨w, hmem, hle⟩
  · exact .inl hup
  · rcases (mem_received.1 ((hreceived u).2 (mem_received.2 (.inr hmem)))) with hmem | hmem
    · exact .inr (.inr ⟨u, List.mem_cons_of_mem _ hmem, le_rfl⟩)
    · rw [hsame.2.2] at hmem
      exact .inr (.inl hmem)
  · exact .inr (.inr ⟨w, List.cons_subset_cons _ hoffered hmem, hle⟩)

theorem Toward.step (ht : Toward s u t) (hinv : t.Inv p atof kind params)
    (hg : p.integrations.desiredConfigs = true) (hu : s.desired p atof = some u)
    (ha : a.Calm) (h : t.step p atof kind params a = some t') : Toward s u t' := by
  cases a with
  | edit file => exact ha.elim
  | connect lastAcked => exact ha.elim
  | restart => exact ha.elim
  | send d => exact ht.write h
  | heartbeat queueDepth framesDropped => exact ht.write h
  | serve ans => exact ht.serve hinv hg hu h
  | deliver => exact ht.deliver h
  | lose up down =>
    cases h
    refine { ht with known := fun w hw => ht.known w ?_, coming := by simp }
    exact mem_received.2 ((mem_received.1 hw).imp_right List.mem_of_mem_take)
  | poll =>
    obtain ⟨agent, hagent, rfl⟩ := Option.map_eq_some_iff.1 h
    have hoffered := (poll_cases hagent).1
    refine { ht with known := fun w hw => ht.known w ?_, coming := fun hok hopen => ?_ }
    · exact mem_received.2 ((mem_received.1 hw).imp_left (hoffered ▸ ·))
    · rw [hoffered]
      exact ht.coming hok hopen

/-- A heartbeat sets out, and everything after it is calm. -/
theorem Toward.of_exec {as : List ConfigLoopAct} {queueDepth : UInt32} {framesDropped : UInt64}
    (hs : s.Inv p atof kind params) (hg : p.integrations.desiredConfigs = true)
    (hu : s.desired p atof = some u) (hcalm : ∀ a ∈ as, a.Calm)
    (h : exec (ConfigLoop.step p atof kind params) s (.heartbeat queueDepth framesDropped :: as) =
      some t) : t.Inv p atof kind params ∧ Toward s u t := by
  obtain ⟨s₁, hs₁, h⟩ := exec_cons_iff.1 h
  have hinv := hs.step hs₁
  obtain ⟨-, rfl⟩ := write_iff.1 hs₁
  have hstart : Toward s u { s with link := { s.link with
      up := s.link.up ++ [.heartbeat ⟨queueDepth, framesDropped, s.agent.slot.applied⟩] } } :=
    ⟨rfl, fun w hw => .inr hw,
      fun _ _ => .inl ⟨_, List.mem_append_right _ (List.mem_singleton_self _)⟩⟩
  have hstep : ∀ t a t', t.Inv p atof kind params ∧ Toward s u t → a.Calm →
      ConfigLoop.step p atof kind params t a = some t' →
        t'.Inv p atof kind params ∧ Toward s u t' := fun t a t' ht ha h =>
    ⟨ht.1.step h, ht.2.step ht.1 hg hu ha h⟩
  exact exec_invariant_guarded hstep ⟨hinv, hstart⟩ (Guarded.of_forall fun _ => hcalm) h

/-- When nothing is in flight, the agent has applied the version of `u` or a newer one. -/
theorem Toward.le_applied (ht : Toward s u t) (hinv : t.Inv p atof kind params)
    (hok : t.ok = true) (hopen : t.link.closed = false) (hquiet : t.Quiet) :
    u.version ≤ t.agent.slot.applied := by
  rcases ht.coming hok hopen with ⟨hb, hmem⟩ | hmem | ⟨w, hmem, hle⟩
  · simp [hquiet.up] at hmem
  · simp [hquiet.down] at hmem
  · rw [hinv.slot.settled hquiet.taken]
    exact hle.trans (hinv.slot.newest w hmem)

/-- It is `u` that was applied last, if all else that the agent has received is older. -/
theorem Toward.getLast_taken (ht : Toward s u t) (hinv : t.Inv p atof kind params)
    (hle : u.version ≤ t.agent.slot.applied) (hpos : 0 < u.version)
    (holder : ∀ w ∈ s.received, w.version < u.version) : t.agent.taken.getLast? = some u := by
  have hlast := hinv.slot.last
  cases htaken : t.agent.taken.getLast? with
  | none =>
    rw [htaken] at hlast
    exact absurd (hpos.trans_le (hle.trans hlast.le)) (lt_irrefl _)
  | some w =>
    rw [htaken, Option.getD_some] at hlast
    have hmem : w ∈ t.agent.offered :=
      hinv.slot.taken_sublist.subset (List.mem_of_getLast? htaken)
    rcases ht.known w (mem_received.2 (.inl hmem)) with rfl | hw
    · rfl
    · exact absurd (hle.trans hlast.le) (not_le.2 (holder w hw))

variable (p atof) in
/-- The agent has applied the version of `u`, which the file asks for, or a newer one, and the
gateway sees no reason to push anything. Only versions count : an edit that changes the other
fields and keeps the version is never applied. -/
structure Converged (u : ConfigUpdate) (t : ConfigLoop) : Prop where
  applied : u.version ≤ t.agent.slot.applied
  silent : ∀ (hb : Heartbeat) (ans : Answers), hb.appliedConfigVersion = t.agent.slot.applied →
    (t.link.stream.onHeartbeat p.integrations hb
      { ans with desired := loadDesiredConfigs atof t.file }).sent = none

theorem Toward.converged (ht : Toward s u t) (hinv : t.Inv p atof kind params)
    (hu : s.desired p atof = some u) (hok : t.ok = true) (hopen : t.link.closed = false)
    (hquiet : t.Quiet) : t.Converged p atof u := by
  have hle := ht.le_applied hinv hok hopen hquiet
  refine ⟨hle, fun hb ans hhb => ?_⟩
  by_cases hdev : t.link.stream.deviceId = []
  · simp [Stream.onHeartbeat, hdev]
  · refine ConfigState.sent_onHeartbeat_eq_none fun w hw => ?_
    rw [ht.file, hinv.device.resolve_left hdev] at hw
    rw [Option.some.inj (hw.symm.trans hu), hhb]
    exact hle

/-- In every run, with edits of the file, lost connections and restarts in any order : when the
file asks for `u` and a heartbeat is sent, and if from then on the file is not edited, the agent
does not restart and the stream is not lost, then as soon as nothing is in flight and nothing
pending, the agent has applied the version of `u` or a newer one, and the gateway pushes nothing
more. If the version of `u` is not 0 and newer than all that the agent had received, it has applied
`u` last. -/
theorem converges {file : Option Bytes} {as bs : List ConfigLoopAct} {queueDepth : UInt32}
    {framesDropped : UInt64} (hg : p.integrations.desiredConfigs = true)
    (hs : exec (ConfigLoop.step p atof kind params) (start params file) as = some s)
    (hu : s.desired p atof = some u)
    (ht : exec (ConfigLoop.step p atof kind params) s
      (.heartbeat queueDepth framesDropped :: bs) = some t)
    (hcalm : ∀ a ∈ bs, a.Calm) (hok : t.ok = true) (hopen : t.link.closed = false)
    (hquiet : t.Quiet) : t.Converged p atof u ∧
      (0 < u.version → (∀ w ∈ s.received, w.version < u.version) →
        t.agent.taken.getLast? = some u) := by
  have hinv := inv_of_exec hs
  obtain ⟨hinv', htoward⟩ := Toward.of_exec hinv hg hu hcalm ht
  have hconv := htoward.converged hinv' hu hok hopen hquiet
  exact ⟨hconv, htoward.getLast_taken hinv' hconv.applied⟩

/-- A gateway that only has a file of configurations, and a camera. -/
def cameraPeers : Peers :=
  ⟨⟨false, false, false, true⟩, none, ascii "cam-1", []⟩

/-- The steps of their loop. -/
abbrev cameraStep : ConfigLoop → ConfigLoopAct → Option ConfigLoop :=
  step cameraPeers (fun _ => 0) .video ⟨3, 5, 3 / 10, 5⟩

/-- Their loop when there is no file yet. -/
abbrev cameraStart : ConfigLoop :=
  start ⟨3, 5, 3 / 10, 5⟩ none

/-- The file asks for version 1, which the camera applies, and then for version 3. -/
def editedRun : List ConfigLoopAct :=
  [.edit (some (ascii "cam-1,1,2,5,0,0\n")), .connect 0, .serve {}, .heartbeat 0 0, .serve {},
    .deliver, .poll, .edit (some (ascii "# tighter\ncam-1,3,4,0,0,0\n"))]

theorem converges_editedRun : ∃ s t,
    exec cameraStep cameraStart editedRun = some s ∧ s.agent.slot.applied = 1 ∧
      exec cameraStep s [.heartbeat 0 0, .serve {}, .deliver, .poll] = some t ∧
      t.Converged cameraPeers (fun _ => 0) ⟨3, 0, 4, 0, 0⟩ ∧
      t.agent.taken.getLast? = some ⟨3, 0, 4, 0, 0⟩ := by
  obtain ⟨s, hs, happlied, hu, holder, hrun⟩ : ∃ s,
      exec cameraStep cameraStart editedRun = some s ∧ s.agent.slot.applied = 1 ∧
        s.desired cameraPeers (fun _ => 0) = some ⟨3, 0, 4, 0, 0⟩ ∧
        (∀ w ∈ s.received, w.version < 3) ∧
        (exec cameraStep s [.heartbeat 0 0, .serve {}, .deliver, .poll]).any fun t =>
          t.ok = true ∧ t.link.closed = false ∧ t.link.up = [] ∧ t.link.down = [] ∧
            t.agent.slot.pendingSet = false :=
    exists_exec_of_any (by decide +kernel)
  obtain ⟨t, ht, hok, hopen, hup, hdown, htaken⟩ := exists_exec_of_any hrun
  have hconv := converges rfl hs hu ht
    (by simp [ConfigLoopAct.Calm]) hok hopen ⟨hup, hdown, htaken⟩
  exact ⟨s, t, hs, happlied, ht, hconv.1, hconv.2 (by decide) holder⟩

/-! ## From every state -/

/-- The producer polls, and then nothing is pending. -/
theorem exists_poll (s : ConfigLoop) : ∃ t, s.step p atof kind params .poll = some t ∧
    t.ok = s.ok ∧ t.link = s.link ∧ t.agent.slot.pendingSet = false := by
  cases hset : s.agent.slot.pendingSet with
  | false =>
    refine ⟨s, ?_, rfl, rfl, hset⟩
    simp [ConfigLoop.step, ConfigState.step, SlotRun.step, hset]
  | true =>
    have hpoll : s.agent.step kind .poll = some { s.agent with
        slot := ⟨s.agent.slot.pending, false, s.agent.slot.pending.version⟩
        state := s.agent.state.apply kind s.agent.slot.pending
        taken := s.agent.taken ++ [s.agent.slot.pending] } := by
      simp [ConfigState.step, SlotRun.step, hset]
    exact ⟨_, congrArg (Option.map _) hpoll, rfl, rfl, rfl⟩

/-- The agent receives the answer to its heartbeat, if there is one, and the producer polls. -/
def takeAnswer (answered : Bool) : List ConfigLoopAct :=
  if answered then [.deliver, .poll] else [.poll]

/-- What is left of the connection is lost, the agent reconnects and is greeted, sends a heartbeat,
which the gateway handles, and takes the answer. -/
def reconnectRun (answered : Bool) : List ConfigLoopAct :=
  [.lose 0 0, .connect 0, .serve {}] ++ .heartbeat 0 0 :: .serve {} :: takeAnswer answered

/-- At most one update is in flight : the agent receives it, and the producer polls. -/
theorem exists_quiet (hup : s.link.up = [])
    (hdown : s.link.down = [] ∨ ∃ w, s.link.down = [.config w]) :
    ∃ answered t, exec (ConfigLoop.step p atof kind params) s (takeAnswer answered) = some t ∧
      t.ok = s.ok ∧ t.link.closed = s.link.closed ∧ t.Quiet := by
  rcases hdown with hdown | ⟨w, hdown⟩
  · obtain ⟨t, hpoll, hok, hlink, hset⟩ := exists_poll s
    refine ⟨false, t, exec_cons_iff.2 ⟨t, hpoll, rfl⟩, hok, by rw [hlink], ?_, ?_, hset⟩
    · rw [hlink, hup]
    · rw [hlink, hdown]
  · let s₁ : ConfigLoop := { s with
      agent := { s.agent with
        slot :=
          if s.agent.slot.Admits ConfigUpdate.version w then
            { s.agent.slot with pending := w, pendingSet := true }
          else s.agent.slot
        offered := s.agent.offered ++ [w] }
      link := { s.link with down := [] } }
    have hdeliver : s.step p atof kind params .deliver = some s₁ := by
      simp only [ConfigLoop.step, hdown]
      rfl
    obtain ⟨t, hpoll, hok, hlink, hset⟩ := exists_poll s₁
    refine ⟨true, t, exec_cons_iff.2 ⟨s₁, hdeliver, exec_cons_iff.2 ⟨t, hpoll, rfl⟩⟩, hok,
      by rw [hlink], ?_, ?_, hset⟩
    · rw [hlink]
      exact hup
    · rw [hlink]

/-- From every state that the loop can be in, if the gateway lets the agent in, a reconnect, a
heartbeat, its answer and a poll of the producer (`reconnectRun`) lead to a state in which nothing
is in flight or pending and the agent has applied the version that the file asks for, or a newer
one. -/
theorem can_always_converge {file : Option Bytes} {as : List ConfigLoopAct}
    (hg : p.integrations.desiredConfigs = true) (hp : p.Admits)
    (hs : exec (ConfigLoop.step p atof kind params) (start params file) as = some s)
    (hu : s.desired p atof = some u) : ∃ answered t, (∀ b ∈ reconnectRun answered, b.Recovers) ∧
      exec (ConfigLoop.step p atof kind params) s (reconnectRun answered) = some t ∧ t.ok = true ∧
        t.link.closed = false ∧ t.Quiet ∧ t.Converged p atof u := by
  let st : Stream := { deviceId := p.deviceId, tenantId := p.tenantId, lastSeq := 0 }
  let hb : Heartbeat := ⟨0, 0, s.agent.slot.applied⟩
  let ans : Answers := { desired := loadDesiredConfigs atof s.file }
  let push := st.configPush p.integrations hb ans
  let s₁ : ConfigLoop := { s with ok := true, link := { stream := st } }
  let s₂ : ConfigLoop := { s₁ with link := { stream := st, down := (push.map .config).toList } }
  have hgreeted : exec (ConfigLoop.step p atof kind params) s
      [.lose 0 0, .connect 0, .serve {}] = some s₁ := by
    simp only [exec, ConfigLoop.step, List.take_zero, Option.bind_some, and_self, if_true]
    rw [Link.serve_hello hp]
    rfl
  have hanswered : exec (ConfigLoop.step p atof kind params) s₁ [.heartbeat 0 0, .serve {}] =
      some s₂ := by
    simp only [exec, ConfigLoop.step, ConfigLoop.write, s₁, if_true, Option.bind_some,
      List.nil_append]
    rw [Link.serve_heartbeat hp.1 _ rfl]
    rfl
  have hdown : s₂.link.down = [] ∨ ∃ w, s₂.link.down = [.config w] := by
    cases hpush : push with
    | none => exact .inl (by simp [s₂, hpush])
    | some w => exact .inr ⟨w, by simp [s₂, hpush]⟩
  obtain ⟨answered, t, ht, hok, hopen, hquiet⟩ := exists_quiet (s := s₂) rfl hdown
  have hs₁ := inv_of_exec (exec_append_iff.2 ⟨s, hs, hgreeted⟩)
  have hrun : exec (ConfigLoop.step p atof kind params) s₁
      ([.heartbeat 0 0, .serve {}] ++ takeAnswer answered) = some t :=
    exec_append_iff.2 ⟨s₂, hanswered, ht⟩
  have hcalm : ∀ c ∈ .serve {} :: takeAnswer answered, c.Calm := by
    cases answered <;> simp [takeAnswer, ConfigLoopAct.Calm]
  obtain ⟨hinv, htoward⟩ := Toward.of_exec hs₁ hg hu hcalm hrun
  refine ⟨answered, t, ?_, exec_append_iff.2 ⟨s₁, hgreeted, hrun⟩, hok, hopen, hquiet,
    htoward.converged hinv hu hok hopen hquiet⟩
  cases answered <;> simp [reconnectRun, takeAnswer, ConfigLoopAct.Recovers]

theorem can_always_converge_editedRun : ∃ s answered t,
    exec cameraStep cameraStart (editedRun ++ [.lose 0 0]) = some s ∧
      exec cameraStep s (reconnectRun answered) = some t ∧
      t.Converged cameraPeers (fun _ => 0) ⟨3, 0, 4, 0, 0⟩ := by
  obtain ⟨s, hs, hu⟩ : ∃ s,
      exec cameraStep cameraStart (editedRun ++ [.lose 0 0]) = some s ∧
        s.desired cameraPeers (fun _ => 0) = some ⟨3, 0, 4, 0, 0⟩ :=
    exists_exec_of_any (by decide +kernel)
  obtain ⟨answered, t, -, ht, -, -, -, hconv⟩ := can_always_converge rfl
    ⟨by decide, by simp [cameraPeers]⟩ hs hu
  exact ⟨s, answered, t, hs, ht, hconv⟩

/-! ## What the agent applies -/

/-- Until a restart nothing that the agent has received is forgotten, and it applies what is
pending. -/
theorem taken_step (ha : a ≠ .restart) (h : s.step p atof kind params a = some t) :
    s.agent.offered ⊆ t.agent.offered ∧ (t.agent.taken = s.agent.taken ∨
      t.agent.taken = s.agent.taken ++ [s.agent.slot.pending]) := by
  have hsame : t.agent = s.agent → s.agent.offered ⊆ t.agent.offered ∧
      (t.agent.taken = s.agent.taken ∨
        t.agent.taken = s.agent.taken ++ [s.agent.slot.pending]) := fun heq => by
    rw [heq]
    exact ⟨List.Subset.refl _, .inl rfl⟩
  cases a with
  | edit file =>
    cases h
    exact hsame rfl
  | connect lastAcked =>
    simp only [ConfigLoop.step] at h
    split_ifs at h
    cases h
    exact hsame rfl
  | send d =>
    obtain ⟨-, rfl⟩ := write_iff.1 h
    exact hsame rfl
  | heartbeat queueDepth framesDropped =>
    obtain ⟨-, rfl⟩ := write_iff.1 h
    exact hsame rfl
  | serve ans =>
    obtain ⟨-, -, -, -, ht, -⟩ := step_serve h
    exact hsame (by rw [ht])
  | deliver =>
    obtain ⟨msg, down, -, -, ⟨n, -, hagent⟩ | ⟨u, -, hagent⟩⟩ := step_deliver h
    · exact hsame hagent
    · rw [← Option.some.inj hagent]
      exact ⟨List.subset_append_left _ _, .inl rfl⟩
  | lose up down =>
    cases h
    exact hsame rfl
  | poll =>
    obtain ⟨agent, hagent, rfl⟩ := Option.map_eq_some_iff.1 h
    obtain ⟨hoffered, htaken⟩ := poll_cases hagent
    exact ⟨hoffered ▸ List.Subset.refl _, htaken⟩
  | restart => exact absurd rfl ha

/-- From every state of every run, until the agent restarts, the updates that it applies have
increasing versions, none older than what it has received before, and each of them is what
the file asked for at some time. The parameters are what they leave. So an edit that asks for
an older version has no effect before a restart. -/
theorem applies_asked_only {file : Option Bytes} {as bs : List ConfigLoopAct}
    (hs : exec (ConfigLoop.step p atof kind params) (start params file) as = some s)
    (ht : exec (ConfigLoop.step p atof kind params) s bs = some t)
    (hbs : ∀ b ∈ bs, b ≠ .restart) : ∃ l, t.agent.taken = s.agent.taken ++ l ∧
      t.agent.state = l.foldl (LiveParams.apply kind) s.agent.state ∧
        l.Pairwise (fun u w => u.version < w.version) ∧
          ∀ u ∈ l, (∀ w ∈ s.agent.offered, w.version ≤ u.version) ∧
            ∃ file ∈ t.edits, loadDesiredConfigs atof file p.deviceId = some u := by
  have hinv := inv_of_exec hs
  have hinv' := inv_of_exec (exec_append_iff.2 ⟨s, hs, ht⟩)
  have hstep : ∀ t a t', (t.Inv p atof kind params ∧ s.agent.offered ⊆ t.agent.offered ∧
      ∃ l, t.agent.taken = s.agent.taken ++ l ∧
        ∀ u ∈ l, ∀ w ∈ s.agent.offered, w.version ≤ u.version) → a ≠ .restart →
      ConfigLoop.step p atof kind params t a = some t' →
        t'.Inv p atof kind params ∧ s.agent.offered ⊆ t'.agent.offered ∧
          ∃ l, t'.agent.taken = s.agent.taken ++ l ∧
            ∀ u ∈ l, ∀ w ∈ s.agent.offered, w.version ≤ u.version := by
    rintro t a t' ⟨htinv, hsub, l, hl, hnewer⟩ ha h
    obtain ⟨hoffered, htaken⟩ := taken_step ha h
    refine ⟨htinv.step h, List.Subset.trans hsub hoffered, ?_⟩
    rcases htaken with htaken | htaken
    · exact ⟨l, htaken.trans hl, hnewer⟩
    · refine ⟨l ++ [t.agent.slot.pending], by simp [htaken, hl], fun u hu w hw => ?_⟩
      rcases List.mem_append.1 hu with hu | hu
      · exact hnewer u hu w hw
      · rw [List.mem_singleton.1 hu]
        exact htinv.slot.newest w (List.mem_cons_of_mem _ (hsub hw))
  obtain ⟨-, -, l, hl, hnewer⟩ := exec_invariant_guarded hstep
    ⟨hinv, List.Subset.refl _, [], by simp, by simp⟩ (Guarded.of_forall fun _ => hbs) ht
  have hincreasing := hinv'.slot.increasing
  rw [hl, List.map_append, List.pairwise_append] at hincreasing
  refine ⟨l, hl, ?_, List.pairwise_map.1 hincreasing.2.1, fun u hu => ⟨hnewer u hu, ?_⟩⟩
  · rw [hinv'.slot.state, hl, List.foldl_append, ← hinv.slot.state]
  · refine hinv'.asked u (mem_received.2 (.inl (hinv'.slot.taken_sublist.subset ?_)))
    rw [hl]
    exact List.mem_append_right _ hu

/-- The camera applies version 3, and the file goes back to version 2. -/
def rollbackRun : List ConfigLoopAct :=
  [.heartbeat 0 0, .serve {}, .deliver, .poll,
    .edit (some (ascii "cam-1,2,9,9,0,0\n")), .heartbeat 0 0, .serve {}, .poll]

theorem applies_asked_only_rollbackRun : ∃ s t,
    exec cameraStep cameraStart editedRun = some s ∧
      exec cameraStep s rollbackRun = some t ∧ t.agent.slot.applied = 3 ∧
      ∃ l, t.agent.taken = s.agent.taken ++ l ∧
        ∀ u ∈ l, ∀ w ∈ s.agent.offered, w.version ≤ u.version := by
  obtain ⟨s, hs, hrun⟩ : ∃ s,
      exec cameraStep cameraStart editedRun = some s ∧
        (exec cameraStep s rollbackRun).any fun t => t.agent.slot.applied = 3 :=
    exists_exec_of_any (by decide +kernel)
  obtain ⟨t, ht, happlied⟩ := exists_exec_of_any hrun
  obtain ⟨l, hl, -, -, hall⟩ := applies_asked_only hs ht (by simp [rollbackRun])
  exact ⟨s, t, hs, ht, happlied, l, hl, fun u hu => (hall u hu).1⟩

end ConfigLoop

end Ridgeline
