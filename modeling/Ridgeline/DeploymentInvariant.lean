import Ridgeline.FirstOccurrences
import Ridgeline.IdealStream

/-!
# The invariant of a deployment

The events of a deployment are numbered from 1 over all its lifetimes, and the log holds
those above the checkpoint. Every stream is compared with one that reads the same messages and
refuses nothing (`Ridgeline.IdealStream`) : the protocol of such streams has the invariants
`Net.Inv` and `Link.Inv`, and the refusing stream is behind it in `last_seq` and has decided
on every event before the position of the other one (`Deployment.Beside`).
-/

namespace Ridgeline

/-! ## Numbered events -/

theorem Numbered.filter_lt {n : UInt64} : ∀ {base : ℕ} {ds : List DetectionEvent},
    Numbered base ds → ds.filter (fun d => n < d.seq) = ds.drop (n.toNat - base)
  | _, [], _ => by simp
  | base, d :: ds, h => by
    have hd : d.seq.toNat = base + 1 := h 0 d rfl
    have hds : Numbered (base + 1) ds := fun i e he => by
      have := h (i + 1) e he
      omega
    have ih := filter_lt (n := n) hds
    by_cases hn : n < d.seq
    · have hlt := UInt64.lt_iff_toNat_lt.1 hn
      have h0 : n.toNat - base = 0 := by omega
      have h1 : n.toNat - (base + 1) = 0 := by omega
      rw [List.filter_cons_of_pos (by simpa using hn), ih, h0, h1]
      rfl
    · have hge := mt UInt64.lt_iff_toNat_lt.2 hn
      rw [List.filter_cons_of_neg (by simpa using hn), ih,
        show n.toNat - base = (n.toNat - (base + 1)) + 1 by omega, List.drop_succ_cons]

theorem Numbered.filter_le {n : UInt64} : ∀ {base : ℕ} {ds : List DetectionEvent},
    Numbered base ds → ds.filter (fun d => d.seq ≤ n) = ds.take (n.toNat - base)
  | _, [], _ => by simp
  | base, d :: ds, h => by
    have hd : d.seq.toNat = base + 1 := h 0 d rfl
    have hds : Numbered (base + 1) ds := fun i e he => by
      have := h (i + 1) e he
      omega
    have ih := filter_le (n := n) hds
    by_cases hn : d.seq ≤ n
    · have hle := UInt64.le_iff_toNat_le.1 hn
      rw [List.filter_cons_of_pos (by simpa using hn), ih,
        show n.toNat - base = (n.toNat - (base + 1)) + 1 by omega, List.take_succ_cons]
    · have hgt := mt UInt64.le_iff_toNat_le.2 hn
      have h0 : n.toNat - base = 0 := by omega
      have h1 : n.toNat - (base + 1) = 0 := by omega
      rw [List.filter_cons_of_neg (by simpa using hn), ih, h0, h1]
      simp

theorem Numbered.nodup {base : ℕ} {ds : List DetectionEvent} (h : Numbered base ds) : ds.Nodup := by
  rw [List.nodup_iff_getElem?_ne_getElem?]
  intro i j hij hj heq
  obtain ⟨d, hd⟩ : ∃ d, ds[j]? = some d := ⟨_, List.getElem?_eq_getElem hj⟩
  have h1 := h j d hd
  have h2 := h i d (heq.trans hd)
  omega

theorem Numbered.snoc {base : ℕ} {ds : List DetectionEvent} {d : DetectionEvent}
    (h : Numbered base ds) (hd : d.seq.toNat = base + ds.length + 1) :
    Numbered base (ds ++ [d]) := by
  intro i e he
  rcases Nat.lt_or_ge i ds.length with hi | hi
  · rw [List.getElem?_append_left hi] at he
    exact h i e he
  · rw [List.getElem?_append_right hi, List.getElem?_singleton] at he
    split_ifs at he with h0
    cases he
    omega

theorem Numbered.foldl_max : ∀ {ds : List DetectionEvent} {n : UInt64}, Numbered n.toNat ds →
    (ds.foldl (fun m d => max m d.seq) n).toNat = n.toNat + ds.length
  | [], n, _ => rfl
  | d :: ds, n, h => by
    have hd : d.seq.toNat = n.toNat + 1 := h 0 d rfl
    have hmax : max n d.seq = d.seq := max_eq_right (UInt64.le_iff_toNat_le.2 (by omega))
    have hds : Numbered d.seq.toNat ds := fun i e he => by
      have := h (i + 1) e he
      omega
    rw [List.foldl_cons, hmax, foldl_max hds, hd, List.length_cons]
    omega

theorem Numbered.drop {ds : List DetectionEvent} (h : Numbered 0 ds) (n : UInt64) :
    Numbered n.toNat (ds.drop n.toNat) := by
  intro i d hd
  rw [List.getElem?_drop] at hd
  have := h (n.toNat + i) d hd
  omega

theorem Link.Inv.of_down {base h r : ℕ} {events : List DetectionEvent} {l : Link}
    (hl : l.Inv base events h r) {down : List GatewayMessage}
    (hdown : ∀ n, .ack n ∈ down → .ack n ∈ l.down) :
    ({ l with down } : Link).Inv base events h r :=
  { hl with down := fun n hn => hl.down n (hdown n hn) }

/-- A detection that is the next message is the event at the position of the stream. -/
theorem Link.Inv.next {base h r : ℕ} {events : List DetectionEvent} {l : Link} {d : DetectionEvent}
    {rest : List AgentMessage} (hl : l.Inv base events h r) (hopen : l.closed = false)
    (hup : l.up = .detection d :: rest) : l.AfterHello base r ∧ events[r]? = some d := by
  constructor
  · rcases hl.state with hclosed | hnil | ⟨-, -, hello, rest', hup', -⟩ | hafter
    · exact absurd hclosed (by simp [hopen])
    · exact absurd hnil (by simp [hup])
    · rw [hup] at hup'
      cases hup'
    · exact hafter
  · obtain ⟨t, ht⟩ := hl.flight
    rw [hup] at ht
    rw [← Nat.add_zero r, ← List.getElem?_drop, ← ht]
    rfl

/-- A stream whose next message is a Hello has read none. -/
theorem Link.Inv.not_started {base h r : ℕ} {events : List DetectionEvent} {l : Link} {x : Hello}
    {rest : List AgentMessage} (hl : l.Inv base events h r) (hopen : l.closed = false)
    (hup : l.up = .hello x :: rest) : l.stream.deviceId = [] := by
  rcases hl.state with hclosed | hnil | hat | hafter
  · exact absurd hclosed (by simp [hopen])
  · exact absurd hnil (by simp [hup])
  · exact hat.1
  · exact absurd (hup ▸ List.mem_cons_self) (hafter.2.2.2 x)

namespace Net

/-- The Hello is on its way on a new stream, and the link of the last connection is kept. -/
def fresh (p : Peers) (s : Net) : Connection :=
  { link := { up := [.hello ⟨p.deviceId, s.lastAcked, true, p.tenantId⟩] } }

theorem eq_of_connect {p : Peers} {s t : Net} (h : s.connect p = some t) :
    t = { s with
      conn := some (s.fresh p)
      old := s.old ++ (s.conn.map Connection.link).toList } := by
  unfold connect at h
  simp only at h
  split at h
  · rename_i hnone
    cases h
    simp [hnone, fresh]
  · rename_i c hc
    split_ifs at h with hready
    cases h
    simp [hc, fresh]

theorem exists_connect_withStream {p : Peers} {s t : Net} (h : s.connect p = some t) (st : Stream)
    (acks : List UInt64) (accepted : List DetectionEvent) :
    ∃ u, (s.withStream st acks accepted).connect p = some u := by
  rw [← Option.isSome_iff_exists]
  unfold connect at h
  simp only at h
  split at h
  · rename_i hnone
    simp [connect, withStream, hnone]
  · rename_i c hc
    split_ifs at h with hready
    simp [connect, withStream, Connection.withStream, Link.withStream, hc, hready]

/-- The acked seq of the log changes only when an ack is recorded. -/
theorem lastAcked_of_step {p : Peers} {s t : Net} {a : NetAct} (h : s.step p a = some t)
    (ha : OnConnection a) (hne : a ≠ .acknowledge) : t.lastAcked = s.lastAcked := by
  cases a with
  | snapshot | send | heartbeat =>
    obtain ⟨c, hc, h⟩ := Option.bind_eq_some_iff.1 h
    split_ifs at h
    obtain ⟨c', -, rfl⟩ := Option.map_eq_some_iff.1 h
    rfl
  | deliver =>
    obtain ⟨c, hc, h⟩ := Option.bind_eq_some_iff.1 h
    unfold deliver at h
    split at h <;> cases h <;> rfl
  | lose up down =>
    obtain ⟨c, hc, rfl⟩ := Option.map_eq_some_iff.1 h
    rfl
  | acknowledge => exact absurd rfl hne
  | emit | connect | read | readOld => exact ha.elim

theorem Inv.accept {base : ℕ} {s : Net} (hs : Inv base s) {accepted : List DetectionEvent}
    (hmono : ∀ d ∈ s.accepted, d ∈ accepted) : Inv base { s with accepted } :=
  { hs with
    left := fun d hd => hmono d (hs.left d hd)
    conn := fun c hc => by
      obtain ⟨h, r, hinv⟩ := hs.conn c hc
      exact ⟨h, r, hinv.mono (List.prefix_refl _) s.popped_le hmono⟩ }

end Net

namespace Deployment

variable {p : Peers} {codec : DetectionCodec} {s t : Deployment}

/-- The agent on a connection whose stream has refused nothing. -/
def ideal (s : Deployment) (st : Stream) (acks : List UInt64) : Net :=
  s.net.withStream st acks (s.decisions.map Decision.event)

/-- The gateway has decided on every event up to the seq `n`. -/
def Covers (s : Deployment) (n : UInt64) : Prop :=
  n.toNat ≤ s.net.events.length ∧
    ∀ d ∈ s.net.events.take n.toNat, d ∈ s.decisions.map Decision.event

/-- The stream `i`, whose link is `l`, beside one with the variables `st` that refuses
nothing. -/
structure Beside (s : Deployment) (i : ℕ) (l : Link) (st : Stream) : Prop where
  deviceId : st.deviceId = l.stream.deviceId
  lastSeq : l.stream.lastSeq ≤ st.lastSeq
  fresh : st.deviceId = [] → ∀ x ∈ s.decisions, x.stream ≠ i
  before : ∀ x ∈ s.decisions, x.stream = i → x.event.seq ≤ st.lastSeq
  covered : s.Covers st.lastSeq
  hello : ∀ h, .hello h ∈ l.up → s.Covers h.lastAckedSeq

/-- What holds in every state of a run whose appends are clean. -/
structure Inv (codec : DetectionCodec) (s : Deployment) : Prop where
  agent : s.agent.Inv
  committed : s.agent.committed = (s.net.events ++ s.appended.toList).map codec.record
  lastAcked : s.net.lastAcked = s.agent.wal.lastAckedSeq
  appended : ∀ d, s.appended = some d → d.seq = s.net.nextSeq ∧ s.net.nextSeq ≠ 0
  nextSeq : s.agent.nextSeq = UInt64.ofNat (s.agent.committed.length + 1)
  conn : ∃ st acks, Net.Inv 0 (s.ideal st acks) ∧
    ∀ c, s.net.conn = some c → s.Beside s.net.old.length c.link st
  old : ∀ i l, s.net.old[i]? = some l → ∃ st acks h r,
    (l.withStream st acks).Inv 0 s.net.events h r ∧ s.Beside i l st
  streams : ∀ x ∈ s.decisions, x.stream < s.net.links.length
  accepted : s.net.accepted = (s.decisions.filter Decision.ok).map Decision.event
  distinct : (s.decisions.map fun x => (x.stream, x.event.seq)).Nodup
  order : InOrder (s.decisions.map Decision.event) s.net.events

theorem inv_init : Inv codec init where
  agent := Agent.inv_init
  committed := rfl
  lastAcked := rfl
  appended := nofun
  nextSeq := rfl
  conn := ⟨{}, [], ⟨nofun, by decide, rfl, rfl, nofun, nofun, nofun⟩, nofun⟩
  old := nofun
  streams := nofun
  accepted := rfl
  distinct := List.nodup_nil
  order := ⟨0, le_rfl, rfl⟩

/-! ## What the invariant says -/

theorem Inv.numbered (hs : Inv codec s) : Numbered 0 (s.net.events ++ s.appended.toList) ∧
    (s.net.events ++ s.appended.toList).length < 2 ^ 64 := by
  obtain ⟨st, acks, hnet, -⟩ := hs.conn
  have hnum : Numbered 0 s.net.events := hnet.numbered
  have hbound : 0 + s.net.events.length < 2 ^ 64 := hnet.bound
  have hnext : s.net.nextSeq = UInt64.ofNat (0 + s.net.events.length + 1) := hnet.next
  cases happ : s.appended with
  | none => simpa using ⟨hnum, by omega⟩
  | some d =>
    obtain ⟨hseq, hne⟩ := hs.appended d happ
    have hlt : s.net.events.length + 1 < 2 ^ 64 := by
      by_contra hge
      apply hne
      rw [hnext, show 0 + s.net.events.length + 1 = 2 ^ 64 by omega]
      rfl
    refine ⟨hnum.snoc ?_, by simpa using hlt⟩
    rw [hseq, hnext, UInt64.toNat_ofNat_of_lt' (by simpa using hlt)]

/-- The checkpoint covers popped events only. -/
theorem Inv.lastAcked_le (hs : Inv codec s) : s.net.lastAcked.toNat ≤ s.net.left.length := by
  obtain ⟨st, acks, hnet, -⟩ := hs.conn
  have hacked : (s.ideal st acks).ackedSeq.toNat = 0 + s.net.left.length := hnet.acked
  rw [Nat.zero_add] at hacked
  rw [← hacked, Net.ackedSeq]
  split
  · exact le_rfl
  · split_ifs with hle
    · exact le_rfl
    · exact (UInt64.le_iff_toNat_le.1 (not_le.1 hle).le)

theorem Inv.left (hs : Inv codec s) : ∀ d ∈ s.net.left, d ∈ s.decisions.map Decision.event := by
  obtain ⟨st, acks, hnet, -⟩ := hs.conn
  exact hnet.left

theorem Inv.committed_eq (hs : Inv codec s) :
    s.committed codec = s.net.events ++ s.appended.toList := by
  have hid : (fun r : WalRecord => codec.parse r.payload) ∘ codec.record = id :=
    funext codec.parse_serialize
  rw [Deployment.committed, hs.committed, List.map_map, hid, List.map_id]

theorem Inv.covers_lastAcked (hs : Inv codec s) : s.Covers s.net.lastAcked := by
  have hle := hs.lastAcked_le
  refine ⟨hle.trans s.net.popped_le, fun d hd => hs.left d ?_⟩
  rw [Net.events, List.take_append_of_le_length hle] at hd
  exact List.mem_of_mem_take hd

/-! ## What stays while the run goes on -/

theorem Covers.mono {n : UInt64} (h : s.Covers n) (hevents : s.net.events <+: t.net.events)
    (hdecisions : s.decisions <+: t.decisions) : t.Covers n := by
  obtain ⟨new, hnew⟩ := hevents
  refine ⟨h.1.trans (by simp [← hnew]), fun d hd => ?_⟩
  rw [← hnew, List.take_append_of_le_length h.1] at hd
  exact (hdecisions.map _).subset (h.2 d hd)

theorem Beside.mono {i : ℕ} {l l' : Link} {st : Stream} (hb : s.Beside i l st)
    (hevents : s.net.events <+: t.net.events) (hdecisions : s.decisions <+: t.decisions)
    (hown : ∀ x ∈ t.decisions, x.stream = i → x ∈ s.decisions) (hstream : l'.stream = l.stream)
    (hhello : ∀ h, .hello h ∈ l'.up → .hello h ∈ l.up) : t.Beside i l' st where
  deviceId := hstream ▸ hb.deviceId
  lastSeq := hstream ▸ hb.lastSeq
  fresh hdev x hx hi := hb.fresh hdev x (hown x hx hi) hi
  before x hx hi := hb.before x (hown x hx hi) hi
  covered := hb.covered.mono hevents hdecisions
  hello h hh := (hb.hello h (hhello h hh)).mono hevents hdecisions

/-- The log changes, and the connections do not. -/
theorem Inv.of_log (hs : Inv codec s) {agent : Agent} {appended : Option DetectionEvent}
    (hagent : agent.Inv)
    (hcommitted : agent.committed = (s.net.events ++ appended.toList).map codec.record)
    (hlast : agent.wal.lastAckedSeq = s.agent.wal.lastAckedSeq)
    (happended : ∀ d, appended = some d → d.seq = s.net.nextSeq ∧ s.net.nextSeq ≠ 0)
    (hnext : agent.nextSeq = UInt64.ofNat (agent.committed.length + 1)) :
    Inv codec { s with agent, appended } where
  agent := hagent
  committed := hcommitted
  lastAcked := hs.lastAcked.trans hlast.symm
  appended := happended
  nextSeq := hnext
  conn := by
    obtain ⟨st, acks, hnet, hb⟩ := hs.conn
    exact ⟨st, acks, hnet, fun c hc => { hb c hc with }⟩
  old i l hl := by
    obtain ⟨st, acks, h, r, hinv, hb⟩ := hs.old i l hl
    exact ⟨st, acks, h, r, hinv, { hb with }⟩
  streams := hs.streams
  accepted := hs.accepted
  distinct := hs.distinct
  order := hs.order

theorem append_step {body : Bytes} (h : s.step p codec (.append body) = some t) :
    s.appended = none ∧ ∃ agent,
      s.agent.step (.append (codec.serialize ⟨s.net.nextSeq, body⟩)) = some agent ∧
        t = { s with agent, appended := some ⟨s.net.nextSeq, body⟩ } := by
  cases happ : s.appended with
  | none =>
    simp only [step, happ] at h
    obtain ⟨agent, hagent, rfl⟩ := Option.map_eq_some_iff.1 h
    exact ⟨rfl, agent, hagent, rfl⟩
  | some d => simp [step, happ] at h

/-- While no event is between the log and the outbox, both count the same events. -/
theorem Inv.nextSeq_eq (hs : Inv codec s) (happ : s.appended = none) :
    s.agent.nextSeq = s.net.nextSeq := by
  obtain ⟨st, acks, hnet, -⟩ := hs.conn
  have hnext : s.net.nextSeq = UInt64.ofNat (0 + s.net.events.length + 1) := hnet.next
  rw [hs.nextSeq, hnext, hs.committed, happ]
  simp

theorem inv_append (hs : Inv codec s) {body : Bytes}
    (hok : s.agent.wal.Clean ∧ s.agent.nextSeq ≠ 0)
    (h : s.step p codec (.append body) = some t) : Inv codec t := by
  obtain ⟨happ, agent, hagent, rfl⟩ := append_step h
  have hclean : s.agent.AppendsClean (.append (codec.serialize ⟨s.net.nextSeq, body⟩)) := hok
  have hinv : agent.Inv := Agent.inv_step hs.agent hclean hagent
  have hsame := hs.nextSeq_eq happ
  have hcommitted := hs.committed
  rw [happ, Option.toList_none, List.append_nil] at hcommitted
  simp only [Agent.step] at hagent
  split_ifs at hagent
  cases hagent
  refine hs.of_log hinv ?_ rfl ?_ ?_
  · rw [hcommitted, hsame]
    simp [DetectionCodec.record]
  · rintro d hd
    cases hd
    exact ⟨rfl, hsame ▸ hok.2⟩
  · rw [List.length_append, hs.nextSeq, ← UInt64.ofNat_one, ← UInt64.ofNat_add]
    rfl

theorem inv_compact (hs : Inv codec s) (h : s.step p codec .compact = some t) : Inv codec t := by
  simp only [step] at h
  obtain ⟨agent, hagent, rfl⟩ := Option.map_eq_some_iff.1 h
  have hinv : agent.Inv :=
    Agent.inv_step hs.agent (show s.agent.AppendsClean .compact from trivial) hagent
  cases hagent
  exact hs.of_log hinv hs.committed rfl hs.appended hs.nextSeq

/-- The event that is in the log goes to the outbox. -/
theorem inv_push (hs : Inv codec s) (h : s.step p codec .push = some t) : Inv codec t := by
  simp only [step] at h
  obtain ⟨d, hd, rfl⟩ := Option.map_eq_some_iff.1 h
  obtain ⟨hseq, hne⟩ := hs.appended d hd
  have hevents : (s.net.emit d.body).events = s.net.events ++ [d] := by
    simp [Net.emit, Net.events, ← hseq]
  have hgrow : s.net.events <+: (s.net.emit d.body).events := hevents ▸ List.prefix_append _ _
  have hmono : ∀ {i l st}, s.Beside i l st →
      Beside { s with net := s.net.emit d.body, appended := none } i l st := fun hb =>
    hb.mono hgrow (List.prefix_refl _) (fun x hx _ => hx) rfl fun _ => id
  obtain ⟨st, acks, hnet, hb⟩ := hs.conn
  refine
    { agent := hs.agent, lastAcked := hs.lastAcked, appended := by simp, nextSeq := hs.nextSeq
      committed := ?_, conn := ⟨st, acks, Net.inv_emit hnet hne d.body, fun c hc => hmono (hb c hc)⟩
      old := fun i l hl => ?_, streams := hs.streams, accepted := hs.accepted
      distinct := hs.distinct, order := ?_ }
  · rw [hs.committed, hd, hevents]
    simp
  · obtain ⟨st, acks, h, r, hinv, hb⟩ := hs.old i l hl
    exact ⟨st, acks, h, r, hinv.mono hgrow, hmono hb⟩
  · rw [hevents]
    exact hs.order.append [d]

/-! ## The connection -/

/-- A step of the agent on its connection, with what it does to the log. -/
theorem Inv.onConnection (hs : Inv codec s) {a : NetAct} {net : Net} {agent : Agent}
    (ha : Net.OnConnection a) (h : s.net.step p a = some net) (hagent : agent.Inv)
    (hcommitted : agent.committed = s.agent.committed) (hnext : agent.nextSeq = s.agent.nextSeq)
    (hlast : net.lastAcked = agent.wal.lastAckedSeq) : Inv codec { s with net, agent } := by
  obtain ⟨c, c', hsame⟩ := Net.sameStream_of_step ha h
  obtain ⟨st, acks, hnet, hb⟩ := hs.conn
  have hstep := Net.step_withStream st acks (s.decisions.map Decision.event) ha h
  have hun : (s.ideal st acks).Unwrapped a := by
    cases a <;> first | exact ha.elim | trivial
  have hmono : ∀ {i l l' st}, s.Beside i l st → l'.stream = l.stream →
      (∀ h, .hello h ∈ l'.up → .hello h ∈ l.up) → Beside { s with net, agent } i l' st :=
    fun hb hstream hhello => hb.mono (hsame.events ▸ List.prefix_refl _) (List.prefix_refl _)
      (fun x hx _ => hx) hstream hhello
  refine
    { agent := hagent, lastAcked := hlast, committed := ?_, appended := ?_, nextSeq := ?_
      conn := ⟨st, acks, Net.inv_step hnet hun hstep, fun c'' hc'' => ?_⟩
      old := fun i l hl => ?_, streams := ?_, accepted := ?_, distinct := hs.distinct
      order := ?_ }
  · rw [hcommitted, hs.committed, hsame.events]
  · rw [hsame.nextSeq]
    exact hs.appended
  · rw [hnext, hs.nextSeq, hcommitted]
  · rw [hsame.after] at hc''
    cases hc''
    rw [hsame.old]
    exact hmono (hb c hsame.before) hsame.stream hsame.hello
  · rw [hsame.old] at hl
    obtain ⟨st, acks, h, r, hinv, hb⟩ := hs.old i l hl
    exact ⟨st, acks, h, r, hsame.events ▸ hinv, hmono hb rfl fun _ => id⟩
  · have := hs.streams
    rw [Net.links, hsame.before] at this
    rw [Net.links, hsame.after, hsame.old]
    exact this
  · rw [hsame.accepted]
    exact hs.accepted
  · rw [hsame.events]
    exact hs.order

/-- The streams of a state whose connection is over, at their numbers. -/
theorem Inv.retired (hs : Inv codec s) (hevents : s.net.events <+: t.net.events)
    (hdecisions : t.decisions = s.decisions) (i : ℕ) (l : Link)
    (hl : (s.net.old ++ (s.net.conn.map Connection.link).toList)[i]? = some l) :
    ∃ st acks h r, (l.withStream st acks).Inv 0 t.net.events h r ∧ t.Beside i l st := by
  have hmono : ∀ {st}, s.Beside i l st → t.Beside i l st := fun hb =>
    hb.mono hevents (hdecisions ▸ List.prefix_refl _) (fun x hx _ => hdecisions ▸ hx) rfl
      fun _ => id
  rcases Nat.lt_or_ge i s.net.old.length with hi | hi
  · rw [List.getElem?_append_left hi] at hl
    obtain ⟨st, acks, h, r, hinv, hb⟩ := hs.old i l hl
    exact ⟨st, acks, h, r, hinv.mono hevents, hmono hb⟩
  · rw [List.getElem?_append_right hi] at hl
    obtain ⟨c, hc, rfl⟩ := Option.map_eq_some_iff.1 (Option.mem_toList.1 (List.mem_of_getElem? hl))
    obtain ⟨st, acks, hnet, hb⟩ := hs.conn
    obtain ⟨h, r, hinv⟩ := hnet.conn (c.withStream st acks) (Net.conn_withStream st acks _ hc)
    rw [hc, Option.map_some, Option.toList_some, List.getElem?_singleton] at hl
    obtain rfl : i = s.net.old.length := by
      split_ifs at hl
      omega
    exact ⟨st, acks, h, r, hinv.link.mono hevents, hmono (hb c hc)⟩

theorem inv_connect (hs : Inv codec s) {net : Net} (h : s.net.connect p = some net) :
    Inv codec { s with net } := by
  obtain ⟨st, acks, hnet, hb⟩ := hs.conn
  obtain ⟨t, hconnect⟩ := Net.exists_connect_withStream h st acks (s.decisions.map Decision.event)
  have hinv := Net.inv_connect hnet hconnect
  obtain rfl := Net.eq_of_connect h
  obtain rfl := Net.eq_of_connect hconnect
  have hlen : (s.net.old ++ (s.net.conn.map Connection.link).toList).length =
      s.net.links.length := by
    simp [Net.links, Nat.add_comm]
  refine { hs with
    conn := ⟨{}, [], { hinv with old := nofun }, ?_⟩
    old := hs.retired (List.prefix_refl _) rfl
    streams := fun x hx => ?_ }
  · intro c hc
    cases hc
    refine ⟨rfl, le_rfl, fun _ x hx => ?_, fun x hx heq => ?_, ⟨Nat.zero_le _, by simp⟩, ?_⟩
    · exact hlen ▸ (hs.streams x hx).ne
    · exact absurd heq (hlen ▸ (hs.streams x hx).ne)
    · intro hello hh
      cases List.mem_singleton.1 hh
      exact hs.covers_lastAcked.mono (List.prefix_refl _) (List.prefix_refl _)
  · have := hs.streams x hx
    simp only [Net.links, Option.map_some, Option.toList_some, List.length_append,
      List.length_singleton] at this ⊢
    omega

/-! ## The gateway -/

/-- The stream `i` reads a message. What it decides on is the next event for it. -/
theorem Inv.serve (hs : Inv codec s) {i h r : ℕ} {l l' : Link} {st : Stream} {acks : List UInt64}
    {ans : Answers} {v : Option (DetectionEvent × Bool)}
    (hl : (l.withStream st acks).Inv 0 s.net.events h r) (hb : s.Beside i l st)
    (hserve : l.serve p ans = some (l', v)) :
    ∃ ans' u, (l.withStream st acks).read p ans' = some (u, (v.map Prod.fst).toList) ∧
      l'.withStream u.stream u.acks = { u with down := l'.down } ∧
      (∀ n, .ack n ∈ l'.down → .ack n ∈ u.down) ∧
      (∀ net : Net, net.events = s.net.events → (s.judge net i v).Beside i l' u.stream) ∧
      (v = none ∨ ∃ d ok k, v = some (d, ok) ∧ s.net.events[k]? = some d ∧ st.lastSeq < d.seq ∧
        ∀ x ∈ s.net.events.take k, x ∈ s.decisions.map Decision.event) := by
  obtain ⟨_, _, hnet, -⟩ := hs.conn
  have hnum : Numbered 0 s.net.events := hnet.numbered
  obtain ⟨hopen, msg, rest, hup, -, hl'⟩ := Link.serve_iff.1 hserve
  have hhello : ∀ h, .hello h ∈ l'.up → s.Covers h.lastAckedSeq := fun h hh => by
    refine hb.hello h ?_
    rw [hup]
    rw [hl'] at hh
    exact List.mem_cons_of_mem _ hh
  have hnext : ∀ {d rest}, l.up = .detection d :: rest → s.net.events[r]? = some d ∧
      st.lastSeq.toNat = r ∧ st.lastSeq < d.seq := fun hup => by
    obtain ⟨hafter, hget⟩ := hl.next hopen hup
    exact ⟨hget, hafter.2.1.trans (Nat.zero_add r), ((hl.exact hnum).next hopen _ _ hup).2⟩
  obtain ⟨ans', u, hread, heq, hdown, hfollows⟩ := Link.serve_follows hb.deviceId hb.lastSeq
    (fun d rest hup _ => (hnext hup).2.2) hserve acks
  refine ⟨ans', u, hread, heq, hdown, fun net hevents => ?_, ?_⟩
  · have hgrow : ∀ n, s.Covers n → (s.judge net i v).Covers n := fun n hn =>
      hn.mono (hevents ▸ List.prefix_refl _) (List.prefix_append _ _)
    refine ⟨hfollows.deviceId, hfollows.lastSeq, ?_, ?_, ?_, fun h hh => hgrow _ (hhello h hh)⟩
    all_goals rcases hfollows.cases with ⟨rfl, hst⟩ | ⟨rfl, hdev, hello, rest, hup, hlast⟩ |
      ⟨d, ok, rest, rfl, hup, hlast, hdev, hdev'⟩
    · simpa [judge, hst] using hb.fresh
    · exact fun h => absurd h hdev
    · exact fun h => absurd (hdev' ▸ h) hdev
    · simpa [judge, hst] using hb.before
    · have := hb.fresh (hl.not_started hopen hup)
      simp only [judge, Option.toList_none, List.map_nil, List.append_nil]
      exact fun x hx hi => absurd hi (this x hx)
    · simp only [judge, Option.toList_some, List.map_singleton, List.mem_append,
        List.mem_singleton, hlast]
      rintro x (hx | rfl) hi
      · exact (hb.before x hx hi).trans (hnext hup).2.2.le
      · exact le_rfl
    · exact hgrow _ (hst ▸ hb.covered)
    · exact hgrow _ (hlast ▸ hb.hello hello (hup ▸ List.mem_cons_self))
    · obtain ⟨hget, hr, hlt⟩ := hnext hup
      have hseq : d.seq.toNat = r + 1 := by
        have := hnum r d hget
        omega
      rw [hlast]
      refine ⟨?_, fun x hx => ?_⟩
      · have := (List.getElem?_eq_some_iff.1 hget).1
        change d.seq.toNat ≤ net.events.length
        rw [hevents]
        omega
      · change x ∈ net.events.take d.seq.toNat at hx
        rw [hevents, hseq, List.take_add_one, hget] at hx
        simp only [judge, List.map_append, List.mem_append]
        refine (List.mem_append.1 hx).imp (fun hx => hb.covered.2 x (hr ▸ hx)) fun hx => ?_
        simpa using hx
  · rcases hfollows.cases with ⟨rfl, -⟩ | ⟨rfl, -⟩ | ⟨d, ok, rest, rfl, hup, -, -, -⟩
    · exact .inl rfl
    · exact .inl rfl
    · obtain ⟨hget, hr, hlt⟩ := hnext hup
      refine .inr ⟨d, ok, r, rfl, hget, hlt, ?_⟩
      rw [← hr]
      exact hb.covered.2

/-- The stream `i` reads a message, and the invariant holds of the connections after it. -/
theorem Inv.judged (hs : Inv codec s) {i : ℕ} {l : Link} {st : Stream} (hb : s.Beside i l st)
    {v : Option (DetectionEvent × Bool)}
    (hv : v = none ∨ ∃ d ok k, v = some (d, ok) ∧ s.net.events[k]? = some d ∧ st.lastSeq < d.seq ∧
      ∀ x ∈ s.net.events.take k, x ∈ s.decisions.map Decision.event)
    {conn : Option Connection} {old : List Link}
    (hlen : ({ s.net with conn, old } : Net).links.length = s.net.links.length)
    (hi : i < s.net.links.length)
    (hconn : ∃ st acks, Net.Inv 0 ((s.judge { s.net with conn, old } i v).ideal st acks) ∧
      ∀ c, conn = some c → (s.judge { s.net with conn, old } i v).Beside old.length c.link st)
    (hold : ∀ j l, old[j]? = some l → ∃ st acks h r, (l.withStream st acks).Inv 0 s.net.events h r ∧
      (s.judge { s.net with conn, old } i v).Beside j l st) :
    Inv codec (s.judge { s.net with conn, old } i v) := by
  obtain ⟨_, _, hnet, -⟩ := hs.conn
  have hnum : Numbered 0 s.net.events := hnet.numbered
  refine
    { agent := hs.agent, committed := hs.committed, lastAcked := hs.lastAcked
      appended := hs.appended, nextSeq := hs.nextSeq, conn := hconn, old := hold
      streams := fun x hx => ?_, accepted := ?_, distinct := ?_, order := ?_ }
  · rcases List.mem_append.1 hx with hx | hx
    · exact hlen ▸ hs.streams x hx
    · obtain ⟨y, -, rfl⟩ := List.mem_map.1 hx
      exact hlen ▸ hi
  all_goals rcases hv with rfl | ⟨d, ok, k, rfl, hget, hlt, hbefore⟩
  · simpa [judge] using hs.accepted
  · simp only [judge, hs.accepted, List.filter_append, List.map_append, Option.toList_some,
      List.map_singleton]
    cases ok <;> rfl
  · simpa [judge] using hs.distinct
  · simp only [judge, List.map_append, Option.toList_some, List.map_singleton]
    refine List.nodup_append'.2 ⟨hs.distinct, List.nodup_singleton _, ?_⟩
    rw [List.disjoint_singleton]
    intro hmem
    obtain ⟨x, hx, heq⟩ := List.mem_map.1 hmem
    rw [Prod.mk.injEq] at heq
    exact absurd (hb.before x hx heq.1) (not_le.2 (heq.2 ▸ hlt))
  · change InOrder _ s.net.events
    simpa [judge] using hs.order
  · simp only [judge, List.map_append, Option.toList_some, List.map_singleton]
    exact hs.order.snoc hnum.nodup hget hbefore

/-- A stream is beside the same one while another reads. -/
theorem Beside.judge {i j : ℕ} {l : Link} {st : Stream} (hb : s.Beside j l st) (hij : i ≠ j)
    (conn : Option Connection) (old : List Link) (v : Option (DetectionEvent × Bool)) :
    (s.judge { s.net with conn, old } i v).Beside j l st := by
  refine hb.mono (List.prefix_refl _) (List.prefix_append _ _) (fun x hx hj => ?_) rfl fun _ => id
  rcases List.mem_append.1 hx with hx | hx
  · exact hx
  · obtain ⟨y, -, rfl⟩ := List.mem_map.1 hx
    exact absurd hj hij

theorem inv_readOld (hs : Inv codec s) {i : ℕ} {l l' : Link} {ans : Answers}
    {v : Option (DetectionEvent × Bool)} (hl : s.net.old[i]? = some l)
    (h : l.serve p ans = some (l', v)) :
    Inv codec (s.judge { s.net with old := s.net.old.set i l' } i v) := by
  have hi := (List.getElem?_eq_some_iff.1 hl).1
  obtain ⟨st, acks, h0, r, hinv, hb⟩ := hs.old i l hl
  obtain ⟨ans', u, hread, heq, hdown, hb', hv⟩ := hs.serve hinv hb h
  obtain ⟨st', acks', hnet, hbc⟩ := hs.conn
  obtain ⟨r', hadv⟩ := hinv.read hnet.numbered hread
  refine hs.judged hb hv (by simp [Net.links]) (by simp [Net.links]; omega)
    ⟨st', acks', ?_, fun c hc => ?_⟩ fun j m hm => ?_
  · refine hnet.accept fun d hd => ?_
    simp only [judge, List.map_append]
    exact List.mem_append_left _ hd
  · rw [List.length_set]
    exact (hbc c hc).judge (by omega) _ _ _
  · by_cases hij : i = j
    · subst hij
      rw [List.getElem?_set_self hi] at hm
      cases hm
      exact ⟨u.stream, u.acks, h0, r', heq ▸ hadv.inv.of_down hdown, hb' _ rfl⟩
    · rw [List.getElem?_set_ne hij] at hm
      obtain ⟨st, acks, h, r, hinv, hb⟩ := hs.old j m hm
      exact ⟨st, acks, h, r, hinv, hb.judge hij _ _ _⟩

theorem inv_read (hs : Inv codec s) {c : Connection} {l' : Link} {ans : Answers}
    {v : Option (DetectionEvent × Bool)} (hc : s.net.conn = some c)
    (h : c.link.serve p ans = some (l', v)) :
    Inv codec
      (s.judge { s.net with conn := some { c with link := l' } } s.net.old.length v) := by
  obtain ⟨st, acks, hnet, hbc⟩ := hs.conn
  have hideal : (s.ideal st acks).conn = some (c.withStream st acks) :=
    Net.conn_withStream st acks _ hc
  obtain ⟨h0, r, hinv⟩ := hnet.conn _ hideal
  obtain ⟨ans', u, hread, heq, hdown, hb', hv⟩ := hs.serve hinv.link (hbc c hc) h
  refine hs.judged (hbc c hc) hv (by simp [Net.links, hc]) (by simp [Net.links, hc])
    ⟨u.stream, u.acks, ?_, fun c' hc' => ?_⟩ fun j m hm => ?_
  · have hstep : (s.ideal st acks).read p (c.withStream st acks) ans' = some
        { s.ideal st acks with
          conn := some { c.withStream st acks with link := u }
          accepted := (s.ideal st acks).accepted ++ (v.map Prod.fst).toList } := by
      simp only [Net.read, Connection.withStream, hread, Option.map_some]
    have hevents : (s.judge { s.net with conn := some { c with link := l' } }
        s.net.old.length v).decisions.map Decision.event =
          (s.ideal st acks).accepted ++ (v.map Prod.fst).toList := by
      cases v <;> simp [judge, ideal, Net.withStream]
    have hnet' : Net.Inv 0 { s.ideal st acks with
        conn := some { c.withStream st acks with link := { u with down := l'.down } }
        accepted := (s.ideal st acks).accepted ++ (v.map Prod.fst).toList } :=
      (Net.inv_read hnet hideal hstep).set_conn rfl rfl fun h r hinv =>
        { hinv with link := hinv.link.of_down hdown }
    rw [ideal, hevents]
    simp only [Net.withStream, judge, Connection.withStream, Option.map_some, heq]
    exact hnet'
  · cases hc'
    exact hb' _ rfl
  · obtain ⟨st, acks, h, r, hinv, hb⟩ := hs.old j m hm
    have hj := (List.getElem?_eq_some_iff.1 hm).1
    exact ⟨st, acks, h, r, hinv, hb.judge (by omega) _ _ _⟩

/-! ## Crashes -/

theorem Inv.lost (hs : Inv codec s) (p : Peers) (up down : ℕ) :
    Inv codec { s with net := { s.net with conn := s.net.conn.map fun c => c.lose up down } } := by
  cases hc : s.net.conn with
  | none =>
    rw [Option.map_none, ← hc]
    exact hs
  | some c =>
    have hstep : s.net.step p (.lose up down) =
        some { s.net with conn := some (c.lose up down) } := by
      simp [Net.step, hc]
    exact hs.onConnection (show Net.OnConnection (.lose up down) from trivial) hstep hs.agent rfl
      rfl hs.lastAcked

/-- What is replayed of a log that holds numbered events. -/
theorem unacked_records {ds : List DetectionEvent} (hnum : Numbered 0 ds) (n : UInt64) :
    Wal.unacked n (ds.map codec.record) = (ds.drop n.toNat).map codec.record := by
  rw [Wal.unacked, List.filter_map]
  exact congrArg (List.map codec.record) hnum.filter_lt

theorem acked_records {ds : List DetectionEvent} (hnum : Numbered 0 ds) (n : UInt64) :
    (ds.map codec.record).filter (fun r => r.seq ≤ n) = (ds.take n.toNat).map codec.record := by
  rw [List.filter_map]
  exact congrArg (List.map codec.record) hnum.filter_le

theorem map_parse_record (ds : List DetectionEvent) :
    (ds.map codec.record).map (fun r => codec.parse r.payload) = ds := by
  have hid : (fun r : WalRecord => codec.parse r.payload) ∘ codec.record = id :=
    funext codec.parse_serialize
  rw [List.map_map, hid, List.map_id]

/-- The next lifetime has all events that were appended. -/
theorem Inv.restarted (hs : Inv codec s) {agent : Agent} (hagent : agent.Inv)
    (hcommitted : agent.committed = s.agent.committed)
    (hlast : agent.wal.lastAckedSeq = s.agent.wal.lastAckedSeq)
    (hreplayed : agent.replayed = Wal.unacked agent.wal.lastAckedSeq agent.committed)
    (hnext : agent.nextSeq =
      agent.replayed.foldl (fun m r => max m r.seq) agent.wal.lastAckedSeq + 1)
    (p : Peers) (up : ℕ) :
    Inv codec (s.restarted codec agent up) := by
  obtain ⟨hnum, hbound⟩ := hs.numbered
  obtain ⟨hle, hcovered⟩ := hs.covers_lastAcked
  have hgrow : s.net.events <+: s.net.events ++ s.appended.toList := List.prefix_append _ _
  have hlog := hcommitted.trans hs.committed
  rw [← hs.lastAcked] at hlast
  generalize hall : s.net.events ++ s.appended.toList = all at hnum hbound hgrow hlog
  have hle' : s.net.lastAcked.toNat ≤ all.length := hle.trans hgrow.length_le
  rw [hlog, hlast, unacked_records hnum] at hreplayed
  have hout : agent.replayed.map (fun r => codec.parse r.payload) =
      all.drop s.net.lastAcked.toNat := by
    rw [hreplayed, map_parse_record]
  have hleft : (agent.committed.filter fun r => r.seq ≤ agent.wal.lastAckedSeq).map
      (fun r => codec.parse r.payload) = all.take s.net.lastAcked.toNat := by
    rw [hlog, hlast, acked_records hnum, map_parse_record]
  have hseq : agent.nextSeq = UInt64.ofNat (all.length + 1) := by
    have hmax := Numbered.foldl_max (hnum.drop s.net.lastAcked)
    rw [List.length_drop, Nat.add_sub_cancel' hle'] at hmax
    rw [hnext, hreplayed, hlast, List.foldl_map, UInt64.ofNat_add, ← hmax, UInt64.ofNat_toNat]
    rfl
  have hevents : (s.restarted codec agent up).net.events = all := by
    simp only [Deployment.restarted, Net.events]
    rw [hleft, hout, List.take_append_drop]
  have hlinks : (s.restarted codec agent up).net.links.length = s.net.links.length := by
    cases hc : s.net.conn <;> simp [Deployment.restarted, Net.links, hc]
  exact
    { agent := hagent
      committed := by
        rw [hevents, show (s.restarted codec agent up).appended = none from rfl,
          Option.toList_none, List.append_nil]
        exact hlog
      lastAcked := rfl
      appended := by simp [Deployment.restarted]
      nextSeq := by
        change agent.nextSeq = UInt64.ofNat (agent.committed.length + 1)
        rw [hseq, hlog, List.length_map]
      conn := by
        refine ⟨{}, [], ⟨?_, ?_, ?_, ?_, ?_, ?_, ?_⟩, by simp [Deployment.restarted]⟩
        · exact hevents.symm ▸ hnum
        · exact hevents.symm ▸ by omega
        · exact hevents.symm ▸ by rwa [Nat.zero_add]
        · change agent.wal.lastAckedSeq.toNat = 0 + (List.map _ _).length
          rw [hleft, hlast, List.length_take_of_le hle', Nat.zero_add]
        · change ∀ d ∈ List.map _ _, d ∈ s.decisions.map Decision.event
          rw [hleft, ← hall, List.take_append_of_le_length hle]
          exact hcovered
        · simp [ideal, Net.withStream, Deployment.restarted]
        · simp [ideal, Net.withStream]
      old := by
        have hretired := (hs.lost p up 0).retired (t := s.restarted codec agent up)
          (hevents.symm ▸ hgrow) rfl
        simp only [Option.map_map] at hretired
        exact hretired
      streams := fun x hx => hlinks ▸ hs.streams x hx
      accepted := hs.accepted
      distinct := hs.distinct
      order := by
        rw [hevents, ← hall]
        exact hs.order.append _ }

theorem inv_crash (hs : Inv codec s) {agent : Agent} {op : WalOp}
    (h : s.agent.step op = some agent) (hop : op.IsRestart) (hok : s.agent.AppendsClean op)
    (p : Peers) (up : ℕ) :
    Inv codec (s.restarted codec agent up) := by
  obtain ⟨hinv, hreplayed⟩ := Agent.inv_restart hs.agent hok hop h
  rw [← hinv.lastAcked] at hreplayed
  cases op with
  | crash =>
    cases h
    exact hs.restarted hinv rfl hs.agent.lastAcked.symm hreplayed rfl p up
  | crashInAppend payload k =>
    simp only [Agent.step] at h
    split_ifs at h
    cases h
    exact hs.restarted hinv rfl hs.agent.lastAcked.symm hreplayed rfl p up
  | append | acknowledge | compact | replayUnacked => exact hop.elim

/-! ## Every step -/

theorem inv_acknowledge (hs : Inv codec s) (h : s.netStep p .acknowledge = some t) :
    Inv codec t := by
  obtain ⟨c, hc, h⟩ := Option.bind_eq_some_iff.1 h
  obtain ⟨n, hn, h⟩ := Option.bind_eq_some_iff.1 h
  obtain ⟨net, hnet, h⟩ := Option.bind_eq_some_iff.1 h
  obtain ⟨agent, hagent, rfl⟩ := Option.map_eq_some_iff.1 h
  have hstep : s.net.step p .acknowledge = some net := by
    simp [Net.step, hc, hnet]
  have hinv : agent.Inv :=
    Agent.inv_step hs.agent (show s.agent.AppendsClean (.acknowledge n) from trivial) hagent
  cases hagent
  rw [Net.acknowledge, hn] at hnet
  cases hnet
  refine hs.onConnection (show Net.OnConnection .acknowledge from trivial) hstep hinv rfl rfl ?_
  simp only [Wal.acknowledge, hs.lastAcked]
  split_ifs <;> rfl

theorem inv_netStep (hs : Inv codec s) {a : NetAct} (h : s.netStep p a = some t) :
    Inv codec t := by
  cases a with
  | emit body => cases h
  | connect =>
    obtain ⟨net, hnet, rfl⟩ := Option.map_eq_some_iff.1 h
    exact inv_connect hs hnet
  | acknowledge => exact inv_acknowledge hs h
  | read ans =>
    obtain ⟨c, hc, h⟩ := Option.bind_eq_some_iff.1 h
    obtain ⟨⟨l, v⟩, hserve, rfl⟩ := Option.map_eq_some_iff.1 h
    exact inv_read hs hc hserve
  | readOld i ans =>
    obtain ⟨l, hl, h⟩ := Option.bind_eq_some_iff.1 h
    obtain ⟨⟨l', v⟩, hserve, rfl⟩ := Option.map_eq_some_iff.1 h
    exact inv_readOld hs hl hserve
  | snapshot | send | heartbeat | deliver | lose =>
    obtain ⟨net, hnet, rfl⟩ := Option.map_eq_some_iff.1 h
    refine hs.onConnection ?_ hnet hs.agent rfl rfl ?_
    · trivial
    · exact (Net.lastAcked_of_step hnet trivial nofun).trans hs.lastAcked

theorem inv_step (hs : Inv codec s) {a : DeployAct} (hok : s.AppendsClean a)
    (h : s.step p codec a = some t) : Inv codec t := by
  cases a with
  | append body => exact inv_append hs hok h
  | push => exact inv_push hs h
  | compact => exact inv_compact hs h
  | net a => exact inv_netStep hs h
  | crash up =>
    simp only [step] at h
    obtain ⟨agent, hagent, rfl⟩ := Option.map_eq_some_iff.1 h
    exact inv_crash hs hagent trivial trivial p up
  | crashInAppend body k up =>
    cases happ : s.appended with
    | none =>
      simp only [step, happ] at h
      obtain ⟨agent, hagent, rfl⟩ := Option.map_eq_some_iff.1 h
      exact inv_crash hs hagent trivial hok p up
    | some d => simp [step, happ] at h

theorem inv_of_run {as : List DeployAct} (hok : Guarded (step p codec) AppendsClean init as)
    (h : exec (step p codec) init as = some s) : Inv codec s :=
  exec_invariant_guarded (fun _ _ _ hs ha ht => inv_step hs ha ht) inv_init hok h

end Deployment

end Ridgeline
