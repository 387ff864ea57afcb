import Ridgeline.Resume

/-!
# One stream of the resume protocol

Number the events from the start of the run : the event at position `i` carries the seq
`base + i + 1`, where `base` is the seq acked at the start (`Numbered`). A stream is then
described by positions (`Link.Inv`) : its Hello carries a position `h`, it has read up to
a position `r`, and what is in flight to it starts at `r`. Reading a message moves `r` past
the detection it reads, accepts that detection, and counts neither a gap nor a duplicate
(`Link.Inv.read`).
-/

namespace Ridgeline

/-- The events carry consecutive seqs from `base + 1` on. -/
def Numbered (base : ℕ) (events : List DetectionEvent) : Prop :=
  ∀ i d, events[i]? = some d → d.seq.toNat = base + i + 1

theorem Numbered.getElem {base r i : ℕ} {events ds : List DetectionEvent} {d : DetectionEvent}
    (h : Numbered base events) (hds : ds <+: events.drop r) (hd : ds[i]? = some d) :
    d.seq.toNat = base + r + i + 1 := by
  obtain ⟨t, ht⟩ := hds
  have hi : events[r + i]? = some d := by
    rw [← List.getElem?_drop, ← ht,
      List.getElem?_append_left (List.getElem?_eq_some_iff.1 hd).1, hd]
  have := h (r + i) d hi
  omega

theorem Numbered.head {base r : ℕ} {events rest : List DetectionEvent} {d : DetectionEvent}
    (h : Numbered base events) (hd : d :: rest <+: events.drop r) : d.seq.toNat = base + r + 1 :=
  h.getElem (i := 0) hd rfl

theorem tail_isPrefix_drop {α : Type*} {r : ℕ} {events rest : List α} {d : α}
    (hd : d :: rest <+: events.drop r) : rest <+: events.drop (r + 1) := by
  obtain ⟨t, ht⟩ := hd
  refine ⟨t, ?_⟩
  rw [← List.tail_drop, ← ht]
  rfl

/-- A run of events is extended by the event behind it. -/
theorem snoc_isPrefix_drop {α : Type*} {r : ℕ} {events ds rest : List α} {d : α}
    (hds : ds <+: events.drop r) (hd : d :: rest <+: events.drop (r + ds.length)) :
    ds ++ [d] <+: events.drop r := by
  obtain ⟨t, ht⟩ := hds
  rw [← List.drop_drop, ← ht, List.drop_left] at hd
  obtain ⟨u, hu⟩ := hd
  exact ⟨rest ++ u, by simp [← ht, ← hu]⟩

/-- The detections among the messages in flight. -/
def detections (up : List AgentMessage) : List DetectionEvent :=
  up.filterMap fun msg =>
    match msg with
    | .detection d => some d
    | _ => none

@[simp] theorem detections_append (us vs : List AgentMessage) :
    detections (us ++ vs) = detections us ++ detections vs :=
  List.filterMap_append

namespace Link

/-- The Hello is the next message, and no other follows it. -/
def AtHello (base h r : ℕ) (l : Link) : Prop :=
  l.stream.deviceId = [] ∧ r = h ∧ ∃ hello rest, l.up = .hello hello :: rest ∧
    hello.lastAckedSeq.toNat = base + h ∧ hello.durableResume = true ∧ ∀ x, .hello x ∉ rest

/-- The stream has read the Hello and the detections before position `r`. -/
def AfterHello (base r : ℕ) (l : Link) : Prop :=
  l.stream.deviceId ≠ [] ∧ l.stream.lastSeq.toNat = base + r ∧
    l.stream.awaitingResync = false ∧ ∀ x, .hello x ∉ l.up

/-- A stream that starts at position `h` and has read up to position `r`. -/
structure Inv (base : ℕ) (events : List DetectionEvent) (h r : ℕ) (l : Link) : Prop where
  le : h ≤ r
  flight : detections l.up <+: events.drop r
  sent : l.sent <+: events.drop h
  reach : r + (detections l.up).length ≤ h + l.sent.length
  state : l.closed ∨ l.up = [] ∨ l.AtHello base h r ∨ l.AfterHello base r
  gapEvents : l.stream.gapEvents = 0
  duplicates : l.stream.duplicates = 0
  acks : ∀ n ∈ l.acks, base + h < n.toNat ∧ n.toNat ≤ base + r
  down : ∀ n, .ack n ∈ l.down → n ∈ l.acks

variable {p : Peers} {base h r : ℕ} {events : List DetectionEvent} {l l' : Link}
  {ans : Answers} {accepted : List DetectionEvent}

theorem ackSeq_eq_some_iff {out : Outcome} {n : UInt64} :
    out.ackSeq = some n ↔ out.sent = some (.ack n) := by
  unfold Outcome.ackSeq
  split <;> simp_all

/-- What a read takes the stream from and to. -/
theorem exists_of_read (hread : l.read p ans = some (l', accepted)) :
    l.closed = false ∧ ∃ msg rest, l.up = msg :: rest ∧ l'.up = rest ∧ l'.sent = l.sent ∧
      l'.stream = (l.outcome p msg ans).stream ∧
      l'.closed = (l.outcome p msg ans).status.isSome ∧
      l'.acks = l.acks ++ (l.outcome p msg ans).ackSeq.toList ∧
      (∀ n, .ack n ∈ l'.down → .ack n ∈ l.down ∨ (l.outcome p msg ans).ackSeq = some n) ∧
      accepted = l.acceptedOf p msg ans := by
  unfold read at hread
  split at hread
  · rename_i msg rest hclosed hup
    cases hread
    refine ⟨hclosed, msg, rest, hup, rfl, rfl, rfl, rfl, rfl, fun n hn => ?_, rfl⟩
    simp only at hn
    split_ifs at hn
    · exact .inl hn
    · rw [List.mem_append, Option.mem_toList, ← ackSeq_eq_some_iff] at hn
      exact hn
  · cases hread

/-- The stream after a read : it has read up to `r'`, what it accepted is what it read,
and unless it is closed it is past its Hello. -/
structure Advance (base : ℕ) (events : List DetectionEvent) (h r r' : ℕ) (l l' : Link)
    (accepted : List DetectionEvent) : Prop where
  inv : l'.Inv base events h r'
  le : r ≤ r'
  accepted : accepted = (events.drop r).take (r' - r)
  inFlight : r' + (detections l'.up).length = r + (detections l.up).length
  sent : l'.sent = l.sent
  state : l'.closed ∨ l'.AfterHello base r'

/-- A read that changes no counter and writes no ack, such as that of a Hello or of a
heartbeat. -/
theorem Inv.advance_of_quiet (hl : l.Inv base events h r) {msg : AgentMessage}
    {rest : List AgentMessage} (hread : l.read p ans = some (l', accepted))
    (hup : l.up = msg :: rest) (hquiet : ∀ d, msg ≠ .detection d)
    (hack : (l.outcome p msg ans).ackSeq = none)
    (hgap : (l.outcome p msg ans).stream.gapEvents = l.stream.gapEvents)
    (hdup : (l.outcome p msg ans).stream.duplicates = l.stream.duplicates)
    (hstate : l'.closed ∨ l'.AfterHello base r) : Advance base events h r r l l' accepted := by
  obtain ⟨-, msg', rest', hup', hrest, hsent, hstream, -, hacks, hdown, hacc⟩ :=
    exists_of_read hread
  rw [hup] at hup'
  cases hup'
  have hdet : detections l'.up = detections l.up := by
    rw [hup, hrest]
    cases msg with
    | detection d => exact absurd rfl (hquiet d)
    | hello | heartbeat | notSet => rfl
  have hacks' : l'.acks = l.acks := by simp [hacks, hack]
  refine ⟨⟨hl.le, hdet ▸ hl.flight, hsent ▸ hl.sent, ?_,
    hstate.imp_right fun h => .inr (.inr h), ?_, ?_, ?_, ?_⟩, Nat.le_refl r, ?_,
    by rw [hdet], hsent, hstate⟩
  · rw [hdet, hsent]
    exact hl.reach
  · rw [hstream, hgap, hl.gapEvents]
  · rw [hstream, hdup, hl.duplicates]
  · rw [hacks']
    exact hl.acks
  · intro n hn
    rw [hacks']
    exact hl.down n ((hdown n hn).resolve_right (by simp [hack]))
  · rw [hacc, Nat.sub_self, List.take_zero]
    cases msg with
    | detection d => exact absurd rfl (hquiet d)
    | hello | heartbeat | notSet => rfl

theorem ackSeq_eq_none {out : Outcome} (h : ∀ n, out.sent ≠ some (.ack n)) :
    out.ackSeq = none := by
  cases hseq : out.ackSeq with
  | none => rfl
  | some n => exact absurd (ackSeq_eq_some_iff.1 hseq) (h n)

/-- Reading the Hello opens the stream at its position, or closes it. -/
theorem Inv.read_hello (hl : l.Inv base events h r) (hat : l.AtHello base h r)
    (hread : l.read p ans = some (l', accepted)) : Advance base events h r r l l' accepted := by
  obtain ⟨-, msg, rest', hup', hrest, -, hstream, hclosed, -⟩ := exists_of_read hread
  obtain ⟨-, hr, hello, rest, hup, hseq, hdurable, hno⟩ := hat
  rw [hup] at hup'
  cases hup'
  obtain ⟨hsent, hgap, hdup⟩ := Stream.onHello_quiet p.certCn l.stream hello
  refine hl.advance_of_quiet hread hup nofun (ackSeq_eq_none fun n => ?_) hgap hdup ?_
  · rw [outcome, Stream.onMessage, hsent]
    nofun
  · cases hstatus : (l.stream.onHello p.certCn hello).status with
    | some st => exact .inl (by rw [hclosed, outcome, Stream.onMessage, hstatus]; rfl)
    | none =>
      have hafter : l'.stream = _ := hstream.trans (Stream.stream_onHello hstatus)
      refine .inr ⟨?_, ?_, ?_, ?_⟩
      · rw [hafter]
        exact (Stream.status_onHello_iff.1 hstatus).1
      · rw [hafter, hr]
        exact hseq
      · rw [hafter]
        simp [hdurable]
      · rw [hrest]
        exact hno

/-- Reading a heartbeat, or a message without a payload, after the Hello. -/
theorem Inv.read_other (hl : l.Inv base events h r) {msg : AgentMessage}
    {rest : List AgentMessage} (hup : l.up = msg :: rest) (hafter : l.AfterHello base r)
    (hquiet : ∀ d, msg ≠ .detection d) (hread : l.read p ans = some (l', accepted)) :
    Advance base events h r r l l' accepted := by
  obtain ⟨-, msg', rest', hup', hrest, -, hstream, hclosed, -⟩ := exists_of_read hread
  rw [hup] at hup'
  cases hup'
  obtain ⟨hdev, hlast, hsync, hno⟩ := hafter
  rw [hup] at hno
  have hkept : l'.stream = l.stream → l'.AfterHello base r := fun heq =>
    ⟨heq ▸ hdev, heq ▸ hlast, heq ▸ hsync, hrest ▸ fun x hx => hno x (List.mem_cons_of_mem _ hx)⟩
  cases msg with
  | hello x => exact absurd List.mem_cons_self (hno x)
  | detection d => exact absurd rfl (hquiet d)
  | heartbeat hb =>
    have heq : (l.outcome p (.heartbeat hb) ans).stream = l.stream :=
      Stream.stream_onHeartbeat _ _ _ _
    exact hl.advance_of_quiet hread hup hquiet
      (ackSeq_eq_none fun n => Stream.sent_onHeartbeat_ne _ _ _ _ n) (by rw [heq]) (by rw [heq])
      (.inr (hkept (hstream.trans heq)))
  | notSet => exact hl.advance_of_quiet hread hup hquiet rfl rfl rfl (.inl hclosed)

/-- The event at the position of the stream carries the seq that the stream waits for. -/
theorem AfterHello.next (hafter : l.AfterHello base r) (hnum : Numbered base events)
    {d : DetectionEvent} {ds : List DetectionEvent} (hflight : d :: ds <+: events.drop r) :
    d.seq = l.stream.lastSeq + 1 ∧ l.stream.lastSeq < d.seq := by
  have hlast := hafter.2.1
  have hseq : d.seq.toNat = base + r + 1 := hnum.head hflight
  have := d.seq.toNat_lt
  rw [← UInt64.toNat_inj, UInt64.lt_iff_toNat_lt, toNat_add_one (by omega)]
  omega

/-- A detection above the last seq is accepted and acked. -/
theorem AfterHello.outcome_detection (hafter : l.AfterHello base r) {d : DetectionEvent}
    (hlt : l.stream.lastSeq < d.seq) (p : Peers) (ans : Answers) :
    l.stream.Accepts p.integrations d (answers ans) ∧ ∃ n calls,
      l.outcome p (.detection d) ans = Stream.writeAck
        (Stream.accept { l.stream with kafkaPublished := n } d) calls (answers ans) := by
  have hdev := hafter.1
  refine ⟨(Stream.accepts_iff _ _ _ hdev).2 ⟨hlt, by simp [Stream.passes, answers]⟩, ?_⟩
  rcases Stream.onDetection_cases p.integrations d (answers ans) hdev with ⟨hle, -⟩ |
    ⟨-, hrate, -⟩ | ⟨-, -, -, hpub, -⟩ | ⟨-, -, n, calls, -, -, heq⟩
  · exact absurd hlt (not_lt.2 hle)
  · cases hrate
  · cases hpub
  · exact ⟨n, calls, heq⟩

/-- Reading a detection accepts the event at the position of the stream. -/
theorem Inv.read_detection (hnum : Numbered base events) (hl : l.Inv base events h r)
    {d : DetectionEvent} {rest : List AgentMessage} (hup : l.up = .detection d :: rest)
    (hafter : l.AfterHello base r) (hread : l.read p ans = some (l', accepted)) :
    Advance base events h r (r + 1) l l' accepted := by
  obtain ⟨-, msg, rest', hup', hrest, hsent, hstream, hclosed, hacks, hdown, hacc⟩ :=
    exists_of_read hread
  rw [hup] at hup'
  cases hup'
  have hflight : d :: detections rest <+: events.drop r := by
    have := hl.flight
    rwa [hup] at this
  have hseq : d.seq.toNat = base + r + 1 := hnum.head hflight
  obtain ⟨hnext, hlt⟩ := hafter.next hnum hflight
  obtain ⟨haccepts, n, calls, hout⟩ := hafter.outcome_detection hlt p ans
  obtain ⟨hdev, hlast, hsync, hno⟩ := hafter
  have hack : (l.outcome p (.detection d) ans).ackSeq = some d.seq := by
    rw [hout]
    rfl
  rw [hack] at hacks hdown
  rw [hout] at hstream
  have hcount : r + 1 + (detections l'.up).length = r + (detections l.up).length := by
    rw [hup, hrest]
    simp [detections]
    omega
  have hstate : l'.AfterHello base (r + 1) := by
    rw [hup] at hno
    refine ⟨hstream ▸ hdev, ?_, hstream ▸ rfl, hrest ▸ fun x hx => hno x (.tail _ hx)⟩
    rw [hstream]
    exact hseq
  refine ⟨⟨hl.le.trans (Nat.le_succ r), ?_, hsent ▸ hl.sent, ?_, .inr (.inr (.inr hstate)), ?_, ?_,
    ?_, ?_⟩, Nat.le_succ r, ?_, hcount, hsent, .inr hstate⟩
  · rw [hrest]
    exact tail_isPrefix_drop hflight
  · rw [hcount, hsent]
    exact hl.reach
  · rw [hstream]
    simp [Stream.writeAck, Stream.accept, hsync, hnext, hl.gapEvents]
  · rw [hstream]
    exact hl.duplicates
  · intro n hn
    rw [hacks] at hn
    rcases List.mem_append.1 hn with hn | hn
    · have := hl.acks n hn
      omega
    · obtain rfl : n = d.seq := by simpa using hn
      have := hl.le
      omega
  · intro n hn
    rw [hacks]
    rcases hdown n hn with hn | hn
    · exact List.mem_append_left _ (hl.down n hn)
    · obtain rfl : d.seq = n := by simpa using hn
      simp
  · obtain ⟨t, ht⟩ := hflight
    rw [hacc, acceptedOf, if_pos haccepts, ← ht]
    simp

/-- The gateway reads the next message of a stream. -/
theorem Inv.read (hnum : Numbered base events) (hl : l.Inv base events h r)
    (hread : l.read p ans = some (l', accepted)) :
    ∃ r', Advance base events h r r' l l' accepted := by
  obtain ⟨hopen, msg, rest, hup, -⟩ := exists_of_read hread
  rcases hl.state with hclosed | hnil | hat | hafter
  · exact absurd hclosed (by simp [hopen])
  · exact absurd hnil (by simp [hup])
  · exact ⟨r, hl.read_hello hat hread⟩
  · by_cases hdet : ∃ d, msg = .detection d
    · obtain ⟨d, rfl⟩ := hdet
      exact ⟨r + 1, hl.read_detection hnum hup hafter hread⟩
    · exact ⟨r, hl.read_other hup hafter (fun d hd => hdet ⟨d, hd⟩) hread⟩

/-- The invariant of a stream is kept while the events grow. -/
theorem Inv.mono {events' : List DetectionEvent} (hpre : events <+: events')
    (hl : l.Inv base events h r) : l.Inv base events' h r :=
  { hl with
    flight := hl.flight.trans (hpre.drop r)
    sent := hl.sent.trans (hpre.drop h) }

theorem Inv.exact (hnum : Numbered base events) (hl : l.Inv base events h r) : l.Exact where
  next hopen d rest hup := by
    rcases hl.state with hclosed | hnil | ⟨-, -, hello, rest', hup', -⟩ | hafter
    · exact absurd hclosed (by simp [hopen])
    · exact absurd hnil (by simp [hup])
    · rw [hup] at hup'
      cases hup'
    · have hflight := hl.flight
      rw [hup] at hflight
      exact hafter.next hnum hflight
  gapEvents := hl.gapEvents
  duplicates := hl.duplicates
  acks n hn := by
    obtain ⟨hlo, hhi⟩ := hl.acks n hn
    have hreach := hl.reach
    obtain ⟨d, hd⟩ : ∃ d, l.sent[l.sent.length - 1]? = some d :=
      ⟨_, List.getElem?_eq_getElem (by omega)⟩
    refine ⟨d, List.mem_of_getElem? hd, ?_⟩
    have := hnum.getElem hl.sent hd
    rw [UInt64.le_iff_toNat_le]
    omega

/-- The agent writes a message that is not a Hello. -/
theorem alive_append (msg : AgentMessage) (hmsg : ∀ x, msg ≠ .hello x) (sent : List DetectionEvent)
    (hl : l.closed ∨ l.AtHello base h r ∨ l.AfterHello base r) :
    let l' : Link := { l with up := l.up ++ [msg], sent := sent }
    l'.closed ∨ l'.AtHello base h r ∨ l'.AfterHello base r := by
  have hno : ∀ {us : List AgentMessage}, (∀ x, .hello x ∉ us) → ∀ x, .hello x ∉ us ++ [msg] :=
    fun hus x hx => (List.mem_append.1 hx).elim (hus x) fun hx =>
      hmsg x (List.mem_singleton.1 hx).symm
  refine hl.imp_right (Or.imp ?_ ?_)
  · rintro ⟨hdev, hr, hello, rest, hup, hseq, hdurable, hrest⟩
    exact ⟨hdev, hr, hello, rest ++ [msg], by simp [hup], hseq, hdurable, hno hrest⟩
  · rintro ⟨hdev, hlast, hsync, hup⟩
    exact ⟨hdev, hlast, hsync, hno hup⟩

/-- A loss keeps the invariant of the stream, which may never read its Hello. -/
theorem Inv.take (hl : l.Inv base events h r) (up down : ℕ) :
    ({ l with up := l.up.take up, down := l.down.take down } : Link).Inv base events h r := by
  have hpre : detections (l.up.take up) <+: detections l.up :=
    (List.take_prefix up l.up).filterMap _
  have hsub : ∀ {x}, x ∈ l.up.take up → x ∈ l.up := fun hx => List.mem_of_mem_take hx
  refine { hl with
    flight := hpre.trans hl.flight
    reach := (Nat.add_le_add_left hpre.length_le r).trans hl.reach
    state := ?_
    down := fun n hn => hl.down n (List.mem_of_mem_take hn) }
  rcases hl.state with hclosed | hnil | ⟨hdev, hr, hello, rest, hup, hseq, hdurable, hno⟩ |
    ⟨hdev, hlast, hsync, hno⟩
  · exact .inl hclosed
  · exact .inr (.inl (by simp [hnil]))
  · cases up with
    | zero => exact .inr (.inl rfl)
    | succ k =>
      refine .inr (.inr (.inl ⟨hdev, hr, hello, rest.take k, by simp [hup], hseq, hdurable, ?_⟩))
      exact fun x hx => hno x (List.mem_of_mem_take hx)
  · exact .inr (.inr (.inr ⟨hdev, hlast, hsync, fun x hx => hno x (hsub hx)⟩))

end Link

end Ridgeline
