import Ridgeline.ResumeStream

/-!
# The resume protocol is gap-free

With the events numbered as in `Numbered`, the outbox is what is behind the popped events,
the log's ack is the number of popped events once the reader is done, and a connection has
sent everything from the position `h` of its Hello on (`Connection.Inv`). Every stream is
at a position between `h` and what was sent, and everything before it was accepted.

`Net.resume_safe` follows for every interleaving and any number of losses, as long as the
64-bit seq does not wrap. When it does, the gateway takes the new event for a duplicate
(`Net.wrapped_seq_is_duplicate`).
-/

namespace Ridgeline

namespace Net

/-- All events of the run, from position 0. -/
def events (s : Net) : List DetectionEvent :=
  s.left ++ s.outbox

/-- The ack that is recorded in the log, or will be once the reader is done. -/
def ackedSeq (s : Net) : UInt64 :=
  match s.conn.bind Connection.pendingAck with
  | none => s.lastAcked
  | some n => if n ≤ s.lastAcked then s.lastAcked else n

end Net

/-- A connection whose Hello is at position `h` and whose stream is at position `r`. -/
structure Connection.Inv (base : ℕ) (events accepted : List DetectionEvent) (popped h r : ℕ)
    (c : Connection) : Prop where
  link : c.link.Inv base events h r
  low : h ≤ popped
  high : popped ≤ r
  taken : ∀ d ∈ events.take r, d ∈ accepted
  full : c.ok → r + (detections c.link.up).length = h + c.link.sent.length
  alive : c.ok → c.link.closed ∨ c.link.AtHello base h r ∨ c.link.AfterHello base r
  lastSent : c.lastSentSeq.toNat =
    if c.link.sent = [] then 0 else base + h + c.link.sent.length
  todo : ∃ j, h ≤ j ∧ j ≤ h + c.link.sent.length ∧ c.todo <+: events.drop j ∧
    (c.phase = .resending → j = h + c.link.sent.length)
  connected : c.phase = .connected → c.link.sent = [] ∧ c.todo = []

/-- The position of a stream is within the events. -/
theorem Connection.Inv.position_le {base popped h r : ℕ} {events accepted : List DetectionEvent}
    {c : Connection} (hc : c.Inv base events accepted popped h r)
    (hpopped : popped ≤ events.length) : r ≤ events.length := by
  have hlen := hc.link.sent.length_le
  rw [List.length_drop] at hlen
  have := hc.link.reach
  have := hc.low
  omega

/-- The invariant of a connection is kept while events are emitted and accepted. -/
theorem Connection.Inv.mono {base popped h r : ℕ}
    {events events' accepted accepted' : List DetectionEvent} {c : Connection}
    (hc : c.Inv base events accepted popped h r) (hpre : events <+: events')
    (hpopped : popped ≤ events.length) (hsub : ∀ d ∈ accepted, d ∈ accepted') :
    c.Inv base events' accepted' popped h r := by
  obtain ⟨j, hj, hj', htodo, hphase⟩ := hc.todo
  refine { hc with
    link := hc.link.mono hpre
    taken := fun d hd => ?_
    todo := ⟨j, hj, hj', htodo.trans (hpre.drop j), hphase⟩ }
  obtain ⟨new, rfl⟩ := hpre
  rw [List.take_append_of_le_length (hc.position_le hpopped)] at hd
  exact hsub d (hc.taken d hd)

/-- The event that is not skipped is the one behind those sent. -/
theorem Connection.Inv.position_of_send {base popped h r j : ℕ}
    {events accepted : List DetectionEvent} {c : Connection} {d : DetectionEvent}
    (hinv : c.Inv base events accepted popped h r)
    (hj : h ≤ j) (hj' : j ≤ h + c.link.sent.length) (hseq : d.seq.toNat = base + j + 1)
    (hstarted : c.phase ≠ .connected)
    (hphase : c.phase = .resending → j = h + c.link.sent.length)
    (hskip : ¬ (c.phase = .sending ∧ d.seq ≤ c.lastSentSeq)) : j = h + c.link.sent.length := by
  have hlast := hinv.lastSent
  cases hph : c.phase with
  | connected => exact absurd hph hstarted
  | resending => exact hphase hph
  | sending =>
    have hnew : c.lastSentSeq.toNat < d.seq.toNat := by
      rw [← UInt64.lt_iff_toNat_lt]
      exact not_le.1 fun hle => hskip ⟨hph, hle⟩
    split_ifs at hlast with hnil
    · simp only [hnil, List.length_nil] at hj' ⊢
      omega
    · omega

/-- The event behind those sent is written to the stream. -/
theorem Connection.Inv.send {base popped h r : ℕ}
    {events accepted todo : List DetectionEvent} {c : Connection} {d : DetectionEvent}
    (hinv : c.Inv base events accepted popped h r) (hok : c.ok)
    (hpre : d :: todo <+: events.drop (h + c.link.sent.length))
    (hseq : d.seq.toNat = base + (h + c.link.sent.length) + 1) (hstarted : c.phase ≠ .connected) :
    Connection.Inv base events accepted popped h r { c with
      todo := todo
      lastSentSeq := max c.lastSentSeq d.seq
      link := { c.link with
        up := c.link.up ++ [.detection d]
        sent := c.link.sent ++ [d] } } := by
  have hlast := hinv.lastSent
  have hmax : max c.lastSentSeq d.seq = d.seq := by
    apply max_eq_right
    rw [UInt64.le_iff_toNat_le]
    split_ifs at hlast <;> omega
  have hfull := hinv.full hok
  have hdets : detections (c.link.up ++ [.detection d]) = detections c.link.up ++ [d] :=
    detections_append _ _
  have halive := Link.alive_append (.detection d) (by simp) (c.link.sent ++ [d]) (hinv.alive hok)
  refine { hinv with
    link := { hinv.link with
      flight := ?_
      sent := snoc_isPrefix_drop hinv.link.sent hpre
      reach := ?_
      state := halive.imp_right .inr }
    full := fun _ => ?_
    alive := fun _ => halive
    lastSent := ?_
    todo := ?_
    connected := fun hph => absurd hph hstarted }
  · rw [hdets]
    exact snoc_isPrefix_drop hinv.link.flight (by rw [hfull]; exact hpre)
  · rw [hdets, List.length_append, List.length_append]
    simp only [List.length_singleton]
    omega
  · rw [hdets, List.length_append, List.length_append]
    simp only [List.length_singleton]
    omega
  · simp only [hmax, hseq, List.append_eq_nil_iff, List.cons_ne_nil, and_false, if_false,
      List.length_append, List.length_singleton]
    omega
  · refine ⟨h + c.link.sent.length + 1, by omega, ?_, tail_isPrefix_drop hpre, fun _ => ?_⟩ <;>
      simp only [List.length_append, List.length_singleton] <;> omega

namespace Net

/-- What holds in every state of a run whose seqs do not wrap. -/
structure Inv (base : ℕ) (s : Net) : Prop where
  numbered : Numbered base s.events
  bound : base + s.events.length < 2 ^ 64
  next : s.nextSeq = UInt64.ofNat (base + s.events.length + 1)
  acked : s.ackedSeq.toNat = base + s.left.length
  left : ∀ d ∈ s.left, d ∈ s.accepted
  conn : ∀ c, s.conn = some c → ∃ h r, c.Inv base s.events s.accepted s.left.length h r
  old : ∀ l ∈ s.old, ∃ h r, l.Inv base s.events h r

variable {base : ℕ} {s t : Net} {p : Peers}

theorem popped_le (s : Net) : s.left.length ≤ s.events.length := by
  simp [events]

theorem Inv.safe (hs : Inv base s) : s.Safe where
  left := hs.left
  links l hl := by
    rcases List.mem_append.1 hl with hl | hl
    · obtain ⟨c, hc, rfl⟩ := Option.map_eq_some_iff.1 (Option.mem_toList.1 hl)
      obtain ⟨h, r, hinv⟩ := hs.conn c hc
      exact hinv.link.exact hs.numbered
    · obtain ⟨h, r, hinv⟩ := hs.old l hl
      exact hinv.exact hs.numbered

theorem inv_start {outbox : List DetectionEvent} {lastAcked nextSeq : UInt64}
    (h : Ready outbox lastAcked nextSeq) :
    Inv lastAcked.toNat (start outbox lastAcked nextSeq) := by
  have hnum : Numbered lastAcked.toNat outbox := by
    intro i d hd
    have := congrArg (fun l => l[i]?) h.seqs
    rw [List.getElem?_map, hd] at this
    have hi := (List.getElem?_eq_some_iff.1 hd).1
    simp [hi] at this
    omega
  refine ⟨hnum, ?_, h.next, rfl, by simp [start], by simp [start], by simp [start]⟩
  show lastAcked.toNat + outbox.length < 2 ^ 64
  rcases List.eq_nil_or_concat' outbox with rfl | ⟨ds, d, rfl⟩
  · exact lastAcked.toNat_lt
  · have := hnum ds.length d (by simp)
    have := d.seq.toNat_lt
    simp
    omega

/-! ## One lemma per step -/

/-- A step of the agent on its connection that leaves the outbox and the log alone. -/
theorem Inv.set_conn (hs : Inv base s) {c c' : Connection} (hc : s.conn = some c)
    (hpending : c'.pendingAck = c.pendingAck)
    (hinv : ∀ h r, c.Inv base s.events s.accepted s.left.length h r →
      c'.Inv base s.events s.accepted s.left.length h r) :
    Inv base { s with conn := some c' } := by
  refine { hs with
    acked := ?_
    conn := ?_ }
  · have := hs.acked
    simpa [ackedSeq, hc, hpending] using this
  · rintro c'' heq
    cases heq
    obtain ⟨h, r, hcinv⟩ := hs.conn c hc
    exact ⟨h, r, hinv h r hcinv⟩

theorem inv_emit (hs : Inv base s) (hne : s.nextSeq ≠ 0) (body : Bytes) :
    Inv base (s.emit body) := by
  have hbound := hs.bound
  have hnext := hs.next
  have hlt : base + s.events.length + 1 < 2 ^ 64 := by
    by_contra hge
    apply hne
    rw [hnext, show base + s.events.length + 1 = 2 ^ 64 by omega]
    rfl
  have hseq : s.nextSeq.toNat = base + s.events.length + 1 := by
    rw [hnext]
    exact UInt64.toNat_ofNat_of_lt' hlt
  have hevents : (s.emit body).events = s.events ++ [⟨s.nextSeq, body⟩] := by
    simp [emit, events]
  have hpre : s.events <+: (s.emit body).events := hevents ▸ List.prefix_append _ _
  refine ⟨?_, ?_, ?_, hs.acked, hs.left, ?_, ?_⟩
  · rw [hevents]
    intro i d hd
    rcases Nat.lt_or_ge i s.events.length with hi | hi
    · rw [List.getElem?_append_left hi] at hd
      exact hs.numbered i d hd
    · rw [List.getElem?_append_right hi, List.getElem?_singleton] at hd
      split_ifs at hd with h0
      cases hd
      have : i = s.events.length := by omega
      rw [hseq, this]
  · rw [hevents, List.length_append]
    exact hlt
  · rw [hevents, List.length_append]
    show s.nextSeq + 1 = _
    rw [hnext, ← UInt64.toNat_inj]
    simp
    omega
  · intro c hc
    obtain ⟨h, r, hinv⟩ := hs.conn c hc
    exact ⟨h, r, hinv.mono hpre s.popped_le fun _ => id⟩
  · intro l hl
    obtain ⟨h, r, hinv⟩ := hs.old l hl
    exact ⟨h, r, hinv.mono hpre⟩

/-- A new connection starts at the position of the log's ack. -/
theorem Inv.fresh (hs : Inv base s) (hlast : s.lastAcked.toNat = base + s.left.length) :
    ({ link := { up := [.hello ⟨p.deviceId, s.lastAcked, true, p.tenantId⟩] } } : Connection).Inv
      base s.events s.accepted s.left.length s.left.length s.left.length where
  link :=
    { le := Nat.le_refl _
      flight := List.nil_prefix
      sent := List.nil_prefix
      reach := Nat.le_refl _
      state := .inr (.inr (.inl ⟨rfl, rfl, _, [], rfl, hlast, rfl, nofun⟩))
      gapEvents := rfl
      duplicates := rfl
      acks := nofun
      down := nofun }
  low := Nat.le_refl _
  high := Nat.le_refl _
  taken d hd := by
    rw [events, List.take_left] at hd
    exact hs.left d hd
  full _ := rfl
  alive _ := .inr (.inl ⟨rfl, rfl, _, [], rfl, hlast, rfl, nofun⟩)
  lastSent := rfl
  todo := ⟨s.left.length, Nat.le_refl _, Nat.le_refl _, List.nil_prefix, nofun⟩
  connected _ := ⟨rfl, rfl⟩

theorem inv_connect (hs : Inv base s) (h : s.connect p = some t) : Inv base t := by
  have hacked := hs.acked
  unfold connect at h
  simp only at h
  split at h
  · rename_i hnone
    cases h
    rw [ackedSeq, hnone] at hacked
    refine { hs with acked := hacked, conn := ?_ }
    intro c hc
    cases hc
    exact ⟨_, _, hs.fresh hacked⟩
  · rename_i c hc
    split_ifs at h with hready
    cases h
    rw [ackedSeq, hc, Option.bind_some, hready.2.1] at hacked
    refine { hs with acked := hacked, conn := ?_, old := ?_ }
    · intro c' hc'
      cases hc'
      exact ⟨_, _, hs.fresh hacked⟩
    · intro l hl
      rcases List.mem_append.1 hl with hl | hl
      · exact hs.old l hl
      · obtain ⟨h, r, hinv⟩ := hs.conn c hc
        rw [List.mem_singleton.1 hl]
        exact ⟨h, r, hinv.link⟩

theorem inv_snapshot (hs : Inv base s) {c c' : Connection} (hc : s.conn = some c)
    (h : s.snapshot c = some c') : Inv base { s with conn := some c' } := by
  have houtbox : s.outbox <+: s.events.drop s.left.length := by
    rw [events, List.drop_left]
  unfold snapshot at h
  split at h
  · rename_i hphase
    cases h
    refine hs.set_conn hc rfl fun h r hinv => ?_
    obtain ⟨hsent, -⟩ := hinv.connected hphase
    have hlow := hinv.low
    have hhigh := hinv.high
    have hreach := hinv.link.reach
    rw [hsent, List.length_nil] at hreach
    refine { hinv with todo := ⟨s.left.length, hlow, ?_, houtbox, fun _ => ?_⟩, connected := nofun }
    · simp only [hsent, List.length_nil]
      omega
    · simp only [hsent, List.length_nil]
      omega
  · cases h
    refine hs.set_conn hc rfl fun h r hinv => ?_
    have hle : s.left.length ≤ h + c.link.sent.length := by
      have hhigh := hinv.high
      have hreach := hinv.link.reach
      omega
    exact { hinv with
      todo := ⟨s.left.length, hinv.low, hle, houtbox, nofun⟩
      connected := nofun }
  · cases h

/-- The next event of the snapshot is skipped exactly when it was sent on this connection,
so what is sent is the event behind those sent. -/
theorem inv_send (hs : Inv base s) {c c' : Connection} (hc : s.conn = some c) (hok : c.ok)
    (h : c.send = some c') : Inv base { s with conn := some c' } := by
  unfold Connection.send at h
  split at h
  · cases h
  rename_i d todo htodo
  split_ifs at h with hskip
  · cases h
    refine hs.set_conn hc rfl fun h r hinv => ?_
    obtain ⟨j, hj, hj', hpre, -⟩ := hinv.todo
    rw [htodo] at hpre
    have hseq : d.seq.toNat = base + j + 1 := hs.numbered.head hpre
    have hle : j + 1 ≤ h + c.link.sent.length := by
      have hskip' := UInt64.le_iff_toNat_le.1 hskip.2
      rw [hinv.lastSent] at hskip'
      split_ifs at hskip' <;> omega
    exact { hinv with
      todo := ⟨j + 1, by omega, hle, tail_isPrefix_drop hpre, by simp [hskip.1]⟩
      connected := by simp [hskip.1] }
  · cases h
    refine hs.set_conn hc rfl fun h r hinv => ?_
    obtain ⟨j, hj, hj', hpre, hphase⟩ := hinv.todo
    rw [htodo] at hpre
    have hseq : d.seq.toNat = base + j + 1 := hs.numbered.head hpre
    have hstarted : c.phase ≠ .connected := fun hph => by
      have hnil := (hinv.connected hph).2
      rw [htodo] at hnil
      cases hnil
    obtain rfl := hinv.position_of_send hj hj' hseq hstarted hphase hskip
    exact hinv.send hok hpre hseq hstarted

theorem inv_heartbeat (hs : Inv base s) {c c' : Connection} {hb : Heartbeat}
    (hc : s.conn = some c) (hok : c.ok) (h : c.heartbeat hb = some c') :
    Inv base { s with conn := some c' } := by
  unfold Connection.heartbeat at h
  split_ifs at h with hphase
  cases h
  refine hs.set_conn hc rfl fun h r hinv => ?_
  have hdets : detections (c.link.up ++ [.heartbeat hb]) = detections c.link.up := by
    simp [detections]
  have halive := Link.alive_append (.heartbeat hb) (by simp) c.link.sent (hinv.alive hok)
  exact { hinv with
    link := { hinv.link with
      flight := hdets ▸ hinv.link.flight
      reach := hdets ▸ hinv.link.reach
      state := halive.imp_right .inr }
    full := fun _ => hdets ▸ hinv.full hok
    alive := fun _ => halive }

theorem inv_lose (hs : Inv base s) {c : Connection} (hc : s.conn = some c) (up down : ℕ) :
    Inv base { s with conn := some (c.lose up down) } := by
  refine hs.set_conn hc rfl fun h r hinv => ?_
  exact { hinv with link := hinv.link.take up down, full := nofun, alive := nofun }

/-- An ack pops the outbox up to its position. -/
theorem length_popped {n : UInt64} : ∀ {b : ℕ} {ds : List DetectionEvent}, Numbered b ds →
    n.toNat ≤ b + ds.length → (ackUpTo n ds).1.length = n.toNat - b
  | b, [], _, hn => by
    rw [List.length_nil] at hn
    have : n.toNat - b = 0 := by omega
    simp [ackUpTo, this]
  | b, d :: ds, hnum, hn => by
    have hd : d.seq.toNat = b + 1 := hnum 0 d rfl
    have hds : Numbered (b + 1) ds := fun i e he => by
      have := hnum (i + 1) e he
      omega
    rw [List.length_cons] at hn
    have ih := length_popped (n := n) hds (by omega)
    simp only [ackUpTo, List.span_eq_takeWhile_dropWhile, List.takeWhile_cons,
      decide_eq_true_eq] at ih ⊢
    split_ifs with hle
    · have := UInt64.le_iff_toNat_le.1 hle
      rw [List.length_cons, ih]
      omega
    · have := mt UInt64.le_iff_toNat_le.2 hle
      rw [List.length_nil]
      omega

theorem ackUpTo_append (n : UInt64) (ds : List DetectionEvent) :
    (ackUpTo n ds).1 ++ (ackUpTo n ds).2 = ds := by
  simp [ackUpTo, List.span_eq_takeWhile_dropWhile]

/-- The outbox goes on from the popped events. -/
theorem Inv.numbered_outbox (hs : Inv base s) : Numbered (base + s.left.length) s.outbox := by
  intro i d hd
  have hget : s.events[s.left.length + i]? = some d := by
    rw [events, List.getElem?_append_right (by omega)]
    simpa using hd
  have := hs.numbered (s.left.length + i) d hget
  omega

/-- After an ack, what was popped reaches up to it. -/
theorem Inv.length_left (hs : Inv base s) {n : UInt64}
    (hn : n.toNat ≤ base + s.events.length) :
    (s.left ++ (ackUpTo n s.outbox).1).length = max s.left.length (n.toNat - base) := by
  rw [events, List.length_append] at hn
  rw [List.length_append, length_popped hs.numbered_outbox (by omega)]
  omega

/-- The reader pops the outbox up to an ack that the stream has written. -/
theorem inv_pop (hs : Inv base s) {c : Connection} {n : UInt64} {down : List GatewayMessage}
    (hc : s.conn = some c) (hpending : c.pendingAck = none)
    (hdown : c.link.down = .ack n :: down) : Inv base { s with
      outbox := (ackUpTo n s.outbox).2
      left := s.left ++ (ackUpTo n s.outbox).1
      conn := some { c with pendingAck := some n, link := { c.link with down := down } } } := by
  obtain ⟨h, r, hinv⟩ := hs.conn c hc
  have hacked : s.lastAcked.toNat = base + s.left.length := by
    have := hs.acked
    rwa [ackedSeq, hc, Option.bind_some, hpending] at this
  obtain ⟨hlo, hhi⟩ := hinv.link.acks n (hinv.link.down n (by simp [hdown]))
  have hlow := hinv.low
  have hhigh := hinv.high
  have hrle := hinv.position_le s.popped_le
  have hlen := hs.length_left (n := n) (by omega)
  have hevents : ∀ c', events { s with
      outbox := (ackUpTo n s.outbox).2
      left := s.left ++ (ackUpTo n s.outbox).1
      conn := c' } = s.events := fun c' => by
    rw [events, List.append_assoc, ackUpTo_append]
    rfl
  have htaken : ∀ d ∈ s.left ++ (ackUpTo n s.outbox).1, d ∈ s.accepted := fun d hd => by
    have hle : (s.left ++ (ackUpTo n s.outbox).1).length ≤ r := by
      rw [hlen]
      omega
    exact hinv.taken d ((List.prefix_take_iff.2 ⟨⟨_, hevents none⟩, hle⟩).subset hd)
  refine ⟨?_, ?_, ?_, ?_, htaken, ?_, ?_⟩
  · rw [hevents]
    exact hs.numbered
  · rw [hevents]
    exact hs.bound
  · rw [hevents]
    exact hs.next
  · show (if n ≤ s.lastAcked then s.lastAcked else n).toNat = base + _
    rw [hlen]
    split_ifs with hle
    · have := UInt64.le_iff_toNat_le.1 hle
      omega
    · have := mt UInt64.le_iff_toNat_le.2 hle
      omega
  · intro c' hc'
    cases hc'
    rw [hevents]
    refine ⟨h, r, { hinv with
      link := { hinv.link with down := fun m hm => hinv.link.down m ?_ }
      low := ?_
      high := ?_ }⟩
    · rw [hdown]
      exact List.mem_cons_of_mem _ hm
    · rw [hlen]
      omega
    · rw [hlen]
      omega
  · intro l hl
    rw [hevents]
    exact hs.old l hl

theorem inv_deliver (hs : Inv base s) {c : Connection} (hc : s.conn = some c)
    (h : s.deliver c = some t) : Inv base t := by
  unfold deliver at h
  split at h
  · rename_i n down hpending hdown
    cases h
    exact inv_pop hs hc hpending hdown
  · rename_i update down hpending hdown
    cases h
    refine hs.set_conn hc rfl fun h r hinv => ?_
    refine { hinv with link := { hinv.link with down := fun n hn => hinv.link.down n ?_ } }
    rw [hdown]
    exact List.mem_cons_of_mem _ hn
  · cases h

/-- The reader records the ack it has popped the outbox up to. -/
theorem inv_acknowledge (hs : Inv base s) {c : Connection} (hc : s.conn = some c)
    (h : s.acknowledge c = some t) : Inv base t := by
  obtain ⟨n, hpending, rfl⟩ := Option.map_eq_some_iff.1 h
  have hacked := hs.acked
  rw [ackedSeq, hc, Option.bind_some, hpending] at hacked
  refine { hs with acked := hacked, conn := ?_ }
  intro c' hc'
  cases hc'
  obtain ⟨h, r, hinv⟩ := hs.conn c hc
  exact ⟨h, r, { hinv with }⟩

theorem inv_read (hs : Inv base s) {c : Connection} (hc : s.conn = some c) {ans : Answers}
    (h : s.read p c ans = some t) : Inv base t := by
  obtain ⟨⟨l, accepted⟩, hread, rfl⟩ := Option.map_eq_some_iff.1 h
  obtain ⟨h, r, hinv⟩ := hs.conn c hc
  obtain ⟨r', hadv⟩ := hinv.link.read hs.numbered hread
  refine { hs with
    acked := ?_
    left := fun d hd => List.mem_append_left _ (hs.left d hd)
    conn := ?_ }
  · have := hs.acked
    rwa [ackedSeq, hc] at this
  · intro c' hc'
    cases hc'
    refine ⟨h, r', { hinv with
      link := hadv.inv
      high := hinv.high.trans hadv.le
      taken := fun d hd => ?_
      full := fun hok => ?_
      alive := fun _ => hadv.state.imp_right .inr
      lastSent := ?_
      todo := ?_
      connected := ?_ }⟩
    · obtain ⟨k, rfl⟩ := Nat.exists_eq_add_of_le hadv.le
      rw [List.take_add] at hd
      rcases List.mem_append.1 hd with hd | hd
      · exact List.mem_append_left _ (hinv.taken d hd)
      · rw [hadv.accepted, Nat.add_sub_cancel_left]
        exact List.mem_append_right _ hd
    · rw [hadv.inFlight, hadv.sent]
      exact hinv.full hok
    · rw [hadv.sent]
      exact hinv.lastSent
    · rw [hadv.sent]
      exact hinv.todo
    · rw [hadv.sent]
      exact hinv.connected

theorem inv_readOld (hs : Inv base s) {i : ℕ} {ans : Answers} (h : s.readOld p i ans = some t) :
    Inv base t := by
  obtain ⟨l, hl, h⟩ := Option.bind_eq_some_iff.1 h
  obtain ⟨⟨l', accepted⟩, hread, rfl⟩ := Option.map_eq_some_iff.1 h
  refine { hs with
    left := fun d hd => List.mem_append_left _ (hs.left d hd)
    conn := ?_
    old := ?_ }
  · intro c hc
    obtain ⟨h, r, hinv⟩ := hs.conn c hc
    exact ⟨h, r, hinv.mono (List.prefix_refl _) s.popped_le fun d hd => List.mem_append_left _ hd⟩
  · intro m hm
    rcases List.mem_or_eq_of_mem_set hm with hm | rfl
    · exact hs.old m hm
    · obtain ⟨h, r, hinv⟩ := hs.old l (List.mem_of_getElem? hl)
      obtain ⟨r', hadv⟩ := hinv.read hs.numbered hread
      exact ⟨h, r', hadv.inv⟩

theorem inv_step {a : NetAct} (hs : Inv base s) (hok : s.Unwrapped a) (h : s.step p a = some t) :
    Inv base t := by
  cases a with
  | emit body =>
    cases h
    exact inv_emit hs hok body
  | connect => exact inv_connect hs h
  | snapshot =>
    obtain ⟨c, hc, h⟩ := Option.bind_eq_some_iff.1 h
    split_ifs at h
    obtain ⟨c', hc', rfl⟩ := Option.map_eq_some_iff.1 h
    exact inv_snapshot hs hc hc'
  | send =>
    obtain ⟨c, hc, h⟩ := Option.bind_eq_some_iff.1 h
    split_ifs at h with hwrites
    obtain ⟨c', hc', rfl⟩ := Option.map_eq_some_iff.1 h
    exact inv_send hs hc hwrites hc'
  | heartbeat hb =>
    obtain ⟨c, hc, h⟩ := Option.bind_eq_some_iff.1 h
    split_ifs at h with hwrites
    obtain ⟨c', hc', rfl⟩ := Option.map_eq_some_iff.1 h
    exact inv_heartbeat hs hc hwrites hc'
  | deliver =>
    obtain ⟨c, hc, h⟩ := Option.bind_eq_some_iff.1 h
    exact inv_deliver hs hc h
  | acknowledge =>
    obtain ⟨c, hc, h⟩ := Option.bind_eq_some_iff.1 h
    exact inv_acknowledge hs hc h
  | lose up down =>
    obtain ⟨c, hc, rfl⟩ := Option.map_eq_some_iff.1 h
    exact inv_lose hs hc up down
  | read ans =>
    obtain ⟨c, hc, h⟩ := Option.bind_eq_some_iff.1 h
    exact inv_read hs hc h
  | readOld i ans => exact inv_readOld hs h

/-! ## Safety of the protocol -/

/-- From an outbox that holds exactly the seqs after the acked one, in every state of
every run whose emits are unwrapped : on every stream the next detection read carries
`last_seq + 1`, no gap and no duplicate has been counted, every ack is at most a seq sent
on that stream, and every event that has left the outbox was accepted. -/
theorem resume_safe {outbox : List DetectionEvent} {lastAcked nextSeq : UInt64}
    (hready : Ready outbox lastAcked nextSeq) {as : List NetAct}
    (hok : Guarded (step p) Unwrapped (start outbox lastAcked nextSeq) as)
    (h : exec (step p) (start outbox lastAcked nextSeq) as = some s) : s.Safe :=
  (exec_invariant_guarded (fun _ _ _ hs ha ht => inv_step hs ha ht) (inv_start hready) hok h).safe

/-- An agent without a tenant and a gateway without integrations. -/
def plainPeers : Peers :=
  ⟨⟨false, false, false, false⟩, none, ascii "cam-0001", []⟩

/-- Seqs 6 and 7 are resent and 8 is emitted meanwhile; the connection is lost after the
ack of 6, with 8 and all later acks, and the gateway reads 7 on both streams. -/
def lossyRun : List NetAct :=
  [.connect, .snapshot, .emit (ascii "c"), .send, .send, .read {}, .read {}, .deliver,
    .snapshot, .send, .acknowledge, .send, .lose 1 0, .connect, .readOld 0 {}, .snapshot,
    .send, .read {}, .send, .read {}, .deliver, .acknowledge, .read {}]

theorem resume_safe_lossyRun : ∃ s, exec (step plainPeers)
    (start [⟨6, ascii "a"⟩, ⟨7, ascii "b"⟩] 5 8) lossyRun = some s ∧
      s.accepted.map DetectionEvent.seq = [6, 7, 7, 8] ∧ s.Safe := by
  obtain ⟨s, hs, hseqs⟩ : ∃ s, exec (step plainPeers)
      (start [⟨6, ascii "a"⟩, ⟨7, ascii "b"⟩] 5 8) lossyRun = some s ∧
        s.accepted.map DetectionEvent.seq = [6, 7, 7, 8] := exists_exec_of_any (by decide)
  exact ⟨s, hs, hseqs, resume_safe ⟨by decide, by decide⟩ (by decide) hs⟩

/-- Two events are emitted at the largest seq and behind it, and both are sent and read. -/
def wrappingRun : List NetAct :=
  [.emit (ascii "a"), .emit (ascii "b"), .connect, .snapshot, .send, .send, .read {}, .read {},
    .read {}]

/-- The event behind the largest seq carries seq 0, and the gateway counts it as a
duplicate. -/
theorem wrapped_seq_is_duplicate :
    Ready [] 0xFFFFFFFFFFFFFFFE 0xFFFFFFFFFFFFFFFF ∧
      ∃ s, exec (step plainPeers) (start [] 0xFFFFFFFFFFFFFFFE 0xFFFFFFFFFFFFFFFF)
        wrappingRun = some s ∧ ¬ s.Safe := by
  obtain ⟨s, hs, hdup⟩ : ∃ s, exec (step plainPeers)
      (start [] 0xFFFFFFFFFFFFFFFE 0xFFFFFFFFFFFFFFFF) wrappingRun = some s ∧
        ∃ l ∈ s.links, l.stream.duplicates ≠ 0 := exists_exec_of_any (by decide)
  obtain ⟨l, hl, hne⟩ := hdup
  exact ⟨⟨by decide, by decide⟩, s, hs, fun hsafe => hne (hsafe.links l hl).duplicates⟩

end Net

end Ridgeline
