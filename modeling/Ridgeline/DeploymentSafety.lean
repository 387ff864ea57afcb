import Ridgeline.DeploymentInvariant

/-!
# What a deployment never loses

Over every run of an agent and its gateway, with crashes, lost connections, refused detections
and failed writes of acks, as long as appends find a clean file and an unwrapped `next_seq` and
none overlaps a `Compact`, which is one step here :

* an event whose `Append` has returned was accepted, or refused by some stream, or will be
  replayed by the next start (`lost_only_if_refused`);
* the gateway takes up the events in the order of their appends and skips none, at least up to
  the checkpoint (`decided_in_order`), so that without refusals dropping the repeated seqs
  gives every event exactly once;
* one stream never decides twice on an event (`decides_once`), so that a refused event gets
  its second chance only after a reconnect.
-/

namespace Ridgeline

namespace Deployment

variable {p : Peers} {codec : DetectionCodec} {s : Deployment} {as : List DeployAct}

/-- A stream has refused the event. -/
def Refused (s : Deployment) (d : DetectionEvent) : Prop :=
  ∃ x ∈ s.decisions, x.event = d ∧ x.ok = false

theorem Inv.accepted_or_refused (hs : Inv codec s) {d : DetectionEvent}
    (hd : d ∈ s.decisions.map Decision.event) : d ∈ s.net.accepted ∨ s.Refused d := by
  obtain ⟨x, hx, rfl⟩ := List.mem_map.1 hd
  cases hok : x.ok with
  | true =>
    left
    rw [hs.accepted]
    exact List.mem_map.2 ⟨x, List.mem_filter.2 ⟨hx, hok⟩, rfl⟩
  | false => exact .inr ⟨x, hx, rfl, hok⟩

/-- The events that the checkpoint covers have been decided on. -/
theorem Inv.decided_of_le (hs : Inv codec s) {d : DetectionEvent} (hd : d ∈ s.committed codec)
    (hle : d.seq ≤ s.net.lastAcked) : d ∈ s.decisions.map Decision.event := by
  obtain ⟨hlen, hcovered⟩ := hs.covers_lastAcked
  have hmem : d ∈ (s.net.events ++ s.appended.toList).filter (fun d => d.seq ≤ s.net.lastAcked) :=
    List.mem_filter.2 ⟨hs.committed_eq ▸ hd, by simpa using hle⟩
  rw [hs.numbered.1.filter_le, Nat.sub_zero, List.take_append_of_le_length hlen] at hmem
  exact hcovered d hmem

/-- In every state of every run, an event whose `Append` has returned was accepted by the
gateway, or refused, or is in the log above the checkpoint, from where the next start replays
it. The gateway decides on such events only. -/
theorem lost_only_if_refused (hok : Guarded (step p codec) AppendsClean init as)
    (h : exec (step p codec) init as = some s) :
    (∀ d ∈ s.committed codec, d ∈ s.net.accepted ∨ s.Refused d ∨
      codec.record d ∈ s.agent.wal.replayUnacked) ∧
    ∀ x ∈ s.decisions, x.event ∈ s.committed codec := by
  have hs := inv_of_run hok h
  refine ⟨fun d hd => ?_, fun x hx => ?_⟩
  · by_cases hle : d.seq ≤ s.net.lastAcked
    · exact (hs.accepted_or_refused (hs.decided_of_le hd hle)).imp_right .inl
    · refine .inr (.inr ?_)
      rw [Wal.replayUnacked_eq, hs.agent.unacked]
      refine List.mem_filter.2 ⟨?_, ?_⟩
      · rw [hs.committed, ← hs.committed_eq]
        exact List.mem_map_of_mem hd
      · rw [← hs.lastAcked]
        exact decide_eq_true (not_le.1 hle)
  · rw [hs.committed_eq]
    exact List.mem_append_left _ (hs.order.subset (List.mem_map_of_mem hx))

/-- In every state of every run, the gateway has decided on the first `m` events whose `Append`
has returned, and it took them up in this order. The checkpoint covers none but these. If it
refused nothing, what it accepted is those `m` events, once the repetitions are dropped. -/
theorem decided_in_order (hok : Guarded (step p codec) AppendsClean init as)
    (h : exec (step p codec) init as = some s) :
    ∃ m, s.agent.wal.lastAckedSeq.toNat ≤ m ∧ m ≤ (s.committed codec).length ∧
      (s.decisions.map Decision.event).eraseDups = (s.committed codec).take m ∧
      ((∀ x ∈ s.decisions, x.ok) → s.net.accepted.eraseDups = (s.committed codec).take m) := by
  have hs := inv_of_run hok h
  obtain ⟨hnum, -⟩ := hs.numbered
  obtain ⟨hlen, hcovered⟩ := hs.covers_lastAcked
  obtain ⟨m, hm, heq⟩ := hs.order.append s.appended.toList
  rw [hs.committed_eq, ← hs.lastAcked]
  refine ⟨m, ?_, hm, heq, fun hall => ?_⟩
  · refine le_of_take_subset hnum.nodup heq (by simp; omega) fun x hx => hcovered x ?_
    rwa [List.take_append_of_le_length hlen] at hx
  · rwa [hs.accepted, List.filter_eq_self.2 hall]

/-- In every state of every run, no stream has decided twice on the same seq. -/
theorem decides_once (hok : Guarded (step p codec) AppendsClean init as)
    (h : exec (step p codec) init as = some s) :
    (s.decisions.map fun x => (x.stream, x.event.seq)).Nodup :=
  (inv_of_run hok h).distinct

/-! ## A run with a refusal and a crash -/

/-- The seq in eight bytes, and the body. -/
def plainCodec : DetectionCodec where
  serialize d := leBytes 8 d.seq.toNat ++ d.body
  parse bs := ⟨UInt64.ofNat (ofLeBytes (bs.take 8)), bs.drop 8⟩
  parse_serialize d := by
    have hlen : (leBytes 8 d.seq.toNat).length = 8 := length_leBytes 8 _
    rw [List.take_left' hlen, List.drop_left' hlen, ofLeBytes_leBytes d.seq.toNat_lt,
      UInt64.ofNat_toNat]

/-- Seq 1 is refused, and the ack of seq 2 covers it. The crash loses the ack, so that both are
resent in the next lifetime, which refuses seq 1 once more and has seq 3 in its log. -/
def refusedRun : List DeployAct :=
  [.append (ascii "a"), .push, .append (ascii "b"), .push, .net .connect, .net .snapshot,
    .net .send, .net .send, .net (.read {}), .net (.read { rateOk := false }), .net (.read {}),
    .crash 0, .net .connect, .net .snapshot, .net .send, .net .send, .net (.read {}),
    .net (.read { rateOk := false }), .net (.read {}), .net .deliver, .net .acknowledge,
    .append (ascii "c")]

theorem guarded_refusedRun :
    Guarded (step Net.plainPeers plainCodec) AppendsClean init refusedRun := by
  decide +kernel

theorem lost_only_if_refused_refusedRun :
    ∃ s, exec (step Net.plainPeers plainCodec) init refusedRun = some s ∧
      s.net.accepted.map DetectionEvent.seq = [2, 2] ∧
      (∀ d ∈ s.committed plainCodec, d ∈ s.net.accepted ∨ s.Refused d ∨
        plainCodec.record d ∈ s.agent.wal.replayUnacked) ∧
      ∀ x ∈ s.decisions, x.event ∈ s.committed plainCodec := by
  obtain ⟨s, hs, hseqs⟩ : ∃ s, exec (step Net.plainPeers plainCodec) init refusedRun = some s ∧
      s.net.accepted.map DetectionEvent.seq = [2, 2] := exists_exec_of_any (by decide +kernel)
  exact ⟨s, hs, hseqs, lost_only_if_refused guarded_refusedRun hs⟩

theorem decided_in_order_refusedRun :
    ∃ s, exec (step Net.plainPeers plainCodec) init refusedRun = some s ∧
      s.agent.wal.lastAckedSeq = 2 ∧
      ∃ m, s.agent.wal.lastAckedSeq.toNat ≤ m ∧ m ≤ (s.committed plainCodec).length ∧
        (s.decisions.map Decision.event).eraseDups = (s.committed plainCodec).take m ∧
        ((∀ x ∈ s.decisions, x.ok) →
          s.net.accepted.eraseDups = (s.committed plainCodec).take m) := by
  obtain ⟨s, hs, hacked⟩ : ∃ s, exec (step Net.plainPeers plainCodec) init refusedRun = some s ∧
      s.agent.wal.lastAckedSeq = 2 := exists_exec_of_any (by decide +kernel)
  exact ⟨s, hs, hacked, decided_in_order guarded_refusedRun hs⟩

theorem decides_once_refusedRun :
    ∃ s, exec (step Net.plainPeers plainCodec) init refusedRun = some s ∧
      (s.decisions.map fun x => (x.stream, x.event.seq)) = [(0, 1), (0, 2), (1, 1), (1, 2)] ∧
      (s.decisions.map fun x => (x.stream, x.event.seq)).Nodup := by
  obtain ⟨s, hs, hdecisions⟩ : ∃ s,
      exec (step Net.plainPeers plainCodec) init refusedRun = some s ∧
        (s.decisions.map fun x => (x.stream, x.event.seq)) =
          [(0, 1), (0, 2), (1, 1), (1, 2)] := exists_exec_of_any (by decide +kernel)
  exact ⟨s, hs, hdecisions, decides_once guarded_refusedRun hs⟩

end Deployment

end Ridgeline
