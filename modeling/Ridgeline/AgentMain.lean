import Ridgeline.Backoff
import Ridgeline.DeploymentSafety

/-!
# The main thread of the agent

`main` of the agent around the log, the outbox and the connections of `Deployment`. The outer loop
waits for a connection, opens a stream and starts its reader. The inner loop sends until a write
fails, the process is to stop, or nothing is left to do. Then the stream is ended, the reader is
joined, and `main` waits for a delay that grows with each attempt and begins anew after a stream
that got an ack. Behind the loop the producer is told to stop and joined, and the exit code says
whether the outbox is empty.

The clock, a signal, the producer, the reader, the network and the gateway take their steps in any
order, and the process may crash and start again. In a timed run, and in any run that is not ended
by a signal, the code is 0 if and only if the next start has nothing to replay, and then the
gateway has decided on every event there has been (`exit_code`). The `n`-th delay after a start or
an ack is below `base * 2 ^ (n - 1)` and the cap (`delay_lt`).

`Compact` is one step, as in `Deployment`, so no `Append` of the producer overlaps it. The end of a
stream, by either side, is a loss that may keep all that is in flight. `main` may leave the inner
loop between any two of its writes, so also where the code would first finish a round.
-/

namespace Ridgeline

/-- `main`, at the head of the outer loop, in `WaitForConnection`, in the inner loop, behind it up
to the join of the reader, in `SleepInterruptibly`, behind the outer loop, and returned. -/
inductive MainPc
  | outer
  | connecting
  | inner
  | closing
  | waiting (delay : ℕ)
  | joining
  | returned (code : ℕ)
  deriving DecidableEq, Repr

/-- The agent has a reader. -/
def MainPc.hasReader : MainPc → Bool
  | inner | closing => true
  | _ => false

/-- The outer loop has ended. -/
def MainPc.isBehindLoop : MainPc → Bool
  | joining | returned _ => true
  | _ => false

/-- A process and its gateway : `producer_done`, `time_up`, `g_stop`, and whether it was a signal
that set it; `got_ack` and `attempt`. -/
structure AgentProcess where
  dep : Deployment
  main : MainPc := .outer
  producerDone : Bool := false
  timeUp : Bool := false
  stop : Bool := false
  signalled : Bool := false
  gotAck : Bool := false
  attempt : UInt32 := 0
  deriving DecidableEq, Repr

/-- The time limit passes, a signal comes, the producer ends, a thread or the gateway takes a step
of the deployment, the gateway reads on a stream whose reader has ended, a step of `main`, or a
crash with the next start. -/
inductive MainAct
  | clock
  | signal
  | producerEnds
  | dep (a : DeployAct)
  | lateRead (ans : Answers)
  | test
  | unreachable (u : ℚ)
  | connect
  | leave
  | joined (u : ℚ)
  | awake
  | exit
  | crash (up : ℕ)
  | crashInAppend (body : Bytes) (k up : ℕ)

/-- What the process is run with. -/
structure AgentOptions where
  peers : Peers
  codec : DetectionCodec
  timed : Bool
  policy : BackoffPolicy := {}
  fl : ℚ → ℚ

namespace AgentProcess

/-- The first process. -/
def init : AgentProcess :=
  { dep := .init }

/-- `(time_up() || producer_finished()) && outbox.Size() == 0`. -/
def done (s : AgentProcess) : Bool :=
  (s.timeUp || s.producerDone) && s.dep.net.outbox.isEmpty

/-- The steps of the deployment that a thread of the process takes where it is, and the reads of
the gateway. -/
def permits (s : AgentProcess) : DeployAct → Bool
  | .append _ | .push => !s.producerDone
  | .compact | .net .snapshot | .net .send | .net (.heartbeat _) => s.main = .inner
  | .net .deliver | .net .acknowledge | .net (.lose _ _) | .net (.read _) => s.main.hasReader
  | .net (.readOld _ _) => true
  | .net (.emit _) | .net .connect | .crash _ | .crashInAppend _ _ _ => false

/-- The reader has recorded an ack. -/
def isAck : DeployAct → Bool
  | .net .acknowledge => true
  | _ => false

/-- The delay before the next attempt. -/
def backOff (o : AgentOptions) (s : AgentProcess) (u : ℚ) : AgentProcess :=
  { s with
    main := .waiting (fullJitterBackoff o.fl s.attempt o.policy u)
    attempt := s.attempt + 1 }

/-- One step. -/
def step (o : AgentOptions) (s : AgentProcess) : MainAct → Option AgentProcess
  | .clock => if o.timed then some { s with timeUp := true } else none
  | .signal => some { s with stop := true, signalled := true }
  | .producerEnds => if s.dep.appended = none then some { s with producerDone := true } else none
  | .dep a =>
    if s.permits a then
      (s.dep.step o.peers o.codec a).map fun dep => { s with dep, gotAck := s.gotAck || isAck a }
    else none
  | .lateRead ans =>
    -- What the gateway answers is not read any more.
    if s.main.hasReader then none
    else
      (s.dep.step o.peers o.codec (.net (.read ans))).bind fun dep =>
        (dep.step o.peers o.codec
          (.net (.lose (dep.net.conn.elim 0 fun c => c.link.up.length) 0))).map fun dep =>
            { s with dep }
  | .test =>
    match s.main with
    | .outer =>
      if s.stop || s.done then some { s with main := .joining, stop := true }
      else some { s with main := .connecting }
    | _ => none
  | .unreachable u =>
    match s.main with
    | .connecting => if s.stop then some { s with main := .joining } else some (s.backOff o u)
    | _ => none
  | .connect =>
    match s.main with
    | .connecting => (s.dep.step o.peers o.codec (.net .connect)).map fun dep =>
        { s with dep, main := .inner, gotAck := false }
    | _ => none
  | .leave =>
    match s.main with
    | .inner =>
      if s.stop || s.done || s.dep.net.conn.any (!·.ok) then some { s with main := .closing }
      else none
    | _ => none
  | .joined u =>
    match s.main, s.dep.net.conn with
    | .closing, some c =>
      if c.ok = false ∧ c.pendingAck = none ∧ c.link.down = [] then
        if s.stop then some { s with main := .joining }
        else if s.gotAck then some ({ s with attempt := 0 }.backOff o u)
        else some (s.backOff o u)
      else none
    | _, _ => none
  | .awake =>
    match s.main with
    | .waiting _ => some { s with main := .outer }
    | _ => none
  | .exit =>
    match s.main with
    | .joining =>
      if s.producerDone then
        some { s with main := .returned (if o.timed ∧ s.dep.net.outbox ≠ [] then 1 else 0) }
      else none
    | _ => none
  | .crash up => (s.dep.step o.peers o.codec (.crash up)).map fun dep => { dep }
  | .crashInAppend body k up =>
    if s.producerDone then none
    else (s.dep.step o.peers o.codec (.crashInAppend body k up)).map fun dep => { dep }

/-- Every `Append` is clean, as in `Deployment.AppendsClean`. -/
def AppendsClean (s : AgentProcess) : MainAct → Prop
  | .dep a => s.dep.AppendsClean a
  | .crashInAppend body k up => s.dep.AppendsClean (.crashInAppend body k up)
  | _ => True

instance (s : AgentProcess) : ∀ a, Decidable (s.AppendsClean a)
  | .dep a => inferInstanceAs (Decidable (s.dep.AppendsClean a))
  | .crashInAppend body k up =>
    inferInstanceAs (Decidable (s.dep.AppendsClean (.crashInAppend body k up)))
  | .clock | .signal | .producerEnds | .lateRead _ | .test | .unreachable _ | .connect | .leave
  | .joined _ | .awake | .exit | .crash _ => .isTrue trivial

end AgentProcess

namespace Deployment

variable {p : Peers} {codec : DetectionCodec} {s t : Deployment}

/-- The reader of the last connection, if there was one, has ended. -/
def Joined (s : Deployment) : Prop :=
  ∀ c, s.net.conn = some c → c.ok = false ∧ c.pendingAck = none ∧ c.link.down = []

theorem Joined.lastAcked (hs : Inv codec s) (hj : s.Joined) :
    s.net.lastAcked.toNat = s.net.left.length := by
  obtain ⟨st, acks, hnet, -⟩ := hs.conn
  have hacked := hnet.acked
  cases hc : s.net.conn with
  | none => simpa [Net.ackedSeq, ideal, Net.withStream, hc] using hacked
  | some c =>
    simpa [Net.ackedSeq, ideal, Net.withStream, hc, Connection.withStream, (hj c hc).2.1]
      using hacked

/-- Without a reader and an event on its way, the next start replays the outbox. -/
theorem Joined.replayUnacked (hs : Inv codec s) (hj : s.Joined) (happended : s.appended = none) :
    s.agent.wal.replayUnacked = s.net.outbox.map codec.record := by
  have hlast := hj.lastAcked hs
  have hlog := hs.committed
  have hnum := hs.numbered.1
  have hall : s.net.events ++ s.appended.toList = s.net.left ++ s.net.outbox := by
    simp [Net.events, happended]
  rw [hall] at hlog hnum
  rw [Wal.replayUnacked_eq, hs.agent.unacked, hlog, unacked_records hnum, ← hs.lastAcked, hlast,
    List.drop_left]

/-- With nothing to replay, the gateway has decided on every event. -/
theorem decided_of_outbox_nil (hs : Inv codec s) (happended : s.appended = none)
    (hout : s.net.outbox = []) : ∀ d ∈ s.committed codec, d ∈ s.net.accepted ∨ s.Refused d := by
  intro d hd
  rw [hs.committed_eq, happended, Net.events, hout] at hd
  exact hs.accepted_or_refused (hs.left d (by simpa using hd))

/-- What the gateway reads on the present stream leaves of the agent all but what comes down. -/
theorem read_frame {ans : Answers} (h : s.step p codec (.net (.read ans)) = some t) :
    t.net.outbox = s.net.outbox ∧ t.appended = s.appended ∧
      ∀ c, t.net.conn = some c → ∃ c', s.net.conn = some c' ∧ c.ok = c'.ok ∧
        c.pendingAck = c'.pendingAck := by
  obtain ⟨c', hc', h⟩ := Option.bind_eq_some_iff.1 h
  obtain ⟨⟨l, v⟩, -, rfl⟩ := Option.map_eq_some_iff.1 h
  refine ⟨rfl, rfl, fun c hc => ⟨c', hc', ?_⟩⟩
  cases hc
  exact ⟨rfl, rfl⟩

theorem readOld_frame {i : ℕ} {ans : Answers}
    (h : s.step p codec (.net (.readOld i ans)) = some t) :
    t.net.outbox = s.net.outbox ∧ t.appended = s.appended ∧ t.net.conn = s.net.conn := by
  obtain ⟨l, -, h⟩ := Option.bind_eq_some_iff.1 h
  obtain ⟨⟨l', v⟩, -, rfl⟩ := Option.map_eq_some_iff.1 h
  exact ⟨rfl, rfl, rfl⟩

theorem appended_netStep {a : NetAct} (h : s.netStep p a = some t) : t.appended = s.appended := by
  cases a with
  | emit body => cases h
  | read ans =>
    obtain ⟨c, -, h⟩ := Option.bind_eq_some_iff.1 h
    obtain ⟨⟨l, v⟩, -, rfl⟩ := Option.map_eq_some_iff.1 h
    rfl
  | readOld i ans =>
    obtain ⟨l, -, h⟩ := Option.bind_eq_some_iff.1 h
    obtain ⟨⟨l', v⟩, -, rfl⟩ := Option.map_eq_some_iff.1 h
    rfl
  | acknowledge =>
    obtain ⟨c, -, h⟩ := Option.bind_eq_some_iff.1 h
    obtain ⟨n, -, h⟩ := Option.bind_eq_some_iff.1 h
    obtain ⟨net, -, h⟩ := Option.bind_eq_some_iff.1 h
    obtain ⟨agent, -, rfl⟩ := Option.map_eq_some_iff.1 h
    rfl
  | connect | snapshot | send | heartbeat | deliver | lose =>
    obtain ⟨net, -, rfl⟩ := Option.map_eq_some_iff.1 h
    rfl

theorem lose_frame {up down : ℕ} (h : s.step p codec (.net (.lose up down)) = some t) :
    t.net.outbox = s.net.outbox ∧ t.appended = s.appended ∧
      ∀ c, t.net.conn = some c → ∃ c', s.net.conn = some c' ∧ c = c'.lose up down := by
  obtain ⟨net, hnet, rfl⟩ := Option.map_eq_some_iff.1 h
  obtain ⟨c', hc', rfl⟩ := Option.map_eq_some_iff.1 hnet
  refine ⟨rfl, rfl, fun c hc => ⟨c', hc', ?_⟩⟩
  cases hc
  rfl

theorem conn_crash {up : ℕ} (h : s.step p codec (.crash up) = some t) : t.net.conn = none := by
  simp only [step] at h
  obtain ⟨agent, -, rfl⟩ := Option.map_eq_some_iff.1 h
  rfl

theorem conn_crashInAppend {body : Bytes} {k up : ℕ}
    (h : s.step p codec (.crashInAppend body k up) = some t) : t.net.conn = none := by
  simp only [step] at h
  split at h
  · obtain ⟨agent, -, rfl⟩ := Option.map_eq_some_iff.1 h
    rfl
  · cases h

end Deployment

namespace AgentProcess

variable {o : AgentOptions} {s t : AgentProcess} {a : MainAct}

/-- What holds in every state of a run whose appends are clean. -/
structure Inv (o : AgentOptions) (s : AgentProcess) : Prop where
  dep : s.dep.Inv o.codec
  joined : s.main.hasReader = false → s.dep.Joined
  producer : s.producerDone = true → s.dep.appended = none
  time : s.timeUp = true → o.timed = true
  stop : s.stop = true → s.signalled = true ∨ s.main.isBehindLoop = true
  behind : s.main.isBehindLoop = true → o.timed = true ∨ s.signalled = true ∨
    s.producerDone = true ∧ s.dep.net.outbox = []
  code : ∀ code, s.main = .returned code → s.producerDone = true ∧
    code = if o.timed ∧ s.dep.net.outbox ≠ [] then 1 else 0

theorem inv_init : Inv o init where
  dep := Deployment.inv_init
  joined _ := by rintro c ⟨⟩
  producer := by simp [init]
  time := by simp [init]
  stop := by simp [init]
  behind := by simp [init, MainPc.isBehindLoop]
  code := by simp [init]

/-- A start of the process. -/
theorem inv_start {dep : Deployment} (hdep : dep.Inv o.codec) (hconn : dep.net.conn = none) :
    Inv o { dep } where
  dep := hdep
  joined _ := by
    intro c hc
    simp [hconn] at hc
  producer := by simp
  time := by simp
  stop := by simp
  behind := by simp [MainPc.isBehindLoop]
  code := by simp

/-- What a permitted step of the deployment keeps. -/
theorem Inv.permitted (hs : Inv o s) {a : DeployAct} (hp : s.permits a = true) {dep : Deployment}
    (h : s.dep.step o.peers o.codec a = some dep) :
    (s.producerDone = true → dep.appended = none) ∧
      (s.main.hasReader = false → dep.Joined ∧
        (s.producerDone = true → dep.net.outbox = s.dep.net.outbox)) := by
  cases a with
  | append body =>
    obtain ⟨-, agent, -, rfl⟩ := Deployment.append_step h
    have hrunning : s.producerDone = false := by simpa [permits] using hp
    exact ⟨by simp [hrunning], fun hr => ⟨hs.joined hr, fun _ => rfl⟩⟩
  | push =>
    obtain ⟨d, -, rfl⟩ := Option.map_eq_some_iff.1 h
    have hrunning : s.producerDone = false := by simpa [permits] using hp
    exact ⟨fun _ => rfl, fun hr => ⟨hs.joined hr, by simp [hrunning]⟩⟩
  | compact =>
    simp only [Deployment.step] at h
    obtain ⟨agent, -, rfl⟩ := Option.map_eq_some_iff.1 h
    exact ⟨hs.producer, fun hr => ⟨hs.joined hr, fun _ => rfl⟩⟩
  | net a =>
    refine ⟨fun hdone => (Deployment.appended_netStep h).trans (hs.producer hdone), fun hr => ?_⟩
    cases a with
    | readOld i ans =>
      obtain ⟨hout, -, hconn⟩ := Deployment.readOld_frame h
      exact ⟨fun c hc => hs.joined hr c (hconn ▸ hc), fun _ => hout⟩
    | snapshot | send | heartbeat =>
      have hmain : s.main = .inner := by simpa [permits] using hp
      simp [hmain, MainPc.hasReader] at hr
    | deliver | acknowledge | lose | read =>
      have hmain : s.main.hasReader = true := hp
      simp [hmain] at hr
    | emit | connect => cases hp
  | crash | crashInAppend => cases hp

theorem Inv.dep_step (hs : Inv o s) {a : DeployAct} (hp : s.permits a = true)
    (hok : s.dep.AppendsClean a) {dep : Deployment}
    (h : s.dep.step o.peers o.codec a = some dep) (gotAck : Bool) :
    Inv o { s with dep, gotAck } := by
  obtain ⟨happended, hquiet⟩ := hs.permitted hp h
  have hreader : s.main.isBehindLoop = true → s.main.hasReader = false := by
    cases s.main <;> simp [MainPc.isBehindLoop, MainPc.hasReader]
  refine ⟨Deployment.inv_step hs.dep hok h, fun hr => (hquiet hr).1, happended, hs.time, hs.stop,
    fun hb => ?_, fun code hcode => ?_⟩
  · refine (hs.behind hb).imp_right (Or.imp_right fun ⟨hdone, hout⟩ => ⟨hdone, ?_⟩)
    exact ((hquiet (hreader hb)).2 hdone).trans hout
  · have hmain : s.main = .returned code := hcode
    obtain ⟨hdone, hcode⟩ := hs.code code hmain
    have hout := (hquiet (by rw [hmain]; rfl)).2 hdone
    exact ⟨hdone, by simpa only [hout] using hcode⟩

/-- The gateway reads on a stream that has no reader. -/
theorem Inv.lateRead (hs : Inv o s) {ans : Answers} (h : s.step o (.lateRead ans) = some t) :
    Inv o t := by
  simp only [step] at h
  split_ifs at h with hr
  obtain ⟨dep₁, hread, h⟩ := Option.bind_eq_some_iff.1 h
  obtain ⟨dep₂, hlose, rfl⟩ := Option.map_eq_some_iff.1 h
  have hinv := Deployment.inv_step
    (Deployment.inv_step hs.dep (by trivial) hread) (by trivial) hlose
  obtain ⟨hout₁, happended₁, hconn₁⟩ := Deployment.read_frame hread
  obtain ⟨hout₂, happended₂, hconn₂⟩ := Deployment.lose_frame hlose
  have hout := hout₂.trans hout₁
  refine ⟨hinv, fun hr c hc => ?_, fun hdone => ?_, hs.time, hs.stop, fun hb => ?_,
    fun code hcode => ?_⟩
  · obtain ⟨c₁, hc₁, rfl⟩ := hconn₂ c hc
    obtain ⟨c₀, hc₀, -, hpending⟩ := hconn₁ c₁ hc₁
    exact ⟨rfl, hpending.trans (hs.joined hr c₀ hc₀).2.1, rfl⟩
  · exact (happended₂.trans happended₁).trans (hs.producer hdone)
  · exact (hs.behind hb).imp_right (Or.imp_right fun ⟨hdone, h⟩ => ⟨hdone, hout.trans h⟩)
  · obtain ⟨hdone, hcode⟩ := hs.code code hcode
    exact ⟨hdone, by simpa only [hout] using hcode⟩

/-- `main` moves on inside its loop. -/
theorem Inv.move (hs : Inv o s) {main : MainPc} (hjoined : main.hasReader = false → s.dep.Joined)
    (hb : main.isBehindLoop = false) (hs' : s.main.isBehindLoop = false) (gotAck : Bool)
    (attempt : UInt32) : Inv o { s with main, gotAck, attempt } where
  dep := hs.dep
  joined := hjoined
  producer := hs.producer
  time := hs.time
  stop h := .inl ((hs.stop h).resolve_right (by simp [hs']))
  behind h := by simp [hb] at h
  code code h := by
    have hmain : main = .returned code := h
    simp [hmain, MainPc.isBehindLoop] at hb

/-- The outer loop ends. -/
theorem Inv.end (hs : Inv o s) (hjoined : s.dep.Joined) (hs' : s.main.isBehindLoop = false)
    (h : s.stop = true ∨ s.done = true) : Inv o { s with main := .joining, stop := true } where
  dep := hs.dep
  joined _ := hjoined
  producer := hs.producer
  time := hs.time
  stop _ := .inr rfl
  behind _ := by
    rcases h with h | h
    · exact .inr (.inl ((hs.stop h).resolve_right (by simp [hs'])))
    · simp only [done, Bool.and_eq_true, Bool.or_eq_true, List.isEmpty_iff] at h
      exact h.1.imp hs.time fun hdone => .inr ⟨hdone, h.2⟩
  code code h := by cases h

theorem inv_step (hs : Inv o s) (hok : s.AppendsClean a) (h : s.step o a = some t) : Inv o t := by
  cases a with
  | clock =>
    obtain ⟨htimed, h⟩ := Option.ite_none_right_eq_some.1 h
    cases h
    exact { hs with time := fun _ => htimed }
  | signal =>
    cases h
    exact { hs with
      stop := fun _ => .inl rfl
      behind := fun hb => (hs.behind hb).imp_right fun _ => .inl rfl }
  | producerEnds =>
    obtain ⟨happended, h⟩ := Option.ite_none_right_eq_some.1 h
    cases h
    exact { hs with
      producer := fun _ => happended
      behind := fun hb => (hs.behind hb).imp_right (Or.imp_right fun h => ⟨rfl, h.2⟩)
      code := fun code hcode => ⟨rfl, (hs.code code hcode).2⟩ }
  | dep a =>
    obtain ⟨hp, h⟩ := Option.ite_none_right_eq_some.1 h
    obtain ⟨dep, hdep, rfl⟩ := Option.map_eq_some_iff.1 h
    exact hs.dep_step hp hok hdep _
  | lateRead ans => exact hs.lateRead h
  | test =>
    simp only [step] at h
    split at h
    · next hmain =>
      have hbehind : s.main.isBehindLoop = false := by rw [hmain]; rfl
      have hjoined : s.dep.Joined := hs.joined (by rw [hmain]; rfl)
      split_ifs at h with hend
      · cases h
        exact hs.end hjoined hbehind (by simpa using hend)
      · cases h
        exact hs.move (fun _ => hjoined) rfl hbehind _ _
    · cases h
  | unreachable u =>
    simp only [step] at h
    split at h
    · next hmain =>
      have hbehind : s.main.isBehindLoop = false := by rw [hmain]; rfl
      have hjoined : s.dep.Joined := hs.joined (by rw [hmain]; rfl)
      split_ifs at h with hstop
      · cases h
        have := hs.end hjoined hbehind (.inl hstop)
        rwa [← hstop] at this
      · cases h
        exact hs.move (fun _ => hjoined) rfl hbehind _ _
    · cases h
  | connect =>
    simp only [step] at h
    split at h
    · next hmain =>
      obtain ⟨dep, hdep, rfl⟩ := Option.map_eq_some_iff.1 h
      have hbehind : s.main.isBehindLoop = false := by rw [hmain]; rfl
      refine ⟨?_, by simp [MainPc.hasReader], fun hdone => ?_, hs.time, fun hstop => ?_,
        by simp [MainPc.isBehindLoop], by simp⟩
      · refine Deployment.inv_step hs.dep ?_ hdep
        trivial
      · have hnet : s.dep.netStep o.peers .connect = some dep := hdep
        exact (Deployment.appended_netStep hnet).trans (hs.producer hdone)
      · exact .inl ((hs.stop hstop).resolve_right (by simp [hbehind]))
    · cases h
  | leave =>
    simp only [step] at h
    split at h
    · next hmain =>
      obtain ⟨-, h⟩ := Option.ite_none_right_eq_some.1 h
      cases h
      exact hs.move (by simp [MainPc.hasReader]) rfl (by rw [hmain]; rfl) _ _
    · cases h
  | joined u =>
    simp only [step] at h
    split at h
    · next c hmain hc =>
      obtain ⟨hover, h⟩ := Option.ite_none_right_eq_some.1 h
      have hbehind : s.main.isBehindLoop = false := by rw [hmain]; rfl
      have hjoined : s.dep.Joined := fun c' hc' => by
        rw [hc] at hc'
        cases hc'
        exact hover
      split_ifs at h with hstop hack
      · cases h
        have := hs.end hjoined hbehind (.inl hstop)
        rwa [← hstop] at this
      · cases h
        exact hs.move (fun _ => hjoined) rfl hbehind _ _
      · cases h
        exact hs.move (fun _ => hjoined) rfl hbehind _ _
    · cases h
  | awake =>
    simp only [step] at h
    split at h
    · next hmain =>
      cases h
      exact hs.move (fun _ => hs.joined (by rw [hmain]; rfl)) rfl (by rw [hmain]; rfl) _ _
    · cases h
  | exit =>
    simp only [step] at h
    split at h
    · next hmain =>
      obtain ⟨hdone, h⟩ := Option.ite_none_right_eq_some.1 h
      cases h
      have hbehind : s.main.isBehindLoop = true := by rw [hmain]; rfl
      refine { hs with
        joined := fun _ => hs.joined (by rw [hmain]; rfl)
        stop := fun _ => .inr rfl
        behind := fun _ => hs.behind hbehind
        code := fun code hcode => ⟨hdone, ?_⟩ }
      cases hcode
      rfl
    · cases h
  | crash up =>
    simp only [step] at h
    obtain ⟨dep, hdep, rfl⟩ := Option.map_eq_some_iff.1 h
    refine inv_start (Deployment.inv_step hs.dep ?_ hdep) (Deployment.conn_crash hdep)
    trivial
  | crashInAppend body k up =>
    simp only [step] at h
    split_ifs at h
    obtain ⟨dep, hdep, rfl⟩ := Option.map_eq_some_iff.1 h
    refine inv_start (Deployment.inv_step hs.dep ?_ hdep) (Deployment.conn_crashInAppend hdep)
    exact hok

theorem inv_of_run {as : List MainAct} (has : Guarded (step o) AppendsClean init as)
    (hrun : exec (step o) init as = some s) : Inv o s :=
  exec_invariant_guarded (fun _ _ _ hs hok h => inv_step hs hok h) inv_init has hrun

/-- The exit code, over every run of the process with its crashes and starts, in a timed run or
one that is not ended by a signal : it is 0 if and only if the log has nothing to replay. Then the
gateway has accepted or refused every event whose `Append` has ever returned. -/
theorem exit_code {as : List MainAct} (has : Guarded (step o) AppendsClean init as)
    (hrun : exec (step o) init as = some s) {code : ℕ} (hmain : s.main = .returned code)
    (hends : o.timed = true ∨ s.signalled = false) :
    (code = 0 ↔ s.dep.agent.wal.replayUnacked = []) ∧
      (code = 0 → ∀ d ∈ s.dep.committed o.codec, d ∈ s.dep.net.accepted ∨ s.dep.Refused d) := by
  have hs := inv_of_run has hrun
  obtain ⟨hdone, hcode⟩ := hs.code code hmain
  have happended := hs.producer hdone
  have hempty : code = 0 ↔ s.dep.net.outbox = [] := by
    cases htimed : o.timed with
    | true => simp [hcode, htimed]
    | false =>
      have hout := ((hs.behind (by rw [hmain]; rfl)).resolve_left (by simp [htimed])).resolve_left
        (by simp [hends.resolve_left (by simp [htimed])])
      simp [hcode, htimed, hout.2]
  have hreplay := (hs.joined (by rw [hmain]; rfl)).replayUnacked hs.dep happended
  refine ⟨?_, fun h => Deployment.decided_of_outbox_nil hs.dep happended (hempty.1 h)⟩
  rw [hempty, hreplay, List.map_eq_nil_iff]

/-- An agent without a time limit, and a rounding that is exact. -/
def plainOptions : AgentOptions :=
  { peers := Net.plainPeers, codec := Deployment.plainCodec, timed := false, fl := id }

/-- The gateway is not reachable at first. A crash loses the ack of the only event, which is resent,
and the process ends when it is acked and the producer has ended. -/
def endedRun : List MainAct :=
  [.dep (.append (ascii "a")), .dep .push, .test, .unreachable (1 / 2), .awake, .test, .connect,
    .dep (.net .snapshot), .dep (.net .send), .dep (.net (.read {})), .dep (.net (.read {})),
    .crash 0, .test, .connect, .dep (.net .snapshot), .dep (.net .send), .dep (.net (.read {})),
    .dep (.net (.read {})), .dep (.net .deliver), .dep (.net .acknowledge), .producerEnds, .leave,
    .dep (.net (.lose 0 0)), .joined 0, .awake, .test, .exit]

theorem exit_code_endedRun : ∃ s, exec (step plainOptions) init endedRun = some s ∧
    s.main = .returned 0 ∧ (s.dep.committed plainOptions.codec).map DetectionEvent.seq = [1] ∧
      s.dep.agent.wal.replayUnacked = [] ∧
        ∀ d ∈ s.dep.committed plainOptions.codec, d ∈ s.dep.net.accepted ∨ s.dep.Refused d := by
  have hok : Guarded (step plainOptions) AppendsClean init endedRun := by decide +kernel
  obtain ⟨s, h, hmain, hsig, hseqs⟩ : ∃ s, exec (step plainOptions) init endedRun = some s ∧
      s.main = .returned 0 ∧ s.signalled = false ∧
        (s.dep.committed plainOptions.codec).map DetectionEvent.seq = [1] :=
    exists_exec_of_any (by decide +kernel)
  have hcode := exit_code hok h hmain (.inr hsig)
  exact ⟨s, h, hmain, hseqs, hcode.1.1 rfl, hcode.2 rfl⟩

/-! ## The delays -/

/-- The start of a delay, or the end of the loop in its place. -/
def isAttempt : MainAct → Bool
  | .unreachable _ | .joined _ => true
  | _ => false

/-- An ack, or a start of the process. -/
def renews : MainAct → Bool
  | .dep a => isAck a
  | .crash _ | .crashInAppend _ _ _ => true
  | _ => false

/-- `attempt` counts no more than `n` delays, unless it will be reset or is not used again. -/
structure Paced (policy : BackoffPolicy) (n : ℕ) (s : AgentProcess) : Prop where
  attempt : s.main.hasReader = true ∧ s.gotAck = true ∨ s.main.isBehindLoop = true ∨
    s.attempt.toNat ≤ n
  delay : ∀ d, s.main = .waiting d → 0 < n ∧ d < min policy.cap (policy.base * 2 ^ (n - 1))

variable {n : ℕ}

theorem paced_backOff (hfl : Rounds o.fl) (hbase : 0 < o.policy.base) (hcap : 0 < o.policy.cap)
    (hn : s.attempt.toNat ≤ n) (u : ℚ) : Paced o.policy (n + 1) (s.backOff o u) where
  attempt := by
    refine .inr (.inr ?_)
    rw [backOff, UInt32.toNat_add]
    exact (Nat.mod_le _ _).trans (Nat.succ_le_succ hn)
  delay d hd := by
    cases hd
    refine ⟨n.succ_pos, ?_⟩
    have hpos : 0 < backoffCeiling s.attempt o.policy := by
      rw [backoffCeiling_eq]
      positivity
    calc fullJitterBackoff o.fl s.attempt o.policy u
        < backoffCeiling s.attempt o.policy := fullJitterBackoff_lt hfl _ u hpos
      _ = min o.policy.cap (o.policy.base * 2 ^ s.attempt.toNat) := backoffCeiling_eq _ _
      _ ≤ min o.policy.cap (o.policy.base * 2 ^ n) := by gcongr; norm_num

/-- `main` is outside of the inner loop, where no ack is read. -/
theorem Paced.attempt_le (hs : Paced o.policy n s) (hr : s.main.hasReader = false)
    (hb : s.main.isBehindLoop = false) : s.attempt.toNat ≤ n := by
  simpa [hr, hb] using hs.attempt

theorem paced_step (hfl : Rounds o.fl) (hbase : 0 < o.policy.base) (hcap : 0 < o.policy.cap)
    (hs : Paced o.policy n s) (h : s.step o a = some t) :
    Paced o.policy (n + if isAttempt a then 1 else 0) t := by
  cases a with
  | clock | producerEnds =>
    obtain ⟨-, h⟩ := Option.ite_none_right_eq_some.1 h
    cases h
    exact ⟨hs.attempt, hs.delay⟩
  | signal =>
    cases h
    exact ⟨hs.attempt, hs.delay⟩
  | dep a =>
    obtain ⟨-, h⟩ := Option.ite_none_right_eq_some.1 h
    obtain ⟨dep, -, rfl⟩ := Option.map_eq_some_iff.1 h
    exact ⟨hs.attempt.imp_left fun h => ⟨h.1, by simp [h.2]⟩, hs.delay⟩
  | lateRead ans =>
    simp only [step] at h
    split_ifs at h
    obtain ⟨dep₁, -, h⟩ := Option.bind_eq_some_iff.1 h
    obtain ⟨dep₂, -, rfl⟩ := Option.map_eq_some_iff.1 h
    exact ⟨hs.attempt, hs.delay⟩
  | test =>
    simp only [step] at h
    split at h
    · next hmain =>
      have hle := hs.attempt_le (by rw [hmain]; rfl) (by rw [hmain]; rfl)
      split_ifs at h <;> cases h <;> exact ⟨.inr (.inr hle), by simp⟩
    · cases h
  | unreachable u =>
    simp only [step] at h
    split at h
    · next hmain =>
      have hle := hs.attempt_le (by rw [hmain]; rfl) (by rw [hmain]; rfl)
      split_ifs at h
      · cases h
        exact ⟨.inr (.inl rfl), by simp⟩
      · cases h
        exact paced_backOff hfl hbase hcap hle u
    · cases h
  | connect =>
    simp only [step] at h
    split at h
    · next hmain =>
      have hle := hs.attempt_le (by rw [hmain]; rfl) (by rw [hmain]; rfl)
      obtain ⟨dep, -, rfl⟩ := Option.map_eq_some_iff.1 h
      exact ⟨.inr (.inr hle), by simp⟩
    · cases h
  | leave =>
    simp only [step] at h
    split at h
    · next hmain =>
      obtain ⟨-, h⟩ := Option.ite_none_right_eq_some.1 h
      cases h
      have hattempt := hs.attempt
      rw [hmain] at hattempt
      exact ⟨hattempt, by simp⟩
    · cases h
  | joined u =>
    simp only [step] at h
    split at h
    · next c hmain hc =>
      obtain ⟨-, h⟩ := Option.ite_none_right_eq_some.1 h
      split_ifs at h with hstop hack
      · cases h
        exact ⟨.inr (.inl rfl), by simp⟩
      · cases h
        exact paced_backOff hfl hbase hcap n.zero_le u
      · cases h
        have hle : s.attempt.toNat ≤ n := by
          simpa [hmain, MainPc.isBehindLoop, hack] using hs.attempt
        exact paced_backOff hfl hbase hcap hle u
    · cases h
  | awake =>
    simp only [step] at h
    split at h
    · next hmain =>
      have hle := hs.attempt_le (by rw [hmain]; rfl) (by rw [hmain]; rfl)
      cases h
      exact ⟨.inr (.inr hle), by simp⟩
    · cases h
  | exit =>
    simp only [step] at h
    split at h
    · obtain ⟨-, h⟩ := Option.ite_none_right_eq_some.1 h
      cases h
      exact ⟨.inr (.inl rfl), by simp⟩
    · cases h
  | crash up =>
    simp only [step] at h
    obtain ⟨dep, -, rfl⟩ := Option.map_eq_some_iff.1 h
    exact ⟨.inr (.inr (Nat.zero_le _)), by simp⟩
  | crashInAppend body k up =>
    simp only [step] at h
    split_ifs at h
    obtain ⟨dep, -, rfl⟩ := Option.map_eq_some_iff.1 h
    exact ⟨.inr (.inr (Nat.zero_le _)), by simp⟩

/-- After an ack or a start there has been no delay yet. -/
theorem paced_renewed (h : s.step o a = some t) (ha : renews a = true) : Paced o.policy 0 t := by
  cases a with
  | dep a =>
    obtain ⟨hp, h⟩ := Option.ite_none_right_eq_some.1 h
    obtain ⟨dep, -, rfl⟩ := Option.map_eq_some_iff.1 h
    have hack : isAck a = true := ha
    have hr : s.main.hasReader = true := by
      unfold isAck at hack
      split at hack
      · exact hp
      · cases hack
    refine ⟨.inl ⟨hr, by simp [hack]⟩, fun d hd => ?_⟩
    have hmain : s.main = .waiting d := hd
    simp [hmain, MainPc.hasReader] at hr
  | crash up =>
    simp only [step] at h
    obtain ⟨dep, -, rfl⟩ := Option.map_eq_some_iff.1 h
    exact ⟨.inr (.inr le_rfl), by simp⟩
  | crashInAppend body k up =>
    simp only [step] at h
    split_ifs at h
    obtain ⟨dep, -, rfl⟩ := Option.map_eq_some_iff.1 h
    exact ⟨.inr (.inr le_rfl), by simp⟩
  | clock | signal | producerEnds | lateRead | test | unreachable | connect | leave | joined | awake
  | exit => cases ha

theorem paced_init : Paced o.policy 0 init :=
  ⟨.inr (.inr le_rfl), by simp [init]⟩

/-- `Paced` along a run. -/
theorem paced_run (hfl : Rounds o.fl) (hbase : 0 < o.policy.base) (hcap : 0 < o.policy.cap) :
    ∀ {as : List MainAct} {n : ℕ} {s t : AgentProcess}, Paced o.policy n s →
      exec (step o) s as = some t → Paced o.policy (n + as.countP isAttempt) t
  | [], _, _, _, hs, h => by
    cases h
    exact hs
  | a :: as, n, s, t, hs, h => by
    obtain ⟨u, hu, h⟩ := exec_cons_iff.1 h
    have := paced_run hfl hbase hcap (paced_step hfl hbase hcap hs hu) h
    rwa [List.countP_cons, add_comm (as.countP _), ← add_assoc]

/-- The delays, over every run and with every rounding : if `main` waits, and since the start of
the process or some ack it has begun to wait for the `n`-th time, then the delay is below
`base * 2 ^ (n - 1)` and the cap. -/
theorem delay_lt (hfl : Rounds o.fl) (hbase : 0 < o.policy.base) (hcap : 0 < o.policy.cap)
    {as bs : List MainAct} (hlast : ∀ a ∈ as.getLast?, renews a = true)
    (hrun : exec (step o) init (as ++ bs) = some s) {d : ℕ} (hmain : s.main = .waiting d) :
    0 < bs.countP isAttempt ∧
      d < min o.policy.cap (o.policy.base * 2 ^ (bs.countP isAttempt - 1)) := by
  obtain ⟨r, hr, hrun⟩ := exec_append_iff.1 hrun
  have hpaced : Paced o.policy 0 r := by
    induction as using List.reverseRecOn with
    | nil =>
      cases hr
      exact paced_init
    | append_singleton as a =>
      obtain ⟨q, -, hq⟩ := exec_snoc_iff.1 hr
      exact paced_renewed hq (hlast a (by simp))
  have := (paced_run hfl hbase hcap hpaced hrun).delay d hmain
  rwa [Nat.zero_add] at this

/-- An event is acked. -/
def ackedRun : List MainAct :=
  [.dep (.append (ascii "a")), .dep .push, .test, .connect, .dep (.net .snapshot),
    .dep (.net .send), .dep (.net (.read {})), .dep (.net (.read {})), .dep (.net .deliver),
    .dep (.net .acknowledge)]

/-- The stream is lost, and then the gateway is not reachable. -/
def lostRun : List MainAct :=
  [.dep (.net (.lose 0 0)), .leave, .joined (9 / 10), .awake, .test, .unreachable (9 / 10)]

theorem delay_lt_lostRun : ∃ s, exec (step plainOptions) init (ackedRun ++ lostRun) = some s ∧
    s.main = .waiting 360 ∧ 360 < min 30000 (200 * 2 ^ 1) := by
  have hfl : Rounds plainOptions.fl := fun x => by
    simp only [plainOptions, id, sub_self, abs_zero]
    positivity
  obtain ⟨s, h, hmain⟩ : ∃ s, exec (step plainOptions) init (ackedRun ++ lostRun) = some s ∧
      s.main = .waiting 360 := exists_exec_of_any (by decide +kernel)
  exact ⟨s, h, hmain, (delay_lt hfl (by decide) (by decide) (by decide) h hmain).2⟩

end AgentProcess

end Ridgeline
