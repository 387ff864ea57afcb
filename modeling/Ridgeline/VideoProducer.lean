import Ridgeline.ConfigReconciliation
import Ridgeline.DesiredConfigs
import Ridgeline.EdgePipeline

/-!
# The video producer

The producer thread of an agent that runs with `--video`. In each turn of its outer loop it
makes a ring of events and an `EdgePipeline` that pushes into it, with the parameters as they
are then. The inner loop pops events, passes them to `emit`, and polls for a configuration.
When there is one it is applied, and the turn ends : the pipeline is stopped and joined, and
then the ring is destroyed.

Its steps are interleaved with those of the two loops of the pipeline, and with the reader
that stores the updates. `g_stop` and `time_up` are taken not to fire. The two numbers that are
stored for the heartbeat are left out.

The inner loop drains the ring before it ends by itself, but not when an update ends it, and
the pipeline goes on with the frames it has buffered while it is stopped. What is in the ring
then is lost (`update_drops_event`). Every event pushed is emitted once, before the ring is
destroyed, if an update is applied only when the ring is empty and no event is pushed from
then on (`emits_every_event`).

An update sets `confirm_k` and `confirm_n` each on its own, and nothing compares them before
the constructor of the confirmer does, which aborts the process (`update_aborts`). The
thresholds are valid at every rebuild if each update, as it is applied, has them in order
(`rebuilds_valid`).
-/

namespace Ridgeline

/-- The `DetectionEvent` that is passed to `emit`, which gives it its seq. -/
structure VideoDetection where
  label : String
  confidence : ℚ
  xMin : ℚ
  yMin : ℚ
  xMax : ℚ
  yMax : ℚ
  captureTimeUnixNs : ℤ
  emitTimeUnixNs : ℤ
  framesConfirmed : UInt32
  windowSize : UInt32
  deriving DecidableEq, Repr

/-- The detection of a confirmed event. -/
def VideoDetection.of (ev : ConfirmedEvent) (now : ℤ) : VideoDetection where
  label := "smoke"
  confidence := ev.confidence
  xMin := ev.xMin
  yMin := ev.yMin
  xMax := ev.xMax
  yMax := ev.yMax
  captureTimeUnixNs := ev.captureTimeUnixNs
  emitTimeUnixNs := now
  framesConfirmed := ev.framesConfirmed
  windowSize := ev.windowSize

/-- The detection was made of the event. -/
def EmittedAs (ev : ConfirmedEvent) (d : VideoDetection) : Prop :=
  ∃ now, d = .of ev now

/-! ## The thread -/

/-- Where the producer is in a turn : in the condition of the inner loop, before `TryPop` and
in it, before `emit`, at the poll, and in the destructor of the pipeline, with
`config_changed`. -/
inductive DrainPc
  | finished
  | sizeTail
  | sizeHead (tail : ℕ)
  | entering
  | popping
  | emitting (ev : ConfirmedEvent)
  | polling
  | stopping (configChanged : Bool)
  | joiningCapture (configChanged : Bool)
  | joiningInference (configChanged : Bool)
  deriving DecidableEq, Repr

/-- The inner loop was left because of an update. -/
def DrainPc.restarting : DrainPc → Bool
  | .stopping configChanged => configChanged
  | .joiningCapture configChanged => configChanged
  | .joiningInference configChanged => configChanged
  | _ => false

/-- The variables of a turn : the threshold of its detector, the pipeline with the ring of
events, and the detections passed to `emit`. -/
structure Turn where
  score : ℚ
  pipeline : EdgePipeline
  pc : DrainPc := .finished
  emitted : List VideoDetection := []

/-- Where the producer is : before a turn, in one, in the constructor that aborts, and behind
the outer loop. -/
inductive ProducerPhase
  | building
  | turn (t : Turn)
  | aborted
  | done

/-- The turn the producer is in. -/
def ProducerPhase.turn? : ProducerPhase → Option Turn
  | .turn t => some t
  | _ => none

/-- The process has aborted. -/
def ProducerPhase.isAborted : ProducerPhase → Bool
  | .aborted => true
  | _ => false

/-- A ring that was destroyed : what was pushed into it, and what was emitted from it. -/
structure ClosedRing where
  pushed : List ConfirmedEvent
  emitted : List VideoDetection
  deriving DecidableEq, Repr

/-- The configuration, the producer, the thresholds of the pipelines built, and the rings
destroyed. -/
structure VideoProducer where
  config : ConfigState
  phase : ProducerPhase := .building
  built : List (UInt32 × UInt32) := []
  closed : List ClosedRing := []

/-- The reader stores an update, the producer makes a pipeline for the frames `source`, a loop
of the pipeline moves, or the producer does, with a reading of the clock and what it leaves in
a slot of the ring. -/
inductive ProducerAct
  | receive (u : ConfigUpdate)
  | build (source : List Frame) (slots : ℕ → Frame) (eventSlots : ℕ → ConfirmedEvent)
  | capture
  | infer (now : ℤ)
  | drain (left : ConfirmedEvent) (now : ℤ)

namespace Turn

/-- An access of `TryPop`. -/
def pop (t : Turn) (a : PopAct ConfirmedEvent) (next : RingBuffer ConfirmedEvent → DrainPc) :
    Option Turn :=
  (t.pipeline.events.popStep eventRingSlots a).map fun ring =>
    { t with pipeline := { t.pipeline with events := ring }, pc := next ring }

/-- A step of the inner loop, other than the poll, or of the destructor of the pipeline. -/
def drain (t : Turn) (left : ConfirmedEvent) (now : ℤ) : Option Turn :=
  match t.pc with
  | .finished => some { t with pc := if t.pipeline.finished then .sizeTail else .entering }
  | .sizeTail => some { t with pc := .sizeHead t.pipeline.events.tail }
  | .sizeHead tail =>
    some { t with
      pc :=
        if RingBuffer.sizeApprox eventRingSlots tail t.pipeline.events.head > 0 then .entering
        else .stopping false }
  | .entering => t.pop .loadHead fun _ => .popping
  | .popping =>
    match t.pipeline.events.consumer with
    | .loadedHead _ =>
      t.pop .loadTail fun ring =>
        match ring.consumer with
        | .idle _ => .polling
        | _ => .popping
    | .nonEmpty _ => t.pop (.access left) fun _ => .popping
    | .accessed _ ev => t.pop .storeHead fun _ => .emitting ev
    | .idle _ => none
  | .emitting ev => some { t with emitted := t.emitted ++ [.of ev now], pc := .polling }
  | .stopping configChanged =>
    some { t with
      pipeline := { t.pipeline with stopRequested := true }
      pc := .joiningCapture configChanged }
  | .joiningCapture configChanged =>
    if t.pipeline.capture = .ended then some { t with pc := .joiningInference configChanged }
    else none
  | .polling | .joiningInference _ => none

/-- What is left of the ring of the turn. -/
def close (t : Turn) : ClosedRing :=
  ⟨t.pipeline.events.published.map Prod.snd, t.emitted⟩

end Turn

namespace VideoProducer

variable (detector : ℚ → Frame → DetectionResult)

/-- The pipeline of a turn runs in real time, with the detector for its threshold. -/
def edgeConfig (score : ℚ) : EdgeConfig :=
  ⟨true, detector score⟩

/-- The start of a turn. The inference loop begins with the constructor of the confirmer. -/
def build (s : VideoProducer) (source : List Frame) (slots : ℕ → Frame)
    (eventSlots : ℕ → ConfirmedEvent) : VideoProducer :=
  let p := s.config.state
  { s with
    built := s.built ++ [(p.confirmK, p.confirmN)]
    phase :=
      match KOfNConfirmer.create p.confirmK p.confirmN with
      | some confirmer =>
        .turn { score := p.scoreThreshold, pipeline := .start source slots eventSlots confirmer }
      | none => .aborted }

/-- A step of a loop of the pipeline. -/
def pipelineStep (s : VideoProducer) (a : EdgeAct) : Option VideoProducer :=
  match s.phase with
  | .turn t => (t.pipeline.step (edgeConfig detector t.score) a).map fun pipeline =>
      { s with phase := .turn { t with pipeline := pipeline } }
  | _ => none

/-- A step of the producer in a turn. The ring is destroyed when the pipeline is joined. -/
def turnStep (s : VideoProducer) (t : Turn) (left : ConfirmedEvent) (now : ℤ) :
    Option VideoProducer :=
  match t.pc with
  | .polling => (s.config.step .video .poll).map fun config =>
      { s with
        config := config
        phase := .turn { t with
          pc := if s.config.slot.pendingSet then .stopping true else .finished } }
  | .joiningInference configChanged =>
    if t.pipeline.infer = .ended then
      some { s with
        closed := s.closed ++ [t.close]
        phase := if configChanged then .building else .done }
    else none
  | _ => (t.drain left now).map fun t' => { s with phase := .turn t' }

/-- One step. -/
def step (s : VideoProducer) : ProducerAct → Option VideoProducer
  | .receive u => (s.config.step .video (.offer u)).map fun config => { s with config := config }
  | .build source slots eventSlots =>
    match s.phase with
    | .building => some (s.build source slots eventSlots)
    | _ => none
  | .capture => s.pipelineStep detector .capture
  | .infer now => s.pipelineStep detector (.infer now)
  | .drain left now =>
    match s.phase with
    | .turn t => s.turnStep t left now
    | _ => none

/-- The producer before its first turn. -/
def start (p : LiveParams) : VideoProducer :=
  { config := .start p }

end VideoProducer

/-! ## The loops of the pipeline and the ring of events -/

namespace EdgePipeline

variable {cfg : EdgeConfig} {s t : EdgePipeline}

/-- `CaptureLoop` leaves the ring of events. -/
theorem events_captureStep (h : s.captureStep cfg = some t) :
    t.events = s.events ∧ t.infer = s.infer ∧ t.finished = s.finished := by
  obtain ⟨_, _, _, _, _, _, _, rfl, -⟩ := captureStep_cases h
  exact ⟨rfl, rfl, rfl⟩

/-- `InferenceLoop` acts on the ring of events as its producer, and has not ended. It has when
it announces that. -/
theorem events_inferStep {now : ℤ} (h : s.inferStep cfg now = some t) :
    s.infer ≠ .ended ∧ (t.finished = s.finished ∨ t.infer = .ended) ∧
      (t.events = s.events ∨ ∃ a, s.events.pushStep eventRingSlots a = some t.events) := by
  obtain ⟨hrunning, _, _, _, _, _, _, _, _, rfl, hfinished, -, hevents⟩ := inferStep_cases h
  exact ⟨hrunning, hfinished, hevents⟩

end EdgePipeline

/-- The event of some frame, with the detector's result for it. -/
def BuiltBy (cfg : EdgeConfig) (ev : ConfirmedEvent) : Prop :=
  ∃ f confirmer now, ev = .of f (cfg.detect f) confirmer now

namespace EdgePipeline

variable {cfg : EdgeConfig} {s t : EdgePipeline}

/-- What is in the ring of events, or on the way there, was built from a frame. -/
structure EventsBuilt (cfg : EdgeConfig) (s : EdgePipeline) : Prop where
  counting : ∀ f r b, s.infer = .counting f r b → r = cfg.detect f
  emitting : ∀ ev, s.infer = .emitting ev → BuiltBy cfg ev
  pushing : ∀ ev, s.events.producer.item = some ev → BuiltBy cfg ev
  published : ∀ e ∈ s.events.published, BuiltBy cfg e.2

/-- `InferenceLoop` moves on without an event. -/
theorem EventsBuilt.move {frames : RingBuffer Frame} {pc : InferPc} {finished : Bool}
    (hs : s.EventsBuilt cfg) (hcounting : ∀ f r b, pc ≠ .counting f r b)
    (hemitting : ∀ ev, pc ≠ .emitting ev) :
    EventsBuilt cfg { s with frames := frames, infer := pc, finished := finished } :=
  ⟨fun f r b h => absurd h (hcounting f r b), fun ev h => absurd h (hemitting ev), hs.pushing,
    hs.published⟩

/-- An access of `out_events_.TryPush`. -/
theorem EventsBuilt.push {a : PushAct ConfirmedEvent} (hs : s.EventsBuilt cfg)
    (ha : ∀ ev, a.item = some ev → BuiltBy cfg ev) (h : s.pushEvent a = some t) :
    t.EventsBuilt cfg := by
  obtain ⟨ring, hpush, rfl⟩ := Option.map_eq_some_iff.1 h
  obtain ⟨hpushing, hpublished⟩ := RingBuffer.items_pushStep hpush hs.pushing hs.published ha
  refine ⟨fun f r b hpc => ?_, fun ev hpc => ?_, hpushing, hpublished⟩
  all_goals
    simp only at hpc
    split at hpc <;> cases hpc

theorem EventsBuilt.infer {now : ℤ} (hs : s.EventsBuilt cfg) (h : s.inferStep cfg now = some t) :
    t.EventsBuilt cfg := by
  unfold inferStep at h
  cases hpc : s.infer with
  | test | sizeHead | body | stopHead =>
    rw [hpc] at h
    cases h
    split_ifs <;> exact hs.move (by simp) (by simp)
  | sizeTail | stopTail | finishing =>
    rw [hpc] at h
    cases h
    exact hs.move (by simp) (by simp)
  | entering | releasing =>
    rw [hpc] at h
    obtain ⟨ring, -, rfl⟩ := Option.map_eq_some_iff.1 h
    exact hs.move (by simp) (by simp)
  | popping =>
    simp only [hpc] at h
    split at h
    · obtain ⟨ring, -, rfl⟩ := Option.map_eq_some_iff.1 h
      split <;> exact hs.move (by simp) (by simp)
    · obtain ⟨ring, -, rfl⟩ := Option.map_eq_some_iff.1 h
      refine ⟨?_, by simp, hs.pushing, hs.published⟩
      rintro f r b ⟨⟩
      rfl
    · cases h
  | counting f r b =>
    rw [hpc] at h
    cases h
    refine ⟨fun f' r' b' h => ?_, fun ev h => ?_, hs.pushing, hs.published⟩
    · simp only at h
      split_ifs at h
    · simp only at h
      split_ifs at h
      cases h
      rw [hs.counting f r b hpc]
      exact ⟨f, _, now, rfl⟩
  | emitting ev =>
    rw [hpc] at h
    refine hs.push ?_ h
    rintro _ ⟨⟩
    exact hs.emitting ev hpc
  | pushingEvent =>
    simp only [hpc] at h
    split at h
    on_goal 4 => cases h
    all_goals exact hs.push (by simp [PushAct.item]) h
  | ended =>
    rw [hpc] at h
    cases h

end EdgePipeline

/-! ## What the producer knows in a turn -/

/-- The ring is in a call exactly while the producer is in `TryPop`. -/
def DrainPc.Fits : DrainPc → PopPc ConfirmedEvent → Prop
  | .popping, .idle _ => False
  | .popping, _ => True
  | _, pc => ∃ r, pc = .idle r

namespace Turn

variable {t u : Turn}

/-- The event that is popped and not passed to `emit` yet. -/
def inHand (t : Turn) : List ConfirmedEvent :=
  match t.pc, t.pipeline.events.consumer with
  | .emitting ev, _ => [ev]
  | .popping, .accessed _ ev => [ev]
  | _, _ => []

/-- What the producer has seen. The loop is left by itself when the inference loop has ended,
and with nothing in the ring. -/
def Seen (t : Turn) : DrainPc → Prop
  | .sizeTail => t.pipeline.infer = .ended
  | .sizeHead tail => t.pipeline.infer = .ended ∧ tail = t.pipeline.events.tail
  | .stopping configChanged | .joiningCapture configChanged | .joiningInference configChanged =>
    (configChanged = false → t.pipeline.infer = .ended) ∧
      t.pipeline.events.popped = t.pipeline.events.published
  | _ => True

/-- The events popped are those emitted, in order and each once, with the one in hand. -/
structure Inv (t : Turn) : Prop where
  ring : t.pipeline.events.Inv eventRingSlots
  ended : t.pipeline.finished = true → t.pipeline.infer = .ended
  consumer : t.pc.Fits t.pipeline.events.consumer
  emitted : ∃ evs, t.pipeline.events.popped.map Prod.snd = evs ++ t.inHand ∧
    List.Forall₂ EmittedAs evs t.emitted
  seen : t.Seen t.pc

theorem inv_start (score : ℚ) (source : List Frame) (slots : ℕ → Frame)
    (eventSlots : ℕ → ConfirmedEvent) (confirmer : KOfNConfirmer) :
    Inv { score := score, pipeline := .start source slots eventSlots confirmer } where
  ring := RingBuffer.inv_start eventSlots
  ended := nofun
  consumer := ⟨none, rfl⟩
  emitted := ⟨[], rfl, .nil⟩
  seen := trivial

/-- The capture loop moves. -/
theorem Inv.capture {cfg : EdgeConfig} {pipeline : EdgePipeline} (ht : t.Inv)
    (h : t.pipeline.captureStep cfg = some pipeline) : Inv { t with pipeline := pipeline } := by
  obtain ⟨hevents, hinfer, hfinished⟩ := EdgePipeline.events_captureStep h
  obtain ⟨hring, hended, hconsumer, hemitted, hseen⟩ := ht
  refine ⟨hevents ▸ hring, ?_, hevents ▸ hconsumer, ?_, ?_⟩
  · simpa only [hinfer, hfinished] using hended
  · simpa only [inHand, hevents] using hemitted
  · cases hpc : t.pc with
    | sizeTail | sizeHead | stopping | joiningCapture | joiningInference =>
      simpa only [hpc, Seen, hevents, hinfer] using hseen
    | finished | entering | popping | emitting | polling => trivial

/-- The inference loop moves, and while an update is waited for it pushes no event. -/
theorem Inv.infer {cfg : EdgeConfig} {now : ℤ} {pipeline : EdgePipeline} (ht : t.Inv)
    (hquiet : t.pc.restarting = true → t.pipeline.events.producer.publishing = false)
    (h : t.pipeline.inferStep cfg now = some pipeline) : Inv { t with pipeline := pipeline } := by
  obtain ⟨hrunning, hfinished, hevents⟩ := EdgePipeline.events_inferStep h
  have hended : pipeline.finished = true → pipeline.infer = .ended := by
    intro hfin
    rcases hfinished with hsame | hend
    · exact absurd (ht.ended (hsame ▸ hfin)) hrunning
    · exact hend
  -- the loop has not ended, so the producer is not past the test for that
  have hseen : ∀ events : RingBuffer ConfirmedEvent, events.popped = t.pipeline.events.popped →
      (t.pc.restarting = true → events.published = t.pipeline.events.published) →
        Seen { t with pipeline := { pipeline with events := events } } t.pc := by
    intro events hpopped hpublished
    have hold := ht.seen
    cases hpc : t.pc with
    | sizeTail =>
      rw [hpc] at hold
      exact absurd hold hrunning
    | sizeHead =>
      rw [hpc] at hold
      exact absurd hold.1 hrunning
    | stopping configChanged | joiningCapture configChanged | joiningInference configChanged =>
      rw [hpc] at hold hpublished
      cases configChanged with
      | false => exact absurd (hold.1 rfl) hrunning
      | true => exact ⟨nofun, by rw [hpopped, hpublished rfl, hold.2]⟩
    | finished | entering | popping | emitting | polling => trivial
  rcases hevents with hsame | ⟨a, hpush⟩
  · refine ⟨hsame ▸ ht.ring, hended, hsame ▸ ht.consumer, ?_, ?_⟩
    · simpa only [inHand, hsame] using ht.emitted
    · exact hseen pipeline.events (by rw [hsame]) fun _ => by rw [hsame]
  · obtain ⟨hconsumer, hpopped, -, -⟩ := RingBuffer.pushStep_frame hpush
    refine ⟨RingBuffer.inv_pushStep ht.ring hpush, hended, hconsumer ▸ ht.consumer, ?_, ?_⟩
    · simpa only [inHand, hconsumer, hpopped] using ht.emitted
    · exact hseen pipeline.events hpopped fun hre =>
        RingBuffer.published_pushStep hpush (hquiet hre)

/-- The producer moves on, and neither takes nor emits an event. -/
theorem Inv.move {pc : DrainPc} (ht : t.Inv) (hfits : pc.Fits t.pipeline.events.consumer)
    (hhand : inHand { t with pc := pc } = t.inHand) (hseen : t.Seen pc) :
    Inv { t with pc := pc } :=
  ⟨ht.ring, ht.ended, hfits, by rw [hhand]; exact ht.emitted, hseen⟩

/-- An access of `TryPop`. An event that it pops is in hand. -/
theorem Inv.access {a : PopAct ConfirmedEvent} {ring : RingBuffer ConfirmedEvent} {pc : DrainPc}
    (ht : t.Inv) (hpop : t.pipeline.events.popStep eventRingSlots a = some ring)
    (hu : u = { t with pipeline := { t.pipeline with events := ring }, pc := pc })
    (hfits : pc.Fits ring.consumer)
    (hhand : ∀ evs, t.pipeline.events.popped.map Prod.snd = evs ++ t.inHand →
      ring.popped.map Prod.snd = evs ++ u.inHand)
    (hseen : u.Seen pc) : u.Inv := by
  obtain ⟨evs, hevs, hemitted⟩ := ht.emitted
  subst hu
  exact ⟨RingBuffer.inv_popStep ht.ring hpop, ht.ended, hfits, ⟨evs, hhand evs hevs, hemitted⟩,
    hseen⟩

/-- A step inside `TryPop`. -/
theorem Inv.popping {left : ConfirmedEvent} {now : ℤ} (ht : t.Inv) (hpc : t.pc = .popping)
    (h : t.drain left now = some u) : u.Inv := by
  simp only [Turn.drain, hpc] at h
  split at h
  · next head hc =>
    obtain ⟨ring, hpop, rfl⟩ := Option.map_eq_some_iff.1 h
    have hring := hpop
    simp only [RingBuffer.popStep, hc] at hring
    split_ifs at hring
    · cases hring
      exact ht.access hpop rfl ⟨_, rfl⟩ (by simp [inHand, hpc, hc]) trivial
    · cases hring
      exact ht.access hpop rfl trivial (by simp [inHand, hpc, hc]) trivial
  · next head hc =>
    obtain ⟨ring, hpop, rfl⟩ := Option.map_eq_some_iff.1 h
    have hring := hpop
    simp only [RingBuffer.popStep, hc, Option.some.injEq] at hring
    subst hring
    exact ht.access hpop rfl trivial (by simp [inHand, hpc, hc]) trivial
  · next head ev hc =>
    obtain ⟨ring, hpop, rfl⟩ := Option.map_eq_some_iff.1 h
    have hring := hpop
    simp only [RingBuffer.popStep, hc, Option.some.injEq] at hring
    subst hring
    exact ht.access hpop rfl ⟨_, rfl⟩ (by simp [inHand, hpc, hc]) trivial
  · cases h

/-- A step of the producer in the turn. -/
theorem Inv.drain {left : ConfirmedEvent} {now : ℤ} (ht : t.Inv)
    (h : t.drain left now = some u) : u.Inv := by
  have hidle := ht.consumer
  have hseen := ht.seen
  have hstep := h
  unfold Turn.drain at h
  cases hpc : t.pc with
  | finished =>
    rw [hpc] at h hidle
    cases h
    by_cases hfin : t.pipeline.finished = true
    · rw [if_pos hfin]
      exact ht.move hidle (by simp [inHand, hpc]) (ht.ended hfin)
    · rw [if_neg hfin]
      exact ht.move hidle (by simp [inHand, hpc]) trivial
  | sizeTail =>
    rw [hpc] at h hidle hseen
    cases h
    exact ht.move hidle (by simp [inHand, hpc]) ⟨hseen, rfl⟩
  | sizeHead tail =>
    rw [hpc] at h hidle hseen
    cases h
    obtain ⟨hend, rfl⟩ := hseen
    rw [ht.ring.sizeApprox_eq]
    by_cases hsize : t.pipeline.events.held.length > 0
    · rw [if_pos hsize]
      exact ht.move hidle (by simp [inHand, hpc]) trivial
    · rw [if_neg hsize]
      obtain ⟨r, hc⟩ := hidle
      exact ht.move ⟨r, hc⟩ (by simp [inHand, hpc])
        ⟨fun _ => hend, ht.ring.popped_eq hc (by omega)⟩
  | entering =>
    rw [hpc] at h hidle
    obtain ⟨ring, hload, rfl⟩ := Option.map_eq_some_iff.1 h
    obtain ⟨r, hc⟩ := hidle
    have hring := hload
    simp only [RingBuffer.popStep, hc, Option.some.injEq] at hring
    subst hring
    exact ht.access hload rfl trivial (by simp [inHand, hpc]) trivial
  | popping => exact ht.popping hpc hstep
  | emitting ev =>
    rw [hpc] at h hidle
    cases h
    obtain ⟨evs, hevs, hemitted⟩ := ht.emitted
    simp only [inHand, hpc] at hevs
    refine ⟨ht.ring, ht.ended, hidle, ⟨evs ++ [ev], ?_, ?_⟩, trivial⟩
    · simpa [inHand] using hevs
    · exact List.rel_append hemitted (.cons ⟨now, rfl⟩ .nil)
  | stopping configChanged =>
    rw [hpc] at h hidle hseen
    cases h
    exact ⟨ht.ring, ht.ended, hidle, by simpa [inHand, hpc] using ht.emitted, hseen⟩
  | joiningCapture configChanged =>
    rw [hpc] at hidle hseen
    simp only [hpc] at h
    split_ifs at h
    cases h
    exact ht.move hidle (by simp [inHand, hpc]) hseen
  | polling | joiningInference =>
    rw [hpc] at h
    cases h

/-- The producer leaves the inference loop and its side of the ring of events. -/
theorem drain_frame {left : ConfirmedEvent} {now : ℤ} (h : t.drain left now = some u) :
    u.score = t.score ∧ u.pipeline.infer = t.pipeline.infer ∧
      u.pipeline.events.producer = t.pipeline.events.producer ∧
        u.pipeline.events.published = t.pipeline.events.published := by
  have hpop : ∀ {a next}, t.pop a next = some u → u.score = t.score ∧
      u.pipeline.infer = t.pipeline.infer ∧
        u.pipeline.events.producer = t.pipeline.events.producer ∧
          u.pipeline.events.published = t.pipeline.events.published := by
    intro a next hpop
    obtain ⟨ring, hring, rfl⟩ := Option.map_eq_some_iff.1 hpop
    obtain ⟨hproducer, hpublished, -⟩ := RingBuffer.popStep_frame hring
    exact ⟨rfl, rfl, hproducer, hpublished⟩
  unfold Turn.drain at h
  cases hpc : t.pc with
  | finished | sizeTail | sizeHead | emitting | stopping =>
    rw [hpc] at h
    cases h
    exact ⟨rfl, rfl, rfl, rfl⟩
  | entering =>
    rw [hpc] at h
    exact hpop h
  | popping =>
    simp only [hpc] at h
    split at h
    on_goal 4 => cases h
    all_goals exact hpop h
  | joiningCapture =>
    simp only [hpc] at h
    obtain ⟨-, h⟩ := Option.ite_none_right_eq_some.1 h
    cases h
    exact ⟨rfl, rfl, rfl, rfl⟩
  | polling | joiningInference =>
    rw [hpc] at h
    cases h

/-- The poll ends the turn only if the ring is empty. -/
theorem Inv.poll {changed : Bool} (ht : t.Inv) (hpc : t.pc = .polling)
    (hheld : changed = true → t.pipeline.events.held.length = 0) :
    Inv { t with pc := if changed then .stopping true else .finished } := by
  have hidle := ht.consumer
  rw [hpc] at hidle
  cases changed with
  | false => exact ht.move hidle (by simp [inHand, hpc]) trivial
  | true =>
    obtain ⟨r, hc⟩ := hidle
    exact ht.move ⟨r, hc⟩ (by simp [inHand, hpc]) ⟨nofun, ht.ring.popped_eq hc (hheld rfl)⟩

/-- When the inference loop is joined, all that was pushed has been emitted. -/
theorem Inv.close {configChanged : Bool} (ht : t.Inv)
    (hpc : t.pc = .joiningInference configChanged) :
    List.Forall₂ EmittedAs t.close.pushed t.close.emitted := by
  obtain ⟨-, -, -, ⟨evs, hevs, hemitted⟩, hseen⟩ := ht
  rw [hpc] at hseen
  simp only [inHand, hpc, List.append_nil, hseen.2] at hevs
  rwa [Turn.close, hevs]

end Turn

/-! ## Every event is emitted -/

namespace VideoProducer

variable {detector : ℚ → Frame → DetectionResult} {s s' : VideoProducer}

/-- An update is applied only when the ring is empty, and while the pipeline is stopped for it
no event is pushed. -/
def QuietTurn (pendingSet : Bool) (t : Turn) : ProducerAct → Prop
  | .drain _ _ => t.pc = .polling → pendingSet = true → t.pipeline.events.held.length = 0
  | .infer _ => t.pc.restarting = true → t.pipeline.events.producer.publishing = false
  | _ => True

instance (pendingSet : Bool) (t : Turn) : ∀ a, Decidable (QuietTurn pendingSet t a)
  | .drain _ _ => inferInstanceAs (Decidable (_ → _ → _))
  | .infer _ => inferInstanceAs (Decidable (_ → _))
  | .receive _ | .build _ _ _ | .capture => .isTrue trivial

/-- The step meets `QuietTurn` if the producer is in a turn. -/
def AppliesQuietly (s : VideoProducer) (a : ProducerAct) : Prop :=
  ∀ t ∈ s.phase.turn?, QuietTurn s.config.slot.pendingSet t a

instance (s : VideoProducer) (a : ProducerAct) : Decidable (s.AppliesQuietly a) :=
  inferInstanceAs (Decidable (∀ t ∈ s.phase.turn?, _))

/-- In every turn its invariant holds, and every ring destroyed was drained. -/
structure Inv (s : VideoProducer) : Prop where
  turn : ∀ t ∈ s.phase.turn?, t.Inv
  closed : ∀ c ∈ s.closed, List.Forall₂ EmittedAs c.pushed c.emitted

theorem inv_start (p : LiveParams) : (start p).Inv :=
  ⟨by simp [start, ProducerPhase.turn?], by simp [start]⟩

theorem inv_pipelineStep {a : EdgeAct} (hs : s.Inv) (h : s.pipelineStep detector a = some s')
    (hstep : ∀ t ∈ s.phase.turn?, ∀ pipeline,
      t.pipeline.step (edgeConfig detector t.score) a = some pipeline →
        Turn.Inv { t with pipeline := pipeline }) : s'.Inv := by
  unfold pipelineStep at h
  split at h
  · next t hphase =>
    obtain ⟨pipeline, hp, rfl⟩ := Option.map_eq_some_iff.1 h
    refine ⟨?_, hs.closed⟩
    rintro u ⟨⟩
    exact hstep t (by simp [hphase, ProducerPhase.turn?]) pipeline hp
  · cases h

theorem inv_turnStep {t : Turn} {left : ConfirmedEvent} {now : ℤ} (hs : s.Inv) (ht : t.Inv)
    (hquiet : t.pc = .polling → s.config.slot.pendingSet = true →
      t.pipeline.events.held.length = 0)
    (h : s.turnStep t left now = some s') : s'.Inv := by
  unfold turnStep at h
  split at h
  · next hpc =>
    obtain ⟨config, -, rfl⟩ := Option.map_eq_some_iff.1 h
    refine ⟨?_, hs.closed⟩
    rintro u ⟨⟩
    exact ht.poll hpc (hquiet hpc)
  · next configChanged hpc =>
    obtain ⟨-, h⟩ := Option.ite_none_right_eq_some.1 h
    cases h
    refine ⟨?_, List.forall_mem_append.2 ⟨hs.closed, List.forall_mem_singleton.2 (ht.close hpc)⟩⟩
    cases configChanged <;> rintro u ⟨⟩
  · obtain ⟨u, hu, rfl⟩ := Option.map_eq_some_iff.1 h
    refine ⟨?_, hs.closed⟩
    rintro v ⟨⟩
    exact ht.drain hu

theorem inv_step (s : VideoProducer) (a : ProducerAct) (s' : VideoProducer) (hs : s.Inv)
    (hok : s.AppliesQuietly a) (h : s.step detector a = some s') : s'.Inv := by
  cases a with
  | receive u =>
    simp only [step] at h
    obtain ⟨config, -, rfl⟩ := Option.map_eq_some_iff.1 h
    exact ⟨hs.turn, hs.closed⟩
  | build source slots eventSlots =>
    simp only [step] at h
    split at h
    · cases h
      refine ⟨?_, hs.closed⟩
      simp only [build]
      split
      · rintro u ⟨⟩
        exact Turn.inv_start _ _ _ _ _
      · rintro u ⟨⟩
    · cases h
  | capture =>
    exact inv_pipelineStep hs h fun t ht pipeline hp => (hs.turn t ht).capture hp
  | infer now =>
    exact inv_pipelineStep hs h fun t ht pipeline hp => (hs.turn t ht).infer (hok t ht) hp
  | drain left now =>
    simp only [step] at h
    split at h
    · next t hphase =>
      have ht : t ∈ s.phase.turn? := by simp [hphase, ProducerPhase.turn?]
      exact inv_turnStep hs (hs.turn t ht) (hok t ht) h
    · cases h

/-- Every event in a ring, and every one that was in a ring when it was destroyed, was built from
a frame, with the detector for the threshold of the turn. -/
structure Built (detector : ℚ → Frame → DetectionResult) (s : VideoProducer) : Prop where
  turn : ∀ t ∈ s.phase.turn?, t.pipeline.EventsBuilt (edgeConfig detector t.score)
  closed : ∀ c ∈ s.closed, ∀ ev ∈ c.pushed, ∃ score, BuiltBy (edgeConfig detector score) ev

theorem built_turnStep {t : Turn} {left : ConfirmedEvent} {now : ℤ} (hs : s.Built detector)
    (ht : t.pipeline.EventsBuilt (edgeConfig detector t.score))
    (h : s.turnStep t left now = some s') : s'.Built detector := by
  unfold turnStep at h
  split at h
  · obtain ⟨config, -, rfl⟩ := Option.map_eq_some_iff.1 h
    refine ⟨?_, hs.closed⟩
    rintro u ⟨⟩
    exact ht
  · next configChanged hpc =>
    obtain ⟨-, h⟩ := Option.ite_none_right_eq_some.1 h
    cases h
    refine ⟨by cases configChanged <;> rintro u ⟨⟩,
      List.forall_mem_append.2 ⟨hs.closed, List.forall_mem_singleton.2 fun ev hev => ?_⟩⟩
    obtain ⟨e, he, rfl⟩ := List.mem_map.1 hev
    exact ⟨t.score, ht.published e he⟩
  · obtain ⟨u, hu, rfl⟩ := Option.map_eq_some_iff.1 h
    refine ⟨?_, hs.closed⟩
    rintro v ⟨⟩
    obtain ⟨hscore, hinfer, hproducer, hpublished⟩ := Turn.drain_frame hu
    rw [hscore]
    exact ⟨hinfer ▸ ht.counting, hinfer ▸ ht.emitting, hproducer ▸ ht.pushing,
      hpublished ▸ ht.published⟩

theorem built_pipelineStep {a : EdgeAct} (hs : s.Built detector)
    (h : s.pipelineStep detector a = some s')
    (hstep : ∀ t ∈ s.phase.turn?, ∀ pipeline,
      t.pipeline.step (edgeConfig detector t.score) a = some pipeline →
        pipeline.EventsBuilt (edgeConfig detector t.score)) : s'.Built detector := by
  unfold pipelineStep at h
  split at h
  · next t hphase =>
    obtain ⟨pipeline, hp, rfl⟩ := Option.map_eq_some_iff.1 h
    refine ⟨?_, hs.closed⟩
    rintro u ⟨⟩
    exact hstep t (by simp [hphase, ProducerPhase.turn?]) pipeline hp
  · cases h

theorem built_step (s : VideoProducer) (a : ProducerAct) (s' : VideoProducer)
    (hs : s.Built detector) (h : s.step detector a = some s') : s'.Built detector := by
  cases a with
  | receive u =>
    simp only [step] at h
    obtain ⟨config, -, rfl⟩ := Option.map_eq_some_iff.1 h
    exact ⟨hs.turn, hs.closed⟩
  | build source slots eventSlots =>
    simp only [step] at h
    split at h
    · cases h
      refine ⟨?_, hs.closed⟩
      simp only [build]
      split
      · rintro u ⟨⟩
        exact ⟨by simp [EdgePipeline.start], by simp [EdgePipeline.start],
          by simp [EdgePipeline.start, RingBuffer.start, PushPc.item],
          by simp [EdgePipeline.start, RingBuffer.start]⟩
      · rintro u ⟨⟩
    · cases h
  | capture =>
    refine built_pipelineStep hs h fun t ht pipeline hp => ?_
    obtain ⟨hevents, hinfer, -⟩ := EdgePipeline.events_captureStep hp
    obtain ⟨hcounting, hemitting, hpushing, hpublished⟩ := hs.turn t ht
    exact ⟨hinfer ▸ hcounting, hinfer ▸ hemitting, hevents ▸ hpushing, hevents ▸ hpublished⟩
  | infer now => exact built_pipelineStep hs h fun t ht pipeline hp => (hs.turn t ht).infer hp
  | drain left now =>
    simp only [step] at h
    split at h
    · next t hphase => exact built_turnStep hs (hs.turn t (by simp [hphase, ProducerPhase.turn?])) h
    · cases h

/-- In every run in which updates are applied only when the ring is empty, and no event is
pushed while the pipeline is stopped for one, every event pushed into a ring was passed to
`emit`, once and in order, before the ring was destroyed. What was pushed are events that the
inference loop built from frames. -/
theorem emits_every_event (p : LiveParams) {as : List ProducerAct}
    (hok : Guarded (step detector) AppliesQuietly (start p) as)
    (h : exec (step detector) (start p) as = some s) :
    ∀ c ∈ s.closed, List.Forall₂ EmittedAs c.pushed c.emitted ∧
      ∀ ev ∈ c.pushed, ∃ score, BuiltBy (edgeConfig detector score) ev := by
  have hinv := exec_invariant_guarded inv_step (inv_start p) hok h
  have hbuilt : s.Built detector := exec_invariant built_step
    ⟨by simp [start, ProducerPhase.turn?], by simp [start]⟩ h
  exact fun c hc => ⟨hinv.closed c hc, hbuilt.closed c hc⟩

/-- What the slots of a ring hold at first. -/
def noEvent : ConfirmedEvent :=
  ⟨0, 0, 0, 0, 0, 0, 0, 0, 0, 0⟩

/-- A video of one frame. -/
def buildOne : ProducerAct :=
  .build [{}] (fun _ => {}) fun _ => noEvent

/-- Every frame is positive, for every threshold. -/
def allPositive : ℚ → Frame → DetectionResult :=
  fun _ _ => { positive := true }

/-- Each positive frame is confirmed. -/
def oneOfOneParams : LiveParams :=
  ⟨1, 1, 3 / 10, 5⟩

/-- The frame is captured, processed and confirmed, and its event is pushed. -/
def pushOne : List ProducerAct :=
  List.replicate 6 .capture ++ List.replicate 11 (.infer 20)

/-- The update is applied, and the pipeline is stopped and joined. -/
def applyAndRestart : List ProducerAct :=
  [.receive ⟨1, 0, 0, 5, 0⟩, .drain noEvent 30, .drain noEvent 30] ++ List.replicate 2 .capture ++
    List.replicate 4 (.infer 40) ++ [.drain noEvent 50, .drain noEvent 50]

/-- The event is popped and emitted before the update comes. -/
def drainedRun : List ProducerAct :=
  buildOne :: pushOne ++ List.replicate 6 (.drain noEvent 25) ++ applyAndRestart

theorem emits_every_event_drainedRun : ∃ s,
    exec (step allPositive) (start oneOfOneParams) drainedRun = some s ∧
      s.closed.map (fun c => (c.pushed.length, c.emitted.length)) = [(1, 1)] ∧
        ∀ c ∈ s.closed, List.Forall₂ EmittedAs c.pushed c.emitted ∧
          ∀ ev ∈ c.pushed, ∃ score, BuiltBy (edgeConfig allPositive score) ev := by
  obtain ⟨s, hs, hclosed⟩ : ∃ s,
      exec (step allPositive) (start oneOfOneParams) drainedRun = some s ∧
        s.closed.map (fun c => (c.pushed.length, c.emitted.length)) = [(1, 1)] :=
    exists_exec_of_any (by decide +kernel)
  exact ⟨s, hs, hclosed, emits_every_event _ (by decide +kernel) hs⟩

/-- The producer finds the ring empty, then the event is pushed, and then the update comes. -/
def droppedRun : List ProducerAct :=
  buildOne :: List.replicate 3 (.drain noEvent 10) ++ pushOne ++ applyAndRestart

/-- The ring is destroyed with the event in it. -/
theorem update_drops_event : ∃ s,
    exec (step allPositive) (start oneOfOneParams) droppedRun = some s ∧
      ¬ ∀ c ∈ s.closed, List.Forall₂ EmittedAs c.pushed c.emitted := by
  obtain ⟨s, hs, c, hc, hlen⟩ : ∃ s,
      exec (step allPositive) (start oneOfOneParams) droppedRun = some s ∧
        ∃ c ∈ s.closed, c.pushed.length ≠ c.emitted.length := exists_exec_of_any (by decide +kernel)
  exact ⟨s, hs, fun h => hlen (h c hc).length_eq⟩

/-! ## The thresholds of the confirmer -/

/-- The thresholds that the update sets are in order, together with those that it keeps. -/
def InOrder (p : LiveParams) (u : ConfigUpdate) : Prop :=
  (u.confirmK > 0 → u.confirmN > 0 → u.confirmK ≤ u.confirmN) ∧
    (u.confirmK > 0 → u.confirmN = 0 → u.confirmK ≤ p.confirmN) ∧
      (u.confirmK = 0 → u.confirmN > 0 → p.confirmK ≤ u.confirmN)

instance (p : LiveParams) (u : ConfigUpdate) : Decidable (InOrder p u) :=
  inferInstanceAs (Decidable ((_ → _ → _) ∧ (_ → _ → _) ∧ (_ → _ → _)))

/-- An update that is applied has its thresholds in order. -/
def AppliesInOrder (s : VideoProducer) : ProducerAct → Prop
  | .drain _ _ => ∀ t ∈ s.phase.turn?, t.pc = .polling → s.config.slot.pendingSet = true →
      InOrder s.config.state s.config.slot.pending
  | _ => True

instance (s : VideoProducer) : ∀ a, Decidable (s.AppliesInOrder a)
  | .drain _ _ => inferInstanceAs (Decidable (∀ t ∈ s.phase.turn?, _ → _ → _))
  | .receive _ | .build _ _ _ | .capture | .infer _ => .isTrue trivial

/-- The thresholds are valid. -/
def ValidParams (p : LiveParams) : Prop :=
  KOfNConfirmer.ValidThreshold p.confirmK p.confirmN

theorem validParams_apply_iff {p : LiveParams} {u : ConfigUpdate} (hp : ValidParams p) :
    ValidParams (.apply .video p u) ↔ InOrder p u := by
  have hzero : ∀ x : UInt32, x = 0 ↔ ¬ x > 0 := fun x => by
    rw [gt_iff_lt, UInt32.lt_iff_toNat_lt, ← UInt32.toNat_inj, UInt32.toNat_zero]
    omega
  have hone : ∀ x : UInt32, x > 0 → 1 ≤ x := fun x hx => by
    rw [gt_iff_lt, UInt32.lt_iff_toNat_lt, UInt32.toNat_zero] at hx
    rw [UInt32.le_iff_toNat_le, UInt32.toNat_one]
    omega
  obtain ⟨hpk, hpkn⟩ := hp
  by_cases hk : u.confirmK > 0 <;> by_cases hn : u.confirmN > 0 <;>
    simp [ValidParams, KOfNConfirmer.ValidThreshold, LiveParams.apply, InOrder, hzero, hk, hn,
      hone, hpk, hpkn]

/-- The thresholds are valid now and at every rebuild so far. -/
structure ValidSoFar (s : VideoProducer) : Prop where
  current : ValidParams s.config.state
  built : ∀ kn ∈ s.built, KOfNConfirmer.ValidThreshold kn.1 kn.2
  running : s.phase.isAborted = false

theorem ValidSoFar.turnStep {t : Turn} {left : ConfirmedEvent} {now : ℤ} (hs : s.ValidSoFar)
    (hok : t.pc = .polling → s.config.slot.pendingSet = true →
      InOrder s.config.state s.config.slot.pending)
    (h : s.turnStep t left now = some s') : s'.ValidSoFar := by
  unfold VideoProducer.turnStep at h
  split at h
  · next hpc =>
    obtain ⟨config, hconfig, rfl⟩ := Option.map_eq_some_iff.1 h
    refine ⟨?_, hs.built, rfl⟩
    simp only [ConfigState.step, SlotRun.step] at hconfig
    split_ifs at hconfig with hset
    · cases hconfig
      exact (validParams_apply_iff hs.current).2 (hok hpc hset)
    · cases hconfig
      exact hs.current
  · next configChanged hpc =>
    obtain ⟨-, h⟩ := Option.ite_none_right_eq_some.1 h
    cases h
    exact ⟨hs.current, hs.built, by cases configChanged <;> rfl⟩
  · obtain ⟨u, -, rfl⟩ := Option.map_eq_some_iff.1 h
    exact ⟨hs.current, hs.built, rfl⟩

theorem ValidSoFar.pipelineStep {a : EdgeAct} (hs : s.ValidSoFar)
    (h : s.pipelineStep detector a = some s') : s'.ValidSoFar := by
  unfold VideoProducer.pipelineStep at h
  split at h
  · obtain ⟨pipeline, -, rfl⟩ := Option.map_eq_some_iff.1 h
    exact ⟨hs.current, hs.built, rfl⟩
  · cases h

theorem validSoFar_step (s : VideoProducer) (a : ProducerAct) (s' : VideoProducer)
    (hs : s.ValidSoFar) (hok : s.AppliesInOrder a) (h : s.step detector a = some s') :
    s'.ValidSoFar := by
  cases a with
  | receive u =>
    simp only [step] at h
    obtain ⟨config, hconfig, rfl⟩ := Option.map_eq_some_iff.1 h
    cases hconfig
    exact ⟨hs.current, hs.built, hs.running⟩
  | build source slots eventSlots =>
    simp only [step] at h
    split at h
    · cases h
      refine ⟨hs.current, List.forall_mem_append.2 ⟨hs.built, ?_⟩, ?_⟩
      · exact List.forall_mem_singleton.2 hs.current
      · simp only [build]
        split
        · rfl
        · next hnone => exact absurd hs.current (KOfNConfirmer.create_eq_none_iff.1 hnone)
    · cases h
  | capture => exact hs.pipelineStep h
  | infer now => exact hs.pipelineStep h
  | drain left now =>
    simp only [step] at h
    split at h
    · next t hphase =>
      exact hs.turnStep (hok t (by simp [hphase, ProducerPhase.turn?])) h
    · cases h

/-- For every `--k` and `--n` with `1 ≤ k ≤ n`, in every run in which each update, as it is
applied, has its thresholds in order, every pipeline is built with `1 ≤ k ≤ n`, and the
constructor of the confirmer does not abort. -/
theorem rebuilds_valid {p : LiveParams} (hk : 1 ≤ p.confirmK) (hkn : p.confirmK ≤ p.confirmN)
    {as : List ProducerAct} (hok : Guarded (step detector) AppliesInOrder (start p) as)
    (h : exec (step detector) (start p) as = some s) :
    (∀ kn ∈ s.built, 1 ≤ kn.1 ∧ kn.1 ≤ kn.2) ∧ s.phase.isAborted = false := by
  have hvalid : s.ValidSoFar :=
    exec_invariant_guarded validSoFar_step ⟨⟨hk, hkn⟩, by simp [start], rfl⟩ hok h
  exact ⟨hvalid.built, hvalid.running⟩

theorem rebuilds_valid_drainedRun : ∃ s,
    exec (step allPositive) (start oneOfOneParams) (drainedRun ++ [buildOne]) = some s ∧
      s.built = [(1, 1), (1, 5)] ∧
        (∀ kn ∈ s.built, 1 ≤ kn.1 ∧ kn.1 ≤ kn.2) ∧ s.phase.isAborted = false := by
  obtain ⟨s, hs, hbuilt⟩ : ∃ s,
      exec (step allPositive) (start oneOfOneParams) (drainedRun ++ [buildOne]) = some s ∧
        s.built = [(1, 1), (1, 5)] := exists_exec_of_any (by decide +kernel)
  exact ⟨s, hs, hbuilt, rebuilds_valid (by decide) (by decide) (by decide +kernel) hs⟩

/-- A file that asks for `confirm_k` alone. -/
def raiseK : Bytes :=
  ascii "cam-0001,1,7,0,0,0\n"

/-- What the gateway pushes then. -/
def raiseKUpdate : ConfigUpdate :=
  ⟨1, 0, 7, 0, 0⟩

/-- The update is applied before the first frame, and the pipeline is built again. -/
def abortedRun : List ProducerAct :=
  [buildOne, .receive raiseKUpdate] ++ List.replicate 5 (.drain noEvent 10) ++
    List.replicate 2 .capture ++ List.replicate 4 (.infer 20) ++
      [.drain noEvent 30, .drain noEvent 30, buildOne]

/-- The gateway answers the first heartbeat with the update of its file, and `confirm_k` is then
above the `--n` that is kept. -/
theorem update_aborts :
    (Stream.onHeartbeat ⟨false, false, false, true⟩ { deviceId := ascii "cam-0001" } ⟨0, 0, 0⟩
      { desired := loadDesiredConfigs (fun _ => 0) (some raiseK) }).sent =
        some (.config raiseKUpdate) ∧
      ∃ s, exec (step allPositive) (start ⟨3, 5, 3 / 10, 5⟩) abortedRun = some s ∧
        s.built = [(3, 5), (7, 5)] ∧ s.phase.isAborted = true :=
  ⟨by decide +kernel, exists_exec_of_any (by decide +kernel)⟩

end VideoProducer

end Ridgeline
