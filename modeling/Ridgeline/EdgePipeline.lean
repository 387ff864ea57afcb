import Mathlib.Data.Rat.Defs
import Ridgeline.KOfNConfirmer
import Ridgeline.RingBuffer

/-!
# The edge pipeline

`EdgePipeline` : the loop that captures frames and the loop that runs inference on them,
with the ring of four slots between them. Each access to something that the threads share
is a step; the calls of the ring are made one access at a time, as in `RingBuffer`. The
inference loop pushes confirmed events into the ring of the caller, who pops from it in
any way. `Complete` is what the pipeline is to have done with the frames when it has
finished. Each loop changes only its own variables and its side of a ring
(`captureStep_cases`, `inferStep_cases`).
-/

namespace Ridgeline

/-! ## Frames and events -/

/-- `PixelFormat`. -/
inductive PixelFormat
  | unknown
  | bgr24
  deriving DecidableEq, Repr

/-- `Frame`, with the used bytes of its data. -/
structure Frame where
  width : UInt32 := 0
  height : UInt32 := 0
  format : PixelFormat := .unknown
  captureTimeUnixNs : ℤ := 0
  frameIndex : UInt64 := 0
  data : Bytes := []
  deriving DecidableEq, Repr

/-- `DetectionResult`. -/
structure DetectionResult where
  positive : Bool := false
  confidence : ℚ := 0
  xMin : ℚ := 0
  yMin : ℚ := 0
  xMax : ℚ := 0
  yMax : ℚ := 0
  deriving DecidableEq, Repr

/-- `ConfirmedEvent`. -/
structure ConfirmedEvent where
  frameIndex : UInt64
  confidence : ℚ
  xMin : ℚ
  yMin : ℚ
  xMax : ℚ
  yMax : ℚ
  captureTimeUnixNs : ℤ
  decidedTimeUnixNs : ℤ
  framesConfirmed : UInt32
  windowSize : UInt32
  deriving DecidableEq, Repr

/-- The event of a frame that is confirmed. -/
def ConfirmedEvent.of (f : Frame) (r : DetectionResult) (c : KOfNConfirmer) (now : ℤ) :
    ConfirmedEvent where
  frameIndex := f.frameIndex
  confidence := r.confidence
  xMin := r.xMin
  yMin := r.yMin
  xMax := r.xMax
  yMax := r.yMax
  captureTimeUnixNs := f.captureTimeUnixNs
  decidedTimeUnixNs := now
  framesConfirmed := c.positiveCount
  windowSize := UInt32.ofNat c.window.length

/-- The mode, and the detector. -/
structure EdgeConfig where
  realtime : Bool
  detect : Frame → DetectionResult

/-- `kFrameRingSlots`. -/
def frameRingSlots : Capacity :=
  ⟨4, by decide, by decide, by decide⟩

/-- The slots of the caller's ring of events. -/
def eventRingSlots : Capacity :=
  ⟨256, by decide, by decide, by decide⟩

/-! ## The two loops -/

/-- `CaptureLoop` : at the head of the loop, before `TryPushWith` and in it, with the two
flags that its callback sets, before a frame is counted, before a frame is decoded to be
dropped, and behind the loop. -/
inductive CapturePc
  | top
  | entering
  | pushing (fillRan gotFrame : Bool)
  | captured
  | dropping
  | dropped
  | ending
  | ended
  deriving DecidableEq, Repr

/-- `InferenceLoop` : in the condition of the loop, at the check for a stop, before
`TryPopWith` and in it, in its callback `process`, and behind the loop. `SizeApprox` loads
the tail before the head. -/
inductive InferPc
  | test
  | sizeTail
  | sizeHead (tail : ℕ)
  | body
  | stopTail
  | stopHead (tail : ℕ)
  | entering
  | popping
  | counting (f : Frame) (r : DetectionResult) (nowConfirmed : Bool)
  | emitting (ev : ConfirmedEvent)
  | pushingEvent
  | releasing
  | finishing
  | ended
  deriving DecidableEq, Repr

/-- The frames that the source still has, the two rings, the two threads, the atomics, the
frames the source has delivered, each with whether it was for the ring, and the frames
passed to `process`. -/
structure EdgePipeline where
  source : List Frame
  frames : RingBuffer Frame
  events : RingBuffer ConfirmedEvent
  capture : CapturePc := .top
  infer : InferPc := .test
  confirmer : KOfNConfirmer
  wasConfirmed : Bool := false
  stopRequested : Bool := false
  captureDone : Bool := false
  finished : Bool := false
  framesCaptured : UInt64 := 0
  framesDropped : UInt64 := 0
  framesProcessed : UInt64 := 0
  delivered : List (Frame × Bool) := []
  processed : List Frame := []

/-- A step of one of the loops, `infer` with a reading of the clock, a step of the caller
on the ring of events, or the request to stop. -/
inductive EdgeAct
  | capture
  | infer (now : ℤ)
  | drain (a : PopAct ConfirmedEvent)
  | requestStop

/-- Where `CaptureLoop` goes on when `TryPushWith` has returned. -/
def afterPush (realtime published fillRan gotFrame : Bool) : CapturePc :=
  if published then .captured
  else if fillRan && !gotFrame then .ending
  else if realtime then .dropping
  else .top

namespace EdgePipeline

variable (cfg : EdgeConfig)

/-- An access of `TryPushWith`. -/
def pushFrame (s : EdgePipeline) (fillRan gotFrame : Bool) (a : PushAct Frame) :
    Option EdgePipeline :=
  (s.frames.pushStep frameRingSlots a).map fun ring =>
    { s with
      frames := ring
      capture :=
        match ring.producer with
        | .idle (some published) => afterPush cfg.realtime published fillRan gotFrame
        | _ => .pushing fillRan gotFrame }

/-- A step of `CaptureLoop`. -/
def captureStep (s : EdgePipeline) : Option EdgePipeline :=
  match s.capture with
  | .top => some { s with capture := if s.stopRequested then .ending else .entering }
  | .entering => s.pushFrame cfg false false (.loadTail .tryPushWith)
  | .pushing fillRan gotFrame =>
    match s.frames.producer with
    | .loadedTail _ _ => s.pushFrame cfg fillRan gotFrame .loadHead
    | .hasRoom _ tail =>
      match s.source with
      | [] => s.pushFrame cfg true false (.fill (s.frames.slots tail) false)
      | f :: rest =>
        pushFrame cfg { s with source := rest, delivered := s.delivered ++ [(f, true)] } true true
          (.fill f true)
    | .written _ _ => s.pushFrame cfg fillRan gotFrame .storeTail
    | .idle _ => none
  | .captured => some { s with framesCaptured := s.framesCaptured + 1, capture := .top }
  | .dropping =>
    match s.source with
    | [] => some { s with capture := .ending }
    | f :: rest =>
      some { s with source := rest, delivered := s.delivered ++ [(f, false)], capture := .dropped }
  | .dropped => some { s with framesDropped := s.framesDropped + 1, capture := .top }
  | .ending => some { s with captureDone := true, capture := .ended }
  | .ended => none

/-- `out_events_.TryPush`, one access at a time. -/
def pushEvent (s : EdgePipeline) (a : PushAct ConfirmedEvent) : Option EdgePipeline :=
  (s.events.pushStep eventRingSlots a).map fun ring =>
    { s with
      events := ring
      infer :=
        match ring.producer with
        | .idle _ => .releasing
        | _ => .pushingEvent }

/-- A step of `InferenceLoop`. -/
def inferStep (s : EdgePipeline) (now : ℤ) : Option EdgePipeline :=
  match s.infer with
  | .test => some { s with infer := if s.captureDone then .sizeTail else .body }
  | .sizeTail => some { s with infer := .sizeHead s.frames.tail }
  | .sizeHead tail =>
    some { s with
      infer :=
        if RingBuffer.sizeApprox frameRingSlots tail s.frames.head > 0 then .body else .finishing }
  | .body => some { s with infer := if s.stopRequested then .stopTail else .entering }
  | .stopTail => some { s with infer := .stopHead s.frames.tail }
  | .stopHead tail =>
    some { s with
      infer :=
        if RingBuffer.sizeApprox frameRingSlots tail s.frames.head = 0 then .finishing
        else .entering }
  | .entering =>
    (s.frames.popStep frameRingSlots .loadHead).map fun ring =>
      { s with frames := ring, infer := .popping }
  | .popping =>
    match s.frames.consumer with
    | .loadedHead _ =>
      (s.frames.popStep frameRingSlots .loadTail).map fun ring =>
        { s with
          frames := ring
          infer :=
            match ring.consumer with
            | .idle _ => .test
            | _ => .popping }
    | .nonEmpty head =>
      let f := s.frames.slots head
      let updated := s.confirmer.update (cfg.detect f).positive
      (s.frames.popStep frameRingSlots (.access f)).map fun ring =>
        { s with
          frames := ring
          confirmer := updated.2
          processed := s.processed ++ [f]
          infer := .counting f (cfg.detect f) updated.1 }
    | _ => none
  | .counting f r nowConfirmed =>
    some { s with
      framesProcessed := s.framesProcessed + 1
      wasConfirmed := nowConfirmed
      infer :=
        if nowConfirmed && !s.wasConfirmed then .emitting (.of f r s.confirmer now)
        else .releasing }
  | .emitting ev => s.pushEvent (.loadTail (.tryPush ev))
  | .pushingEvent =>
    match s.events.producer with
    | .loadedTail _ _ => s.pushEvent .loadHead
    | .hasRoom _ _ => s.pushEvent .assign
    | .written _ _ => s.pushEvent .storeTail
    | .idle _ => none
  | .releasing =>
    (s.frames.popStep frameRingSlots .storeHead).map fun ring =>
      { s with frames := ring, infer := .test }
  | .finishing => some { s with finished := true, infer := .ended }
  | .ended => none

/-- One step. -/
def step (s : EdgePipeline) : EdgeAct → Option EdgePipeline
  | .capture => s.captureStep cfg
  | .infer now => s.inferStep cfg now
  | .drain a => (s.events.popStep eventRingSlots a).map fun ring => { s with events := ring }
  | .requestStop => some { s with stopRequested := true }

/-- The two threads are started. -/
def start (source : List Frame) (slots : ℕ → Frame) (eventSlots : ℕ → ConfirmedEvent)
    (confirmer : KOfNConfirmer) : EdgePipeline where
  source := source
  frames := .start slots
  events := .start eventSlots
  confirmer := confirmer

/-- What the pipeline has done with the frames of the source when it has finished. -/
structure Complete (input : List Frame) (s : EdgePipeline) : Prop where
  /-- The frames published are processed, in order and each once. -/
  processed : s.processed = s.frames.published.map Prod.snd
  counted : s.framesProcessed = s.framesCaptured
  /-- The source has delivered all its frames. -/
  delivered : s.delivered.map Prod.fst = input
  /-- Those for the ring are the ones published. -/
  published : (s.delivered.filter Prod.snd).map Prod.fst = s.frames.published.map Prod.snd
  /-- A frame is counted as captured if it was for the ring, and as dropped if not. -/
  captured : s.framesCaptured = UInt64.ofNat (s.delivered.countP (·.2))
  dropped : s.framesDropped = UInt64.ofNat (s.delivered.countP (!·.2))
  /-- Offline, no frame is dropped and all are processed. -/
  offline : cfg.realtime = false → s.framesDropped = 0 ∧ s.processed = input

/-! ## What a step changes -/

section Steps

variable {cfg} {s t : EdgePipeline}

/-- `CaptureLoop` acts on the ring of frames as its producer, and changes only its own
variables. -/
theorem captureStep_cases (h : s.captureStep cfg = some t) :
    ∃ source frames capture captureDone framesCaptured framesDropped delivered,
      t = { s with
        source, frames, capture, captureDone, framesCaptured, framesDropped, delivered } ∧
      (frames = s.frames ∨ ∃ a, s.frames.pushStep frameRingSlots a = some frames) := by
  unfold captureStep at h
  cases hc : s.capture with
  | entering =>
    rw [hc] at h
    obtain ⟨ring, hpush, rfl⟩ := Option.map_eq_some_iff.1 h
    exact ⟨_, _, _, _, _, _, _, rfl, .inr ⟨_, hpush⟩⟩
  | pushing fillRan gotFrame =>
    simp only [hc] at h
    split at h
    · obtain ⟨ring, hpush, rfl⟩ := Option.map_eq_some_iff.1 h
      exact ⟨_, _, _, _, _, _, _, rfl, .inr ⟨_, hpush⟩⟩
    · split at h <;> obtain ⟨ring, hpush, rfl⟩ := Option.map_eq_some_iff.1 h <;>
        exact ⟨_, _, _, _, _, _, _, rfl, .inr ⟨_, hpush⟩⟩
    · obtain ⟨ring, hpush, rfl⟩ := Option.map_eq_some_iff.1 h
      exact ⟨_, _, _, _, _, _, _, rfl, .inr ⟨_, hpush⟩⟩
    · cases h
  | dropping =>
    simp only [hc] at h
    split at h <;> cases h <;> exact ⟨_, _, _, _, _, _, _, rfl, .inl rfl⟩
  | ended =>
    rw [hc] at h
    cases h
  | top | captured | dropped | ending =>
    rw [hc] at h
    cases h
    exact ⟨_, _, _, _, _, _, _, rfl, .inl rfl⟩

/-- `InferenceLoop` acts on the ring of frames as its consumer, or on the ring of events as its
producer, and changes only its own variables. It has not ended before a step, and has when it
announces that. -/
theorem inferStep_cases {now : ℤ} (h : s.inferStep cfg now = some t) :
    s.infer ≠ .ended ∧
      ∃ frames events infer confirmer wasConfirmed finished framesProcessed processed,
        t = { s with
          frames, events, infer, confirmer, wasConfirmed, finished, framesProcessed, processed } ∧
        (finished = s.finished ∨ infer = .ended) ∧
        (frames = s.frames ∨ ∃ a, s.frames.popStep frameRingSlots a = some frames) ∧
        (events = s.events ∨ ∃ a, s.events.pushStep eventRingSlots a = some events) := by
  unfold inferStep at h
  cases hpc : s.infer with
  | entering | releasing =>
    rw [hpc] at h
    obtain ⟨ring, hpop, rfl⟩ := Option.map_eq_some_iff.1 h
    exact ⟨nofun, _, _, _, _, _, _, _, _, rfl, .inl rfl, .inr ⟨_, hpop⟩, .inl rfl⟩
  | popping =>
    simp only [hpc] at h
    split at h
    on_goal 3 => cases h
    all_goals
      obtain ⟨ring, hpop, rfl⟩ := Option.map_eq_some_iff.1 h
      exact ⟨nofun, _, _, _, _, _, _, _, _, rfl, .inl rfl, .inr ⟨_, hpop⟩, .inl rfl⟩
  | emitting ev =>
    rw [hpc] at h
    obtain ⟨ring, hpush, rfl⟩ := Option.map_eq_some_iff.1 h
    exact ⟨nofun, _, _, _, _, _, _, _, _, rfl, .inl rfl, .inl rfl, .inr ⟨_, hpush⟩⟩
  | pushingEvent =>
    simp only [hpc] at h
    split at h
    on_goal 4 => cases h
    all_goals
      obtain ⟨ring, hpush, rfl⟩ := Option.map_eq_some_iff.1 h
      exact ⟨nofun, _, _, _, _, _, _, _, _, rfl, .inl rfl, .inl rfl, .inr ⟨_, hpush⟩⟩
  | finishing =>
    rw [hpc] at h
    cases h
    exact ⟨nofun, _, _, _, _, _, _, _, _, rfl, .inr rfl, .inl rfl, .inl rfl⟩
  | ended =>
    rw [hpc] at h
    cases h
  | test | sizeTail | sizeHead | body | stopTail | stopHead | counting =>
    rw [hpc] at h
    cases h
    exact ⟨nofun, _, _, _, _, _, _, _, _, rfl, .inl rfl, .inl rfl, .inl rfl⟩

end Steps

end EdgePipeline

end Ridgeline
