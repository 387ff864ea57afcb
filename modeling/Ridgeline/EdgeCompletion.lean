import Ridgeline.EdgePipeline

/-!
# The edge pipeline processes every frame

Each of the two loops has its own invariant : `Kept` and `Produced` say what the capture loop
has done with the frames of the source and how it has counted them, `Consumed` what the
inference loop has done with those published. A step of one loop leaves what the other's invariant
is about (`SameInference`, `SameCapture`), except that the capture loop publishes.

Unless a stop is requested, the inference loop ends only after it has seen first that the
capture loop is done and then that the ring is empty (`Seen`). The capture loop takes no step
once it is done, so all that was published has been processed (`processes_every_frame`).
-/

namespace Ridgeline

/-! ## The capture loop -/

/-- The ring is in a call exactly while `CaptureLoop` is in `TryPushWith`; the callback runs
when there is room, and has got a frame when the slot is to be published. -/
def CapturePc.Fits : CapturePc → PushPc Frame → Prop
  | .pushing fillRan _, .loadedTail call _ => call = .tryPushWith ∧ fillRan = false
  | .pushing fillRan _, .hasRoom call _ => call = .tryPushWith ∧ fillRan = false
  | .pushing _ _, .written _ _ => True
  | .pushing _ _, .idle _ => False
  | _, pc => ∃ r, pc = .idle r

/-- A frame is published and not counted yet. -/
def CapturePc.uncaptured : CapturePc → UInt64
  | .captured => 1
  | _ => 0

/-- A frame is decoded to be dropped and not counted yet. -/
def CapturePc.undropped : CapturePc → UInt64
  | .dropped => 1
  | _ => 0

/-- There is no frame to be counted, and the loop has not ended. -/
def CapturePc.Plain : CapturePc → Prop
  | .captured | .dropped | .ended => False
  | _ => True

namespace CapturePc.Plain

variable {pc : CapturePc} (h : pc.Plain)
include h

theorem uncaptured : pc.uncaptured = 0 := by
  cases pc <;> first | rfl | exact h.elim

theorem undropped : pc.undropped = 0 := by
  cases pc <;> first | rfl | exact h.elim

theorem ne_dropped : pc ≠ .dropped := by
  rintro rfl
  exact h

theorem ne_ended : pc ≠ .ended := by
  rintro rfl
  exact h

end CapturePc.Plain

namespace EdgePipeline

variable {cfg : EdgeConfig} {input : List Frame} {s t : EdgePipeline}

/-- The frame that is in its slot but not published yet. -/
def unpublished (ring : RingBuffer Frame) : List Frame :=
  match ring.producer with
  | .written _ item => [item]
  | _ => []

/-- What the callback of `TryPushWith` leaves in a slot to be published. -/
def filled : PushAct Frame → List Frame
  | .fill f true => [f]
  | _ => []

/-- A frame is in the ring from the return of the callback on. -/
theorem unpublished_pushStep {ring ring' : RingBuffer Frame} {a : PushAct Frame}
    (h : ring.pushStep frameRingSlots a = some ring') (ha : a ≠ .assign) :
    ring'.published.map Prod.snd ++ unpublished ring' =
      ring.published.map Prod.snd ++ unpublished ring ++ filled a := by
  rcases RingBuffer.pushStep_cases h with ⟨_, _, hp, rfl, rfl⟩ | ⟨_, _, hp, rfl, -, rfl⟩ |
    ⟨_, _, hp, rfl, -, rfl⟩ | ⟨_, _, -, rfl, -⟩ | ⟨_, _, ok, hp, rfl, rfl⟩ | ⟨_, _, hp, rfl, rfl⟩
  · simp [unpublished, filled, hp]
  · simp [unpublished, filled, hp]
  · simp [unpublished, filled, hp]
  · exact absurd rfl ha
  · cases ok <;> simp [unpublished, filled, hp]
  · simp [unpublished, filled, hp]

/-- The source has delivered the first of its frames, and those for the ring are in the ring,
or were. -/
structure Kept (input : List Frame) (s : EdgePipeline) : Prop where
  delivered : s.delivered.map Prod.fst ++ s.source = input
  kept : (s.delivered.filter Prod.snd).map Prod.fst =
    s.frames.published.map Prod.snd ++ unpublished s.frames

/-- An access of `TryPushWith`, where what the callback leaves in a slot has just been delivered. -/
theorem kept_pushFrame {fillRan gotFrame : Bool} {a : PushAct Frame}
    (hdelivered : s.delivered.map Prod.fst ++ s.source = input)
    (hkept : (s.delivered.filter Prod.snd).map Prod.fst =
      s.frames.published.map Prod.snd ++ unpublished s.frames ++ filled a)
    (ha : a ≠ .assign) (h : s.pushFrame cfg fillRan gotFrame a = some t) : t.Kept input := by
  obtain ⟨ring, hpush, rfl⟩ := Option.map_eq_some_iff.1 h
  exact ⟨hdelivered, hkept.trans (unpublished_pushStep hpush ha).symm⟩

theorem Kept.push (hs : s.Kept input) {fillRan gotFrame : Bool} {a : PushAct Frame}
    (hfilled : filled a = []) (ha : a ≠ .assign)
    (h : s.pushFrame cfg fillRan gotFrame a = some t) : t.Kept input :=
  kept_pushFrame hs.delivered (by rw [hfilled, List.append_nil, hs.kept]) ha h

theorem Kept.captureStep (hs : s.Kept input) (h : s.captureStep cfg = some t) : t.Kept input := by
  unfold EdgePipeline.captureStep at h
  cases hc : s.capture with
  | entering =>
    rw [hc] at h
    exact hs.push rfl (by simp) h
  | pushing fillRan gotFrame =>
    simp only [hc] at h
    split at h
    · exact hs.push rfl (by simp) h
    · split at h
      · exact hs.push rfl (by simp) h
      · next f rest hsource =>
        refine kept_pushFrame ?_ ?_ (by simp) h
        · simpa [hsource] using hs.delivered
        · simp [hs.kept, filled]
    · exact hs.push rfl (by simp) h
    · cases h
  | dropping =>
    simp only [hc] at h
    split at h
    · cases h
      exact ⟨hs.delivered, hs.kept⟩
    · next f rest hsource =>
      cases h
      exact ⟨by simpa [hsource] using hs.delivered, by simpa using hs.kept⟩
  | ended =>
    rw [hc] at h
    cases h
  | top | captured | dropped | ending =>
    rw [hc] at h
    cases h
    exact ⟨hs.delivered, hs.kept⟩

/-- How `CaptureLoop` has counted the frames of the source. -/
structure Produced (cfg : EdgeConfig) (s : EdgePipeline) : Prop where
  captured : s.framesCaptured + s.capture.uncaptured = UInt64.ofNat s.frames.published.length
  dropped : s.framesDropped + s.capture.undropped = UInt64.ofNat (s.delivered.countP (!·.2))
  offline : cfg.realtime = false →
    s.capture ≠ .dropping ∧ s.capture ≠ .dropped ∧ s.delivered.countP (!·.2) = 0
  producer : s.capture.Fits s.frames.producer
  exhausted : s.capture = .ending ∨ s.capture = .ended → s.source = []
  done : s.captureDone = true → s.capture = .ended

theorem produced_start (input : List Frame) (slots : ℕ → Frame) (eventSlots : ℕ → ConfirmedEvent)
    (confirmer : KOfNConfirmer) : (start input slots eventSlots confirmer).Produced cfg where
  captured := rfl
  dropped := rfl
  offline := fun _ => ⟨by simp [start], by simp [start], rfl⟩
  producer := ⟨none, rfl⟩
  exhausted := by simp [start]
  done := by simp [start]

/-- `CaptureLoop` moves on without a frame. -/
theorem Produced.move (hs : s.Produced cfg) (ring : RingBuffer Frame) (pc : CapturePc)
    (hfrom : s.capture.Plain) (hto : pc.Plain) (hring : ring.published = s.frames.published)
    (hfits : pc.Fits ring.producer)
    (hend : pc = .ending → s.source = []) (hdrop : cfg.realtime = false → pc ≠ .dropping) :
    Produced cfg { s with frames := ring, capture := pc } where
  captured := by rw [hring, ← hs.captured, hfrom.uncaptured, hto.uncaptured]
  dropped := by rw [← hs.dropped, hfrom.undropped, hto.undropped]
  offline := fun h => ⟨hdrop h, hto.ne_dropped, (hs.offline h).2.2⟩
  producer := hfits
  exhausted := fun h => hend (h.resolve_right hto.ne_ended)
  done := fun h => absurd (hs.done h) hfrom.ne_ended

/-- The frame is written to its slot. -/
theorem Produced.fill (hs : s.Produced cfg) {f : Frame} {rest : List Frame} {tail : ℕ}
    {a b : Bool}
    (hc : s.capture = .pushing a b) : Produced cfg { s with
      source := rest
      delivered := s.delivered ++ [(f, true)]
      frames := { s.frames with
        slots := Function.update s.frames.slots tail f
        producer := .written tail f }
      capture := .pushing true true } where
  captured := by simpa [hc, CapturePc.uncaptured] using hs.captured
  dropped := by simpa [hc, CapturePc.undropped] using hs.dropped
  offline := fun h => ⟨nofun, nofun, by simpa using (hs.offline h).2.2⟩
  producer := trivial
  exhausted := by simp
  done := fun h => absurd (hs.done h) (by simp [hc])

/-- The frame is published. -/
theorem Produced.publish (hs : s.Produced cfg) {tail tail' : ℕ} {item : Frame} {a b : Bool}
    (hc : s.capture = .pushing a b) :
    Produced cfg { s with
      frames := { s.frames with
        tail := tail'
        producer := .idle (some true)
        published := s.frames.published ++ [(tail, item)] }
      capture := .captured } where
  captured := by
    have := hs.captured
    rw [hc] at this
    simp [CapturePc.uncaptured, ← this, UInt64.ofNat_add]
  dropped := by simpa [hc, CapturePc.undropped] using hs.dropped
  offline := fun h => ⟨nofun, nofun, (hs.offline h).2.2⟩
  producer := ⟨_, rfl⟩
  exhausted := by simp
  done := fun h => absurd (hs.done h) (by simp [hc])

/-- The published frame is counted. -/
theorem Produced.count (hs : s.Produced cfg) (hc : s.capture = .captured) :
    Produced cfg { s with framesCaptured := s.framesCaptured + 1, capture := .top } where
  captured := by simpa [hc, CapturePc.uncaptured] using hs.captured
  dropped := by simpa [hc, CapturePc.undropped] using hs.dropped
  offline := fun h => ⟨nofun, nofun, (hs.offline h).2.2⟩
  producer := by simpa [hc, CapturePc.Fits] using hs.producer
  exhausted := by simp
  done := fun h => absurd (hs.done h) (by simp [hc])

/-- A frame is decoded to be dropped. -/
theorem Produced.drop (hs : s.Produced cfg) {f : Frame} {rest : List Frame}
    (hc : s.capture = .dropping) : Produced cfg { s with
      source := rest
      delivered := s.delivered ++ [(f, false)]
      capture := .dropped } where
  captured := by simpa [hc, CapturePc.uncaptured] using hs.captured
  dropped := by
    have := hs.dropped
    rw [hc] at this
    simp [CapturePc.undropped, ← this, UInt64.ofNat_add]
  offline := fun h => absurd hc (hs.offline h).1
  producer := by simpa [hc, CapturePc.Fits] using hs.producer
  exhausted := by simp
  done := fun h => absurd (hs.done h) (by simp [hc])

/-- The dropped frame is counted. -/
theorem Produced.countDrop (hs : s.Produced cfg) (hc : s.capture = .dropped) :
    Produced cfg { s with framesDropped := s.framesDropped + 1, capture := .top } where
  captured := by simpa [hc, CapturePc.uncaptured] using hs.captured
  dropped := by simpa [hc, CapturePc.undropped] using hs.dropped
  offline := fun h => absurd hc (hs.offline h).2.1
  producer := by simpa [hc, CapturePc.Fits] using hs.producer
  exhausted := by simp
  done := fun h => absurd (hs.done h) (by simp [hc])

/-- The end of the capture loop is announced. -/
theorem Produced.finish (hs : s.Produced cfg) (hc : s.capture = .ending) :
    Produced cfg { s with captureDone := true, capture := .ended } where
  captured := by simpa [hc, CapturePc.uncaptured] using hs.captured
  dropped := by simpa [hc, CapturePc.undropped] using hs.dropped
  offline := fun h => ⟨nofun, nofun, (hs.offline h).2.2⟩
  producer := by simpa [hc, CapturePc.Fits] using hs.producer
  exhausted := fun _ => hs.exhausted (.inl hc)
  done := fun _ => rfl

/-- A step inside `TryPushWith`. -/
theorem Produced.pushing (hs : s.Produced cfg) {fillRan gotFrame : Bool}
    (hc : s.capture = .pushing fillRan gotFrame) (h : s.captureStep cfg = some t) :
    t.Produced cfg := by
  have hplain : s.capture.Plain := by simp [hc, CapturePc.Plain]
  have hfits := hs.producer
  rw [hc] at hfits
  simp only [captureStep, hc] at h
  split at h
  · next call tail hp =>
    rw [hp] at hfits
    obtain ⟨rfl, rfl⟩ := hfits
    simp only [pushFrame, RingBuffer.pushStep, hp] at h
    split_ifs at h with hfull
    · simp only [Option.map_some, Option.some.injEq] at h
      subst h
      refine hs.move _ _ hplain ?_ rfl ?_ ?_ ?_
      all_goals cases hr : cfg.realtime
      all_goals simp [afterPush, CapturePc.Plain, CapturePc.Fits]
    · simp only [Option.map_some, Option.some.injEq] at h
      subst h
      exact hs.move _ _ hplain trivial rfl ⟨rfl, rfl⟩ nofun nofun
  · next call tail hp =>
    rw [hp] at hfits
    obtain ⟨rfl, rfl⟩ := hfits
    split at h
    · next hsource =>
      simp only [pushFrame, RingBuffer.pushStep, hp, Option.map_some, Option.some.injEq] at h
      subst h
      exact hs.move _ .ending hplain trivial rfl ⟨_, rfl⟩
        (fun _ => hsource) nofun
    · next f rest hsource =>
      simp only [pushFrame, RingBuffer.pushStep, hp, Option.map_some, Option.some.injEq] at h
      subst h
      exact hs.fill hc
  · next tail item hp =>
    simp only [pushFrame, RingBuffer.pushStep, hp, Option.map_some, Option.some.injEq] at h
    subst h
    exact hs.publish hc
  · cases h

theorem produced_captureStep (hs : s.Produced cfg) (hrun : s.stopRequested = false)
    (h : s.captureStep cfg = some t) : t.Produced cfg := by
  have hfits := hs.producer
  have hstep := h
  unfold captureStep at h
  cases hc : s.capture with
  | top =>
    simp only [hc] at h
    rw [if_neg (by simp [hrun])] at h
    cases h
    rw [hc] at hfits
    exact hs.move s.frames .entering (by simp [hc, CapturePc.Plain]) trivial rfl hfits
      nofun nofun
  | entering =>
    rw [hc] at hfits
    obtain ⟨r, hp⟩ := hfits
    simp only [hc, pushFrame, RingBuffer.pushStep, hp, Option.map_some, Option.some.injEq] at h
    subst h
    exact hs.move _ _ (by simp [hc, CapturePc.Plain]) trivial rfl
      ⟨rfl, rfl⟩ nofun nofun
  | pushing fillRan gotFrame => exact hs.pushing hc hstep
  | captured =>
    rw [hc] at h
    cases h
    exact hs.count hc
  | dropping =>
    simp only [hc] at h
    rw [hc] at hfits
    split at h
    · next hsource =>
      cases h
      exact hs.move s.frames .ending (by simp [hc, CapturePc.Plain]) trivial rfl hfits
        (fun _ => hsource) nofun
    · next f rest hsource =>
      cases h
      exact hs.drop hc
  | dropped =>
    rw [hc] at h
    cases h
    exact hs.countDrop hc
  | ending =>
    rw [hc] at h
    cases h
    exact hs.finish hc
  | ended =>
    rw [hc] at h
    cases h

/-- The consumer's side of the ring and the variables of `InferenceLoop` are the same. -/
structure SameInference (s t : EdgePipeline) : Prop where
  consumer : t.frames.consumer = s.frames.consumer
  popped : t.frames.popped = s.frames.popped
  released : t.frames.released = s.frames.released
  infer : t.infer = s.infer
  processed : t.processed = s.processed
  framesProcessed : t.framesProcessed = s.framesProcessed
  finished : t.finished = s.finished
  stopRequested : t.stopRequested = s.stopRequested

/-- `CaptureLoop` leaves what is `InferenceLoop`'s. -/
theorem captureStep_frame (hring : s.frames.Inv frameRingSlots) (h : s.captureStep cfg = some t) :
    t.frames.Inv frameRingSlots ∧ s.SameInference t := by
  obtain ⟨_, frames, _, _, _, _, _, rfl, rfl | ⟨a, hpush⟩⟩ := captureStep_cases h
  · exact ⟨hring, rfl, rfl, rfl, rfl, rfl, rfl, rfl, rfl⟩
  · obtain ⟨hconsumer, hpopped, hreleased, -⟩ := RingBuffer.pushStep_frame hpush
    exact ⟨RingBuffer.inv_pushStep hring hpush, hconsumer, hpopped, hreleased, rfl, rfl, rfl, rfl,
      rfl⟩

/-! ## The inference loop -/

end EdgePipeline

/-- The ring is in a call exactly while `InferenceLoop` is in `TryPopWith`, and the slot is
read while it is in `process`. -/
def InferPc.Fits : InferPc → PopPc Frame → Prop
  | .popping, .loadedHead _ => True
  | .popping, .nonEmpty _ => True
  | .popping, _ => False
  | .counting _ _ _, pc => ∃ head v, pc = .accessed head v
  | .emitting _, pc => ∃ head v, pc = .accessed head v
  | .pushingEvent, pc => ∃ head v, pc = .accessed head v
  | .releasing, pc => ∃ head v, pc = .accessed head v
  | _, pc => ∃ r, pc = .idle r

/-- A frame is processed and not counted yet. -/
def InferPc.uncounted : InferPc → UInt64
  | .counting _ _ _ => 1
  | _ => 0

/-- There is no frame to be counted, and the loop has not ended. -/
def InferPc.Plain : InferPc → Prop
  | .counting _ _ _ | .ended => False
  | _ => True

namespace InferPc.Plain

variable {pc : InferPc} (h : pc.Plain)
include h

theorem uncounted : pc.uncounted = 0 := by
  cases pc <;> first | rfl | exact h.elim

theorem ne_ended : pc ≠ .ended := by
  rintro rfl
  exact h

end InferPc.Plain

namespace EdgePipeline

variable {cfg : EdgeConfig} {input : List Frame} {s t : EdgePipeline}

/-- What `InferenceLoop` has seen of the capture loop and the ring before it ends. -/
def Seen (s : EdgePipeline) : InferPc → Prop
  | .sizeTail => s.captureDone = true
  | .sizeHead tail => s.captureDone = true ∧ tail = s.frames.tail
  | .finishing => s.captureDone = true ∧ s.frames.released = s.frames.published.length
  | .ended => s.captureDone = true ∧ s.frames.released = s.frames.published.length
  | .stopTail => False
  | .stopHead _ => False
  | _ => True

/-- What `InferenceLoop` has done with the frames published. -/
structure Consumed (s : EdgePipeline) : Prop where
  processed : s.processed = s.frames.popped.map Prod.snd
  counted : s.framesProcessed + s.infer.uncounted = UInt64.ofNat s.processed.length
  consumer : s.infer.Fits s.frames.consumer
  seen : s.Seen s.infer
  ended : s.finished = true → s.infer = .ended

theorem consumed_start (input : List Frame) (slots : ℕ → Frame) (eventSlots : ℕ → ConfirmedEvent)
    (confirmer : KOfNConfirmer) : (start input slots eventSlots confirmer).Consumed where
  processed := rfl
  counted := rfl
  consumer := ⟨none, rfl⟩
  seen := trivial
  ended := nofun

/-- Once the capture loop is done it takes no step, so what was seen stays true. -/
theorem Consumed.captureStep (hs : s.Consumed) (hproduced : s.Produced cfg)
    (hsame : s.SameInference t) (h : s.captureStep cfg = some t) : t.Consumed where
  processed := by rw [hsame.processed, hsame.popped, hs.processed]
  counted := by rw [hsame.framesProcessed, hsame.infer, hsame.processed, hs.counted]
  consumer := by
    rw [hsame.infer, hsame.consumer]
    exact hs.consumer
  seen := by
    have hdone : s.captureDone ≠ true := by
      intro hdone
      rw [EdgePipeline.captureStep, hproduced.done hdone] at h
      cases h
    have hseen := hs.seen
    rw [hsame.infer]
    cases hpc : s.infer <;> rw [hpc] at hseen <;>
      first
      | trivial
      | exact absurd hseen hdone
      | exact absurd hseen.1 hdone
  ended := by
    rw [hsame.finished, hsame.infer]
    exact hs.ended

/-- `InferenceLoop` leaves what is the capture loop's. -/
structure SameCapture (s t : EdgePipeline) : Prop where
  source : t.source = s.source
  published : t.frames.published = s.frames.published
  producer : t.frames.producer = s.frames.producer
  capture : t.capture = s.capture
  captureDone : t.captureDone = s.captureDone
  framesCaptured : t.framesCaptured = s.framesCaptured
  framesDropped : t.framesDropped = s.framesDropped
  delivered : t.delivered = s.delivered
  stopRequested : t.stopRequested = s.stopRequested

theorem Kept.of_same (hs : s.Kept input) (h : s.SameCapture t) : t.Kept input where
  delivered := by rw [h.delivered, h.source, hs.delivered]
  kept := by
    have hun : unpublished t.frames = unpublished s.frames := by
      simp only [unpublished, h.producer]
    rw [h.delivered, h.published, hun, hs.kept]

theorem Produced.of_same (hs : s.Produced cfg) (h : s.SameCapture t) :
    t.Produced cfg where
  captured := by rw [h.framesCaptured, h.capture, h.published, hs.captured]
  dropped := by rw [h.framesDropped, h.capture, h.delivered, hs.dropped]
  offline := by
    rw [h.capture, h.delivered]
    exact hs.offline
  producer := by
    rw [h.capture, h.producer]
    exact hs.producer
  exhausted := by
    rw [h.capture, h.source]
    exact hs.exhausted
  done := by
    rw [h.captureDone, h.capture]
    exact hs.done

/-- `InferenceLoop` leaves what is `CaptureLoop`'s. -/
theorem inferStep_frame {now : ℤ} (hring : s.frames.Inv frameRingSlots)
    (h : s.inferStep cfg now = some t) : t.frames.Inv frameRingSlots ∧ s.SameCapture t := by
  obtain ⟨-, frames, _, _, _, _, _, _, _, rfl, -, rfl | ⟨a, hpop⟩, -⟩ := inferStep_cases h
  · exact ⟨hring, rfl, rfl, rfl, rfl, rfl, rfl, rfl, rfl, rfl⟩
  · obtain ⟨hproducer, hpublished, -⟩ := RingBuffer.popStep_frame hpop
    exact ⟨RingBuffer.inv_popStep hring hpop, rfl, hpublished, hproducer, rfl, rfl, rfl, rfl, rfl,
      rfl⟩

/-- `InferenceLoop` moves on without a frame. -/
theorem Consumed.move (hs : s.Consumed) (ring : RingBuffer Frame) (pc : InferPc)
    (hfrom : s.infer.Plain) (hto : pc.Plain) (hpopped : ring.popped = s.frames.popped)
    (hfits : pc.Fits ring.consumer) (hseen : Seen { s with frames := ring, infer := pc } pc) :
    Consumed { s with frames := ring, infer := pc } where
  processed := by rw [hpopped, hs.processed]
  counted := by rw [← hs.counted, hfrom.uncounted, hto.uncounted]
  consumer := hfits
  seen := hseen
  ended := fun h => absurd (hs.ended h) hfrom.ne_ended

/-- `process` takes the frame in the slot. -/
theorem Consumed.process (hs : s.Consumed) {head : ℕ} {slots : ℕ → Frame} (c : KOfNConfirmer)
    (r : DetectionResult) (nowConfirmed : Bool) (hpc : s.infer = .popping) :
    Consumed { s with
      frames := { s.frames with
        slots := slots
        consumer := .accessed head (s.frames.slots head)
        popped := s.frames.popped ++ [(head, s.frames.slots head)] }
      confirmer := c
      processed := s.processed ++ [s.frames.slots head]
      infer := .counting (s.frames.slots head) r nowConfirmed } where
  processed := by simp [hs.processed]
  counted := by
    have := hs.counted
    rw [hpc] at this
    simp [InferPc.uncounted, ← this, UInt64.ofNat_add]
  consumer := ⟨_, _, rfl⟩
  seen := trivial
  ended := fun h => absurd (hs.ended h) (by simp [hpc])

/-- The processed frame is counted. -/
theorem Consumed.count (hs : s.Consumed) {f : Frame} {r : DetectionResult} {b : Bool}
    (w : Bool) (pc : InferPc) (hpc : s.infer = .counting f r b)
    (hto : (∃ ev, pc = .emitting ev) ∨ pc = .releasing) :
    Consumed { s with
      framesProcessed := s.framesProcessed + 1
      wasConfirmed := w
      infer := pc } where
  processed := hs.processed
  counted := by
    have := hs.counted
    rw [hpc] at this
    rcases hto with ⟨ev, rfl⟩ | rfl <;> simpa [InferPc.uncounted] using this
  consumer := by
    have := hs.consumer
    rw [hpc] at this
    rcases hto with ⟨ev, rfl⟩ | rfl <;> exact this
  seen := by rcases hto with ⟨ev, rfl⟩ | rfl <;> trivial
  ended := fun h => absurd (hs.ended h) (by simp [hpc])

/-- `out_events_.TryPush` leaves the pipeline's own variables. -/
theorem pushEvent_frame {a : PushAct ConfirmedEvent} (h : s.pushEvent a = some t) :
    ∃ ring pc, (pc = .releasing ∨ pc = .pushingEvent) ∧
      t = { s with events := ring, infer := pc } := by
  obtain ⟨ring, -, rfl⟩ := Option.map_eq_some_iff.1 h
  refine ⟨ring, _, ?_, rfl⟩
  split
  · exact .inl rfl
  · exact .inr rfl

/-- `out_events_.TryPush` goes on, or returns. -/
theorem Consumed.pushEvent (hs : s.Consumed) {a : PushAct ConfirmedEvent}
    (hpc : (∃ ev, s.infer = .emitting ev) ∨ s.infer = .pushingEvent)
    (h : s.pushEvent a = some t) : t.Consumed := by
  have hfits := hs.consumer
  obtain ⟨ring, pc, hto, rfl⟩ := pushEvent_frame h
  have hmoved : Consumed { s with frames := s.frames, infer := pc } := by
    rcases hpc with ⟨ev, hpc⟩ | hpc <;> rw [hpc] at hfits <;> rcases hto with rfl | rfl <;>
      exact hs.move s.frames _ (by simp [hpc, InferPc.Plain]) trivial rfl hfits trivial
  exact { hmoved with }

/-- The tail that was read is still that of the ring, as the capture loop is done. So a size of 0
means that all frames are released. -/
theorem Consumed.sizeHead (hs : s.Consumed) (hring : s.frames.Inv frameRingSlots) {tail : ℕ}
    {now : ℤ} (hpc : s.infer = .sizeHead tail) (h : s.inferStep cfg now = some t) :
    t.Consumed := by
  have hplain : s.infer.Plain := by simp [hpc, InferPc.Plain]
  have hfits := hs.consumer
  have hseen := hs.seen
  rw [hpc] at hfits hseen
  obtain ⟨hdone, rfl⟩ := hseen
  simp only [inferStep, hpc, Option.some.injEq] at h
  subst h
  by_cases hsize : RingBuffer.sizeApprox frameRingSlots s.frames.tail s.frames.head > 0
  · rw [if_pos hsize]
    exact hs.move s.frames .body hplain trivial rfl hfits trivial
  · have hempty : s.frames.released = s.frames.published.length := by
      have hlen := hring.length_held
      rw [hring.sizeApprox_eq] at hsize
      omega
    rw [if_neg hsize]
    exact hs.move s.frames .finishing hplain trivial rfl hfits ⟨hdone, hempty⟩

/-- A step inside `TryPopWith`, up to its callback. -/
theorem Consumed.popping (hs : s.Consumed) {now : ℤ} (hpc : s.infer = .popping)
    (h : s.inferStep cfg now = some t) : t.Consumed := by
  have hplain : s.infer.Plain := by simp [hpc, InferPc.Plain]
  simp only [inferStep, hpc] at h
  split at h
  · next head hc =>
    simp only [RingBuffer.popStep, hc] at h
    split_ifs at h with hempty
    · cases h
      exact hs.move _ .test hplain trivial rfl ⟨_, rfl⟩ trivial
    · cases h
      exact hs.move _ .popping hplain trivial rfl trivial trivial
  · next head hc =>
    simp only [RingBuffer.popStep, hc, Option.map_some, Option.some.injEq] at h
    subst h
    exact hs.process _ _ _ hpc
  · cases h

/-- The end of the inference loop is announced. -/
theorem Consumed.finish (hs : s.Consumed) (hpc : s.infer = .finishing) :
    Consumed { s with finished := true, infer := .ended } where
  processed := hs.processed
  counted := by simpa [hpc, InferPc.uncounted] using hs.counted
  consumer := by simpa [hpc, InferPc.Fits] using hs.consumer
  seen := by simpa [hpc, Seen] using hs.seen
  ended := fun _ => rfl

theorem consumed_inferStep {now : ℤ} (hs : s.Consumed) (hring : s.frames.Inv frameRingSlots)
    (hrun : s.stopRequested = false) (h : s.inferStep cfg now = some t) : t.Consumed := by
  have hfits := hs.consumer
  have hseen := hs.seen
  have hstep := h
  unfold inferStep at h
  cases hpc : s.infer with
  | test =>
    rw [hpc] at h hfits
    cases h
    by_cases hdone : s.captureDone = true
    · rw [if_pos hdone]
      exact hs.move s.frames .sizeTail (by simp [hpc, InferPc.Plain]) trivial rfl hfits hdone
    · rw [if_neg hdone]
      exact hs.move s.frames .body (by simp [hpc, InferPc.Plain]) trivial rfl hfits trivial
  | sizeTail =>
    rw [hpc] at h hfits hseen
    cases h
    exact hs.move s.frames _ (by simp [hpc, InferPc.Plain]) trivial rfl hfits ⟨hseen, rfl⟩
  | sizeHead tail => exact hs.sizeHead hring hpc hstep
  | body =>
    rw [hpc] at h hfits
    cases h
    rw [if_neg (by simp [hrun])]
    exact hs.move s.frames .entering (by simp [hpc, InferPc.Plain]) trivial rfl hfits trivial
  | stopTail | stopHead =>
    rw [hpc] at hseen
    exact hseen.elim
  | entering =>
    rw [hpc] at h hfits
    obtain ⟨r, hc⟩ := hfits
    simp only [RingBuffer.popStep, hc, Option.map_some, Option.some.injEq] at h
    subst h
    exact hs.move _ .popping (by simp [hpc, InferPc.Plain]) trivial rfl trivial trivial
  | popping => exact hs.popping hpc hstep
  | counting f r nowConfirmed =>
    rw [hpc] at h
    cases h
    refine hs.count _ _ hpc ?_
    split
    · exact .inl ⟨_, rfl⟩
    · exact .inr rfl
  | emitting ev =>
    rw [hpc] at h
    exact hs.pushEvent (.inl ⟨ev, hpc⟩) h
  | pushingEvent =>
    simp only [hpc] at h
    split at h
    · exact hs.pushEvent (.inr hpc) h
    · exact hs.pushEvent (.inr hpc) h
    · exact hs.pushEvent (.inr hpc) h
    · cases h
  | releasing =>
    rw [hpc] at h hfits
    obtain ⟨head, v, hc⟩ := hfits
    simp only [RingBuffer.popStep, hc, Option.map_some, Option.some.injEq] at h
    subst h
    exact hs.move _ .test (by simp [hpc, InferPc.Plain]) trivial rfl ⟨_, rfl⟩ trivial
  | finishing =>
    rw [hpc] at h
    cases h
    exact hs.finish hpc
  | ended =>
    rw [hpc] at h
    cases h

/-! ## Whole runs -/

/-- While no stop is requested. -/
structure Inv (cfg : EdgeConfig) (input : List Frame) (s : EdgePipeline) : Prop where
  ring : s.frames.Inv frameRingSlots
  running : s.stopRequested = false
  kept : s.Kept input
  produced : s.Produced cfg
  consumed : s.Consumed

theorem inv_start (input : List Frame) (slots : ℕ → Frame) (eventSlots : ℕ → ConfirmedEvent)
    (confirmer : KOfNConfirmer) : (start input slots eventSlots confirmer).Inv cfg input where
  ring := RingBuffer.inv_start slots
  running := rfl
  kept := ⟨rfl, rfl⟩
  produced := produced_start input slots eventSlots confirmer
  consumed := consumed_start input slots eventSlots confirmer

theorem inv_step (s : EdgePipeline) (a : EdgeAct) (t : EdgePipeline) (hs : s.Inv cfg input)
    (hok : a ≠ .requestStop) (h : s.step cfg a = some t) : t.Inv cfg input := by
  cases a with
  | capture =>
    obtain ⟨hring, hsame⟩ := captureStep_frame hs.ring h
    exact ⟨hring, by rw [hsame.stopRequested, hs.running], hs.kept.captureStep h,
      produced_captureStep hs.produced hs.running h, hs.consumed.captureStep hs.produced hsame h⟩
  | infer now =>
    obtain ⟨hring, hsame⟩ := inferStep_frame hs.ring h
    exact ⟨hring, by rw [hsame.stopRequested, hs.running], hs.kept.of_same hsame,
      hs.produced.of_same hsame,
      consumed_inferStep hs.consumed hs.ring hs.running h⟩
  | drain a =>
    obtain ⟨ring, -, rfl⟩ := Option.map_eq_some_iff.1 h
    exact ⟨hs.ring, hs.running, { hs.kept with }, { hs.produced with }, { hs.consumed with }⟩
  | requestStop => exact absurd rfl hok

/-- When the inference loop has ended, nothing is on the way. -/
theorem Inv.complete (hs : s.Inv cfg input) (hfin : s.finished = true) :
    s.Complete cfg input := by
  have hend := hs.consumed.ended hfin
  obtain ⟨hdone, hall⟩ : s.captureDone = true ∧ s.frames.released = s.frames.published.length := by
    simpa [hend, Seen] using hs.consumed.seen
  have hcapture := hs.produced.done hdone
  have hsource := hs.produced.exhausted (.inr hcapture)
  obtain ⟨r, hproducer⟩ : ∃ r, s.frames.producer = .idle r := by
    simpa [hcapture, CapturePc.Fits] using hs.produced.producer
  obtain ⟨r', hconsumer⟩ : ∃ r, s.frames.consumer = .idle r := by
    simpa [hend, InferPc.Fits] using hs.consumed.consumer
  have hpopped : s.frames.popped = s.frames.published := by
    have hlen : s.frames.popped.length = s.frames.released := hs.ring.consumer_at hconsumer
    exact hs.ring.popped.eq_of_length (hlen.trans hall)
  have hkept : (s.delivered.filter Prod.snd).map Prod.fst = s.frames.published.map Prod.snd := by
    simpa [unpublished, hproducer] using hs.kept.kept
  have hdelivered : s.delivered.map Prod.fst = input := by
    simpa [hsource] using hs.kept.delivered
  have hprocessed : s.processed = s.frames.published.map Prod.snd := by
    rw [hs.consumed.processed, hpopped]
  have hcaptured : s.framesCaptured = UInt64.ofNat s.frames.published.length := by
    simpa [hcapture, CapturePc.uncaptured] using hs.produced.captured
  have hdropped : s.framesDropped = UInt64.ofNat (s.delivered.countP (!·.2)) := by
    simpa [hcapture, CapturePc.undropped] using hs.produced.dropped
  have hlength : s.delivered.countP (·.2) = s.frames.published.length := by
    rw [List.countP_eq_length_filter]
    simpa using congrArg List.length hkept
  refine ⟨hprocessed, ?_, hdelivered, hkept, by rw [hcaptured, hlength], hdropped, ?_⟩
  · have hcounted : s.framesProcessed = UInt64.ofNat s.processed.length := by
      simpa [hend, InferPc.uncounted] using hs.consumed.counted
    rw [hcounted, hcaptured, hprocessed, List.length_map]
  · intro hmode
    have hnone := (hs.produced.offline hmode).2.2
    have hfilter : s.delivered.filter Prod.snd = s.delivered := by
      rw [List.filter_eq_self]
      simpa using List.countP_eq_zero.1 hnone
    refine ⟨by rw [hdropped, hnone]; rfl, ?_⟩
    rw [hprocessed, ← hkept, hfilter, hdelivered]

/-- In a run in which no stop is requested, when the pipeline has finished it has processed
every frame it captured, and has counted each frame of the source. -/
theorem processes_every_frame (cfg : EdgeConfig) (input : List Frame) (slots : ℕ → Frame)
    (eventSlots : ℕ → ConfirmedEvent) (confirmer : KOfNConfirmer) {as : List EdgeAct}
    (hstop : .requestStop ∉ as)
    (h : exec (step cfg) (start input slots eventSlots confirmer) as = some s)
    (hfin : s.finished = true) : s.Complete cfg input := by
  have hguard : Guarded (step cfg) (fun _ a => a ≠ .requestStop)
      (start input slots eventSlots confirmer) as :=
    .of_forall fun _ a ha => ne_of_mem_of_not_mem ha hstop
  exact (exec_invariant_guarded inv_step (inv_start _ _ _ _) hguard h).complete hfin

/-- Four frames of one pixel. -/
def fourFrames : List Frame :=
  [⟨1, 1, .bgr24, 10, 0, [9, 0, 0]⟩, ⟨1, 1, .bgr24, 11, 1, [9, 9, 0]⟩,
    ⟨1, 1, .bgr24, 12, 2, [9, 9, 9]⟩, ⟨1, 1, .bgr24, 13, 3, [0, 0, 0]⟩]

/-- The pipeline in real time, with a detector that finds something in the second frame. -/
def secondPositive : EdgeConfig :=
  ⟨true, fun f => { positive := f.frameIndex == 1 }⟩

/-- Each positive result is confirmed. -/
def oneOfOne : KOfNConfirmer :=
  ⟨1, 1, by decide, by decide, [], 0⟩

/-- The pipeline on the four frames. -/
def fourFramesStart : EdgePipeline :=
  start fourFrames (fun _ => {}) (fun _ => .of {} {} oneOfOne 0) oneOfOne

/-- All frames are captured before the first is processed : the ring has room for three, and
the fourth is dropped. -/
def fullRingRun : List EdgeAct :=
  List.replicate 28 .capture ++ List.replicate 35 (.infer 20)

theorem processes_every_frame_fullRing : ∃ s,
    exec (step secondPositive) fourFramesStart fullRingRun = some s ∧ s.finished = true ∧
      s.framesDropped = 1 ∧ s.events.published.length = 1 ∧
        s.Complete secondPositive fourFrames := by
  obtain ⟨s, h, hfin, hdropped, hevents⟩ : ∃ s,
      exec (step secondPositive) fourFramesStart fullRingRun = some s ∧ s.finished = true ∧
        s.framesDropped = 1 ∧ s.events.published.length = 1 :=
    exists_exec_of_any (by decide +kernel)
  have hstop : .requestStop ∉ fullRingRun := by simp [fullRingRun]
  exact ⟨s, h, hfin, hdropped, hevents, processes_every_frame _ _ _ _ _ hstop h hfin⟩

end EdgePipeline

end Ridgeline
