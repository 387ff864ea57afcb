import Ridgeline.EdgeCompletion

/-!
# Stopping the edge pipeline

`EdgePipeline::Stop` sets `stop_requested_` and joins the two threads, at any moment of a run. The
capture loop looks at the flag once in each turn, so it publishes at most one more frame, and the
inference loop ends when it has seen the flag and then an empty ring. The frame that the capture
loop publishes behind this is not processed : at most one of the frames captured is left, the last
one (`stop_leaves_one`).

Both joins return. After the request each loop has a bounded number of steps left, whatever the
other does, and can always take the next one (`stop_returns`).
-/

namespace Ridgeline

/-! ## The capture loop -/

/-- A frame may still be published in this turn. -/
def CapturePc.unpublished : CapturePc → ℕ
  | .entering | .pushing _ _ => 1
  | _ => 0

namespace EdgePipeline

variable {cfg : EdgeConfig} {input : List Frame} {s t : EdgePipeline}

/-- The steps that the capture loop has left at most, once a stop is requested. -/
def captureRank (s : EdgePipeline) : ℕ :=
  match s.capture, s.frames.producer with
  | .entering, _ => 8
  | .pushing _ _, .loadedTail _ _ => 7
  | .pushing _ _, .hasRoom _ _ => 6
  | .pushing _ _, .written _ _ => 5
  | .pushing _ _, .idle _ => 0
  | .dropping, _ => 4
  | .captured, _ => 3
  | .dropped, _ => 3
  | .top, _ => 2
  | .ending, _ => 1
  | .ended, _ => 0

/-- The frames that are published, or may be in this turn of the capture loop. -/
def publishable (s : EdgePipeline) : ℕ :=
  s.frames.published.length + s.capture.unpublished

/-- What holds of the capture loop, whether a stop is requested or not. -/
structure Captures (s : EdgePipeline) : Prop where
  fits : s.capture.Fits s.frames.producer
  done : s.captureDone = true → s.capture = .ended
  counted : s.framesCaptured + s.capture.uncaptured = UInt64.ofNat s.frames.published.length

/-- A step of the capture loop, and what it takes from the rank behind the request. -/
theorem Captures.step (hs : s.Captures) (h : s.captureStep cfg = some t) : t.Captures ∧
    (s.stopRequested = true → t.captureRank < s.captureRank ∧ t.publishable ≤ s.publishable) := by
  have hfits := hs.fits
  have hcounted := hs.counted
  have hdone : s.capture ≠ .ended → s.captureDone = true → ∀ pc : CapturePc, pc = .ended :=
    fun hne hdone => absurd (hs.done hdone) hne
  unfold captureStep at h
  cases hc : s.capture with
  | top =>
    rw [hc] at hfits hcounted
    simp only [hc] at h
    cases h
    refine ⟨⟨?_, fun hd => hdone (by simp [hc]) hd _, ?_⟩, fun hstop => ?_⟩
    · split_ifs <;> exact hfits
    · split_ifs <;> exact hcounted
    · simp [captureRank, publishable, hc, hstop, CapturePc.unpublished]
  | entering =>
    rw [hc] at hfits hcounted
    obtain ⟨r, hp⟩ := hfits
    simp only [hc, pushFrame, RingBuffer.pushStep, hp, Option.map_some, Option.some.injEq] at h
    subst h
    refine ⟨⟨⟨rfl, rfl⟩, fun hd => hdone (by simp [hc]) hd _, hcounted⟩, fun _ => ?_⟩
    simp [captureRank, publishable, hc, CapturePc.unpublished]
  | pushing fillRan gotFrame =>
    rw [hc] at hfits hcounted
    have hend := hdone (by simp [hc])
    simp only [hc] at h
    split at h
    · next call tail hp =>
      rw [hp] at hfits
      obtain ⟨rfl, rfl⟩ := hfits
      simp only [pushFrame, RingBuffer.pushStep, hp] at h
      split_ifs at h with hfull
      · simp only [Option.map_some, Option.some.injEq] at h
        subst h
        cases hr : cfg.realtime
        · refine ⟨⟨⟨_, rfl⟩, fun hd => hend hd _, hcounted⟩, fun _ => ?_⟩
          simp [captureRank, publishable, hc, hp, afterPush, CapturePc.unpublished]
        · refine ⟨⟨⟨_, rfl⟩, fun hd => hend hd _, hcounted⟩, fun _ => ?_⟩
          simp [captureRank, publishable, hc, hp, afterPush, CapturePc.unpublished]
      · simp only [Option.map_some, Option.some.injEq] at h
        subst h
        refine ⟨⟨⟨rfl, rfl⟩, fun hd => hend hd _, hcounted⟩, fun _ => ?_⟩
        simp [captureRank, publishable, hc, hp, CapturePc.unpublished]
    · next call tail hp =>
      rw [hp] at hfits
      obtain ⟨rfl, rfl⟩ := hfits
      split at h
      · simp only [pushFrame, RingBuffer.pushStep, hp, Option.map_some, Option.some.injEq] at h
        subst h
        refine ⟨⟨⟨_, rfl⟩, fun hd => hend hd _, hcounted⟩, fun _ => ?_⟩
        simp [captureRank, publishable, hc, hp, afterPush, CapturePc.unpublished]
      · simp only [pushFrame, RingBuffer.pushStep, hp, Option.map_some, Option.some.injEq] at h
        subst h
        refine ⟨⟨trivial, fun hd => hend hd _, hcounted⟩, fun _ => ?_⟩
        simp [captureRank, publishable, hc, hp, CapturePc.unpublished]
    · next tail item hp =>
      simp only [pushFrame, RingBuffer.pushStep, hp, Option.map_some, Option.some.injEq] at h
      subst h
      refine ⟨⟨⟨_, rfl⟩, fun hd => hend hd _, ?_⟩, fun _ => ?_⟩
      · simpa [CapturePc.uncaptured, afterPush, UInt64.ofNat_add] using hcounted
      · simp [captureRank, publishable, hc, hp, afterPush, CapturePc.unpublished]
    · cases h
  | captured =>
    rw [hc] at h hfits hcounted
    cases h
    refine ⟨⟨hfits, fun hd => hdone (by simp [hc]) hd _, ?_⟩, fun _ => ?_⟩
    · simpa [CapturePc.uncaptured] using hcounted
    · simp [captureRank, publishable, hc, CapturePc.unpublished]
  | dropping =>
    rw [hc] at hfits hcounted
    have hend := hdone (by simp [hc])
    simp only [hc] at h
    split at h <;> cases h
    · refine ⟨⟨hfits, fun hd => hend hd _, hcounted⟩, fun _ => ?_⟩
      simp [captureRank, publishable, hc, CapturePc.unpublished]
    · refine ⟨⟨hfits, fun hd => hend hd _, hcounted⟩, fun _ => ?_⟩
      simp [captureRank, publishable, hc, CapturePc.unpublished]
  | dropped =>
    rw [hc] at h hfits hcounted
    cases h
    refine ⟨⟨hfits, fun hd => hdone (by simp [hc]) hd _, hcounted⟩, fun _ => ?_⟩
    simp [captureRank, publishable, hc, CapturePc.unpublished]
  | ending =>
    rw [hc] at h hfits hcounted
    cases h
    refine ⟨⟨hfits, fun _ => rfl, hcounted⟩, fun _ => ?_⟩
    simp [captureRank, publishable, hc, CapturePc.unpublished]
  | ended =>
    rw [hc] at h
    cases h

/-- The capture loop can go on until it has ended. -/
theorem Captures.exists_step (hs : s.Captures) (hc : s.capture ≠ .ended) :
    (s.captureStep cfg).isSome := by
  have hfits := hs.fits
  unfold captureStep
  cases hpc : s.capture with
  | entering =>
    rw [hpc] at hfits
    obtain ⟨r, hp⟩ := hfits
    simp [pushFrame, RingBuffer.pushStep, hp]
  | pushing fillRan gotFrame =>
    rw [hpc] at hfits
    cases hp : s.frames.producer with
    | idle r =>
      rw [hp] at hfits
      exact hfits.elim
    | loadedTail call tail =>
      simp only [pushFrame, RingBuffer.pushStep, hp]
      split_ifs <;> rfl
    | hasRoom call tail =>
      rw [hp] at hfits
      obtain ⟨rfl, -⟩ := hfits
      cases s.source <;> simp [pushFrame, RingBuffer.pushStep, hp]
    | written tail item => simp [pushFrame, RingBuffer.pushStep, hp]
  | dropping => cases s.source <;> simp
  | ended => exact absurd hpc hc
  | top | captured | dropped | ending => simp

end EdgePipeline

/-! ## The inference loop -/

/-- The ring of events is in a call exactly while `InferenceLoop` is in `out_events_.TryPush`. -/
def InferPc.EventFits : InferPc → PushPc ConfirmedEvent → Prop
  | .pushingEvent, .loadedTail call _ => ∃ ev, call = .tryPush ev
  | .pushingEvent, .hasRoom call _ => ∃ ev, call = .tryPush ev
  | .pushingEvent, .written _ _ => True
  | .pushingEvent, .idle _ => False
  | _, pc => ∃ r, pc = .idle r

namespace EdgePipeline

variable {cfg : EdgeConfig} {s t : EdgePipeline} {now : ℤ}

/-- The steps that the inference loop has left at most in this turn. A pop of an empty ring leads
to another turn. -/
def turnRank (s : EdgePipeline) : ℕ :=
  match s.infer with
  | .test => 16
  | .sizeTail => 15
  | .sizeHead _ => 14
  | .body => 13
  | .stopTail => 12
  | .stopHead _ => 11
  | .entering => if s.frames.released < s.frames.published.length then 10 else 21
  | .popping =>
    match s.frames.consumer with
    | .loadedHead _ => if s.frames.released < s.frames.published.length then 9 else 20
    | _ => 8
  | .counting _ _ _ => 7
  | .emitting _ => 6
  | .pushingEvent =>
    match s.events.producer with
    | .loadedTail _ _ => 5
    | .hasRoom _ _ => 4
    | _ => 3
  | .releasing => 2
  | .finishing => 1
  | .ended => 0

/-- The steps that it has left at most, once a stop is requested : a turn for each frame. -/
def inferRank (s : EdgePipeline) : ℕ :=
  30 * (s.publishable - s.frames.released) + s.turnRank

/-- What the inference loop has seen of the capture loop and the ring, up to the one frame that
the capture loop may still publish behind the request. -/
def Left (s : EdgePipeline) : InferPc → Prop
  | .sizeTail => s.captureDone = true
  | .sizeHead tail => s.captureDone = true ∧ tail = s.frames.tail
  | .stopTail => s.stopRequested = true
  | .stopHead tail => s.stopRequested = true ∧
    ∃ n, tail = n % frameRingSlots.val ∧ s.frames.released ≤ n ∧
      n ≤ s.frames.published.length ∧ s.publishable ≤ n + 1
  | .finishing | .ended =>
    (s.captureDone = true ∧ s.frames.released = s.frames.published.length) ∨
      (s.stopRequested = true ∧ s.publishable ≤ s.frames.released + 1)
  | _ => True

/-- What holds of the inference loop, whether a stop is requested or not. -/
structure Infers (s : EdgePipeline) : Prop where
  fits : s.infer.Fits s.frames.consumer
  event : s.infer.EventFits s.events.producer
  processed : s.processed = s.frames.popped.map Prod.snd
  counted : s.framesProcessed + s.infer.uncounted = UInt64.ofNat s.processed.length
  left : s.Left s.infer

/-- The inference loop can go on until it has ended. -/
theorem Infers.exists_step (hs : s.Infers) (hpc : s.infer ≠ .ended) (now : ℤ) :
    (s.inferStep cfg now).isSome := by
  have hfits := hs.fits
  have hevent := hs.event
  unfold inferStep
  cases hi : s.infer with
  | entering =>
    rw [hi] at hfits
    obtain ⟨r, hc⟩ := hfits
    simp [RingBuffer.popStep, hc]
  | popping =>
    rw [hi] at hfits
    cases hc : s.frames.consumer with
    | idle r =>
      rw [hc] at hfits
      exact hfits.elim
    | loadedHead head =>
      simp only [RingBuffer.popStep, hc]
      split_ifs <;> rfl
    | nonEmpty head => simp [RingBuffer.popStep, hc]
    | accessed head v =>
      rw [hc] at hfits
      exact hfits.elim
  | emitting ev =>
    rw [hi] at hevent
    obtain ⟨r, hp⟩ := hevent
    simp [pushEvent, RingBuffer.pushStep, hp]
  | pushingEvent =>
    rw [hi] at hevent
    cases hp : s.events.producer with
    | idle r =>
      rw [hp] at hevent
      exact hevent.elim
    | loadedTail call tail =>
      simp only [pushEvent, RingBuffer.pushStep, hp]
      split_ifs <;> rfl
    | hasRoom call tail =>
      rw [hp] at hevent
      obtain ⟨ev, rfl⟩ := hevent
      simp [pushEvent, RingBuffer.pushStep, hp]
    | written tail item => simp [pushEvent, RingBuffer.pushStep, hp]
  | releasing =>
    rw [hi] at hfits
    obtain ⟨head, v, hc⟩ := hfits
    simp [RingBuffer.popStep, hc]
  | ended => exact absurd hi hpc
  | test | sizeTail | sizeHead | body | stopTail | stopHead | counting | finishing => simp

/-- The inference loop goes on to `pc` in its own variables only. -/
theorem Infers.move (hs : s.Infers) (pc : InferPc) (hfrom : s.infer.uncounted = 0)
    (hto : pc.uncounted = 0) (hfits : pc.Fits s.frames.consumer)
    (hevent : pc.EventFits s.events.producer) (hleft : Left { s with infer := pc } pc) :
    Infers { s with infer := pc } where
  fits := hfits
  event := hevent
  processed := hs.processed
  counted := by simpa [hfrom, hto] using hs.counted
  left := hleft

/-- The tests of the loop : whether the capture loop is done, and then whether the ring is
empty. -/
theorem Infers.test (hs : s.Infers) (hring : s.frames.Inv frameRingSlots)
    (hpc : s.infer = .test ∨ s.infer = .sizeTail ∨ ∃ tail, s.infer = .sizeHead tail)
    (h : s.inferStep cfg now = some t) : t.Infers ∧ t.inferRank < s.inferRank := by
  have hfits := hs.fits
  have hevent := hs.event
  have hleft := hs.left
  rcases hpc with hpc | hpc | ⟨tail, hpc⟩ <;> rw [hpc] at hfits hevent hleft <;>
    simp only [inferStep, hpc] at h <;> cases h
  · split_ifs with hdone
    · exact ⟨hs.move .sizeTail (by simp [hpc, InferPc.uncounted]) rfl hfits hevent hdone,
        by simp [inferRank, publishable, turnRank, hpc]⟩
    · exact ⟨hs.move .body (by simp [hpc, InferPc.uncounted]) rfl hfits hevent trivial,
        by simp [inferRank, publishable, turnRank, hpc]⟩
  · exact ⟨hs.move (.sizeHead _) (by simp [hpc, InferPc.uncounted]) rfl hfits hevent ⟨hleft, rfl⟩,
      by simp [inferRank, publishable, turnRank, hpc]⟩
  · obtain ⟨hdone, rfl⟩ := hleft
    split_ifs with hsize
    · exact ⟨hs.move .body (by simp [hpc, InferPc.uncounted]) rfl hfits hevent trivial,
        by simp [inferRank, publishable, turnRank, hpc]⟩
    · have hempty : s.frames.released = s.frames.published.length := by
        have hlen := hring.length_held
        rw [hring.sizeApprox_eq] at hsize
        omega
      exact ⟨hs.move .finishing (by simp [hpc, InferPc.uncounted]) rfl hfits hevent
        (.inl ⟨hdone, hempty⟩), by simp [inferRank, publishable, turnRank, hpc]⟩

/-- The check for a stop. A ring that is seen to be empty was empty when its tail was loaded. -/
theorem Infers.stopping (hs : s.Infers) (hring : s.frames.Inv frameRingSlots)
    (hpc : s.infer = .body ∨ s.infer = .stopTail ∨ ∃ tail, s.infer = .stopHead tail)
    (h : s.inferStep cfg now = some t) :
    t.Infers ∧ (s.stopRequested = true → t.inferRank < s.inferRank) := by
  have hfits := hs.fits
  have hevent := hs.event
  have hleft := hs.left
  rcases hpc with hpc | hpc | ⟨tail, hpc⟩ <;> rw [hpc] at hfits hevent hleft <;>
    simp only [inferStep, hpc] at h <;> cases h
  · split_ifs with hstop
    · exact ⟨hs.move .stopTail (by simp [hpc, InferPc.uncounted]) rfl hfits hevent hstop,
        fun _ => by simp [inferRank, publishable, turnRank, hpc]⟩
    · exact ⟨hs.move .entering (by simp [hpc, InferPc.uncounted]) rfl hfits hevent trivial,
        fun h => absurd h hstop⟩
  · have hone : s.publishable ≤ s.frames.published.length + 1 := by
      unfold publishable
      cases s.capture <;> simp [CapturePc.unpublished]
    exact ⟨hs.move (.stopHead _) (by simp [hpc, InferPc.uncounted]) rfl hfits hevent
        ⟨hleft, _, hring.tail, hring.released_le_published, le_rfl, hone⟩,
      fun _ => by simp [inferRank, publishable, turnRank, hpc]⟩
  · obtain ⟨hstop, n, rfl, hreleased, hpublished, hone⟩ := hleft
    have hroom := hring.room
    have hsize : RingBuffer.sizeApprox frameRingSlots (n % frameRingSlots.val) s.frames.head =
        n - s.frames.released := by
      rw [RingBuffer.sizeApprox, hring.head, Capacity.distance_mod _ hreleased (by omega)]
    rw [hsize]
    split_ifs with hzero
    · exact ⟨hs.move .finishing (by simp [hpc, InferPc.uncounted]) rfl hfits hevent
        (.inr ⟨hstop, by simp only [publishable] at hone ⊢; omega⟩),
        fun _ => by simp [inferRank, publishable, turnRank, hpc]⟩
    · refine ⟨hs.move .entering (by simp [hpc, InferPc.uncounted]) rfl hfits hevent trivial,
        fun _ => ?_⟩
      have hheld : s.frames.released < s.frames.published.length := by omega
      simp [inferRank, publishable, turnRank, hpc, hheld]

/-- A step inside `TryPopWith`, up to its callback. The head that was loaded is the tail only if
the ring is empty. -/
theorem Infers.popping (hs : s.Infers) (hring : s.frames.Inv frameRingSlots)
    (hpc : s.infer = .entering ∨ s.infer = .popping) (h : s.inferStep cfg now = some t) :
    t.Infers ∧ t.inferRank < s.inferRank := by
  have hfits := hs.fits
  have hevent := hs.event
  have hcounted := hs.counted
  rcases hpc with hpc | hpc <;> rw [hpc] at hfits hevent hcounted <;>
    simp only [inferStep, hpc] at h
  · obtain ⟨r, hc⟩ := hfits
    simp only [RingBuffer.popStep, hc, Option.map_some, Option.some.injEq] at h
    subst h
    refine ⟨⟨trivial, hevent, hs.processed, hcounted, trivial⟩, ?_⟩
    simp only [inferRank, publishable, turnRank, hpc]
    split_ifs <;> omega
  · split at h
    · next head hc =>
      obtain ⟨-, hhead⟩ := hring.consumer_at hc
      simp only [RingBuffer.popStep, hc] at h
      split_ifs at h with hempty
      · cases h
        have hall : s.frames.released = s.frames.published.length :=
          hring.head_eq_tail_iff.1 (by rw [hring.head, ← hhead, hempty])
        refine ⟨⟨⟨_, rfl⟩, hevent, hs.processed, hcounted, trivial⟩, ?_⟩
        simp [inferRank, publishable, turnRank, hpc, hc, hall]
      · cases h
        refine ⟨⟨trivial, hevent, hs.processed, hcounted, trivial⟩, ?_⟩
        simp only [inferRank, publishable, turnRank, hpc, hc]
        split_ifs <;> omega
    · next head hc =>
      simp only [RingBuffer.popStep, hc, Option.map_some, Option.some.injEq] at h
      subst h
      refine ⟨⟨⟨_, _, rfl⟩, hevent, by simp [hs.processed], ?_, trivial⟩, ?_⟩
      · simpa [InferPc.uncounted, UInt64.ofNat_add] using hcounted
      · simp [inferRank, publishable, turnRank, hpc, hc]
    · cases h

/-- A step in `process`, behind the detector. -/
theorem Infers.emitting (hs : s.Infers)
    (hpc : (∃ f r b, s.infer = .counting f r b) ∨ (∃ ev, s.infer = .emitting ev) ∨
      s.infer = .pushingEvent) (h : s.inferStep cfg now = some t) :
    t.Infers ∧ t.inferRank < s.inferRank := by
  have hfits := hs.fits
  have hevent := hs.event
  have hcounted := hs.counted
  rcases hpc with ⟨f, r, b, hpc⟩ | ⟨ev, hpc⟩ | hpc <;> rw [hpc] at hfits hevent hcounted <;>
    simp only [inferStep, hpc] at h
  · cases h
    split_ifs with hnew
    · refine ⟨⟨hfits, hevent, hs.processed, ?_, trivial⟩, ?_⟩
      · simpa [InferPc.uncounted] using hcounted
      · simp [inferRank, publishable, turnRank, hpc]
    · refine ⟨⟨hfits, hevent, hs.processed, ?_, trivial⟩, ?_⟩
      · simpa [InferPc.uncounted] using hcounted
      · simp [inferRank, publishable, turnRank, hpc]
  · obtain ⟨r, hp⟩ := hevent
    simp only [pushEvent, RingBuffer.pushStep, hp, Option.map_some, Option.some.injEq] at h
    subst h
    refine ⟨⟨hfits, ⟨ev, rfl⟩, hs.processed, hcounted, trivial⟩, ?_⟩
    simp [inferRank, publishable, turnRank, hpc]
  · split at h
    · next call tail hp =>
      rw [hp] at hevent
      simp only [pushEvent, RingBuffer.pushStep, hp] at h
      split_ifs at h with hfull
      · simp only [Option.map_some, Option.some.injEq] at h
        subst h
        refine ⟨⟨hfits, ⟨_, rfl⟩, hs.processed, hcounted, trivial⟩, ?_⟩
        simp [inferRank, publishable, turnRank, hpc, hp]
      · simp only [Option.map_some, Option.some.injEq] at h
        subst h
        refine ⟨⟨hfits, hevent, hs.processed, hcounted, trivial⟩, ?_⟩
        simp [inferRank, publishable, turnRank, hpc, hp]
    · next call tail hp =>
      rw [hp] at hevent
      obtain ⟨ev, rfl⟩ := hevent
      simp only [pushEvent, RingBuffer.pushStep, hp, Option.map_some, Option.some.injEq] at h
      subst h
      refine ⟨⟨hfits, trivial, hs.processed, hcounted, trivial⟩, ?_⟩
      simp [inferRank, publishable, turnRank, hpc, hp]
    · next tail item hp =>
      simp only [pushEvent, RingBuffer.pushStep, hp, Option.map_some, Option.some.injEq] at h
      subst h
      refine ⟨⟨hfits, ⟨_, rfl⟩, hs.processed, hcounted, trivial⟩, ?_⟩
      simp [inferRank, publishable, turnRank, hpc, hp]
    · cases h

/-- A step of the inference loop, and what it takes from the rank behind the request. -/
theorem Infers.step (hs : s.Infers) (hring : s.frames.Inv frameRingSlots)
    (h : s.inferStep cfg now = some t) :
    t.Infers ∧ (s.stopRequested = true → t.inferRank < s.inferRank) := by
  have hstep := h
  have hfits := hs.fits
  have hevent := hs.event
  have hcounted := hs.counted
  have hleft := hs.left
  unfold inferStep at h
  cases hpc : s.infer with
  | test => exact (hs.test hring (.inl hpc) hstep).imp_right fun hlt _ => hlt
  | sizeTail => exact (hs.test hring (.inr (.inl hpc)) hstep).imp_right fun hlt _ => hlt
  | sizeHead tail =>
    exact (hs.test hring (.inr (.inr ⟨tail, hpc⟩)) hstep).imp_right fun hlt _ => hlt
  | body => exact hs.stopping hring (.inl hpc) hstep
  | stopTail => exact hs.stopping hring (.inr (.inl hpc)) hstep
  | stopHead tail => exact hs.stopping hring (.inr (.inr ⟨tail, hpc⟩)) hstep
  | entering => exact (hs.popping hring (.inl hpc) hstep).imp_right fun hlt _ => hlt
  | popping => exact (hs.popping hring (.inr hpc) hstep).imp_right fun hlt _ => hlt
  | counting f r b => exact (hs.emitting (.inl ⟨f, r, b, hpc⟩) hstep).imp_right fun hlt _ => hlt
  | emitting ev => exact (hs.emitting (.inr (.inl ⟨ev, hpc⟩)) hstep).imp_right fun hlt _ => hlt
  | pushingEvent => exact (hs.emitting (.inr (.inr hpc)) hstep).imp_right fun hlt _ => hlt
  | releasing =>
    rw [hpc] at h hfits hevent hcounted
    obtain ⟨head, v, hc⟩ := hfits
    obtain ⟨hpopped, -, -⟩ := hring.consumer_at hc
    have hlen := hring.popped.length_le
    simp only [RingBuffer.popStep, hc, Option.map_some, Option.some.injEq] at h
    subst h
    refine ⟨⟨⟨_, rfl⟩, hevent, hs.processed, hcounted, trivial⟩, fun _ => ?_⟩
    simp only [inferRank, publishable, turnRank, hpc]
    omega
  | finishing =>
    rw [hpc] at h hfits hevent hcounted hleft
    cases h
    exact ⟨⟨hfits, hevent, hs.processed, hcounted, hleft⟩,
      fun _ => by simp [inferRank, publishable, turnRank, hpc]⟩
  | ended =>
    rw [hpc] at h
    cases h

/-! ## Both loops -/

/-- What holds in every state, whether a stop is requested or not. -/
structure Stopping (input : List Frame) (s : EdgePipeline) : Prop where
  ring : s.frames.Inv frameRingSlots
  kept : s.Kept input
  captures : s.Captures
  infers : s.Infers

theorem stopping_start (input : List Frame) (slots : ℕ → Frame) (eventSlots : ℕ → ConfirmedEvent)
    (confirmer : KOfNConfirmer) : (start input slots eventSlots confirmer).Stopping input where
  ring := RingBuffer.inv_start slots
  kept := ⟨rfl, rfl⟩
  captures := ⟨⟨none, rfl⟩, by simp [start], rfl⟩
  infers := ⟨⟨none, rfl⟩, ⟨none, rfl⟩, rfl, rfl, trivial⟩

/-- The capture loop takes nothing back, and leaves the ring of events. -/
theorem captureStep_grows (h : s.captureStep cfg = some t) :
    s.frames.published.length ≤ t.frames.published.length ∧ t.events = s.events := by
  obtain ⟨_, frames, _, _, _, _, _, rfl, rfl | ⟨a, hpush⟩⟩ := captureStep_cases h
  · exact ⟨le_rfl, rfl⟩
  · refine ⟨?_, rfl⟩
    rcases RingBuffer.pushStep_cases hpush with ⟨_, _, -, -, rfl⟩ | ⟨_, _, -, -, -, rfl⟩ |
      ⟨_, _, -, -, -, rfl⟩ | ⟨_, _, -, -, rfl⟩ | ⟨_, _, _, -, -, rfl⟩ | ⟨_, _, -, -, rfl⟩ <;> simp

/-- Once the capture loop is done it takes no step, and behind the request it publishes no more
than it may. -/
theorem Infers.captureStep (hs : s.Infers) (hc : s.Captures) (hsame : s.SameInference t)
    (h : s.captureStep cfg = some t) : t.Infers := by
  obtain ⟨hgrows, hevents⟩ := captureStep_grows h
  have hspends := (hc.step h).2
  have hdone : s.captureDone ≠ true := by
    intro hdone
    rw [EdgePipeline.captureStep, hc.done hdone] at h
    cases h
  refine ⟨?_, ?_, ?_, ?_, ?_⟩
  · rw [hsame.infer, hsame.consumer]
    exact hs.fits
  · rw [hsame.infer, hevents]
    exact hs.event
  · rw [hsame.processed, hsame.popped, hs.processed]
  · rw [hsame.framesProcessed, hsame.infer, hsame.processed, hs.counted]
  · have hleft := hs.left
    rw [hsame.infer]
    cases hpc : s.infer with
    | sizeTail =>
      rw [hpc] at hleft
      exact absurd hleft hdone
    | sizeHead tail =>
      rw [hpc] at hleft
      exact absurd hleft.1 hdone
    | stopTail =>
      rw [hpc] at hleft
      exact hsame.stopRequested.trans hleft
    | stopHead tail =>
      rw [hpc] at hleft
      obtain ⟨hstop, n, htail, hreleased, hpublished, hone⟩ := hleft
      exact ⟨hsame.stopRequested.trans hstop, n, htail, hsame.released ▸ hreleased,
        hpublished.trans hgrows, (hspends hstop).2.trans hone⟩
    | finishing | ended =>
      rw [hpc] at hleft
      obtain ⟨hstop, hone⟩ := hleft.resolve_left fun hdone' => hdone hdone'.1
      exact .inr ⟨hsame.stopRequested.trans hstop,
        hsame.released ▸ (hspends hstop).2.trans hone⟩
    | test | body | entering | popping | counting | emitting | pushingEvent | releasing => trivial

/-- The capture loop adds nothing to what the inference loop has left to do. -/
theorem inferRank_captureStep (hsame : s.SameInference t) (h : s.captureStep cfg = some t)
    (hle : t.publishable ≤ s.publishable) : t.inferRank ≤ s.inferRank := by
  obtain ⟨hgrows, hevents⟩ := captureStep_grows h
  have hturn : t.turnRank ≤ s.turnRank := by
    unfold turnRank
    rw [hsame.infer, hsame.consumer, hsame.released, hevents]
    split
    all_goals try exact le_rfl
    · split_ifs <;> omega
    · split
      · split_ifs <;> omega
      · exact le_rfl
  unfold inferRank
  rw [hsame.released]
  omega

/-- The inference loop leaves what the capture loop's steps depend on. -/
theorem Captures.of_same (hs : s.Captures) (h : s.SameCapture t) :
    t.Captures ∧ t.captureRank = s.captureRank := by
  refine ⟨⟨?_, ?_, ?_⟩, ?_⟩
  · rw [h.capture, h.producer]
    exact hs.fits
  · rw [h.captureDone, h.capture]
    exact hs.done
  · rw [h.framesCaptured, h.capture, h.published]
    exact hs.counted
  · simp only [captureRank, h.capture, h.producer]

/-- A step of either loop, of the caller, or a request to stop. -/
theorem Stopping.step {input : List Frame} {a : EdgeAct} (hs : s.Stopping input)
    (h : s.step cfg a = some t) : t.Stopping input := by
  cases a with
  | capture =>
    obtain ⟨hring, hsame⟩ := captureStep_frame hs.ring h
    exact ⟨hring, hs.kept.captureStep h, (hs.captures.step h).1,
      hs.infers.captureStep hs.captures hsame h⟩
  | infer now =>
    obtain ⟨hring, hsame⟩ := inferStep_frame hs.ring h
    exact ⟨hring, hs.kept.of_same hsame, (hs.captures.of_same hsame).1,
      (hs.infers.step hs.ring h).1⟩
  | drain a =>
    obtain ⟨ring, hpop, rfl⟩ := Option.map_eq_some_iff.1 h
    have hproducer := (RingBuffer.popStep_frame hpop).1
    exact ⟨hs.ring, { hs.kept with }, { hs.captures with },
      { hs.infers with event := hproducer ▸ hs.infers.event }⟩
  | requestStop =>
    cases h
    refine ⟨hs.ring, { hs.kept with }, { hs.captures with }, { hs.infers with left := ?_ }⟩
    have hleft := hs.infers.left
    cases hpc : s.infer <;> rw [hpc] at hleft <;>
      first
      | trivial
      | exact hleft
      | exact ⟨rfl, hleft.2⟩
      | exact hleft.imp_right fun h => ⟨rfl, h.2⟩

theorem stopping_of_exec {input : List Frame} {slots : ℕ → Frame}
    {eventSlots : ℕ → ConfirmedEvent} {confirmer : KOfNConfirmer} {as : List EdgeAct}
    (h : exec (EdgePipeline.step cfg) (start input slots eventSlots confirmer) as = some s) :
    s.Stopping input :=
  exec_invariant (fun _ _ _ hs h => hs.step h) (stopping_start _ _ _ _) h

/-! ## What is left -/

/-- When both loops have ended, whenever a stop was requested, the frames processed are those
that the source has delivered for the ring, in order and each once, but for at most the last one,
and the two counters differ by that. Without a request nothing is left. The source has delivered
the first of its frames. -/
theorem stop_leaves_one (cfg : EdgeConfig) (input : List Frame) (slots : ℕ → Frame)
    (eventSlots : ℕ → ConfirmedEvent) (confirmer : KOfNConfirmer) {as : List EdgeAct}
    (h : exec (EdgePipeline.step cfg) (start input slots eventSlots confirmer) as = some s)
    (hcapture : s.capture = .ended) (hinfer : s.infer = .ended) :
    ∃ left, s.frames.published.map Prod.snd = s.processed ++ left ∧
      (s.delivered.filter Prod.snd).map Prod.fst = s.processed ++ left ∧
      s.delivered.map Prod.fst ++ s.source = input ∧ left.length ≤ 1 ∧
      (s.stopRequested = false → left = []) ∧
        s.framesCaptured = s.framesProcessed + UInt64.ofNat left.length := by
  obtain ⟨hring, hkept, hcaptures, hinfers⟩ := stopping_of_exec h
  obtain ⟨r', hproducer⟩ : ∃ r, s.frames.producer = .idle r := by
    simpa [hcapture, CapturePc.Fits] using hcaptures.fits
  have hfits := hinfers.fits
  have hleft := hinfers.left
  have hcounted := hinfers.counted
  have hcaptured := hcaptures.counted
  rw [hinfer] at hfits hleft hcounted
  rw [hcapture] at hcaptured
  obtain ⟨r, hc⟩ := hfits
  have hpopped : s.frames.popped.length = s.frames.released := hring.consumer_at hc
  have hpublishable : s.publishable = s.frames.published.length := by
    simp [publishable, hcapture, CapturePc.unpublished]
  obtain ⟨rest, hrest⟩ := hring.popped
  have hlen : s.frames.published.length = s.frames.released + rest.length := by
    rw [← hrest, List.length_append, hpopped]
  have hpublished : s.frames.published.map Prod.snd = s.processed ++ rest.map Prod.snd := by
    rw [← hrest, List.map_append, hinfers.processed]
  have hdelivered : (s.delivered.filter Prod.snd).map Prod.fst =
      s.frames.published.map Prod.snd := by
    simpa [unpublished, hproducer] using hkept.kept
  refine ⟨rest.map Prod.snd, hpublished, hdelivered.trans hpublished, hkept.delivered, ?_, ?_, ?_⟩
  · rw [List.length_map]
    rcases hleft with ⟨-, hall⟩ | ⟨-, hone⟩ <;> omega
  · intro hstop
    have hall := (hleft.resolve_right (by simp [hstop])).2
    simp [List.length_eq_zero_iff.1 (show rest.length = 0 by omega)]
  · have hprocessed : s.processed.length = s.frames.released := by
      rw [hinfers.processed, List.length_map, hpopped]
    simp only [CapturePc.uncaptured, InferPc.uncounted, UInt64.add_zero] at hcaptured hcounted
    rw [hcaptured, hcounted, hlen, hprocessed, List.length_map, UInt64.ofNat_add]

/-- The stop is requested when the capture loop is past its test, and the inference loop ends
before the frame is published. -/
def stopMidPush : List EdgeAct :=
  [.capture, .requestStop]

/-- The inference loop ends, then the capture loop. -/
def windDown : List EdgeAct :=
  List.replicate 5 (.infer 20) ++ List.replicate 7 .capture

theorem stop_leaves_one_midPush : ∃ s,
    exec (EdgePipeline.step secondPositive) fourFramesStart (stopMidPush ++ windDown) = some s ∧
      s.processed = [] ∧ ∃ left, (s.delivered.filter Prod.snd).map Prod.fst = s.processed ++ left ∧
        left.length = 1 ∧ s.framesCaptured = s.framesProcessed + 1 := by
  obtain ⟨s, h, hcapture, hinfer, hpublished, hprocessed⟩ : ∃ s,
      exec (EdgePipeline.step secondPositive) fourFramesStart (stopMidPush ++ windDown) = some s ∧
        s.capture = .ended ∧ s.infer = .ended ∧ s.frames.published.length = 1 ∧
          s.processed = [] :=
    exists_exec_of_any (by decide +kernel)
  obtain ⟨left, hleft, hdelivered, -, -, -, hcounted⟩ := stop_leaves_one _ _ _ _ _ h hcapture hinfer
  have hone : left.length = 1 := by
    simpa [hprocessed, hpublished] using (congrArg List.length hleft).symm
  exact ⟨s, h, hprocessed, left, hdelivered, hone, by rw [hcounted, hone]; rfl⟩

/-! ## The joins return -/

theorem captureRank_le (s : EdgePipeline) : s.captureRank ≤ 8 := by
  unfold captureRank
  split <;> omega

/-- The ring holds three frames, and one more may come. -/
theorem inferRank_le (hring : s.frames.Inv frameRingSlots) : s.inferRank ≤ 141 := by
  have hroom : s.frames.published.length < s.frames.released + 4 := hring.room
  have hone : s.capture.unpublished ≤ 1 := by cases s.capture <;> simp [CapturePc.unpublished]
  have hturn : s.turnRank ≤ 21 := by
    unfold turnRank
    split
    all_goals try omega
    · split_ifs <;> omega
    · split
      · split_ifs <;> omega
      · omega
    · split <;> omega
  simp only [inferRank, publishable]
  omega

end EdgePipeline

/-- A step of the capture loop. -/
def EdgeAct.isCapture : EdgeAct → Bool
  | .capture => true
  | _ => false

/-- A step of the inference loop. -/
def EdgeAct.isInfer : EdgeAct → Bool
  | .infer _ => true
  | _ => false

namespace EdgePipeline

variable {cfg : EdgeConfig} {s t : EdgePipeline}

/-- Behind the request, each loop takes from its own rank and adds to neither. -/
theorem Stopping.spends {input : List Frame} {a : EdgeAct} (hs : s.Stopping input)
    (hstop : s.stopRequested = true) (h : s.step cfg a = some t) : t.stopRequested = true ∧
      (t.captureRank ≤ s.captureRank ∧ (a.isCapture = true → t.captureRank < s.captureRank)) ∧
        t.inferRank ≤ s.inferRank ∧ (a.isInfer = true → t.inferRank < s.inferRank) := by
  cases a with
  | capture =>
    obtain ⟨-, hsame⟩ := captureStep_frame hs.ring h
    obtain ⟨hrank, hle⟩ := (hs.captures.step h).2 hstop
    exact ⟨hsame.stopRequested.trans hstop, ⟨hrank.le, fun _ => hrank⟩,
      inferRank_captureStep hsame h hle, by simp [EdgeAct.isInfer]⟩
  | infer now =>
    obtain ⟨-, hsame⟩ := inferStep_frame hs.ring h
    have hrank := (hs.infers.step hs.ring h).2 hstop
    exact ⟨hsame.stopRequested.trans hstop,
      ⟨(hs.captures.of_same hsame).2.le, by simp [EdgeAct.isCapture]⟩, hrank.le, fun _ => hrank⟩
  | drain a =>
    obtain ⟨ring, hpop, rfl⟩ := Option.map_eq_some_iff.1 h
    have hproducer := (RingBuffer.popStep_frame hpop).1
    refine ⟨hstop, ⟨le_rfl, by simp [EdgeAct.isCapture]⟩, ?_, by simp [EdgeAct.isInfer]⟩
    simp only [inferRank, publishable, turnRank, hproducer]
    exact le_rfl
  | requestStop =>
    cases h
    exact ⟨rfl, ⟨le_rfl, by simp [EdgeAct.isCapture]⟩, le_rfl, by simp [EdgeAct.isInfer]⟩

/-- From every state in which a stop is requested, in every continuation, the capture loop takes
at most 8 steps and the inference loop at most 141, and each of them can take the next one until
it has ended. So both joins of `Stop` return, whatever the other threads do. -/
theorem stop_returns (cfg : EdgeConfig) (input : List Frame) (slots : ℕ → Frame)
    (eventSlots : ℕ → ConfirmedEvent) (confirmer : KOfNConfirmer) {as bs : List EdgeAct}
    (h : exec (EdgePipeline.step cfg) (start input slots eventSlots confirmer) as = some s)
    (hstop : s.stopRequested = true) (ht : exec (EdgePipeline.step cfg) s bs = some t) :
    bs.countP EdgeAct.isCapture ≤ 8 ∧ bs.countP EdgeAct.isInfer ≤ 141 ∧
      (t.capture ≠ .ended → (t.step cfg .capture).isSome) ∧
        (t.infer ≠ .ended → ∀ now, (t.step cfg (.infer now)).isSome) := by
  have hs := stopping_of_exec h
  have ht' := stopping_of_exec (exec_append_iff.2 ⟨s, h, ht⟩)
  have hcapture : bs.countP EdgeAct.isCapture + t.captureRank ≤ s.captureRank := exec_countP_le
    (fun s a t (hs : s.Stopping input ∧ s.stopRequested = true) h =>
      ⟨⟨hs.1.step h, (hs.1.spends hs.2 h).1⟩, (hs.1.spends hs.2 h).2.1⟩) ⟨hs, hstop⟩ ht
  have hinfer : bs.countP EdgeAct.isInfer + t.inferRank ≤ s.inferRank := exec_countP_le
    (fun s a t (hs : s.Stopping input ∧ s.stopRequested = true) h =>
      ⟨⟨hs.1.step h, (hs.1.spends hs.2 h).1⟩, (hs.1.spends hs.2 h).2.2⟩) ⟨hs, hstop⟩ ht
  have hc := s.captureRank_le
  have hi := inferRank_le hs.ring
  exact ⟨by omega, by omega, ht'.captures.exists_step, ht'.infers.exists_step⟩

theorem stop_returns_midPush : ∃ s t,
    exec (EdgePipeline.step secondPositive) fourFramesStart stopMidPush = some s ∧
      s.stopRequested = true ∧ exec (EdgePipeline.step secondPositive) s windDown = some t ∧
        windDown.countP EdgeAct.isInfer ≤ 141 := by
  obtain ⟨s, h, hstop⟩ : ∃ s,
      exec (EdgePipeline.step secondPositive) fourFramesStart stopMidPush = some s ∧
        s.stopRequested = true :=
    exists_exec_of_any (by decide +kernel)
  obtain ⟨t, ht, -⟩ : ∃ t,
      exec (EdgePipeline.step secondPositive) fourFramesStart (stopMidPush ++ windDown) = some t ∧
        t.infer = .ended :=
    exists_exec_of_any (by decide +kernel)
  obtain ⟨u, hu, ht⟩ := exec_append_iff.1 ht
  obtain rfl : s = u := Option.some.inj (h.symm.trans hu)
  exact ⟨s, t, h, hstop, ht, (stop_returns _ _ _ _ _ h hstop ht).2.1⟩

end EdgePipeline

end Ridgeline
