import Ridgeline.EdgePipeline

/-!
# Confirmed episodes

`process`, the callback in which `InferenceLoop` handles a frame, as one function : the detector's
result goes to the confirmer, and an event is built when the confirmer says yes after a no. The
sequence of frames and results is arbitrary.

The number of positive results in the window grows by at most one with a frame, and only with a
positive one (`count_rtake_concat_le`). So an event is built at the first frame of each episode,
that frame is positive, and exactly `k` frames of the window are (`events_at_episodes`).
-/

namespace Ridgeline

/-- A frame with what the detector says of it, and what the clock shows. -/
structure Observation where
  frame : Frame
  result : DetectionResult
  now : ℤ
  deriving DecidableEq, Repr

/-- The variables of `InferenceLoop`. -/
structure InferenceVars where
  confirmer : KOfNConfirmer
  wasConfirmed : Bool := false
  deriving DecidableEq, Repr

namespace InferenceVars

/-- `process` : the event that is built, and the variables behind it. -/
def process (s : InferenceVars) (x : Observation) : Option ConfirmedEvent × InferenceVars :=
  let updated := s.confirmer.update x.result.positive
  (if updated.1 && !s.wasConfirmed then some (.of x.frame x.result updated.2 x.now) else none,
    ⟨updated.2, updated.1⟩)

/-- The variables after some frames. -/
def after (s : InferenceVars) (xs : List Observation) : InferenceVars :=
  xs.foldl (fun s x => (s.process x).2) s

/-- What is built at each frame. -/
def built (s : InferenceVars) : List Observation → List (Option ConfirmedEvent)
  | [] => []
  | x :: xs => (s.process x).1 :: built (s.process x).2 xs

end InferenceVars

/-- The two steps of the pipeline in which `process` runs : the variables behind them and the event
that goes to the ring are those of the function. -/
theorem EdgePipeline.inferStep_process {cfg : EdgeConfig} {s t u : EdgePipeline} {head : ℕ}
    {now now' : ℤ} (hpc : s.infer = .popping) (hpop : s.frames.consumer = .nonEmpty head)
    (ht : s.inferStep cfg now = some t) (hu : t.inferStep cfg now' = some u) :
    InferenceVars.process ⟨s.confirmer, s.wasConfirmed⟩
        ⟨s.frames.slots head, cfg.detect (s.frames.slots head), now'⟩ =
      ((match u.infer with
        | .emitting ev => some ev
        | _ => none), ⟨u.confirmer, u.wasConfirmed⟩) := by
  simp only [inferStep, hpc, hpop] at ht
  obtain ⟨ring, -, rfl⟩ := Option.map_eq_some_iff.1 ht
  simp only [inferStep, Option.some.injEq] at hu
  subst hu
  simp only [InferenceVars.process]
  split_ifs <;> rfl

/-- Of the last `n` frames, at least `k` are positive. -/
def confirmedLevel (k n : UInt32) (xs : List Observation) : Bool :=
  k.toNat ≤ ((xs.map fun x => x.result.positive).rtake n.toNat).count true

/-! ## One frame -/

/-- A frame adds at most its own result to the positive ones of the window. -/
theorem count_rtake_concat_le (l : List Bool) (b : Bool) (m : ℕ) :
    ((l ++ [b]).rtake m).count true ≤ (l.rtake m).count true + [b].count true := by
  have hsub : ((l ++ [b]).rtake m).Sublist (l.rtake m ++ [b]) := by
    rw [← KOfNConfirmer.rtake_rtake_concat]
    exact List.drop_sublist _ _
  rw [← List.count_append]
  exact hsub.count_le true

namespace InferenceVars

/-- The confirmer has the results of the frames `xs`, and the level before the next frame is
known. -/
structure Tracks (k n : UInt32) (xs : List Observation) (s : InferenceVars) : Prop where
  confirmer : KOfNConfirmer.Windowed k n (xs.map fun x => x.result.positive) s.confirmer
  level : s.wasConfirmed = confirmedLevel k n xs

variable {k n : UInt32} {xs : List Observation} {s : InferenceVars}

theorem tracks_start (hk : 1 ≤ k) {c : KOfNConfirmer} (hc : KOfNConfirmer.create k n = some c) :
    Tracks k n [] ⟨c, false⟩ := by
  refine ⟨KOfNConfirmer.windowed_create hc, ?_⟩
  have hpos : ¬ k.toNat ≤ 0 := by
    rw [UInt32.le_iff_toNat_le, UInt32.toNat_one] at hk
    omega
  simpa [confirmedLevel] using hpos

theorem Tracks.process (hs : Tracks k n xs s) (x : Observation) :
    Tracks k n (xs ++ [x]) (s.process x).2 := by
  have hanswer := hs.confirmer.answer x.result.positive
  refine ⟨?_, ?_⟩
  · rw [List.map_append]
    exact hs.confirmer.update _
  · rw [Bool.eq_iff_iff, confirmedLevel, decide_eq_true_iff, List.map_append]
    exact hanswer

theorem Tracks.after (hs : Tracks k n [] s) (xs : List Observation) :
    Tracks k n xs (s.after xs) := by
  induction xs using List.reverseRecOn with
  | nil => exact hs
  | append_singleton xs x ih =>
    rw [InferenceVars.after, List.foldl_concat]
    exact ih.process x

theorem process_eq (s : InferenceVars) (x : Observation) : (s.process x).1 =
    if (s.process x).2.wasConfirmed && !s.wasConfirmed then
      some (.of x.frame x.result (s.process x).2.confirmer x.now)
    else none :=
  rfl

theorem Tracks.event_iff (hs : Tracks k n xs s) (x : Observation) :
    (s.process x).1.isSome = true ↔
      confirmedLevel k n xs = false ∧ confirmedLevel k n (xs ++ [x]) = true := by
  rw [← hs.level, ← (hs.process x).level, process_eq]
  cases s.wasConfirmed <;> cases (s.process x).2.wasConfirmed <;> simp

/-- The frame at which the level rises is positive, and makes the number of positive ones `k`. -/
theorem rising (hlow : confirmedLevel k n xs = false) {x : Observation}
    (hhigh : confirmedLevel k n (xs ++ [x]) = true) : x.result.positive = true ∧
      (((xs ++ [x]).map fun x => x.result.positive).rtake n.toNat).count true = k.toNat := by
  rw [confirmedLevel, decide_eq_false_iff_not, not_le] at hlow
  rw [confirmedLevel, decide_eq_true_iff] at hhigh
  have hstep := count_rtake_concat_le (xs.map fun x => x.result.positive) x.result.positive n.toNat
  rw [List.map_append, List.map_singleton] at hhigh ⊢
  cases hx : x.result.positive with
  | false =>
    simp only [hx, List.count_singleton, beq_iff_eq, Bool.false_eq_true, if_false] at hstep hhigh
    omega
  | true =>
    simp only [hx, List.count_singleton, beq_self_eq_true, if_true] at hstep hhigh
    exact ⟨rfl, by omega⟩

/-- What an event says, by its frame and the threshold. -/
structure FromFrame (k n : UInt32) (x : Observation) (ev : ConfirmedEvent) : Prop where
  positive : x.result.positive = true
  confidence : ev.confidence = x.result.confidence
  box : (ev.xMin, ev.yMin, ev.xMax, ev.yMax) =
    (x.result.xMin, x.result.yMin, x.result.xMax, x.result.yMax)
  frame : (ev.frameIndex, ev.captureTimeUnixNs) = (x.frame.frameIndex, x.frame.captureTimeUnixNs)
  framesConfirmed : ev.framesConfirmed = k
  k_le_windowSize : k ≤ ev.windowSize
  windowSize_le_n : ev.windowSize ≤ n

theorem Tracks.fromFrame (hs : Tracks k n xs s) {x : Observation} {ev : ConfirmedEvent}
    (h : (s.process x).1 = some ev) : FromFrame k n x ev := by
  obtain ⟨hlow, hhigh⟩ := (hs.event_iff x).1 (by rw [h]; rfl)
  obtain ⟨hpositive, hcount⟩ := rising hlow hhigh
  have hnext := (hs.process x).confirmer
  have hsize : (UInt32.ofNat (s.process x).2.confirmer.window.length).toNat =
      (s.process x).2.confirmer.window.length := by
    have hle := hnext.length_le
    have hlt := (s.process x).2.confirmer.n.toNat_lt
    rw [UInt32.toNat_ofNat', Nat.mod_eq_of_lt (by omega)]
  have hwindow : (s.process x).2.confirmer.window.count true = k.toNat := by
    rw [hnext.window]
    exact hcount
  rw [process_eq] at h
  split_ifs at h
  cases h
  refine ⟨hpositive, rfl, rfl, rfl, ?_, ?_, ?_⟩
  · exact UInt32.toNat_inj.1 (hnext.toNat_positiveCount.trans hcount)
  · rw [UInt32.le_iff_toNat_le, ← hwindow]
    exact List.count_le_length.trans_eq hsize.symm
  · rw [UInt32.le_iff_toNat_le, ← hnext.n_eq]
    exact hsize.trans_le hnext.length_le

/-! ## One episode -/

/-- The level is up at each of the frames `ys`, which follow `xs`. -/
def StaysUp (k n : UInt32) (xs ys : List Observation) : Prop :=
  ∀ zs, zs ≠ [] → zs <+: ys → confirmedLevel k n (xs ++ zs) = true

theorem StaysUp.cons {y : Observation} {ys : List Observation} (h : StaysUp k n xs (y :: ys)) :
    confirmedLevel k n (xs ++ [y]) = true ∧ StaysUp k n (xs ++ [y]) ys := by
  refine ⟨h [y] (by simp) (by simp), fun zs _ hzs => ?_⟩
  rw [List.append_assoc]
  exact h (y :: zs) (by simp) (List.cons_prefix_cons.2 ⟨rfl, hzs⟩)

/-- While the level stays up, no event is built. -/
theorem Tracks.built_none {ys : List Observation} (hs : Tracks k n xs s)
    (hup : confirmedLevel k n xs = true) (hys : StaysUp k n xs ys) :
    s.built ys = List.replicate ys.length none := by
  induction ys generalizing xs s with
  | nil => rfl
  | cons y ys ih =>
    obtain ⟨hy, hrest⟩ := hys.cons
    have hnone : (s.process y).1 = none := by
      rw [← Option.not_isSome_iff_eq_none, hs.event_iff, hup]
      simp
    rw [built, hnone, ih (hs.process y) hy hrest]
    rfl

/-- Of frames at which the level is up, the first behind one at which it was down is the one with an
event. -/
theorem Tracks.built_episode {y : Observation} {ys : List Observation} (hs : Tracks k n xs s)
    (hlow : confirmedLevel k n xs = false) (hys : StaysUp k n xs (y :: ys)) :
    ∃ ev, s.built (y :: ys) = some ev :: List.replicate ys.length none := by
  obtain ⟨hy, hrest⟩ := hys.cons
  obtain ⟨ev, hev⟩ := Option.isSome_iff_exists.1 ((hs.event_iff y).2 ⟨hlow, hy⟩)
  exact ⟨ev, by rw [built, hev, (hs.process y).built_none hy hrest]⟩

/-- What `process` builds from the start, over any sequence of frames and results. -/
structure EpisodeEvents (k n : UInt32) (s : InferenceVars) : Prop where
  /-- An event is built where the level rises. -/
  edge : ∀ xs x, ((s.after xs).process x).1.isSome = true ↔
    confirmedLevel k n xs = false ∧ confirmedLevel k n (xs ++ [x]) = true
  event : ∀ xs x ev, ((s.after xs).process x).1 = some ev → FromFrame k n x ev
  /-- An episode has one event, at its first frame. -/
  once : ∀ xs y ys, confirmedLevel k n xs = false → StaysUp k n xs (y :: ys) →
    ∃ ev, (s.after xs).built (y :: ys) = some ev :: List.replicate ys.length none

theorem events_at_episodes (h : KOfNConfirmer.ValidThreshold k n) :
    ∃ c, KOfNConfirmer.create k n = some c ∧ EpisodeEvents k n ⟨c, false⟩ := by
  obtain ⟨c, hc⟩ := KOfNConfirmer.exists_create h
  have htracks := (tracks_start h.1 hc).after
  exact ⟨c, hc, fun xs x => (htracks xs).event_iff x, fun xs x ev => (htracks xs).fromFrame,
    fun xs y ys => (htracks xs).built_episode⟩

/-- Frames of which the first two are positive, then three are not, and then two are. -/
def twoEpisodes : List Observation :=
  [true, true, false, false, false, true, true].map fun positive =>
    ⟨{}, { positive := positive }, 0⟩

/-- Two of three : the first episode begins at the second frame and ends with the third, and the
next one begins at the last frame. -/
theorem events_at_episodes_twoOfThree : KOfNConfirmer.ValidThreshold 2 3 ∧
    ∃ c, KOfNConfirmer.create 2 3 = some c ∧ EpisodeEvents 2 3 ⟨c, false⟩ ∧
      (built ⟨c, false⟩ twoEpisodes).map Option.isSome =
        [false, true, false, false, false, false, true] := by
  obtain ⟨c, hc, hevents⟩ := events_at_episodes (k := 2) (n := 3) (by decide)
  refine ⟨by decide, c, hc, hevents, ?_⟩
  obtain rfl : ⟨2, 3, by decide, by decide, [], 0⟩ = c := Option.some.inj hc
  decide

end InferenceVars

end Ridgeline
