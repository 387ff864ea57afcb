import Ridgeline.EdgeEpisodes
import Ridgeline.Letterbox
import Ridgeline.PeriodicBursts

/-!
# Bursts through the confirmer

`SyntheticFrameSource` numbers its frames from 0, and `FakeDetector` finds something in the first
`burst_length` frames of every `period`. `InferenceLoop` confirms what is found in `k` of the last
`n` frames, and builds an event where a frame makes the difference.

For frames that all reach the loop, and a window that is no longer than a period, the frames with
an event are known exactly (`confirmed_at_iff`). A burst of fewer than `k` frames is never
confirmed. A longer one has its event at its `k`-th frame, in every period if the window forgets a
burst before the next one, and otherwise in the first period only : the episode never ends.
-/

namespace Ridgeline

/-- `FakeDetector`. -/
structure FakeDetector where
  burstLength : UInt64
  period : UInt64
  deriving DecidableEq, Repr

/-- `FakeDetector::Detect`. -/
def FakeDetector.detect (d : FakeDetector) (frame : Frame) : DetectionResult :=
  if 0 < d.period ∧ frame.frameIndex % d.period < d.burstLength then
    { positive := true, confidence := 9 / 10, xMin := 4 / 10, yMin := 3 / 10, xMax := 55 / 100,
      yMax := 42 / 100 }
  else { confidence := 1 / 10 }

/-- `SyntheticFrameSource`. -/
structure SyntheticFrameSource where
  width : UInt32 := 64
  height : UInt32 := 64
  nextIndex : UInt64 := 0
  deriving DecidableEq, Repr

namespace SyntheticFrameSource

/-- The bytes of a frame, in `std::size_t`. -/
def bytes (src : SyntheticFrameSource) : ℕ :=
  src.width.toNat * src.height.toNat * 3 % 2 ^ 64

/-- `SyntheticFrameSource::Next`. The clock reads `now`. -/
def next (src : SyntheticFrameSource) (now : ℤ) : Option (Frame × SyntheticFrameSource) :=
  if src.bytes > kMaxBytes then none
  else
    some (⟨src.width, src.height, .bgr24, now, src.nextIndex,
        List.replicate src.bytes (UInt8.ofNat (src.nextIndex.toNat % 256))⟩,
      { src with nextIndex := src.nextIndex + 1 })

end SyntheticFrameSource

namespace FakeDetector

variable (d : FakeDetector)

/-- What `process` gets : the frames of the source in order, each with the time of its capture
and that of its decision. -/
def observe (d : FakeDetector) : SyntheticFrameSource → List (ℤ × ℤ) → List Observation
  | _, [] => []
  | src, (captured, decided) :: times =>
    match src.next captured with
    | none => []
    | some (f, src) => ⟨f, d.detect f, decided⟩ :: observe d src times

theorem positive_detect (hp : 0 < d.period) (f : Frame) :
    (d.detect f).positive =
      decide (f.frameIndex.toNat % d.period.toNat < d.burstLength.toNat) := by
  unfold detect
  rw [Bool.eq_iff_iff, decide_eq_true_iff, ← UInt64.toNat_mod, ← UInt64.lt_iff_toNat_lt]
  split_ifs with h
  · simpa using h.2
  · simpa using fun hlt => h ⟨hp, hlt⟩

/-- A source whose frames fit gives as many as it is asked for, numbered from its next index. -/
theorem positives_observe (hp : 0 < d.period) : ∀ (times : List (ℤ × ℤ))
    (src : SyntheticFrameSource), src.bytes ≤ kMaxBytes →
    src.nextIndex.toNat + times.length < 2 ^ 64 →
    (d.observe src times).map (fun x => x.result.positive) =
      (List.range' src.nextIndex.toNat times.length).map fun i =>
        decide (i % d.period.toNat < d.burstLength.toNat)
  | [], _, _, _ => rfl
  | (captured, decided) :: times, src, hbytes, hlen => by
    rw [List.length_cons] at hlen
    have hindex : (src.nextIndex + 1).toNat = src.nextIndex.toNat + 1 := by
      rw [UInt64.toNat_add, UInt64.toNat_one]
      omega
    have ih := positives_observe hp times { src with nextIndex := src.nextIndex + 1 } hbytes
      (by simp only [hindex]; omega)
    have hnext : src.next captured = some (⟨src.width, src.height, .bgr24, captured, src.nextIndex,
        List.replicate src.bytes (UInt8.ofNat (src.nextIndex.toNat % 256))⟩,
      { src with nextIndex := src.nextIndex + 1 }) := if_neg (not_lt.2 hbytes)
    simp only [observe, hnext, List.map_cons, List.length_cons, List.range'_succ, ih, hindex,
      d.positive_detect hp]

end FakeDetector

namespace InferenceVars

/-- What is built at a frame, from the variables after the frames before it. -/
theorem getElem?_built (s : InferenceVars) : ∀ (xs : List Observation) (i : ℕ),
    (s.built xs)[i]? = xs[i]?.map fun x => ((s.after (xs.take i)).process x).1 := by
  intro xs
  induction xs generalizing s with
  | nil => simp [built]
  | cons x xs ih =>
    rintro (- | i)
    · simp [built, after]
    · simpa [built, after] using ih (s.process x).2 i

end InferenceVars

namespace FakeDetector

/-- The level after the first `m` frames. -/
theorem confirmedLevel_observe (d : FakeDetector) (hp : 0 < d.period) {src : SyntheticFrameSource}
    (hsrc : src.nextIndex = 0) (hbytes : src.bytes ≤ kMaxBytes) {times : List (ℤ × ℤ)}
    (hlen : times.length < 2 ^ 64) (k n : UInt32) {m : ℕ} (hm : m ≤ times.length) :
    confirmedLevel k n ((d.observe src times).take m) = true ↔
      k.toNat ≤ windowHits d.burstLength.toNat d.period.toNat n.toNat m := by
  have hpositives := d.positives_observe hp times src hbytes (by simpa [hsrc] using hlen)
  rw [confirmedLevel, decide_eq_true_iff, List.map_take, hpositives, ← List.map_take, hsrc,
    UInt64.toNat_zero, ← List.range_eq_range', List.take_range, min_eq_left hm, count_rtake_range]

/-- The frames at which `process` builds an event, for every threshold, every burst and period,
and every time that passes between the frames. -/
theorem confirmed_at_iff (d : FakeDetector) {src : SyntheticFrameSource} (hsrc : src.nextIndex = 0)
    (hbytes : src.bytes ≤ kMaxBytes) {k n : UInt32} {c : KOfNConfirmer}
    (hc : KOfNConfirmer.create k n = some c) (hn : n.toNat ≤ d.period.toNat)
    {times : List (ℤ × ℤ)} (hlen : times.length < 2 ^ 64) {i : ℕ} (hi : i < times.length) :
    (∃ ev, (InferenceVars.built ⟨c, false⟩ (d.observe src times))[i]? = some (some ev)) ↔
      k.toNat ≤ d.burstLength.toNat ∧
        if n.toNat < d.period.toNat - d.burstLength.toNat + k.toNat then
          i % d.period.toNat = k.toNat - 1
        else i = k.toNat - 1 := by
  have hvalid : KOfNConfirmer.ValidThreshold k n := by
    by_contra h
    simp [KOfNConfirmer.create_eq_none_iff.2 h] at hc
  have hk : 1 ≤ k.toNat := UInt32.le_iff_toNat_le.1 hvalid.1
  have hkn : k.toNat ≤ n.toNat := UInt32.le_iff_toNat_le.1 hvalid.2
  have hp : 0 < d.period := by
    rw [UInt64.lt_iff_toNat_lt, UInt64.toNat_zero]
    omega
  have hlength : (d.observe src times).length = times.length := by
    have := congrArg List.length
      (d.positives_observe hp times src hbytes (by simpa [hsrc] using hlen))
    simpa using this
  have hlevel := fun {m} hm => d.confirmedLevel_observe hp hsrc hbytes hlen k n (m := m) hm
  obtain ⟨x, hx⟩ : ∃ x, (d.observe src times)[i]? = some x :=
    ⟨_, List.getElem?_eq_getElem (hlength ▸ hi)⟩
  have hedge := ((InferenceVars.tracks_start hvalid.1 hc).after
    ((d.observe src times).take i)).event_iff x
  have hsnoc : (d.observe src times).take i ++ [x] = (d.observe src times).take (i + 1) := by
    rw [List.take_add_one, hx, Option.toList_some]
  rw [hsnoc, hlevel hi, ← Bool.not_eq_true, hlevel hi.le, not_le, rises_iff hk hkn hn] at hedge
  rw [InferenceVars.getElem?_built, hx, ← hedge, Option.isSome_iff_exists]
  simp

/-- Bursts of 8 frames in 50, confirmed by 3 of 5. -/
def eightInFifty : FakeDetector :=
  ⟨8, 50⟩

/-- The event of the second burst is at its third frame. -/
theorem confirmed_at_iff_eightInFifty : ∃ c, KOfNConfirmer.create 3 5 = some c ∧
    ∃ ev, (InferenceVars.built ⟨c, false⟩
      (eightInFifty.observe {} (List.replicate 100 (0, 0))))[52]? = some (some ev) := by
  obtain ⟨c, hc⟩ := KOfNConfirmer.exists_create (k := 3) (n := 5) (by decide)
  exact ⟨c, hc, (confirmed_at_iff eightInFifty rfl (by decide) hc (by decide) (by decide)
    (by decide)).2 (by decide)⟩

end FakeDetector

end Ridgeline
