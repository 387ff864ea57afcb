import Mathlib.Algebra.Order.Floor.Ring
import Mathlib.Tactic.NormNum
import Ridgeline.Backoff
import Ridgeline.Letterbox
import Ridgeline.Transition

/-!
# Frames of a video

`VideoFileFrameSource::Next`. An image that is larger than a frame can hold is made smaller, by a
factor that is computed in `double`, and the rows are copied one by one to the array of the frame.

OpenCV is a parameter (`ImageLibrary`) : `cv::VideoCapture` with its `read` and the seek to the
first image, and `cv::resize`. What is assumed of it is said by two named hypotheses. `Plays` : the
images of a video are read in order, nothing is read behind the last, and the seek leads to the
first one. `Resizes` : the sides of the new image are those of the old one times the factor, rounded
to a nearest integer, and an exception is thrown if one of them is not positive. Which pixels the
new image has is left open. A rounding of `double` is any with a relative error of at most `2⁻⁵³`
(`Rounds`).

Under these, whatever the rounding, the size is within the limits and one of its sides is at its
limit, so that no row is copied to a place outside of the array (`delivered_frames`). A call fails
with an exception where one side of the image is so much longer than the other that the shorter one
becomes 0, and this ends the process; it returns false behind the last image, if the video does not
start again, and at an image of another type, even if it does (`next_after_run`).
-/

namespace Ridgeline

/-! ## The code -/

/-- `cv::Mat`, with the bytes of its rows, if it has three bytes for a pixel (`CV_8UC3`). -/
structure Mat where
  cols : ℕ
  rows : ℕ
  is8UC3 : Bool
  row : ℕ → Vector UInt8 (cols * 3)

/-- The sides of an image that is not empty, which are `int`s. -/
structure Mat.Sized (m : Mat) : Prop where
  cols_pos : 0 < m.cols
  rows_pos : 0 < m.rows
  cols_lt : m.cols < 2 ^ 31
  rows_lt : m.rows < 2 ^ 31

/-- The images of a video. -/
structure Video where
  images : List Mat
  sized : ∀ m ∈ images, m.Sized

/-- `Frame::kMaxWidth`. -/
def kMaxWidth : ℕ := 1280

/-- `Frame::kMaxHeight`. -/
def kMaxHeight : ℕ := 720

/-- OpenCV, and the rounding of `double`. A `cv::VideoCapture` has states `σ` : `read` gives the
image that it reads, if it returns true, and `rewind` is `set(cv::CAP_PROP_POS_FRAMES, 0)`.
`resize` is `cv::resize` by a factor for both sides, or `none` if it throws, and `round` is how it
rounds a side. -/
structure ImageLibrary (σ : Type*) where
  fl : ℚ → ℚ
  round : ℚ → ℤ
  read : σ → Option Mat × σ
  rewind : σ → σ
  resize : Mat → ℚ → Option Mat

variable {σ : Type*}

namespace Mat

variable (lib : ImageLibrary σ) (m : Mat)

/-- `empty`. -/
def isEmpty : Bool :=
  m.cols = 0 ∨ m.rows = 0

/-- The factor that brings both sides within the limits. -/
def scale : ℚ :=
  min (lib.fl (kMaxWidth / m.cols)) (lib.fl (kMaxHeight / m.rows))

/-- The image that is copied. -/
def fit : Option Mat :=
  if kMaxWidth < m.cols ∨ kMaxHeight < m.rows then lib.resize m (m.scale lib) else some m

end Mat

/-- `std::memcpy` to a place of an array, unless it would leave the array. -/
def memcpy (array : Bytes) (offset : ℕ) (bytes : Bytes) : Option Bytes :=
  if offset + bytes.length ≤ array.length then
    some (array.take offset ++ bytes ++ array.drop (offset + bytes.length))
  else none

/-- The first rows, copied one by one. -/
def Mat.copyRows (m : Mat) : ℕ → Bytes → Option Bytes
  | 0, array => some array
  | y + 1, array =>
    (m.copyRows y array).bind fun array => memcpy array (y * (m.cols * 3)) (m.row y).toList

/-- The bytes of the first rows. -/
def Mat.firstRows (m : Mat) (y : ℕ) : Bytes :=
  (List.range y).flatMap fun i => (m.row i).toList

/-- `VideoFileFrameSource`. -/
structure VideoFileFrameSource (σ : Type*) where
  capture : σ
  loop : Bool
  nextIndex : UInt64 := 0

/-- A frame with its array, `false`, an exception, or a write outside of the array. -/
inductive NextResult
  | frame (f : Frame) (array : Bytes)
  | noFrame
  | exception
  | overrun
  deriving DecidableEq, Repr

namespace VideoFileFrameSource

variable (lib : ImageLibrary σ) (src : VideoFileFrameSource σ)

/-- `capture.read`, and the check for an image that is empty. -/
def read : Option Mat × VideoFileFrameSource σ :=
  match lib.read src.capture with
  | (some m, capture) => (if m.isEmpty then none else some m, { src with capture })
  | (none, capture) => (none, { src with capture })

/-- The image that a call works with : if the video starts again, the first one behind the last. -/
def readNext : Option Mat × VideoFileFrameSource σ :=
  match src.read lib with
  | (some m, src') => (some m, src')
  | (none, src') =>
    if src.loop then read lib { src' with capture := lib.rewind src'.capture } else (none, src')

/-- `Next`, into a frame whose array is `array`. The clock reads `now`. -/
def next (array : Vector UInt8 kMaxBytes) (now : ℤ) : NextResult × VideoFileFrameSource σ :=
  match src.readNext lib with
  | (none, src') => (.noFrame, src')
  | (some m, src') =>
    if m.is8UC3 = false then (.noFrame, src')
    else
      match m.fit lib with
      | none => (.exception, src')
      | some image =>
        match image.copyRows image.rows array.toList with
        | none => (.overrun, src')
        | some array =>
          (.frame ⟨UInt32.ofNat image.cols, UInt32.ofNat image.rows, .bgr24, now, src'.nextIndex,
              array.take (image.cols * 3 * image.rows)⟩ array,
            { src' with nextIndex := src'.nextIndex + 1 })

end VideoFileFrameSource

/-- The capture loop calls `Next` until it gives no frame. -/
structure VideoCapture (σ : Type*) where
  source : VideoFileFrameSource σ
  delivered : List (Frame × Bytes) := []

/-- A call, with the array it is to fill and the time. -/
def VideoCapture.step (lib : ImageLibrary σ) (s : VideoCapture σ)
    (call : Vector UInt8 kMaxBytes × ℤ) : Option (VideoCapture σ) :=
  match s.source.next lib call.1 call.2 with
  | (.frame f array, source) => some { source, delivered := s.delivered ++ [(f, array)] }
  | _ => none

/-! ## What is assumed of OpenCV -/

/-- A rounding to a nearest integer, halves in any way. -/
def Nearest (round : ℚ → ℤ) : Prop :=
  ∀ x, |(round x : ℚ) - x| ≤ 1 / 2

namespace ImageLibrary

/-- `cv::resize` by a factor : each side is multiplied, in `double`, and rounded; it throws if a
side is then not positive, and keeps the type of the image. -/
structure Resizes (lib : ImageLibrary σ) : Prop where
  rounds : Rounds lib.fl
  nearest : Nearest lib.round
  throws_iff : ∀ m s, lib.resize m s = none ↔
    lib.round (lib.fl (m.cols * s)) ≤ 0 ∨ lib.round (lib.fl (m.rows * s)) ≤ 0
  cols : ∀ m s image, lib.resize m s = some image →
    (image.cols : ℤ) = lib.round (lib.fl (m.cols * s))
  rows : ∀ m s image, lib.resize m s = some image →
    (image.rows : ℤ) = lib.round (lib.fl (m.rows * s))
  type : ∀ m s image, lib.resize m s = some image → image.is8UC3 = m.is8UC3

/-- `cv::VideoCapture` on a video. `Stands c i` says that the next image to be read is the `i`-th
one. Images are read in order, and behind the last one nothing or an empty image. The seek leads to
the first image, which is assumed only if the source is to use it. -/
structure Plays (lib : ImageLibrary σ) (video : Video) (loop : Bool) (Stands : σ → ℕ → Prop) :
    Prop where
  reads : ∀ c i m, Stands c i → video.images[i]? = some m →
    ∃ c', lib.read c = (some m, c') ∧ Stands c' (i + 1)
  ends : ∀ c i, Stands c i → video.images[i]? = none →
    (∀ m, (lib.read c).1 = some m → m.isEmpty) ∧ Stands (lib.read c).2 i
  rewinds : loop = true → ∀ c i, Stands c i → Stands (lib.rewind c) 0

end ImageLibrary

/-! ## Rounding -/

theorem Nearest.le {round : ℚ → ℤ} (hround : Nearest round) {x : ℚ} {k : ℤ} (h : x < k + 1 / 2) :
    round x ≤ k := by
  have herr := (abs_le.1 (hround x)).2
  have : (round x : ℚ) < k + 1 := by linarith
  exact Int.lt_add_one_iff.1 (by exact_mod_cast this)

theorem Nearest.ge {round : ℚ → ℤ} (hround : Nearest round) {x : ℚ} {k : ℤ} (h : k - 1 / 2 < x) :
    k ≤ round x := by
  have herr := (abs_le.1 (hround x)).1
  have : (k : ℚ) < round x + 1 := by linarith
  exact Int.lt_add_one_iff.1 (by exact_mod_cast this)

section Sizes

variable {fl : ℚ → ℚ} {round : ℚ → ℤ} {c c' l' s : ℚ}

theorem Rounds.le_mul (hfl : Rounds fl) {x : ℚ} (hx : 0 ≤ x) : fl x ≤ x * (1 + 1 / 2 ^ 53) := by
  have herr := (abs_le.1 (hfl x)).2
  rw [abs_of_nonneg hx] at herr
  linarith

theorem Rounds.mul_le (hfl : Rounds fl) {x : ℚ} (hx : 0 ≤ x) : x * (1 - 1 / 2 ^ 53) ≤ fl x := by
  have herr := (abs_le.1 (hfl x)).1
  rw [abs_of_nonneg hx] at herr
  linarith

theorem Rounds.nonneg (hfl : Rounds fl) {x : ℚ} (hx : 0 ≤ x) : 0 ≤ fl x := by
  refine le_trans ?_ (hfl.mul_le hx)
  exact mul_nonneg hx (by norm_num)

/-- A side `c`, scaled by no more than what brings a side `c'` to `l'`, rounded twice. -/
theorem Rounds.scaled_le (hfl : Rounds fl) (hc : 0 ≤ c) (hc' : 0 < c') (hl' : 0 ≤ l') (hs : 0 ≤ s)
    (hle : s ≤ fl (l' / c')) : fl (c * s) ≤ c * l' / c' * (1 + 1 / 2 ^ 51) := by
  have hq : 0 ≤ l' / c' := div_nonneg hl' hc'.le
  have hone : (1 + 1 / 2 ^ 53) * (1 + 1 / 2 ^ 53) ≤ (1 + 1 / 2 ^ 51 : ℚ) := by norm_num
  calc fl (c * s) ≤ c * s * (1 + 1 / 2 ^ 53) := hfl.le_mul (mul_nonneg hc hs)
    _ ≤ c * (l' / c' * (1 + 1 / 2 ^ 53)) * (1 + 1 / 2 ^ 53) := by
      gcongr
      exact hle.trans (hfl.le_mul hq)
    _ = c * l' / c' * ((1 + 1 / 2 ^ 53) * (1 + 1 / 2 ^ 53)) := by ring
    _ ≤ c * l' / c' * (1 + 1 / 2 ^ 51) := by gcongr

theorem Rounds.le_scaled (hfl : Rounds fl) (hc : 0 ≤ c) (hc' : 0 < c') (hl' : 0 ≤ l')
    (hs : s = fl (l' / c')) : c * l' / c' * (1 - 1 / 2 ^ 51) ≤ fl (c * s) := by
  have hq : 0 ≤ l' / c' := div_nonneg hl' hc'.le
  have hone : (1 - 1 / 2 ^ 51 : ℚ) ≤ (1 - 1 / 2 ^ 53) * (1 - 1 / 2 ^ 53) := by norm_num
  have hs₀ : 0 ≤ s := hs ▸ hfl.nonneg hq
  calc c * l' / c' * (1 - 1 / 2 ^ 51)
      ≤ c * l' / c' * ((1 - 1 / 2 ^ 53) * (1 - 1 / 2 ^ 53)) := by gcongr
    _ = c * (l' / c' * (1 - 1 / 2 ^ 53)) * (1 - 1 / 2 ^ 53) := by ring
    _ ≤ c * s * (1 - 1 / 2 ^ 53) := by
      have hle : l' / c' * (1 - 1 / 2 ^ 53) ≤ s := hs ▸ hfl.mul_le hq
      have : (0 : ℚ) ≤ 1 - 1 / 2 ^ 53 := by norm_num
      gcongr
    _ ≤ fl (c * s) := hfl.mul_le (mul_nonneg hc hs₀)

/-- No side gets beyond its limit. -/
theorem Rounds.round_le_limit (hfl : Rounds fl) (hround : Nearest round) (hc : 0 < c) {l : ℕ}
    (hl : l ≤ kMaxWidth) (hs : 0 ≤ s) (hle : s ≤ fl (l / c)) : round (fl (c * s)) ≤ l := by
  have hl' : (l : ℚ) ≤ 1280 := by exact_mod_cast hl
  have hside : c * l / c = l := mul_div_cancel_left₀ _ hc.ne'
  have hhigh := hfl.scaled_le hc.le hc l.cast_nonneg hs hle
  rw [hside] at hhigh
  apply hround.le
  push_cast
  linarith

/-- A side is brought to its limit. -/
theorem Rounds.round_eq (hfl : Rounds fl) (hround : Nearest round) (hc : 0 < c) {l : ℕ}
    (hl : l ≤ kMaxWidth) (hs : s = fl (l / c)) : round (fl (c * s)) = l := by
  have hl' : (l : ℚ) ≤ 1280 := by exact_mod_cast hl
  have hside : c * l / c = l := mul_div_cancel_left₀ _ hc.ne'
  have hlow := hfl.le_scaled hc.le hc l.cast_nonneg hs
  rw [hside] at hlow
  apply le_antisymm (hfl.round_le_limit hround hc hl (hs ▸ hfl.nonneg (by positivity)) hs.le)
  apply hround.ge
  push_cast
  linarith

/-- A side that is too short for the other one is rounded to 0. -/
theorem Rounds.round_nonpos (hfl : Rounds fl) (hround : Nearest round) {c c' l : ℕ}
    (hc' : c' < 2 ^ 31) (hflat : 2 * l * c < c') (hs : 0 ≤ s) (hle : s ≤ fl (l / c')) :
    round (fl (c * s)) ≤ 0 := by
  have hpos : (0 : ℚ) < c' := by exact_mod_cast Nat.zero_lt_of_lt hflat
  have hlt : (c' : ℚ) < 2 ^ 31 := by exact_mod_cast hc'
  have hflat' : (2 * l * c + 1 : ℚ) ≤ c' := by exact_mod_cast hflat
  have hquot : (c * l / c' : ℚ) ≤ 1 / 2 - 1 / 2 ^ 32 := by
    rw [div_le_iff₀ hpos]
    linarith
  have hhigh := hfl.scaled_le c.cast_nonneg hpos l.cast_nonneg hs hle
  apply hround.le
  push_cast
  linarith

/-- Any other side stays positive. -/
theorem Rounds.one_le_round (hfl : Rounds fl) (hround : Nearest round) {c c' l : ℕ}
    (hpos : 0 < c') (hc' : c' < 2 ^ 31) (hflat : c' < 2 * l * c) (hs : s = fl (l / c')) :
    1 ≤ round (fl (c * s)) := by
  have hpos' : (0 : ℚ) < c' := by exact_mod_cast hpos
  have hlt : (c' : ℚ) < 2 ^ 31 := by exact_mod_cast hc'
  have hflat' : (c' + 1 : ℚ) ≤ 2 * l * c := by exact_mod_cast hflat
  have hquot : 1 / 2 + 1 / 2 ^ 32 ≤ (c * l / c' : ℚ) := by
    rw [le_div_iff₀ hpos']
    linarith
  have hlow := hfl.le_scaled c.cast_nonneg hpos' l.cast_nonneg hs
  apply hround.ge
  push_cast
  linarith

end Sizes

/-! ## The image that is copied -/

namespace Mat

variable {lib : ImageLibrary σ} {m image : Mat}

/-- One side of the image is too short for the other one. -/
def Flat (m : Mat) : Prop :=
  2 * kMaxWidth * m.rows < m.cols ∨ 2 * kMaxHeight * m.cols < m.rows

instance (m : Mat) : Decidable m.Flat :=
  inferInstanceAs (Decidable (_ ∨ _))

theorem scale_nonneg (hfl : Rounds lib.fl) : 0 ≤ m.scale lib :=
  le_min (hfl.nonneg (by positivity)) (hfl.nonneg (by positivity))

theorem scale_eq (lib : ImageLibrary σ) (m : Mat) : m.scale lib = lib.fl (kMaxWidth / m.cols) ∨
    m.scale lib = lib.fl (kMaxHeight / m.rows) :=
  min_choice _ _

/-- What is copied is within the limits, and at one of them if it is not the image itself. -/
structure Fits (m image : Mat) : Prop where
  cols_pos : 0 < image.cols
  rows_pos : 0 < image.rows
  cols_le : image.cols ≤ kMaxWidth
  rows_le : image.rows ≤ kMaxHeight
  whole : m.cols ≤ kMaxWidth → m.rows ≤ kMaxHeight → image = m
  shrunk : kMaxWidth < m.cols ∨ kMaxHeight < m.rows →
    image.cols = kMaxWidth ∨ image.rows = kMaxHeight

theorem fits_of_resize (hlib : lib.Resizes) (hm : m.Sized)
    (hlarge : kMaxWidth < m.cols ∨ kMaxHeight < m.rows)
    (h : lib.resize m (m.scale lib) = some image) : m.Fits image := by
  have hfl := hlib.rounds
  have hcols : (0 : ℚ) < m.cols := by exact_mod_cast hm.cols_pos
  have hrows : (0 : ℚ) < m.rows := by exact_mod_cast hm.rows_pos
  have hs := scale_nonneg (m := m) hfl
  have hw := hfl.round_le_limit hlib.nearest hcols le_rfl hs (min_le_left _ _)
  have hh := hfl.round_le_limit hlib.nearest hrows (by decide : kMaxHeight ≤ kMaxWidth) hs
    (min_le_right _ _)
  have hlimit : lib.round (lib.fl (m.cols * m.scale lib)) = kMaxWidth ∨
      lib.round (lib.fl (m.rows * m.scale lib)) = kMaxHeight := by
    rcases m.scale_eq lib with hmin | hmin
    · exact .inl (hfl.round_eq hlib.nearest hcols le_rfl hmin)
    · exact .inr (hfl.round_eq hlib.nearest hrows (by decide) hmin)
  have hpos := mt (hlib.throws_iff m (m.scale lib)).2 (by simp [h])
  rw [← hlib.cols _ _ _ h] at hw hlimit hpos
  rw [← hlib.rows _ _ _ h] at hh hlimit hpos
  refine ⟨?_, ?_, ?_, ?_, fun _ _ => by omega, fun _ => ?_⟩ <;> omega

theorem is8UC3_of_fit (hlib : lib.Resizes) (h : m.fit lib = some image) :
    image.is8UC3 = m.is8UC3 := by
  unfold fit at h
  split_ifs at h
  · exact hlib.type _ _ _ h
  · cases h
    rfl

theorem fits_of_fit (hlib : lib.Resizes) (hm : m.Sized) (h : m.fit lib = some image) :
    m.Fits image := by
  unfold fit at h
  split_ifs at h with hlarge
  · exact fits_of_resize hlib hm hlarge h
  · cases h
    rw [not_or, not_lt, not_lt] at hlarge
    exact ⟨hm.cols_pos, hm.rows_pos, hlarge.1, hlarge.2, fun _ _ => rfl, by omega⟩

theorem resize_flat (hlib : lib.Resizes) (hm : m.Sized) (hflat : m.Flat) :
    lib.resize m (m.scale lib) = none := by
  have hfl := hlib.rounds
  have hs := scale_nonneg (m := m) hfl
  refine (hlib.throws_iff _ _).2 ?_
  rcases hflat with hflat | hflat
  · exact .inr (hfl.round_nonpos hlib.nearest hm.cols_lt hflat hs (min_le_left _ _))
  · exact .inl (hfl.round_nonpos hlib.nearest hm.rows_lt hflat hs (min_le_right _ _))

theorem resize_ne_none (hlib : lib.Resizes) (hm : m.Sized)
    (hcols : m.cols < 2 * kMaxWidth * m.rows) (hrows : m.rows < 2 * kMaxHeight * m.cols) :
    lib.resize m (m.scale lib) ≠ none := by
  have hfl := hlib.rounds
  have hcols' : (0 : ℚ) < m.cols := by exact_mod_cast hm.cols_pos
  have hrows' : (0 : ℚ) < m.rows := by exact_mod_cast hm.rows_pos
  have hsides : 1 ≤ lib.round (lib.fl (m.cols * m.scale lib)) ∧
      1 ≤ lib.round (lib.fl (m.rows * m.scale lib)) := by
    rcases m.scale_eq lib with hmin | hmin
    · refine ⟨?_, hfl.one_le_round hlib.nearest hm.cols_pos hm.cols_lt hcols hmin⟩
      rw [hfl.round_eq hlib.nearest hcols' le_rfl hmin]
      decide
    · refine ⟨hfl.one_le_round hlib.nearest hm.rows_pos hm.rows_lt hrows hmin, ?_⟩
      rw [hfl.round_eq hlib.nearest hrows' (by decide) hmin]
      decide
  rw [ne_eq, hlib.throws_iff]
  omega

/-- The size at which it depends on the rounding whether a side becomes 0. -/
def Borderline (m : Mat) : Prop :=
  m.cols = 2 * kMaxWidth * m.rows ∨ m.rows = 2 * kMaxHeight * m.cols

instance (m : Mat) : Decidable m.Borderline :=
  inferInstanceAs (Decidable (_ ∨ _))

/-- OpenCV throws if and only if the image is flat. -/
theorem fit_eq_none_iff (hlib : lib.Resizes) (hm : m.Sized) (hline : ¬ m.Borderline) :
    m.fit lib = none ↔ m.Flat := by
  have hcols := hm.cols_pos
  have hrows := hm.rows_pos
  simp only [Borderline, Flat, kMaxWidth, kMaxHeight] at hline ⊢
  unfold fit
  split_ifs with hlarge
  · refine ⟨fun h => ?_, resize_flat hlib hm⟩
    by_contra hflat
    refine resize_ne_none hlib hm ?_ ?_ h <;> simp only [kMaxWidth, kMaxHeight] <;> omega
  · simp only [kMaxWidth, kMaxHeight] at hlarge
    simp only [false_iff]
    omega

/-! ## The copy -/

theorem length_firstRows (m : Mat) (y : ℕ) : (m.firstRows y).length = y * (m.cols * 3) := by
  simp [firstRows, List.length_flatMap]

theorem firstRows_succ (m : Mat) (y : ℕ) :
    m.firstRows (y + 1) = m.firstRows y ++ (m.row y).toList := by
  simp [firstRows, List.range_succ, List.flatMap_append]

/-- If the rows fit, each of them is copied to a place within the array. -/
theorem copyRows_eq (m : Mat) (array : Bytes) :
    ∀ {y : ℕ}, y * (m.cols * 3) ≤ array.length →
      m.copyRows y array = some (m.firstRows y ++ array.drop (y * (m.cols * 3)))
  | 0, _ => by simp [copyRows, firstRows]
  | y + 1, h => by
    rw [Nat.succ_mul] at h
    have hlen := m.length_firstRows y
    have hrow : (m.row y).toList.length = m.cols * 3 := by simp
    have hdrop : (m.firstRows y ++ array.drop (y * (m.cols * 3))).drop
        (y * (m.cols * 3) + m.cols * 3) = array.drop (y * (m.cols * 3) + m.cols * 3) := by
      simp [List.drop_append, hlen]
    rw [copyRows, copyRows_eq m array (by omega), Option.bind_some, memcpy, hrow, if_pos,
      List.take_left' hlen, hdrop, firstRows_succ, Nat.succ_mul]
    rw [List.length_append, hlen, List.length_drop]
    omega

/-- The bytes of an image that fits. -/
theorem Fits.bytes_le (h : m.Fits image) : image.rows * (image.cols * 3) ≤ kMaxBytes := by
  calc image.rows * (image.cols * 3) ≤ kMaxHeight * (kMaxWidth * 3) := by
        gcongr
        · exact h.rows_le
        · exact h.cols_le
    _ = kMaxBytes := by decide

/-- The frame of an image. -/
def frame (image : Mat) (now : ℤ) (index : UInt64) : Frame :=
  ⟨UInt32.ofNat image.cols, UInt32.ofNat image.rows, .bgr24, now, index,
    image.firstRows image.rows⟩

end Mat

/-! ## Call after call -/

/-- The image of the call `k`. -/
def Video.imageAt (video : Video) (loop : Bool) (k : ℕ) : Option Mat :=
  video.images[if loop then k % video.images.length else k]?

theorem Video.mem_of_imageAt {video : Video} {loop : Bool} {k : ℕ} {m : Mat}
    (h : video.imageAt loop k = some m) : m ∈ video.images :=
  List.mem_of_getElem? h

theorem Video.isEmpty_eq_false (video : Video) {m : Mat} (hm : m ∈ video.images) :
    m.isEmpty = false := by
  have hcols := (video.sized m hm).cols_pos
  have hrows := (video.sized m hm).rows_pos
  simp only [Mat.isEmpty, decide_eq_false_iff_not]
  omega

namespace VideoFileFrameSource

variable {lib : ImageLibrary σ} {Stands : σ → ℕ → Prop} {video : Video} {loop : Bool} {k : ℕ}
  {src : VideoFileFrameSource σ} {array : Vector UInt8 kMaxBytes} {now : ℤ} {m image : Mat}

/-- Where the video is behind the image of the call `k - 1`. -/
structure Reached (video : Video) (loop : Bool) (k position : ℕ) : Prop where
  position_le : position ≤ video.images.length
  once : loop = false → position = k
  again : loop = true → position % video.images.length = k % video.images.length

/-- A source after `k` calls that gave a frame. -/
structure After (Stands : σ → ℕ → Prop) (video : Video) (loop : Bool) (k : ℕ)
    (src : VideoFileFrameSource σ) : Prop where
  loop_eq : src.loop = loop
  stands : ∃ position, Stands src.capture position ∧ Reached video loop k position
  nextIndex : src.nextIndex = UInt64.ofNat k

/-- The source behind the image of a call that gives a frame. -/
def moved (src : VideoFileFrameSource σ) (capture : σ) : VideoFileFrameSource σ :=
  { src with capture, nextIndex := src.nextIndex + 1 }

theorem After.moved (h : After Stands video loop k src) {capture : σ} {position : ℕ}
    (hstands : Stands capture position) (hreached : Reached video loop (k + 1) position) :
    After Stands video loop (k + 1) (src.moved capture) where
  loop_eq := h.loop_eq
  stands := ⟨position, hstands, hreached⟩
  nextIndex := by
    rw [VideoFileFrameSource.moved, h.nextIndex, UInt64.ofNat_add]
    rfl

theorem read_some (hplays : lib.Plays video loop Stands) {i : ℕ} (hstands : Stands src.capture i)
    (h : video.images[i]? = some m) : ∃ capture, src.read lib = (some m, { src with capture }) ∧
      Stands capture (i + 1) := by
  obtain ⟨capture, hread, hnext⟩ := hplays.reads _ i m hstands h
  refine ⟨capture, ?_, hnext⟩
  simp [read, hread, video.isEmpty_eq_false (List.mem_of_getElem? h)]

theorem read_none (hplays : lib.Plays video loop Stands) {i : ℕ} (hstands : Stands src.capture i)
    (h : video.images[i]? = none) : ∃ capture, src.read lib = (none, { src with capture }) ∧
      Stands capture i := by
  obtain ⟨hempty, hsame⟩ := hplays.ends _ i hstands h
  refine ⟨(lib.read src.capture).2, ?_, hsame⟩
  unfold read
  split
  · next m capture hread =>
    rw [hread] at hempty
    simp [hread, hempty m rfl]
  · next capture hread => rw [hread]

theorem readNext_once (hplays : lib.Plays video false Stands)
    (h : After Stands video false k src) : ∃ capture,
    src.readNext lib = (video.imageAt false k, { src with capture }) ∧
      ((video.imageAt false k).isSome → After Stands video false (k + 1) (src.moved capture)) := by
  obtain ⟨position, hstands, hreached⟩ := h.stands
  have himage : video.images[position]? = video.imageAt false k := by
    rw [hreached.once rfl]
    rfl
  cases hm : video.imageAt false k with
  | none =>
    rw [hm] at himage
    obtain ⟨capture, hread, -⟩ := read_none hplays hstands himage
    exact ⟨capture, by simp [readNext, hread, h.loop_eq], by simp⟩
  | some m =>
    rw [hm] at himage
    obtain ⟨capture, hread, hnext⟩ := read_some hplays hstands himage
    refine ⟨capture, by simp [readNext, hread], fun _ => h.moved hnext ⟨?_, fun _ => ?_, by simp⟩⟩
    · exact (List.getElem?_eq_some_iff.1 himage).1
    · rw [hreached.once rfl]

theorem readNext_again (hplays : lib.Plays video true Stands)
    (h : After Stands video true k src) : ∃ capture,
    src.readNext lib = (video.imageAt true k, { src with capture }) ∧
      ((video.imageAt true k).isSome → After Stands video true (k + 1) (src.moved capture)) := by
  obtain ⟨position, hstands, hreached⟩ := h.stands
  have hagain := hreached.again rfl
  by_cases hlt : position < video.images.length
  · -- The image is read at once.
    have himage : video.imageAt true k = some video.images[position] := by
      rw [Video.imageAt, if_pos rfl, ← hagain, Nat.mod_eq_of_lt hlt]
      exact List.getElem?_eq_getElem hlt
    obtain ⟨capture, hread, hnext⟩ := read_some hplays hstands (List.getElem?_eq_getElem hlt)
    refine ⟨capture, by simp [readNext, hread, himage], fun _ => h.moved hnext ?_⟩
    exact ⟨hlt, by simp, fun _ => Nat.ModEq.add_right 1 hagain⟩
  · -- Behind the last image, and the video starts again.
    have hend : position = video.images.length := le_antisymm hreached.position_le (not_lt.1 hlt)
    have hzero : k % video.images.length = 0 := by rw [← hagain, hend, Nat.mod_self]
    have himage : video.imageAt true k = video.images[0]? := by
      rw [Video.imageAt, if_pos rfl, hzero]
    obtain ⟨capture, hread, hsame⟩ := read_none hplays hstands (List.getElem?_eq_none hend.ge)
    have hfirst : src.readNext lib = read lib { src with capture := lib.rewind capture } := by
      simp [readNext, hread, h.loop_eq]
    have hrewound : Stands { src with capture := lib.rewind capture }.capture 0 :=
      hplays.rewinds rfl _ _ hsame
    rw [himage, hfirst]
    cases hm : video.images[0]? with
    | none =>
      obtain ⟨capture', hread', -⟩ := read_none hplays hrewound hm
      exact ⟨capture', hread', by simp⟩
    | some m =>
      obtain ⟨capture', hread', hnext⟩ := read_some hplays hrewound hm
      refine ⟨capture', hread', fun _ => h.moved hnext ⟨?_, by simp, fun _ => ?_⟩⟩
      · exact (List.getElem?_eq_some_iff.1 hm).1
      · rw [Nat.zero_add, Nat.add_mod k, hzero, Nat.zero_add, Nat.mod_mod]

/-- A call works with the image of its number. -/
theorem readNext_eq (hplays : lib.Plays video loop Stands) (h : After Stands video loop k src) :
    ∃ capture, src.readNext lib = (video.imageAt loop k, { src with capture }) ∧
      ((video.imageAt loop k).isSome → After Stands video loop (k + 1) (src.moved capture)) := by
  cases loop with
  | false => exact readNext_once hplays h
  | true => exact readNext_again hplays h

theorem next_noFrame (hplays : lib.Plays video loop Stands) (h : After Stands video loop k src)
    (hm : ∀ m ∈ video.imageAt loop k, m.is8UC3 = false) :
    (src.next lib array now).1 = .noFrame := by
  obtain ⟨capture, hread, -⟩ := readNext_eq hplays h
  unfold next
  rw [hread]
  cases himage : video.imageAt loop k with
  | none => rfl
  | some m => simp [hm m himage]

theorem next_exception (hplays : lib.Plays video loop Stands)
    (h : After Stands video loop k src) (himage : video.imageAt loop k = some m)
    (htype : m.is8UC3 = true) (hfit : m.fit lib = none) :
    (src.next lib array now).1 = .exception := by
  obtain ⟨capture, hread, -⟩ := readNext_eq hplays h
  unfold next
  simp [hread, himage, htype, hfit]

theorem next_frame (hplays : lib.Plays video loop Stands) (h : After Stands video loop k src)
    (himage : video.imageAt loop k = some m) (htype : m.is8UC3 = true)
    (hfit : m.fit lib = some image) (hm : m.Fits image) : ∃ capture,
    After Stands video loop (k + 1) (src.moved capture) ∧
      src.next lib array now = (.frame (image.frame now (UInt64.ofNat k))
        ((image.frame now (UInt64.ofNat k)).data ++
          array.toList.drop (image.rows * (image.cols * 3))), src.moved capture) := by
  obtain ⟨capture, hread, hafter⟩ := readNext_eq hplays h
  have hlen := image.length_firstRows image.rows
  have hcopy := image.copyRows_eq array.toList (y := image.rows) (by simpa using hm.bytes_le)
  have hused : image.cols * 3 * image.rows = image.rows * (image.cols * 3) := Nat.mul_comm _ _
  refine ⟨capture, hafter (by simp [himage]), ?_⟩
  unfold next
  simp only [hread, himage, htype, hfit, hcopy, hused, List.take_left' hlen, h.nextIndex]
  simp [moved, Mat.frame, h.nextIndex]

/-- What a call does, by the image it works with. -/
theorem next_cases (hlib : lib.Resizes) (hplays : lib.Plays video loop Stands)
    (h : After Stands video loop k src) (array : Vector UInt8 kMaxBytes) (now : ℤ) :
    ((∀ m ∈ video.imageAt loop k, m.is8UC3 = false) ∧ (src.next lib array now).1 = .noFrame) ∨
      (∃ m, video.imageAt loop k = some m ∧ m.is8UC3 = true ∧ m.fit lib = none ∧
        (src.next lib array now).1 = .exception) ∨
      ∃ m image capture, video.imageAt loop k = some m ∧ m.is8UC3 = true ∧
        m.fit lib = some image ∧ m.Fits image ∧
        After Stands video loop (k + 1) (src.moved capture) ∧
        src.next lib array now = (.frame (image.frame now (UInt64.ofNat k))
          ((image.frame now (UInt64.ofNat k)).data ++
            array.toList.drop (image.rows * (image.cols * 3))), src.moved capture) := by
  by_cases hm : ∀ m ∈ video.imageAt loop k, m.is8UC3 = false
  · exact .inl ⟨hm, next_noFrame hplays h hm⟩
  · simp only [not_forall, Bool.not_eq_false] at hm
    obtain ⟨m, himage, htype⟩ := hm
    cases hfit : m.fit lib with
    | none => exact .inr (.inl ⟨m, himage, htype, hfit, next_exception hplays h himage htype hfit⟩)
    | some image =>
      have hfits := Mat.fits_of_fit hlib (video.sized m (Video.mem_of_imageAt himage)) hfit
      obtain ⟨capture, hafter, hnext⟩ := next_frame hplays h himage htype hfit hfits
      exact .inr (.inr ⟨m, image, capture, himage, htype, hfit, hfits, hafter, hnext⟩)

end VideoFileFrameSource

namespace VideoCapture

variable {lib : ImageLibrary σ} {Stands : σ → ℕ → Prop} {c : σ} {video : Video} {loop : Bool}
  {s t : VideoCapture σ}
  {call : Vector UInt8 kMaxBytes × ℤ} {calls : List (Vector UInt8 kMaxBytes × ℤ)}

/-- Before the first call. -/
def start (capture : σ) (loop : Bool) : VideoCapture σ :=
  { source := { capture, loop } }

/-- A frame `out` with its array is that of the call `i` : the image, made smaller if it has to be,
is at the front of the array, and the rest of the array is as it was. -/
structure FrameOf (lib : ImageLibrary σ) (video : Video) (loop : Bool) (i : ℕ)
    (call : Vector UInt8 kMaxBytes × ℤ) (out : Frame × Bytes) (m image : Mat) : Prop where
  image_eq : video.imageAt loop i = some m
  type_eq : m.is8UC3 = true
  fit_eq : m.fit lib = some image
  fit_type : image.is8UC3 = true
  fits : m.Fits image
  frame_eq : out.1 = image.frame call.2 (UInt64.ofNat i)
  array_eq : out.2 = out.1.data ++ call.1.toList.drop out.1.data.length
  size : out.2.length = kMaxBytes
  width : out.1.width.toNat = image.cols
  height : out.1.height.toNat = image.rows

theorem frameOf_frame (hlib : lib.Resizes) {i : ℕ} {m image : Mat}
    (himage : video.imageAt loop i = some m) (htype : m.is8UC3 = true)
    (hfit : m.fit lib = some image) (hm : m.Fits image) :
    FrameOf lib video loop i call (image.frame call.2 (UInt64.ofNat i),
      (image.frame call.2 (UInt64.ofNat i)).data ++
        call.1.toList.drop (image.rows * (image.cols * 3))) m image where
  image_eq := himage
  type_eq := htype
  fit_eq := hfit
  fit_type := (Mat.is8UC3_of_fit hlib hfit).trans htype
  fits := hm
  frame_eq := rfl
  array_eq := by rw [Mat.frame, Mat.length_firstRows]
  size := by
    have := hm.bytes_le
    simp only [Mat.frame, List.length_append, Mat.length_firstRows, List.length_drop,
      Vector.length_toList]
    omega
  width := Nat.mod_eq_of_lt (hm.cols_le.trans_lt (by decide))
  height := Nat.mod_eq_of_lt (hm.rows_le.trans_lt (by decide))

theorem step_of_next {r : NextResult} (hr : (s.source.next lib call.1 call.2).1 = r)
    (h : s.step lib call = some t) : ∃ f array, r = .frame f array := by
  unfold step at h
  split at h
  · next f array source hnext => exact ⟨f, array, by rw [← hr, hnext]⟩
  · cases h

/-- A call that gives a frame. -/
theorem step_frame (hlib : lib.Resizes) (hplays : lib.Plays video loop Stands) {k : ℕ}
    (hs : s.source.After Stands video loop k) (h : s.step lib call = some t) :
    t.source.After Stands video loop (k + 1) ∧
      ∃ out m image, t.delivered = s.delivered ++ [out] ∧
        FrameOf lib video loop k call out m image := by
  rcases VideoFileFrameSource.next_cases hlib hplays hs call.1 call.2 with
    ⟨-, hr⟩ | ⟨m, -, -, -, hr⟩ | ⟨m, image, capture, himage, htype, hfit, hm, hafter, hnext⟩
  · obtain ⟨f, array, hframe⟩ := step_of_next hr h
    cases hframe
  · obtain ⟨f, array, hframe⟩ := step_of_next hr h
    cases hframe
  · simp only [step, hnext] at h
    cases h
    exact ⟨hafter, _, m, image, rfl, frameOf_frame hlib himage htype hfit hm⟩

/-- What holds after a run. -/
structure Ran (lib : ImageLibrary σ) (Stands : σ → ℕ → Prop) (video : Video) (loop : Bool)
    (calls : List (Vector UInt8 kMaxBytes × ℤ)) (s : VideoCapture σ) : Prop where
  after : s.source.After Stands video loop calls.length
  length : s.delivered.length = calls.length
  frames : ∀ (i : ℕ) (call : Vector UInt8 kMaxBytes × ℤ), calls[i]? = some call →
    ∃ out m image, s.delivered[i]? = some out ∧ FrameOf lib video loop i call out m image

theorem ran_start (hopen : Stands c 0) : Ran lib Stands video loop [] (start c loop) where
  after := ⟨rfl, ⟨0, hopen, Nat.zero_le _, fun _ => rfl, fun _ => rfl⟩, rfl⟩
  length := rfl
  frames := by simp

theorem Ran.snoc (hlib : lib.Resizes) (hplays : lib.Plays video loop Stands)
    (hs : Ran lib Stands video loop calls s) (h : s.step lib call = some t) :
    Ran lib Stands video loop (calls ++ [call]) t := by
  obtain ⟨hafter, out, m, image, hout, hframe⟩ := step_frame hlib hplays hs.after h
  refine ⟨by simpa using hafter, by simp [hout, hs.length], fun i c hc => ?_⟩
  rw [hout]
  rcases lt_or_ge i calls.length with hi | hi
  · rw [List.getElem?_append_left hi] at hc
    rw [List.getElem?_append_left (hs.length ▸ hi)]
    exact hs.frames i c hc
  · have hlast : i = calls.length := by
      have := (List.getElem?_eq_some_iff.1 hc).1
      rw [List.length_append, List.length_singleton] at this
      omega
    subst hlast
    rw [List.getElem?_concat_length, Option.some.injEq] at hc
    subst hc
    exact ⟨out, m, image, by rw [← hs.length, List.getElem?_concat_length], hframe⟩

theorem ran_of_run (hlib : lib.Resizes) (hplays : lib.Plays video loop Stands)
    (hopen : Stands c 0) (hrun : exec (step lib) (start c loop) calls = some s) :
    Ran lib Stands video loop calls s :=
  have hok : Guarded (step lib) (fun _ _ => True) (start c loop) calls :=
    .of_forall fun _ _ _ => trivial
  exec_history (ran_start hopen) (fun _ _ _ _ _ hs _ h => hs.snoc hlib hplays h) hok hrun

/-- An image of the right type that is not flat gives a frame. -/
theorem exists_step (hlib : lib.Resizes) (hplays : lib.Plays video loop Stands)
    (hs : Ran lib Stands video loop calls s) {m : Mat}
    (himage : video.imageAt loop calls.length = some m) (htype : m.is8UC3 = true)
    (hflat : ¬ m.Flat) (hline : ¬ m.Borderline) : ∃ t, s.step lib call = some t := by
  have hm := video.sized m (Video.mem_of_imageAt himage)
  obtain ⟨image, hfit⟩ := Option.ne_none_iff_exists'.1
    (mt (Mat.fit_eq_none_iff hlib hm hline).1 hflat)
  obtain ⟨capture, -, hnext⟩ := VideoFileFrameSource.next_frame hplays hs.after himage htype hfit
    (Mat.fits_of_fit hlib hm hfit)
  rw [step, hnext]
  exact ⟨_, rfl⟩

/-- Over every video, every sequence of calls, and every library that plays the video and resizes as
is assumed : each call gives the image whose turn it is, from the first one again behind the last if
the video is to start again, under the number of the call. The frame is within the limits, its bytes
are at the front of the array, and nothing else of the array is written. -/
theorem delivered_frames (hlib : lib.Resizes) (hplays : lib.Plays video loop Stands)
    (hopen : Stands c 0) (hrun : exec (step lib) (start c loop) calls = some s) :
    s.delivered.length = calls.length ∧
      ∀ (i : ℕ) (call : Vector UInt8 kMaxBytes × ℤ), calls[i]? = some call →
        ∃ out m image, s.delivered[i]? = some out ∧ FrameOf lib video loop i call out m image :=
  have hran := ran_of_run hlib hplays hopen hrun
  ⟨hran.length, hran.frames⟩

/-- Exact arithmetic, black pixels, and a video that is read by position. -/
def plainLibrary (video : Video) : ImageLibrary ℕ where
  fl := id
  round := round
  read i := (video.images[i]?, if i < video.images.length then i + 1 else i)
  rewind _ := 0
  resize m s :=
    if round (m.cols * s) ≤ 0 ∨ round (m.rows * s) ≤ 0 then none
    else some ⟨(round (m.cols * s)).toNat, (round (m.rows * s)).toNat, m.is8UC3,
      fun _ => Vector.replicate _ 0⟩

theorem resizes_plainLibrary (video : Video) : (plainLibrary video).Resizes where
  rounds x := by
    simp only [plainLibrary, id, sub_self, abs_zero]
    positivity
  nearest x := by
    rw [abs_sub_comm]
    exact abs_sub_round x
  throws_iff m s := by
    simp only [plainLibrary, id]
    split_ifs with hpos <;> simp [hpos]
  cols m s image h := by
    simp only [plainLibrary] at h ⊢
    split_ifs at h with hpos
    cases h
    simp only [id]
    omega
  rows m s image h := by
    simp only [plainLibrary] at h ⊢
    split_ifs at h with hpos
    cases h
    simp only [id]
    omega
  type m s image h := by
    simp only [plainLibrary] at h
    split_ifs at h
    cases h
    rfl

theorem plays_plainLibrary (video : Video) (loop : Bool) :
    (plainLibrary video).Plays video loop fun c i => c = i where
  reads := by
    rintro i _ m rfl hm
    have hlt := (List.getElem?_eq_some_iff.1 hm).1
    exact ⟨i + 1, by simp only [plainLibrary, hm, if_pos hlt], rfl⟩
  ends := by
    rintro i _ rfl hnone
    have hle := List.getElem?_eq_none_iff.1 hnone
    exact ⟨by simp [plainLibrary, hnone], if_neg (not_lt.2 hle)⟩
  rewinds _ _ _ _ := rfl

/-- An image that is too large, and one that is flat. -/
def wideThenFlat : Video where
  images := [⟨2560, 720, true, fun _ => Vector.replicate _ 0⟩,
    ⟨3000, 1, true, fun _ => Vector.replicate _ 0⟩]
  sized m hm := by
    simp only [List.mem_cons, List.not_mem_nil, or_false] at hm
    rcases hm with rfl | rfl <;> constructor <;> decide

/-- A call with an array of zeros. -/
def blankCall : Vector UInt8 kMaxBytes × ℤ :=
  (Vector.replicate _ 0, 0)

theorem exists_run_wide :
    ∃ s, exec (step (plainLibrary wideThenFlat)) (start 0 true) [blankCall] = some s := by
  have hs : Ran (plainLibrary wideThenFlat) (fun c i => c = i) wideThenFlat true []
      (start 0 true) := ran_start rfl
  obtain ⟨s, hstep⟩ : ∃ s, step (plainLibrary wideThenFlat) (start 0 true) blankCall = some s :=
    exists_step (resizes_plainLibrary _) (plays_plainLibrary _ _) hs rfl rfl (by decide) (by decide)
  exact ⟨s, exec_cons_iff.2 ⟨s, hstep, rfl⟩⟩

theorem delivered_frames_wide : ∃ s out,
    exec (step (plainLibrary wideThenFlat)) (start 0 true) [blankCall] = some s ∧
      s.delivered[0]? = some out ∧ out.2.length = kMaxBytes ∧
        (out.1.width.toNat = kMaxWidth ∨ out.1.height.toNat = kMaxHeight) := by
  obtain ⟨s, hrun⟩ := exists_run_wide
  obtain ⟨out, m, image, hout, hframe⟩ := (delivered_frames (resizes_plainLibrary _)
    (plays_plainLibrary wideThenFlat true) rfl hrun).2 0 blankCall rfl
  refine ⟨s, out, hrun, hout, hframe.size, ?_⟩
  rw [hframe.width, hframe.height]
  have hm := hframe.image_eq
  cases hm
  exact hframe.fits.shrunk (.inl (by decide))

/-- How the calls end, after every run, with a library that plays the video and resizes as is
assumed : an exception for a flat image, no frame where there is no image or one of another type,
and never a write outside of the array. -/
theorem next_after_run (hlib : lib.Resizes) (hplays : lib.Plays video loop Stands)
    (hopen : Stands c 0) (hline : ∀ m ∈ video.images, ¬ m.Borderline)
    (hrun : exec (step lib) (start c loop) calls = some s) (array : Vector UInt8 kMaxBytes)
    (now : ℤ) :
    ((s.source.next lib array now).1 = .exception ↔
        ∃ m ∈ video.imageAt loop calls.length, m.is8UC3 = true ∧ m.Flat) ∧
      ((s.source.next lib array now).1 = .noFrame ↔
        ∀ m ∈ video.imageAt loop calls.length, m.is8UC3 = false) ∧
      (s.source.next lib array now).1 ≠ .overrun := by
  have hflat : ∀ m, video.imageAt loop calls.length = some m → (m.fit lib = none ↔ m.Flat) :=
    fun m hm => Mat.fit_eq_none_iff hlib (video.sized m (Video.mem_of_imageAt hm))
      (hline m (Video.mem_of_imageAt hm))
  have hran := ran_of_run hlib hplays hopen hrun
  rcases VideoFileFrameSource.next_cases hlib hplays hran.after array now with
    ⟨htype, hr⟩ | ⟨m, himage, htype, hfit, hr⟩ | ⟨m, image, _, himage, htype, hfit, -, -, hnext⟩
  · rw [hr]
    refine ⟨⟨by simp, fun ⟨m, hm, h8, _⟩ => ?_⟩, iff_of_true rfl htype, by simp⟩
    rw [htype m hm] at h8
    cases h8
  · have : m.Flat := (hflat m himage).1 hfit
    simp [hr, himage, htype, this]
  · have : ¬ m.Flat := fun h => by
      rw [(hflat m himage).2 h] at hfit
      cases hfit
    simp [hnext, himage, htype, this]

/-- Behind the first image comes the flat one. -/
theorem next_after_run_flat :
    ∃ s, exec (step (plainLibrary wideThenFlat)) (start 0 true) [blankCall] = some s ∧
      (s.source.next (plainLibrary wideThenFlat) blankCall.1 1).1 = .exception := by
  obtain ⟨s, hrun⟩ := exists_run_wide
  have hline : ∀ m ∈ wideThenFlat.images, ¬ m.Borderline := by
    simp only [wideThenFlat, List.forall_mem_cons, List.not_mem_nil, false_implies,
      implies_true, and_true]
    exact ⟨by decide, by decide⟩
  have hend := next_after_run (resizes_plainLibrary _) (plays_plainLibrary wideThenFlat true) rfl
    hline hrun blankCall.1 1
  exact ⟨s, hrun, hend.1.2 ⟨_, rfl, rfl, by decide⟩⟩

end VideoCapture

end Ridgeline
