import Mathlib.Data.List.ProdSigma
import Mathlib.Data.Rat.Floor
import Ridgeline.Buffer
import Ridgeline.Detector
import Ridgeline.Interpolation

/-!
# The detector's image

`BuildAxisTable` and the loops of `Preprocess`, which resize a frame to the top left corner of the
model's square image. Numbers are of an ordered field in place of `float` and `double`. The vectors
of the detector are kept from frame to frame (`Workspace`), so what a frame does not write is left
from the frames before it.

The assignments of the loops are listed in order, each with the four pixels it reads (`stores`).
The tables name places of the frame (`axisEntry_inBounds`), so no assignment reads or writes out of
bounds, and no place is written twice : `letterbox_in_bounds`.

Seen from above, the corner is the frame interpolated at the centres of the new pixels, its edges
repeated, and the rest is gray (`preprocess_letterbox`). A frame of the model's size is copied as it
is (`letterbox_square`), and nothing that is left from earlier frames has a part in an answer
(`answers_eq`).
-/

namespace Ridgeline

open Buffer Interpolation

/-! ## The code -/

/-- `Frame::kMaxBytes`. -/
def kMaxBytes : ℕ := 1280 * 720 * 3

/-- `Pixels()` : the array of the frame, which begins with the used bytes. -/
structure FramePixels (frame : Frame) where
  bytes : Vector UInt8 kMaxBytes
  used : frame.data <+: bytes.toList

/-- A byte of the array. -/
def FramePixels.pixel {frame : Frame} (src : FramePixels frame) (i : ℕ) : ℕ :=
  (src.bytes[i]?.getD 0).toNat

/-- `std::clamp` of integers. -/
def clampInt (v lo hi : ℤ) : ℤ :=
  if v < lo then lo else if hi < v then hi else v

/-- `static_cast<std::size_t>` of an `int`. -/
def sizeT (i : ℤ) : ℕ :=
  (i % 2 ^ 64).toNat

/-- An entry of the tables of an axis : two places of the frame, and the weight of the second. -/
structure AxisEntry (K : Type*) where
  i0 : ℤ
  i1 : ℤ
  w : K
  deriving DecidableEq, Repr

/-- The vectors of the detector : `input_tensor_`, and the tables of the columns and the rows. -/
structure Workspace (K : Type*) (S : ℕ) where
  inputTensor : Vector K (3 * S * S)
  col : Vector (AxisEntry K) S
  row : Vector (AxisEntry K) S

/-- An assignment to `input_tensor_`, with the pixels it reads. -/
structure Store (K : Type*) where
  p00 : ℕ
  p01 : ℕ
  p10 : ℕ
  p11 : ℕ
  index : ℕ
  value : K
  deriving DecidableEq, Repr

/-- The pixels that are read. -/
def Store.loads {K : Type*} (s : Store K) : List ℕ :=
  [s.p00, s.p01, s.p10, s.p11]

section Code

variable {K : Type*} [Field K] [LinearOrder K] [FloorRing K]

/-- The vectors as the constructor makes them. -/
def Workspace.init (S : ℕ) : Workspace K S :=
  ⟨Vector.replicate _ 0, Vector.replicate _ ⟨0, 0, 0⟩, Vector.replicate _ ⟨0, 0, 0⟩⟩

/-- `static_cast<int>` of a floating-point number. -/
def truncate (x : K) : ℤ :=
  if x < 0 then ⌈x⌉ else ⌊x⌋

/-- The body of the loop of `BuildAxisTable`. -/
def axisEntry (srcLen dstLen : ℤ) (d : ℕ) : AxisEntry K :=
  let scale : K := (srcLen : K) / (dstLen : K)
  let f := ((d : K) + 0.5) * scale - 0.5
  let f := if f < 0 then 0 else f
  let lo := ⌊f⌋
  let lo := if lo > srcLen - 1 then srcLen - 1 else lo
  let hi := min (lo + 1) (srcLen - 1)
  ⟨lo, hi, f - (lo : K)⟩

/-- `BuildAxisTable`. -/
def buildAxisTable {S : ℕ} (srcLen dstLen : ℤ) (t : Vector (AxisEntry K) S) :
    Vector (AxisEntry K) S :=
  writeAll ((List.range dstLen.toNat).map fun d => (d, axisEntry srcLen dstLen d)) t

/-- A side of the frame in the resized image. Python's `int` truncates, and so does the cast. -/
def DetectorConfig.resized (cfg : DetectorConfig K) (frame : Frame) (side : ℤ) : ℤ :=
  clampInt (truncate ((side : K) * scale cfg frame)) 1 cfg.inputSize

/-- `nw` : the columns of the resized image. -/
def DetectorConfig.nw (cfg : DetectorConfig K) (frame : Frame) : ℤ :=
  cfg.resized frame frame.width.toBitVec.toInt

/-- `nh` : its rows. -/
def DetectorConfig.nh (cfg : DetectorConfig K) (frame : Frame) : ℤ :=
  cfg.resized frame frame.height.toBitVec.toInt

/-- The body of the innermost loop. -/
def pixelStore (S : ℕ) (w : ℤ) (src : ℕ → ℕ) (row col : AxisEntry K) (dy dx c : ℕ) : Store K :=
  let plane := S * S
  let strideBytes := sizeT w * 3
  let row0 := sizeT row.i0 * strideBytes
  let row1 := sizeT row.i1 * strideBytes
  let wy := row.w
  let c0 := sizeT col.i0 * 3
  let c1 := sizeT col.i1 * 3
  let wx := col.w
  let dst := dy * S + dx
  let top := (1 - wx) * (src (row0 + c0 + c) : K) + wx * (src (row0 + c1 + c) : K)
  let bot := (1 - wx) * (src (row1 + c0 + c) : K) + wx * (src (row1 + c1 + c) : K)
  { p00 := row0 + c0 + c
    p01 := row0 + c1 + c
    p10 := row1 + c0 + c
    p11 := row1 + c1 + c
    index := c * plane + dst
    value := (roundAway ((1 - wy) * top + wy * bot) : K) }

/-- The iterations of the three loops, over `dy`, `dx` and `c`. -/
def iterations (nh nw : ℤ) : List (ℕ × ℕ × ℕ) :=
  (List.range nh.toNat).product ((List.range nw.toNat).product (List.range 3))

/-- The assignments of the loops, with the tables that are read there. -/
def stores (cfg : DetectorConfig K) {frame : Frame} (src : FramePixels frame)
    (row col : Vector (AxisEntry K) cfg.inputSize) : List (Store K) :=
  (iterations (cfg.nh frame) (cfg.nw frame)).map fun i =>
    pixelStore cfg.inputSize frame.width.toBitVec.toInt src.pixel (row[i.1]?.getD ⟨0, 0, 0⟩)
      (col[i.2.1]?.getD ⟨0, 0, 0⟩) i.1 i.2.1 i.2.2

/-- The vectors after `Preprocess` : gray everywhere, then the tables, then the corner. -/
def Workspace.resize (cfg : DetectorConfig K) (ws : Workspace K cfg.inputSize) {frame : Frame}
    (src : FramePixels frame) : Workspace K cfg.inputSize :=
  let tensor := Vector.replicate (3 * cfg.inputSize * cfg.inputSize) 114
  let col := buildAxisTable frame.width.toBitVec.toInt (cfg.nw frame) ws.col
  let row := buildAxisTable frame.height.toBitVec.toInt (cfg.nh frame) ws.row
  ⟨writeAll ((stores cfg src row col).map fun s => (s.index, s.value)) tensor, col, row⟩

/-- `Preprocess`, with what it does to the detector. It throws before it writes anything. -/
def Workspace.preprocess (cfg : DetectorConfig K) (ws : Workspace K cfg.inputSize) {frame : Frame}
    (src : FramePixels frame) : Except String (K × Workspace K cfg.inputSize) := do
  let r ← Ridgeline.preprocess cfg frame
  .ok (r, ws.resize cfg src)

end Code

/-! ## The tables -/

section Axis

variable {K : Type*} [Field K] [LinearOrder K]

/-- The centre of the new pixel `d`, in pixels of the frame. -/
def axisPosition (srcLen dstLen : ℤ) (d : ℕ) : K :=
  ((d : K) + 0.5) * ((srcLen : K) / (dstLen : K)) - 0.5

/-- The places are next to each other and in the frame, and the weight is a proper fraction. -/
structure AxisEntry.InBounds (e : AxisEntry K) (srcLen : ℤ) : Prop where
  zero_le_i0 : 0 ≤ e.i0
  i0_le_i1 : e.i0 ≤ e.i1
  i1_le : e.i1 ≤ srcLen - 1
  i1_le_succ : e.i1 ≤ e.i0 + 1
  zero_le_w : 0 ≤ e.w
  w_lt_one : e.w < 1

variable [IsStrictOrderedRing K] {n m : ℤ} {d : ℕ}

theorem axisPosition_bounds (hn : 1 ≤ n) (hd : (d : ℤ) < m) :
    -1 < (axisPosition n m d : K) ∧ (axisPosition n m d : K) < n := by
  have hn' : (0 : K) < n := Int.cast_pos.2 hn
  have hd' : (d : K) + 1 ≤ m := by exact_mod_cast hd
  have hd0 : (0 : K) ≤ d := Nat.cast_nonneg d
  have hm : (0 : K) < m := by linarith
  have hratio : (0 : K) < n / m := div_pos hn' hm
  have hlow : 0 < ((d : K) + 0.5) * (n / m) := mul_pos (by linarith) hratio
  have hhigh : ((d : K) + 0.5) * (n / m) < m * (n / m) :=
    mul_lt_mul_of_pos_right (by linarith) hratio
  rw [mul_div_cancel₀ _ hm.ne'] at hhigh
  unfold axisPosition
  constructor <;> linarith

variable [FloorRing K]

omit [IsStrictOrderedRing K] in
/-- An entry that is used is the one `BuildAxisTable` wrote. -/
theorem getElem?_buildAxisTable {S : ℕ} (hd : (d : ℤ) < m) (hS : m ≤ S)
    (t : Vector (AxisEntry K) S) : (buildAxisTable n m t)[d]? = some (axisEntry n m d) := by
  refine getElem?_writeAll_of_mem (by omega) t ?_ ?_
  · rw [List.map_map]
    simpa [Function.comp_def] using List.nodup_range
  · exact List.mem_map.2 ⟨d, List.mem_range.2 (by omega), rfl⟩

theorem floor_position_bounds (hn : 1 ≤ n) (hd : (d : ℤ) < m) :
    0 ≤ ⌊max (axisPosition n m d : K) 0⌋ ∧ ⌊max (axisPosition n m d : K) 0⌋ < n := by
  refine ⟨Int.floor_nonneg.2 (le_max_right _ _), Int.floor_lt.2 ?_⟩
  exact max_lt (axisPosition_bounds hn hd).2 (Int.cast_pos.2 hn)

/-- The bound on `lo` is never used. -/
theorem axisEntry_eq (hn : 1 ≤ n) (hd : (d : ℤ) < m) : (axisEntry n m d : AxisEntry K) =
    ⟨⌊max (axisPosition n m d : K) 0⌋, min (⌊max (axisPosition n m d : K) 0⌋ + 1) (n - 1),
      Int.fract (max (axisPosition n m d : K) 0)⟩ := by
  have hf : (if (axisPosition n m d : K) < 0 then 0 else axisPosition n m d) =
      max (axisPosition n m d : K) 0 := by
    rcases lt_or_ge (axisPosition n m d : K) 0 with h | h
    · rw [if_pos h, max_eq_right h.le]
    · rw [if_neg h.not_gt, max_eq_left h]
  have hlo : ¬ ⌊max (axisPosition n m d : K) 0⌋ > n - 1 := by
    have hfloor := (floor_position_bounds (K := K) hn hd).2
    omega
  have hbody : (axisEntry n m d : AxisEntry K) =
      let f := if (axisPosition n m d : K) < 0 then 0 else axisPosition n m d
      let lo := if ⌊f⌋ > n - 1 then n - 1 else ⌊f⌋
      ⟨lo, min (lo + 1) (n - 1), f - (lo : K)⟩ := rfl
  rw [hbody, hf]
  simp only [if_neg hlo]
  rfl

theorem axisEntry_inBounds (hn : 1 ≤ n) (hd : (d : ℤ) < m) :
    (axisEntry n m d : AxisEntry K).InBounds n := by
  obtain ⟨hnonneg, hfloor⟩ := floor_position_bounds (K := K) hn hd
  rw [axisEntry_eq hn hd]
  exact ⟨hnonneg, by simp only [le_min_iff]; omega, min_le_right _ _, min_le_left _ _,
    Int.fract_nonneg _, Int.fract_lt_one _⟩

/-- The mean of two entries is the sequence, its ends repeated, at the centre of the new pixel. -/
theorem lerp_axisEntry (hn : 1 ≤ n) (hd : (d : ℤ) < m) (g : ℤ → K) :
    lerp (axisEntry n m d : AxisEntry K).w (g (axisEntry n m d : AxisEntry K).i0)
        (g (axisEntry n m d : AxisEntry K).i1) =
      interpolate (fun i => g (edge n i)) (axisPosition n m d) := by
  obtain ⟨hlow, hhigh⟩ := axisPosition_bounds (K := K) hn hd
  rw [axisEntry_eq hn hd, interpolate]
  rcases lt_or_ge (axisPosition n m d : K) 0 with hneg | hnonneg
  · -- before the first pixel, both neighbours are the first
    have hfloor : ⌊(axisPosition n m d : K)⌋ < 0 := Int.floor_lt.2 (by simpa using hneg)
    rw [max_eq_right hneg.le, edge_of_nonpos hfloor.le, edge_of_nonpos (by omega)]
    simp
  · have hfloor0 : 0 ≤ ⌊(axisPosition n m d : K)⌋ := Int.floor_nonneg.2 hnonneg
    have hfloor : ⌊(axisPosition n m d : K)⌋ < n := Int.floor_lt.2 hhigh
    have hnext : edge n (⌊(axisPosition n m d : K)⌋ + 1) =
        min (⌊(axisPosition n m d : K)⌋ + 1) (n - 1) := by
      unfold edge
      omega
    rw [max_eq_left hnonneg, edge_of_mem hfloor0 hfloor, hnext]

end Axis

/-! ## The assignments -/

theorem sizeT_eq {i : ℤ} (h0 : 0 ≤ i) (hi : i < 2 ^ 64) : sizeT i = i.toNat := by
  rw [sizeT, Int.emod_eq_of_lt h0 hi]

theorem clampInt_bounds (v : ℤ) {lo hi : ℤ} (h : lo ≤ hi) :
    lo ≤ clampInt v lo hi ∧ clampInt v lo hi ≤ hi := by
  unfold clampInt
  split_ifs <;> omega

/-- The offset of channel `c` of a pixel. -/
theorem offset_lt {w h c : ℕ} {x y : ℤ} (hx0 : 0 ≤ x) (hx : x ≤ w - 1) (hy0 : 0 ≤ y)
    (hy : y ≤ h - 1) (hc : c < 3) (hw : w < 2 ^ 31) (hh : h < 2 ^ 31) :
    sizeT y * (sizeT w * 3) + sizeT x * 3 + c < w * h * 3 := by
  have hcol : x.toNat * 3 + c < w * 3 := rowMajor_lt (by omega) hc
  have hrow : y.toNat * (w * 3) + (x.toNat * 3 + c) < h * (w * 3) := rowMajor_lt (by omega) hcol
  rw [sizeT_eq hy0 (by omega), sizeT_eq hx0 (by omega), sizeT_eq (by omega) (by omega),
    Int.toNat_natCast, Nat.add_assoc]
  calc _ < h * (w * 3) := hrow
    _ = w * h * 3 := by ring

section Stores

variable {K : Type*}

/-- The least of the pixels that are read. -/
def Store.least (s : Store K) (src : ℕ → ℕ) : ℕ :=
  min (min (src s.p00) (src s.p01)) (min (src s.p10) (src s.p11))

/-- The greatest of them. -/
def Store.greatest (s : Store K) (src : ℕ → ℕ) : ℕ :=
  max (max (src s.p00) (src s.p01)) (max (src s.p10) (src s.p11))

theorem Store.least_le (s : Store K) (src : ℕ → ℕ) {i : ℕ} (hi : i ∈ s.loads) :
    s.least src ≤ src i := by
  simp only [Store.loads, List.mem_cons, List.not_mem_nil, or_false] at hi
  rcases hi with rfl | rfl | rfl | rfl <;> simp [Store.least]

theorem Store.le_greatest (s : Store K) (src : ℕ → ℕ) {i : ℕ} (hi : i ∈ s.loads) :
    src i ≤ s.greatest src := by
  simp only [Store.loads, List.mem_cons, List.not_mem_nil, or_false] at hi
  rcases hi with rfl | rfl | rfl | rfl <;> simp [Store.greatest]

theorem mem_iterations {nh nw : ℤ} {i : ℕ × ℕ × ℕ} :
    i ∈ iterations nh nw ↔ (i.1 : ℤ) < nh ∧ (i.2.1 : ℤ) < nw ∧ i.2.2 < 3 := by
  obtain ⟨dy, dx, c⟩ := i
  simp only [iterations, List.pair_mem_product, List.mem_range, Int.lt_toNat]

theorem nodup_iterations (nh nw : ℤ) : (iterations nh nw).Nodup :=
  List.nodup_range.product (List.nodup_range.product List.nodup_range)

variable [Field K] [LinearOrder K] [FloorRing K] {S w h : ℕ} {src : ℕ → ℕ} {row col : AxisEntry K}
  {dy dx c : ℕ}

theorem pixelStore_loads_lt (hrow : row.InBounds h) (hcol : col.InBounds w) (hc : c < 3)
    (hw : w < 2 ^ 31) (hh : h < 2 ^ 31) :
    ∀ i ∈ (pixelStore S w src row col dy dx c).loads, i < w * h * 3 := by
  have hx1 := hcol.zero_le_i0.trans hcol.i0_le_i1
  have hx0 := hcol.i0_le_i1.trans hcol.i1_le
  have hy1 := hrow.zero_le_i0.trans hrow.i0_le_i1
  have hy0 := hrow.i0_le_i1.trans hrow.i1_le
  intro i hi
  simp only [Store.loads, List.mem_cons, List.not_mem_nil, or_false] at hi
  rcases hi with rfl | rfl | rfl | rfl
  · exact offset_lt hcol.zero_le_i0 hx0 hrow.zero_le_i0 hy0 hc hw hh
  · exact offset_lt hx1 hcol.i1_le hrow.zero_le_i0 hy0 hc hw hh
  · exact offset_lt hcol.zero_le_i0 hx0 hy1 hrow.i1_le hc hw hh
  · exact offset_lt hx1 hcol.i1_le hy1 hrow.i1_le hc hw hh

/-- The value is the rounded mean of the pixels. -/
theorem pixelStore_value (S : ℕ) (w : ℤ) (src : ℕ → ℕ) (row col : AxisEntry K) (dy dx c : ℕ) :
    let s := pixelStore S w src row col dy dx c
    s.value = (roundAway (lerp row.w (lerp col.w (src s.p00 : K) (src s.p01))
      (lerp col.w (src s.p10 : K) (src s.p11))) : K) :=
  rfl

theorem pixelStore_value_bounds [IsStrictOrderedRing K] (hrow : row.InBounds h)
    (hcol : col.InBounds w) : ∃ k : ℤ, (pixelStore S w src row col dy dx c).value = k ∧
      ((pixelStore S w src row col dy dx c).least src : ℤ) ≤ k ∧
        k ≤ ((pixelStore S w src row col dy dx c).greatest src : ℤ) := by
  refine ⟨_, pixelStore_value S w src row col dy dx c, ?_, ?_⟩
  all_goals generalize pixelStore S w src row col dy dx c = s
  · have hleast : ∀ i ∈ s.loads, (((s.least src : ℕ) : ℤ) : K) ≤ src i := fun i hi => by
      rw [Int.cast_natCast, Nat.cast_le]
      exact s.least_le src hi
    have hlerp : ∀ i ∈ s.loads, ∀ j ∈ s.loads,
        (((s.least src : ℕ) : ℤ) : K) ≤ lerp col.w (src i : K) (src j) := fun i hi j hj =>
      le_lerp hcol.zero_le_w hcol.w_lt_one.le (hleast i hi) (hleast j hj)
    exact le_roundAway (le_lerp hrow.zero_le_w hrow.w_lt_one.le
      (hlerp _ (by simp [Store.loads]) _ (by simp [Store.loads]))
      (hlerp _ (by simp [Store.loads]) _ (by simp [Store.loads])))
  · have hgreatest : ∀ i ∈ s.loads, (src i : K) ≤ ((s.greatest src : ℕ) : ℤ) := fun i hi => by
      rw [Int.cast_natCast, Nat.cast_le]
      exact s.le_greatest src hi
    have hlerp : ∀ i ∈ s.loads, ∀ j ∈ s.loads,
        lerp col.w (src i : K) (src j) ≤ ((s.greatest src : ℕ) : ℤ) := fun i hi j hj =>
      lerp_le hcol.zero_le_w hcol.w_lt_one.le (hgreatest i hi) (hgreatest j hj)
    exact roundAway_le (lerp_le hrow.zero_le_w hrow.w_lt_one.le
      (hlerp _ (by simp [Store.loads]) _ (by simp [Store.loads]))
      (hlerp _ (by simp [Store.loads]) _ (by simp [Store.loads])))

end Stores

/-! ## A frame -/

section Frames

variable {K : Type*} [Field K] [LinearOrder K] [FloorRing K] {cfg : DetectorConfig K}
  {frame : Frame}

theorem toInt_side {x : UInt32} (hx : x.toNat < 2 ^ 31) : x.toBitVec.toInt = x.toNat :=
  BitVec.toInt_eq_toNat_of_lt (by show 2 * x.toNat < 2 ^ 32; omega)

/-- The place of row `dy` and column `dx` in the plane of channel `c`. -/
def tensorIndex (S c dy dx : ℕ) : ℕ :=
  c * (S * S) + (dy * S + dx)

theorem tensorIndex_lt {S c dy dx : ℕ} (hc : c < 3) (hdy : dy < S) (hdx : dx < S) :
    tensorIndex S c dy dx < 3 * S * S := by
  rw [Nat.mul_assoc]
  exact rowMajor_lt hc (rowMajor_lt hdy hdx)

theorem tensorIndex_inj {S c dy dx c' dy' dx' : ℕ} (hdy : dy < S) (hdx : dx < S) (hdy' : dy' < S)
    (hdx' : dx' < S) (h : tensorIndex S c dy dx = tensorIndex S c' dy' dx') :
    c = c' ∧ dy = dy' ∧ dx = dx' := by
  obtain ⟨hc, hplane⟩ := rowMajor_inj (rowMajor_lt hdy hdx) (rowMajor_lt hdy' hdx') h
  exact ⟨hc, rowMajor_inj hdx hdx' hplane⟩

theorem resized_bounds (hS : 1 ≤ cfg.inputSize) (frame : Frame) (side : ℤ) :
    1 ≤ cfg.resized frame side ∧ cfg.resized frame side ≤ cfg.inputSize :=
  clampInt_bounds _ (by exact_mod_cast hS)

theorem nw_bounds (hS : 1 ≤ cfg.inputSize) (frame : Frame) :
    1 ≤ cfg.nw frame ∧ cfg.nw frame ≤ cfg.inputSize :=
  resized_bounds hS frame _

theorem nh_bounds (hS : 1 ≤ cfg.inputSize) (frame : Frame) :
    1 ≤ cfg.nh frame ∧ cfg.nh frame ≤ cfg.inputSize :=
  resized_bounds hS frame _

/-- The assignments, with the entries the loops find. What is left in the tables is not read. -/
theorem stores_resize (hS : 1 ≤ cfg.inputSize) (ws : Workspace K cfg.inputSize)
    (src : FramePixels frame) :
    stores cfg src (ws.resize cfg src).row (ws.resize cfg src).col =
      (iterations (cfg.nh frame) (cfg.nw frame)).map fun i =>
        pixelStore cfg.inputSize frame.width.toBitVec.toInt src.pixel
          (axisEntry frame.height.toBitVec.toInt (cfg.nh frame) i.1)
          (axisEntry frame.width.toBitVec.toInt (cfg.nw frame) i.2.1) i.1 i.2.1 i.2.2 := by
  refine List.map_congr_left fun i hi => ?_
  obtain ⟨hdy, hdx, _⟩ := mem_iterations.1 hi
  simp only [Workspace.resize, getElem?_buildAxisTable hdy (nh_bounds hS frame).2,
    getElem?_buildAxisTable hdx (nw_bounds hS frame).2, Option.getD_some]

theorem nodup_stores_index (hS : 1 ≤ cfg.inputSize) (ws : Workspace K cfg.inputSize)
    (src : FramePixels frame) :
    ((stores cfg src (ws.resize cfg src).row (ws.resize cfg src).col).map Store.index).Nodup := by
  have hnw := (nw_bounds hS frame).2
  have hnh := (nh_bounds hS frame).2
  rw [stores_resize hS, List.map_map]
  refine (nodup_iterations _ _).map_on fun i hi j hj h => ?_
  obtain ⟨hdy, hdx, _⟩ := mem_iterations.1 hi
  obtain ⟨hdy', hdx', _⟩ := mem_iterations.1 hj
  obtain ⟨hc, hy, hx⟩ := tensorIndex_inj (by omega) (by omega) (by omega) (by omega) h
  exact Prod.ext hy (Prod.ext hx hc)

/-- The assignment for a pixel of the corner is there. -/
theorem getElem?_tensor_inside (hS : 1 ≤ cfg.inputSize) (ws : Workspace K cfg.inputSize)
    (src : FramePixels frame) {s : Store K} (hindex : s.index < 3 * cfg.inputSize * cfg.inputSize)
    (hs : s ∈ stores cfg src (ws.resize cfg src).row (ws.resize cfg src).col) :
    (ws.resize cfg src).inputTensor[s.index]? = some s.value := by
  refine getElem?_writeAll_of_mem hindex _ ?_ (List.mem_map_of_mem hs)
  rw [List.map_map]
  exact nodup_stores_index hS ws src

theorem getElem?_tensor_outside (hS : 1 ≤ cfg.inputSize) (ws : Workspace K cfg.inputSize)
    (src : FramePixels frame) {c dy dx : ℕ} (hc : c < 3) (hdy : dy < cfg.inputSize)
    (hdx : dx < cfg.inputSize) (hout : cfg.nh frame ≤ dy ∨ cfg.nw frame ≤ dx) :
    (ws.resize cfg src).inputTensor[tensorIndex cfg.inputSize c dy dx]? = some 114 := by
  have hnw := (nw_bounds hS frame).2
  have hnh := (nh_bounds hS frame).2
  have hnot : tensorIndex cfg.inputSize c dy dx ∉
      ((stores cfg src (ws.resize cfg src).row (ws.resize cfg src).col).map
        fun s => (s.index, s.value)).map Prod.fst := by
    rw [List.map_map, stores_resize hS, List.map_map, List.mem_map]
    rintro ⟨i, hi, h⟩
    obtain ⟨hdy', hdx', _⟩ := mem_iterations.1 hi
    obtain ⟨_, hy, hx⟩ := tensorIndex_inj (by omega) (by omega) hdy hdx h
    omega
  refine (getElem?_writeAll_of_notMem _ hnot).trans ?_
  rw [Vector.getElem?_replicate, if_pos (tensorIndex_lt hc hdy hdx)]

theorem preprocess_ok (ws : Workspace K cfg.inputSize) (src : FramePixels frame)
    (hformat : frame.format = .bgr24) (hwidth : 1 ≤ frame.width.toNat)
    (hheight : 1 ≤ frame.height.toNat) :
    ws.preprocess cfg src = .ok (scale cfg frame, ws.resize cfg src) := by
  have hw : frame.width ≠ 0 := fun h => by simp [h] at hwidth
  have hh : frame.height ≠ 0 := fun h => by simp [h] at hheight
  rw [Workspace.preprocess, preprocess, if_neg (by simp [hformat, hw, hh])]
  rfl

theorem side_lt (hwidth : 1 ≤ frame.width.toNat) (hheight : 1 ≤ frame.height.toNat)
    (hbytes : frame.width.toNat * frame.height.toNat * 3 ≤ kMaxBytes) :
    frame.width.toNat < 2 ^ 31 ∧ frame.height.toNat < 2 ^ 31 := by
  unfold kMaxBytes at hbytes
  have hw : frame.width.toNat ≤ frame.width.toNat * frame.height.toNat :=
    Nat.le_mul_of_pos_right _ hheight
  have hh : frame.height.toNat ≤ frame.width.toNat * frame.height.toNat :=
    Nat.le_mul_of_pos_left _ hwidth
  omega

/-- The table of a side, which is cast to `int`. -/
theorem getElem?_sideTable {S d : ℕ} {m : ℤ} {side : UInt32} (hside : side.toNat < 2 ^ 31)
    (hd : (d : ℤ) < m) (hS : m ≤ S) (t : Vector (AxisEntry K) S) :
    (buildAxisTable side.toBitVec.toInt m t)[d]? = some (axisEntry side.toNat m d) := by
  rw [toInt_side hside]
  exact getElem?_buildAxisTable hd hS t

/-- Every frame that the array can hold is resized within the bounds of the frame, the tables and
the tensor, and leaves the rest of the tensor gray. -/
theorem letterbox_in_bounds [IsStrictOrderedRing K] (cfg : DetectorConfig K) (frame : Frame)
    (src : FramePixels frame) (ws : Workspace K cfg.inputSize) (hS : 1 ≤ cfg.inputSize)
    (hformat : frame.format = .bgr24) (hwidth : 1 ≤ frame.width.toNat)
    (hheight : 1 ≤ frame.height.toNat)
    (hbytes : frame.width.toNat * frame.height.toNat * 3 ≤ kMaxBytes) :
    ∃ ws', ws.preprocess cfg src = .ok (scale cfg frame, ws') ∧
      (1 ≤ cfg.nw frame ∧ cfg.nw frame ≤ cfg.inputSize) ∧
      (1 ≤ cfg.nh frame ∧ cfg.nh frame ≤ cfg.inputSize) ∧
      (∀ d : ℕ, (d : ℤ) < cfg.nw frame →
        ∃ e, ws'.col[d]? = some e ∧ e.InBounds frame.width.toNat) ∧
      (∀ d : ℕ, (d : ℤ) < cfg.nh frame →
        ∃ e, ws'.row[d]? = some e ∧ e.InBounds frame.height.toNat) ∧
      (∀ s ∈ stores cfg src ws'.row ws'.col,
        (∀ i ∈ s.loads, i < frame.width.toNat * frame.height.toNat * 3) ∧
        s.index < 3 * cfg.inputSize * cfg.inputSize ∧
        ws'.inputTensor[s.index]? = some s.value ∧
        ∃ k : ℤ, s.value = k ∧ (s.least src.pixel : ℤ) ≤ k ∧ k ≤ (s.greatest src.pixel : ℤ)) ∧
      ((stores cfg src ws'.row ws'.col).map Store.index).Nodup ∧
      ∀ c < 3, ∀ dy < cfg.inputSize, ∀ dx < cfg.inputSize,
        cfg.nh frame ≤ dy ∨ cfg.nw frame ≤ dx →
          ws'.inputTensor[tensorIndex cfg.inputSize c dy dx]? = some 114 := by
  obtain ⟨hw, hh⟩ := side_lt hwidth hheight hbytes
  have hnw := nw_bounds hS frame
  have hnh := nh_bounds hS frame
  have hcol : ∀ d : ℕ, (d : ℤ) < cfg.nw frame →
      (axisEntry frame.width.toNat (cfg.nw frame) d : AxisEntry K).InBounds frame.width.toNat :=
    fun d hd => axisEntry_inBounds (by exact_mod_cast hwidth) hd
  have hrow : ∀ d : ℕ, (d : ℤ) < cfg.nh frame →
      (axisEntry frame.height.toNat (cfg.nh frame) d : AxisEntry K).InBounds frame.height.toNat :=
    fun d hd => axisEntry_inBounds (by exact_mod_cast hheight) hd
  refine ⟨ws.resize cfg src, preprocess_ok ws src hformat hwidth hheight, hnw, hnh, ?_, ?_, ?_,
    nodup_stores_index hS ws src, ?_⟩
  · exact fun d hd => ⟨_, getElem?_sideTable hw hd hnw.2 ws.col, hcol d hd⟩
  · exact fun d hd => ⟨_, getElem?_sideTable hh hd hnh.2 ws.row, hrow d hd⟩
  · intro s hs
    have hmem := hs
    rw [stores_resize hS, toInt_side hw, toInt_side hh, List.mem_map] at hmem
    obtain ⟨i, hi, rfl⟩ := hmem
    obtain ⟨hdy, hdx, hc⟩ := mem_iterations.1 hi
    have hindex := tensorIndex_lt hc (show i.1 < cfg.inputSize by omega)
      (show i.2.1 < cfg.inputSize by omega)
    exact ⟨pixelStore_loads_lt (hrow _ hdy) (hcol _ hdx) hc hw hh, hindex,
      getElem?_tensor_inside hS ws src hindex hs,
      pixelStore_value_bounds (hrow _ hdy) (hcol _ hdx)⟩
  · exact fun c hc dy hdy dx hdx => getElem?_tensor_outside hS ws src hc hdy hdx

end Frames

/-- Two pixels side by side, for a model of two by two. -/
def wideFrame : Frame :=
  { width := 2, height := 1, format := .bgr24, data := List.replicate 6 7 }

/-- An array that holds them. -/
def widePixels : FramePixels wideFrame where
  bytes := Vector.replicate kMaxBytes 7
  used := by
    refine ⟨List.replicate (kMaxBytes - 6) 7, ?_⟩
    rw [wideFrame, List.replicate_append_replicate, Vector.toList_replicate]
    rfl

/-- The configuration of a model of two by two. -/
def smallConfig : DetectorConfig ℚ :=
  ⟨2, 0, 0, []⟩

/-- The frame fills the first row, and the second is gray. -/
theorem letterbox_in_bounds_wide :
    ∃ ws', (Workspace.init _).preprocess smallConfig widePixels = .ok (1, ws') ∧
      ∀ c < 3, ∀ dx < 2, ws'.inputTensor[tensorIndex 2 c 1 dx]? = some 114 := by
  obtain ⟨ws', hok, _, _, _, _, _, _, hgray⟩ := letterbox_in_bounds smallConfig wideFrame widePixels
    (Workspace.init _) (by decide) rfl (by decide) (by decide) (by decide)
  have hscale : scale smallConfig wideFrame = 1 := by decide +kernel
  have hnh : smallConfig.nh wideFrame ≤ 1 := by decide +kernel
  rw [hscale] at hok
  exact ⟨ws', hok, fun c hc dx hdx => hgray c hc 1 (by decide) dx hdx (Or.inl hnh)⟩

/-! ## What the model sees -/

section Image

variable {K : Type*} [Field K] [LinearOrder K] [FloorRing K] {frame : Frame}

/-- Channel `c` of the pixel in row `y` and column `x`. -/
def FramePixels.channel (src : FramePixels frame) (c : ℕ) (y x : ℤ) : ℕ :=
  src.pixel ((y.toNat * frame.width.toNat + x.toNat) * 3 + c)

/-- The frame in the top left corner, interpolated at the centres of its new pixels, and gray. -/
def letterboxAt (cfg : DetectorConfig K) (src : FramePixels frame) (c dy dx : ℕ) : K :=
  if (dy : ℤ) < cfg.nh frame ∧ (dx : ℤ) < cfg.nw frame then
    (roundAway (interpolate (fun y => interpolate (fun x =>
        (src.channel c (edge frame.height.toNat y) (edge frame.width.toNat x) : K))
      (axisPosition frame.width.toNat (cfg.nw frame) dx))
      (axisPosition frame.height.toNat (cfg.nh frame) dy)) : K)
  else 114

variable [IsStrictOrderedRing K] {cfg : DetectorConfig K}

theorem pixel_offset (src : FramePixels frame) (hw : frame.width.toNat < 2 ^ 31)
    (hh : frame.height.toNat < 2 ^ 31) (c : ℕ) {y x : ℤ} (hy : 0 ≤ y ∧ y ≤ frame.height.toNat - 1)
    (hx : 0 ≤ x ∧ x ≤ frame.width.toNat - 1) :
    src.pixel (sizeT y * (sizeT frame.width.toNat * 3) + sizeT x * 3 + c) = src.channel c y x := by
  rw [FramePixels.channel, sizeT_eq hy.1 (by omega), sizeT_eq hx.1 (by omega),
    sizeT_eq (by omega) (by omega), Int.toNat_natCast]
  congr 1
  ring

/-- What the loops write is the frame, interpolated in two directions. -/
theorem pixelStore_value_eq (src : FramePixels frame) (hwidth : 1 ≤ frame.width.toNat)
    (hheight : 1 ≤ frame.height.toNat) (hw : frame.width.toNat < 2 ^ 31)
    (hh : frame.height.toNat < 2 ^ 31) {dy dx : ℕ} (hdy : (dy : ℤ) < cfg.nh frame)
    (hdx : (dx : ℤ) < cfg.nw frame) (c : ℕ) :
    (pixelStore cfg.inputSize frame.width.toNat src.pixel
      (axisEntry frame.height.toNat (cfg.nh frame) dy)
      (axisEntry frame.width.toNat (cfg.nw frame) dx : AxisEntry K) dy dx c).value =
        letterboxAt cfg src c dy dx := by
  have hwidth' : (1 : ℤ) ≤ frame.width.toNat := by exact_mod_cast hwidth
  have hheight' : (1 : ℤ) ≤ frame.height.toNat := by exact_mod_cast hheight
  let pixel : ℤ → ℤ → K := fun y x =>
    src.pixel (sizeT y * (sizeT frame.width.toNat * 3) + sizeT x * 3 + c)
  let line : ℤ → K := fun y => interpolate (fun x => pixel y (edge frame.width.toNat x))
    (axisPosition frame.width.toNat (cfg.nw frame) dx)
  have hline := fun y => lerp_axisEntry hwidth' hdx (pixel y)
  have hcolumn := lerp_axisEntry hheight' hdy line
  have hpixel : ∀ y x, pixel (edge frame.height.toNat y) (edge frame.width.toNat x) =
      src.channel c (edge frame.height.toNat y) (edge frame.width.toNat x) := fun y x =>
    congrArg Nat.cast (pixel_offset src hw hh c (edge_bounds hheight' y) (edge_bounds hwidth' x))
  rw [letterboxAt, if_pos ⟨hdy, hdx⟩, pixelStore_value]
  simp only [← hpixel]
  rw [← hcolumn]
  simp only [line, ← hline]
  rfl

/-- Whatever the vectors held before, `Preprocess` leaves the letterboxed frame in the tensor. -/
theorem preprocess_letterbox (ws : Workspace K cfg.inputSize) (src : FramePixels frame)
    (hS : 1 ≤ cfg.inputSize) (hformat : frame.format = .bgr24) (hwidth : 1 ≤ frame.width.toNat)
    (hheight : 1 ≤ frame.height.toNat)
    (hbytes : frame.width.toNat * frame.height.toNat * 3 ≤ kMaxBytes) :
    ∃ ws', ws.preprocess cfg src = .ok (scale cfg frame, ws') ∧
      ∀ c < 3, ∀ dy < cfg.inputSize, ∀ dx < cfg.inputSize,
        ws'.inputTensor[tensorIndex cfg.inputSize c dy dx]? =
          some (letterboxAt cfg src c dy dx) := by
  obtain ⟨hw, hh⟩ := side_lt hwidth hheight hbytes
  refine ⟨_, preprocess_ok ws src hformat hwidth hheight, fun c hc dy hdy dx hdx => ?_⟩
  by_cases hin : (dy : ℤ) < cfg.nh frame ∧ (dx : ℤ) < cfg.nw frame
  · rw [← pixelStore_value_eq src hwidth hheight hw hh hin.1 hin.2 c]
    have hs : pixelStore cfg.inputSize frame.width.toNat src.pixel
        (axisEntry frame.height.toNat (cfg.nh frame) dy)
        (axisEntry frame.width.toNat (cfg.nw frame) dx : AxisEntry K) dy dx c ∈
          stores cfg src (ws.resize cfg src).row (ws.resize cfg src).col := by
      rw [stores_resize hS, toInt_side hw, toInt_side hh]
      exact List.mem_map.2 ⟨(dy, dx, c), mem_iterations.2 ⟨hin.1, hin.2, hc⟩, rfl⟩
    exact getElem?_tensor_inside hS ws src (tensorIndex_lt hc hdy hdx) hs
  · rw [letterboxAt, if_neg hin]
    exact getElem?_tensor_outside hS ws src hc hdy hdx (by omega)

/-- A frame of the model's size is copied. -/
theorem letterbox_square (src : FramePixels frame) (hS : 1 ≤ cfg.inputSize)
    (hS' : cfg.inputSize < 2 ^ 31) (hwidth : frame.width.toNat = cfg.inputSize)
    (hheight : frame.height.toNat = cfg.inputSize) {dy dx : ℕ} (hdy : dy < cfg.inputSize)
    (hdx : dx < cfg.inputSize) (c : ℕ) : letterboxAt cfg src c dy dx = src.channel c dy dx := by
  have hne : (cfg.inputSize : K) ≠ 0 := Nat.cast_ne_zero.2 (by omega)
  have hscale : scale cfg frame = 1 := by
    rw [scale, toInt_side (by omega), toInt_side (by omega), hwidth, hheight]
    simp [hne]
  have hside : clampInt (truncate (((cfg.inputSize : ℕ) : ℤ) : K)) 1 cfg.inputSize =
      cfg.inputSize := by
    rw [truncate, if_neg (by simp), Int.floor_intCast, clampInt]
    split_ifs <;> omega
  have hnw : cfg.nw frame = cfg.inputSize := by
    rw [DetectorConfig.nw, DetectorConfig.resized, toInt_side (by omega), hscale, mul_one, hwidth,
      hside]
  have hnh : cfg.nh frame = cfg.inputSize := by
    rw [DetectorConfig.nh, DetectorConfig.resized, toInt_side (by omega), hscale, mul_one, hheight,
      hside]
  have hposition : ∀ d : ℕ, (axisPosition cfg.inputSize cfg.inputSize d : K) = (d : ℤ) := by
    simp [axisPosition, hne]
  rw [letterboxAt, hnw, hnh, hwidth, hheight, if_pos ⟨by omega, by omega⟩, hposition, hposition,
    interpolate_intCast, interpolate_intCast, edge_of_mem (by omega) (by omega),
    edge_of_mem (by omega) (by omega), ← Int.cast_natCast (src.channel _ _ _), roundAway_intCast]

end Image

/-! ## A stream of frames -/

section Stream

variable {K : Type*} [Field K] [LinearOrder K] [FloorRing K] (sort : ScoreSort K) (exp : K → K)
  (cfg : DetectorConfig K)
  (model : Vector K (3 * cfg.inputSize * cfg.inputSize) → ModelOutput K)

/-- `DetectAll` with the vectors of the detector, which stay written if it throws later. -/
def Workspace.detectAll (ws : Workspace K cfg.inputSize) {frame : Frame}
    (src : FramePixels frame) : Except String (List (Detection K)) × Workspace K cfg.inputSize :=
  match ws.preprocess cfg src with
  | .error e => (.error e, ws)
  | .ok (_, ws') => (Ridgeline.detectAll sort exp cfg frame (model ws'.inputTensor), ws')

/-- The answers of a detector for frames one after the other. -/
def Workspace.answers (ws : Workspace K cfg.inputSize) :
    List ((frame : Frame) × FramePixels frame) → List (Except String (List (Detection K)))
  | [] => []
  | f :: fs =>
    let answer := ws.detectAll sort exp cfg model f.2
    answer.1 :: answer.2.answers fs

variable {cfg}

theorem resize_inputTensor (hS : 1 ≤ cfg.inputSize) (ws ws' : Workspace K cfg.inputSize)
    {frame : Frame} (src : FramePixels frame) :
    (ws.resize cfg src).inputTensor = (ws'.resize cfg src).inputTensor := by
  have hstores := (stores_resize hS ws src).trans (stores_resize hS ws' src).symm
  exact congrArg (fun l => writeAll (l.map fun s => (s.index, s.value)) _) hstores

theorem detectAll_fst (hS : 1 ≤ cfg.inputSize) (ws ws' : Workspace K cfg.inputSize) {frame : Frame}
    (src : FramePixels frame) : (ws.detectAll sort exp cfg model src).1 =
      (ws'.detectAll sort exp cfg model src).1 := by
  unfold Workspace.detectAll Workspace.preprocess
  cases preprocess cfg frame with
  | error e => rfl
  | ok r =>
    show Ridgeline.detectAll sort exp cfg frame (model (ws.resize cfg src).inputTensor) = _
    rw [resize_inputTensor hS ws ws' src]
    rfl

/-- Each answer is that of a new detector : nothing is left from the frames before. -/
theorem answers_eq (hS : 1 ≤ cfg.inputSize) (ws : Workspace K cfg.inputSize)
    (fs : List ((frame : Frame) × FramePixels frame)) : ws.answers sort exp cfg model fs =
      fs.map fun f => ((Workspace.init cfg.inputSize).detectAll sort exp cfg model f.2).1 := by
  induction fs generalizing ws with
  | nil => rfl
  | cons f fs ih =>
    rw [Workspace.answers, List.map_cons, ih, detectAll_fst sort exp model hS ws]

end Stream

end Ridgeline
