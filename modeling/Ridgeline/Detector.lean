import Mathlib.Algebra.Order.Field.Basic
import Mathlib.Algebra.Order.Ring.Rat
import Mathlib.Order.Bounds.Basic
import Ridgeline.EdgePipeline
import Ridgeline.GreedySelection

/-!
# The detector's boxes

`OnnxCpuDetector` behind the model : decoding the rows of the output, the score threshold, the
suppression of boxes that overlap, and the choice of the box that is reported. Numbers are of an
ordered field in place of `float`, `exp` is any function, and the model's output is arbitrary.
`std::sort` is any function that returns a permutation in the order of the scores, since it is not
stable. How `Preprocess` resizes the frame decides what the model sees, and comes later.

The rows that are skipped for their objectness would not have passed the threshold
(`candidate_eq`), and the suppression is a greedy selection (`nms_eq_greedy`). So the boxes returned
are the selection from the candidates, whatever the order of the rows (`post_processing_selects`).
What the box of a row, the IoU of two boxes and the report of a box should be is said apart from
the code (`BoxOfRow`, `IouOf`, `Reports`).
-/

namespace Ridgeline

variable {K : Type*}

/-! ## The code -/

/-- `Detection`. -/
structure Detection (K : Type*) where
  classId : ℤ
  score : K
  x1 : K
  y1 : K
  x2 : K
  y2 : K
  deriving DecidableEq, Repr

/-- `OnnxDetectorConfig`, without what only the session uses. -/
structure DetectorConfig (K : Type*) where
  inputSize : ℕ
  scoreThreshold : K
  nmsIouThreshold : K
  targetClassIds : List ℤ

/-- The place of a row in the grids : `grid_x_`, `grid_y_` and `grid_stride_`. -/
structure GridCell (K : Type*) where
  x : K
  y : K
  stride : K
  deriving DecidableEq, Repr

/-- The output tensor : its shape, and the floats behind `GetTensorData`. -/
structure ModelOutput (K : Type*) where
  shape : List ℕ
  data : ℕ → K

/-- The row `i` of rows of `dims` numbers. -/
def ModelOutput.row (out : ModelOutput K) (dims i : ℕ) : ℕ → K :=
  fun c => out.data (i * dims + c)

/-- `DetectionResult`. -/
structure DetectResult (K : Type*) where
  positive : Bool
  confidence : K
  xMin : K
  yMin : K
  xMax : K
  yMax : K
  deriving DecidableEq, Repr

/-- `std::sort` by descending score. -/
structure ScoreSort (K : Type*) [LE K] where
  sort : List (Detection K) → List (Detection K)
  perm : ∀ ds, (sort ds).Perm ds
  sorted : ∀ ds, (sort ds).Pairwise fun a b => b.score ≤ a.score

/-- A sort there is. -/
def ScoreSort.merge [LinearOrder K] : ScoreSort K where
  sort ds := ds.mergeSort fun a b => b.score ≤ a.score
  perm ds := List.mergeSort_perm ds _
  sorted ds := by
    refine (List.pairwise_mergeSort (fun a b c hab hbc => ?_) (fun a b => ?_) ds).imp
      of_decide_eq_true
    · exact decide_eq_true ((of_decide_eq_true hbc).trans (of_decide_eq_true hab))
    · simpa using le_total b.score a.score

section Code

variable [Field K] [LinearOrder K]

/-- `IoU`. -/
def iou (a b : Detection K) : K :=
  let ix1 := max a.x1 b.x1
  let iy1 := max a.y1 b.y1
  let ix2 := min a.x2 b.x2
  let iy2 := min a.y2 b.y2
  let iw := max 0 (ix2 - ix1)
  let ih := max 0 (iy2 - iy1)
  let inter := iw * ih
  let areaA := max 0 (a.x2 - a.x1) * max 0 (a.y2 - a.y1)
  let areaB := max 0 (b.x2 - b.x1) * max 0 (b.y2 - b.y1)
  let uni := areaA + areaB - inter
  if uni > 0 then inter / uni else 0

/-- `std::clamp`. -/
def clamp (v lo hi : K) : K :=
  if v < lo then lo else if hi < v then hi else v

/-- The grids of the three strides, one cell for each row. -/
def grid (inputSize : ℕ) : List (GridCell K) :=
  [8, 16, 32].flatMap fun stride =>
    (List.range (inputSize / stride)).flatMap fun y : ℕ =>
      (List.range (inputSize / stride)).map fun x : ℕ => ⟨x, y, (stride : ℕ)⟩

/-- The factor between the frame and the model's image. The sides are cast to `int`. -/
def scale (cfg : DetectorConfig K) (frame : Frame) : K :=
  let w : ℤ := frame.width.toBitVec.toInt
  let h : ℤ := frame.height.toBitVec.toInt
  min ((cfg.inputSize : K) / (h : K)) ((cfg.inputSize : K) / (w : K))

/-- `Preprocess`, as far as it throws, and the factor it returns. -/
def preprocess (cfg : DetectorConfig K) (frame : Frame) : Except String K :=
  if frame.format ≠ .bgr24 ∨ frame.width = 0 ∨ frame.height = 0 then
    .error "OnnxCpuDetector requires a non-empty BGR24 frame"
  else
    .ok (scale cfg frame)

/-- The loop for `best_class` and `best_class_score` over a row. -/
def bestClass (p : ℕ → K) (numClasses : ℕ) : ℕ × K :=
  (List.range' 1 (numClasses - 1)).foldl
    (fun best c => if p (5 + c) > best.2 then (c, p (5 + c)) else best) (0, p 5)

/-- The box of a row, in pixels of the frame. -/
def decodeRow (exp : K → K) (numClasses : ℕ) (r : K) (frame : Frame) (cell : GridCell K)
    (p : ℕ → K) : Detection K :=
  let imgW : K := frame.width.toNat
  let imgH : K := frame.height.toNat
  let best := bestClass p numClasses
  let cx := (p 0 + cell.x) * cell.stride
  let cy := (p 1 + cell.y) * cell.stride
  let bw := exp (p 2) * cell.stride
  let bh := exp (p 3) * cell.stride
  { classId := best.1
    score := p 4 * best.2
    x1 := clamp ((cx - bw / 2) / r) 0 imgW
    y1 := clamp ((cy - bh / 2) / r) 0 imgH
    x2 := clamp ((cx + bw / 2) / r) 0 imgW
    y2 := clamp ((cy + bh / 2) / r) 0 imgH }

/-- The body of the loop over the rows. -/
def candidate (exp : K → K) (cfg : DetectorConfig K) (numClasses : ℕ) (r : K) (frame : Frame)
    (cell : GridCell K) (p : ℕ → K) : Option (Detection K) :=
  let objectness := p 4
  -- no class is looked for in a row of the background
  if objectness ≤ cfg.scoreThreshold then none
  else
    let score := objectness * (bestClass p numClasses).2
    if score ≤ cfg.scoreThreshold then none
    else some (decodeRow exp numClasses r frame cell p)

/-- `candidates_`, from rows of `dims` numbers. -/
def candidates (exp : K → K) (cfg : DetectorConfig K) (r : K) (frame : Frame) (dims : ℕ)
    (out : ModelOutput K) : List (Detection K) :=
  (grid cfg.inputSize).zipIdx.filterMap fun row =>
    candidate exp cfg (dims - 5) r frame row.1 (out.row dims row.2)

/-- The loop that drops what overlaps a kept box too much. -/
def nms (nmsIouThreshold : K) (cands : List (Detection K)) : List (Detection K) :=
  cands.foldl (fun kept cand =>
    let suppressed := kept.any fun k => iou cand k > nmsIouThreshold
    if !suppressed then kept ++ [cand] else kept) []

/-- `DetectAll`, when the model gives `out`. -/
def detectAll (sort : ScoreSort K) (exp : K → K) (cfg : DetectorConfig K) (frame : Frame)
    (out : ModelOutput K) : Except String (List (Detection K)) := do
  let r ← preprocess cfg frame
  match out.shape with
  | [_, rows, dims] =>
    if rows ≠ (grid cfg.inputSize : List (GridCell K)).length ∨ dims < 6 then
      .error "unexpected YOLOX output shape"
    else
      .ok (nms cfg.nmsIouThreshold (sort.sort (candidates exp cfg r frame dims out)))
  | _ => .error "unexpected YOLOX output shape"

/-- The box has a class that is asked for. -/
def Wanted (cfg : DetectorConfig K) (d : Detection K) : Prop :=
  cfg.targetClassIds = [] ∨ d.classId ∈ cfg.targetClassIds

instance (cfg : DetectorConfig K) : DecidablePred (Wanted cfg) :=
  fun _ => inferInstanceAs (Decidable (_ ∨ _))

/-- The result for a box, which is relative to the frame. -/
def report (frame : Frame) (d : Detection K) : DetectResult K where
  positive := true
  confidence := d.score
  xMin := d.x1 / (frame.width.toNat : K)
  yMin := d.y1 / (frame.height.toNat : K)
  xMax := d.x2 / (frame.width.toNat : K)
  yMax := d.y2 / (frame.height.toNat : K)

/-- `Detect`, when the model gives `out`. -/
def detect (sort : ScoreSort K) (exp : K → K) (cfg : DetectorConfig K) (frame : Frame)
    (out : ModelOutput K) : Except String (DetectResult K) := do
  let detections ← detectAll sort exp cfg frame out
  match detections.find? (Wanted cfg ·) with
  | some d => .ok (report frame d)
  | none => .ok ⟨false, 0, 0, 0, 0, 0⟩

end Code

/-! ## The candidates -/

section Candidates

variable [LinearOrder K]

theorem bestClass_succ (p : ℕ → K) (n : ℕ) :
    bestClass p (n + 2) =
      if p (5 + (n + 1)) > (bestClass p (n + 1)).2 then (n + 1, p (5 + (n + 1)))
      else bestClass p (n + 1) := by
  rw [bestClass, Nat.add_sub_cancel (n + 1) 1, List.range'_1_concat, List.foldl_concat,
    Nat.add_comm 1 n]
  rfl

/-- The loop ends with a class that has the greatest score. -/
theorem bestClass_spec (p : ℕ → K) (n : ℕ) :
    (bestClass p (n + 1)).1 < n + 1 ∧ p (5 + (bestClass p (n + 1)).1) = (bestClass p (n + 1)).2 ∧
      ∀ c < n + 1, p (5 + c) ≤ (bestClass p (n + 1)).2 := by
  induction n with
  | zero => exact ⟨Nat.one_pos, rfl, fun c hc => by rw [Nat.lt_one_iff.1 hc]; exact le_rfl⟩
  | succ n ih =>
    obtain ⟨hlt, hscore, hmax⟩ := ih
    rw [bestClass_succ]
    split_ifs with hgt
    · refine ⟨Nat.lt_succ_self _, rfl, fun c hc => ?_⟩
      rcases Nat.lt_succ_iff_lt_or_eq.1 hc with hc | rfl
      · exact (hmax c hc).trans hgt.le
      · exact le_rfl
    · refine ⟨hlt.trans (Nat.lt_succ_self _), hscore, fun c hc => ?_⟩
      rcases Nat.lt_succ_iff_lt_or_eq.1 hc with hc | rfl
      · exact hmax c hc
      · exact not_lt.1 hgt

/-- The classes before it have smaller scores. -/
theorem bestClass_first (p : ℕ → K) (n : ℕ) :
    ∀ c < (bestClass p (n + 1)).1, p (5 + c) < (bestClass p (n + 1)).2 := by
  induction n with
  | zero => exact fun c hc => absurd hc (Nat.not_lt_zero c)
  | succ n ih =>
    rw [bestClass_succ]
    split_ifs with hgt
    · exact fun c hc => ((bestClass_spec p n).2.2 c hc).trans_lt hgt
    · exact ih

theorem bestClass_isGreatest (p : ℕ → K) {n : ℕ} (hn : 0 < n) :
    IsGreatest {x | ∃ c < n, p (5 + c) = x} (bestClass p n).2 := by
  obtain ⟨n, rfl⟩ := Nat.exists_eq_succ_of_ne_zero hn.ne'
  obtain ⟨hlt, hscore, hmax⟩ := bestClass_spec p n
  refine ⟨⟨_, hlt, hscore⟩, ?_⟩
  rintro x ⟨c, hc, rfl⟩
  exact hmax c hc

variable [Field K]

/-- A side of a box, cut to the frame. -/
def cut (v size : K) : K :=
  max 0 (min v size)

/-- What the box of a row should be. The class is the first of those with the greatest score, and
the score of the box is the objectness times that. The box around the centre that the row gives is
brought to the frame by the factor of the model's image, and cut to the frame. -/
structure BoxOfRow (exp : K → K) (numClasses : ℕ) (r : K) (frame : Frame) (cell : GridCell K)
    (p : ℕ → K) (d : Detection K) : Prop where
  score : ∃ c < numClasses, d.classId = c ∧ d.score = p 4 * p (5 + c) ∧
    (∀ c' < numClasses, p (5 + c') ≤ p (5 + c)) ∧ ∀ c' < c, p (5 + c') < p (5 + c)
  box : ∃ cx cy w h : K, cx = (p 0 + cell.x) * cell.stride ∧ cy = (p 1 + cell.y) * cell.stride ∧
    w = exp (p 2) * cell.stride ∧ h = exp (p 3) * cell.stride ∧
    d.x1 = cut ((cx - w / 2) / r) frame.width.toNat ∧
    d.x2 = cut ((cx + w / 2) / r) frame.width.toNat ∧
    d.y1 = cut ((cy - h / 2) / r) frame.height.toNat ∧
    d.y2 = cut ((cy + h / 2) / r) frame.height.toNat

/-- Objectness and class scores are between 0 and 1. -/
def ModelOutput.UnitScores (out : ModelOutput K) (rows dims : ℕ) : Prop :=
  ∀ i < rows, (0 ≤ out.row dims i 4 ∧ out.row dims i 4 ≤ 1) ∧
    ∀ c < dims - 5, 0 ≤ out.row dims i (5 + c) ∧ out.row dims i (5 + c) ≤ 1

variable [IsStrictOrderedRing K]

theorem clamp_eq_cut (v : K) (size : ℕ) : clamp v 0 size = cut v size := by
  have hsize : (0 : K) ≤ size := Nat.cast_nonneg size
  rw [clamp, cut]
  split_ifs with hneg hbig
  · rw [min_eq_left (hneg.le.trans hsize), max_eq_left hneg.le]
  · rw [min_eq_right hbig.le, max_eq_right hsize]
  · rw [min_eq_left (not_lt.1 hbig), max_eq_right (not_lt.1 hneg)]

theorem boxOfRow_decodeRow (exp : K → K) {n : ℕ} (hn : 0 < n) (r : K) (frame : Frame)
    (cell : GridCell K) (p : ℕ → K) :
    BoxOfRow exp n r frame cell p (decodeRow exp n r frame cell p) := by
  obtain ⟨n, rfl⟩ := Nat.exists_eq_succ_of_ne_zero hn.ne'
  obtain ⟨hlt, hscore, hmax⟩ := bestClass_spec p n
  refine ⟨⟨_, hlt, rfl, by rw [hscore]; rfl, hscore ▸ hmax, hscore ▸ bestClass_first p n⟩, ?_⟩
  exact ⟨_, _, _, _, rfl, rfl, rfl, rfl, clamp_eq_cut _ _, clamp_eq_cut _ _, clamp_eq_cut _ _,
    clamp_eq_cut _ _⟩

/-- A row that is skipped for its objectness would not have passed with its best class. -/
theorem candidate_eq (exp : K → K) (cfg : DetectorConfig K) (n : ℕ) (r : K) (frame : Frame)
    (cell : GridCell K) {p : ℕ → K} (hobj : 0 ≤ p 4) (hbest : (bestClass p n).2 ≤ 1) :
    candidate exp cfg n r frame cell p =
      if cfg.scoreThreshold < p 4 * (bestClass p n).2 then some (decodeRow exp n r frame cell p)
      else none := by
  have hle : p 4 * (bestClass p n).2 ≤ p 4 := mul_le_of_le_one_right hobj hbest
  rw [candidate]
  by_cases hskip : p 4 ≤ cfg.scoreThreshold
  · rw [if_pos hskip, if_neg (not_lt.2 (hle.trans hskip))]
  · rw [if_neg hskip]
    by_cases hscore : p 4 * (bestClass p n).2 ≤ cfg.scoreThreshold
    · rw [if_pos hscore, if_neg (not_lt.2 hscore)]
    · rw [if_neg hscore, if_pos (not_le.1 hscore)]

/-- The candidates are the rows whose score passes the threshold. -/
theorem candidates_eq (exp : K → K) (cfg : DetectorConfig K) (r : K) (frame : Frame) {dims : ℕ}
    (hdims : 6 ≤ dims) {out : ModelOutput K}
    (hunit : out.UnitScores (grid cfg.inputSize : List (GridCell K)).length dims) :
    candidates exp cfg r frame dims out =
      ((grid cfg.inputSize).zipIdx.filter fun row => cfg.scoreThreshold <
        out.row dims row.2 4 * (bestClass (out.row dims row.2) (dims - 5)).2).map
          fun row => decodeRow exp (dims - 5) r frame row.1 (out.row dims row.2) := by
  rw [candidates, ← List.filterMap_eq_map, List.filterMap_filter]
  refine List.filterMap_congr fun row hrow => ?_
  obtain ⟨⟨hobj, -⟩, hclass⟩ := hunit row.2 (List.snd_lt_of_mem_zipIdx hrow)
  obtain ⟨⟨c, hc, hbest⟩, -⟩ := bestClass_isGreatest (out.row dims row.2) (Nat.sub_pos_of_lt hdims)
  rw [candidate_eq exp cfg _ r frame row.1 hobj (hbest ▸ (hclass c hc).2)]
  simp

end Candidates

/-! ## The suppression -/

section Suppression

variable [Field K] [LinearOrder K]

theorem iou_comm (a b : Detection K) : iou a b = iou b a := by
  simp only [iou, max_comm a.x1, max_comm a.y1, min_comm a.x2, min_comm a.y2,
    add_comm (max 0 (a.x2 - a.x1) * max 0 (a.y2 - a.y1))]

/-- The area of a box. -/
def Detection.area (d : Detection K) : K :=
  max 0 (d.x2 - d.x1) * max 0 (d.y2 - d.y1)

/-- The point is in the box. -/
def Detection.Contains (d : Detection K) (x y : K) : Prop :=
  (d.x1 ≤ x ∧ x ≤ d.x2) ∧ (d.y1 ≤ y ∧ y ≤ d.y2)

/-- What the IoU of two boxes should be : the area of what they have in common, over the area of
what either covers, and 0 if that is nothing. -/
def IouOf (a b : Detection K) (v : K) : Prop :=
  ∃ common : Detection K, (∀ x y, common.Contains x y ↔ a.Contains x y ∧ b.Contains x y) ∧
    (0 < a.area + b.area - common.area → v = common.area / (a.area + b.area - common.area)) ∧
      (a.area + b.area - common.area ≤ 0 → v = 0)

theorem iouOf_iou (a b : Detection K) : IouOf a b (iou a b) := by
  refine ⟨{ a with
    x1 := max a.x1 b.x1, y1 := max a.y1 b.y1, x2 := min a.x2 b.x2, y2 := min a.y2 b.y2 },
    fun x y => ?_, fun huni => if_pos huni, fun huni => if_neg (not_lt.2 huni)⟩
  simp only [Detection.Contains, max_le_iff, le_min_iff]
  tauto

/-- Two boxes of which one suppresses the other. -/
def Overlaps (nmsIouThreshold : K) (a b : Detection K) : Prop :=
  nmsIouThreshold < iou a b

instance (thr : K) : DecidableRel (Overlaps thr) :=
  fun _ _ => inferInstanceAs (Decidable (_ < _))

instance (thr : K) : Std.Symm (Overlaps thr) :=
  ⟨fun a b h => by rwa [Overlaps, iou_comm b a]⟩

/-- The loop is the greedy scan. -/
theorem nms_eq_greedy (thr : K) (cands : List (Detection K)) :
    nms thr cands = greedy (Overlaps thr) cands := by
  have hbody : (fun kept cand => let suppressed := kept.any fun k => iou cand k > thr
      if !suppressed then kept ++ [cand] else kept) = keepNext (Overlaps thr) := by
    funext kept cand
    have hany : (kept.any fun k => iou cand k > thr) = true ↔ ∃ k ∈ kept, Overlaps thr cand k := by
      simp [Overlaps]
    rw [keepNext]
    by_cases hsup : ∃ k ∈ kept, Overlaps thr cand k
    · rw [if_pos hsup, hany.2 hsup]
      rfl
    · rw [if_neg hsup, Bool.eq_false_of_not_eq_true (mt hany.1 hsup)]
      rfl
  rw [nms, greedy, hbody]

theorem nms_sorted {thr : K} {cands : List (Detection K)}
    (h : cands.Pairwise fun a b => b.score ≤ a.score) :
    (nms thr cands).Pairwise fun a b => b.score ≤ a.score := by
  rw [nms_eq_greedy]
  exact h.sublist (greedy_sublist cands)

/-- What is left of the candidates in any order, sorted in any way, is a selection of them. -/
theorem selection_nms_sort (sort : ScoreSort K) (thr : K) {cands cands' : List (Detection K)}
    (h : cands'.Perm cands) :
    Selection (Overlaps thr) Detection.score cands (nms thr (sort.sort cands')) := by
  rw [nms_eq_greedy]
  exact (selection_greedy (sort.sorted cands')).of_perm ((sort.perm cands').trans h)

end Suppression

/-! ## The box that is reported -/

section Report

variable [Field K] [LinearOrder K]

/-- What is reported for a box : its score, and its sides as parts of those of the frame. -/
structure Reports (frame : Frame) (d : Detection K) (result : DetectResult K) : Prop where
  confidence : result.confidence = d.score
  xMin : result.xMin * frame.width.toNat = d.x1
  xMax : result.xMax * frame.width.toNat = d.x2
  yMin : result.yMin * frame.height.toNat = d.y1
  yMax : result.yMax * frame.height.toNat = d.y2

/-- The result is positive if a box is wanted, and then it is of a wanted box with the highest
score. -/
structure ReportsBest (cfg : DetectorConfig K) (frame : Frame) (kept : List (Detection K))
    (result : DetectResult K) : Prop where
  positive_iff : result.positive = true ↔ ∃ d ∈ kept, Wanted cfg d
  best : result.positive = true → ∃ d ∈ kept, Wanted cfg d ∧
    (∀ e ∈ kept, Wanted cfg e → e.score ≤ d.score) ∧ result = report frame d ∧
      Reports frame d result
  negative : result.positive = false → result = ⟨false, 0, 0, 0, 0, 0⟩

theorem reports_report [IsStrictOrderedRing K] {frame : Frame} (hwidth : frame.width ≠ 0)
    (hheight : frame.height ≠ 0) (d : Detection K) : Reports frame d (report frame d) := by
  have hnat : ∀ n : UInt32, n ≠ 0 → (n.toNat : K) ≠ 0 := fun n hn =>
    Nat.cast_ne_zero.2 fun h => hn (UInt32.toNat_inj.1 h)
  have hw := hnat _ hwidth
  have hh := hnat _ hheight
  exact ⟨rfl, div_mul_cancel₀ _ hw, div_mul_cancel₀ _ hw, div_mul_cancel₀ _ hh,
    div_mul_cancel₀ _ hh⟩

omit [Field K] in
/-- The first wanted box has the highest score of them. -/
theorem score_le_of_first {cfg : DetectorConfig K} {kept : List (Detection K)}
    (hsorted : kept.Pairwise fun a b => b.score ≤ a.score) {d : Detection K}
    (hd : kept.find? (Wanted cfg ·) = some d) {e : Detection K} (he : e ∈ kept)
    (hwanted : Wanted cfg e) : e.score ≤ d.score := by
  obtain ⟨-, before, after, rfl, hbefore⟩ := List.find?_eq_some_iff_append.1 hd
  rcases List.mem_append.1 he with he | he
  · simpa [hwanted] using hbefore e he
  · rcases List.mem_cons.1 he with rfl | he
    · exact le_rfl
    · exact (List.pairwise_cons.1 (List.pairwise_append.1 hsorted).2.1).1 e he

theorem exists_detect_reportsBest [IsStrictOrderedRing K] {sort : ScoreSort K} {exp : K → K}
    {cfg : DetectorConfig K} {frame : Frame} {out : ModelOutput K} {kept : List (Detection K)}
    (hwidth : frame.width ≠ 0) (hheight : frame.height ≠ 0)
    (h : detectAll sort exp cfg frame out = .ok kept)
    (hsorted : kept.Pairwise fun a b => b.score ≤ a.score) :
    ∃ result, detect sort exp cfg frame out = .ok result ∧ ReportsBest cfg frame kept result := by
  cases hfind : kept.find? (Wanted cfg ·) with
  | none =>
    refine ⟨⟨false, 0, 0, 0, 0, 0⟩, ?_, ?_, by simp, fun _ => rfl⟩
    · rw [detect, h]
      simp only [bind, Except.bind, hfind]
    · simpa using hfind
  | some d =>
    have hmem : d ∈ kept := List.mem_of_find?_eq_some hfind
    have hwanted : Wanted cfg d := by simpa using List.find?_some hfind
    refine ⟨report frame d, ?_, ⟨fun _ => ⟨d, hmem, hwanted⟩, fun _ => rfl⟩, fun _ => ?_,
      by simp [report]⟩
    · rw [detect, h]
      simp only [bind, Except.bind, hfind]
    · exact ⟨d, hmem, hwanted, fun e he hw => score_le_of_first hsorted hfind he hw, rfl,
        reports_report hwidth hheight d⟩

end Report

/-! ## Post-processing -/

section PostProcessing

variable [Field K] [LinearOrder K]

/-- `kept` is what post-processing should return for rows of `dims` numbers : of the boxes of the
rows whose objectness times best class score passes the threshold, the selection of those that do
not overlap too much, by descending score. With distinct scores there is no other selection, and
neither the order of the candidates nor the sort makes a difference. -/
structure SelectsBoxes (exp : K → K) (cfg : DetectorConfig K) (frame : Frame) (dims : ℕ)
    (out : ModelOutput K) (cands kept : List (Detection K)) : Prop where
  candidates_rows : ∃ best : ℕ → K,
    (∀ i, IsGreatest {x | ∃ c < dims - 5, out.row dims i (5 + c) = x} (best i)) ∧
    cands = ((grid cfg.inputSize).zipIdx.filter fun row =>
      cfg.scoreThreshold < out.row dims row.2 4 * best row.2).map fun row =>
        decodeRow exp (dims - 5) (scale cfg frame) frame row.1 (out.row dims row.2)
  candidates_boxes : ∃ best : ℕ → K,
    (∀ i, IsGreatest {x | ∃ c < dims - 5, out.row dims i (5 + c) = x} (best i)) ∧
    List.Forall₂ (fun row d =>
      BoxOfRow exp (dims - 5) (scale cfg frame) frame row.1 (out.row dims row.2) d)
        ((grid cfg.inputSize).zipIdx.filter fun row =>
          cfg.scoreThreshold < out.row dims row.2 4 * best row.2) cands
  overlap : ∀ a b : Detection K, ∃ v, IouOf a b v ∧
    (Overlaps cfg.nmsIouThreshold a b ↔ cfg.nmsIouThreshold < v)
  sorted : kept.Pairwise fun a b => b.score ≤ a.score
  selection : Selection (Overlaps cfg.nmsIouThreshold) Detection.score cands kept
  unique : (cands.map Detection.score).Nodup →
    ∀ ks, Selection (Overlaps cfg.nmsIouThreshold) Detection.score cands ks → ks.Perm kept
  order_irrelevant : (cands.map Detection.score).Nodup → ∀ cands', cands'.Perm cands →
    ∀ sort : ScoreSort K, nms cfg.nmsIouThreshold (sort.sort cands') = kept

theorem detectAll_eq (sort : ScoreSort K) (exp : K → K) (cfg : DetectorConfig K) {frame : Frame}
    {out : ModelOutput K} {batch dims : ℕ} (hformat : frame.format = .bgr24)
    (hwidth : frame.width ≠ 0) (hheight : frame.height ≠ 0)
    (hshape : out.shape = [batch, (grid cfg.inputSize : List (GridCell K)).length, dims])
    (hdims : 6 ≤ dims) :
    detectAll sort exp cfg frame out = .ok (nms cfg.nmsIouThreshold
      (sort.sort (candidates exp cfg (scale cfg frame) frame dims out))) := by
  have hpre : preprocess cfg frame = .ok (scale cfg frame) :=
    if_neg (by simp [hformat, hwidth, hheight])
  rw [detectAll, hpre, hshape]
  exact if_neg (by simp [hdims])

variable [IsStrictOrderedRing K]

theorem selectsBoxes (sort : ScoreSort K) (exp : K → K) (cfg : DetectorConfig K) (frame : Frame)
    {out : ModelOutput K} {dims : ℕ} (hdims : 6 ≤ dims)
    (hunit : out.UnitScores (grid cfg.inputSize : List (GridCell K)).length dims) :
    SelectsBoxes exp cfg frame dims out (candidates exp cfg (scale cfg frame) frame dims out)
      (nms cfg.nmsIouThreshold
        (sort.sort (candidates exp cfg (scale cfg frame) frame dims out))) where
  candidates_rows := ⟨fun i => (bestClass (out.row dims i) (dims - 5)).2,
    fun _ => bestClass_isGreatest _ (Nat.sub_pos_of_lt hdims),
    candidates_eq exp cfg _ frame hdims hunit⟩
  candidates_boxes := by
    refine ⟨fun i => (bestClass (out.row dims i) (dims - 5)).2,
      fun _ => bestClass_isGreatest _ (Nat.sub_pos_of_lt hdims), ?_⟩
    rw [candidates_eq exp cfg _ frame hdims hunit, List.forall₂_map_right_iff]
    exact List.forall₂_same.2 fun row _ =>
      boxOfRow_decodeRow exp (Nat.sub_pos_of_lt hdims) _ frame row.1 _
  overlap a b := ⟨_, iouOf_iou a b, Iff.rfl⟩
  sorted := nms_sorted (sort.sorted _)
  selection := selection_nms_sort sort _ (.refl _)
  unique hnodup _ hks := hks.perm hnodup (selection_nms_sort sort _ (.refl _))
  order_irrelevant hnodup _ hperm sort' :=
    (selection_nms_sort sort' _ hperm).eq_of_sorted hnodup (selection_nms_sort sort _ (.refl _))
      (nms_sorted (sort'.sorted _)) (nms_sorted (sort.sorted _))

/-- For every frame that is accepted and every output of the shape that is expected, `DetectAll`
returns the boxes it should, and `Detect` reports the best of the wanted ones. -/
theorem post_processing_selects (sort : ScoreSort K) (exp : K → K) (cfg : DetectorConfig K)
    (frame : Frame) (out : ModelOutput K) (batch dims : ℕ) (hformat : frame.format = .bgr24)
    (hwidth : frame.width ≠ 0) (hheight : frame.height ≠ 0)
    (hshape : out.shape = [batch, (grid cfg.inputSize : List (GridCell K)).length, dims])
    (hdims : 6 ≤ dims)
    (hunit : out.UnitScores (grid cfg.inputSize : List (GridCell K)).length dims) :
    ∃ kept, detectAll sort exp cfg frame out = .ok kept ∧
      SelectsBoxes exp cfg frame dims out
        (candidates exp cfg (scale cfg frame) frame dims out) kept ∧
      ∃ result, detect sort exp cfg frame out = .ok result ∧
        ReportsBest cfg frame kept result := by
  have hall := detectAll_eq sort exp cfg hformat hwidth hheight hshape hdims
  have hselects := selectsBoxes sort exp cfg frame hdims hunit
  exact ⟨_, hall, hselects, exists_detect_reportsBest hwidth hheight hall hselects.sorted⟩

/-- Two boxes with most of their area in common, of which the second row's is the likelier, and
three rows of the background. -/
def overlappingRows : ModelOutput ℚ where
  shape := [1, 5, 6]
  data := fun i => [1 / 2, 1 / 2, 0, 0, 3 / 4, 1, -1 / 4, 1 / 2, 0, 0, 1, 1].getD i 0

/-- A model of 16 by 16, thresholds of a half, and one class. -/
def halfConfig : DetectorConfig ℚ := ⟨16, 1 / 2, 1 / 2, [0]⟩

/-- A frame of the model's size. -/
def squareFrame : Frame := { width := 16, height := 16, format := .bgr24 }

theorem post_processing_selects_overlappingRows :
    ∃ kept, detectAll .merge (fun _ => 1) halfConfig squareFrame overlappingRows = .ok kept ∧
      SelectsBoxes (fun _ => 1) halfConfig squareFrame 6 overlappingRows
        (candidates (fun _ => 1) halfConfig (scale halfConfig squareFrame) squareFrame 6
          overlappingRows) kept ∧
      ∃ result, detect .merge (fun _ => 1) halfConfig squareFrame overlappingRows = .ok result ∧
        ReportsBest halfConfig squareFrame kept result :=
  post_processing_selects .merge (fun _ => 1) halfConfig squareFrame overlappingRows 1 6 rfl
    (by decide) (by decide) rfl (by decide) (by unfold ModelOutput.UnitScores; decide +kernel)

end PostProcessing

end Ridgeline
