import Mathlib.Algebra.Order.Floor.Semiring
import Mathlib.Data.Rat.Floor
import Ridgeline.OrderStatistic

/-!
# The percentiles the tools print

`LatencyStats` keeps durations and reports percentiles of them. The fraction and the result are
exact, in place of `double`; the durations are integers, and `std::sort` of integers has one result.

The nearest-rank percentile of `n` samples for `p` is the least sample that at least `p * n` samples
do not exceed. `PercentileMs` reads the sorted samples at `p * n` rounded down, which below `p = 1`
is the least sample that more than `p * n` samples do not exceed (`percentileMs_of_lt`). The two are
the same unless exactly `p * n` samples are at most some sample (`percentile_nearest_iff`) : then
the next greater sample is reported, as in every line for a hundred different samples
(`print_misses`). What is reported is never too small (`nearest_le_percentileMs`), grows with `p`
(`percentileMs_mono`), and does not depend on the order of the calls to `Add`
(`percentileMs_foldl_add`).
-/

namespace Ridgeline

open OrderStatistic

/-- `LatencyStats` : the durations so far, in nanoseconds. -/
structure LatencyStats where
  samplesNs : List ℤ := []
  deriving DecidableEq, Repr

/-- What `Print` writes : the label, the count and four percentiles. -/
structure LatencyReport where
  label : String
  n : ℕ
  p50 : ℚ
  p95 : ℚ
  p99 : ℚ
  max : ℚ
  deriving DecidableEq, Repr

namespace LatencyStats

/-! ## The code -/

/-- `Add`. -/
def add (s : LatencyStats) (ns : ℤ) : LatencyStats :=
  { s with samplesNs := s.samplesNs ++ [ns] }

/-- `Count`. -/
def count (s : LatencyStats) : ℕ :=
  s.samplesNs.length

/-- A duration in milliseconds. -/
def toMs (ns : ℤ) : ℚ :=
  ns / 1000000

/-- `PercentileMs`. -/
def percentileMs (s : LatencyStats) (p : ℚ) : ℚ :=
  if s.samplesNs = [] then 0
  else
    let sorted := s.samplesNs.insertionSort (· ≤ ·)
    let idx := min (sorted.length - 1) ⌊p * sorted.length⌋₊
    toMs (sorted.getD idx 0)

/-- `Print`. -/
def print (s : LatencyStats) (label : String) : LatencyReport where
  label := label
  n := s.count
  p50 := s.percentileMs (50 / 100)
  p95 := s.percentileMs (95 / 100)
  p99 := s.percentileMs (99 / 100)
  max := s.percentileMs 1

/-! ## The specification -/

/-- The nearest-rank percentile : the least sample that at least `p * n` samples do not exceed. -/
def NearestRank (samples : List ℤ) (p : ℚ) (v : ℤ) : Prop :=
  IsLeast {v | v ∈ samples ∧ p * samples.length ≤ (rank samples v : ℚ)} v

/-! ## What is reported -/

variable {s t : LatencyStats} {p q : ℚ}

theorem toMs_le_toMs {a b : ℤ} : toMs a ≤ toMs b ↔ a ≤ b := by
  unfold toMs
  rw [div_le_div_iff_of_pos_right (by norm_num)]
  exact Int.cast_le

theorem toMs_injective : Function.Injective toMs := fun _ _ h =>
  le_antisymm (toMs_le_toMs.1 h.le) (toMs_le_toMs.1 h.ge)

/-- The index `PercentileMs` reads. -/
def percentileIndex (n : ℕ) (p : ℚ) : ℕ :=
  min (n - 1) ⌊p * n⌋₊

/-- A sample is reported, the least whose rank is above the index. -/
theorem percentileMs_eq (hs : s.samplesNs ≠ []) (p : ℚ) : ∃ v,
    IsLeast {v | v ∈ s.samplesNs ∧ percentileIndex s.samplesNs.length p < rank s.samplesNs v} v ∧
      s.percentileMs p = toMs v := by
  have hperm := s.samplesNs.perm_insertionSort (· ≤ ·)
  have hlength : (s.samplesNs.insertionSort (· ≤ ·)).length = s.samplesNs.length := hperm.length_eq
  have hpos : 0 < s.samplesNs.length := List.length_pos_iff.2 hs
  have hidx : percentileIndex s.samplesNs.length p < (s.samplesNs.insertionSort (· ≤ ·)).length :=
    (min_le_left _ _).trans_lt (by omega)
  have hread := List.getElem?_eq_getElem hidx
  refine ⟨_, isLeast_of_sorted hperm (List.pairwise_insertionSort _ _) hread, ?_⟩
  simp only [percentileMs, if_neg hs, hlength]
  rw [List.getD_eq_getElem?_getD, ← percentileIndex, hread]
  rfl

theorem percentileIndex_of_lt {n : ℕ} (hn : 0 < n) (hp : 0 ≤ p) (hp1 : p < 1) :
    percentileIndex n p = ⌊p * n⌋₊ := by
  have hn' : (0 : ℚ) < n := Nat.cast_pos.2 hn
  have hlt : ⌊p * n⌋₊ < n := (Nat.floor_lt (by positivity)).2 (mul_lt_of_lt_one_left hn' hp1)
  exact min_eq_right (by omega)

theorem percentileIndex_of_one_le {n : ℕ} (hp : 1 ≤ p) : percentileIndex n p = n - 1 := by
  have hle : n ≤ ⌊p * n⌋₊ := Nat.le_floor (le_mul_of_one_le_left n.cast_nonneg hp)
  exact min_eq_left (by omega)

/-- Below one, the least sample that more than `p * n` samples do not exceed is reported. -/
theorem percentileMs_of_lt (hs : s.samplesNs ≠ []) (hp : 0 ≤ p) (hp1 : p < 1) : ∃ v,
    IsLeast {v | v ∈ s.samplesNs ∧ p * s.samplesNs.length < (rank s.samplesNs v : ℚ)} v ∧
      s.percentileMs p = toMs v := by
  obtain ⟨v, hv, heq⟩ := percentileMs_eq hs p
  refine ⟨v, ?_, heq⟩
  rw [percentileIndex_of_lt (List.length_pos_iff.2 hs) hp hp1] at hv
  have hnonneg : 0 ≤ p * s.samplesNs.length := mul_nonneg hp (Nat.cast_nonneg _)
  simpa only [Nat.floor_lt hnonneg] using hv

/-- From one on, the nearest-rank percentile for one is reported. -/
theorem percentileMs_of_one_le (hs : s.samplesNs ≠ []) (hp : 1 ≤ p) : ∃ v,
    NearestRank s.samplesNs 1 v ∧ s.percentileMs p = toMs v := by
  obtain ⟨v, hv, heq⟩ := percentileMs_eq hs p
  refine ⟨v, ?_, heq⟩
  have hpos : 0 < s.samplesNs.length := List.length_pos_iff.2 hs
  have hrank : ∀ w, s.samplesNs.length - 1 < rank s.samplesNs w ↔
      1 * (s.samplesNs.length : ℚ) ≤ (rank s.samplesNs w : ℚ) := fun w => by
    rw [one_mul, Nat.cast_le]
    omega
  rw [percentileIndex_of_one_le hp] at hv
  simpa only [NearestRank, hrank] using hv

/-! ## Nearest rank -/

theorem cast_rank_mono {α : Type*} [LinearOrder α] (xs : List α) :
    Monotone fun v => (rank xs v : ℚ) :=
  Nat.mono_cast.comp (rank_mono xs)

/-- Below one, the nearest-rank percentile is missed if and only if a sample has exactly `p * n`
samples at most it. -/
theorem nearest_reported_iff (hs : s.samplesNs ≠ []) (hp : 0 ≤ p) (hp1 : p < 1) :
    (∃ v, NearestRank s.samplesNs p v ∧ s.percentileMs p = toMs v) ↔
      ∀ v ∈ s.samplesNs, (rank s.samplesNs v : ℚ) ≠ p * s.samplesNs.length := by
  obtain ⟨v, hv, heq⟩ := percentileMs_of_lt hs hp hp1
  have hreach := isLeast_le_iff (cast_rank_mono s.samplesNs) hv
  constructor
  · rintro ⟨w, hw, hreport⟩
    obtain rfl : v = w := toMs_injective (heq.symm.trans hreport)
    exact hreach.1 hw
  · intro hmeet
    exact ⟨v, hreach.2 hmeet, heq⟩

/-- For `p` up to one, the nearest-rank percentile is reported if and only if `p` is one or no
sample has exactly `p * n` samples at most it. -/
theorem percentile_nearest_iff (s : LatencyStats) (p : ℚ) (hs : s.samplesNs ≠ []) (hp : 0 < p)
    (hp1 : p ≤ 1) : (∃ v, NearestRank s.samplesNs p v ∧ s.percentileMs p = toMs v) ↔
      p = 1 ∨ ∀ v ∈ s.samplesNs, (rank s.samplesNs v : ℚ) ≠ p * s.samplesNs.length := by
  rcases hp1.eq_or_lt with rfl | hlt
  · exact iff_of_true (percentileMs_of_one_le hs le_rfl) (Or.inl rfl)
  · rw [nearest_reported_iff hs hp.le hlt, or_iff_right hlt.ne]

/-- A third of two samples : the first is reported. -/
theorem percentile_nearest_iff_third :
    ∃ v, NearestRank [1000000, 2000000] (1 / 3) v ∧
      percentileMs ⟨[1000000, 2000000]⟩ (1 / 3) = toMs v :=
  (percentile_nearest_iff ⟨[1000000, 2000000]⟩ (1 / 3) (by decide) (by norm_num) (by norm_num)).2
    (Or.inr (by decide +kernel))

/-- The median of 1 ms and 2 ms is 1 ms, and 2 ms is reported. -/
theorem median_of_two : NearestRank [1000000, 2000000] (1 / 2) 1000000 ∧
    percentileMs ⟨[1000000, 2000000]⟩ (1 / 2) = toMs 2000000 ∧
      ¬ ∃ v, NearestRank [1000000, 2000000] (1 / 2) v ∧
        percentileMs ⟨[1000000, 2000000]⟩ (1 / 2) = toMs v := by
  have hnearest : NearestRank [1000000, 2000000] (1 / 2) 1000000 := by
    refine ⟨by decide +kernel, ?_⟩
    rintro v ⟨hv, _⟩
    simp only [List.mem_cons, List.not_mem_nil, or_false] at hv
    omega
  have hreport : percentileMs ⟨[1000000, 2000000]⟩ (1 / 2) = toMs 2000000 := by decide +kernel
  refine ⟨hnearest, hreport, ?_⟩
  rintro ⟨v, hv, heq⟩
  have hv' : v = 1000000 := hv.unique hnearest
  rw [hreport, hv'] at heq
  exact absurd (toMs_injective heq) (by decide)

/-- Of different samples, every percentile for which `p * n` is an integer below `n` is missed. -/
theorem nearest_missed (hs : s.samplesNs.Nodup) {k : ℕ} (hk : 0 < k) (hkn : k < s.samplesNs.length)
    (hp : p * s.samplesNs.length = k) :
    ¬ ∃ v, NearestRank s.samplesNs p v ∧ s.percentileMs p = toMs v := by
  have hn : (0 : ℚ) < s.samplesNs.length := Nat.cast_pos.2 (hk.trans hkn)
  have hp0 : 0 ≤ p := nonneg_of_mul_nonneg_left (hp ▸ Nat.cast_nonneg k) hn
  have hp1 : p < 1 := by
    rw [← mul_lt_iff_lt_one_left hn, hp]
    exact Nat.cast_lt.2 hkn
  rw [nearest_reported_iff (List.length_pos_iff.1 (hk.trans hkn)) hp0 hp1]
  obtain ⟨v, hv, hrank⟩ := exists_rank_eq hs ((Nat.sub_le k 1).trans_lt hkn)
  rw [Nat.sub_add_cancel hk] at hrank
  exact fun hmeet => hmeet v hv (by rw [hrank, hp])

/-- For a multiple of a hundred of different samples, all of them but the maximum are missed. -/
theorem print_misses (hs : s.samplesNs.Nodup) {m : ℕ} (hm : s.count = 100 * (m + 1))
    (label : String) : (∀ v, NearestRank s.samplesNs (50 / 100) v → (s.print label).p50 ≠ toMs v) ∧
      (∀ v, NearestRank s.samplesNs (95 / 100) v → (s.print label).p95 ≠ toMs v) ∧
      (∀ v, NearestRank s.samplesNs (99 / 100) v → (s.print label).p99 ≠ toMs v) := by
  have hn : (s.samplesNs.length : ℚ) = 100 * (m + 1) := by
    rw [← count, hm]
    push_cast
    ring
  have hmissed : ∀ j, 0 < j → j < 100 → ∀ v, NearestRank s.samplesNs ((j : ℕ) / 100) v →
      s.percentileMs ((j : ℕ) / 100) ≠ toMs v := fun j hj hj' v hv heq => by
    refine nearest_missed hs (k := j * (m + 1)) (Nat.mul_pos hj m.succ_pos) ?_ ?_ ⟨v, hv, heq⟩
    · rw [← count, hm]
      exact Nat.mul_lt_mul_of_pos_right hj' m.succ_pos
    · rw [hn]
      push_cast
      ring
  exact ⟨hmissed 50 (by decide) (by decide), hmissed 95 (by decide) (by decide),
    hmissed 99 (by decide) (by decide)⟩

/-- What is reported is not below the nearest-rank percentile. -/
theorem nearest_le_percentileMs (hs : s.samplesNs ≠ []) (hp : 0 < p) (hp1 : p ≤ 1) {v : ℤ}
    (hv : NearestRank s.samplesNs p v) : toMs v ≤ s.percentileMs p := by
  rcases hp1.eq_or_lt with rfl | hlt
  · obtain ⟨w, hw, heq⟩ := percentileMs_of_one_le hs le_rfl
    rw [heq, toMs_le_toMs]
    exact (hv.unique hw).le
  · obtain ⟨w, hw, heq⟩ := percentileMs_of_lt hs hp.le hlt
    rw [heq, toMs_le_toMs]
    exact le_of_isLeast hv hw

/-! ## Order -/

/-- The order in which the samples were added does not matter. -/
theorem percentileMs_perm (h : s.samplesNs.Perm t.samplesNs) (p : ℚ) :
    s.percentileMs p = t.percentileMs p := by
  have hsort : s.samplesNs.insertionSort (· ≤ ·) = t.samplesNs.insertionSort (· ≤ ·) :=
    have hperm := ((List.perm_insertionSort (· ≤ ·) _).trans h).trans
      (List.perm_insertionSort (· ≤ ·) _).symm
    hperm.eq_of_pairwise' (List.pairwise_insertionSort _ _) (List.pairwise_insertionSort _ _)
  have hempty : s.samplesNs = [] ↔ t.samplesNs = [] := by
    rw [← List.length_eq_zero_iff, h.length_eq, List.length_eq_zero_iff]
  simp only [percentileMs, hsort, hempty]

@[simp] theorem samplesNs_foldl_add (xs : List ℤ) (s : LatencyStats) :
    (xs.foldl add s).samplesNs = s.samplesNs ++ xs := by
  induction xs generalizing s with
  | nil => simp
  | cons x xs ih => simp [ih, add]

theorem percentileMs_foldl_add {xs ys : List ℤ} (h : xs.Perm ys) (s : LatencyStats) (p : ℚ) :
    (xs.foldl add s).percentileMs p = (ys.foldl add s).percentileMs p := by
  refine percentileMs_perm ?_ p
  rw [samplesNs_foldl_add, samplesNs_foldl_add]
  exact h.append_left _

theorem percentileMs_mono (s : LatencyStats) : Monotone s.percentileMs := by
  intro p q hpq
  by_cases hs : s.samplesNs = []
  · simp [percentileMs, hs]
  obtain ⟨v, hv, hp⟩ := percentileMs_eq hs p
  obtain ⟨w, hw, hq⟩ := percentileMs_eq hs q
  have hidx : percentileIndex s.samplesNs.length p ≤ percentileIndex s.samplesNs.length q :=
    min_le_min_left _ (Nat.floor_mono (mul_le_mul_of_nonneg_right hpq (Nat.cast_nonneg _)))
  rw [hp, hq, toMs_le_toMs]
  exact hv.2 ⟨hw.1.1, hidx.trans_lt hw.1.2⟩

/-- The figures of a line are in order, and no sample is above the last. -/
theorem print_sorted (s : LatencyStats) (label : String) :
    (s.print label).p50 ≤ (s.print label).p95 ∧ (s.print label).p95 ≤ (s.print label).p99 ∧
      (s.print label).p99 ≤ (s.print label).max ∧
        ∀ ns ∈ s.samplesNs, toMs ns ≤ (s.print label).max := by
  refine ⟨s.percentileMs_mono (by norm_num), s.percentileMs_mono (by norm_num),
    s.percentileMs_mono (by norm_num), fun ns hns => ?_⟩
  obtain ⟨v, hv, heq⟩ := percentileMs_of_one_le (List.ne_nil_of_mem hns) (le_refl (1 : ℚ))
  have hall : rank s.samplesNs v = s.samplesNs.length := by
    have hle := hv.1.2
    rw [one_mul, Nat.cast_le] at hle
    exact le_antisymm (rank_le_length _ _) hle
  have hns' : ns ≤ v := by simpa using List.countP_eq_length.1 hall ns hns
  show toMs ns ≤ s.percentileMs 1
  rw [heq, toMs_le_toMs]
  exact hns'

end LatencyStats

end Ridgeline
