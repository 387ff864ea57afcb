import Mathlib.Data.Nat.Count
import Mathlib.Data.List.DropRight

/-!
# A window over periodic bursts

Of the numbers `0, 1, 2, …` those are hits whose remainder by `p` is below `b` : a burst of `b`
hits at the start of every period. `hits b p m` counts the hits below `m`, and `windowHits` those
among the last `n` numbers below `m`. For a window that is no longer than a period, the moments at
which the count reaches a threshold `k` from below are known exactly (`rises_iff`). There are none
if a burst has fewer than `k` hits. Otherwise there is one, at the `k`-th hit, in every burst if
the window gets below `k` between two bursts, and in the first burst only if it does not.
-/

namespace Ridgeline

/-- The hits below `m`. -/
def hits (b p m : ℕ) : ℕ :=
  Nat.count (fun i => i % p < b) m

/-- The hits among the last `n` numbers below `m`. -/
def windowHits (b p n m : ℕ) : ℕ :=
  hits b p m - hits b p (m - n)

variable {b p n m k : ℕ}

theorem hits_of_le : ∀ {r : ℕ}, r ≤ p → hits b p r = min r b
  | 0, _ => by simp [hits]
  | r + 1, hr => by
    have ih : hits b p r = min r b := hits_of_le (by omega)
    have hmod : r % p = r := Nat.mod_eq_of_lt hr
    rw [hits, Nat.count_succ, hmod, ← hits, ih]
    split_ifs <;> omega

theorem hits_add (b p m : ℕ) : hits b p (p + m) = min p b + hits b p m := by
  rw [hits, Nat.count_add, ← hits, hits_of_le le_rfl]
  simp only [Nat.add_mod_left, hits]

theorem hits_mul_add (b p q r : ℕ) : hits b p (q * p + r) = q * min p b + hits b p r := by
  induction q with
  | zero => simp
  | succ q ih =>
    rw [Nat.succ_mul, Nat.succ_mul, show q * p + p + r = p + (q * p + r) by omega, hits_add, ih]
    omega

theorem count_range (b p : ℕ) : ∀ m : ℕ,
    ((List.range m).map fun i => decide (i % p < b)).count true = hits b p m
  | 0 => by simp [hits]
  | m + 1 => by
    rw [List.range_succ, List.map_append, List.count_append, count_range b p m, hits, hits,
      Nat.count_succ]
    by_cases h : m % p < b <;> simp [h]

/-- The window of a list that says of each number below `m` whether it is a hit. -/
theorem count_rtake_range (b p n m : ℕ) :
    (((List.range m).map fun i => decide (i % p < b)).rtake n).count true =
      windowHits b p n m := by
  have hsplit := List.take_append_drop (m - n) ((List.range m).map fun i => decide (i % p < b))
  have htake : ((List.range m).map fun i => decide (i % p < b)).take (m - n) =
      (List.range (m - n)).map fun i => decide (i % p < b) := by
    rw [← List.map_take, List.take_range, min_eq_left (Nat.sub_le m n)]
  have hcount := congrArg (List.count true) hsplit
  rw [List.count_append, htake, count_range, count_range] at hcount
  rw [List.rtake, List.length_map, List.length_range, windowHits]
  omega

/-- The count in the first `n` numbers. -/
theorem windowHits_start (hnp : n ≤ p) (hm : m ≤ n) : windowHits b p n m = min m b := by
  rw [windowHits, Nat.sub_eq_zero_of_le hm, hits_of_le (hm.trans hnp), hits_of_le (Nat.zero_le p)]
  omega

/-- The count when the window lies in one period. -/
theorem windowHits_within (q : ℕ) {r : ℕ} (hr : r ≤ p) (hn : n ≤ r) :
    windowHits b p n (q * p + r) = min r b - min (r - n) b := by
  rw [windowHits, Nat.add_sub_assoc hn, hits_mul_add, hits_mul_add, hits_of_le hr,
    hits_of_le (by omega)]
  omega

/-- The count when the window began in the period before. -/
theorem windowHits_across (q : ℕ) {r : ℕ} (hnp : n ≤ p) (hr : r ≤ n) :
    windowHits b p n ((q + 1) * p + r) = min p b + min r b - min (p + r - n) b := by
  have hstart : (q + 1) * p + r - n = q * p + (p + r - n) := by
    rw [Nat.succ_mul]
    omega
  rw [windowHits, hstart, hits_mul_add, hits_mul_add, hits_of_le (by omega), hits_of_le (by omega),
    Nat.succ_mul]
  omega

/-- The window after `q` periods and `r` more numbers, `n` numbers being in at most one of the
three cases. -/
theorem windowHits_eq (q : ℕ) {r : ℕ} (hnp : n ≤ p) (hr : r ≤ p) :
    windowHits b p n (q * p + r) =
      if n ≤ r then min r b - min (r - n) b
      else if q = 0 then min r b
      else min p b + min r b - min (p + r - n) b := by
  split_ifs with hn hq
  · exact windowHits_within q hr hn
  · subst hq
    rw [Nat.zero_mul, Nat.zero_add]
    exact windowHits_start hnp (by omega)
  · obtain ⟨q, rfl⟩ := Nat.exists_eq_succ_of_ne_zero hq
    exact windowHits_across q hnp (by omega)

/-- The moments at which a window that is no longer than a period reaches the threshold. -/
theorem rises_iff (hk : 1 ≤ k) (hkn : k ≤ n) (hnp : n ≤ p) (i : ℕ) :
    windowHits b p n i < k ∧ k ≤ windowHits b p n (i + 1) ↔
      k ≤ b ∧ if n < p - b + k then i % p = k - 1 else i = k - 1 := by
  obtain ⟨q, r, hr, rfl⟩ : ∃ q r, r < p ∧ i = q * p + r :=
    ⟨i / p, i % p, Nat.mod_lt i (by omega), by rw [Nat.div_add_mod' i p]⟩
  have hmod : (q * p + r) % p = r := by
    rw [Nat.add_comm, Nat.add_mul_mod_self_right, Nat.mod_eq_of_lt hr]
  have hfirst : q * p + r = k - 1 ↔ q = 0 ∧ r = k - 1 := by
    rcases Nat.eq_zero_or_pos q with rfl | hq
    · simp
    · have := Nat.le_mul_of_pos_left p hq
      omega
  rw [hmod, hfirst, Nat.add_assoc, windowHits_eq q hnp hr.le, windowHits_eq q hnp hr]
  -- Only a hit can make the count rise, so the cases are those of `r` and the burst.
  rcases Nat.lt_or_ge r b with hrb | hrb
  · rw [min_eq_left hrb.le, min_eq_left (Nat.succ_le_of_lt hrb)]
    split_ifs <;> omega
  · rw [min_eq_right hrb, min_eq_right (hrb.trans (Nat.le_succ r))]
    split_ifs <;> omega

end Ridgeline
