import Mathlib.Data.Finset.Card
import Mathlib.Order.Interval.Finset.Nat

/-!
# The numbers missing from a list

`missing l a m` is the number of `n` with `a < n ≤ m` that are not in `l`. If no number is
twice in `l`, it is what the numbers of `l` in this range leave of it (`missing_add_countP`),
and two ranges that meet are counted together (`missing_add_missing`).
-/

namespace Ridgeline

/-- How many of the numbers above `a` and up to `m` are not in `l`. -/
def missing (l : List ℕ) (a m : ℕ) : ℕ :=
  ((Finset.Ioc a m).filter (· ∉ l)).card

theorem missing_add_countP {l : List ℕ} (hl : l.Nodup) (a m : ℕ) :
    missing l a m + l.countP (fun n => a < n ∧ n ≤ m) = m - a := by
  have hpresent : l.countP (fun n => a < n ∧ n ≤ m) = ((Finset.Ioc a m).filter (· ∈ l)).card := by
    have hset : (Finset.Ioc a m).filter (· ∈ l) =
        (l.filter fun n => a < n ∧ n ≤ m).toFinset := by
      ext n
      simp [and_comm]
    rw [hset, List.toFinset_card_of_nodup (hl.filter _), List.countP_eq_length_filter]
  have hsplit := Finset.card_filter_add_card_filter_not (s := Finset.Ioc a m) (p := (· ∈ l))
  rw [Nat.card_Ioc] at hsplit
  rw [missing, hpresent, ← hsplit, add_comm]

theorem missing_add_missing (l : List ℕ) {a c m : ℕ} (hac : a ≤ c) (hcm : c ≤ m) :
    missing l a c + missing l c m = missing l a m := by
  have hdisj : Disjoint ((Finset.Ioc a c).filter (· ∉ l)) ((Finset.Ioc c m).filter (· ∉ l)) :=
    Finset.disjoint_filter_filter (Finset.Ioc_disjoint_Ioc_of_le le_rfl)
  rw [missing, missing, missing, ← Finset.card_union_of_disjoint hdisj, ← Finset.filter_union,
    Finset.Ioc_union_Ioc_eq_Ioc hac hcm]

end Ridgeline
