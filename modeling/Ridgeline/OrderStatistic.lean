import Mathlib.Data.List.Sort
import Mathlib.Order.Bounds.Basic

/-!
# Order statistics

The rank of a value in a list is how many entries are at most it. In a sorted list the entry `i`
is at most `v` if and only if the rank of `v` is above `i` (`lt_rank_iff`), so sorting a list finds
the least entry whose rank is above `i` (`isLeast_of_sorted`).

A threshold can be reached or passed. The least entry that passes it is the least that reaches it
if and only if no entry meets it exactly (`isLeast_le_iff`). A list of different entries has one of
each rank (`exists_rank_eq`).
-/

namespace Ridgeline

namespace OrderStatistic

/-! ## Reaching and passing a threshold -/

section Threshold

variable {α β : Type*} [LinearOrder α] [LinearOrder β] {f : α → β} {s : Set α} {t : β} {a : α}

/-- The least member to pass `t` is the least to reach it unless a member meets it exactly. -/
theorem isLeast_le_iff (hf : Monotone f) (ha : IsLeast {v | v ∈ s ∧ t < f v} a) :
    IsLeast {v | v ∈ s ∧ t ≤ f v} a ↔ ∀ v ∈ s, f v ≠ t := by
  constructor
  · intro hreach v hv hmeet
    have hle : a ≤ v := hreach.2 ⟨hv, hmeet.ge⟩
    have hpass : t < f a := ha.1.2
    exact absurd (hf hle) (not_le.2 (hmeet ▸ hpass))
  · intro hmeet
    refine ⟨⟨ha.1.1, ha.1.2.le⟩, fun v hv => ha.2 ⟨hv.1, ?_⟩⟩
    exact lt_of_le_of_ne hv.2 (hmeet v hv.1).symm

/-- The least member to reach `t` is not above the least to pass it. -/
theorem le_of_isLeast {b : α} (hb : IsLeast {v | v ∈ s ∧ t ≤ f v} b)
    (ha : IsLeast {v | v ∈ s ∧ t < f v} a) : b ≤ a :=
  hb.2 ⟨ha.1.1, ha.1.2.le⟩

end Threshold

/-! ## Ranks -/

variable {α : Type*} [LinearOrder α] {xs ys : List α}

/-- How many entries are at most `v`. -/
def rank (xs : List α) (v : α) : ℕ :=
  xs.countP (· ≤ v)

theorem rank_mono (xs : List α) : Monotone (rank xs) := by
  intro v w hvw
  refine List.countP_mono_left fun x _ hx => ?_
  exact decide_eq_true ((of_decide_eq_true hx).trans hvw)

theorem rank_le_length (xs : List α) (v : α) : rank xs v ≤ xs.length :=
  List.countP_le_length

theorem rank_perm (h : xs.Perm ys) : rank xs = rank ys :=
  funext fun _ => h.countP_eq _

theorem lt_rank_iff (hxs : xs.Pairwise (· ≤ ·)) {i : ℕ} {x : α} (hx : xs[i]? = some x) (v : α) :
    i < rank xs v ↔ x ≤ v := by
  obtain ⟨hi, rfl⟩ := List.getElem?_eq_some_iff.1 hx
  have hmono : Monotone xs.get := hxs.sortedLE.monotone_get
  have hsplit : rank xs v = rank (xs.take i) v + rank (xs.drop i) v := by
    rw [rank, rank, rank, ← List.countP_append, List.take_append_drop]
  constructor
  · intro hlt
    by_contra hv
    -- from the entry `i` on, all entries are above `v`
    have hrest : rank (xs.drop i) v = 0 := by
      refine List.countP_eq_zero.2 fun y hy => ?_
      obtain ⟨j, hj, rfl⟩ := List.getElem_of_mem hy
      rw [List.getElem_drop]
      have hle : xs.get ⟨i, hi⟩ ≤ xs.get ⟨i + j, Nat.add_lt_of_lt_sub' (by simpa using hj)⟩ :=
        hmono (Nat.le_add_right i j)
      simpa using (not_le.1 hv).trans_le hle
    have hfirst := rank_le_length (xs.take i) v
    rw [List.length_take] at hfirst
    omega
  · intro hv
    have hfirst : rank (xs.take (i + 1)) v = i + 1 := by
      have hlength : (xs.take (i + 1)).length = i + 1 := List.length_take_of_le hi
      refine (List.countP_eq_length.2 fun y hy => ?_).trans hlength
      obtain ⟨j, hj, rfl⟩ := List.getElem_of_mem hy
      have hji : j ≤ i := Nat.le_of_lt_succ (hj.trans_eq hlength)
      rw [List.getElem_take]
      have hle : xs.get ⟨j, hji.trans_lt hi⟩ ≤ xs.get ⟨i, hi⟩ := hmono hji
      simpa using hle.trans hv
    have hpart : rank (xs.take (i + 1)) v ≤ rank xs v := (List.take_sublist _ _).countP_le
    omega

/-- Sorting finds the least entry of a rank above `i`. -/
theorem isLeast_of_sorted (hperm : ys.Perm xs) (hys : ys.Pairwise (· ≤ ·)) {i : ℕ} {y : α}
    (hy : ys[i]? = some y) : IsLeast {v | v ∈ xs ∧ i < rank xs v} y := by
  rw [← rank_perm hperm]
  refine ⟨⟨hperm.mem_iff.1 (List.mem_of_getElem? hy), (lt_rank_iff hys hy y).2 le_rfl⟩, ?_⟩
  rintro v ⟨_, hv⟩
  exact (lt_rank_iff hys hy v).1 hv

/-- Different entries have all the ranks. -/
theorem exists_rank_eq (hxs : xs.Nodup) {k : ℕ} (hk : k < xs.length) :
    ∃ v ∈ xs, rank xs v = k + 1 := by
  obtain ⟨ys, hperm, hys⟩ : ∃ ys : List α, ys.Perm xs ∧ ys.Pairwise (· ≤ ·) :=
    ⟨_, xs.perm_insertionSort (· ≤ ·), List.pairwise_insertionSort (· ≤ ·) xs⟩
  have hk' : k < ys.length := hperm.length_eq ▸ hk
  refine ⟨ys[k], hperm.mem_iff.1 (List.getElem_mem hk'), ?_⟩
  rw [← rank_perm hperm]
  have hgt : k < rank ys ys[k] := (lt_rank_iff hys (List.getElem?_eq_getElem hk') _).2 le_rfl
  by_contra hne
  -- the next entry would be at most this one too
  have hlt : k + 1 < rank ys ys[k] := by omega
  have hnext : k + 1 < ys.length := hlt.trans_le (rank_le_length _ _)
  have hle : ys[k + 1] ≤ ys[k] := (lt_rank_iff hys (List.getElem?_eq_getElem hnext) _).1 hlt
  have hge : ys.get ⟨k, hk'⟩ ≤ ys.get ⟨k + 1, hnext⟩ := hys.sortedLE.monotone_get (Nat.le_succ k)
  have hsame := (hperm.nodup_iff.2 hxs).getElem_inj_iff.1 (le_antisymm hge hle)
  omega

end OrderStatistic

end Ridgeline
