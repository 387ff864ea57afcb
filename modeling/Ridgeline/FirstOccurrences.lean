import Mathlib.Data.List.Basic
import Mathlib.Data.List.Nodup

/-!
# First occurrences

A list `xs` may repeat entries of `ys`, but takes them up in the order of `ys` and leaves none
out : without the repetitions it is the start of `ys` (`InOrder`). An entry of `ys` whose
predecessors have all occurred keeps this when it is added, be it new or a repetition
(`InOrder.snoc`).
-/

namespace Ridgeline

variable {α : Type*} [DecidableEq α]

/-- The first occurrences in `xs` are the first entries of `ys`, in order. -/
def InOrder (xs ys : List α) : Prop :=
  ∃ m ≤ ys.length, xs.eraseDups = ys.take m

variable {xs ys : List α}

theorem InOrder.append (h : InOrder xs ys) (zs : List α) : InOrder xs (ys ++ zs) := by
  obtain ⟨m, hm, heq⟩ := h
  exact ⟨m, by simp; omega, by rw [heq, List.take_append_of_le_length hm]⟩

theorem InOrder.subset (h : InOrder xs ys) : xs ⊆ ys := by
  obtain ⟨m, hm, heq⟩ := h
  intro x hx
  rw [← List.mem_eraseDups, heq] at hx
  exact List.mem_of_mem_take hx

/-- Entries that have all occurred are among the first ones. -/
theorem le_of_take_subset (hys : ys.Nodup) {m k : ℕ} (heq : xs.eraseDups = ys.take m)
    (hk : k ≤ ys.length) (htake : ∀ x ∈ ys.take k, x ∈ xs) : k ≤ m := by
  by_contra hlt
  have hm : m < ys.length := by omega
  have hx : ys[m] ∈ xs := htake _ (List.mem_take_iff_getElem.2 ⟨m, by omega, rfl⟩)
  rw [← List.mem_eraseDups, heq, List.mem_take_iff_getElem] at hx
  obtain ⟨i, hi, hieq⟩ := hx
  have := (List.Nodup.getElem_inj_iff hys).1 hieq
  omega

/-- An entry follows of which all that is before it has occurred. -/
theorem InOrder.snoc (h : InOrder xs ys) (hys : ys.Nodup) {k : ℕ} {y : α}
    (hy : ys[k]? = some y) (hbefore : ∀ x ∈ ys.take k, x ∈ xs) : InOrder (xs ++ [y]) ys := by
  obtain ⟨m, hm, heq⟩ := h
  obtain ⟨hk, hget⟩ := List.getElem?_eq_some_iff.1 hy
  by_cases hmem : y ∈ xs
  · refine ⟨m, hm, ?_⟩
    rw [List.eraseDups_append, heq]
    simp [List.removeAll, hmem]
  · have hle : m ≤ k := by
      by_contra hlt
      apply hmem
      rw [← List.mem_eraseDups, heq]
      exact List.mem_take_iff_getElem.2 ⟨k, by omega, hget⟩
    obtain rfl : m = k := Nat.le_antisymm hle (le_of_take_subset hys heq (Nat.le_of_lt hk) hbefore)
    refine ⟨m + 1, hk, ?_⟩
    rw [List.eraseDups_append, heq, List.take_add_one, hy]
    simp [List.removeAll, hmem, List.eraseDups_cons]

end Ridgeline
