import Mathlib.Data.List.Nodup
import Mathlib.Algebra.Order.Group.Nat

/-!
# Writing a buffer

A buffer of fixed length and a sequence of writes, of a value at an index each. A place that is not
written keeps its value (`getElem?_writeAll_of_notMem`), and a place that is written once has what
was written (`getElem?_writeAll_of_mem`). Places of a table with rows of `n` entries are counted row
by row : these are different for different places (`rowMajor_inj`), and below the size
(`rowMajor_lt`).
-/

namespace Ridgeline

namespace Buffer

variable {α : Type*} {n : ℕ}

/-- The buffer after the writes, in order. -/
def writeAll (ws : List (ℕ × α)) (v : Vector α n) : Vector α n :=
  ws.foldl (fun v w => v.setIfInBounds w.1 w.2) v

theorem getElem?_writeAll_of_notMem {i : ℕ} : ∀ {ws : List (ℕ × α)} (v : Vector α n),
    i ∉ ws.map Prod.fst → (writeAll ws v)[i]? = v[i]?
  | [], _, _ => rfl
  | w :: ws, v, h => by
    rw [List.map_cons, List.mem_cons, not_or] at h
    have ih := getElem?_writeAll_of_notMem (v.setIfInBounds w.1 w.2) h.2
    rw [Vector.getElem?_setIfInBounds_ne (Ne.symm h.1)] at ih
    exact ih

theorem getElem?_writeAll_of_mem {i : ℕ} {x : α} (hi : i < n) : ∀ {ws : List (ℕ × α)}
    (v : Vector α n), (ws.map Prod.fst).Nodup → (i, x) ∈ ws → (writeAll ws v)[i]? = some x
  | w :: ws, v, hnodup, h => by
    rw [List.map_cons, List.nodup_cons] at hnodup
    rcases List.mem_cons.1 h with rfl | h
    · have hrest := getElem?_writeAll_of_notMem (v.setIfInBounds i x) hnodup.1
      rw [Vector.getElem?_setIfInBounds_self_of_lt hi] at hrest
      exact hrest
    · exact getElem?_writeAll_of_mem hi (v.setIfInBounds w.1 w.2) hnodup.2 h

/-! ## Row by row -/

theorem rowMajor_lt {m a b : ℕ} (ha : a < m) (hb : b < n) : a * n + b < m * n := by
  calc a * n + b < a * n + n := Nat.add_lt_add_left hb _
    _ = (a + 1) * n := (Nat.succ_mul a n).symm
    _ ≤ m * n := Nat.mul_le_mul_right n ha

theorem rowMajor_inj {a b c d : ℕ} (hb : b < n) (hd : d < n) (h : a * n + b = c * n + d) :
    a = c ∧ b = d := by
  have hn : 0 < n := Nat.zero_lt_of_lt hb
  have hrow := congrArg (· / n) h
  simp only [Nat.mul_comm _ n, Nat.mul_add_div hn, Nat.div_eq_of_lt hb, Nat.div_eq_of_lt hd,
    Nat.add_zero] at hrow
  subst hrow
  exact ⟨rfl, Nat.add_left_cancel h⟩

end Buffer

end Ridgeline
