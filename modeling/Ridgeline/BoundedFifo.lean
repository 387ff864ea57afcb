import Ridgeline.Transition

/-!
# A bounded queue

The queue a producer and a consumer share, with what the consumer has taken so far. A push
is refused exactly when the queue is full and a pop exactly when it is empty. What was
taken and what is still in the queue is what was pushed, in order (`exec_taken_queue`).
-/

namespace Ridgeline

variable {α : Type*} {bound : ℕ}

/-- At most `bound` values in the queue, and the values taken from it. -/
structure BoundedFifo (α : Type*) (bound : ℕ) where
  queue : List α
  taken : List α
  length_le : queue.length ≤ bound

/-- A call of the producer or the consumer, with its outcome. -/
inductive FifoOp (α : Type*)
  | push (v : α)
  | pushRefused
  | pop
  | popRefused

namespace BoundedFifo

/-- The empty queue. -/
def empty : BoundedFifo α bound :=
  ⟨[], [], Nat.zero_le bound⟩

/-- The calls that may have the outcome. -/
def step (f : BoundedFifo α bound) : FifoOp α → Option (BoundedFifo α bound)
  | .push v =>
    if h : f.queue.length < bound then
      some { f with queue := f.queue ++ [v], length_le := by simpa using Nat.succ_le_of_lt h }
    else none
  | .pushRefused => if f.queue.length = bound then some f else none
  | .pop =>
    match h : f.queue with
    | [] => none
    | v :: queue =>
      some ⟨queue, f.taken ++ [v], Nat.le_of_succ_le (by simpa [h] using f.length_le)⟩
  | .popRefused => if f.queue = [] then some f else none

/-- The values that are pushed. -/
def pushed (ops : List (FifoOp α)) : List α :=
  ops.filterMap fun
    | .push v => some v
    | _ => none

variable {f g : BoundedFifo α bound} {v : α}

theorem step_push (h : f.queue.length < bound) :
    ∃ g, f.step (.push v) = some g ∧ g.queue = f.queue ++ [v] ∧ g.taken = f.taken := by
  rw [step, dif_pos h]
  exact ⟨_, rfl, rfl, rfl⟩

theorem step_pop {queue : List α} (h : f.queue = v :: queue) :
    ∃ g, f.step .pop = some g ∧ g.queue = queue ∧ g.taken = f.taken ++ [v] := by
  obtain ⟨_, taken, hle⟩ := f
  subst h
  exact ⟨_, rfl, rfl, rfl⟩

theorem taken_queue_step {op : FifoOp α} (h : f.step op = some g) :
    g.taken ++ g.queue = f.taken ++ f.queue ++ pushed [op] := by
  cases op with
  | push v =>
    rw [step] at h
    split_ifs at h
    cases h
    simp [pushed]
  | pop =>
    rw [step] at h
    split at h
    · cases h
    · next v queue hqueue =>
      cases h
      simp [pushed, hqueue]
  | pushRefused | popRefused =>
    rw [step] at h
    split_ifs at h
    cases h
    simp [pushed]

/-- What was taken and what is in the queue is what was pushed, in order. -/
theorem exec_taken_queue : ∀ {ops : List (FifoOp α)} {f g : BoundedFifo α bound},
    exec step f ops = some g → g.taken ++ g.queue = f.taken ++ f.queue ++ pushed ops
  | [], _, _, h => by
    cases h
    simp [pushed]
  | op :: ops, f, g, h => by
    obtain ⟨f', hf', h⟩ := exec_cons_iff.1 h
    rw [exec_taken_queue h, taken_queue_step hf', List.append_assoc]
    exact congrArg _ (List.filterMap_append (l := [op])).symm

end BoundedFifo

end Ridgeline
