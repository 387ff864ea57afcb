import Mathlib.Algebra.BigOperators.Group.List.Basic
import Mathlib.Algebra.Order.Ring.Defs
import Mathlib.Data.List.Infix
import Mathlib.Tactic.Linarith
import Mathlib.Tactic.Ring

/-!
# Bursts and rates

A list of requests conforms to a burst `σ` and a rate `ρ` if in every window of it, from one
request to a later one, the costs are at most `σ` and `ρ` times the time between the two
(`Conforms`).

`slack` is what a request at a given time may cost behind requests that conform
(`conforms_snoc_iff`). It is the least that a window leaves, over the windows that end there
(`le_slack_iff`), and it is computed from the last request backwards.
-/

namespace Ridgeline

/-- A request for `cost` at `time`. -/
structure Request (K : Type*) where
  cost : K
  time : K
  deriving DecidableEq, Repr

variable {K : Type*} [CommRing K]

/-- What the requests cost together. -/
def totalCost (w : List (Request K)) : K :=
  (w.map (·.cost)).sum

theorem totalCost_snoc (w : List (Request K)) (x : Request K) :
    totalCost (w ++ [x]) = totalCost w + x.cost := by
  simp [totalCost]

variable [LinearOrder K]

/-- In every window, the costs are within the burst and what the rate adds in its time. -/
def Conforms (σ ρ : K) (xs : List (Request K)) : Prop :=
  ∀ w, w <:+: xs → ∀ hne : w ≠ [],
    totalCost w ≤ σ + ρ * ((w.getLast hne).time - (w.head hne).time)

/-- What a request at time `t` may cost behind the requests `h`, the last of which is first. -/
def slack (σ ρ : K) : List (Request K) → K → K
  | [], _ => σ
  | y :: h, t => min σ (slack σ ρ h y.time - y.cost + ρ * (t - y.time))

variable {σ ρ : K}

theorem conforms_nil : Conforms σ ρ [] := fun _ hw hne =>
  absurd (List.infix_nil.1 hw) hne

theorem Conforms.of_append {xs ys : List (Request K)} (h : Conforms σ ρ (xs ++ ys)) :
    Conforms σ ρ xs := fun w hw =>
  h w (hw.trans (List.prefix_append xs ys).isInfix)

variable [IsStrictOrderedRing K]

/-- The slack is the least that a window leaves which ends in the last request. -/
theorem le_slack_iff (xs : List (Request K)) : ∀ {c t : K}, c ≤ slack σ ρ xs.reverse t ↔
    c ≤ σ ∧ ∀ w, w <:+ xs → ∀ hne : w ≠ [],
      c + totalCost w ≤ σ + ρ * (t - (w.head hne).time) := by
  induction xs using List.reverseRecOn with
  | nil =>
    intro c t
    refine ⟨fun hc => ⟨hc, fun w hw hne => absurd (List.suffix_nil.1 hw) hne⟩, And.left⟩
  | append_singleton xs y ih =>
    intro c t
    have hstep : c ≤ slack σ ρ xs.reverse y.time - y.cost + ρ * (t - y.time) ↔
        c + y.cost - ρ * (t - y.time) ≤ slack σ ρ xs.reverse y.time :=
      ⟨fun hle => by linarith, fun hle => by linarith⟩
    rw [List.reverse_concat, slack, le_min_iff, hstep, ih]
    -- a window is `y` alone, or one that ends in the request before it and goes on with `y`
    refine and_congr_right fun hc => ⟨?_, fun hwin => ⟨?_, fun w hw hne => ?_⟩⟩
    · rintro ⟨hy, hwin⟩ w hw hne
      obtain ⟨v, rfl, hv⟩ := (List.suffix_concat_iff.1 hw).resolve_left hne
      rw [totalCost_snoc]
      by_cases hnil : v = []
      · subst hnil
        simp only [totalCost, List.map_nil, List.sum_nil, List.nil_append, List.head_cons]
        linarith
      · have := hwin v hv hnil
        rw [List.head_append_of_ne_nil hnil]
        linarith
    · have := hwin [y] (List.suffix_append xs [y]) (by simp)
      simp only [totalCost, List.map_singleton, List.sum_singleton, List.head_cons] at this
      linarith
    · have := hwin (w ++ [y]) (List.suffix_append_self_iff.2 hw) (by simp)
      rw [totalCost_snoc, List.head_append_of_ne_nil hne] at this
      linarith

/-- Requests that conform go on to conform with one that costs at most the slack. -/
theorem conforms_snoc_iff {xs : List (Request K)} {x : Request K} :
    Conforms σ ρ (xs ++ [x]) ↔ Conforms σ ρ xs ∧ x.cost ≤ slack σ ρ xs.reverse x.time := by
  rw [le_slack_iff]
  constructor
  · intro h
    refine ⟨h.of_append, ?_, fun w hw hne => ?_⟩
    · have := h [x] (List.suffix_append xs [x]).isInfix (by simp)
      simpa [totalCost] using this
    · have := h (w ++ [x]) (List.suffix_append_self_iff.2 hw).isInfix (by simp)
      rw [totalCost_snoc, List.head_append_of_ne_nil hne, List.getLast_concat] at this
      linarith
  · rintro ⟨h, hle, hwin⟩ w hw hne
    rcases List.infix_concat_iff.1 hw with hsuffix | hin
    · obtain ⟨v, rfl, hv⟩ := (List.suffix_concat_iff.1 hsuffix).resolve_left hne
      rw [totalCost_snoc, List.getLast_concat]
      by_cases hnil : v = []
      · subst hnil
        simpa [totalCost] using hle
      · have := hwin v hv hnil
        rw [List.head_append_of_ne_nil hnil]
        linarith
    · exact h w hin hne

end Ridgeline
