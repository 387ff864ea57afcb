import Mathlib.Data.List.DropRight
import Ridgeline.Word

/-!
# The confirmer

`KOfNConfirmer` : a window of the last `n` raw results, with the number of positive ones.
The constructor aborts unless `1 ≤ k ≤ n` (`create_eq_none_iff`), so a confirmer always has
such a threshold. The window never has more than `n` results, and the number kept beside it is that
of its positive ones (`WellFormed.update`). After any calls of `Update` and `Reset` the window is
the last `n` results since the last `Reset` (`Windowed.update`), so the confirmer answers what these
say (`confirms_window`).
-/

namespace Ridgeline

/-- `KOfNConfirmer`. -/
structure KOfNConfirmer where
  k : UInt32
  n : UInt32
  k_ne_zero : k ≠ 0
  k_le_n : k ≤ n
  window : List Bool := []
  positiveCount : UInt32 := 0
  deriving DecidableEq, Repr

namespace KOfNConfirmer

/-- The constructor, which aborts the process for a threshold that makes no sense. -/
def create (k n : UInt32) : Option KOfNConfirmer :=
  if h : n = 0 ∨ k = 0 ∨ n < k then none
  else
    some ⟨k, n, fun hk => h (.inr (.inl hk)), UInt32.not_lt.1 fun hkn => h (.inr (.inr hkn)), [], 0⟩

/-- The threshold makes sense. -/
def ValidThreshold (k n : UInt32) : Prop :=
  1 ≤ k ∧ k ≤ n

instance (k n : UInt32) : Decidable (ValidThreshold k n) :=
  inferInstanceAs (Decidable (_ ∧ _))

/-- The constructor aborts unless the threshold makes sense. -/
theorem create_eq_none_iff {k n : UInt32} : create k n = none ↔ ¬ ValidThreshold k n := by
  have hiff : (n = 0 ∨ k = 0 ∨ n < k) ↔ ¬ ValidThreshold k n := by
    simp only [ValidThreshold, UInt32.le_iff_toNat_le, UInt32.lt_iff_toNat_lt,
      ← UInt32.toNat_inj, UInt32.toNat_zero, UInt32.toNat_one]
    omega
  unfold create
  split_ifs with h
  · simpa using hiff.1 h
  · simpa using mt hiff.2 h

theorem exists_create {k n : UInt32} (h : ValidThreshold k n) : ∃ c, create k n = some c :=
  Option.ne_none_iff_exists'.1 (mt create_eq_none_iff.1 (not_not_intro h))

/-- `Update`, before the window is shortened. -/
def pushBack (c : KOfNConfirmer) (rawPositive : Bool) : KOfNConfirmer :=
  { c with
    window := c.window ++ [rawPositive]
    positiveCount := if rawPositive then c.positiveCount + 1 else c.positiveCount }

/-- The oldest result leaves a window that is too long. -/
def popFront (c : KOfNConfirmer) : KOfNConfirmer :=
  match c.window with
  | oldest :: window =>
    if c.window.length > c.n.toNat then
      { c with
        window := window
        positiveCount := if oldest then c.positiveCount - 1 else c.positiveCount }
    else c
  | [] => c

/-- `Update`. -/
def update (c : KOfNConfirmer) (rawPositive : Bool) : Bool × KOfNConfirmer :=
  let c := (c.pushBack rawPositive).popFront
  (c.k ≤ c.positiveCount, c)

/-- `Reset`. -/
def reset (c : KOfNConfirmer) : KOfNConfirmer :=
  { c with window := [], positiveCount := 0 }

/-- The window has at most `n` results, and its positive ones are counted. -/
structure WellFormed (c : KOfNConfirmer) : Prop where
  length_le : c.window.length ≤ c.n.toNat
  count : c.positiveCount = UInt32.ofNat (c.window.count true)

theorem wellFormed_create {k n : UInt32} {c : KOfNConfirmer} (h : create k n = some c) :
    c.WellFormed := by
  unfold create at h
  split_ifs at h
  cases h
  exact ⟨Nat.zero_le _, rfl⟩

theorem count_pushBack {c : KOfNConfirmer} (hc : c.WellFormed) (b : Bool) :
    (c.pushBack b).positiveCount = UInt32.ofNat ((c.pushBack b).window.count true) := by
  cases b with
  | false => simpa [pushBack] using hc.count
  | true => simp [pushBack, hc.count, UInt32.ofNat_add]

theorem WellFormed.length_pushBack {c : KOfNConfirmer} (hc : c.WellFormed) (b : Bool) :
    (c.pushBack b).window.length ≤ (c.pushBack b).n.toNat + 1 := by
  simpa [pushBack] using hc.length_le

/-- Of a window that is at most one too long, the last `n` results are left. -/
theorem window_popFront {c : KOfNConfirmer} (h : c.window.length ≤ c.n.toNat + 1) :
    c.popFront.window = c.window.rtake c.n.toNat := by
  unfold popFront
  split
  · next oldest window hwindow =>
    by_cases hlong : c.window.length > c.n.toNat
    · have hone : c.window.length - c.n.toNat = 1 := by omega
      rw [if_pos hlong, List.rtake, hone, hwindow]
      rfl
    · rw [if_neg hlong, List.rtake, Nat.sub_eq_zero_of_le (not_lt.1 hlong), List.drop_zero]
  · next hwindow => simp [hwindow]

theorem threshold_popFront (c : KOfNConfirmer) : c.popFront.k = c.k ∧ c.popFront.n = c.n := by
  unfold popFront
  split
  · split_ifs <;> exact ⟨rfl, rfl⟩
  · exact ⟨rfl, rfl⟩

theorem count_popFront {c : KOfNConfirmer}
    (h : c.positiveCount = UInt32.ofNat (c.window.count true)) :
    c.popFront.positiveCount = UInt32.ofNat (c.popFront.window.count true) := by
  unfold popFront
  split
  · next oldest window hwindow =>
    by_cases hlong : c.window.length > c.n.toNat
    · rw [if_pos hlong]
      rw [hwindow] at h
      cases oldest with
      | false => simpa using h
      | true => simp [h, UInt32.ofNat_add]
    · rw [if_neg hlong]
      exact h
  · exact h

/-- The window is shortened to the last `n` results. -/
theorem WellFormed.update {c : KOfNConfirmer} (hc : c.WellFormed) (b : Bool) :
    (c.update b).2.WellFormed where
  length_le := by
    rw [KOfNConfirmer.update, window_popFront (hc.length_pushBack b), (threshold_popFront _).2,
      List.rtake, List.length_drop]
    omega
  count := count_popFront (count_pushBack hc b)

/-! ## The results since the last `Reset` -/

/-- A call of the confirmer. -/
inductive Call
  | update (rawPositive : Bool)
  | reset
  deriving DecidableEq, Repr

/-- The confirmer after a call. -/
def apply (c : KOfNConfirmer) : Call → KOfNConfirmer
  | .update rawPositive => (c.update rawPositive).2
  | .reset => c.reset

/-- The confirmer after some calls. -/
def after (c : KOfNConfirmer) (calls : List Call) : KOfNConfirmer :=
  calls.foldl apply c

/-- The raw results since the last `Reset`, after one more call. -/
def sinceNext (history : List Bool) : Call → List Bool
  | .update rawPositive => history ++ [rawPositive]
  | .reset => []

/-- The raw results since the last `Reset`. -/
def since (calls : List Call) : List Bool :=
  calls.foldl sinceNext []

/-- The confirmer for `k` of `n` has the last `n` results of the history in its window. -/
structure Windowed (k n : UInt32) (history : List Bool) (c : KOfNConfirmer) : Prop
    extends c.WellFormed where
  k_eq : c.k = k
  n_eq : c.n = n
  window : c.window = history.rtake n.toNat

variable {k n : UInt32} {history : List Bool} {c : KOfNConfirmer}

theorem windowed_create (h : create k n = some c) : Windowed k n [] c := by
  have hwf := wellFormed_create h
  unfold create at h
  split_ifs at h
  cases h
  exact ⟨hwf, rfl, rfl, by simp⟩

theorem rtake_rtake_concat (l : List Bool) (b : Bool) (m : ℕ) :
    (l.rtake m ++ [b]).rtake m = (l ++ [b]).rtake m := by
  have hdrop : l.rtake m ++ [b] = (l ++ [b]).drop (l.length - m) := by
    rw [List.rtake, List.drop_append_of_le_length (Nat.sub_le _ _)]
  rw [hdrop, List.rtake, List.rtake, List.drop_drop]
  congr 1
  simp only [List.length_drop, List.length_append, List.length_singleton]
  omega

theorem Windowed.update (hc : Windowed k n history c) (b : Bool) :
    Windowed k n (history ++ [b]) (c.update b).2 where
  toWellFormed := hc.toWellFormed.update b
  k_eq := (threshold_popFront _).1.trans hc.k_eq
  n_eq := (threshold_popFront _).2.trans hc.n_eq
  window := by
    have hpush : (c.pushBack b).window = history.rtake n.toNat ++ [b] := by
      rw [← hc.window]
      rfl
    have hpop := window_popFront (hc.length_pushBack b)
    rw [hpush, show (c.pushBack b).n = n from hc.n_eq, rtake_rtake_concat] at hpop
    exact hpop

theorem Windowed.reset (hc : Windowed k n history c) : Windowed k n [] c.reset :=
  ⟨⟨Nat.zero_le _, rfl⟩, hc.k_eq, hc.n_eq, by simp [KOfNConfirmer.reset]⟩

theorem Windowed.after (hc : Windowed k n [] c) (calls : List Call) :
    Windowed k n (since calls) (c.after calls) := by
  induction calls using List.reverseRecOn with
  | nil => exact hc
  | append_singleton calls call ih =>
    rw [since, KOfNConfirmer.after, List.foldl_concat, List.foldl_concat]
    cases call with
    | update b => exact ih.update b
    | reset => exact ih.reset

theorem Windowed.length_window (hc : Windowed k n history c) :
    c.window.length = min n.toNat history.length := by
  rw [hc.window, List.rtake, List.length_drop]
  omega

theorem Windowed.toNat_positiveCount (hc : Windowed k n history c) :
    c.positiveCount.toNat = (history.rtake n.toNat).count true := by
  have hle : c.window.count true ≤ c.n.toNat := List.count_le_length.trans hc.length_le
  have hlt := c.n.toNat_lt
  rw [hc.count, UInt32.toNat_ofNat', Nat.mod_eq_of_lt (by omega), hc.window]

theorem Windowed.answer (hc : Windowed k n history c) (b : Bool) :
    (c.update b).1 = true ↔ k.toNat ≤ ((history ++ [b]).rtake n.toNat).count true := by
  have hnext := hc.update b
  rw [← hnext.toNat_positiveCount, ← UInt32.le_iff_toNat_le, ← hnext.k_eq]
  exact decide_eq_true_iff

/-- What an `Update` returns and leaves, by the last `n` results since the last `Reset`. -/
structure ConfirmsWindow (k n : UInt32) (history : List Bool) (updated : Bool × KOfNConfirmer) :
    Prop where
  answer : updated.1 = true ↔ k.toNat ≤ (history.rtake n.toNat).count true
  positiveCount : updated.2.positiveCount.toNat = (history.rtake n.toNat).count true
  windowSize : updated.2.window.length = min n.toNat history.length

/-- After any calls of `Update` and `Reset`. Calls before which the last `n` results are the same
are answered the same. -/
theorem confirms_window (h : ValidThreshold k n) : ∃ c, create k n = some c ∧
    (∀ calls raw, ConfirmsWindow k n (since (calls ++ [.update raw]))
      ((c.after calls).update raw)) ∧
    ∀ calls calls' raw raw', (since (calls ++ [.update raw])).rtake n.toNat =
        (since (calls' ++ [.update raw'])).rtake n.toNat →
      ((c.after calls).update raw).1 = ((c.after calls').update raw').1 := by
  obtain ⟨c, hc⟩ := exists_create h
  have hsince : ∀ calls raw, since (calls ++ [.update raw]) = since calls ++ [raw] := by
    intro calls raw
    rw [since, List.foldl_concat]
    rfl
  refine ⟨c, hc, fun calls raw => ?_, fun calls calls' raw raw' hsame => ?_⟩
  · have hwindow := (windowed_create hc).after calls
    rw [hsince]
    exact ⟨hwindow.answer raw, (hwindow.update raw).toNat_positiveCount,
      (hwindow.update raw).length_window⟩
  · have hwindow := ((windowed_create hc).after calls).answer raw
    have hwindow' := ((windowed_create hc).after calls').answer raw'
    rw [hsince, hsince] at hsame
    rw [Bool.eq_iff_iff, hwindow, hwindow', hsame]

theorem confirms_window_twoOfThree : ValidThreshold 2 3 ∧ ∃ c, create 2 3 = some c ∧
    ConfirmsWindow 2 3 [true, false, true]
      ((c.after [.update true, .reset, .update true, .update false]).update true) := by
  obtain ⟨c, hc, hexact, -⟩ := confirms_window (k := 2) (n := 3) (by decide)
  exact ⟨by decide, c, hc,
    hexact [.update true, .reset, .update true, .update false] true⟩

end KOfNConfirmer

end Ridgeline
