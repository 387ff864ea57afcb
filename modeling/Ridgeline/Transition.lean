import Mathlib.Algebra.Ring.Nat
import Mathlib.Data.List.Basic
import Mathlib.Data.List.Induction

/-!
# Runs of a partial step function

A system is a partial step function `step : σ → α → Option σ` : the label `a` carries
every choice the environment makes (which thread moves, what a call returns), so a run
is a list of labels and `exec` computes the state it ends in, if every step is enabled.

`exec_invariant` is the induction every safety result goes through, and
`exec_invariant_guarded` the same for runs whose steps all meet a condition on the state
they are taken in (`Guarded`). `exec_foldl` relates the state to what the labels alone say.
`exec_simulates` lifts a step-by-step simulation with stuttering to whole runs : the steps that
`obs` labels are the run of the abstract system.
`exec_purge` compares a run with the one that has only some of its steps. `exec_countP_le`
bounds the steps of a kind by a rank that they take from, and `exec_le_sum` a measure by what
the steps add to it. `exec_history` is the induction for what is said of a state and the run
that led to it. `Historic` says of a list of events that each of them is allowed after those
before it.
-/

namespace Ridgeline

variable {σ α τ β : Type*}

/-- The state after the steps `as`, if every one of them is enabled. -/
def exec (step : σ → α → Option σ) : σ → List α → Option σ
  | s, [] => some s
  | s, a :: as => (step s a).bind fun t => exec step t as

@[simp] theorem exec_nil (step : σ → α → Option σ) (s : σ) : exec step s [] = some s :=
  rfl

theorem exec_cons_iff {step : σ → α → Option σ} {s u : σ} {a : α} {as : List α} :
    exec step s (a :: as) = some u ↔ ∃ t, step s a = some t ∧ exec step t as = some u := by
  simp [exec, Option.bind_eq_some_iff]

theorem exec_append (step : σ → α → Option σ) :
    ∀ (s : σ) (as bs : List α),
      exec step s (as ++ bs) = (exec step s as).bind fun t => exec step t bs
  | s, [], bs => rfl
  | s, a :: as, bs => by
    cases h : step s a with
    | none => simp [exec, h]
    | some t => simpa [exec, h] using exec_append step t as bs

theorem exec_append_iff {step : σ → α → Option σ} {s u : σ} {as bs : List α} :
    exec step s (as ++ bs) = some u ↔ ∃ t, exec step s as = some t ∧ exec step t bs = some u := by
  rw [exec_append, Option.bind_eq_some_iff]

theorem exec_snoc_iff {step : σ → α → Option σ} {s u : σ} {as : List α} {a : α} :
    exec step s (as ++ [a]) = some u ↔ ∃ t, exec step s as = some t ∧ step t a = some u := by
  simp [exec_append_iff, exec_cons_iff]

/-- A run that ends in a state with `p`, found by evaluating it. -/
theorem exists_exec_of_any {step : σ → α → Option σ} {s : σ} {as : List α} {p : σ → Prop}
    [DecidablePred p] (h : (exec step s as).any fun t => p t) :
    ∃ t, exec step s as = some t ∧ p t := by
  cases ht : exec step s as with
  | none => simp [ht] at h
  | some t =>
    rw [ht] at h
    exact ⟨t, rfl, of_decide_eq_true h⟩

/-- What holds at the start and is kept by every step holds after every run. -/
theorem exec_invariant {step : σ → α → Option σ} {Inv : σ → Prop}
    (hstep : ∀ s a t, Inv s → step s a = some t → Inv t) :
    ∀ {as : List α} {s t : σ}, Inv s → exec step s as = some t → Inv t
  | [], _, _, hs, h => by
    cases h
    exact hs
  | a :: as, s, t, hs, h => by
    obtain ⟨u, hu, h⟩ := exec_cons_iff.1 h
    exact exec_invariant hstep (hstep s a u hs hu) h

/-- A relation between the state and what `f` makes of the labels alone. -/
theorem exec_foldl {step : σ → α → Option σ} {f : τ → α → τ} {R : σ → τ → Prop}
    (hstep : ∀ s a t u, R s u → step s a = some t → R t (f u a)) :
    ∀ {as : List α} {s t : σ} {u : τ}, R s u → exec step s as = some t → R t (as.foldl f u)
  | [], _, _, _, hR, h => by
    cases h
    exact hR
  | a :: as, s, t, u, hR, h => by
    obtain ⟨s', hs', h⟩ := exec_cons_iff.1 h
    rw [List.foldl_cons]
    exact exec_foldl hstep (hstep s a s' u hR hs') h

/-- Every step of the run from `s` along `as` meets `ok` in the state it is taken in. -/
def Guarded (step : σ → α → Option σ) (ok : σ → α → Prop) : σ → List α → Prop
  | _, [] => True
  | s, a :: as => ok s a ∧ ∀ t, step s a = some t → Guarded step ok t as

theorem guarded_cons_iff {step : σ → α → Option σ} {ok : σ → α → Prop} {s t : σ} {a : α}
    {as : List α} (h : step s a = some t) :
    Guarded step ok s (a :: as) ↔ ok s a ∧ Guarded step ok t as := by
  simp [Guarded, h]

instance decidableGuarded (step : σ → α → Option σ) (ok : σ → α → Prop)
    [∀ s a, Decidable (ok s a)] : ∀ s as, Decidable (Guarded step ok s as)
  | _, [] => .isTrue trivial
  | s, a :: as =>
    match h : step s a with
    | none => decidable_of_iff (ok s a) (by simp [Guarded, h])
    | some t =>
      have := decidableGuarded step ok t as
      decidable_of_iff (ok s a ∧ Guarded step ok t as) (guarded_cons_iff h).symm

theorem Guarded.of_forall {step : σ → α → Option σ} {ok : σ → α → Prop} :
    ∀ {as : List α} {s : σ}, (∀ t, ∀ a ∈ as, ok t a) → Guarded step ok s as
  | [], _, _ => trivial
  | _ :: _, s, h =>
    ⟨h s _ List.mem_cons_self, fun _ _ => of_forall fun t a ha => h t a (List.mem_cons_of_mem _ ha)⟩

theorem Guarded.of_append {step : σ → α → Option σ} {ok : σ → α → Prop} :
    ∀ {as bs : List α} {s : σ}, Guarded step ok s (as ++ bs) → Guarded step ok s as
  | [], _, _, _ => trivial
  | _ :: _, _, _, h => ⟨h.1, fun t ht => (h.2 t ht).of_append⟩

theorem Guarded.of_snoc {step : σ → α → Option σ} {ok : σ → α → Prop} :
    ∀ {as : List α} {a : α} {s t : σ}, Guarded step ok s (as ++ [a]) →
      exec step s as = some t → ok t a
  | [], _, _, _, h, hs => by
    cases hs
    exact h.1
  | _ :: _, _, _, _, h, hs => by
    obtain ⟨u, hu, hs⟩ := exec_cons_iff.1 hs
    exact (h.2 u hu).of_snoc hs

/-- An invariant of the steps that meet `ok` holds after every run made of such steps. -/
theorem exec_invariant_guarded {step : σ → α → Option σ} {ok : σ → α → Prop} {Inv : σ → Prop}
    (hstep : ∀ s a t, Inv s → ok s a → step s a = some t → Inv t) :
    ∀ {as : List α} {s t : σ}, Inv s → Guarded step ok s as → exec step s as = some t → Inv t
  | [], _, _, hs, _, h => by
    cases h
    exact hs
  | a :: as, s, t, hs, hg, h => by
    obtain ⟨u, hu, h⟩ := exec_cons_iff.1 h
    exact exec_invariant_guarded hstep (hstep s a u hs hg.1 hu) (hg.2 u hu) h

/-- The labels of the abstract system along a run : those that `obs` gives its steps. -/
def observe (step : σ → α → Option σ) (obs : σ → α → Option β) : σ → List α → List β
  | _, [] => []
  | s, a :: as =>
    (obs s a).toList ++ ((step s a).map fun t => observe step obs t as).getD []

/-- A simulation with stuttering. If every step that `obs` labels is matched by that
step of the abstract system, and every other step by none, then a run is matched by the
abstract run of its labels. -/
theorem exec_simulates {step : σ → α → Option σ} {astep : τ → β → Option τ}
    {obs : σ → α → Option β} {R : σ → τ → Prop}
    (hsim : ∀ s a t u, R s u → step s a = some t →
      ∃ v, exec astep u (obs s a).toList = some v ∧ R t v) :
    ∀ {as : List α} {s t : σ} {u : τ}, R s u → exec step s as = some t →
      ∃ v, exec astep u (observe step obs s as) = some v ∧ R t v
  | [], _, _, u, hR, h => by
    cases h
    exact ⟨u, rfl, hR⟩
  | a :: as, s, t, u, hR, h => by
    obtain ⟨s', hs', h⟩ := exec_cons_iff.1 h
    obtain ⟨v, hv, hR'⟩ := hsim s a s' u hR hs'
    obtain ⟨w, hw, hRw⟩ := exec_simulates hsim hR' h
    refine ⟨w, ?_, hRw⟩
    simp only [observe, hs', Option.map_some, Option.getD_some]
    exact exec_append_iff.2 ⟨v, hv, hw⟩

/-- Unwinding. If the steps in `keep` preserve `R` on both sides, and the other steps are
not noticed, then a run is matched by the run without the other steps. -/
theorem exec_purge {step : σ → α → Option σ} {R : σ → σ → Prop} (keep : α → Bool)
    (hkeep : ∀ s a t u, R s u → keep a → step s a = some t → ∃ v, step u a = some v ∧ R t v)
    (hdrop : ∀ s a t u, R s u → keep a = false → step s a = some t → R t u) :
    ∀ {as : List α} {s t u : σ}, R s u → exec step s as = some t →
      ∃ v, exec step u (as.filter keep) = some v ∧ R t v
  | [], _, _, u, hR, h => by
    cases h
    exact ⟨u, rfl, hR⟩
  | a :: as, s, t, u, hR, h => by
    obtain ⟨s', hs', h⟩ := exec_cons_iff.1 h
    cases ha : keep a with
    | true =>
      obtain ⟨u', hu', hR'⟩ := hkeep s a s' u hR ha hs'
      obtain ⟨v, hv, hRv⟩ := exec_purge keep hkeep hdrop hR' h
      rw [List.filter_cons_of_pos ha]
      exact ⟨v, exec_cons_iff.2 ⟨u', hu', hv⟩, hRv⟩
    | false =>
      rw [List.filter_cons_of_neg (by simp [ha])]
      exact exec_purge keep hkeep hdrop (hdrop s a s' u hR ha hs') h

/-- If every step is enabled wherever the invariant holds, every run goes through. -/
theorem exists_exec {step : σ → α → Option σ} {Inv : σ → Prop}
    (hstep : ∀ s a, Inv s → ∃ t, step s a = some t ∧ Inv t) :
    ∀ (as : List α) {s : σ}, Inv s → ∃ t, exec step s as = some t
  | [], s, _ => ⟨s, rfl⟩
  | a :: as, s, hs => by
    obtain ⟨t, ht, hinv⟩ := hstep s a hs
    obtain ⟨u, hu⟩ := exists_exec hstep as hinv
    exact ⟨u, exec_cons_iff.2 ⟨t, ht, hu⟩⟩

/-- If every step in `p` takes from a rank that no step adds to, a run has only so many of
them. -/
theorem exec_countP_le {step : σ → α → Option σ} {Inv : σ → Prop} {rank : σ → ℕ} {p : α → Bool}
    (hstep : ∀ s a t, Inv s → step s a = some t →
      Inv t ∧ rank t ≤ rank s ∧ (p a = true → rank t < rank s)) :
    ∀ {as : List α} {s t : σ}, Inv s → exec step s as = some t → as.countP p + rank t ≤ rank s
  | [], _, _, _, h => by
    cases h
    simp
  | a :: as, s, t, hs, h => by
    obtain ⟨u, hu, h⟩ := exec_cons_iff.1 h
    obtain ⟨hinv, hle, hlt⟩ := hstep s a u hs hu
    have hrest := exec_countP_le hstep hinv h
    rw [List.countP_cons]
    split_ifs with ha
    · have := hlt ha
      omega
    · omega

/-- A measure to which a step `a` adds at most `w a`. -/
theorem exec_le_sum {step : σ → α → Option σ} {m : σ → ℕ} {w : α → ℕ}
    (hstep : ∀ s a t, step s a = some t → m t ≤ m s + w a) :
    ∀ {as : List α} {s t : σ}, exec step s as = some t → m t ≤ m s + (as.map w).sum
  | [], _, _, h => by
    cases h
    simp
  | a :: as, s, t, h => by
    obtain ⟨u, hu, h⟩ := exec_cons_iff.1 h
    have := hstep s a u hu
    have := exec_le_sum hstep h
    rw [List.map_cons, List.sum_cons]
    omega

/-! ## Histories -/

/-- What holds of the start, and of a run with one more step if it holds of the run. -/
theorem exec_history {step : σ → α → Option σ} {ok : σ → α → Prop} {P : List α → σ → Prop}
    {s₀ : σ} (hstart : P [] s₀)
    (hstep : ∀ as s a t, exec step s₀ as = some s → P as s → ok s a → step s a = some t →
      P (as ++ [a]) t) {as : List α} {s : σ} (hok : Guarded step ok s₀ as)
    (h : exec step s₀ as = some s) : P as s := by
  induction as using List.reverseRecOn generalizing s with
  | nil =>
    cases h
    exact hstart
  | append_singleton as a ih =>
    obtain ⟨t, ht, hs⟩ := exec_snoc_iff.1 h
    exact hstep as t a s ht (ih hok.of_append ht) (hok.of_snoc ht) hs

/-- Every entry is one that `P` allows after the entries before it. -/
def Historic (P : List α → α → Prop) (history : List α) : Prop :=
  ∀ pre e post, history = pre ++ e :: post → P pre e

theorem historic_nil (P : List α → α → Prop) : Historic P [] := by
  intro pre e post h
  simp at h

theorem Historic.snoc {P : List α → α → Prop} {history : List α} {e : α} (h : Historic P history)
    (he : P history e) : Historic P (history ++ [e]) := by
  intro pre f post heq
  rcases List.eq_nil_or_concat post with rfl | ⟨post, g, rfl⟩
  · obtain ⟨rfl, hf⟩ := List.append_inj' heq rfl
    cases hf
    exact he
  · rw [List.concat_eq_append, ← List.cons_append, ← List.append_assoc] at heq
    exact h pre f post (List.append_inj' heq rfl).1

end Ridgeline
