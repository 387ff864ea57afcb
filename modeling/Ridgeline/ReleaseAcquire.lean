import Mathlib.Data.List.Pairwise
import Mathlib.Logic.Function.Basic
import Mathlib.Order.Lattice
import Mathlib.Order.Nat

/-!
# Release/acquire memory

Atomics that each have one writer, and plain cells, in the view semantics of release/acquire.
A store appends a message to the history of its atomic, and a load reads any message that is
not older than what its thread has seen. A view counts, for every atomic, the messages before
the newest one seen, and for every cell the accesses that happen before. A release store puts
the view of its thread into the message, and an acquire load takes the view of its message
over; relaxed ones do not.

An access to a cell races if an earlier access to it does not happen before (`access`). Reads
and writes of cells are not told apart, which finds more races than there are.

Views never shrink, so what a proof has to carry along are lower bounds on them. The messages
of a writer that only releases carry growing views (`Writer`).
-/

set_option linter.unusedSectionVars false

namespace Ridgeline

/-- What is known of the atomics `ι` and the cells `κ`. -/
abbrev View (ι κ : Type*) := ι ⊕ κ → ℕ

/-- A message of an atomic, with the view that an acquire load takes over. -/
structure Message (V ι κ : Type*) where
  value : V
  view : View ι κ

/-- The histories of the atomics, the cells and how often each was accessed, the views of the
threads, and whether an access has raced. -/
structure RaMemory (τ ι κ V α : Type*) where
  history : ι → List (Message V ι κ)
  cells : κ → α
  accesses : κ → ℕ
  views : τ → View ι κ
  raced : Bool

namespace RaMemory

variable {τ ι κ V α : Type*} [DecidableEq τ] [DecidableEq ι] [DecidableEq κ]

/-- Every atomic has its initial message, and nothing was accessed. -/
def start (values : ι → V) (cells : κ → α) : RaMemory τ ι κ V α where
  history i := [⟨values i, ⊥⟩]
  cells := cells
  accesses _ := 0
  views _ := ⊥
  raced := false

variable (m : RaMemory τ ι κ V α)

/-- The thread learns `view`. -/
def see (t : τ) (view : View ι κ) : RaMemory τ ι κ V α :=
  { m with views := Function.update m.views t (m.views t ⊔ view) }

/-- A load of the atomic `i`, which reads the `k`-th message. -/
def load (acquire : Bool) (t : τ) (i : ι) (k : ℕ) : Option (V × RaMemory τ ι κ V α) :=
  if m.views t (.inl i) ≤ k then
    (m.history i)[k]?.map fun msg =>
      (msg.value, m.see t (Function.update ⊥ (.inl i) k ⊔ if acquire then msg.view else ⊥))
  else none

/-- A store to the atomic `i`, of which the thread is the writer. -/
def store (release : Bool) (t : τ) (i : ι) (v : V) : RaMemory τ ι κ V α :=
  let m' := m.see t (Function.update ⊥ (.inl i) (m.history i).length)
  { m' with
    history := Function.update m.history i
      (m.history i ++ [⟨v, if release then m'.views t else ⊥⟩]) }

/-- An access to the cell `x`, which leaves `v` in it. -/
def access (t : τ) (x : κ) (v : α) : RaMemory τ ι κ V α :=
  { m.see t (Function.update ⊥ (.inr x) (m.accesses x + 1)) with
    cells := Function.update m.cells x v
    accesses := Function.update m.accesses x (m.accesses x + 1)
    raced := m.raced || decide (m.views t (.inr x) < m.accesses x) }

/-- No view is ahead of the histories. -/
structure Bounded : Prop where
  views : ∀ t i, m.views t (.inl i) < (m.history i).length
  messages : ∀ j, ∀ msg ∈ m.history j, ∀ i, msg.view (.inl i) < (m.history i).length

/-- The thread `w` has released all messages of the atomic `i`. -/
structure Writer (w : τ) (i : ι) : Prop where
  length_le : (m.history i).length ≤ m.views w (.inl i) + 1
  view_le : ∀ msg ∈ m.history i, msg.view ≤ m.views w
  mono : (m.history i).Pairwise fun a b => a.view ≤ b.view

variable {m} {t w : τ} {i j : ι} {k : ℕ} {x : κ} {v : α}

/-! ## Views -/

theorem views_see (t : τ) (view : View ι κ) : (m.see t view).views t = m.views t ⊔ view :=
  Function.update_self ..

theorem views_see_of_ne {u : τ} (h : u ≠ t) (view : View ι κ) :
    (m.see t view).views u = m.views u :=
  Function.update_of_ne h ..

theorem le_views_see (t u : τ) (view : View ι κ) : m.views u ≤ (m.see t view).views u := by
  by_cases h : u = t
  · subst h
    exact views_see u view ▸ le_sup_left
  · exact (views_see_of_ne h view).ge

theorem view_le_views_see (t : τ) (view : View ι κ) : view ≤ (m.see t view).views t :=
  views_see t view ▸ le_sup_right

theorem Bounded.see (hm : m.Bounded) {view : View ι κ}
    (hview : ∀ i, view (.inl i) < (m.history i).length) (t : τ) : (m.see t view).Bounded where
  views u i := by
    by_cases h : u = t
    · subst h
      rw [views_see, Pi.sup_apply]
      exact max_lt (hm.views u i) (hview i)
    · rw [views_see_of_ne h]
      exact hm.views u i
  messages := hm.messages

theorem Writer.see (hm : m.Writer w i) (t : τ) (view : View ι κ) : (m.see t view).Writer w i where
  length_le := hm.length_le.trans (Nat.add_le_add_right (le_views_see t w view _) 1)
  view_le msg hmsg := (hm.view_le msg hmsg).trans (le_views_see t w view)
  mono := hm.mono

/-! ## Loads -/

/-- What a load does. -/
theorem exists_of_load {acquire : Bool} {r : V × RaMemory τ ι κ V α}
    (h : m.load acquire t i k = some r) : m.views t (.inl i) ≤ k ∧ ∃ msg,
      (m.history i)[k]? = some msg ∧ r.1 = msg.value ∧
        r.2 = m.see t (Function.update ⊥ (.inl i) k ⊔ if acquire then msg.view else ⊥) := by
  rw [load] at h
  split at h
  · next hk =>
    obtain ⟨msg, hmsg, rfl⟩ := Option.map_eq_some_iff.1 h
    exact ⟨hk, msg, hmsg, rfl, rfl⟩
  · cases h

/-- After a load the thread has seen its message. -/
theorem le_views_load {view : View ι κ} :
    k ≤ (m.see t (Function.update ⊥ (.inl i) k ⊔ view)).views t (.inl i) := by
  refine le_trans ?_ (view_le_views_see t _ (.inl i))
  rw [Pi.sup_apply, Function.update_self]
  exact le_sup_left

theorem Bounded.load (hm : m.Bounded) {msg : Message V ι κ} (hmsg : (m.history i)[k]? = some msg)
    (acquire : Bool) (t : τ) :
    (m.see t (Function.update ⊥ (.inl i) k ⊔ if acquire then msg.view else ⊥)).Bounded := by
  have hpos : ∀ j, 0 < (m.history j).length := fun j => (Nat.zero_le _).trans_lt (hm.views t j)
  refine hm.see (fun j => ?_) t
  rw [Pi.sup_apply]
  refine max_lt ?_ ?_
  · by_cases hj : j = i
    · subst hj
      rw [Function.update_self]
      exact (List.getElem?_eq_some_iff.1 hmsg).1
    · rw [Function.update_of_ne (by simpa using hj)]
      exact hpos j
  · cases acquire with
    | true => exact hm.messages i msg (List.mem_of_getElem? hmsg) j
    | false => exact hpos j

/-- A writer that loads its own atomic reads the last message. -/
theorem Writer.load_own (hm : m.Writer w i) {msg : Message V ι κ}
    (hk : m.views w (.inl i) ≤ k) (hmsg : (m.history i)[k]? = some msg) :
    k + 1 = (m.history i).length := by
  have := hm.length_le
  have := (List.getElem?_eq_some_iff.1 hmsg).1
  omega

/-- Later messages carry larger views. -/
theorem Writer.view_mono (hm : m.Writer w i) {a b : Message V ι κ} {j k : ℕ} (hjk : j ≤ k)
    (ha : (m.history i)[j]? = some a) (hb : (m.history i)[k]? = some b) : a.view ≤ b.view := by
  obtain ⟨hj, rfl⟩ := List.getElem?_eq_some_iff.1 ha
  obtain ⟨hk, rfl⟩ := List.getElem?_eq_some_iff.1 hb
  rcases Nat.lt_or_eq_of_le hjk with hlt | rfl
  · exact List.pairwise_iff_getElem.1 hm.mono j k hj hk hlt
  · exact le_rfl

/-! ## Stores and accesses -/

@[simp] theorem history_store (release : Bool) (t : τ) (i : ι) (v : V) :
    (m.store release t i v).history i = m.history i ++ [⟨v, if release then
      (m.see t (Function.update ⊥ (.inl i) (m.history i).length)).views t else ⊥⟩] :=
  Function.update_self ..

theorem history_store_of_ne (hij : j ≠ i) (release : Bool) (t : τ) (v : V) :
    (m.store release t i v).history j = m.history j :=
  Function.update_of_ne hij ..

theorem le_views_store (release : Bool) (t u : τ) (i : ι) (v : V) :
    m.views u ≤ (m.store release t i v).views u :=
  le_views_see t u _

theorem length_le_history_store (release : Bool) (t : τ) (i j : ι) (v : V) :
    (m.history j).length ≤ ((m.store release t i v).history j).length := by
  by_cases hij : j = i
  · subst hij
    simp
  · rw [history_store_of_ne hij]

theorem Bounded.store (hm : m.Bounded) (release : Bool) (t : τ) (i : ι) (v : V) :
    (m.store release t i v).Bounded := by
  have hgrow := length_le_history_store (m := m) release t i (v := v)
  have hviews : ∀ u j, (m.store release t i v).views u (.inl j) <
      ((m.store release t i v).history j).length := by
    intro u j
    have hold := (hm.views u j).trans_le (hgrow j)
    change (m.see t _).views u (.inl j) < _
    by_cases hu : u = t
    · subst hu
      rw [views_see, Pi.sup_apply]
      refine max_lt hold ?_
      by_cases hj : j = i
      · subst hj
        rw [history_store, Function.update_self, List.length_append]
        exact Nat.lt_succ_self _
      · rw [Function.update_of_ne (by simpa using hj)]
        exact (Nat.zero_le _).trans_lt hold
    · rwa [views_see_of_ne hu]
  refine ⟨hviews, fun j msg hmsg i' => ?_⟩
  by_cases hj : j = i
  · subst hj
    rw [history_store, List.mem_append, List.mem_singleton] at hmsg
    rcases hmsg with hmsg | rfl
    · exact (hm.messages j msg hmsg i').trans_le (hgrow i')
    · cases release with
      | true => exact hviews t i'
      | false => exact (Nat.zero_le _).trans_lt (hviews t i')
  · rw [history_store_of_ne hj] at hmsg
    exact (hm.messages j msg hmsg i').trans_le (hgrow i')

/-- A release store of the writer. -/
theorem Writer.store (hm : m.Writer w i) (v : V) : (m.store true w i v).Writer w i where
  length_le := by
    rw [history_store, List.length_append, List.length_singleton]
    refine Nat.add_le_add_right (le_trans ?_ (view_le_views_see w _ (.inl i))) 1
    rw [Function.update_self]
  view_le msg hmsg := by
    rw [history_store, List.mem_append, List.mem_singleton] at hmsg
    rcases hmsg with hmsg | rfl
    · exact (hm.view_le msg hmsg).trans (le_views_store true w w i v)
    · exact le_rfl
  mono := by
    rw [history_store, List.pairwise_append]
    refine ⟨hm.mono, List.pairwise_singleton _ _, fun a ha b hb => ?_⟩
    rw [List.mem_singleton.1 hb]
    exact (hm.view_le a ha).trans (le_views_see w w _)

/-- A store to another atomic. -/
theorem Writer.store_of_ne (hm : m.Writer w j) (hij : j ≠ i) (release : Bool) (t : τ) (v : V) :
    (m.store release t i v).Writer w j where
  length_le := by
    rw [history_store_of_ne hij]
    exact hm.length_le.trans (Nat.add_le_add_right (le_views_store release t w i v _) 1)
  view_le msg hmsg := by
    rw [history_store_of_ne hij] at hmsg
    exact (hm.view_le msg hmsg).trans (le_views_store release t w i v)
  mono := by
    rw [history_store_of_ne hij]
    exact hm.mono

theorem le_views_access (t u : τ) (x : κ) (v : α) : m.views u ≤ (m.access t x v).views u :=
  le_views_see t u _

theorem Bounded.access (hm : m.Bounded) (t : τ) (x : κ) (v : α) : (m.access t x v).Bounded := by
  have hsee : (m.see t (Function.update ⊥ (.inr x) (m.accesses x + 1))).Bounded :=
    hm.see (fun i => by simpa using (Nat.zero_le _).trans_lt (hm.views t i)) t
  exact ⟨hsee.views, hsee.messages⟩

theorem Writer.access (hm : m.Writer w i) (t : τ) (x : κ) (v : α) :
    (m.access t x v).Writer w i where
  length_le := (hm.see t _).length_le
  view_le := (hm.see t _).view_le
  mono := hm.mono

/-- After an access its thread knows all accesses. -/
theorem accesses_access_le : (m.access t x v).accesses x ≤ (m.access t x v).views t (.inr x) := by
  refine le_trans ?_ (view_le_views_see t _ (.inr x))
  simp [RaMemory.access]

theorem accesses_access_of_ne {y : κ} (h : y ≠ x) :
    (m.access t x v).accesses y = m.accesses y :=
  Function.update_of_ne h ..

/-- A thread that knows all accesses does not race. -/
theorem raced_access (h : m.accesses x ≤ m.views t (.inr x)) :
    (m.access t x v).raced = m.raced := by
  simp [RaMemory.access, h]

end RaMemory

end Ridgeline
