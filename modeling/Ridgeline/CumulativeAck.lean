import Mathlib.Data.List.Induction
import Mathlib.Order.Lattice

/-!
# Cumulative acks over individual verdicts

A receiver takes items with keys from a linear order. It keeps the largest key it has
accepted, starting from a baseline, and drops an item at or below that key as a
duplicate. Any other item gets a verdict of its own. An accepted item moves the key, a
rejected one leaves no trace, and every answer acknowledges all keys up to the kept one.

The answers are sound when every item they cover was accepted. That is so exactly when
no accepted item overtakes another item that is not accepted before it
(`acksSound_iff`).
-/

namespace Ridgeline

/-- An item as it arrives : its key, and the verdict it gets if it is asked for. -/
structure Arrival (κ : Type*) where
  key : κ
  passes : Bool
  deriving DecidableEq, Repr

/-- The kept key and the accepted keys, in order. -/
structure Receiver (κ : Type*) where
  last : κ
  accepted : List κ
  deriving DecidableEq, Repr

namespace Receiver

variable {κ : Type*} [LinearOrder κ]

/-- Take one item. -/
def receive (r : Receiver κ) (a : Arrival κ) : Receiver κ :=
  if a.key ≤ r.last then r
  else if a.passes then ⟨a.key, r.accepted ++ [a.key]⟩
  else r

/-- The item is answered with an ack of everything up to the kept key. -/
def Answers (r : Receiver κ) (a : Arrival κ) : Prop :=
  a.key ≤ r.last ∨ a.passes

/-- Take the items `as`. -/
def receiveAll (r : Receiver κ) (as : List (Arrival κ)) : Receiver κ :=
  as.foldl receive r

/-- The receiver after `as`, from the baseline `b`. -/
def run (b : κ) (as : List (Arrival κ)) : Receiver κ :=
  receiveAll ⟨b, []⟩ as

/-- Every item above the baseline that the ack `n` covers has been accepted. -/
def Covers (b n : κ) (arrived : List (Arrival κ)) (accepted : List κ) : Prop :=
  ∀ e ∈ arrived, b < e.key → e.key ≤ n → e.key ∈ accepted

/-- Every ack along `as` is sound. -/
def AcksSound (b : κ) (as : List (Arrival κ)) : Prop :=
  ∀ pre a post, as = pre ++ a :: post → (run b pre).Answers a →
    Covers b (run b (pre ++ [a])).last (pre ++ [a]) (run b (pre ++ [a])).accepted

/-- When an item that passes arrives, every item of `as` between the baseline and it has
arrived and passed before. -/
def NoOvertake (b : κ) (as : List (Arrival κ)) : Prop :=
  ∀ pre j post, as = pre ++ j :: post → j.passes →
    ∀ e ∈ as, b < e.key → e.key < j.key → ∃ f ∈ pre, f.passes ∧ f.key = e.key

/-! ## The kept key and the accepted keys -/

theorem run_snoc (b : κ) (as : List (Arrival κ)) (a : Arrival κ) :
    run b (as ++ [a]) = (run b as).receive a := by
  simp [run, receiveAll]

theorem last_receive (r : Receiver κ) (a : Arrival κ) : (r.receive a).last =
    if a.key ≤ r.last then r.last else if a.passes then a.key else r.last := by
  unfold receive
  split_ifs <;> rfl

theorem accepted_receive (r : Receiver κ) (a : Arrival κ) : (r.receive a).accepted =
    if r.last < a.key ∧ a.passes then r.accepted ++ [a.key] else r.accepted := by
  unfold receive
  by_cases hle : a.key ≤ r.last
  · simp [hle, not_lt.2 hle]
  · by_cases hpass : a.passes <;> simp [hle, hpass, not_le.1 hle]

theorem le_last_receive (r : Receiver κ) (a : Arrival κ) : r.last ≤ (r.receive a).last := by
  unfold receive
  split_ifs with hle
  · exact le_refl _
  · exact (not_le.1 hle).le
  · exact le_refl _

theorem key_le_last_receive (r : Receiver κ) {a : Arrival κ} (h : r.Answers a) :
    a.key ≤ (r.receive a).last := by
  unfold receive
  split_ifs with hle hpass
  · exact hle
  · exact le_refl _
  · exact (h.elim hle hpass).elim

/-- What is accepted by `receiveAll` is added behind, and is above the kept key. -/
theorem receiveAll_accepted : ∀ (as : List (Arrival κ)) (r : Receiver κ),
    ∃ ks, (r.receiveAll as).accepted = r.accepted ++ ks ∧ r.last ≤ (r.receiveAll as).last ∧
      ∀ k ∈ ks, r.last < k
  | [], r => ⟨[], by simp [receiveAll], le_refl _, nofun⟩
  | a :: as, r => by
    obtain ⟨ks, hacc, hlast, hks⟩ := receiveAll_accepted as (r.receive a)
    have hle := le_last_receive r a
    rw [receiveAll, List.foldl_cons, ← receiveAll]
    by_cases hnew : a.key ≤ r.last ∨ a.passes = false
    · have hsame : r.receive a = r := by
        unfold receive
        rcases hnew with h | h <;> simp [h]
      refine ⟨ks, ?_, hle.trans hlast, fun k hk => hle.trans_lt (hks k hk)⟩
      rw [hacc, hsame]
    · obtain ⟨hlt, hpass⟩ := not_or.1 hnew
      have hacc' : (r.receive a).accepted = r.accepted ++ [a.key] := by
        simp [receive, hlt, Bool.of_not_eq_false hpass]
      refine ⟨a.key :: ks, by rw [hacc, hacc']; simp, hle.trans hlast, ?_⟩
      rintro k (_ | ⟨_, hk⟩)
      · exact not_le.1 hlt
      · exact hle.trans_lt (hks k hk)

theorem run_append (b : κ) (as bs : List (Arrival κ)) :
    run b (as ++ bs) = (run b as).receiveAll bs := by
  simp [run, receiveAll]

theorem last_le_of_append (b : κ) (as bs : List (Arrival κ)) :
    (run b as).last ≤ (run b (as ++ bs)).last := by
  rw [run_append]
  exact (receiveAll_accepted bs (run b as)).choose_spec.2.1

/-- A key accepted by the end that is not above the key kept now is accepted now. -/
theorem mem_accepted_of_le_last {b k : κ} {as bs : List (Arrival κ)}
    (h : k ∈ (run b (as ++ bs)).accepted) (hk : k ≤ (run b as).last) : k ∈ (run b as).accepted := by
  obtain ⟨ks, hacc, -, hks⟩ := receiveAll_accepted bs (run b as)
  rw [run_append, hacc] at h
  exact (List.mem_append.1 h).resolve_right fun hmem => (hks k hmem).not_ge hk

/-- What has passed and arrived is at most the kept key. -/
theorem key_le_last {b : κ} {as : List (Arrival κ)} {a : Arrival κ} (ha : a ∈ as)
    (hpass : a.passes) : a.key ≤ (run b as).last := by
  obtain ⟨pre, post, rfl⟩ := List.append_of_mem ha
  rw [List.append_cons]
  refine le_trans ?_ (last_le_of_append b (pre ++ [a]) post)
  rw [run_snoc]
  exact key_le_last_receive _ (.inr hpass)

theorem exists_of_mem_accepted {b k : κ} {as : List (Arrival κ)}
    (h : k ∈ (run b as).accepted) : ∃ f ∈ as, f.passes ∧ f.key = k := by
  induction as using List.reverseRecOn with
  | nil => simp [run, receiveAll] at h
  | append_singleton as a ih =>
    have hold : k ∈ (run b as).accepted → ∃ f ∈ as ++ [a], f.passes ∧ f.key = k := fun hk => by
      obtain ⟨f, hf, hpass, hkey⟩ := ih hk
      exact ⟨f, List.mem_append_left _ hf, hpass, hkey⟩
    rw [run_snoc, receive] at h
    split_ifs at h with hle hpass
    · exact hold h
    · rcases List.mem_append.1 h with h | h
      · exact hold h
      · exact ⟨a, by simp, hpass, (List.mem_singleton.1 h).symm⟩
    · exact hold h

/-- The kept key is the baseline or has been accepted. -/
theorem last_mem_accepted (b : κ) (as : List (Arrival κ)) :
    (run b as).last = b ∨ (run b as).last ∈ (run b as).accepted := by
  induction as using List.reverseRecOn with
  | nil => exact .inl rfl
  | append_singleton as a ih =>
    rw [run_snoc, receive]
    split_ifs with hle hpass
    · exact ih
    · exact .inr (by simp)
    · exact ih

/-! ## Soundness of the acks -/

/-- Without overtaking, an item that passes is accepted, now or by an earlier copy. -/
theorem mem_accepted_of_passes {b : κ} {as : List (Arrival κ)} (h : NoOvertake b as) :
    ∀ {pre post : List (Arrival κ)}, as = pre ++ post → ∀ f ∈ pre, f.passes → b < f.key →
      f.key ∈ (run b pre).accepted := by
  intro pre
  induction pre using List.reverseRecOn with
  | nil => nofun
  | append_singleton pre j ih =>
    intro post has f hf hpass hb
    rw [List.append_assoc, List.singleton_append] at has
    have hkeep : ∀ k ∈ (run b pre).accepted, k ∈ (run b (pre ++ [j])).accepted := fun k hk => by
      obtain ⟨ks, hacc, -⟩ := receiveAll_accepted [j] (run b pre)
      rw [run_append, hacc]
      exact List.mem_append_left _ hk
    rcases List.mem_append.1 hf with hf | hf
    · exact hkeep _ (ih has f hf hpass hb)
    obtain rfl := List.mem_singleton.1 hf
    by_cases hle : f.key ≤ (run b pre).last
    · refine hkeep _ ?_
      have hlast := (last_mem_accepted b pre).resolve_left (hb.trans_le hle).ne'
      rcases hle.eq_or_lt with heq | hlt
      · exact heq ▸ hlast
      · obtain ⟨g, hg, hgpass, hgkey⟩ := exists_of_mem_accepted hlast
        obtain ⟨pre', mid, rfl⟩ := List.append_of_mem hg
        obtain ⟨f', hf', hpass', hkey'⟩ := h pre' g (mid ++ f :: post) (by simpa using has) hgpass f
          (by simp [has]) hb (hgkey ▸ hlt)
        have := ih has f' (List.mem_append_left _ hf') hpass' (hkey' ▸ hb)
        rwa [hkey'] at this
    · rw [run_snoc, receive, if_neg hle, if_pos hpass]
      exact List.mem_append_right _ (List.mem_singleton_self _)

theorem acksSound_of_noOvertake {b : κ} {as : List (Arrival κ)} (h : NoOvertake b as) :
    AcksSound b as := by
  intro pre a post has _ e he hb hle
  rw [List.append_cons] at has
  have hlast := (last_mem_accepted b (pre ++ [a])).resolve_left (hb.trans_le hle).ne'
  rcases hle.eq_or_lt with heq | hlt
  · exact heq ▸ hlast
  · obtain ⟨g, hg, hgpass, hgkey⟩ := exists_of_mem_accepted hlast
    obtain ⟨pre', mid, hsplit⟩ := List.append_of_mem hg
    obtain ⟨f, hf, hpass, hkey⟩ := h pre' g (mid ++ post) (by rw [has, hsplit]; simp) hgpass e
      (by rw [has]; exact List.mem_append_left _ he) hb (hgkey ▸ hlt)
    have hmem : f ∈ pre ++ [a] := by
      rw [hsplit]
      exact List.mem_append_left _ hf
    exact hkey ▸ mem_accepted_of_passes h has f hmem hpass (hkey ▸ hb)

theorem noOvertake_of_acksSound {b : κ} {as : List (Arrival κ)} (h : AcksSound b as) :
    NoOvertake b as := by
  intro pre j post has hpass e he hb hlt
  have hj : j.key ≤ (run b (pre ++ [j])).last := key_le_last (by simp) hpass
  -- in both orders of arrival `e` is accepted before `j` is
  have hbefore : e.key ∈ (run b (pre ++ [j])).accepted → ∃ f ∈ pre, f.passes ∧ f.key = e.key := by
    intro hmem
    rw [run_snoc, receive] at hmem
    split_ifs at hmem
    · exact exists_of_mem_accepted hmem
    · refine exists_of_mem_accepted ((List.mem_append.1 hmem).resolve_right fun h => ?_)
      exact hlt.ne (List.mem_singleton.1 h)
  apply hbefore
  rw [has, List.append_cons] at he
  rcases List.mem_append.1 he with he | he
  · exact h pre j post has (.inr hpass) e he hb (hlt.le.trans hj)
  · obtain ⟨mid, post', rfl⟩ := List.append_of_mem he
    have hdup : e.key ≤ (run b (pre ++ [j] ++ mid)).last :=
      hlt.le.trans (hj.trans (last_le_of_append _ _ _))
    have hcov := h (pre ++ [j] ++ mid) e post' (by simp [has]) (.inl hdup) e (by simp) hb
      (hdup.trans (last_le_of_append _ _ _))
    rw [List.append_assoc (pre ++ [j])] at hcov
    exact mem_accepted_of_le_last hcov (hlt.le.trans hj)

/-- The acks are sound exactly when nothing that passes overtakes an item that has not
passed before it. -/
theorem acksSound_iff {b : κ} {as : List (Arrival κ)} : AcksSound b as ↔ NoOvertake b as :=
  ⟨noOvertake_of_acksSound, acksSound_of_noOvertake⟩

end Receiver

end Ridgeline
