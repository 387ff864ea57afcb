import Mathlib.Data.Finset.Max
import Mathlib.Data.List.Pairwise
import Mathlib.Data.List.Perm.Basic

/-!
# Greedy selection

Elements with scores, some of which are in conflict. A `Selection` from a list has no two elements
in conflict, and every element that was left out is in conflict with one that was not, of at least
its score.

Going through the list from the highest score down, and keeping what is not in conflict with
something kept before, gives one (`selection_greedy`). If no two scores are the same there is no
other (`Selection.perm`), so the order of the list does not matter.
-/

namespace Ridgeline

variable {α β : Type*} (conflict : α → α → Prop)

/-- `a` is kept unless it is in conflict with something kept before. -/
def keepNext [DecidableRel conflict] (kept : List α) (a : α) : List α :=
  if ∃ k ∈ kept, conflict a k then kept else kept ++ [a]

/-- What is kept of a list. -/
def greedy [DecidableRel conflict] (l : List α) : List α :=
  l.foldl (keepNext conflict) []

/-- `ks` is a selection from `l` : no two are in conflict, and each of the others is in conflict
with one of them that has at least its score. -/
structure Selection [LE β] (score : α → β) (l ks : List α) : Prop where
  compatible : ks.Pairwise fun a b => ¬ conflict a b
  dominated : ∃ rest, (ks ++ rest).Perm l ∧ ∀ a ∈ rest, ∃ k ∈ ks, conflict a k ∧ score a ≤ score k

variable {conflict}

/-! ## The scan -/

namespace Selection

variable [LE β] {score : α → β} {l ks : List α} {a : α}

/-- One more element, in conflict with one that was kept. -/
theorem skip (h : Selection conflict score l ks) {k : α} (hk : k ∈ ks) (hak : conflict a k)
    (hscore : score a ≤ score k) : Selection conflict score (l ++ [a]) ks := by
  obtain ⟨rest, hperm, hdom⟩ := h.dominated
  refine ⟨h.compatible, rest ++ [a], ?_, List.forall_mem_append.2 ⟨hdom, ?_⟩⟩
  · rw [← List.append_assoc]
    exact hperm.append_right [a]
  · exact List.forall_mem_singleton.2 ⟨k, hk, hak, hscore⟩

/-- One more element, in conflict with none. -/
theorem keep (h : Selection conflict score l ks) (ha : ∀ k ∈ ks, ¬ conflict k a) :
    Selection conflict score (l ++ [a]) (ks ++ [a]) := by
  obtain ⟨rest, hperm, hdom⟩ := h.dominated
  refine ⟨?_, rest, ?_, fun b hb => ?_⟩
  · refine List.pairwise_append.2 ⟨h.compatible, List.pairwise_singleton _ _, fun k hk b hb => ?_⟩
    rw [List.mem_singleton.1 hb]
    exact ha k hk
  · rw [List.append_assoc]
    have hswap : (ks ++ ([a] ++ rest)).Perm (ks ++ rest ++ [a]) := by
      rw [List.append_assoc]
      exact List.perm_append_comm.append_left ks
    exact hswap.trans (hperm.append_right [a])
  · obtain ⟨k, hk, hbk⟩ := hdom b hb
    exact ⟨k, List.mem_append_left _ hk, hbk⟩

end Selection

section

variable [DecidableRel conflict]

theorem greedy_sublist (l : List α) : (greedy conflict l).Sublist l := by
  induction l using List.reverseRecOn with
  | nil => exact .slnil
  | append_singleton l a ih =>
    rw [greedy, List.foldl_concat, keepNext]
    split_ifs
    · exact ih.trans (List.sublist_append_left l [a])
    · exact ih.append (.refl [a])

/-- From the highest score down, the scan makes a selection. -/
theorem selection_greedy [Std.Symm conflict] [LinearOrder β] {score : α → β} {l : List α}
    (hl : l.Pairwise fun a b => score b ≤ score a) :
    Selection conflict score l (greedy conflict l) := by
  induction l using List.reverseRecOn with
  | nil => exact ⟨.nil, [], .refl _, nofun⟩
  | append_singleton l a ih =>
    obtain ⟨hl, -, hlast⟩ := List.pairwise_append.1 hl
    rw [greedy, List.foldl_concat, ← greedy, keepNext]
    split_ifs with hconflict
    · obtain ⟨k, hk, hak⟩ := hconflict
      exact (ih hl).skip hk hak (hlast k ((greedy_sublist l).subset hk) a (by simp))
    · exact (ih hl).keep fun k hk h => hconflict ⟨k, hk, symm h⟩

end

/-! ## Uniqueness -/

namespace Selection

variable [LinearOrder β] {score : α → β} {l ks ks' : List α}

theorem subset (h : Selection conflict score l ks) : ks ⊆ l := by
  obtain ⟨rest, hperm, -⟩ := h.dominated
  exact fun a ha => hperm.subset (List.mem_append_left rest ha)

theorem nodup (h : Selection conflict score l ks) (hl : l.Nodup) : ks.Nodup := by
  obtain ⟨rest, hperm, -⟩ := h.dominated
  exact (List.nodup_append.1 (hperm.nodup_iff.2 hl)).1

/-- The selections from a list do not depend on its order. -/
theorem of_perm {l' : List α} (h : Selection conflict score l ks) (hl : l.Perm l') :
    Selection conflict score l' ks := by
  obtain ⟨rest, hperm, hdom⟩ := h.dominated
  exact ⟨h.compatible, rest, hperm.trans hl, hdom⟩

variable [Std.Symm conflict]

/-- If two selections agree on all higher scores, what one has the other has. -/
theorem mem_of_higher (hl : (l.map score).Nodup)
    (h : Selection conflict score l ks) (h' : Selection conflict score l ks') {a : α}
    (ha : a ∈ ks) (hhigher : ∀ b ∈ ks', score a < score b → b ∈ ks) : a ∈ ks' := by
  by_contra hout
  obtain ⟨rest, hperm, hdom⟩ := h'.dominated
  have hrest : a ∈ rest :=
    (List.mem_append.1 (hperm.symm.subset (h.subset ha))).resolve_left hout
  obtain ⟨k, hk, hak, hle⟩ := hdom a hrest
  have hne : k ≠ a := fun heq => hout (heq ▸ hk)
  have hlt : score a < score k := lt_of_le_of_ne hle fun heq =>
    hne (List.inj_on_of_nodup_map hl (h'.subset hk) (h.subset ha) heq.symm)
  have : Std.Symm fun a b => ¬ conflict a b := ⟨fun _ _ hab hba => hab (symm hba)⟩
  exact h.compatible.forall ha (hhigher k hk hlt) hne.symm hak

open Classical in
theorem mem_iff (hl : (l.map score).Nodup)
    (h : Selection conflict score l ks) (h' : Selection conflict score l ks') (a : α) :
    a ∈ ks ↔ a ∈ ks' := by
  by_contra hdiffer
  -- of the elements on which they differ, take one with the highest score
  obtain ⟨m, hm, hmax⟩ := Finset.exists_max_image
    ((ks ++ ks').toFinset.filter fun b => ¬ (b ∈ ks ↔ b ∈ ks')) score
    ⟨a, by simp only [Finset.mem_filter, List.mem_toFinset, List.mem_append]; tauto⟩
  have hhigher : ∀ b, score m < score b → (b ∈ ks ↔ b ∈ ks') := by
    intro b hlt
    by_contra hb
    refine absurd (hmax b ?_) (not_le.2 hlt)
    simp only [Finset.mem_filter, List.mem_toFinset, List.mem_append]
    tauto
  refine (Finset.mem_filter.1 hm).2 ⟨fun hmks => ?_, fun hmks => ?_⟩
  · exact mem_of_higher hl h h' hmks fun b hb hlt => (hhigher b hlt).2 hb
  · exact mem_of_higher hl h' h hmks fun b hb hlt => (hhigher b hlt).1 hb

/-- With distinct scores there is one selection. -/
theorem perm (hl : (l.map score).Nodup)
    (h : Selection conflict score l ks) (h' : Selection conflict score l ks') : ks.Perm ks' :=
  (List.perm_ext_iff_of_nodup (h.nodup hl.of_map) (h'.nodup hl.of_map)).2 (mem_iff hl h h')

/-- And one way to list it by score. -/
theorem eq_of_sorted (hl : (l.map score).Nodup)
    (h : Selection conflict score l ks) (h' : Selection conflict score l ks')
    (hks : ks.Pairwise fun a b => score b ≤ score a)
    (hks' : ks'.Pairwise fun a b => score b ≤ score a) : ks = ks' := by
  refine List.Perm.eq_of_pairwise (fun a b ha hb hab hba => ?_) hks hks' (perm hl h h')
  exact List.inj_on_of_nodup_map hl (h.subset ha) (h'.subset hb) (le_antisymm hba hab)

end Selection

end Ridgeline
