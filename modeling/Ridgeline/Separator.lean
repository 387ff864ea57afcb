import Mathlib.Data.List.Infix

/-!
# Texts joined by a separator

When `a ++ sep ++ b` determines `a` and `b`. A separator of one letter that is not in the
part before it, or not in the part behind it, splits in one way
(`append_cons_inj_left`, `append_cons_inj_right`). A longer separator whose first letter
does not come back in it cannot overlap itself, so a second split shows the separator
inside one of the parts (`append_separator_cases`), and conversely every occurrence in a
part gives a second split (`exists_other_split`).
-/

namespace Ridgeline

variable {α : Type*} {c : α} {a b a' b' w : List α}

/-- The letter `c` is not in the part before it : the split is at its first occurrence. -/
theorem append_cons_inj_left (ha : c ∉ a) (ha' : c ∉ a') (h : a ++ c :: b = a' ++ c :: b') :
    a = a' ∧ b = b' := by
  rcases List.append_eq_append_iff.1 h with ⟨z, hz, hcb⟩ | ⟨z, hz, hcb⟩
  · cases z with
    | nil => exact ⟨by simpa using hz.symm, by simpa using hcb⟩
    | cons x z =>
      obtain ⟨rfl, -⟩ := List.cons.inj hcb
      exact absurd (by simp [hz]) ha'
  · cases z with
    | nil => exact ⟨by simpa using hz, by simpa using hcb.symm⟩
    | cons x z =>
      obtain ⟨rfl, -⟩ := List.cons.inj hcb
      exact absurd (by simp [hz]) ha

/-- The letter `c` is not in the part behind it : the split is at its last occurrence. -/
theorem append_cons_inj_right (hb : c ∉ b) (hb' : c ∉ b') (h : a ++ c :: b = a' ++ c :: b') :
    a = a' ∧ b = b' := by
  have hrev := congrArg List.reverse h
  simp only [List.reverse_append, List.reverse_cons, List.append_assoc, List.singleton_append]
    at hrev
  obtain ⟨hb, ha⟩ := append_cons_inj_left (by simpa using hb) (by simpa using hb') hrev
  exact ⟨List.reverse_injective ha, List.reverse_injective hb⟩

/-- Two splits at a separator that cannot overlap itself are the same, or the separator is
inside one of the parts. -/
theorem append_separator_cases (hw : c ∉ w) (h : a ++ (c :: w ++ b) = a' ++ (c :: w ++ b')) :
    (a = a' ∧ b = b') ∨ c :: w <:+: a' ∨ c :: w <:+: b' := by
  -- what follows the first separator : the rest `z` of the longer part, then the second one
  have hover : ∀ {z x y : List α}, w ++ x = z ++ c :: (w ++ y) →
      (∃ u, z = w ++ u) ∧ ∃ u, x = u ++ c :: (w ++ y) := by
    intro z x y hzx
    rcases List.append_eq_append_iff.1 hzx with ⟨u, hz, hx⟩ | ⟨u, hwz, hu⟩
    · exact ⟨⟨u, hz⟩, u, hx⟩
    · cases u with
      | nil => exact ⟨⟨[], by simpa using hwz.symm⟩, [], by simpa using hu.symm⟩
      | cons d u =>
        obtain ⟨rfl, -⟩ := List.cons.inj hu
        exact absurd (by simp [hwz]) hw
  rcases List.append_eq_append_iff.1 h with ⟨z, hz, hcb⟩ | ⟨z, hz, hcb⟩
  · cases z with
    | nil => exact .inl ⟨by simpa using hz.symm, by simpa using hcb⟩
    | cons d z =>
      obtain ⟨rfl, hrest⟩ := List.cons.inj hcb
      obtain ⟨⟨u, rfl⟩, -⟩ := hover hrest
      exact .inr (.inl ⟨a, u, by simp [hz]⟩)
  · cases z with
    | nil => exact .inl ⟨by simpa using hz, by simpa using hcb.symm⟩
    | cons d z =>
      obtain ⟨rfl, hrest⟩ := List.cons.inj hcb
      obtain ⟨-, u, rfl⟩ := hover hrest
      exact .inr (.inr ⟨u, b, by simp⟩)

/-- A separator inside one of the parts gives another split. -/
theorem exists_other_split (h : c :: w <:+: a ∨ c :: w <:+: b) :
    ∃ a' b', a' ++ (c :: w ++ b') = a ++ (c :: w ++ b) ∧ a' ≠ a := by
  rcases h with ⟨u, v, rfl⟩ | ⟨u, v, rfl⟩
  · refine ⟨u, v ++ (c :: w ++ b), by simp, fun heq => ?_⟩
    have := congrArg List.length heq
    simp at this
  · refine ⟨a ++ (c :: w ++ u), v, by simp, fun heq => ?_⟩
    have := congrArg List.length heq
    simp at this

end Ridgeline
