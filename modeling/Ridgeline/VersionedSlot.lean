import Mathlib.Data.List.Induction
import Mathlib.Order.Lattice
import Ridgeline.Transition

/-!
# A slot for the newest version

A writer offers values that carry a version, and a consumer polls for them and applies what
it takes to a state of its own. The slot between them has room for one value : a newer offer
replaces it, taken or not.

The slot holds the newest value offered, so the versions taken increase (`SlotRun.Inv`,
`SlotRun.Inv.admits_iff`). Which of the older values are taken is up to the schedule, and it
may be any of them (`exists_schedule`). So the consumer's state does not depend on the
schedule exactly when the last value, applied behind any of the older ones, leaves what it
leaves alone (`scheduleIndependent_iff`). For a field that each value sets or keeps,
`foldl_keepOrSet_iff` says when that is so.
-/

namespace Ridgeline

variable {υ V π : Type*}

/-- The value in the slot, whether it is still to be taken, and the version last taken. -/
structure VersionedSlot (υ V : Type*) where
  pending : υ
  pendingSet : Bool
  applied : V
  deriving DecidableEq, Repr

/-- The slot, the state of the consumer, and the values offered and taken so far. -/
structure SlotRun (υ V π : Type*) where
  slot : VersionedSlot υ V
  state : π
  offered : List υ
  taken : List υ
  deriving DecidableEq, Repr

/-- A step of the writer or of the consumer. -/
inductive SlotAct (υ : Type*)
  | offer (u : υ)
  | poll
  deriving DecidableEq, Repr

/-- The values offered along a schedule. -/
def SlotAct.offers (as : List (SlotAct υ)) : List υ :=
  as.filterMap fun
    | .offer u => some u
    | .poll => none

variable [LinearOrder V] (version : υ → V) (apply : π → υ → π)

/-- The test for an offer : it is newer than the value in the slot, or that one is taken and
it is newer than the version taken. -/
def VersionedSlot.Admits (s : VersionedSlot υ V) (u : υ) : Prop :=
  version s.pending < version u ∨ (s.pendingSet = false ∧ s.applied < version u)

instance (s : VersionedSlot υ V) (u : υ) : Decidable (s.Admits version u) :=
  inferInstanceAs (Decidable (_ ∨ _))

namespace SlotRun

/-- One step. -/
def step (s : SlotRun υ V π) : SlotAct υ → Option (SlotRun υ V π)
  | .offer u =>
    some { s with
      slot :=
        if s.slot.Admits version u then { s.slot with pending := u, pendingSet := true }
        else s.slot
      offered := s.offered ++ [u] }
  | .poll =>
    if s.slot.pendingSet then
      some { s with
        slot := ⟨s.slot.pending, false, version s.slot.pending⟩
        state := apply s.state s.slot.pending
        taken := s.taken ++ [s.slot.pending] }
    else some s

/-- The value `first` has been taken already. -/
def start (first : υ) (x : π) : SlotRun υ V π :=
  ⟨⟨first, false, version first⟩, x, [], []⟩

/-! ## The versions taken increase -/

/-- The slot holds a value of the newest version offered, and the values taken are some of
those offered, in order and with increasing versions. -/
structure Inv (first : υ) (x : π) (s : SlotRun υ V π) : Prop where
  settled : s.slot.pendingSet = false → s.slot.applied = version s.slot.pending
  ahead : s.slot.pendingSet = true → s.slot.applied < version s.slot.pending
  newest : ∀ u ∈ first :: s.offered, version u ≤ version s.slot.pending
  pending_mem : s.slot.pending ∈ first :: s.offered
  increasing : (s.taken.map version).Pairwise (· < ·)
  last : s.slot.applied = version (s.taken.getLast?.getD first)
  between : ∀ u ∈ s.taken, version first < version u ∧ version u ≤ s.slot.applied
  sublist : (s.taken ++ if s.slot.pendingSet then [s.slot.pending] else []).Sublist s.offered
  state : s.state = s.taken.foldl apply x

theorem inv_start (first : υ) (x : π) : (start version first x).Inv version apply first x where
  settled := fun _ => rfl
  ahead := nofun
  newest := by simp [start]
  pending_mem := by simp [start]
  increasing := List.Pairwise.nil
  last := rfl
  between := by simp [start]
  sublist := by simp [start]
  state := rfl

variable {version apply} {first : υ} {x : π} {s t : SlotRun υ V π}

theorem Inv.applied_le (hs : s.Inv version apply first x) :
    s.slot.applied ≤ version s.slot.pending := by
  cases h : s.slot.pendingSet with
  | false => exact (hs.settled h).le
  | true => exact (hs.ahead h).le

theorem Inv.first_le (hs : s.Inv version apply first x) : version first ≤ s.slot.applied := by
  rw [hs.last]
  cases h : s.taken.getLast? with
  | none => exact le_rfl
  | some u => exact (hs.between u (List.mem_of_getLast? h)).1.le

theorem Inv.taken_sublist (hs : s.Inv version apply first x) : s.taken.Sublist s.offered :=
  (List.sublist_append_left _ _).trans hs.sublist

/-- An offer is stored exactly when it is newer than all before it. -/
theorem Inv.admits_iff (hs : s.Inv version apply first x) {u : υ} :
    s.slot.Admits version u ↔ ∀ w ∈ first :: s.offered, version w < version u := by
  constructor
  · intro h w hw
    refine (hs.newest w hw).trans_lt ?_
    rcases h with h | ⟨htaken, h⟩
    · exact h
    · rwa [← hs.settled htaken]
  · intro h
    exact .inl (h _ hs.pending_mem)

theorem Inv.offer (hs : s.Inv version apply first x) (u : υ) :
    Inv version apply first x { s with
      slot :=
        if s.slot.Admits version u then { s.slot with pending := u, pendingSet := true }
        else s.slot
      offered := s.offered ++ [u] } := by
  have hmem : ∀ w ∈ first :: (s.offered ++ [u]), w ∈ first :: s.offered ∨ w = u := by
    simp [or_assoc]
  by_cases h : s.slot.Admits version u
  · rw [if_pos h]
    have hnewer := hs.admits_iff.1 h
    refine { hs with settled := nofun, ahead := ?_, newest := ?_, pending_mem := ?_, sublist := ?_ }
    · exact fun _ => hs.applied_le.trans_lt (hnewer _ hs.pending_mem)
    · intro w hw
      rcases hmem w hw with hw | rfl
      · exact (hnewer w hw).le
      · exact le_rfl
    · simp
    · simpa using hs.taken_sublist
  · rw [if_neg h]
    refine { hs with newest := ?_, pending_mem := ?_, sublist := ?_ }
    · intro w hw
      rcases hmem w hw with hw | rfl
      · exact hs.newest w hw
      · exact not_lt.1 fun hlt => h (.inl hlt)
    · exact (by simp : first :: s.offered ⊆ first :: (s.offered ++ [u])) hs.pending_mem
    · exact hs.sublist.trans (List.sublist_append_left _ _)

theorem Inv.poll (hs : s.Inv version apply first x) (hset : s.slot.pendingSet = true) :
    Inv version apply first x { s with
      slot := ⟨s.slot.pending, false, version s.slot.pending⟩
      state := apply s.state s.slot.pending
      taken := s.taken ++ [s.slot.pending] } := by
  have hahead := hs.ahead hset
  have hsublist := hs.sublist
  rw [if_pos hset] at hsublist
  refine { hs with
    settled := fun _ => rfl, ahead := nofun, increasing := ?_, last := ?_, between := ?_,
    sublist := ?_, state := ?_ }
  · rw [List.map_append, List.pairwise_append]
    refine ⟨hs.increasing, List.pairwise_singleton _ _, ?_⟩
    rintro v hv w hw
    obtain ⟨u, hu, rfl⟩ := List.mem_map.1 hv
    rw [List.map_singleton, List.mem_singleton] at hw
    exact hw ▸ (hs.between u hu).2.trans_lt hahead
  · simp
  · intro u hu
    rcases List.mem_append.1 hu with hu | hu
    · exact ⟨(hs.between u hu).1, (hs.between u hu).2.trans hahead.le⟩
    · rw [List.mem_singleton.1 hu]
      exact ⟨hs.first_le.trans_lt hahead, le_rfl⟩
  · simpa using hsublist
  · simp [hs.state]

theorem inv_step {a : SlotAct υ} (hs : s.Inv version apply first x)
    (h : s.step version apply a = some t) : t.Inv version apply first x := by
  cases a with
  | offer u =>
    cases h
    exact hs.offer u
  | poll =>
    simp only [step] at h
    split_ifs at h with hset
    · cases h
      exact hs.poll hset
    · cases h
      exact hs

theorem inv_of_exec {as : List (SlotAct υ)}
    (h : exec (step version apply) (start version first x) as = some s) :
    s.Inv version apply first x :=
  exec_invariant (fun _ _ _ hs h => inv_step hs h) (inv_start version apply first x) h

/-- The version taken never decreases. -/
theorem Inv.applied_le_of_step {a : SlotAct υ} (hs : s.Inv version apply first x)
    (h : s.step version apply a = some t) : s.slot.applied ≤ t.slot.applied := by
  cases a with
  | offer u =>
    cases h
    simp only
    split_ifs <;> exact le_rfl
  | poll =>
    simp only [step] at h
    split_ifs at h with hset
    · cases h
      exact (hs.ahead hset).le
    · cases h
      exact le_rfl

/-! ## Every choice of values taken has a schedule -/

theorem offered_of_exec : ∀ {as : List (SlotAct υ)} {s t : SlotRun υ V π},
    exec (step version apply) s as = some t → t.offered = s.offered ++ SlotAct.offers as
  | [], s, t, h => by
    cases h
    simp [SlotAct.offers]
  | .offer u :: as, s, t, h => by
    obtain ⟨s', hs', h⟩ := exec_cons_iff.1 h
    cases hs'
    rw [offered_of_exec h]
    simp [SlotAct.offers]
  | .poll :: as, s, t, h => by
    obtain ⟨s', hs', h⟩ := exec_cons_iff.1 h
    simp only [step] at hs'
    split_ifs at hs' <;> cases hs' <;> rw [offered_of_exec h] <;> simp [SlotAct.offers]

/-- An offer that is not newer is dropped, and the others can be taken or left to be
replaced, so the values taken can be any of those newer than what was taken before. -/
theorem exists_schedule {us : List υ} (hinc : us.Pairwise fun u w => version u < version w)
    {l : List υ} (hl : l.Sublist (us.filter fun u => version first < version u)) :
    ∀ {s : SlotRun υ V π}, s.Inv version apply first x →
      (∀ w ∈ s.offered, ∀ u ∈ us, version w < version u) →
        ∃ as t, exec (step version apply) s as = some t ∧ SlotAct.offers as = us ∧
          t.taken = s.taken ++ l := by
  induction us generalizing l with
  | nil =>
    intro s hs _
    obtain rfl := List.sublist_nil.1 hl
    exact ⟨[], s, rfl, rfl, by simp⟩
  | cons u us ih =>
    intro s hs hnewer
    obtain ⟨hu, hinc⟩ := List.pairwise_cons.1 hinc
    have hoffer := hs.offer u
    have hnewer' : ∀ w ∈ s.offered ++ [u], ∀ v ∈ us, version w < version v := by
      intro w hw v hv
      rcases List.mem_append.1 hw with hw | hw
      · exact hnewer w hw v (List.mem_cons_of_mem u hv)
      · rw [List.mem_singleton.1 hw]
        exact hu v hv
    -- `u` is offered and not taken : the rest is scheduled from there
    have hleave : l.Sublist (us.filter fun u => version first < version u) →
        ∃ as t, exec (step version apply) s as = some t ∧ SlotAct.offers as = u :: us ∧
          t.taken = s.taken ++ l := by
      intro hl
      obtain ⟨as, t, ht, hoffers, htaken⟩ := ih hinc hl hoffer hnewer'
      exact ⟨.offer u :: as, t, exec_cons_iff.2 ⟨_, rfl, ht⟩, by simp [SlotAct.offers, ← hoffers],
        htaken⟩
    by_cases hfirst : version first < version u
    · rw [List.filter_cons_of_pos (by simpa using hfirst)] at hl
      rcases List.sublist_cons_iff.1 hl with hl | ⟨l', rfl, hl'⟩
      · exact hleave hl
      · have hadmits : s.slot.Admits version u := hs.admits_iff.2 <| List.forall_mem_cons.2
          ⟨hfirst, fun w hw => hnewer w hw u List.mem_cons_self⟩
        rw [if_pos hadmits] at hoffer
        obtain ⟨as, t, ht, hoffers, htaken⟩ := ih hinc hl' (hoffer.poll rfl) hnewer'
        refine ⟨.offer u :: .poll :: as, t, ?_, by simp [SlotAct.offers, ← hoffers], ?_⟩
        · refine exec_cons_iff.2 ⟨_, rfl, exec_cons_iff.2 ⟨_, ?_, ht⟩⟩
          simp only [step, if_pos hadmits, if_true]
        · simpa using htaken
    · rw [List.filter_cons_of_neg (by simpa using hfirst)] at hl
      exact hleave hl

/-! ## When the schedule does not matter -/

variable (version apply)

/-- Any two schedules of the offers `us` that end with the version `v` taken leave the same
state. -/
def ScheduleIndependent (first : υ) (x : π) (us : List υ) (v : V) : Prop :=
  ∀ as bs s t, SlotAct.offers as = us → SlotAct.offers bs = us →
    exec (step version apply) (start version first x) as = some s →
      exec (step version apply) (start version first x) bs = some t →
        s.slot.applied = v → t.slot.applied = v → s.state = t.state

variable {version apply}

/-- The offers of a run are all it has been offered. -/
theorem offered_eq {as : List (SlotAct υ)} {us : List υ} (has : SlotAct.offers as = us)
    (hs : exec (step version apply) (start version first x) as = some s) : s.offered = us := by
  simpa [start, has] using offered_of_exec hs

variable {earlier : List υ} {last : υ}

/-- When the last of the offers is taken, it is taken behind some of the older ones. -/
theorem Inv.taken_eq (hs : s.Inv version apply first x) (hoffered : s.offered = earlier ++ [last])
    (hinc : (earlier ++ [last]).Pairwise fun u w => version u < version w)
    (hfirst : version first < version last) (happlied : s.slot.applied = version last) :
    ∃ l, s.taken = l ++ [last] ∧
      l.Sublist (earlier.filter fun u => version first < version u) := by
  have hlt := (List.pairwise_append.1 hinc).2.2
  have hlast := hs.last
  rw [happlied] at hlast
  rcases List.eq_nil_or_concat' s.taken with hnil | ⟨l, w, hw⟩
  · rw [hnil] at hlast
    exact absurd hlast hfirst.ne'
  · rw [hw, List.getLast?_concat, Option.getD_some] at hlast
    have hsub := hs.taken_sublist
    have hmem : w ∈ earlier ++ [last] := hoffered ▸ hsub.subset (by simp [hw])
    have hwlast : w = last := by
      rcases List.mem_append.1 hmem with hmem | hmem
      · exact absurd hlast (hlt w hmem last (by simp)).ne'
      · exact List.mem_singleton.1 hmem
    subst hwlast
    refine ⟨l, hw, ?_⟩
    rw [hw, hoffered, List.append_sublist_append_right] at hsub
    have hall : l.filter (fun u => version first < version u) = l :=
      List.filter_eq_self.2 fun u hu => decide_eq_true (hs.between u (by simp [hw, hu])).1
    exact hall ▸ hsub.filter _

/-- Any of the older offers can be the ones taken before the last. -/
theorem exists_run_taking (hinc : (earlier ++ [last]).Pairwise fun u w => version u < version w)
    (hfirst : version first < version last) {l : List υ}
    (hl : l.Sublist (earlier.filter fun u => version first < version u)) :
    ∃ as t, SlotAct.offers as = earlier ++ [last] ∧
      exec (step version apply) (start version first x) as = some t ∧
        t.slot.applied = version last ∧ t.state = (l ++ [last]).foldl apply x := by
  have hl' : (l ++ [last]).Sublist
      ((earlier ++ [last]).filter fun u => version first < version u) := by
    rw [List.filter_append, List.filter_cons_of_pos (by simpa using hfirst), List.filter_nil]
    exact hl.append (List.Sublist.refl _)
  obtain ⟨as, t, ht, hoffers, htaken⟩ := exists_schedule hinc hl'
    (inv_start version apply first x) (by simp [start])
  have hinv := inv_of_exec ht
  have htaken : t.taken = l ++ [last] := by simpa [start] using htaken
  exact ⟨as, t, hoffers, ht, by simp [hinv.last, htaken], by rw [hinv.state, htaken]⟩

/-- Offers that are not newer than what was taken before are never taken. -/
theorem state_eq_of_old {as : List (SlotAct υ)} {us : List υ}
    (hold : ∀ u ∈ us, ¬ version first < version u) (has : SlotAct.offers as = us)
    (hs : exec (step version apply) (start version first x) as = some s) : s.state = x := by
  have hinv := inv_of_exec hs
  have hnil : s.taken = [] := List.eq_nil_iff_forall_not_mem.2 fun u hu =>
    hold u (offered_eq has hs ▸ hinv.taken_sublist.subset hu) (hinv.between u hu).1
  rw [hinv.state, hnil]
  rfl

/-- For offers with increasing versions, the state the schedules leave is the same exactly
when the last value leaves the same behind any of the older ones as it leaves alone. -/
theorem scheduleIndependent_iff
    (hinc : (earlier ++ [last]).Pairwise fun u w => version u < version w) :
    ScheduleIndependent version apply first x (earlier ++ [last]) (version last) ↔
      ∀ l : List υ, l.Sublist (earlier.filter fun u => version first < version u) →
        (l ++ [last]).foldl apply x = apply x last := by
  by_cases hfirst : version first < version last
  · constructor
    · intro hind l hl
      obtain ⟨as, s, has, hs, hsapplied, hsstate⟩ := exists_run_taking hinc hfirst hl
      obtain ⟨bs, t, hbs, ht, htapplied, htstate⟩ :=
        exists_run_taking hinc hfirst (List.nil_sublist _)
      rw [← hsstate, hind as bs s t has hbs hs ht hsapplied htapplied, htstate]
      rfl
    · rintro halone as bs s t has hbs hs ht hsapplied htapplied
      have hsinv := inv_of_exec hs
      have htinv := inv_of_exec ht
      obtain ⟨l, hl, hlsub⟩ := hsinv.taken_eq (offered_eq has hs) hinc hfirst hsapplied
      obtain ⟨m, hm, hmsub⟩ := htinv.taken_eq (offered_eq hbs ht) hinc hfirst htapplied
      rw [hsinv.state, htinv.state, hl, hm, halone l hlsub, halone m hmsub]
  · have hold : ∀ u ∈ earlier ++ [last], ¬ version first < version u := by
      intro u hu hlt
      rcases List.mem_append.1 hu with hu | hu
      · exact hfirst (hlt.trans ((List.pairwise_append.1 hinc).2.2 u hu last (by simp)))
      · exact hfirst (List.mem_singleton.1 hu ▸ hlt)
    refine iff_of_true ?_ ?_
    · intro as bs s t has hbs hs ht _ _
      rw [state_eq_of_old hold has hs, state_eq_of_old hold hbs ht]
    · intro l hl
      have hnil : earlier.filter (fun u => version first < version u) = [] :=
        List.filter_eq_nil_iff.2 fun u hu => by simpa using hold u (by simp [hu])
      rw [hnil, List.sublist_nil] at hl
      rw [hl]
      rfl

end SlotRun

/-! ## Fields that a value sets or keeps -/

section KeepOrSet

variable {β : Type*} (sets : υ → Prop) [DecidablePred sets] (field : υ → β)

/-- The field after a value that sets it or keeps it. -/
def keepOrSet (x : β) (u : υ) : β :=
  if sets u then field u else x

/-- Whatever part of `us` comes before it, `last` leaves the same field, exactly when it sets
the field, or all that is set before it is what there was. -/
theorem foldl_keepOrSet_iff (x : β) (last : υ) (us : List υ) :
    (∀ l : List υ, l.Sublist us →
      (l ++ [last]).foldl (keepOrSet sets field) x = keepOrSet sets field x last) ↔
        sets last ∨ ∀ u ∈ us, sets u → field u = x := by
  simp only [List.foldl_append, List.foldl_cons, List.foldl_nil]
  by_cases hlast : sets last
  · simp [keepOrSet, hlast]
  have hkeep : ∀ y, keepOrSet sets field y last = y := fun y => if_neg hlast
  simp only [hkeep, hlast, false_or]
  constructor
  · intro h u hu hsets
    simpa [keepOrSet, hsets] using h [u] (List.singleton_sublist.2 hu)
  · intro h l hl
    have hx : ∀ u ∈ l, keepOrSet sets field x u = x := by
      intro u hu
      unfold keepOrSet
      split_ifs with hsets
      · exact h u (hl.subset hu) hsets
      · rfl
    clear hl
    induction l with
    | nil => rfl
    | cons u l ih =>
      rw [List.foldl_cons, hx u List.mem_cons_self]
      exact ih fun w hw => hx w (List.mem_cons_of_mem u hw)

end KeepOrSet

end Ridgeline
