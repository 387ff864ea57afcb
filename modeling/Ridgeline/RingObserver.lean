import Ridgeline.EdgePipeline
import Ridgeline.RingBuffer
import Ridgeline.Transition

/-!
# The size of the ring, read by a third thread

`EdgePipeline::FrameQueueDepth` calls `SizeApprox` on the frame ring from a thread that is neither
its producer nor its consumer : the agent stores the answer as the queue depth of its heartbeats.
`SizeApprox` loads `tail_`, then `head_`, and both sides may move in between. `Observed` is the ring
with such a thread, and `seen` the numbers of slots held at every moment of its call.

An answer should lie between two of these numbers (`IsSnapshot`). It does as long as the
consumer releases nothing, between the two loads, behind a publication
(`ReleasesBeforePublishing`) : the answer is then one of the numbers itself
(`answers_are_snapshots`). In general it does not : a frame that is published and released
between the two loads puts `head_` ahead of the `tail` that was loaded, and the masked difference
of an empty ring is a full one (`empty_ring_reads_full`).
-/

namespace Ridgeline

variable {α : Type*}

/-! ## The third thread -/

/-- Where the thread is in `SizeApprox`. -/
inductive ObserverPc
  | idle
  | called
  | loadedTail (tail : ℕ)
  | loadedHead (size : ℕ)
  deriving DecidableEq, Repr

/-- It has loaded `tail_` and not yet `head_`. -/
def ObserverPc.betweenLoads : ObserverPc → Bool
  | .loadedTail _ => true
  | _ => false

/-- An access of the ring's two threads, or a step of the third. -/
inductive ObservedAct (α : Type*)
  | ring (a : RingAct α)
  | call
  | loadTail
  | loadHead
  | ret

/-- The consumer stores `head_`. -/
def ObservedAct.releases : ObservedAct α → Bool
  | .ring (.pop .storeHead) => true
  | _ => false

/-- The ring and the third thread. The numbers of slots held since its call began are in `seen`,
the number published when it loaded `tail_` is `mark`, and `answers` has what its calls returned,
each with the numbers held during the call. -/
structure Observed (α : Type*) where
  ring : RingBuffer α
  pc : ObserverPc := .idle
  seen : List ℕ := []
  mark : ℕ := 0
  answers : List (ℕ × List ℕ) := []

namespace Observed

variable (C : Capacity)

/-- A step of the three threads. -/
def step (s : Observed α) : ObservedAct α → Option (Observed α)
  | .ring a =>
    (s.ring.step C a).map fun ring =>
      { s with
        ring, seen := s.seen ++ [ring.held.length] }
  | .call =>
    match s.pc with
    | .idle => some { s with pc := .called, seen := [s.ring.held.length] }
    | _ => none
  | .loadTail =>
    match s.pc with
    | .called => some { s with pc := .loadedTail s.ring.tail, mark := s.ring.published.length }
    | _ => none
  | .loadHead =>
    match s.pc with
    | .loadedTail tail =>
      some { s with pc := .loadedHead (RingBuffer.sizeApprox C tail s.ring.head) }
    | _ => none
  | .ret =>
    match s.pc with
    | .loadedHead size => some { s with pc := .idle, answers := s.answers ++ [(size, s.seen)] }
    | _ => none

/-- The empty ring, before any call. -/
def start (slots : ℕ → α) : Observed α :=
  { ring := RingBuffer.start slots }

/-- The answer lies between the least and the greatest number held during the call. -/
def IsSnapshot (answer : ℕ × List ℕ) : Prop :=
  (∃ lo ∈ answer.2, lo ≤ answer.1) ∧ ∃ hi ∈ answer.2, answer.1 ≤ hi

/-- Between the two loads, a slot is released only if none was published since the first. -/
def ReleasesBeforePublishing (s : Observed α) (a : ObservedAct α) : Prop :=
  s.pc.betweenLoads → a.releases → s.ring.published.length = s.mark

instance decidableReleasesBeforePublishing (s : Observed α) (a : ObservedAct α) :
    Decidable (s.ReleasesBeforePublishing a) :=
  inferInstanceAs (Decidable (_ → _ → _))

/-! ## What the thread knows -/

/-- The `tail` it has loaded is the one of `mark`, and counting from there the slots not yet
released were all that were held at some moment of the call. -/
def PcInv (s : Observed α) : Prop :=
  match s.pc with
  | .idle => True
  | .called => s.ring.held.length ∈ s.seen
  | .loadedTail tail => tail = s.mark % C.val ∧ s.mark ≤ s.ring.published.length ∧
    s.ring.released ≤ s.mark ∧ s.mark - s.ring.released ∈ s.seen
  | .loadedHead size => size ∈ s.seen

/-- Every answer is a number held during its call. -/
structure Inv (s : Observed α) : Prop where
  ring : s.ring.Inv C
  pc : s.PcInv C
  answers : ∀ e ∈ s.answers, e.1 ∈ e.2

variable {C : Capacity} {s t : Observed α}

theorem inv_start (slots : ℕ → α) : (start slots).Inv C where
  ring := RingBuffer.inv_start slots
  pc := trivial
  answers := by simp [start]

/-- What an access of the ring's threads does to the two counts. -/
theorem counts_step {r r' : RingBuffer α} {a : RingAct α} (h : r.step C a = some r') :
    r.published.length ≤ r'.published.length ∧
      (r'.released = r.released ∨
        a = .pop .storeHead ∧ r'.released = r.released + 1 ∧ r'.published = r.published) := by
  cases a with
  | push a =>
    refine ⟨?_, .inl (RingBuffer.pushStep_frame h).2.2.1⟩
    rcases RingBuffer.pushStep_cases h with ⟨_, _, -, -, rfl⟩ | ⟨_, _, -, -, -, rfl⟩ |
      ⟨_, _, -, -, -, rfl⟩ | ⟨_, _, -, -, rfl⟩ | ⟨_, _, _, -, -, rfl⟩ | ⟨_, _, -, -, rfl⟩ <;> simp
  | pop a =>
    refine ⟨(congrArg List.length (RingBuffer.popStep_frame h).2.1).ge, ?_⟩
    rcases RingBuffer.popStep_cases h with ⟨_, -, -, rfl⟩ | ⟨_, -, -, -, rfl⟩ |
      ⟨_, -, -, -, rfl⟩ | ⟨_, _, -, -, rfl⟩ | ⟨_, _, -, rfl, rfl⟩
    · exact .inl rfl
    · exact .inl rfl
    · exact .inl rfl
    · exact .inl rfl
    · exact .inr ⟨rfl, rfl, rfl⟩

/-- The threads of the ring leave the observer what it knows. -/
theorem pcInv_ring {a : RingAct α} {ring : RingBuffer α} (hs : s.Inv C)
    (hok : s.ReleasesBeforePublishing (.ring a)) (h : s.ring.step C a = some ring) :
    PcInv C { s with
      ring, seen := s.seen ++ [ring.held.length] } := by
  have hring := RingBuffer.inv_step hs.ring h
  have hpc := hs.pc
  unfold PcInv at hpc ⊢
  cases hc : s.pc with
  | idle => trivial
  | called => simp
  | loadedTail tail =>
    rw [hc] at hpc
    obtain ⟨htail, hmark, hrel, hmem⟩ := hpc
    obtain ⟨hpub, hsame | ⟨rfl, hnext, heq⟩⟩ := counts_step h
    · refine ⟨htail, hmark.trans hpub, hsame ▸ hrel, ?_⟩
      simp only [hsame]
      exact List.mem_append_left _ hmem
    · -- nothing was published since the first load, so the count is the one held now
      have hok : s.ring.published.length = s.mark := hok (by rw [hc]; rfl) rfl
      have hheld := hring.length_held
      rw [heq] at hheld
      refine ⟨htail, by simp only [heq]; omega, by simp only; omega, ?_⟩
      rw [show s.mark - ring.released = ring.held.length by omega]
      exact List.mem_append_right _ (List.mem_singleton_self _)
  | loadedHead size =>
    rw [hc] at hpc
    exact List.mem_append_left _ hpc

theorem inv_step {a : ObservedAct α} (hs : s.Inv C) (hok : s.ReleasesBeforePublishing a)
    (h : s.step C a = some t) : t.Inv C := by
  have hpc := hs.pc
  unfold PcInv at hpc
  cases a with
  | ring a =>
    obtain ⟨ring, hring, rfl⟩ := Option.map_eq_some_iff.1 h
    exact ⟨RingBuffer.inv_step hs.ring hring, pcInv_ring hs hok hring, hs.answers⟩
  | call =>
    simp only [step] at h
    split at h
    · cases h
      exact ⟨hs.ring, List.mem_singleton_self _, hs.answers⟩
    · cases h
  | loadTail =>
    simp only [step] at h
    split at h
    · next hc =>
      cases h
      rw [hc] at hpc
      have hheld := hs.ring.length_held
      refine ⟨hs.ring, ⟨hs.ring.tail, le_rfl, hs.ring.released_le_published, ?_⟩, hs.answers⟩
      simp only
      rwa [show s.ring.published.length - s.ring.released = s.ring.held.length by omega]
    · cases h
  | loadHead =>
    simp only [step] at h
    split at h
    · next tail hc =>
      cases h
      rw [hc] at hpc
      obtain ⟨htail, hmark, hrel, hmem⟩ := hpc
      have hroom := hs.ring.room
      refine ⟨hs.ring, ?_, hs.answers⟩
      show RingBuffer.sizeApprox C tail s.ring.head ∈ s.seen
      rwa [RingBuffer.sizeApprox, htail, hs.ring.head, C.distance_mod hrel (by omega)]
    · cases h
  | ret =>
    simp only [step] at h
    split at h
    · next size hc =>
      cases h
      rw [hc] at hpc
      exact ⟨hs.ring, trivial,
        List.forall_mem_append.2 ⟨hs.answers, List.forall_mem_singleton.2 hpc⟩⟩
    · cases h

/-! ## Whole runs -/

/-- In every run in which no slot is released, between the two loads of a call, behind a
publication, every answer lies between two numbers of slots held during its call. -/
theorem answers_are_snapshots {C : Capacity} {slots : ℕ → α} {as : List (ObservedAct α)}
    {s : Observed α} (hok : Guarded (step C) ReleasesBeforePublishing (start slots) as)
    (h : exec (step C) (start slots) as = some s) : ∀ e ∈ s.answers, IsSnapshot e := by
  have hinv : s.Inv C :=
    exec_invariant_guarded (fun _ _ _ hs hok h => inv_step hs hok h) (inv_start slots) hok h
  intro e he
  exact ⟨⟨e.1, hinv.answers e he, le_rfl⟩, ⟨e.1, hinv.answers e he, le_rfl⟩⟩

end Observed

/-- The accesses of a push that goes through. -/
def pushAll (v : α) : List (ObservedAct α) :=
  [.ring (.push (.loadTail (.tryPush v))), .ring (.push .loadHead), .ring (.push .assign),
    .ring (.push .storeTail)]

/-- The accesses of a pop that goes through and leaves `v` in the slot. -/
def popAll (v : α) : List (ObservedAct α) :=
  [.ring (.pop .loadHead), .ring (.pop .loadTail), .ring (.pop (.access v)),
    .ring (.pop .storeHead)]

namespace Observed

/-- A frame is held when the call begins, and it is released and another one published between
the two loads. -/
def releaseThenPublish : List (ObservedAct ℕ) :=
  List.flatten [pushAll 7, [.call, .loadTail], popAll 0, pushAll 8, [.loadHead, .ret]]

/-- The answer is 0. -/
theorem answers_are_snapshots_releaseThenPublish :
    ∃ s, exec (step frameRingSlots) (start fun _ => 0) releaseThenPublish = some s ∧
      s.answers = [(0, [1, 1, 1, 1, 0, 0, 0, 0, 1])] ∧ ∀ e ∈ s.answers, IsSnapshot e := by
  have hrun : ∃ s, exec (step frameRingSlots) (start fun _ => 0) releaseThenPublish = some s ∧
      s.answers = [(0, [1, 1, 1, 1, 0, 0, 0, 0, 1])] :=
    exists_exec_of_any (by decide +kernel)
  obtain ⟨s, hs, hans⟩ := hrun
  exact ⟨s, hs, hans, answers_are_snapshots (by decide +kernel) hs⟩

/-- One frame is published and released between the two loads. -/
def publishThenRelease : List (ObservedAct ℕ) :=
  List.flatten [[.call, .loadTail], pushAll 7, popAll 0, [.loadHead, .ret]]

/-- The frame ring never held more than one frame, and the answer is three, all its slots. -/
theorem empty_ring_reads_full :
    ∃ s, exec (step frameRingSlots) (start fun _ => 0) publishThenRelease = some s ∧
      s.answers = [(3, [0, 0, 0, 0, 1, 1, 1, 1, 0])] ∧ ¬ ∀ e ∈ s.answers, IsSnapshot e := by
  have hrun : ∃ s, exec (step frameRingSlots) (start fun _ => 0) publishThenRelease = some s ∧
      s.answers = [(3, [0, 0, 0, 0, 1, 1, 1, 1, 0])] :=
    exists_exec_of_any (by decide +kernel)
  obtain ⟨s, hs, hans⟩ := hrun
  refine ⟨s, hs, hans, fun hall => ?_⟩
  obtain ⟨-, hi, hmem, hle⟩ := hall (3, [0, 0, 0, 0, 1, 1, 1, 1, 0]) (by simp [hans])
  simp only [List.mem_cons, List.not_mem_nil, or_false] at hmem
  omega

end Observed

end Ridgeline
