import Mathlib.Data.Rat.Floor
import Ridgeline.ConfigReconciliation

/-!
# The producer of fake detections

The producer thread of an agent without `--video`. It waits for the next instant of its schedule
in sleeps of at most 50 ms, looks for a pending configuration after each of them, and then emits
an event. A new rate starts a new schedule. The clock may advance between any two steps, so an
event may take any time.

The schedule does not drift : no event is early, and whenever the producer finds itself ahead it
has emitted exactly one event for every instant of its schedule so far (`emits_on_schedule`). A
configuration is looked for only in the wait, and a rate above `10 ^ 9` makes the period zero, so
that there is no wait : no update is applied from then on (`update_applied_iff`).

Rates are exact rationals here, and times are in nanoseconds.
-/

namespace Ridgeline

/-- `duration_cast` of `1.0 / rate_hz` seconds to the nanoseconds of the clock. -/
def periodNs (rateHz : ℚ) : ℕ :=
  ⌊10 ^ 9 / rateHz⌋₊

/-- The longest sleep. -/
def sliceNs : ℕ :=
  50 * 10 ^ 6

/-- Where the producer is : at the test of the outer loop, at the tests of the inner loop, before
a sleep, in a sleep until `wake`, at the test behind the inner loop, before `emit`, or at the
end. -/
inductive FakePc
  | outer
  | inner
  | due
  | sleep
  | asleep (wake : ℕ)
  | ready
  | emit
  | done
  deriving DecidableEq, Repr

/-- The instants `base`, `base + period`, .. and the times of the events emitted for them. -/
structure Schedule where
  base : ℕ
  period : ℕ
  times : List ℕ := []
  deriving DecidableEq, Repr

/-- The clock, `g_stop`, the configuration, `next_due`, and the schedules so far. The `period` of
the source is that of the current schedule. -/
structure FakeProducer where
  clock : ℕ
  stop : Bool
  config : ConfigState
  nextDue : ℕ
  pc : FakePc
  current : Schedule
  past : List Schedule
  deriving DecidableEq, Repr

/-- Time passes, a signal arrives, the reader handles an update, or the producer makes a step. -/
inductive FakeAct
  | tick (ns : ℕ)
  | stop
  | offer (u : ConfigUpdate)
  | run
  deriving DecidableEq, Repr

namespace FakeProducer

variable (deadline : Option ℕ)

/-- The producer at its start. -/
def start (clock : ℕ) (params : LiveParams) : FakeProducer :=
  ⟨clock, false, .start params, clock, .outer, ⟨clock, periodNs params.rateHz, []⟩, []⟩

/-- `g_stop` is set or `time_up()`. Without `--duration-s` there is no deadline. -/
def ended (s : FakeProducer) : Bool :=
  s.stop || deadline.any (· ≤ s.clock)

/-- A pending update with a rate starts a new schedule. -/
def retimed (s : FakeProducer) : FakeProducer :=
  if s.config.slot.pendingSet ∧ s.config.slot.pending.targetFps > 0 then
    { s with
      nextDue := s.clock
      current := ⟨s.clock, periodNs s.config.slot.pending.targetFps.toNat, []⟩
      past := s.past ++ [s.current] }
  else s

/-- The next step of the producer. -/
def run (s : FakeProducer) : Option FakeProducer :=
  match s.pc with
  | .outer => some { s with pc := if s.ended deadline then .done else .inner }
  | .inner => some { s with pc := if s.ended deadline then .ready else .due }
  | .due => some { s with pc := if s.clock < s.nextDue then .sleep else .ready }
  | .sleep => some { s with pc := .asleep (s.clock + min (s.nextDue - s.clock) sliceNs) }
  | .asleep wake =>
    if wake ≤ s.clock then
      (s.config.step .fake .poll).map fun config => { s.retimed with config, pc := .inner }
    else none
  | .ready => some { s with pc := if s.ended deadline then .done else .emit }
  | .emit =>
    some { s with
      pc := .outer
      nextDue := s.nextDue + s.current.period
      current := { s.current with times := s.current.times ++ [s.clock] } }
  | .done => none

/-- One step. -/
def step (s : FakeProducer) : FakeAct → Option FakeProducer
  | .tick ns => some { s with clock := s.clock + ns }
  | .stop => some { s with stop := true }
  | .offer u => (s.config.step .fake (.offer u)).map fun config => { s with config }
  | .run => s.run deadline

end FakeProducer

/-! ## Schedules -/

/-- No event is before its instant or in the future. -/
structure Schedule.OnTime (now : ℕ) (c : Schedule) : Prop where
  base_le : c.base ≤ now
  notEarly : ∀ i t, c.times[i]? = some t → c.base + i * c.period ≤ t
  le_now : ∀ t ∈ c.times, t ≤ now

namespace Schedule.OnTime

variable {c : Schedule} {now : ℕ}

theorem mono (h : c.OnTime now) {later : ℕ} (hle : now ≤ later) : c.OnTime later :=
  ⟨h.base_le.trans hle, h.notEarly, fun t ht => (h.le_now t ht).trans hle⟩

theorem fresh (now period : ℕ) : Schedule.OnTime now ⟨now, period, []⟩ :=
  ⟨le_rfl, by simp, by simp⟩

/-- An event for the next instant, which has come. -/
theorem snoc (h : c.OnTime now) (hdue : c.base + c.times.length * c.period ≤ now) :
    Schedule.OnTime now { c with times := c.times ++ [now] } := by
  refine ⟨h.base_le, fun i t ht => ?_, fun t ht => ?_⟩
  · rcases Nat.lt_or_ge i c.times.length with hi | hi
    · exact h.notEarly i t (by rwa [List.getElem?_append_left hi] at ht)
    · rw [List.getElem?_append_right hi, List.getElem?_singleton] at ht
      split_ifs at ht with hi0
      cases ht
      rwa [show i = c.times.length by omega]
  · rcases List.mem_append.1 ht with ht | ht
    · exact h.le_now t ht
    · exact (List.mem_singleton.1 ht).le

/-- At most one event for every instant so far. -/
theorem length_le (h : c.OnTime now) (hperiod : 0 < c.period) :
    c.times.length ≤ (now - c.base) / c.period + 1 := by
  rcases Nat.eq_zero_or_pos c.times.length with hzero | hpos
  · exact hzero ▸ Nat.zero_le _
  · obtain ⟨t, ht⟩ : ∃ t, c.times[c.times.length - 1]? = some t :=
      ⟨_, List.getElem?_eq_getElem (by omega)⟩
    have hdue := h.notEarly _ t ht
    have hnow := h.le_now t (List.mem_of_getElem? ht)
    have := (Nat.le_div_iff_mul_le hperiod).2 (show (c.times.length - 1) * c.period ≤ now - c.base
      by omega)
    omega

/-- When the next instant is still to come, there has been one for each. -/
theorem length_eq (h : c.OnTime now) (hnext : now < c.base + c.times.length * c.period) :
    c.times.length = (now - c.base) / c.period + 1 := by
  have hbase := h.base_le
  have hperiod : 0 < c.period := Nat.pos_of_ne_zero fun h0 => by simp [h0] at hnext; omega
  refine le_antisymm (h.length_le hperiod) ?_
  have := (Nat.div_lt_iff_lt_mul hperiod).2 (show now - c.base < c.times.length * c.period by omega)
  omega

end Schedule.OnTime

theorem periodNs_pos_iff {rateHz : ℚ} (h : 0 < rateHz) : 0 < periodNs rateHz ↔ rateHz ≤ 10 ^ 9 := by
  rw [periodNs, Nat.floor_pos, one_le_div h]

namespace FakeProducer

variable {deadline : Option ℕ} {s t : FakeProducer}

/-- The producer is in the wait, behind the test that it is ahead of its schedule. -/
def Waits (s : FakeProducer) : Prop :=
  s.pc = .sleep ∨ ∃ wake, s.pc = .asleep wake

/-- The current schedule is that of the current rate, and `next_due` is its next instant. -/
structure Timed (s : FakeProducer) : Prop where
  rate_pos : 0 < s.config.state.rateHz
  period : s.current.period = periodNs s.config.state.rateHz
  nextDue : s.nextDue = s.current.base + s.current.times.length * s.current.period
  current : s.current.OnTime s.clock
  past : ∀ c ∈ s.past, c.OnTime s.clock

variable (deadline) in
/-- An event is emitted when its instant has come, and the producer waits only if the period is
positive. -/
structure Inv (s : FakeProducer) : Prop extends s.Timed where
  ready : s.pc = .ready → s.ended deadline = true ∨ s.nextDue ≤ s.clock
  emit : s.pc = .emit → s.nextDue ≤ s.clock
  done : s.pc = .done → s.ended deadline = true
  waits : s.Waits → 0 < s.current.period

/-- At the tests of the two loops there is nothing to say of the next instant. -/
theorem Timed.inv (hs : s.Timed) (hpc : s.pc = .outer ∨ s.pc = .inner ∨ s.pc = .due) :
    s.Inv deadline := by
  refine { hs with ready := ?_, emit := ?_, done := ?_, waits := ?_ } <;>
    rcases hpc with hpc | hpc | hpc <;> simp [hpc, Waits]

theorem inv_start (clock : ℕ) {params : LiveParams} (h : 0 < params.rateHz) :
    (start clock params).Inv deadline :=
  Timed.inv ⟨h, rfl, by simp [start], .fresh _ _, by simp [start]⟩ (.inl rfl)

theorem ended_mono (hstop : s.stop = true → t.stop = true) (hclock : s.clock ≤ t.clock)
    (h : s.ended deadline = true) : t.ended deadline = true := by
  simp only [ended, Bool.or_eq_true, Option.any_eq_true, decide_eq_true_eq] at h ⊢
  rcases h with h | ⟨d, hd, hle⟩
  · exact .inl (hstop h)
  · exact .inr ⟨d, hd, hle.trans hclock⟩

theorem Inv.tick (hs : s.Inv deadline) (ns : ℕ) :
    Inv deadline { s with clock := s.clock + ns } := by
  have hclock : s.clock ≤ s.clock + ns := Nat.le_add_right _ _
  have hended : s.ended deadline = true → ended deadline { s with clock := s.clock + ns } = true :=
    ended_mono id hclock
  exact { hs with
    current := hs.current.mono hclock
    past := fun c hc => (hs.past c hc).mono hclock
    ready := fun h => (hs.ready h).imp hended fun hle => hle.trans hclock
    emit := fun h => (hs.emit h).trans hclock
    done := fun h => hended (hs.done h) }

theorem Inv.stop (hs : s.Inv deadline) : Inv deadline { s with stop := true } :=
  { hs with
    ready := fun _ => .inl rfl
    done := fun _ => rfl }

/-- The reader does not change the parameters. -/
theorem Inv.offer (hs : s.Inv deadline) {u : ConfigUpdate} {config : ConfigState}
    (h : s.config.step .fake (.offer u) = some config) : Inv deadline { s with config } := by
  have hstate : config.state = s.config.state := by rw [← Option.some.inj h]
  exact { hs with rate_pos := hstate ▸ hs.rate_pos, period := hstate ▸ hs.period }

/-- The poll applies the rate of a pending update, and starts the schedule of it. -/
theorem Timed.poll (hs : s.Timed) {config : ConfigState}
    (h : s.config.step .fake .poll = some config) :
    Timed { s.retimed with config, pc := .inner } := by
  simp only [ConfigState.step, SlotRun.step] at h
  split_ifs at h with hset <;> cases h
  · by_cases hfps : s.config.slot.pending.targetFps > 0
    · have hpos : 0 < s.config.slot.pending.targetFps.toNat := hfps
      rw [retimed, if_pos ⟨hset, hfps⟩]
      refine ⟨?_, ?_, by simp, .fresh _ _, ?_⟩
      · simpa [LiveParams.apply, hfps] using hpos
      · simp [LiveParams.apply, hfps]
      · rintro c hc
        rcases List.mem_append.1 hc with hc | hc
        · exact hs.past c hc
        · exact List.mem_singleton.1 hc ▸ hs.current
    · have hkept : s.config.state.apply .fake s.config.slot.pending = s.config.state := by
        simp [LiveParams.apply, hfps]
      rw [retimed, if_neg (by simp [hfps]), hkept]
      exact { hs with }
  · rw [retimed, if_neg (by simp [hset])]
    exact { hs with }

/-- The producer only goes on to `pc`. -/
theorem Timed.setPc (hs : s.Timed) {pc : FakePc}
    (hready : pc = .ready → s.ended deadline = true ∨ s.nextDue ≤ s.clock)
    (hemit : pc = .emit → s.nextDue ≤ s.clock) (hdone : pc = .done → s.ended deadline = true)
    (hwaits : (pc = .sleep ∨ ∃ wake, pc = .asleep wake) → 0 < s.current.period) :
    Inv deadline { s with pc } :=
  { hs with ready := hready, emit := hemit, done := hdone, waits := hwaits }

theorem Inv.run (hs : s.Inv deadline) (h : s.run deadline = some t) : t.Inv deadline := by
  have htimed := hs.toTimed
  unfold FakeProducer.run at h
  split at h
  · cases h
    split_ifs with hended
    · exact htimed.setPc (by simp) (by simp) (fun _ => hended) (by simp)
    · exact Timed.inv { htimed with } (.inr (.inl rfl))
  · cases h
    split_ifs with hended
    · exact htimed.setPc (fun _ => .inl hended) (by simp) (by simp) (by simp)
    · exact Timed.inv { htimed with } (.inr (.inr rfl))
  · cases h
    split_ifs with hahead
    · -- the next instant is still to come, so it is not the base
      refine htimed.setPc (by simp) (by simp) (by simp) fun _ => Nat.pos_of_ne_zero fun h0 => ?_
      have hbase := hs.current.base_le
      rw [hs.nextDue, h0] at hahead
      omega
    · exact htimed.setPc (fun _ => .inr (not_lt.1 hahead)) (by simp) (by simp) (by simp)
  · next hpc =>
    cases h
    exact htimed.setPc (by simp) (by simp) (by simp) fun _ => hs.waits (.inl hpc)
  · split_ifs at h
    obtain ⟨config, hconfig, rfl⟩ := Option.map_eq_some_iff.1 h
    exact (htimed.poll hconfig).inv (.inr (.inl rfl))
  · next hpc =>
    cases h
    split_ifs with hended
    · exact htimed.setPc (by simp) (by simp) (fun _ => hended) (by simp)
    · exact htimed.setPc (by simp) (fun _ => (hs.ready hpc).resolve_left hended) (by simp) (by simp)
  · next hpc =>
    cases h
    have hdue := hs.nextDue ▸ hs.emit hpc
    refine Timed.inv { htimed with nextDue := ?_, current := hs.current.snoc hdue } (.inl rfl)
    simp only [List.length_append, List.length_singleton, hs.nextDue]
    ring
  · cases h

theorem Inv.step {a : FakeAct} (hs : s.Inv deadline) (h : s.step deadline a = some t) :
    t.Inv deadline := by
  cases a with
  | tick ns =>
    cases h
    exact hs.tick ns
  | stop =>
    cases h
    exact hs.stop
  | offer u =>
    simp only [FakeProducer.step, Option.map_eq_some_iff] at h
    obtain ⟨config, hconfig, rfl⟩ := h
    exact hs.offer hconfig
  | run => exact hs.run h

theorem inv_of_exec {clock : ℕ} {params : LiveParams} (hrate : 0 < params.rateHz)
    {as : List FakeAct} (h : exec (step deadline) (start clock params) as = some s) :
    s.Inv deadline :=
  exec_invariant (fun _ _ _ hs h => hs.step h) (inv_start clock hrate) h

/-! ## No drift -/

/-- What holds of the events of a run. -/
structure KeepsTime (s : FakeProducer) : Prop where
  /-- Under every rate so far, no event was before its instant, so that there were never more
  than one event for each period, and one at its start. -/
  notEarly : ∀ c ∈ s.past ++ [s.current], ∀ i t, c.times[i]? = some t → c.base + i * c.period ≤ t
  atMost : 0 < s.current.period →
    s.current.times.length ≤ (s.clock - s.current.base) / s.current.period + 1
  /-- When the producer is about to wait, there has been an event for each. -/
  exact : s.pc = .due → s.clock < s.nextDue →
    s.current.times.length = (s.clock - s.current.base) / s.current.period + 1
  rate : s.current.period = periodNs s.config.state.rateHz

/-- In every run, whatever the sleeps and the events take and whenever the rate changes, no event
is emitted before its instant `base + i * period` of the schedule for the current rate, and
whenever the producer finds that it is ahead, it has emitted exactly one event for every instant
up to now. -/
theorem emits_on_schedule {clock : ℕ} {params : LiveParams} (hrate : 0 < params.rateHz)
    {as : List FakeAct} (h : exec (FakeProducer.step deadline) (start clock params) as = some s) :
    s.KeepsTime := by
  have hs := inv_of_exec hrate h
  refine ⟨fun c hc => ?_, hs.current.length_le, fun _ hahead => ?_, hs.period⟩
  · rcases List.mem_append.1 hc with hc | hc
    · exact (hs.past c hc).notEarly
    · exact List.mem_singleton.1 hc ▸ hs.current.notEarly
  · exact hs.current.length_eq (hs.nextDue ▸ hahead)

/-- Five events a second, of which the first takes half a second. Two more are due then. -/
def lateRun : List FakeAct :=
  List.replicate 5 .run ++ .tick (5 * 10 ^ 8) :: List.replicate 12 .run

theorem emits_on_schedule_lateRun : ∃ s,
    exec (FakeProducer.step none) (start 0 ⟨3, 5, 3 / 10, 5⟩) lateRun = some s ∧ s.pc = .due ∧
      s.nextDue = 6 * 10 ^ 8 ∧ s.current.times = [0, 5 * 10 ^ 8, 5 * 10 ^ 8] ∧ s.KeepsTime := by
  obtain ⟨s, hs, hpc, hdue, htimes⟩ : ∃ s,
      exec (FakeProducer.step none) (start 0 ⟨3, 5, 3 / 10, 5⟩) lateRun = some s ∧ s.pc = .due ∧
        s.nextDue = 6 * 10 ^ 8 ∧ s.current.times = [0, 5 * 10 ^ 8, 5 * 10 ^ 8] :=
    exists_exec_of_any (by decide +kernel)
  exact ⟨s, hs, hpc, hdue, htimes, emits_on_schedule (by decide) hs⟩

/-! ## Whether an update is applied -/

/-- The period is zero, the next instant has come, and the producer is not in the wait. -/
structure Starved (s : FakeProducer) : Prop where
  period : s.current.period = 0
  nextDue : s.nextDue ≤ s.clock
  awake : ¬ s.Waits

theorem Inv.starved (hs : s.Inv deadline) (h : s.current.period = 0) : s.Starved :=
  ⟨h, by rw [hs.nextDue, h]; simpa using hs.current.base_le, fun hwaits => (hs.waits hwaits).ne' h⟩

/-- It stays so, and nothing is applied. -/
theorem Starved.run (hs : s.Starved) (h : s.run deadline = some t) :
    t.Starved ∧ t.config = s.config := by
  obtain ⟨hperiod, hdue, hawake⟩ := hs
  unfold FakeProducer.run at h
  split at h
  · cases h
    refine ⟨⟨hperiod, hdue, ?_⟩, rfl⟩
    split_ifs <;> simp [Waits]
  · cases h
    refine ⟨⟨hperiod, hdue, ?_⟩, rfl⟩
    split_ifs <;> simp [Waits]
  · cases h
    rw [if_neg (not_lt.2 hdue)]
    exact ⟨⟨hperiod, hdue, by simp [Waits]⟩, rfl⟩
  · next hpc => exact absurd (.inl hpc) hawake
  · next wake hpc => exact absurd (.inr ⟨wake, hpc⟩) hawake
  · cases h
    refine ⟨⟨hperiod, hdue, ?_⟩, rfl⟩
    split_ifs <;> simp [Waits]
  · cases h
    exact ⟨⟨hperiod, by simpa [hperiod] using hdue, by simp [Waits]⟩, rfl⟩
  · cases h

theorem Starved.step {a : FakeAct} (hs : s.Starved) (h : s.step deadline a = some t) :
    t.Starved ∧ t.config.taken = s.config.taken := by
  cases a with
  | tick ns =>
    cases h
    exact ⟨⟨hs.period, hs.nextDue.trans (Nat.le_add_right _ _), hs.awake⟩, rfl⟩
  | stop =>
    cases h
    exact ⟨⟨hs.period, hs.nextDue, hs.awake⟩, rfl⟩
  | offer u =>
    simp only [FakeProducer.step, Option.map_eq_some_iff] at h
    obtain ⟨config, hconfig, rfl⟩ := h
    refine ⟨⟨hs.period, hs.nextDue, hs.awake⟩, ?_⟩
    rw [← Option.some.inj hconfig]
  | run =>
    obtain ⟨ht, hconfig⟩ := hs.run h
    exact ⟨ht, by rw [hconfig]⟩

theorem Starved.taken_eq {as : List FakeAct} (hs : s.Starved)
    (h : exec (FakeProducer.step deadline) s as = some t) : t.config.taken = s.config.taken := by
  have hstep : ∀ r a r', r.Starved ∧ r.config.taken = s.config.taken →
      FakeProducer.step deadline r a = some r' →
        r'.Starved ∧ r'.config.taken = s.config.taken := by
    rintro r a r' ⟨hr, htaken⟩ h
    obtain ⟨hr', htaken'⟩ := hr.step h
    exact ⟨hr', htaken'.trans htaken⟩
  exact (exec_invariant hstep ⟨hs, rfl⟩ h).2

variable (deadline) in
/-- The run can go on so that an update is applied. -/
def CanApply (s : FakeProducer) : Prop :=
  ∃ bs t, exec (FakeProducer.step deadline) s bs = some t ∧ t.config.taken ≠ s.config.taken

theorem CanApply.of_run (h : s.run deadline = some t) (hconfig : t.config = s.config)
    (ht : t.CanApply deadline) : s.CanApply deadline := by
  obtain ⟨bs, r, hr, htaken⟩ := ht
  exact ⟨.run :: bs, r, exec_cons_iff.2 ⟨t, h, hr⟩, hconfig ▸ htaken⟩

/-- After the sleep the pending update is applied. -/
theorem canApply_of_asleep {wake : ℕ} (hpc : s.pc = .asleep wake)
    (hset : s.config.slot.pendingSet = true) : s.CanApply deadline := by
  let s₁ : FakeProducer := { s with clock := s.clock + wake }
  let config : ConfigState := { s.config with
    slot := ⟨s.config.slot.pending, false, s.config.slot.pending.version⟩
    state := s.config.state.apply .fake s.config.slot.pending
    taken := s.config.taken ++ [s.config.slot.pending] }
  have hpoll : s.config.step .fake .poll = some config := by
    simp [ConfigState.step, SlotRun.step, hset, config]
  have hrun : s₁.run deadline = some { s₁.retimed with config, pc := .inner } := by
    simp only [FakeProducer.run, s₁, hpc, if_pos (Nat.le_add_left wake s.clock), hpoll,
      Option.map_some]
  refine ⟨[.tick wake, .run], _,
    exec_cons_iff.2 ⟨s₁, rfl, exec_cons_iff.2 ⟨_, hrun, rfl⟩⟩, ?_⟩
  simp [config]

theorem canApply_of_sleep (hpc : s.pc = .sleep) (hset : s.config.slot.pendingSet = true) :
    s.CanApply deadline := by
  have hrun : s.run deadline =
      some { s with pc := .asleep (s.clock + min (s.nextDue - s.clock) sliceNs) } := by
    simp only [FakeProducer.run, hpc]
  exact .of_run hrun rfl (canApply_of_asleep rfl hset)

section Forever

/-! Without a time limit, and as long as there is no signal. -/

variable (hstop : s.stop = false) (hset : s.config.slot.pendingSet = true)

include hstop hset

/-- The producer catches up with its schedule, one event at a time, until it has to wait. -/
theorem canApply_of_due (hpc : s.pc = .due) (hperiod : 0 < s.current.period) :
    s.CanApply none := by
  induction hlate : s.clock + 1 - s.nextDue using Nat.strong_induction_on generalizing s with
  | _ n ih =>
    by_cases hahead : s.clock < s.nextDue
    · have hrun : s.run none = some { s with pc := .sleep } := by
        simp only [FakeProducer.run, hpc, if_pos hahead]
      exact .of_run hrun rfl (canApply_of_sleep rfl hset)
    · let s₁ : FakeProducer := { s with pc := .ready }
      let s₂ : FakeProducer := { s with pc := .emit }
      let s₃ : FakeProducer := { s with
        pc := .outer
        nextDue := s.nextDue + s.current.period
        current := { s.current with times := s.current.times ++ [s.clock] } }
      have h₁ : s.run none = some s₁ := by simp only [FakeProducer.run, hpc, if_neg hahead, s₁]
      have h₂ : s₁.run none = some s₂ := by
        simp [FakeProducer.run, s₁, s₂, ended, hstop]
      have h₃ : s₂.run none = some s₃ := rfl
      have h₄ : s₃.run none = some { s₃ with pc := .inner } := by
        simp [FakeProducer.run, s₃, ended, hstop]
      have h₅ : FakeProducer.run none { s₃ with pc := .inner } = some { s₃ with pc := .due } := by
        simp [FakeProducer.run, s₃, ended, hstop]
      have hless : s.clock + 1 - (s.nextDue + s.current.period) < n := by omega
      exact .of_run h₁ rfl (.of_run h₂ rfl (.of_run h₃ rfl (.of_run h₄ rfl (.of_run h₅ rfl
        (ih _ hless hstop hset rfl hperiod rfl)))))

theorem canApply_of_inner (hpc : s.pc = .inner) (hperiod : 0 < s.current.period) :
    s.CanApply none := by
  have hrun : s.run none = some { s with pc := .due } := by
    simp [FakeProducer.run, hpc, ended, hstop]
  exact .of_run hrun rfl (canApply_of_due hstop hset rfl hperiod)

theorem canApply_of_outer (hpc : s.pc = .outer) (hperiod : 0 < s.current.period) :
    s.CanApply none := by
  have hrun : s.run none = some { s with pc := .inner } := by
    simp [FakeProducer.run, hpc, ended, hstop]
  exact .of_run hrun rfl (canApply_of_inner hstop hset rfl hperiod)

theorem canApply_of_emit (hpc : s.pc = .emit) (hperiod : 0 < s.current.period) :
    s.CanApply none := by
  have hrun : s.run none = some { s with
      pc := .outer
      nextDue := s.nextDue + s.current.period
      current := { s.current with times := s.current.times ++ [s.clock] } } := by
    simp only [FakeProducer.run, hpc]
  exact .of_run hrun rfl (canApply_of_outer hstop hset rfl hperiod)

theorem canApply_of_ready (hpc : s.pc = .ready) (hperiod : 0 < s.current.period) :
    s.CanApply none := by
  have hrun : s.run none = some { s with pc := .emit } := by
    simp [FakeProducer.run, hpc, ended, hstop]
  exact .of_run hrun rfl (canApply_of_emit hstop hset rfl hperiod)

/-- Wherever the producer is, it gets to the wait. -/
theorem Inv.canApply (hs : s.Inv none) (hperiod : 0 < s.current.period) : s.CanApply none := by
  cases hpc : s.pc with
  | outer => exact canApply_of_outer hstop hset hpc hperiod
  | inner => exact canApply_of_inner hstop hset hpc hperiod
  | due => exact canApply_of_due hstop hset hpc hperiod
  | sleep => exact canApply_of_sleep hpc hset
  | asleep wake => exact canApply_of_asleep hpc hset
  | ready => exact canApply_of_ready hstop hset hpc hperiod
  | emit => exact canApply_of_emit hstop hset hpc hperiod
  | done => simpa [ended, hstop] using hs.done hpc

end Forever

/-- In every state of every run without a time limit or a signal, with an update pending : the run
can go on so that an update is applied exactly when the current rate is at most `10 ^ 9`.
Otherwise none is applied any more, whatever the gateway pushes. -/
theorem update_applied_iff {clock : ℕ} {params : LiveParams} (hrate : 0 < params.rateHz)
    {as : List FakeAct} (h : exec (FakeProducer.step none) (start clock params) as = some s)
    (hstop : s.stop = false) (hset : s.config.slot.pendingSet = true) :
    s.CanApply none ↔ s.config.state.rateHz ≤ 10 ^ 9 := by
  have hs := inv_of_exec hrate h
  rw [← periodNs_pos_iff hs.rate_pos, ← hs.period]
  refine ⟨?_, hs.canApply hstop hset⟩
  rintro ⟨bs, t, ht, htaken⟩
  by_contra hzero
  exact htaken ((hs.starved (Nat.eq_zero_of_not_pos hzero)).taken_eq ht)

/-- After the first event the gateway pushes a rate of `2 * 10 ^ 9`, which is applied, and then
wants five events a second again. -/
def starvedRun : List FakeAct :=
  List.replicate 9 .run ++
    [.offer ⟨1, 0, 0, 0, 2000000000⟩, .tick (5 * 10 ^ 7), .run, .offer ⟨2, 0, 0, 0, 5⟩]

theorem update_applied_iff_starvedRun : ∃ s,
    exec (FakeProducer.step none) (start 0 ⟨3, 5, 3 / 10, 5⟩) starvedRun = some s ∧
      s.config.slot.applied = 1 ∧ s.config.slot.pending.version = 2 ∧ ¬ s.CanApply none := by
  obtain ⟨s, hs, happlied, hpending, hstop, hset, hfast⟩ : ∃ s,
      exec (FakeProducer.step none) (start 0 ⟨3, 5, 3 / 10, 5⟩) starvedRun = some s ∧
        s.config.slot.applied = 1 ∧ s.config.slot.pending.version = 2 ∧ s.stop = false ∧
          s.config.slot.pendingSet = true ∧ ¬ s.config.state.rateHz ≤ 10 ^ 9 :=
    exists_exec_of_any (by decide +kernel)
  exact ⟨s, hs, happlied, hpending,
    fun hcan => hfast ((update_applied_iff (by decide) hs hstop hset).1 hcan)⟩

end FakeProducer

end Ridgeline
