import Mathlib.Data.Finset.Card
import Ridgeline.KafkaPublication

/-!
# Publishing to Kafka

`KafkaProducer` is any number of calls of `PublishSync` with the threads that poll, the records and
wrappers on the heap and the counters. A call finds its record by its pointer `pending`; `dr_cb`
finds one by the `msg_opaque` of the message it was started for, which is the address of a wrapper
that points to a record. Addresses that were freed are used again.

The record that `dr_cb` finds is that of the call whose message it reports, because the wrapper
lives until `dr_cb` deletes it and has a reference to the record (`Represents`). So the calls
with their records are publications (`Shows`), of which a step changes one (`step_cases`), each is
what its own steps make it (`exec_publications`), and what holds of one publication holds of all.
The counters miss only the refusals and reports that are not counted yet (`Balanced`).
`publish_reports_own_message` is the whole.
-/

namespace Ridgeline

/-- `KafkaPublishStats`. -/
structure KafkaPublishStats where
  published : UInt64 := 0
  failed : UInt64 := 0
  timedOut : UInt64 := 0
  deriving DecidableEq, Repr

/-- A counter is incremented. -/
def KafkaPublishStats.add (stats : KafkaPublishStats) : Option Stat → KafkaPublishStats
  | none => stats
  | some .published => { stats with published := stats.published + 1 }
  | some .failed => { stats with failed := stats.failed + 1 }
  | some .timedOut => { stats with timedOut := stats.timedOut + 1 }

/-- `PendingDelivery`, with the number of references to it. -/
structure PendingDelivery where
  done : Bool := false
  success : Bool := false
  mu : Bool := false
  refs : ℕ := 2
  deriving DecidableEq, Repr

/-- What is left of a record, which is freed with the last reference. -/
def Publication.record (d : Publication) : Option PendingDelivery :=
  if d.refs = 0 then none else some ⟨d.done, d.success, d.mu, d.refs⟩

/-- A call of `PublishSync`, with the addresses of its record and of the wrapper. -/
structure PublishCall where
  pc : PublishPc := .idle
  pending : ℕ := 0
  wrapper : ℕ := 0
  deriving DecidableEq, Repr

/-- What the call sees, with the record that it points to. -/
def PublishCall.view (call : PublishCall) (r : PendingDelivery) (history : List PublicationEvent) :
    Publication :=
  { pc := call.pc, done := r.done, success := r.success, mu := r.mu, refs := r.refs, history }

/-- `dr_cb` in a thread : the call whose message it was started for, the `msg_opaque` of the
message, and its next statement. -/
structure DeliveryCb where
  message : ℕ
  wrapper : ℕ
  report : ReportState
  deriving DecidableEq, Repr

/-- What `dr_cb` sees, with the record that it has found. -/
def DeliveryCb.view (cb : DeliveryCb) (r : PendingDelivery) (history : List PublicationEvent) :
    Publication :=
  { report := cb.report, done := r.done, success := r.success, mu := r.mu, refs := r.refs, history }

/-- A thread that polls, in a call of `PublishSync` or of `Flush`. -/
inductive Poller
  | publish (c : ℕ)
  | flush (f : ℕ)
  deriving DecidableEq, Repr

/-- The calls by their numbers, the records and the wrappers by their addresses, the messages that
librdkafka is still to report with their `msg_opaque`, the threads that run `dr_cb`, what happened
to the calls and their messages, the counters, and how many messages were refused and how many
reported. -/
structure KafkaProducer where
  calls : ℕ → PublishCall := fun _ => {}
  records : ℕ → Option PendingDelivery := fun _ => none
  wrappers : ℕ → Option ℕ := fun _ => none
  queued : ℕ → Option ℕ := fun _ => none
  running : Poller → Option DeliveryCb := fun _ => none
  histories : ℕ → List PublicationEvent := fun _ => []
  stats : KafkaPublishStats := {}
  refused : ℕ := 0
  reported : ℕ := 0

/-- A call begins with a record and a wrapper at these addresses, a call goes on, a thread starts
`dr_cb` for the message of a call, or goes on with it. -/
inductive KafkaAct
  | begin (c pending wrapper : ℕ)
  | caller (c : ℕ) (answer : Bool)
  | report (p : Poller) (c : ℕ) (ok : Bool)
  | callback (p : Poller)
  deriving DecidableEq, Repr

namespace KafkaProducer

/-- The thread is in `poll` or `flush`. -/
def polls (s : KafkaProducer) : Poller → Bool
  | .publish c => (s.calls c).pc = .polling
  | .flush _ => true

/-- The next statement of the call `c`, on the record behind `pending`. -/
def caller (s : KafkaProducer) (c : ℕ) (answer : Bool) : Option KafkaProducer :=
  (s.records (s.calls c).pending).bind fun r =>
    (((s.calls c).view r (s.histories c)).callerStep answer).map fun out =>
      { s with
        calls := Function.update s.calls c { s.calls c with pc := out.1.pc }
        records := Function.update s.records (s.calls c).pending out.1.record
        -- the refusal path deletes the wrapper
        wrappers := if (s.calls c).pc = .refused then
          Function.update s.wrappers (s.calls c).wrapper none else s.wrappers
        -- `produce` takes the message with the address of the wrapper
        queued := if out.1.report = .queued then
          Function.update s.queued c (some (s.calls c).wrapper) else s.queued
        histories := Function.update s.histories c out.1.history
        stats := s.stats.add out.2
        refused := s.refused + if (s.calls c).pc = .allocated ∧ answer = false then 1 else 0 }

/-- The next statement of `dr_cb` in the thread `p`, on the record behind `msg_opaque`. -/
def callback (s : KafkaProducer) (p : Poller) (cb : DeliveryCb) : Option KafkaProducer :=
  (s.wrappers cb.wrapper).bind fun pending =>
    (s.records pending).bind fun r =>
      ((cb.view r (s.histories cb.message)).callbackStep).map fun out =>
        { s with
          records := Function.update s.records pending out.1.record
          -- the destructor of the wrapper runs when `dr_cb` returns
          wrappers := if Publication.isFinished out.1.report then
            Function.update s.wrappers cb.wrapper none else s.wrappers
          running := Function.update s.running p (if Publication.isFinished out.1.report then none
            else some { cb with report := out.1.report })
          histories := Function.update s.histories cb.message out.1.history
          stats := s.stats.add out.2 }

/-- One step. A thread is out of `poll` only when the `dr_cb` it runs has returned. What librdkafka
is assumed to do is that `dr_cb` is started for a message that `produce` took, and once. -/
def step (s : KafkaProducer) : KafkaAct → Option KafkaProducer
  | .begin c pending wrapper =>
    if (s.calls c).pc = .idle ∧ s.records pending = none ∧ s.wrappers wrapper = none then
      some { s with
        calls := Function.update s.calls c ⟨.allocated, pending, wrapper⟩
        records := Function.update s.records pending (some {})
        wrappers := Function.update s.wrappers wrapper (some pending) }
    else none
  | .caller c answer =>
    if (s.calls c).pc = .idle ∨ (s.calls c).pc = .polling ∧ s.running (.publish c) ≠ none then none
    else s.caller c answer
  | .report p c ok =>
    if s.polls p ∧ s.running p = none then
      (s.queued c).map fun wrapper =>
        { s with
          queued := Function.update s.queued c none
          running := Function.update s.running p (some ⟨c, wrapper, .counting ok⟩)
          histories := Function.update s.histories c (s.histories c ++ [.reported ok])
          reported := s.reported + 1 }
    else none
  | .callback p => (s.running p).bind (s.callback p)

/-- The call that a step belongs to : its own steps, and those of the `dr_cb` that was started for
its message. -/
def target (s : KafkaProducer) : KafkaAct → Option (ℕ × PublicationAct)
  | .begin c _ _ => some (c, .caller true)
  | .caller c answer => some (c, .caller answer)
  | .report _ c ok => some (c, .report ok)
  | .callback p => (s.running p).map fun cb => (cb.message, .callback)

/-- The step as one of the call `c`. -/
def ownAct (c : ℕ) (s : KafkaProducer) (a : KafkaAct) : Option PublicationAct :=
  (s.target a).bind fun b => if b.1 = c then some b.2 else none

/-- The call `c` with its record on the heap, and its message, are the publication. -/
structure Shows (s : KafkaProducer) (c : ℕ) (d : Publication) : Prop where
  pc : (s.calls c).pc = d.pc
  history : s.histories c = d.history
  record : 0 < d.refs → s.records (s.calls c).pending = d.record
  wrapper : d.wrapper = true → s.wrappers (s.calls c).wrapper = some (s.calls c).pending
  queued : s.queued c = if d.report = .queued then some (s.calls c).wrapper else none

/-- What `dr_cb` finds behind its `msg_opaque` is the record of the call whose message it was
started for. -/
def Paired (s : KafkaProducer) : Prop :=
  ∀ p cb, s.running p = some cb →
    s.wrappers cb.wrapper = some (s.calls cb.message).pending ∧
      (s.records (s.calls cb.message).pending).isSome

/-- A refusal or a report is not counted yet. -/
def Uncounted (s : KafkaProducer) (c : ℕ) : Prop :=
  (s.calls c).pc = .refused ∨ (s.calls c).pc = .deleted ∨
    ∃ p cb, s.running p = some cb ∧ cb.message = c ∧ Publication.isCounting cb.report = true

/-- `published + failed` is the number of refused messages and of reports, but for those that are
not counted yet. -/
def Balanced (s : KafkaProducer) : Prop :=
  ∃ waiting : Finset ℕ, (∀ c, c ∈ waiting ↔ s.Uncounted c) ∧
    s.stats.published + s.stats.failed + UInt64.ofNat waiting.card =
      UInt64.ofNat (s.refused + s.reported)

/-! ## The heap holds the publications -/

/-- The threads run `dr_cb` for the messages whose reports are handled, each in one thread. -/
structure Dispatches (s : KafkaProducer) (P : ℕ → Publication) : Prop where
  running : ∀ p cb, s.running p = some cb → cb.wrapper = (s.calls cb.message).wrapper ∧
    cb.report = (P cb.message).report ∧ (Publication.running cb.report).isSome
  distinct : ∀ p q cb cb', s.running p = some cb → s.running q = some cb' →
    cb.message = cb'.message → p = q
  handled : ∀ c, (Publication.running (P c).report).isSome →
    ∃ p cb, s.running p = some cb ∧ cb.message = c

/-- The heap holds the records and wrappers of the publications, at different addresses. -/
structure Represents (s : KafkaProducer) (P : ℕ → Publication) : Prop where
  inv : ∀ c, (P c).Inv
  fresh : ∀ c, (P c).pc = .idle → P c = {}
  shows : ∀ c, s.Shows c (P c)
  records : ∀ c e, 0 < (P c).refs → 0 < (P e).refs →
    (s.calls c).pending = (s.calls e).pending → c = e
  wrappers : ∀ c e, (P c).wrapper = true → (P e).wrapper = true →
    (s.calls c).wrapper = (s.calls e).wrapper → c = e
  dispatches : s.Dispatches P

variable {s t : KafkaProducer} {a : KafkaAct} {P : ℕ → Publication} {c e : ℕ} {d : Publication}

theorem represents_init : Represents {} fun _ => {} where
  inv _ := Publication.inv_init
  fresh _ _ := rfl
  shows _ := ⟨rfl, rfl, by simp, by simp, rfl⟩
  records := by simp
  wrappers := by simp
  dispatches := ⟨by simp, by simp, by simp [Publication.running]⟩

/-- The record is on the heap as long as there is a reference to it. -/
theorem Shows.record_eq (h : s.Shows c d) (hrefs : 0 < d.refs) :
    s.records (s.calls c).pending = some ⟨d.done, d.success, d.mu, d.refs⟩ := by
  rw [h.record hrefs, Publication.record, if_neg hrefs.ne']

/-- What a step that belongs to another call leaves. -/
theorem Shows.frame (h : s.Shows e d) (hcalls : t.calls e = s.calls e)
    (hhistory : t.histories e = s.histories e) (hqueued : t.queued e = s.queued e)
    (hrecords : 0 < d.refs → t.records (s.calls e).pending = s.records (s.calls e).pending)
    (hwrappers : d.wrapper = true →
      t.wrappers (s.calls e).wrapper = s.wrappers (s.calls e).wrapper) : t.Shows e d where
  pc := by rw [hcalls, h.pc]
  history := by rw [hhistory, h.history]
  record hrefs := by rw [hcalls, hrecords hrefs, h.record hrefs]
  wrapper hwrapper := by rw [hcalls, hwrappers hwrapper, h.wrapper hwrapper]
  queued := by rw [hqueued, hcalls, h.queued]

/-- A step of the call `c` or of its `dr_cb` uses the record and the wrapper of `c`, and no other
publication has one of them. -/
theorem Represents.update (h : s.Represents P) (hinv : d.Inv) (hidle : d.pc ≠ .idle)
    (hshows : t.Shows c d)
    (hcalls : ∀ e, (t.calls e).pending = (s.calls e).pending ∧
      (t.calls e).wrapper = (s.calls e).wrapper)
    (hothers : ∀ e, e ≠ c → t.calls e = s.calls e ∧ t.histories e = s.histories e ∧
      t.queued e = s.queued e)
    (hrefs : 0 < d.refs → 0 < (P c).refs) (hwrapper : d.wrapper = true → (P c).wrapper = true)
    (hrecords : ∀ r, r ≠ (s.calls c).pending ∨ (P c).refs = 0 → t.records r = s.records r)
    (hwrappers : ∀ w, w ≠ (s.calls c).wrapper ∨ (P c).wrapper = false →
      t.wrappers w = s.wrappers w)
    (hdispatches : t.Dispatches (Function.update P c d)) :
    t.Represents (Function.update P c d) := by
  have hlive : ∀ e, 0 < (Function.update P c d e).refs → 0 < (P e).refs := by
    rw [Function.forall_update_iff P fun e d => 0 < d.refs → 0 < (P e).refs]
    exact ⟨hrefs, fun _ _ hlive => hlive⟩
  have hheld : ∀ e, (Function.update P c d e).wrapper = true → (P e).wrapper = true := by
    rw [Function.forall_update_iff P fun e d => d.wrapper = true → (P e).wrapper = true]
    exact ⟨hwrapper, fun _ _ hheld => hheld⟩
  refine ⟨?_, ?_, ?_, fun e e' he he' heq => ?_, fun e e' he he' heq => ?_, hdispatches⟩
  · rw [Function.forall_update_iff P fun _ d => d.Inv]
    exact ⟨hinv, fun e _ => h.inv e⟩
  · rw [Function.forall_update_iff P fun _ d => d.pc = .idle → d = {}]
    exact ⟨fun heq => absurd heq hidle, fun e _ => h.fresh e⟩
  · rw [Function.forall_update_iff P fun e d => t.Shows e d]
    refine ⟨hshows, fun e he => ?_⟩
    obtain ⟨hcall, hhistory, hqueued⟩ := hothers e he
    refine (h.shows e).frame hcall hhistory hqueued (fun hrefs => hrecords _ ?_)
      fun hwrapper => hwrappers _ ?_
    · rcases (P c).refs.eq_zero_or_pos with hzero | hpos
      · exact .inr hzero
      · exact .inl fun heq => he (h.records e c hrefs hpos heq)
    · cases hc : (P c).wrapper with
      | false => exact .inr rfl
      | true => exact .inl fun heq => he (h.wrappers e c hwrapper hc heq)
  · rw [(hcalls e).1, (hcalls e').1] at heq
    exact h.records e e' (hlive e he) (hlive e' he') heq
  · rw [(hcalls e).2, (hcalls e').2] at heq
    exact h.wrappers e e' (hheld e he) (hheld e' he') heq

/-- The pointers of the live objects stay different when one gets a free address. -/
theorem eq_of_update_eq {live : ℕ → Prop} {f : ℕ → ℕ} {x e' : ℕ}
    (hinj : ∀ e e', live e → live e' → f e = f e' → e = e') (hfree : ∀ e, live e → f e ≠ x)
    (he : e ≠ c → live e) (he' : e' ≠ c → live e')
    (heq : Function.update f c x e = Function.update f c x e') : e = e' := by
  by_cases h : e = c <;> by_cases h' : e' = c
  · rw [h, h']
  · rw [h, Function.update_self, Function.update_of_ne h'] at heq
    exact absurd heq.symm (hfree e' (he' h'))
  · rw [h', Function.update_self, Function.update_of_ne h] at heq
    exact absurd heq (hfree e (he h))
  · rw [Function.update_of_ne h, Function.update_of_ne h'] at heq
    exact hinj e e' (he h) (he' h') heq

/-- A call begins. -/
theorem Represents.begin {pending wrapper : ℕ} (h : s.Represents P)
    (hstep : s.step (.begin c pending wrapper) = some t) :
    ∃ d, (P c).step (.caller true) = some (d, none) ∧ t.Represents (Function.update P c d) ∧
      t.stats = s.stats ∧ t.refused = s.refused ∧ t.reported = s.reported := by
  simp only [step] at hstep
  split_ifs at hstep with hfree
  obtain ⟨hpc, hrecord, hwrapper⟩ := hfree
  cases hstep
  have hnew : P c = {} := h.fresh c ((h.shows c).pc.symm.trans hpc)
  have hstep : (P c).step (.caller true) =
      some ({ pc := .allocated, refs := 2, wrapper := true }, none) := by
    rw [hnew]
    rfl
  -- the address of a live record or wrapper is not free
  have hpending : ∀ e, 0 < (P e).refs → (s.calls e).pending ≠ pending := by
    rintro e hrefs rfl
    rw [(h.shows e).record_eq hrefs] at hrecord
    cases hrecord
  have hwrapperAt : ∀ e, (P e).wrapper = true → (s.calls e).wrapper ≠ wrapper := by
    rintro e hheld rfl
    rw [(h.shows e).wrapper hheld] at hwrapper
    cases hwrapper
  refine ⟨_, hstep, ⟨?inv, ?fresh, ?shows, ?records, ?wrappers, ?dispatches⟩, rfl, rfl, rfl⟩
  case inv =>
    rw [Function.forall_update_iff P fun _ d => d.Inv]
    exact ⟨Publication.inv_step (h.inv c) hstep, fun e _ => h.inv e⟩
  case fresh =>
    rw [Function.forall_update_iff P fun _ d => d.pc = .idle → d = {}]
    exact ⟨by simp, fun e _ => h.fresh e⟩
  case shows =>
    have hshows := h.shows c
    rw [hnew] at hshows
    rw [Function.forall_update_iff P fun e d => Shows _ e d]
    refine ⟨⟨by simp, by simp [hshows.history], by simp [Publication.record], by simp,
      by simp [hshows.queued]⟩, fun e he => ?_⟩
    refine (h.shows e).frame (by simp [he]) rfl rfl (fun hrefs => ?_) fun hheld => ?_
    · exact Function.update_of_ne (hpending e hrefs) ..
    · exact Function.update_of_ne (hwrapperAt e hheld) ..
  case records =>
    intro e e' he he' heq
    rw [Function.apply_update fun _ => PublishCall.pending,
      Function.apply_update fun _ => PublishCall.pending] at heq
    refine eq_of_update_eq h.records hpending (fun hne => ?_) (fun hne => ?_) heq
    · simpa [hne] using he
    · simpa [hne] using he'
  case wrappers =>
    intro e e' he he' heq
    rw [Function.apply_update fun _ => PublishCall.wrapper,
      Function.apply_update fun _ => PublishCall.wrapper] at heq
    refine eq_of_update_eq h.wrappers hwrapperAt (fun hne => ?_) (fun hne => ?_) heq
    · simpa [hne] using he
    · simpa [hne] using he'
  case dispatches =>
    have hmessage : ∀ p cb, s.running p = some cb → cb.message ≠ c := by
      rintro p cb hp rfl
      obtain ⟨-, hreport, hrunning⟩ := h.dispatches.running p cb hp
      rw [hreport, hnew] at hrunning
      cases hrunning
    refine ⟨fun p cb hp => ?_, h.dispatches.distinct, fun e he => ?_⟩
    · simpa [hmessage p cb hp] using h.dispatches.running p cb hp
    · rcases eq_or_ne e c with rfl | hne
      · rw [Function.update_self] at he
        cases he
      · rw [Function.update_of_ne hne] at he
        exact h.dispatches.handled e he

/-- No report begins or ends. -/
theorem Dispatches.of_same {P' : ℕ → Publication} (h : s.Dispatches P)
    (hrunning : t.running = s.running) (hcalls : ∀ e, (t.calls e).wrapper = (s.calls e).wrapper)
    (hreport : ∀ e, (P' e).report = (P e).report ∨
      (Publication.running (P e).report).isSome = false ∧
        (Publication.running (P' e).report).isSome = false) : t.Dispatches P' := by
  refine ⟨fun p cb hp => ?_, by rw [hrunning]; exact h.distinct, fun e he => ?_⟩
  · rw [hrunning] at hp
    obtain ⟨hwrapper, heq, hrun⟩ := h.running p cb hp
    refine ⟨hwrapper.trans (hcalls _).symm, heq.trans ?_, hrun⟩
    rcases hreport cb.message with hsame | ⟨hnone, -⟩
    · exact hsame.symm
    · rw [← heq, hrun] at hnone
      cases hnone
  · rw [hrunning]
    rcases hreport e with hsame | ⟨-, hnone⟩
    · exact h.handled e (hsame ▸ he)
    · rw [he] at hnone
      cases hnone

/-- The thread `p` starts or goes on with `dr_cb` for the message of `c`, or returns from it. -/
theorem Dispatches.update {p : Poller} {new : Option DeliveryCb} (h : s.Dispatches P)
    (hcalls : t.calls = s.calls) (hrunning : t.running = Function.update s.running p new)
    (hown : ∀ cb, s.running p = some cb → cb.message = c)
    (hothers : ∀ q cb, q ≠ p → s.running q = some cb → cb.message ≠ c)
    (hnew : ∀ cb, new = some cb → cb.message = c ∧ cb.wrapper = (s.calls c).wrapper ∧
      cb.report = d.report ∧ (Publication.running cb.report).isSome)
    (hhandled : (Publication.running d.report).isSome → new.isSome) :
    t.Dispatches (Function.update P c d) := by
  have hself : ∀ cb, t.running p = some cb → new = some cb := fun cb hp => by
    rwa [hrunning, Function.update_self] at hp
  have hother : ∀ q cb, q ≠ p → t.running q = some cb → s.running q = some cb :=
    fun q cb hne hq => by rwa [hrunning, Function.update_of_ne hne] at hq
  refine ⟨fun q cb hq => ?_, fun q q' cb cb' hq hq' heq => ?_, fun e he => ?_⟩
  · rcases eq_or_ne q p with rfl | hne
    · obtain ⟨rfl, hwrapper, hreport, hrun⟩ := hnew cb (hself cb hq)
      exact ⟨by rw [hcalls, hwrapper], by rw [Function.update_self, hreport], hrun⟩
    · have hq := hother q cb hne hq
      rw [hcalls, Function.update_of_ne (hothers q cb hne hq)]
      exact h.running q cb hq
  · by_cases hp : q = p <;> by_cases hp' : q' = p
    · rw [hp, hp']
    · subst hp
      exact absurd (heq.symm.trans (hnew cb (hself cb hq)).1)
        (hothers q' cb' hp' (hother q' cb' hp' hq'))
    · subst hp'
      exact absurd (heq.trans (hnew cb' (hself cb' hq')).1)
        (hothers q cb hp (hother q cb hp hq))
    · exact h.distinct q q' cb cb' (hother q cb hp hq) (hother q' cb' hp' hq') heq
  · rcases eq_or_ne e c with rfl | hne
    · rw [Function.update_self] at he
      obtain ⟨cb, hcb⟩ := Option.isSome_iff_exists.1 (hhandled he)
      exact ⟨p, cb, by rw [hrunning, Function.update_self, hcb], (hnew cb hcb).1⟩
    · rw [Function.update_of_ne hne] at he
      obtain ⟨q, cb, hq, rfl⟩ := h.handled e he
      have hqp : q ≠ p := by
        rintro rfl
        exact hne (hown cb hq)
      exact ⟨q, cb, by rw [hrunning, Function.update_of_ne hqp, hq], rfl⟩

/-- The call goes on. -/
theorem Represents.caller {answer : Bool} (h : s.Represents P)
    (hstep : s.step (.caller c answer) = some t) :
    ∃ d stat, (P c).step (.caller answer) = some (d, stat) ∧
      t.Represents (Function.update P c d) ∧ t.stats = s.stats.add stat ∧
      t.refused = s.refused + ((P c).refuses (.caller answer)).toNat ∧
      t.reported = s.reported := by
  simp only [step] at hstep
  split_ifs at hstep with hpc
  rw [(h.shows c).pc] at hpc
  have hidle : (P c).pc ≠ .idle := fun heq => hpc (.inl heq)
  obtain ⟨r, hr, hstep⟩ := Option.bind_eq_some_iff.1 hstep
  obtain ⟨⟨v, stat⟩, hv, rfl⟩ := Option.map_eq_some_iff.1 hstep
  have hcall : Publication.callRefs (P c).pc = 1 := by
    cases hret : (P c).pc with
    | idle => exact absurd hret hidle
    | returned result =>
      rw [Publication.callerStep_returned ((h.shows c).pc.trans hret)] at hv
      cases hv
    | _ => rfl
  have hlive : 0 < (P c).refs := (h.inv c).refs_pos (.inl hcall)
  have hview : (s.calls c).view r (s.histories c) = (P c).ofCaller := by
    rw [(h.shows c).record_eq hlive, Option.some.injEq] at hr
    subst hr
    rw [PublishCall.view, (h.shows c).pc, (h.shows c).history]
    rfl
  rw [hview] at hv
  have hown : (P c).callerStep answer = some ({ v with
      report := if v.report = .queued then .queued else (P c).report
      wrapper := (P c).wrapper && (P c).pc ≠ .refused }, stat) := by
    rw [Publication.callerStep_eq hidle, hv]
    rfl
  have hinv := Publication.inv_callerStep (h.inv c) hown
  refine ⟨_, stat, hown, h.update hinv (Publication.ne_idle_of_callerStep hown) ?shows ?calls
    ?others (fun _ => hlive) ?wrapper ?records ?wrappers ?dispatches, rfl, ?counted, rfl⟩
  case shows =>
    refine ⟨by simp, by simp, fun _ => by simp [Publication.record], fun hheld => ?_, ?_⟩
    · obtain ⟨hheld, hrefused⟩ := Bool.and_eq_true_iff.1 hheld
      simpa [(h.shows c).pc, of_decide_eq_true hrefused] using (h.shows c).wrapper hheld
    · by_cases hqueued : v.report = .queued
      · simp [hqueued]
      · simpa [hqueued] using (h.shows c).queued
  case calls =>
    intro e
    rcases eq_or_ne e c with rfl | hne
    · simp
    · simp [hne]
  case others =>
    intro e hne
    refine ⟨Function.update_of_ne hne .., Function.update_of_ne hne .., ?_⟩
    by_cases hqueued : v.report = .queued
    · simp [hqueued, hne]
    · simp [hqueued]
  case wrapper => exact fun hheld => (Bool.and_eq_true_iff.1 hheld).1
  case records =>
    intro r hr
    exact Function.update_of_ne (hr.resolve_right hlive.ne') ..
  case wrappers =>
    intro w hw
    by_cases hrefused : (P c).pc = .refused
    · have hheld : (P c).wrapper = true := by
        simp [(h.inv c).wrapper, hrefused, (h.inv c).unsent (.inr (.inr hrefused)),
          Publication.settled]
      have hne := hw.resolve_right (by simp [hheld])
      simp [(h.shows c).pc, hrefused, hne]
    · simp [(h.shows c).pc, hrefused]
  case dispatches =>
    refine h.dispatches.of_same rfl (fun e => ?_) fun e => ?_
    · rcases eq_or_ne e c with rfl | hne
      · simp
      · simp [hne]
    · rcases eq_or_ne e c with rfl | hne
      · rw [Function.update_self]
        rcases (h.inv e).report_callerStep hown with hsame | ⟨hunsent, hqueued⟩
        · exact .inl hsame
        · exact .inr ⟨by rw [hunsent]; rfl, by rw [hqueued]; rfl⟩
      · exact .inl (by rw [Function.update_of_ne hne])
  case counted =>
    by_cases hrefuses : (P c).pc = .allocated ∧ answer = false
    · simp [Publication.refuses, (h.shows c).pc, hrefuses]
    · have hnone : (P c).refuses (.caller answer) = false := by
        simpa [Publication.refuses] using hrefuses
      simp [(h.shows c).pc, hrefuses, hnone]

/-- A thread starts `dr_cb`, with the `msg_opaque` of the message. -/
theorem Represents.report {p : Poller} {ok : Bool} (h : s.Represents P)
    (hstep : s.step (.report p c ok) = some t) :
    ∃ d, (P c).step (.report ok) = some (d, none) ∧ t.Represents (Function.update P c d) ∧
      t.stats = s.stats ∧ t.refused = s.refused ∧ t.reported = s.reported + 1 := by
  simp only [step] at hstep
  split_ifs at hstep with hpolls
  obtain ⟨wrapper, hqueue, rfl⟩ := Option.map_eq_some_iff.1 hstep
  rw [(h.shows c).queued] at hqueue
  split_ifs at hqueue with hqueued
  cases hqueue
  have hown : (P c).step (.report ok) = some ({ P c with
      report := .counting ok
      history := (P c).history ++ [.reported ok] }, none) := if_pos hqueued
  have hidle : (P c).pc ≠ .idle := (h.inv c).fits.ne_idle (by simp [hqueued])
  have hmessage : ∀ q cb, s.running q = some cb → cb.message ≠ c := by
    rintro q cb hq rfl
    obtain ⟨-, hreport, hrunning⟩ := h.dispatches.running q cb hq
    rw [hreport, hqueued] at hrunning
    cases hrunning
  refine ⟨_, hown, h.update (Publication.inv_step (h.inv c) hown) hidle ?shows (fun _ => ⟨rfl, rfl⟩)
    ?others id id (fun _ _ => rfl) (fun _ _ => rfl) ?dispatches, rfl, rfl, rfl⟩
  case shows =>
    exact ⟨(h.shows c).pc, by simp [(h.shows c).history], (h.shows c).record, (h.shows c).wrapper,
      by simp⟩
  case others =>
    intro e hne
    exact ⟨rfl, Function.update_of_ne hne .., Function.update_of_ne hne ..⟩
  case dispatches =>
    refine h.dispatches.update rfl rfl (fun cb hp => ?_) (fun q cb _ => hmessage q cb) ?_
      fun _ => rfl
    · rw [hpolls.2] at hp
      cases hp
    · rintro cb ⟨⟩
      exact ⟨rfl, rfl, rfl, rfl⟩

/-- The wrapper of a message whose report is handled is still there, and its reference keeps the
record. -/
theorem Represents.held {p : Poller} {cb : DeliveryCb} (h : s.Represents P)
    (hp : s.running p = some cb) :
    (P cb.message).pc ≠ .idle ∧ (P cb.message).wrapper = true ∧ 0 < (P cb.message).refs := by
  obtain ⟨-, hreport, hrunning⟩ := h.dispatches.running p cb hp
  obtain ⟨ok, hok⟩ := Option.isSome_iff_exists.1 hrunning
  obtain ⟨hunsent, hfinished, -⟩ := Publication.running_eq_some hok
  rw [hreport] at hunsent hfinished
  have hinv := h.inv cb.message
  have hidle := hinv.fits.ne_idle hunsent
  have hwrapper : (P cb.message).wrapper = true := by
    simp [hinv.wrapper, hinv.fits.settled hunsent, hfinished, hidle]
  exact ⟨hidle, hwrapper, hinv.refs_pos (.inr hwrapper)⟩

theorem Represents.paired (h : s.Represents P) : s.Paired := by
  intro p cb hp
  obtain ⟨-, hwrapper, hrefs⟩ := h.held hp
  have hshows := h.shows cb.message
  refine ⟨?_, ?_⟩
  · rw [(h.dispatches.running p cb hp).1, hshows.wrapper hwrapper]
  · rw [hshows.record_eq hrefs]
    rfl

/-- `dr_cb` goes on. -/
theorem Represents.callback {p : Poller} {cb : DeliveryCb} (h : s.Represents P)
    (hp : s.running p = some cb) (hstep : s.callback p cb = some t) :
    ∃ d stat, (P cb.message).step .callback = some (d, stat) ∧
      t.Represents (Function.update P cb.message d) ∧ t.stats = s.stats.add stat ∧
      t.refused = s.refused ∧ t.reported = s.reported := by
  obtain ⟨hwrapper, hreport, hrunning⟩ := h.dispatches.running p cb hp
  obtain ⟨hidle, hheld, hlive⟩ := h.held hp
  have hshows := h.shows cb.message
  obtain ⟨pending, hpending, hstep⟩ := Option.bind_eq_some_iff.1 hstep
  -- what `msg_opaque` leads to is the record of the call
  obtain rfl := Option.some.inj (hpending.symm.trans (h.paired p cb hp).1)
  obtain ⟨r, hr, hstep⟩ := Option.bind_eq_some_iff.1 hstep
  obtain ⟨⟨v, stat⟩, hv, rfl⟩ := Option.map_eq_some_iff.1 hstep
  have hview : cb.view r (s.histories cb.message) = (P cb.message).ofCallback := by
    rw [hshows.record_eq hlive, Option.some.injEq] at hr
    subst hr
    rw [DeliveryCb.view, hreport, hshows.history]
    rfl
  rw [hview] at hv
  have hown : (P cb.message).callbackStep = some ({ v with
      pc := (P cb.message).pc
      wrapper := (P cb.message).wrapper && !Publication.isFinished v.report }, stat) := by
    rw [Publication.callbackStep_eq, hv]
    rfl
  have hruns : (Publication.running v.report).isSome = !Publication.isFinished v.report :=
    Publication.running_callbackStep hv
  refine ⟨_, stat, hown, h.update (Publication.inv_callbackStep (h.inv _) hown) hidle ?shows
    (fun _ => ⟨rfl, rfl⟩) ?others (fun _ => hlive) (fun _ => hheld) ?records ?wrappers ?dispatches,
    rfl, rfl, rfl⟩
  case shows =>
    refine ⟨hshows.pc, by simp, fun _ => by simp [Publication.record], fun hheld' => ?_, ?_⟩
    · have hgoes : Publication.isFinished v.report = false := by simpa [hheld] using hheld'
      simpa [hgoes] using hshows.wrapper hheld
    · have hbefore : (P cb.message).report ≠ .queued := by
        intro heq
        rw [hreport, heq] at hrunning
        cases hrunning
      have hafter : v.report ≠ .queued := by
        intro heq
        simp only [heq] at hruns
        cases hruns
      simpa [hbefore, hafter] using hshows.queued
  case others =>
    intro e hne
    exact ⟨rfl, Function.update_of_ne hne .., rfl⟩
  case records =>
    intro r hr
    exact Function.update_of_ne (hr.resolve_right hlive.ne') ..
  case wrappers =>
    intro w hw
    have hne : w ≠ cb.wrapper := hwrapper ▸ hw.resolve_right (by simp [hheld])
    by_cases hfinished : Publication.isFinished v.report = true
    · simp [hfinished, hne]
    · simp [hfinished]
  case dispatches =>
    refine h.dispatches.update rfl rfl (fun cb' hp' => ?_) (fun q cb' hne hq => ?_)
      (fun cb' hcb' => ?_) fun hrun => ?_
    · rw [hp] at hp'
      cases hp'
      rfl
    · exact fun heq => hne (h.dispatches.distinct q p cb' cb hq hp heq)
    · split_ifs at hcb' with hfinished
      cases hcb'
      refine ⟨rfl, hwrapper, rfl, ?_⟩
      simpa [hfinished] using hruns
    · rw [hruns] at hrun
      simp only [Bool.not_eq_true'] at hrun
      simp [hrun]

/-- What a step does to the publications, the counters and the numbers. -/
theorem step_cases (h : s.Represents P) (hstep : s.step a = some t) :
    ∃ c b d stat, s.target a = some (c, b) ∧ (P c).step b = some (d, stat) ∧
      t.Represents (Function.update P c d) ∧ t.stats = s.stats.add stat ∧
      t.refused = s.refused + ((P c).refuses b).toNat ∧
      t.reported = s.reported + (Publication.reports b).toNat := by
  cases a with
  | begin c pending wrapper =>
    obtain ⟨d, hd, ht, hstats, hrefused, hreported⟩ := h.begin hstep
    exact ⟨c, .caller true, d, none, rfl, hd, ht, hstats, by simp [hrefused, Publication.refuses],
      hreported⟩
  | caller c answer =>
    obtain ⟨d, stat, hd, ht, hstats, hrefused, hreported⟩ := h.caller hstep
    exact ⟨c, .caller answer, d, stat, rfl, hd, ht, hstats, hrefused, hreported⟩
  | report p c ok =>
    obtain ⟨d, hd, ht, hstats, hrefused, hreported⟩ := h.report hstep
    exact ⟨c, .report ok, d, none, rfl, hd, ht, hstats, by simp [hrefused, Publication.refuses],
      hreported⟩
  | callback p =>
    obtain ⟨cb, hp, hstep⟩ := Option.bind_eq_some_iff.1 hstep
    obtain ⟨d, stat, hd, ht, hstats, hrefused, hreported⟩ := h.callback hp hstep
    exact ⟨cb.message, .callback, d, stat, by simp [target, hp], hd, ht, hstats,
      by simp [hrefused, Publication.refuses], hreported⟩

/-! ## Each call runs on its own -/

theorem ownAct_of_target {b : PublicationAct} (h : s.target a = some (c, b)) :
    ownAct e s a = if c = e then some b else none := by
  simp [ownAct, h]

/-- The call after a run is what its own steps make it, whatever the other calls and the
reports of their messages do. -/
theorem exec_publications {acts : List KafkaAct} (c : ℕ) (h : exec step {} acts = some s) :
    ∃ d, exec Publication.next {} (observe step (ownAct c) {} acts) = some d ∧
      ∃ P, s.Represents P ∧ P c = d := by
  have hsim : ∀ s a t d, (∃ P, s.Represents P ∧ P c = d) → step s a = some t →
      ∃ d', exec Publication.next d (ownAct c s a).toList = some d' ∧
        ∃ P, t.Represents P ∧ P c = d' := by
    rintro s a t _ ⟨P, hP, rfl⟩ hstep
    obtain ⟨e, b, d, stat, htarget, hd, ht, -⟩ := step_cases hP hstep
    rw [ownAct_of_target htarget]
    refine ⟨Function.update P e d c, ?_, _, ht, rfl⟩
    rcases eq_or_ne e c with rfl | hne
    · simp [exec, Publication.next, hd]
    · simp [hne, hne.symm]
  exact exec_simulates hsim ⟨_, represents_init, rfl⟩ h

/-! ## The counters -/

/-- A set with the number of its elements, after the condition of one element changed. -/
theorem exists_card_eq {T : Finset ℕ} {x : Bool} (hx : c ∈ T ↔ x = true) (y : Bool) :
    ∃ T' : Finset ℕ, (c ∈ T' ↔ y = true) ∧ (∀ e, e ≠ c → (e ∈ T' ↔ e ∈ T)) ∧
      T'.card + x.toNat = T.card + y.toNat := by
  cases y with
  | false =>
    refine ⟨T.erase c, by simp, fun e he => by simp [he], ?_⟩
    cases x with
    | false => rw [Finset.erase_eq_of_notMem (by simpa using hx)]
    | true => simpa using Finset.card_erase_add_one (hx.2 rfl)
  | true =>
    refine ⟨insert c T, by simp, fun e he => by simp [he], ?_⟩
    cases x with
    | false => simpa using Finset.card_insert_of_notMem (by simpa using hx)
    | true => rw [Finset.insert_eq_of_mem (hx.2 rfl)]

/-- The counters as they would be without overflow. -/
theorem exists_add {stats : KafkaPublishStats} {p f : ℕ} (hp : stats.published = UInt64.ofNat p)
    (hf : stats.failed = UInt64.ofNat f) (stat : Option Stat) :
    ∃ p' f', (stats.add stat).published = UInt64.ofNat p' ∧
      (stats.add stat).failed = UInt64.ofNat f' ∧ p' + f' = p + f + Publication.counts stat := by
  cases stat with
  | none => exact ⟨p, f, hp, hf, rfl⟩
  | some stat =>
    cases stat with
    | published =>
      exact ⟨p + 1, f, by simp [KafkaPublishStats.add, hp], hf, Nat.add_right_comm p 1 f⟩
    | failed => exact ⟨p, f + 1, hp, by simp [KafkaPublishStats.add, hf], rfl⟩
    | timedOut => exact ⟨p, f, hp, hf, rfl⟩

/-- The invariant of the producer. -/
def Inv (s : KafkaProducer) : Prop :=
  ∃ P, s.Represents P ∧ ∃ (T : Finset ℕ) (p f : ℕ), (∀ c, c ∈ T ↔ (P c).uncounted = true) ∧
    s.stats.published = UInt64.ofNat p ∧ s.stats.failed = UInt64.ofNat f ∧
      p + f + T.card = s.refused + s.reported

theorem inv_init : Inv {} :=
  ⟨_, represents_init, ∅, 0, 0, by simp [Publication.uncounted, Publication.isCounting], rfl, rfl,
    rfl⟩

theorem inv_step (hi : s.Inv) (h : s.step a = some t) : t.Inv := by
  obtain ⟨P, hP, T, p, f, hT, hp, hf, hcard⟩ := hi
  obtain ⟨c, b, d, stat, -, hd, ht, hstats, hrefused, hreported⟩ := step_cases hP h
  obtain ⟨T', hc, hother, hcard'⟩ := exists_card_eq (hT c) d.uncounted
  obtain ⟨p', f', hp', hf', hsum⟩ := exists_add hp hf stat
  have hcounts := Publication.counts_step (hP.inv c) hd
  refine ⟨_, ht, T', p', f', ?_, hstats ▸ hp', hstats ▸ hf', by omega⟩
  rw [Function.forall_update_iff P fun e d => e ∈ T' ↔ d.uncounted = true]
  exact ⟨hc, fun e he => (hother e he).trans (hT e)⟩

theorem Represents.uncounted_iff (h : s.Represents P) (c : ℕ) :
    (P c).uncounted = true ↔ s.Uncounted c := by
  have hcounting : Publication.isCounting (P c).report = true ↔
      ∃ p cb, s.running p = some cb ∧ cb.message = c ∧
        Publication.isCounting cb.report = true := by
    constructor
    · intro hc
      have hrunning : (Publication.running (P c).report).isSome := by
        cases hr : (P c).report <;> simp_all [Publication.isCounting, Publication.running,
          Publication.outcome]
      obtain ⟨p, cb, hp, rfl⟩ := h.dispatches.handled c hrunning
      exact ⟨p, cb, hp, rfl, by rwa [(h.dispatches.running p cb hp).2.1]⟩
    · rintro ⟨p, cb, hp, rfl, hc⟩
      rwa [← (h.dispatches.running p cb hp).2.1]
  rw [Uncounted, (h.shows c).pc, ← hcounting, Publication.uncounted, decide_eq_true_iff]

theorem Inv.balanced (hi : s.Inv) : s.Balanced := by
  obtain ⟨P, hP, T, p, f, hT, hp, hf, hcard⟩ := hi
  refine ⟨T, fun c => (hT c).trans (hP.uncounted_iff c), ?_⟩
  rw [hp, hf, ← UInt64.ofNat_add, ← UInt64.ofNat_add, hcard]

/-- In every run `dr_cb` finds the record of the call whose message it was started for, and for
every call : it is what its own steps and the report of its own message make it; `true` is
returned only after the success report of the message was handled, and `false` only after a
refusal, a timeout or a failure report; and the wrapper is released once, by the refusal path or by
`dr_cb`. The counters account for the refusals and reports. -/
theorem publish_reports_own_message {acts : List KafkaAct} (h : exec step {} acts = some s) :
    s.Paired ∧
    (∀ c, ∃ d, exec Publication.next {} (observe step (ownAct c) {} acts) = some d ∧ s.Shows c d ∧
      Historic AllowedAfter (s.histories c) ∧ d.ReleasedOnce) ∧
    s.Balanced := by
  have hi : s.Inv := exec_invariant (fun _ _ _ hi h => inv_step hi h) inv_init h
  refine ⟨?_, fun c => ?_, hi.balanced⟩
  · obtain ⟨P, hP, -⟩ := hi
    exact hP.paired
  · obtain ⟨_, hd, P, hP, rfl⟩ := exec_publications c h
    have hinv := hP.inv c
    exact ⟨P c, hd, hP.shows c, (hP.shows c).history ▸ hinv.ordered, hinv.released, hinv.wrapper⟩

/-- The call `0` times out, the call `1` runs `dr_cb` for both messages in its `poll`, and the
message of the call `2`, whose record and wrapper are where those of the call `0` were, is
refused. -/
def lateReport : List KafkaAct :=
  List.flatten [[.begin 0 8 16], List.replicate 6 (.caller 0 true), [.begin 1 24 32],
    List.replicate 3 (.caller 1 true), [.report (.publish 1) 0 true],
    List.replicate 6 (.callback (.publish 1)), [.report (.publish 1) 1 true],
    List.replicate 6 (.callback (.publish 1)),
    [.caller 1 true, .caller 1 true, .caller 1 false, .caller 1 true],
    [.begin 2 8 16, .caller 2 false, .caller 2 true, .caller 2 true]]

theorem publish_reports_own_message_lateReport : ∃ s, exec step {} lateReport = some s ∧
    (s.histories 0 =
        [.timedOut, .returned false, .reported true, .handled true, .released .callback] ∧
      s.histories 1 = [.reported true, .handled true, .released .callback, .returned true] ∧
      s.histories 2 = [.refused, .released .refusal, .returned false] ∧
      s.stats = ⟨2, 1, 1⟩) ∧
    s.Paired ∧
    (∀ c, ∃ d, exec Publication.next {} (observe step (ownAct c) {} lateReport) = some d ∧
      s.Shows c d ∧ Historic AllowedAfter (s.histories c) ∧ d.ReleasedOnce) ∧
    s.Balanced := by
  obtain ⟨s, h, hs⟩ : ∃ s, exec step {} lateReport = some s ∧
      (s.histories 0 =
          [.timedOut, .returned false, .reported true, .handled true, .released .callback] ∧
        s.histories 1 = [.reported true, .handled true, .released .callback, .returned true] ∧
        s.histories 2 = [.refused, .released .refusal, .returned false] ∧
        s.stats = ⟨2, 1, 1⟩) :=
    exists_exec_of_any (by decide +kernel)
  exact ⟨s, h, hs, publish_reports_own_message h⟩

/-- The record of a call exists as long as the call can use it. -/
theorem record_outlives_use {acts : List KafkaAct} (h : exec step {} acts = some s)
    (huse : Publication.callRefs (s.calls c).pc = 1) :
    (s.records (s.calls c).pending).isSome := by
  obtain ⟨P, hP, -⟩ := exec_invariant (fun _ _ _ hi h => inv_step hi h) inv_init h
  rw [(hP.shows c).pc] at huse
  rw [(hP.shows c).record_eq ((hP.inv c).refs_pos (.inl huse))]
  rfl

end KafkaProducer

end Ridgeline
