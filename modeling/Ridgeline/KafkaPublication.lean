import Ridgeline.Transition

/-!
# One message to Kafka

`KafkaProducer::PublishSync` gives a message to librdkafka and polls until the delivery report of
the message is there or the deadline has passed. The record of the message is shared : the call has
one reference, and a wrapper with another one travels through librdkafka to `dr_cb`, which any
thread that polls can run, also long after the call has given up.

`Publication` is one call with its message, where each step is one of `PublishSync`, the start of
`dr_cb` for the message, or one of `dr_cb`. What librdkafka is assumed to do is that `dr_cb` starts
for a message that `produce` accepted, and once. The events of a call come in the order of
`AllowedAfter`, and its wrapper is released once (`Publication.Inv`).

The call and `dr_cb` see only a part of a publication each (`ofCaller`, `ofCallback`), and their
steps depend on nothing else (`callerStep_eq`, `callbackStep_eq`).
-/

namespace Ridgeline

/-! ## One call and its message -/

/-- Where a call of `PublishSync` is : before it, with the record and its wrapper, after `produce`
refused the message, after the wrapper was deleted, before the lock, at the condition of the loop,
in `poll`, before the lock again, at the deadline, and after it. -/
inductive PublishPc
  | idle
  | allocated
  | refused
  | deleted
  | accepted
  | testing
  | polling
  | polled
  | checking
  | returned (result : Bool)
  deriving DecidableEq, Repr

/-- Where the report of a message is : there is none to come, librdkafka has it, `dr_cb` is before
one of its statements, or it has returned. -/
inductive ReportState
  | unsent
  | queued
  | counting (ok : Bool)
  | locking (ok : Bool)
  | storing (ok : Bool)
  | marking (ok : Bool)
  | unlocking (ok : Bool)
  | deleting (ok : Bool)
  | finished (ok : Bool)
  deriving DecidableEq, Repr

/-- Who deletes the wrapper. -/
inductive Releaser
  | refusal
  | callback
  deriving DecidableEq, Repr

/-- What happens to a call and its message. A report is handled when it is in the record. -/
inductive PublicationEvent
  | refused
  | reported (ok : Bool)
  | handled (ok : Bool)
  | timedOut
  | returned (result : Bool)
  | released (releaser : Releaser)
  deriving DecidableEq, Repr

/-- The counters of `KafkaPublishStats`. -/
inductive Stat
  | published
  | failed
  | timedOut
  deriving DecidableEq, Repr

/-- A call, the report of its message, the record `PendingDelivery` with its mutex and the number of
references to it, whether there is a wrapper, and what happened. -/
structure Publication where
  pc : PublishPc := .idle
  report : ReportState := .unsent
  done : Bool := false
  success : Bool := false
  mu : Bool := false
  refs : ℕ := 0
  wrapper : Bool := false
  history : List PublicationEvent := []
  deriving DecidableEq, Repr

/-- The next statement of the call, the start of `dr_cb`, and the next statement of `dr_cb`. The
answer is the one of `produce`, or whether the deadline has passed. -/
inductive PublicationAct
  | caller (answer : Bool)
  | report (ok : Bool)
  | callback
  deriving DecidableEq, Repr

namespace Publication

/-- The call returns and drops its reference. -/
def leave (d : Publication) (result : Bool) : Publication :=
  { d with
    pc := .returned result
    refs := d.refs - 1
    history := d.history ++ [.returned result] }

/-- The next statement of `PublishSync`, and what it counts. -/
def callerStep (d : Publication) (answer : Bool) : Option (Publication × Option Stat) :=
  match d.pc with
  | .idle => some ({ d with pc := .allocated, refs := 2, wrapper := true }, none)
  | .allocated =>
    if answer then some ({ d with pc := .accepted, report := .queued }, none)
    else some ({ d with pc := .refused, history := d.history ++ [.refused] }, none)
  | .refused =>
    some ({ d with
      pc := .deleted
      refs := d.refs - 1
      wrapper := false
      history := d.history ++ [.released .refusal] }, none)
  | .deleted => some (d.leave false, some .failed)
  | .accepted => if d.mu then none else some ({ d with pc := .testing, mu := true }, none)
  | .testing =>
    if d.done then some (leave { d with mu := false } d.success, none)
    else some ({ d with pc := .polling, mu := false }, none)
  | .polling => some ({ d with pc := .polled }, none)
  | .polled => if d.mu then none else some ({ d with pc := .checking, mu := true }, none)
  | .checking =>
    if !d.done && answer then
      some (leave { d with mu := false, history := d.history ++ [.timedOut] } false, some .timedOut)
    else some ({ d with pc := .testing }, none)
  | .returned _ => none

/-- The next statement of `dr_cb`. -/
def callbackStep (d : Publication) : Option (Publication × Option Stat) :=
  match d.report with
  | .counting ok =>
    some ({ d with report := .locking ok }, some (if ok then .published else .failed))
  | .locking ok => if d.mu then none else some ({ d with report := .storing ok, mu := true }, none)
  | .storing ok => some ({ d with report := .marking ok, success := ok }, none)
  | .marking ok =>
    some ({ d with report := .unlocking ok, done := true, history := d.history ++ [.handled ok] },
      none)
  | .unlocking ok => some ({ d with report := .deleting ok, mu := false }, none)
  | .deleting ok =>
    some ({ d with
      report := .finished ok
      refs := d.refs - 1
      wrapper := false
      history := d.history ++ [.released .callback] }, none)
  | _ => none

/-- One step, and what it counts. -/
def step (d : Publication) : PublicationAct → Option (Publication × Option Stat)
  | .caller answer => d.callerStep answer
  | .report ok =>
    -- what librdkafka is assumed to do
    if d.report = .queued then
      some ({ d with report := .counting ok, history := d.history ++ [.reported ok] }, none)
    else none
  | .callback => d.callbackStep

/-- One step. -/
def next (d : Publication) (a : PublicationAct) : Option Publication :=
  (d.step a).map Prod.fst

/-- The step is a `produce` that refuses the message. -/
def refuses (d : Publication) (a : PublicationAct) : Bool :=
  d.pc = .allocated ∧ a = .caller false

/-- `dr_cb` has not counted the report yet. -/
def isCounting : ReportState → Bool
  | .counting _ => true
  | _ => false

/-- A refusal or a report is not counted yet. -/
def uncounted (d : Publication) : Bool :=
  d.pc = .refused ∨ d.pc = .deleted ∨ isCounting d.report

/-- The wrapper was deleted after the refusal of the message, or `dr_cb` has returned. -/
def settled : PublishPc → ReportState → Bool
  | .deleted, _ => true
  | .returned _, .unsent => true
  | _, .finished _ => true
  | _, _ => false

/-- How often the wrapper was released. -/
def releases (history : List PublicationEvent) : ℕ :=
  history.countP fun e => e = .released .refusal ∨ e = .released .callback

/-- The wrapper exists from the start of the call until it is released, which happens once, by the
refusal path or by `dr_cb`. -/
def ReleasedOnce (d : Publication) : Prop :=
  releases d.history = (settled d.pc d.report).toNat ∧
    d.wrapper = (d.pc ≠ .idle && !settled d.pc d.report)

end Publication

/-- What was before an event of a call. -/
def AllowedAfter (pre : List PublicationEvent) : PublicationEvent → Prop
  | .handled ok => .reported ok ∈ pre
  | .returned true => .handled true ∈ pre
  | .returned false => .refused ∈ pre ∨ .timedOut ∈ pre ∨ .handled false ∈ pre
  | .released .refusal => .refused ∈ pre
  | .released .callback => .handled true ∈ pre ∨ .handled false ∈ pre
  | _ => True

namespace Publication

/-! ## What holds of a call -/

/-- The reference of the call. -/
def callRefs : PublishPc → ℕ
  | .idle => 0
  | .returned _ => 0
  | _ => 1

/-- A report comes only after `produce` accepted the message. -/
def Fits : PublishPc → ReportState → Prop
  | .idle, r => r = .unsent
  | .allocated, r => r = .unsent
  | .refused, r => r = .unsent
  | .deleted, r => r = .unsent
  | .returned _, _ => True
  | _, r => r ≠ .unsent

/-- The outcome that `dr_cb` has, after it started. -/
def outcome : ReportState → Option Bool
  | .unsent => none
  | .queued => none
  | .counting ok => some ok
  | .locking ok => some ok
  | .storing ok => some ok
  | .marking ok => some ok
  | .unlocking ok => some ok
  | .deleting ok => some ok
  | .finished ok => some ok

/-- The outcome while `dr_cb` runs. -/
def running : ReportState → Option Bool
  | .unsent => none
  | .queued => none
  | .finished _ => none
  | r => outcome r

/-- The outcome that is in the record. -/
def stored : ReportState → Option Bool
  | .unlocking ok => some ok
  | .deleting ok => some ok
  | .finished ok => some ok
  | _ => none

/-- `dr_cb` has returned. -/
def isFinished : ReportState → Bool
  | .finished _ => true
  | _ => false

/-- The call waits for its report. -/
def waits : PublishPc → Bool
  | .accepted => true
  | .testing => true
  | .polling => true
  | .polled => true
  | .checking => true
  | _ => false

/-- The invariant of a call. -/
structure Inv (d : Publication) : Prop where
  fits : Fits d.pc d.report
  wrapper : d.wrapper = (d.pc ≠ .idle && !settled d.pc d.report)
  refs : d.refs = callRefs d.pc + d.wrapper.toNat
  released : releases d.history = (settled d.pc d.report).toNat
  refused : d.pc = .refused ∨ d.pc = .deleted → .refused ∈ d.history
  reported : ∀ ok, outcome d.report = some ok → .reported ok ∈ d.history
  marking : ∀ ok, d.report = .marking ok → d.success = ok
  done : d.done = (stored d.report).isSome
  success : ∀ ok, stored d.report = some ok → d.success = ok ∧ .handled ok ∈ d.history
  ordered : Historic AllowedAfter d.history

variable {d d' : Publication} {a : PublicationAct} {stat : Option Stat}

theorem inv_init : Inv {} where
  fits := rfl
  wrapper := rfl
  refs := rfl
  released := rfl
  refused := by simp
  reported := by simp [outcome]
  marking := by simp
  done := rfl
  success := by simp [stored]
  ordered := historic_nil _

theorem Inv.refs_pos (hi : d.Inv) (huse : callRefs d.pc = 1 ∨ d.wrapper = true) : 0 < d.refs := by
  rw [hi.refs]
  rcases huse with hcall | hwrapper
  · omega
  · simp [hwrapper]

theorem Inv.ne_unsent (hi : d.Inv) (hpc : waits d.pc = true) : d.report ≠ .unsent := by
  have hfits := hi.fits
  cases h : d.pc <;> simp_all [waits, Fits]

theorem Inv.unsent (hi : d.Inv) (hpc : d.pc = .idle ∨ d.pc = .allocated ∨ d.pc = .refused) :
    d.report = .unsent := by
  have hfits := hi.fits
  rcases hpc with hpc | hpc | hpc <;> rw [hpc] at hfits <;> exact hfits

theorem settled_of_waits {pc : PublishPc} {r : ReportState} (hpc : waits pc = true) :
    settled pc r = isFinished r := by
  cases pc <;> cases r <;> first | rfl | exact absurd hpc Bool.false_ne_true

theorem settled_returned {r : ReportState} (hr : r ≠ .unsent) (result : Bool) :
    settled (.returned result) r = isFinished r := by
  cases r <;> first | rfl | exact absurd rfl hr

theorem ne_idle_of_waits {pc : PublishPc} (hpc : waits pc = true) : pc ≠ .idle := by
  rintro rfl
  simp [waits] at hpc

theorem callRefs_of_waits {pc : PublishPc} (hpc : waits pc = true) : callRefs pc = 1 := by
  cases pc <;> first | rfl | exact absurd hpc Bool.false_ne_true

theorem fits_of_waits {pc : PublishPc} {r : ReportState} (hpc : waits pc = true)
    (hr : r ≠ .unsent) : Fits pc r := by
  cases pc <;> first | exact hr | exact absurd hpc Bool.false_ne_true

theorem releases_snoc (history : List PublicationEvent) (e : PublicationEvent) :
    releases (history ++ [e]) =
      releases history + if e = .released .refusal ∨ e = .released .callback then 1 else 0 := by
  simp [releases, List.countP_append, List.countP_cons]

/-- Something else happens than a release. -/
theorem Inv.log {e : PublicationEvent} (hi : d.Inv) (he : AllowedAfter d.history e)
    (hrel : ∀ r, e ≠ .released r) : Inv { d with history := d.history ++ [e] } where
  fits := hi.fits
  wrapper := hi.wrapper
  refs := hi.refs
  released := by
    rw [releases_snoc, if_neg (by simp [hrel])]
    exact hi.released
  refused h := List.mem_append_left _ (hi.refused h)
  reported ok h := List.mem_append_left _ (hi.reported ok h)
  marking := hi.marking
  done := hi.done
  success ok h := ⟨(hi.success ok h).1, List.mem_append_left _ (hi.success ok h).2⟩
  ordered := hi.ordered.snoc he

/-- A call that waits goes on. -/
theorem Inv.move {pc : PublishPc} (hi : d.Inv) (hpc : waits d.pc = true) (hpc' : waits pc = true)
    (mu : Bool) : Inv { d with pc := pc, mu := mu } where
  fits := fits_of_waits hpc' (hi.ne_unsent hpc)
  wrapper := by
    have hwrapper := hi.wrapper
    rw [settled_of_waits hpc] at hwrapper
    simpa [settled_of_waits hpc', ne_idle_of_waits hpc, ne_idle_of_waits hpc'] using hwrapper
  refs := by
    have hrefs := hi.refs
    rw [callRefs_of_waits hpc] at hrefs
    rw [callRefs_of_waits hpc', hrefs]
  released := by
    have hreleased := hi.released
    rw [settled_of_waits hpc] at hreleased
    rw [settled_of_waits hpc']
    exact hreleased
  refused h := by rcases h with rfl | rfl <;> exact absurd hpc' (by decide)
  reported := hi.reported
  marking := hi.marking
  done := hi.done
  success := hi.success
  ordered := hi.ordered

/-- The call returns. -/
theorem Inv.leave {result : Bool} (hi : d.Inv) (hpc : d.pc = .deleted ∨ waits d.pc = true)
    (hresult : AllowedAfter d.history (.returned result)) (mu : Bool) :
    Inv (Publication.leave { d with mu := mu } result) := by
  have hsettled : settled (.returned result) d.report = settled d.pc d.report := by
    rcases hpc with hpc | hpc
    · have hfits := hi.fits
      rw [hpc] at hfits
      rw [hpc, show d.report = .unsent from hfits]
      rfl
    · rw [settled_of_waits hpc, settled_returned (hi.ne_unsent hpc)]
  have hidle : d.pc ≠ .idle := by
    rcases hpc with hpc | hpc
    · simp [hpc]
    · exact ne_idle_of_waits hpc
  have hcall : callRefs d.pc = 1 := by
    rcases hpc with hpc | hpc
    · rw [hpc]
      rfl
    · exact callRefs_of_waits hpc
  have hlog := hi.log hresult (by simp)
  refine ⟨trivial, ?_, ?_, ?_, by simp [Publication.leave], hlog.reported, hlog.marking, hlog.done,
    hlog.success, hlog.ordered⟩
  · simpa [Publication.leave, hsettled, hidle] using hi.wrapper
  · have hrefs := hi.refs
    rw [hcall] at hrefs
    simp [Publication.leave, hrefs, callRefs]
  · exact hlog.released.trans (congrArg Bool.toNat hsettled.symm)

/-- The message is given to `produce`, which accepts it. -/
theorem Inv.accept (hi : d.Inv) (hpc : d.pc = .allocated) :
    Inv { d with pc := .accepted, report := .queued } := by
  have hr := hi.unsent (.inr (.inl hpc))
  refine ⟨by simp [Fits], ?_, ?_, ?_, by simp, by simp [outcome], by simp, ?_, by simp [stored],
    hi.ordered⟩
  · simpa [hpc, hr, settled] using hi.wrapper
  · simpa [hpc, callRefs] using hi.refs
  · simpa [hpc, hr, settled] using hi.released
  · simpa [hr, stored] using hi.done

/-- The message is refused. -/
theorem Inv.refuse (hi : d.Inv) (hpc : d.pc = .allocated) :
    Inv { d with pc := .refused, history := d.history ++ [.refused] } := by
  have hr := hi.unsent (.inr (.inl hpc))
  have hlog := hi.log (e := .refused) trivial (by simp)
  refine ⟨hr, ?_, ?_, ?_, by simp, hlog.reported, hlog.marking, hlog.done, hlog.success,
    hlog.ordered⟩
  · simpa [hpc, hr, settled] using hi.wrapper
  · simpa [hpc, callRefs] using hi.refs
  · simpa [hpc, hr, settled] using hlog.released

/-- The refusal path deletes the wrapper. -/
theorem Inv.delete (hi : d.Inv) (hpc : d.pc = .refused) : Inv { d with
    pc := .deleted
    refs := d.refs - 1
    wrapper := false
    history := d.history ++ [.released .refusal] } := by
  have hr := hi.unsent (.inr (.inr hpc))
  have hrefused := hi.refused (.inl hpc)
  refine ⟨hr, by simp [settled], ?_, ?_, by simp [hrefused], by simp [hr, outcome], by simp [hr],
    hi.done, by simp [hr, stored], hi.ordered.snoc ?_⟩
  · simp [hi.refs, hi.wrapper, hpc, hr, callRefs, settled]
  · simp [releases_snoc, hi.released, hpc, hr, settled]
  · exact hrefused

theorem inv_callerStep {answer : Bool} (hi : d.Inv) (h : d.callerStep answer = some (d', stat)) :
    d'.Inv := by
  unfold callerStep at h
  split at h
  case h_1 hpc =>
    cases h
    have hr := hi.unsent (.inl hpc)
    refine ⟨hr, ?_, rfl, ?_, by simp, hi.reported, hi.marking, hi.done, hi.success, hi.ordered⟩
    · simp [hr, settled]
    · simpa [hpc, hr, settled] using hi.released
  case h_2 hpc =>
    split_ifs at h
    · cases h
      exact hi.accept hpc
    · cases h
      exact hi.refuse hpc
  case h_3 hpc =>
    cases h
    exact hi.delete hpc
  case h_4 hpc =>
    cases h
    have hresult : AllowedAfter d.history (.returned false) := .inl (hi.refused (.inr hpc))
    exact hi.leave (.inl hpc) hresult d.mu
  case h_5 hpc =>
    split_ifs at h
    cases h
    exact hi.move (by rw [hpc]; rfl) rfl true
  case h_6 hpc =>
    split_ifs at h with hdone
    · cases h
      obtain ⟨ok, hok⟩ := Option.isSome_iff_exists.1 (hi.done.symm.trans hdone)
      obtain ⟨hsuccess, hhandled⟩ := hi.success ok hok
      refine hi.leave (.inr (by rw [hpc]; rfl)) ?_ false
      rw [hsuccess]
      cases ok with
      | true => exact hhandled
      | false => exact .inr (.inr hhandled)
    · cases h
      exact hi.move (by rw [hpc]; rfl) rfl false
  case h_7 hpc =>
    cases h
    exact hi.move (by rw [hpc]; rfl) rfl d.mu
  case h_8 hpc =>
    split_ifs at h
    cases h
    exact hi.move (by rw [hpc]; rfl) rfl true
  case h_9 hpc =>
    split_ifs at h
    · cases h
      have hlog := hi.log (e := .timedOut) trivial (by simp)
      have hresult : AllowedAfter (d.history ++ [.timedOut]) (.returned false) :=
        .inr (.inl (by simp))
      exact hlog.leave (.inr (by rw [hpc]; rfl)) hresult false
    · cases h
      exact hi.move (by rw [hpc]; rfl) rfl d.mu
  case h_10 hpc => cases h

theorem Fits.ne_idle {pc : PublishPc} {r : ReportState} (hf : Fits pc r) (hr : r ≠ .unsent) :
    pc ≠ .idle := by
  rintro rfl
  exact hr hf

theorem Fits.accepted {pc : PublishPc} {r : ReportState} (hf : Fits pc r) (hr : r ≠ .unsent) :
    pc ≠ .refused ∧ pc ≠ .deleted := by
  constructor <;> rintro rfl <;> exact hr hf

theorem Fits.change {pc : PublishPc} {r r' : ReportState} (hf : Fits pc r) (hr : r ≠ .unsent)
    (hr' : r' ≠ .unsent) : Fits pc r' := by
  cases pc <;> first | exact hr' | exact trivial | exact absurd hf hr

theorem Fits.settled {pc : PublishPc} {r : ReportState} (hf : Fits pc r) (hr : r ≠ .unsent) :
    settled pc r = isFinished r := by
  cases pc with
  | idle | allocated | refused | deleted => exact absurd hf hr
  | returned result => exact settled_returned hr result
  | _ => exact settled_of_waits rfl

/-- The report moves, with what is then in the record. -/
theorem Inv.setReport {r : ReportState} {done success : Bool} (hi : d.Inv) (hd : d.report ≠ .unsent)
    (hfin : isFinished d.report = false) (hr : r ≠ .unsent) (hfin' : isFinished r = false)
    (hreported : ∀ ok, outcome r = some ok → .reported ok ∈ d.history)
    (hmarking : ∀ ok, r = .marking ok → success = ok) (hdone : done = (stored r).isSome)
    (hstored : ∀ ok, stored r = some ok → success = ok ∧ .handled ok ∈ d.history) (mu : Bool) :
    Inv { d with report := r, done := done, success := success, mu := mu } := by
  have hsettled : settled d.pc r = settled d.pc d.report := by
    rw [hi.fits.settled hd, (hi.fits.change hd hr).settled hr, hfin, hfin']
  refine ⟨hi.fits.change hd hr, ?_, hi.refs, ?_, hi.refused, hreported, hmarking, hdone, hstored,
    hi.ordered⟩
  · rw [hsettled]
    exact hi.wrapper
  · rw [hsettled]
    exact hi.released

/-- `dr_cb` returns. -/
theorem Inv.finish {ok : Bool} (hi : d.Inv) (hr : d.report = .deleting ok) : Inv { d with
    report := .finished ok
    refs := d.refs - 1
    wrapper := false
    history := d.history ++ [.released .callback] } := by
  have hunsent : d.report ≠ .unsent := by simp [hr]
  have hfits : Fits d.pc (.finished ok) := hi.fits.change hunsent (by simp)
  have hsettled : settled d.pc d.report = false := by
    rw [hi.fits.settled hunsent, hr]
    rfl
  have hsettled' : settled d.pc (.finished ok) = true := hfits.settled (by simp)
  obtain ⟨hsuccess, hhandled⟩ := hi.success ok (by rw [hr]; rfl)
  have hreported := hi.reported ok (by rw [hr]; rfl)
  refine ⟨hfits, by simp [hsettled'], ?_, ?_, fun h => List.mem_append_left _ (hi.refused h), ?_,
    by simp, ?_, ?_, hi.ordered.snoc ?_⟩
  · simp [hi.refs, hi.wrapper, hsettled, hi.fits.ne_idle hunsent]
  · simp [releases_snoc, hi.released, hsettled, hsettled']
  · rintro ok' hok
    cases hok
    exact List.mem_append_left _ hreported
  · simpa [hr, stored] using hi.done
  · rintro ok' hok
    cases hok
    exact ⟨hsuccess, List.mem_append_left _ hhandled⟩
  · cases ok with
    | true => exact .inl hhandled
    | false => exact .inr hhandled

theorem running_eq_some {r : ReportState} {ok : Bool} (h : running r = some ok) :
    r ≠ .unsent ∧ isFinished r = false ∧ outcome r = some ok := by
  cases r <;> simp_all [running, outcome, isFinished]

/-- `dr_cb` goes on. -/
theorem Inv.advance {r : ReportState} {ok done success : Bool} (hi : d.Inv)
    (hd : running d.report = some ok) (hr : running r = some ok)
    (hmarking : ∀ ok, r = .marking ok → success = ok) (hdone : done = (stored r).isSome)
    (hstored : ∀ ok, stored r = some ok → success = ok ∧ .handled ok ∈ d.history) (mu : Bool) :
    Inv { d with report := r, done := done, success := success, mu := mu } := by
  obtain ⟨hd, hfin, hout⟩ := running_eq_some hd
  obtain ⟨hr, hfin', hout'⟩ := running_eq_some hr
  refine hi.setReport hd hfin hr hfin' (fun ok' hok => ?_) hmarking hdone hstored mu
  exact hi.reported ok' (hout.trans (hout'.symm.trans hok))

theorem inv_callbackStep (hi : d.Inv) (h : d.callbackStep = some (d', stat)) : d'.Inv := by
  unfold callbackStep at h
  split at h
  case h_1 ok hr =>
    cases h
    exact hi.advance (by rw [hr]; rfl) rfl (by simp) (by simp [hi.done, hr, stored])
      (by simp [stored]) d.mu
  case h_2 ok hr =>
    split_ifs at h
    cases h
    exact hi.advance (by rw [hr]; rfl) rfl (by simp) (by simp [hi.done, hr, stored])
      (by simp [stored]) true
  case h_3 ok hr =>
    cases h
    exact hi.advance (by rw [hr]; rfl) rfl (by simp) (by simp [hi.done, hr, stored])
      (by simp [stored]) d.mu
  case h_4 ok hr =>
    cases h
    have hlog := hi.log (e := .handled ok) (hi.reported ok (by rw [hr]; rfl)) (by simp)
    exact hlog.advance (by rw [hr]; rfl) rfl (by simp) (by simp [stored])
      (by simp [stored, hi.marking ok hr]) d.mu
  case h_5 ok hr =>
    cases h
    exact hi.advance (by rw [hr]; rfl) rfl (by simp) (by simp [hi.done, hr, stored])
      (fun ok' hok => hi.success ok' (by rw [hr]; exact hok)) false
  case h_6 ok hr =>
    cases h
    exact hi.finish hr
  case h_7 => cases h

theorem inv_step (hi : d.Inv) (h : d.step a = some (d', stat)) : d'.Inv := by
  cases a with
  | caller answer => exact inv_callerStep hi h
  | report ok =>
    simp only [step] at h
    split_ifs at h with hr
    cases h
    have hlog := hi.log (e := .reported ok) trivial (by simp)
    exact hlog.setReport (by simp [hr]) (by rw [hr]; rfl) (by simp) rfl (by simp [outcome])
      (by simp) (by simp [hi.done, hr, stored]) (by simp [stored]) d.mu
  | callback => exact inv_callbackStep hi h

/-! ## What is counted -/

/-- What a step adds to `published + failed`. -/
def counts : Option Stat → ℕ
  | some .published => 1
  | some .failed => 1
  | _ => 0

/-- The step is the start of `dr_cb`. -/
def reports : PublicationAct → Bool
  | .report _ => true
  | _ => false

theorem counts_callerStep {answer : Bool} (hi : d.Inv) (h : d.callerStep answer = some (d', stat)) :
    d'.uncounted.toNat + counts stat =
      d.uncounted.toNat + (d.refuses (.caller answer)).toNat := by
  have hfits := hi.fits
  unfold callerStep at h
  split at h
  case h_2 hpc =>
    have hr := hi.unsent (.inr (.inl hpc))
    split_ifs at h with hanswer <;> cases h
    · simp [uncounted, refuses, hpc, hr, hanswer, isCounting, counts]
    · simp [uncounted, refuses, hpc, hr, hanswer, isCounting, counts]
  case h_4 hpc =>
    rw [hpc] at hfits
    have hr : d.report = .unsent := hfits
    cases h
    simp [uncounted, refuses, leave, hpc, hr, isCounting, counts]
  case h_1 hpc | h_3 hpc | h_7 hpc =>
    cases h
    simp [uncounted, refuses, hpc, counts]
  case h_5 hpc | h_6 hpc | h_8 hpc | h_9 hpc =>
    split_ifs at h <;> cases h <;> simp [uncounted, refuses, leave, hpc, counts]
  case h_10 => cases h

/-- A refusal or a report is counted once. -/
theorem counts_step (hi : d.Inv) (h : d.step a = some (d', stat)) :
    d'.uncounted.toNat + counts stat =
      d.uncounted.toNat + (d.refuses a).toNat + (reports a).toNat := by
  cases a with
  | caller answer => exact counts_callerStep hi h
  | report ok =>
    simp only [step] at h
    split_ifs at h with hr
    cases h
    obtain ⟨hrefused, hdeleted⟩ := hi.fits.accepted (by simp [hr])
    simp [uncounted, refuses, reports, hr, hrefused, hdeleted, isCounting, counts]
  | callback =>
    simp only [step, callbackStep] at h
    split at h
    case h_1 ok hr =>
      cases h
      obtain ⟨hrefused, hdeleted⟩ := hi.fits.accepted (by simp [hr])
      cases ok <;> simp [uncounted, refuses, reports, hr, hrefused, hdeleted, isCounting, counts]
    case h_2 ok hr =>
      split_ifs at h
      cases h
      simp [uncounted, refuses, reports, hr, isCounting, counts]
    case h_3 ok hr | h_4 ok hr | h_5 ok hr | h_6 ok hr =>
      cases h
      simp [uncounted, refuses, reports, hr, isCounting, counts]
    case h_7 => cases h

theorem callerStep_returned {answer result : Bool} (h : d.pc = .returned result) :
    d.callerStep answer = none := by
  simp [callerStep, h]

theorem ne_idle_of_callerStep {answer : Bool} (h : d.callerStep answer = some (d', stat)) :
    d'.pc ≠ .idle := by
  unfold callerStep at h
  split at h
  case h_1 | h_3 | h_4 | h_7 =>
    cases h
    simp [leave]
  case h_2 | h_5 | h_6 | h_8 | h_9 => split_ifs at h <;> cases h <;> simp [leave]
  case h_10 => cases h

/-- The call changes the state of its report only by giving the message to `produce`. -/
theorem Inv.report_callerStep {answer : Bool} (hi : d.Inv)
    (h : d.callerStep answer = some (d', stat)) :
    d'.report = d.report ∨ d.report = .unsent ∧ d'.report = .queued := by
  unfold callerStep at h
  split at h
  case h_2 hpc =>
    split_ifs at h <;> cases h
    · exact .inr ⟨hi.unsent (.inr (.inl hpc)), rfl⟩
    · exact .inl rfl
  case h_1 | h_3 | h_4 | h_7 =>
    cases h
    exact .inl rfl
  case h_5 | h_6 | h_8 | h_9 => split_ifs at h <;> cases h <;> exact .inl rfl
  case h_10 => cases h

theorem running_callbackStep (h : d.callbackStep = some (d', stat)) :
    (running d'.report).isSome = !isFinished d'.report := by
  unfold callbackStep at h
  split at h
  case h_2 =>
    split_ifs at h
    cases h
    rfl
  case h_1 | h_3 | h_4 | h_5 | h_6 =>
    cases h
    rfl
  case h_7 => cases h

/-! ## What the two sides see -/

/-- What the call sees : not its message, and not the wrapper once it has given it away. -/
def ofCaller (d : Publication) : Publication :=
  { d with report := .unsent, wrapper := false }

/-- What `dr_cb` sees : not where the call is. -/
def ofCallback (d : Publication) : Publication :=
  { d with pc := .idle, wrapper := false }

theorem callerStep_eq (hpc : d.pc ≠ .idle) (answer : Bool) : d.callerStep answer =
    (d.ofCaller.callerStep answer).map fun r =>
      ({ r.1 with
        report := if r.1.report = .queued then .queued else d.report
        wrapper := d.wrapper && d.pc ≠ .refused }, r.2) := by
  obtain ⟨pc, report, done, success, mu, refs, wrapper, history⟩ := d
  cases pc with
  | idle => exact absurd rfl hpc
  | allocated => cases answer <;> simp [callerStep, ofCaller]
  | refused | deleted | polling | returned => simp [callerStep, ofCaller, leave]
  | accepted | polled => cases mu <;> simp [callerStep, ofCaller]
  | testing => cases done <;> simp [callerStep, ofCaller, leave]
  | checking => cases done <;> cases answer <;> simp [callerStep, ofCaller, leave]

theorem callbackStep_eq (d : Publication) : d.callbackStep =
    d.ofCallback.callbackStep.map fun r =>
      ({ r.1 with pc := d.pc, wrapper := d.wrapper && !isFinished r.1.report }, r.2) := by
  obtain ⟨pc, report, done, success, mu, refs, wrapper, history⟩ := d
  cases report with
  | locking ok => cases mu <;> simp [callbackStep, ofCallback, isFinished]
  | _ => simp [callbackStep, ofCallback, isFinished]

end Publication

end Ridgeline
