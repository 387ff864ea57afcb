import Mathlib.Algebra.Order.Ring.Unbundled.Rat
import Ridgeline.Ingest
import Ridgeline.VersionedSlot

/-!
# Config reconciliation

The agent's side of the desired and reported configuration. The reader of the stream stores
a pushed `ConfigUpdate` as pending under `config_mu`, the producer polls under the same lock
and applies it, and the heartbeat reports the version applied. A reconnect starts a new reader
and leaves the variables, so a process has one sequence of updates received.

The three variables are a `VersionedSlot` : the applied version never decreases, no version is
applied twice, and an update is stored exactly when it is newer than all before it
(`config_reconciles`). A zero field of an update keeps the current value, and an update that is
still pending is replaced by a newer one. So two agents that report the same version may run
with different parameters (`skipped_update_matters`). The parameters follow from the updates
received, whatever the timing, exactly when each one is set by the last update or was never
changed before it (`timing_independent_iff`).
-/

namespace Ridgeline

/-- The two producers of `main` : of `--video`, and of fake detections. -/
inductive ProducerKind
  | video
  | fake
  deriving DecidableEq, Repr

/-- `current_confirm_k`, `current_confirm_n`, `current_score_threshold` and
`current_rate_hz`. -/
@[ext] structure LiveParams where
  confirmK : UInt32
  confirmN : UInt32
  scoreThreshold : ℚ
  rateHz : ℚ
  deriving DecidableEq, Repr

/-- What the producer does with an update. It looks at the fields that are for it, and a field
that is not positive keeps the current value. -/
def LiveParams.apply (kind : ProducerKind) (p : LiveParams) (u : ConfigUpdate) : LiveParams :=
  match kind with
  | .video =>
    { p with
      confirmK := if u.confirmK > 0 then u.confirmK else p.confirmK
      confirmN := if u.confirmN > 0 then u.confirmN else p.confirmN
      scoreThreshold :=
        if u.confidenceThreshold > 0 then u.confidenceThreshold else p.scoreThreshold }
  | .fake => { p with rateHz := if u.targetFps > 0 then u.targetFps.toNat else p.rateHz }

/-- The default `ConfigUpdate`, which `pending_config` is at the start. -/
def ConfigUpdate.zero : ConfigUpdate :=
  ⟨0, 0, 0, 0, 0⟩

/-- `pending_config`, `pending_config_set` and `applied_config_version`, the parameters, and
the updates received and applied. -/
abbrev ConfigState : Type :=
  SlotRun ConfigUpdate UInt64 LiveParams

namespace ConfigState

variable (kind : ProducerKind)

/-- The reader handles an update, or the producer polls. -/
def step (s : ConfigState) (a : SlotAct ConfigUpdate) : Option ConfigState :=
  SlotRun.step ConfigUpdate.version (LiveParams.apply kind) s a

/-- The variables at the start of `main`. -/
def start (p : LiveParams) : ConfigState :=
  SlotRun.start ConfigUpdate.version .zero p

/-- What holds in every state, for the next step and for all updates so far. -/
structure Reconciled (s : ConfigState) : Prop where
  monotone : ∀ a t, s.step kind a = some t → s.slot.applied ≤ t.slot.applied
  once : (s.taken.map ConfigUpdate.version).Nodup
  /-- An update is stored if its version exceeds 0 and all those received before. -/
  stored : ∀ u t, s.step kind (.offer u) = some t → t.slot =
    if 0 < u.version ∧ ∀ w ∈ s.offered, w.version < u.version then ⟨u, true, s.slot.applied⟩
    else s.slot
  settled : s.slot.pendingSet = false → s.slot.applied = s.slot.pending.version

variable {kind}

/-- A heartbeat that reports the desired version is not answered with an update. -/
theorem sent_onHeartbeat_eq_none {g : Integrations} {s : Stream} {hb : Heartbeat} {ans : Answers}
    (h : ∀ u ∈ ans.desired s.deviceId, u.version ≤ hb.appliedConfigVersion) :
    (s.onHeartbeat g hb ans).sent = none := by
  have hpush : s.configPush g hb ans = none := by
    unfold Stream.configPush
    split_ifs
    · exact Option.filter_eq_none_iff.2 fun u hu => by simpa using h u hu
    · rfl
  by_cases hdev : s.deviceId = []
  · simp [Stream.onHeartbeat, hdev]
  · simp [Stream.onHeartbeat, hdev, hpush]

/-- For every interleaving of updates received, in any order and repeated, with the polls of
the producer, the applied version never decreases, no version is applied twice, an update is
stored exactly when its version exceeds 0 and all those received before, and the applied
version is that of the stored update unless this is pending. A heartbeat that reports at least
the desired version is not answered with an update. -/
theorem config_reconciles (p : LiveParams) {as : List (SlotAct ConfigUpdate)} {s : ConfigState}
    (h : exec (step kind) (start p) as = some s) :
    s.Reconciled kind ∧
      ∀ (g : Integrations) (stream : Stream) (hb : Heartbeat) (ans : Answers),
        (∀ u ∈ ans.desired stream.deviceId, u.version ≤ hb.appliedConfigVersion) →
          (stream.onHeartbeat g hb ans).sent = none := by
  have hinv := SlotRun.inv_of_exec h
  refine ⟨⟨fun a t ht => hinv.applied_le_of_step ht, ?_, ?_, hinv.settled⟩,
    fun _ _ _ _ => sent_onHeartbeat_eq_none⟩
  · exact hinv.increasing.imp fun hlt => hlt.ne
  · intro u t ht
    cases ht
    have hadmits := hinv.admits_iff (u := u)
    rw [List.forall_mem_cons] at hadmits
    exact if_congr hadmits rfl rfl

/-- Version 2 replaces version 1 while it is pending, version 1 comes again after a reconnect,
and version 3 comes once 2 is applied. -/
def reorderedRun : List (SlotAct ConfigUpdate) :=
  [.offer ⟨1, 0, 2, 0, 0⟩, .offer ⟨2, 0, 0, 7, 0⟩, .poll, .offer ⟨1, 0, 2, 0, 0⟩, .poll,
    .offer ⟨3, 0, 0, 0, 15⟩]

theorem config_reconciles_reorderedRun : ∃ s,
    exec (step .video) (start ⟨3, 5, 3 / 10, 5⟩) reorderedRun = some s ∧
      s.slot.applied = 2 ∧ s.slot.pendingSet = true ∧ s.Reconciled .video := by
  obtain ⟨s, hs, happlied, hset⟩ : ∃ s,
      exec (step .video) (start ⟨3, 5, 3 / 10, 5⟩) reorderedRun = some s ∧
        s.slot.applied = 2 ∧ s.slot.pendingSet = true := exists_exec_of_any (by decide)
  exact ⟨s, hs, happlied, hset, (config_reconciles _ hs).1⟩

/-! ## The effective configuration -/

variable (kind)

/-- Any two schedules of the producer's polls, over the updates `us` received in this order,
that end with the version `v` applied leave the same parameters. -/
def TimingIndependent (p : LiveParams) (us : List ConfigUpdate) (v : UInt64) : Prop :=
  ∀ as bs s t, SlotAct.offers as = us → SlotAct.offers bs = us →
    exec (step kind) (start p) as = some s → exec (step kind) (start p) bs = some t →
      s.slot.applied = v → t.slot.applied = v → s.state = t.state

/-- The last update sets the field, or none before it changes it. An update of version 0 is
never applied. -/
def FieldSettled {β : Type*} (sets : ConfigUpdate → Prop) (field : ConfigUpdate → β) (x : β)
    (earlier : List ConfigUpdate) (last : ConfigUpdate) : Prop :=
  sets last ∨ ∀ u ∈ earlier, 0 < u.version → sets u → field u = x

/-- So it is for each field that is for the producer. -/
def Settled (p : LiveParams) (earlier : List ConfigUpdate) (last : ConfigUpdate) : Prop :=
  match kind with
  | .video =>
    FieldSettled (·.confirmK > 0) (·.confirmK) p.confirmK earlier last ∧
      FieldSettled (·.confirmN > 0) (·.confirmN) p.confirmN earlier last ∧
        FieldSettled (·.confidenceThreshold > 0) (·.confidenceThreshold) p.scoreThreshold
          earlier last
  | .fake => FieldSettled (·.targetFps > 0) (fun u => (u.targetFps.toNat : ℚ)) p.rateHz earlier last

variable {p : LiveParams} {earlier : List ConfigUpdate} {last : ConfigUpdate}

/-- A field of the parameters on its own, if the updates set it or keep it. -/
theorem fieldSettled_iff {β : Type*} {sets : ConfigUpdate → Prop} [DecidablePred sets]
    {field : ConfigUpdate → β} (get : LiveParams → β)
    (happly : ∀ p u, keepOrSet sets field (get p) u = get (LiveParams.apply kind p u)) :
    FieldSettled sets field (get p) earlier last ↔
      ∀ l : List ConfigUpdate, l.Sublist (earlier.filter fun u => 0 < u.version) →
        get ((l ++ [last]).foldl (LiveParams.apply kind) p) =
          get (LiveParams.apply kind p last) := by
  have hiff := foldl_keepOrSet_iff sets field (get p) last (earlier.filter fun u => 0 < u.version)
  simp only [List.foldl_hom get happly, happly, List.mem_filter, decide_eq_true_eq, and_imp] at hiff
  exact hiff.symm

/-- A field that is not for the producer stays as it is. -/
theorem foldl_apply_of_fixed {β : Type*} (get : LiveParams → β)
    (hget : ∀ p u, get (LiveParams.apply kind p u) = get p) (us : List ConfigUpdate) :
    get (us.foldl (LiveParams.apply kind) p) = get p := by
  have hfold : us.foldl (fun y _ => y) (get p) = get (us.foldl (LiveParams.apply kind) p) :=
    List.foldl_hom get fun p u => (hget p u).symm
  rw [← hfold, List.foldl_fixed]

/-- The parameters are the same when each field is. -/
theorem settled_iff : Settled kind p earlier last ↔
    ∀ l : List ConfigUpdate, l.Sublist (earlier.filter fun u => 0 < u.version) →
      (l ++ [last]).foldl (LiveParams.apply kind) p = LiveParams.apply kind p last := by
  cases kind with
  | video =>
    have hrate := foldl_apply_of_fixed .video (p := p) LiveParams.rateHz fun _ _ => rfl
    simp only [Settled]
    rw [fieldSettled_iff .video LiveParams.confirmK fun _ _ => rfl,
      fieldSettled_iff .video LiveParams.confirmN fun _ _ => rfl,
      fieldSettled_iff .video LiveParams.scoreThreshold fun _ _ => rfl]
    constructor
    · rintro ⟨hk, hn, hscore⟩ l hl
      exact LiveParams.ext (hk l hl) (hn l hl) (hscore l hl) (hrate _)
    · intro h
      exact ⟨fun l hl => congrArg _ (h l hl), fun l hl => congrArg _ (h l hl),
        fun l hl => congrArg _ (h l hl)⟩
  | fake =>
    have hk := foldl_apply_of_fixed .fake (p := p) LiveParams.confirmK fun _ _ => rfl
    have hn := foldl_apply_of_fixed .fake (p := p) LiveParams.confirmN fun _ _ => rfl
    have hscore :=
      foldl_apply_of_fixed .fake (p := p) LiveParams.scoreThreshold fun _ _ => rfl
    simp only [Settled]
    rw [fieldSettled_iff .fake LiveParams.rateHz fun _ _ => rfl]
    constructor
    · intro hrate l hl
      exact LiveParams.ext (hk _) (hn _) (hscore _) (hrate l hl)
    · intro h l hl
      exact congrArg _ (h l hl)

/-- For all initial parameters and updates with increasing versions, any two schedules of the
producer's polls that end with the last update applied leave the same parameters, exactly when
each field for the producer is set by the last update or has not been changed before it. -/
theorem timing_independent_iff (kind : ProducerKind) (p : LiveParams)
    (earlier : List ConfigUpdate) (last : ConfigUpdate)
    (hinc : (earlier ++ [last]).Pairwise fun u w => u.version < w.version) :
    TimingIndependent kind p (earlier ++ [last]) last.version ↔ Settled kind p earlier last := by
  rw [settled_iff]
  exact SlotRun.scheduleIndependent_iff hinc

theorem timing_independent_iff_two :
    TimingIndependent .video ⟨3, 5, 3 / 10, 5⟩ [⟨1, 0, 2, 6, 0⟩, ⟨2, 0, 4, 7, 0⟩] 2 :=
  (timing_independent_iff .video _ [_] _ (by decide)).2
    ⟨.inl (by decide), .inl (by decide), .inr (by decide)⟩

/-- Version 1 sets `confirm_k`, and version 2 only `confirm_n`. If version 1 is still pending
when version 2 comes, `confirm_k` keeps its first value, and otherwise it does not. -/
theorem skipped_update_matters : ¬ TimingIndependent .video ⟨3, 5, 3 / 10, 5⟩
    [⟨1, 0, 2, 0, 0⟩, ⟨2, 0, 0, 7, 0⟩] 2 := by
  intro h
  have := h [.offer ⟨1, 0, 2, 0, 0⟩, .poll, .offer ⟨2, 0, 0, 7, 0⟩, .poll]
    [.offer ⟨1, 0, 2, 0, 0⟩, .offer ⟨2, 0, 0, 7, 0⟩, .poll] _ _ rfl rfl rfl rfl rfl rfl
  revert this
  decide

end ConfigState

end Ridgeline
