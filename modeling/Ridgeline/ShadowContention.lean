import Mathlib.Data.List.Perm.Subperm
import Ridgeline.ShadowWriters

/-!
# When an update of the shadow is given up

The writers of one shadow again, with a table that is linearizable and answers every request : a
read gives the item as it is, and the response to every `PutItem` arrives. `Contention` is a run of
such writers, in which each item stored is remembered with its writer, and each call of
`UpsertReportedWithRetry` that ends with what the other writers stored during it.

An attempt that reads an item fails only if another writer stores one before its request is
evaluated, so every conflict is paid for by an item of another writer (`Ahead`, `WriterInv`), and
a call whose three attempts end in conflicts by three of them. Each call stores at most one
item, so with at most three calls none is given up (`given_up_only_under_contention`). A call is
never blocked and takes at most twelve steps, so each of them ends, and succeeds.
-/

namespace Ridgeline

/-! ## Writers that are answered -/

/-- A call of `UpsertReportedWithRetry` that has ended : its writer, the result of its last
`PutReported`, and the number of items that other writers stored between its start and its end. -/
structure CallEnd where
  writer : ℕ
  result : Option PutResult
  others : ℕ
  deriving DecidableEq, Repr

/-- The writers, who sent each `PutItem`, who stored each item, whose calls have begun, how many
items were stored when the last call of a writer began, how many steps it has taken, and the calls
that have ended. -/
structure Contention where
  shadow : ShadowWriters
  senders : List ℕ := []
  appliers : List ℕ := []
  upserts : List ℕ := []
  since : ℕ → ℕ := fun _ => 0
  steps : ℕ → ℕ := fun _ => 0
  ends : List CallEnd := []

/-- The steps of the writers in which no request fails. -/
inductive ContentionAct
  | upsert (w : ℕ) (reportedJson : Bytes)
  | get (w : ℕ)
  | send (w : ℕ)
  | evaluate (call : ℕ)
  | answer (w : ℕ)
  deriving DecidableEq, Repr

namespace Contention

/-- The items that other writers stored since the call of `w` began. -/
def others (s : Contention) (w : ℕ) : ℕ :=
  (s.appliers.drop (s.since w)).countP (· ≠ w)

/-- A step of the call of `w`. -/
def counted (s : Contention) (w : ℕ) : Contention :=
  { s with steps := Function.update s.steps w (s.steps w + 1) }

/-- One step, which is one of `ShadowWriters`. -/
def step (table : ShadowTable) (deviceId : Bytes) (s : Contention) :
    ContentionAct → Option Contention
  | .upsert w json =>
    (s.shadow.step table deviceId (.upsert w json)).map fun shadow =>
      { s with
        shadow := shadow
        upserts := s.upserts ++ [w]
        since := Function.update s.since w s.appliers.length
        steps := Function.update s.steps w 0 }
  | .get w =>
    -- the item as it is
    (s.shadow.step table deviceId (.get w s.shadow.applied.length)).map fun shadow =>
      { s.counted w with shadow := shadow }
  | .send w =>
    (s.shadow.step table deviceId (.send w)).map fun shadow =>
      { s.counted w with shadow := shadow, senders := s.senders ++ [w] }
  | .evaluate call =>
    s.senders[call]?.bind fun w =>
      (s.shadow.step table deviceId (.evaluate call)).map fun shadow =>
        { s.counted w with
          shadow := shadow
          appliers := s.appliers ++
            List.replicate (shadow.applied.length - s.shadow.applied.length) w }
  | .answer w =>
    (s.shadow.step table deviceId (.answer w)).map fun shadow =>
      { s.counted w with
        shadow := shadow
        ends := s.ends ++ if shadow.writers w = .idle then
          [⟨w, shadow.results.getLast?.bind Prod.snd, s.others w⟩] else [] }

/-- No call has begun. -/
def start (initial : Option Item) : Contention :=
  { shadow := { initial := initial } }

/-- The stored version is below the largest. -/
def VersionBelow (s : Contention) (_ : ContentionAct) : Prop :=
  ∀ item ∈ s.shadow.stored, item.version < 2 ^ 63 - 1

instance decidableVersionBelow (s : Contention) (a : ContentionAct) :
    Decidable (s.VersionBelow a) :=
  inferInstanceAs (Decidable (∀ item ∈ s.shadow.stored, _))

/-- The act is a step of the call of `w`. -/
def OfWriter (s : Contention) (w : ℕ) : ContentionAct → Prop
  | .upsert _ _ => False
  | .get v => v = w
  | .send v => v = w
  | .evaluate call => s.senders[call]? = some w
  | .answer v => v = w

variable {s t : Contention} {table : ShadowTable} {deviceId : Bytes} {a : ContentionAct}

/-- The runs are runs of the writers. -/
theorem shadow_step (h : s.step table deviceId a = some t) :
    ∃ b, s.shadow.step table deviceId b = some t.shadow := by
  cases a with
  | upsert | get | send | answer =>
    obtain ⟨shadow, hshadow, rfl⟩ := Option.map_eq_some_iff.1 h
    exact ⟨_, hshadow⟩
  | evaluate call =>
    obtain ⟨w, -, h⟩ := Option.bind_eq_some_iff.1 h
    obtain ⟨shadow, hshadow, rfl⟩ := Option.map_eq_some_iff.1 h
    exact ⟨_, hshadow⟩

/-! ## The invariant -/

/-- The `n` conflicts so far are paid for, and the next one is, or it can come only from an item
that another writer is still to store. -/
def Ahead (s : Contention) (w n : ℕ) (expected : ℤ) : Prop :=
  n + 1 ≤ s.others w ∨ n ≤ s.others w ∧ AtVersion expected s.shadow.stored

/-- What holds of a writer that waits for the response to its request : there is none yet, the
request was applied, or it was refused. -/
def CallInv (s : Contention) (w n call : ℕ) : Prop :=
  (s.shadow.answers.lookup call = none ∧ s.steps w = 4 * n + 2 ∧
    s.appliers.count w < s.upserts.count w ∧
    ∃ c, s.shadow.calls[call]? = some c ∧ s.Ahead w n c.expected) ∨
  (∃ resp, s.shadow.answers.lookup call = some resp ∧ resp.statusCode = 200 ∧
    s.steps w = 4 * n + 3 ∧ s.appliers.count w ≤ s.upserts.count w) ∨
  (∃ resp, s.shadow.answers.lookup call = some resp ∧ NamesConflict resp ∧
    s.steps w = 4 * n + 3 ∧ s.appliers.count w < s.upserts.count w ∧ n + 1 ≤ s.others w)

/-- What holds of a writer. -/
def WriterInv (s : Contention) (w : ℕ) : WriterPc → Prop
  | .idle => s.appliers.count w ≤ s.upserts.count w
  | .reading _ n => n < maxAttempts ∧ s.steps w = 4 * n ∧
    s.appliers.count w < s.upserts.count w ∧ n ≤ s.others w
  | .putting _ n expected => n < maxAttempts ∧ s.steps w = 4 * n + 1 ∧
    s.appliers.count w < s.upserts.count w ∧ s.Ahead w n expected
  | .waiting _ n call => n < maxAttempts ∧ s.senders[call]? = some w ∧ s.CallInv w n call

/-- What holds of a call that has ended. -/
def EndInv (s : Contention) (e : CallEnd) : Prop :=
  e.result = some .success ∨
    e.result = some .versionConflict ∧ maxAttempts ≤ e.others ∧ e.others < s.upserts.length

/-- What holds in every state. -/
structure Inv (s : Contention) : Prop where
  shadow : s.shadow.Inv
  current : s.shadow.Current
  positive : ∀ item ∈ s.shadow.stored, 1 ≤ item.version
  since : ∀ w, s.since w ≤ s.appliers.length
  senders : s.senders.length = s.shadow.calls.length
  writers : ∀ w, s.WriterInv w (s.shadow.writers w)
  pending : ∀ call w, s.senders[call]? = some w → s.shadow.answers.lookup call = none →
    ∃ json n, s.shadow.writers w = .waiting json n call
  ended : ∀ w, s.upserts.count w =
    (s.ends.map CallEnd.writer).count w + if s.shadow.writers w = .idle then 0 else 1
  ends : ∀ e ∈ s.ends, s.EndInv e

theorem inv_start {initial : Option Item} (h : ∀ item ∈ initial, 1 ≤ item.version) :
    (start initial).Inv where
  shadow := ShadowWriters.inv_start initial
  current := ShadowWriters.current_start initial
  positive := h
  since := fun _ => le_rfl
  senders := rfl
  writers := fun _ => le_rfl
  pending := by simp [start]
  ended := fun _ => rfl
  ends := by simp [start]

theorem Inv.writer_at {w : ℕ} {pc : WriterPc} (hs : s.Inv) (h : s.shadow.writers w = pc) :
    s.WriterInv w pc :=
  h ▸ hs.writers w

theorem Inv.started {w : ℕ} (hs : s.Inv) (h : s.shadow.writers w ≠ .idle) :
    1 ≤ s.upserts.count w := by
  rw [hs.ended w, if_neg h]
  exact Nat.le_add_left _ _

/-- What the steps of the other writers leave of what holds of `w`. -/
structure Frame (s t : Contention) (w : ℕ) : Prop where
  others : s.others w ≤ t.others w
  ahead : ∀ n z, s.Ahead w n z → t.Ahead w n z
  steps : t.steps w = s.steps w
  appliers : t.appliers.count w = s.appliers.count w
  upserts : t.upserts.count w = s.upserts.count w
  senders : ∀ call : ℕ, s.senders[call]? = some w → t.senders[call]? = some w
  answers : ∀ call : ℕ, s.senders[call]? = some w →
    t.shadow.answers.lookup call = s.shadow.answers.lookup call
  calls : ∀ (call : ℕ) (c : PutCall), s.shadow.calls[call]? = some c →
    t.shadow.calls[call]? = some c

theorem Frame.writerInv {w : ℕ} {pc : WriterPc} (hf : Frame s t w) (h : s.WriterInv w pc) :
    t.WriterInv w pc := by
  cases pc with
  | idle =>
    simp only [WriterInv, hf.appliers, hf.upserts]
    exact h
  | reading json n =>
    obtain ⟨hn, hsteps, hcount, hothers⟩ := h
    simp only [WriterInv, hf.steps, hf.appliers, hf.upserts]
    exact ⟨hn, hsteps, hcount, hothers.trans hf.others⟩
  | putting json n expected =>
    obtain ⟨hn, hsteps, hcount, hahead⟩ := h
    simp only [WriterInv, hf.steps, hf.appliers, hf.upserts]
    exact ⟨hn, hsteps, hcount, hf.ahead n expected hahead⟩
  | waiting json n call =>
    obtain ⟨hn, hsender, hcall⟩ := h
    refine ⟨hn, hf.senders call hsender, ?_⟩
    simp only [CallInv, hf.steps, hf.appliers, hf.upserts, hf.answers call hsender]
    rcases hcall with ⟨hans, hsteps, hcount, c, hc, hahead⟩ | hcall |
      ⟨resp, hans, hresp, hsteps, hcount, hn'⟩
    · exact .inl ⟨hans, hsteps, hcount, c, hf.calls call c hc, hf.ahead n c.expected hahead⟩
    · exact .inr (.inl hcall)
    · exact .inr (.inr ⟨resp, hans, hresp, hsteps, hcount, hn'.trans hf.others⟩)

theorem getElem?_extend {α : Type*} {l m : List α} {i : ℕ} {x : α} (h : l <+: m)
    (hi : l[i]? = some x) : m[i]? = some x := by
  obtain ⟨r, rfl⟩ := h
  rw [List.getElem?_append_left (List.getElem?_eq_some_iff.1 hi).1, hi]

/-- The step of a writer that stores nothing. -/
theorem Frame.of_same {w : ℕ} (happliers : t.appliers = s.appliers) (hsince : t.since w = s.since w)
    (hstored : t.shadow.stored = s.shadow.stored) (hsteps : t.steps w = s.steps w)
    (hupserts : t.upserts.count w = s.upserts.count w) (hsenders : s.senders <+: t.senders)
    (hanswers : ∀ call : ℕ, s.senders[call]? = some w →
      t.shadow.answers.lookup call = s.shadow.answers.lookup call)
    (hcalls : s.shadow.calls <+: t.shadow.calls) : Frame s t w := by
  have hothers : t.others w = s.others w := by
    rw [Contention.others, Contention.others, happliers, hsince]
  refine ⟨hothers.ge, fun n z h => ?_, hsteps, by rw [happliers], hupserts,
    fun call h => ?_, hanswers, fun call c h => ?_⟩
  · simpa only [Ahead, hothers, hstored] using h
  · exact getElem?_extend hsenders h
  · exact getElem?_extend hcalls h

/-- The writer `w` moves on, and the others keep what holds of them. -/
theorem writers_of_frame {w : ℕ} {pc : WriterPc} (hs : s.Inv)
    (hwriters : t.shadow.writers = Function.update s.shadow.writers w pc)
    (hframe : ∀ v, v ≠ w → Frame s t v) (hown : t.WriterInv w pc) :
    ∀ v, t.WriterInv v (t.shadow.writers v) := by
  rw [hwriters, Function.forall_update_iff s.shadow.writers fun v pc => t.WriterInv v pc]
  exact ⟨hown, fun v hv => (hframe v hv).writerInv (hs.writers v)⟩

theorem pending_of_set {w : ℕ} {pc : WriterPc} (hs : s.Inv)
    (hwriters : t.shadow.writers = Function.update s.shadow.writers w pc)
    (hsenders : t.senders = s.senders) (hanswers : t.shadow.answers = s.shadow.answers)
    (hw : ∀ json n call, s.shadow.writers w = .waiting json n call →
      s.shadow.answers.lookup call ≠ none) :
    ∀ (call : ℕ) v, t.senders[call]? = some v → t.shadow.answers.lookup call = none →
      ∃ json n, t.shadow.writers v = .waiting json n call := by
  intro call v hsender hnone
  rw [hsenders] at hsender
  rw [hanswers] at hnone
  obtain ⟨json, n, hv⟩ := hs.pending call v hsender hnone
  have hvw : v ≠ w := by
    rintro rfl
    exact hw json n call hv hnone
  exact ⟨json, n, by rw [hwriters, Function.update_of_ne hvw, hv]⟩

/-- A call that goes on has not ended. -/
theorem ended_of_set {w : ℕ} {pc : WriterPc} (hs : s.Inv)
    (hwriters : t.shadow.writers = Function.update s.shadow.writers w pc)
    (hupserts : t.upserts = s.upserts) (hends : t.ends = s.ends)
    (hw : s.shadow.writers w ≠ .idle) (hpc : pc ≠ .idle) :
    ∀ v, t.upserts.count v =
      (t.ends.map CallEnd.writer).count v + if t.shadow.writers v = .idle then 0 else 1 := by
  intro v
  rw [hupserts, hends, hwriters, hs.ended v]
  by_cases hv : v = w
  · subst hv
    rw [Function.update_self, if_neg hw, if_neg hpc]
  · rw [Function.update_of_ne hv]

theorem steps_counted (s : Contention) (w : ℕ) : (s.counted w).steps w = s.steps w + 1 :=
  Function.update_self ..

theorem steps_counted_of_ne (s : Contention) {v w : ℕ} (h : v ≠ w) :
    (s.counted w).steps v = s.steps v :=
  Function.update_of_ne h ..

/-! ## The steps -/

/-- A call begins. -/
theorem inv_upsert {w : ℕ} {json : Bytes} (hs : s.Inv) (hw : s.shadow.writers w = .idle)
    (ht : t = { s with
      shadow := s.shadow.set w (.reading json 0)
      upserts := s.upserts ++ [w]
      since := Function.update s.since w s.appliers.length
      steps := Function.update s.steps w 0 })
    (hshadow : t.shadow.Inv) (hcurrent : t.shadow.Current) : t.Inv := by
  have hidle : s.appliers.count w ≤ s.upserts.count w := hs.writer_at hw
  subst ht
  refine
    { shadow := hshadow, current := hcurrent, positive := hs.positive, since := ?since
      senders := hs.senders, writers := ?writers, pending := ?pending, ended := ?ended
      ends := ?ends }
  case since =>
    intro v
    by_cases hv : v = w
    · subst hv
      exact (Function.update_self ..).le
    · simpa only [Function.update_of_ne hv] using hs.since v
  case writers =>
    refine writers_of_frame (w := w) hs rfl (fun v hv => ?_) ?_
    · exact Frame.of_same rfl (Function.update_of_ne hv ..) rfl (Function.update_of_ne hv ..)
        (by simp [List.count_append, hv.symm]) List.prefix_rfl (fun _ _ => rfl) List.prefix_rfl
    · refine ⟨by decide, Function.update_self .., ?_, Nat.zero_le _⟩
      simp only [List.count_append, List.count_singleton_self]
      omega
  case pending =>
    refine pending_of_set hs rfl rfl rfl fun json' n call h => ?_
    rw [hw] at h
    cases h
  case ended =>
    intro v
    have hended := hs.ended v
    by_cases hv : v = w
    · subst hv
      rw [if_pos hw] at hended
      simp [ShadowWriters.set, List.count_append, hended]
    · simp [ShadowWriters.set, hv, Ne.symm hv, List.count_append, hended]
  case ends =>
    intro e he
    rcases hs.ends e he with hsuccess | ⟨hresult, hothers, hlt⟩
    · exact .inl hsuccess
    · refine .inr ⟨hresult, hothers, ?_⟩
      simp only [List.length_append]
      omega

/-- The read gives the version of the stored item. -/
theorem Inv.atVersion (hs : s.Inv) (hbelow : ∀ item ∈ s.shadow.stored, item.version < 2 ^ 63 - 1) :
    AtVersion (expectedVersion (getReported (table.getItem deviceId s.shadow.stored)))
      s.shadow.stored := by
  cases hstored : s.shadow.stored with
  | none =>
    rw [getReported_getItem_none]
    rfl
  | some item =>
    have hpos := hs.positive item hstored
    have hlt := hbelow item hstored
    rw [getReported_getItem, stoll_decimalInt (by omega) (by omega)]
    refine ⟨?_, rfl⟩
    simp only [expectedVersion, Option.map_some, Option.getD_some]
    omega

/-- A writer has read the item. -/
theorem inv_get {w n : ℕ} {json : Bytes} {expected : ℤ} (hs : s.Inv)
    (hw : s.shadow.writers w = .reading json n) (hat : AtVersion expected s.shadow.stored)
    (ht : t = { s.counted w with shadow := s.shadow.set w (.putting json n expected) })
    (hshadow : t.shadow.Inv) (hcurrent : t.shadow.Current) : t.Inv := by
  obtain ⟨hn, hsteps, hcount, hothers⟩ := hs.writer_at hw
  subst ht
  refine
    { shadow := hshadow, current := hcurrent, positive := hs.positive, since := hs.since
      senders := hs.senders, writers := ?writers, pending := ?pending, ended := ?ended
      ends := hs.ends }
  case writers =>
    refine writers_of_frame (w := w) hs rfl (fun v hv => ?_) ?_
    · exact Frame.of_same rfl rfl rfl (steps_counted_of_ne s hv) rfl List.prefix_rfl
        (fun _ _ => rfl) List.prefix_rfl
    · exact ⟨hn, (steps_counted s w).trans (by rw [hsteps]), hcount, .inr ⟨hothers, hat⟩⟩
  case pending =>
    refine pending_of_set hs rfl rfl rfl fun json' n call h => ?_
    rw [hw] at h
    cases h
  case ended => exact ended_of_set hs rfl rfl rfl (by simp [hw]) (by simp)

/-- A writer sends its request. -/
theorem inv_send {w n : ℕ} {json : Bytes} {expected : ℤ} (hs : s.Inv)
    (hw : s.shadow.writers w = .putting json n expected)
    (ht : t = { s.counted w with
      shadow := s.shadow.sent w json n expected
      senders := s.senders ++ [w] })
    (hshadow : t.shadow.Inv) (hcurrent : t.shadow.Current) : t.Inv := by
  obtain ⟨hn, hsteps, hcount, hahead⟩ := hs.writer_at hw
  have hfresh : s.shadow.answers.lookup s.shadow.calls.length = none :=
    hs.current.fresh _ le_rfl
  subst ht
  refine
    { shadow := hshadow, current := hcurrent, positive := hs.positive, since := hs.since
      senders := ?senders, writers := ?writers, pending := ?pending, ended := ?ended
      ends := hs.ends }
  case senders => simp [ShadowWriters.sent, ShadowWriters.set, hs.senders]
  case writers =>
    refine writers_of_frame (w := w) hs rfl (fun v hv => ?_) ?_
    · exact Frame.of_same rfl rfl rfl (steps_counted_of_ne s hv) rfl (List.prefix_append _ _)
        (fun _ _ => rfl) (List.prefix_append _ _)
    · refine ⟨hn, ?_, .inl ⟨hfresh, (steps_counted s w).trans (by rw [hsteps]), hcount,
        ⟨json, expected⟩, ?_, hahead⟩⟩
      · simp [← hs.senders]
      · simp [ShadowWriters.sent]
  case pending =>
    intro call v hsender hnone
    have hsplit : s.senders[call]? = some v ∨ call = s.senders.length ∧ v = w := by grind
    rcases hsplit with hsender | ⟨rfl, rfl⟩
    · obtain ⟨json', n', hv⟩ := hs.pending call v hsender hnone
      have hvw : v ≠ w := by
        rintro rfl
        rw [hw] at hv
        cases hv
      exact ⟨json', n', (Function.update_of_ne hvw ..).trans hv⟩
    · exact ⟨json, n, by simp [ShadowWriters.sent, ShadowWriters.set, hs.senders]⟩
  case ended => exact ended_of_set hs rfl rfl rfl (by simp [hw]) (by simp)

/-- The response to a request is recorded, for the writer that waits for it. -/
theorem inv_evaluate {w n call : ℕ} {json : Bytes} {out : Option Item × HttpResponse} (hs : s.Inv)
    (hw : s.shadow.writers w = .waiting json n call) (hsender : s.senders[call]? = some w)
    (hshadow : t.shadow.Inv) (hcurrent : t.shadow.Current)
    (heval : t.shadow = s.shadow.evaluated call out) (hsenders : t.senders = s.senders)
    (hsince : t.since = s.since) (hsteps : t.steps = (s.counted w).steps)
    (hupserts : t.upserts = s.upserts) (hends : t.ends = s.ends)
    (hpositive : ∀ item ∈ t.shadow.stored, 1 ≤ item.version)
    (hgrows : s.appliers.length ≤ t.appliers.length)
    (hothers : ∀ v, v ≠ w → s.others v ≤ t.others v)
    (hahead : ∀ v, v ≠ w → ∀ n z, s.Ahead v n z → t.Ahead v n z)
    (happliers : ∀ v, v ≠ w → t.appliers.count v = s.appliers.count v)
    (hown : t.CallInv w n call) : t.Inv := by
  have hcall : s.shadow.writers = Function.update s.shadow.writers w (.waiting json n call) := by
    rw [← hw, Function.update_eq_self]
  have hanswers : ∀ call', call' ≠ call →
      t.shadow.answers.lookup call' = s.shadow.answers.lookup call' := by
    intro call' hne
    rw [heval]
    simp [ShadowWriters.evaluated, List.lookup_append, List.lookup_cons, beq_eq_false_iff_ne.2 hne]
  have hwriters : t.shadow.writers = s.shadow.writers := by rw [heval]; rfl
  have hcalls : t.shadow.calls = s.shadow.calls := by rw [heval]; rfl
  refine
    { shadow := hshadow, current := hcurrent, positive := hpositive, since := ?since
      senders := by rw [hsenders, hcalls, hs.senders], writers := ?writers, pending := ?pending
      ended := by rw [hupserts, hends, hwriters]; exact hs.ended, ends := ?ends }
  case since =>
    intro v
    rw [hsince]
    exact (hs.since v).trans hgrows
  case writers =>
    refine writers_of_frame (w := w) hs (hwriters.trans hcall) (fun v hv => ?_) ?_
    · refine ⟨hothers v hv, hahead v hv, ?_, happliers v hv, by rw [hupserts], ?_, ?_, ?_⟩
      · rw [hsteps, steps_counted_of_ne s hv]
      · exact fun call' h => by rw [hsenders, h]
      · intro call' h
        refine hanswers call' ?_
        rintro rfl
        exact hv (Option.some.inj (h.symm.trans hsender))
      · exact fun call' c h => by rw [hcalls, h]
    · obtain ⟨hn, -⟩ := hs.writer_at hw
      exact ⟨hn, by rw [hsenders, hsender], hown⟩
  case pending =>
    intro call' v hv hnone
    rw [hsenders] at hv
    by_cases hne : call' = call
    · subst hne
      rw [hsender] at hv
      obtain rfl := Option.some.inj hv
      exact ⟨json, n, by rw [hwriters, hw]⟩
    · rw [hanswers call' hne] at hnone
      rw [hwriters]
      exact hs.pending call' v hv hnone
  case ends =>
    intro e he
    rw [hends] at he
    simpa only [EndInv, hupserts] using hs.ends e he

theorem lookup_evaluated {call : ℕ} (hnone : s.shadow.answers.lookup call = none)
    (out : Option Item × HttpResponse) :
    (s.shadow.evaluated call out).answers.lookup call = some out.2 := by
  rw [ShadowWriters.evaluated, List.lookup_append, hnone, Option.none_or, List.lookup_cons_self]

/-- The request of `w` is applied : every other writer is paid for one conflict more. -/
theorem inv_apply {w call : ℕ} {c : PutCall} {resp : HttpResponse} (hs : s.Inv)
    (hsender : s.senders[call]? = some w) (hnone : s.shadow.answers.lookup call = none)
    (hat : AtVersion c.expected s.shadow.stored) (hresp : resp.statusCode = 200)
    (ht : t = { s.counted w with
      shadow := s.shadow.evaluated call (some ⟨c.reportedJson, c.expected + 1⟩, resp)
      appliers := s.appliers ++ [w] })
    (hshadow : t.shadow.Inv) (hcurrent : t.shadow.Current) : t.Inv := by
  obtain ⟨json, n, hw⟩ := hs.pending call w hsender hnone
  obtain ⟨-, -, hown⟩ := hs.writer_at hw
  have hothers : ∀ v, v ≠ w → t.others v = s.others v + 1 := by
    intro v hv
    subst ht
    simp [others, counted, List.drop_append_of_le_length (hs.since v), List.countP_append, hv.symm]
  refine inv_evaluate hs hw hsender hshadow hcurrent (by rw [ht]) (by rw [ht]; rfl)
    (by rw [ht]; rfl) (by rw [ht]) (by rw [ht]; rfl) (by rw [ht]; rfl) ?_ (by simp [ht])
    (fun v hv => by rw [hothers v hv]; exact Nat.le_succ _) ?_ ?_ (.inr (.inl ?_))
  · intro item hitem
    subst ht
    obtain rfl := Option.some.inj hitem
    cases hstored : s.shadow.stored with
    | none =>
      rw [hstored] at hat
      exact (congrArg (· + 1) hat).ge
    | some old =>
      rw [hstored] at hat
      have := hs.positive old hstored
      have := hat.2
      simp only
      omega
  · intro v hv n z h
    left
    rw [hothers v hv]
    rcases h with h | ⟨h, -⟩ <;> omega
  · intro v hv
    simp [ht, List.count_append, hv.symm]
  · obtain ⟨-, hsteps, hcount, -⟩ | ⟨_, hsome, -⟩ | ⟨_, hsome, -⟩ := hown
    · subst ht
      refine ⟨resp, lookup_evaluated hnone _, hresp, (steps_counted s w).trans (by rw [hsteps]), ?_⟩
      simp only [List.count_append, List.count_singleton_self]
      exact hcount
    · rw [hnone] at hsome
      cases hsome
    · rw [hnone] at hsome
      cases hsome

/-- The request of `w` is refused : another writer has stored an item since it was read. -/
theorem inv_refuse {w call : ℕ} {c : PutCall} {resp : HttpResponse} (hs : s.Inv)
    (hsender : s.senders[call]? = some w) (hcall : s.shadow.calls[call]? = some c)
    (hnone : s.shadow.answers.lookup call = none) (hat : ¬ AtVersion c.expected s.shadow.stored)
    (hresp : NamesConflict resp)
    (ht : t = { s.counted w with shadow := s.shadow.evaluated call (none, resp) })
    (hshadow : t.shadow.Inv) (hcurrent : t.shadow.Current) : t.Inv := by
  obtain ⟨json, n, hw⟩ := hs.pending call w hsender hnone
  obtain ⟨-, -, hown⟩ := hs.writer_at hw
  subst ht
  refine inv_evaluate hs hw hsender hshadow hcurrent rfl rfl rfl rfl rfl rfl hs.positive le_rfl
    (fun v _ => le_rfl) (fun v _ n z h => h) (fun v _ => rfl) (.inr (.inr ?_))
  obtain ⟨-, hsteps, hcount, c', hc', hahead⟩ | ⟨_, hsome, -⟩ | ⟨_, hsome, -⟩ := hown
  · obtain rfl := Option.some.inj (hc'.symm.trans hcall)
    refine ⟨resp, lookup_evaluated hnone _, hresp, (steps_counted s w).trans (by rw [hsteps]),
      hcount, ?_⟩
    exact hahead.resolve_right fun h => hat h.2
  · rw [hnone] at hsome
    cases hsome
  · rw [hnone] at hsome
    cases hsome

theorem Inv.count_le (hs : s.Inv) (w : ℕ) : s.appliers.count w ≤ s.upserts.count w := by
  have h := hs.writers w
  cases hw : s.shadow.writers w with
  | idle =>
    rw [hw] at h
    exact h
  | reading | putting =>
    rw [hw] at h
    exact h.2.2.1.le
  | waiting =>
    rw [hw] at h
    rcases h.2.2 with ⟨-, -, hcount, -⟩ | ⟨_, -, -, -, hcount⟩ | ⟨_, -, -, -, hcount, -⟩
    · exact hcount.le
    · exact hcount
    · exact hcount.le

/-- The others have stored at most one item for each call they have begun. -/
theorem Inv.others_lt {w : ℕ} (hs : s.Inv) (hw : s.shadow.writers w ≠ .idle) :
    s.others w < s.upserts.length := by
  have hsub : s.appliers.Subperm s.upserts :=
    List.subperm_ext_iff.2 fun v _ => hs.count_le v
  have hstarted := hs.started hw
  have hlength : s.upserts.length = s.upserts.count w + s.upserts.countP (· ≠ w) := by
    rw [List.length_eq_countP_add_countP (· == w), List.count_eq_countP]
    simp
  calc s.others w
      ≤ s.appliers.countP (· ≠ w) := (List.drop_sublist _ _).countP_le
    _ ≤ s.upserts.countP (· ≠ w) := hsub.countP_le _
    _ < s.upserts.length := by omega

/-- A conflict, and another attempt. -/
theorem inv_retry {w n call : ℕ} {json : Bytes} {resp : HttpResponse} (hs : s.Inv)
    (hw : s.shadow.writers w = .waiting json n call)
    (hanswer : s.shadow.answers.lookup call = some resp)
    (hagain : putReported resp = some .versionConflict ∧ n + 1 < maxAttempts)
    (hcount : s.appliers.count w < s.upserts.count w) (hsteps : s.steps w = 4 * n + 3)
    (hothers : n + 1 ≤ s.others w)
    (ht : t = { s.counted w with shadow := s.shadow.returned w json n call resp })
    (hshadow : t.shadow.Inv) (hcurrent : t.shadow.Current) : t.Inv := by
  have hwriters :
      t.shadow.writers = Function.update s.shadow.writers w (.reading json (n + 1)) := by
    rw [ht]
    exact congrArg (Function.update s.shadow.writers w) (if_pos hagain)
  subst ht
  refine
    { shadow := hshadow, current := hcurrent, positive := hs.positive, since := hs.since
      senders := hs.senders, writers := ?writers, pending := ?pending
      ended := ended_of_set hs hwriters rfl rfl (by simp [hw]) (by simp), ends := hs.ends }
  case writers =>
    refine writers_of_frame hs hwriters (fun v hv => ?_) ?_
    · exact Frame.of_same rfl rfl rfl (steps_counted_of_ne s hv) rfl List.prefix_rfl
        (fun _ _ => rfl) List.prefix_rfl
    · exact ⟨hagain.2, (steps_counted s w).trans (by rw [hsteps]; ring), hcount, hothers⟩
  case pending =>
    refine pending_of_set hs hwriters rfl rfl fun json' n' call' h => ?_
    rw [hw] at h
    cases h
    simp [hanswer]

/-- A call ends. -/
theorem inv_end {w n call : ℕ} {json : Bytes} {resp : HttpResponse} {e : CallEnd} (hs : s.Inv)
    (hw : s.shadow.writers w = .waiting json n call)
    (hanswer : s.shadow.answers.lookup call = some resp)
    (hlast : ¬ (putReported resp = some .versionConflict ∧ n + 1 < maxAttempts))
    (he : e.writer = w) (hend : s.EndInv e)
    (ht : t = { s.counted w with
      shadow := s.shadow.returned w json n call resp
      ends := s.ends ++ [e] })
    (hshadow : t.shadow.Inv) (hcurrent : t.shadow.Current) : t.Inv := by
  have hwriters : t.shadow.writers = Function.update s.shadow.writers w .idle := by
    rw [ht]
    exact congrArg (Function.update s.shadow.writers w) (if_neg hlast)
  subst ht
  refine
    { shadow := hshadow, current := hcurrent, positive := hs.positive, since := hs.since
      senders := hs.senders, writers := ?writers, pending := ?pending, ended := ?ended
      ends := List.forall_mem_append.2 ⟨hs.ends, List.forall_mem_singleton.2 hend⟩ }
  case writers =>
    refine writers_of_frame hs hwriters (fun v hv => ?_) (hs.count_le w)
    exact Frame.of_same rfl rfl rfl (steps_counted_of_ne s hv) rfl List.prefix_rfl
      (fun _ _ => rfl) List.prefix_rfl
  case pending =>
    refine pending_of_set hs hwriters rfl rfl fun json' n' call' h => ?_
    rw [hw] at h
    cases h
    simp [hanswer]
  case ended =>
    intro v
    have hended := hs.ended v
    rw [hwriters]
    by_cases hv : v = w
    · subst hv
      simpa [hw, he, counted, List.count_append] using hended
    · simpa [hv, he, counted, List.count_append, Ne.symm hv] using hended

/-- A response arrives. -/
theorem inv_answer {w n call : ℕ} {json : Bytes} {resp : HttpResponse} (hs : s.Inv)
    (hw : s.shadow.writers w = .waiting json n call)
    (hanswer : s.shadow.answers.lookup call = some resp)
    (ht : t = { s.counted w with
      shadow := s.shadow.returned w json n call resp
      ends := s.ends ++ if (s.shadow.returned w json n call resp).writers w = .idle then
        [⟨w, (s.shadow.returned w json n call resp).results.getLast?.bind Prod.snd, s.others w⟩]
        else [] })
    (hshadow : t.shadow.Inv) (hcurrent : t.shadow.Current) : t.Inv := by
  obtain ⟨-, -, hown⟩ := hs.writer_at hw
  have hpc : (s.shadow.returned w json n call resp).writers w =
      if putReported resp = some .versionConflict ∧ n + 1 < maxAttempts then
        .reading json (n + 1) else .idle := Function.update_self ..
  have hresult : (s.shadow.returned w json n call resp).results.getLast?.bind Prod.snd =
      putReported resp := by simp [ShadowWriters.returned]
  rw [hpc, hresult] at ht
  rcases hown with ⟨hnone, -⟩ | ⟨r, hsome, hresp, -⟩ |
    ⟨r, hsome, hresp, hsteps, hcount, hothers⟩
  · rw [hnone] at hanswer
    cases hanswer
  · obtain rfl := Option.some.inj (hsome.symm.trans hanswer)
    have hsuccess := putReported_of_ok hresp
    have hlast : ¬ (putReported r = some .versionConflict ∧ n + 1 < maxAttempts) :=
      fun h => absurd (hsuccess.symm.trans h.1) (by decide)
    rw [if_neg hlast, if_pos rfl] at ht
    exact inv_end hs hw hanswer hlast rfl (.inl hsuccess) ht hshadow hcurrent
  · obtain rfl := Option.some.inj (hsome.symm.trans hanswer)
    have hconflict := hresp.putReported_eq
    by_cases hn : n + 1 < maxAttempts
    · have hagain : putReported r = some .versionConflict ∧ n + 1 < maxAttempts := ⟨hconflict, hn⟩
      rw [if_pos hagain, if_neg (by simp), List.append_nil] at ht
      exact inv_retry hs hw hanswer hagain hcount hsteps hothers ht hshadow hcurrent
    · have hlast : ¬ (putReported r = some .versionConflict ∧ n + 1 < maxAttempts) :=
        fun h => hn h.2
      rw [if_neg hlast, if_pos rfl] at ht
      refine inv_end hs hw hanswer hlast rfl
        (.inr ⟨hconflict, ?_, hs.others_lt (by simp [hw])⟩) ht hshadow hcurrent
      exact (not_lt.1 hn).trans hothers

theorem inv_step (hs : s.Inv) (ha : s.VersionBelow a) (h : s.step table deviceId a = some t) :
    t.Inv := by
  obtain ⟨b, hb⟩ := shadow_step h
  have hshadow : t.shadow.Inv := ShadowWriters.inv_step hs.shadow ha hb
  have hcurrent : t.shadow.Current := ShadowWriters.current_step hs.current hb
  cases a with
  | upsert w json =>
    obtain ⟨shadow, hstep, rfl⟩ := Option.map_eq_some_iff.1 h
    obtain ⟨hw, rfl⟩ := ShadowWriters.upsert_step hstep
    exact inv_upsert hs hw rfl hshadow hcurrent
  | get w =>
    obtain ⟨shadow, hstep, rfl⟩ := Option.map_eq_some_iff.1 h
    obtain ⟨json, n, item, hw, hitem, rfl⟩ := ShadowWriters.get_step hstep
    obtain rfl := Option.some.inj (hs.current.stored.symm.trans hitem)
    exact inv_get hs hw (hs.atVersion ha) rfl hshadow hcurrent
  | send w =>
    obtain ⟨shadow, hstep, rfl⟩ := Option.map_eq_some_iff.1 h
    obtain ⟨json, n, expected, hw, rfl⟩ := ShadowWriters.send_step hstep
    exact inv_send hs hw rfl hshadow hcurrent
  | evaluate call =>
    obtain ⟨w, hsender, h⟩ := Option.bind_eq_some_iff.1 h
    obtain ⟨shadow, hstep, rfl⟩ := Option.map_eq_some_iff.1 h
    obtain ⟨c, hcall, hnone, rfl⟩ := ShadowWriters.evaluate_step hstep
    obtain ⟨hlo, hhi, -⟩ := hs.shadow.known c (List.mem_of_getElem? hcall)
    rcases evaluate_cases table deviceId c.reportedJson hlo hhi s.shadow.stored with
      ⟨hat, resp, heval, hresp⟩ | ⟨hat, resp, heval, hresp⟩
    · refine inv_apply hs hsender hnone hat hresp ?_ hshadow hcurrent
      simp [heval, ShadowWriters.evaluated]
    · refine inv_refuse hs hsender hcall hnone hat hresp ?_ hshadow hcurrent
      simp [heval, ShadowWriters.evaluated, counted]
  | answer w =>
    obtain ⟨shadow, hstep, rfl⟩ := Option.map_eq_some_iff.1 h
    obtain ⟨json, n, call, resp, hw, hresp, rfl⟩ := ShadowWriters.answer_step hstep
    exact inv_answer hs hw hresp rfl hshadow hcurrent

/-! ## Whole runs -/

/-- A call that goes on is not blocked, and has taken fewer than twelve steps. -/
theorem Inv.progress {w : ℕ} (hs : s.Inv) (hw : s.shadow.writers w ≠ .idle) :
    s.steps w < 4 * maxAttempts ∧
      ∃ a t, s.OfWriter w a ∧ s.step table deviceId a = some t := by
  cases hpc : s.shadow.writers w with
  | idle => exact absurd hpc hw
  | reading json n =>
    obtain ⟨hn, hsteps, -⟩ := hs.writer_at hpc
    refine ⟨by omega, .get w, ?_⟩
    simp [OfWriter, step, ShadowWriters.step, hpc, hs.current.stored]
  | putting json n expected =>
    obtain ⟨hn, hsteps, -⟩ := hs.writer_at hpc
    refine ⟨by omega, .send w, ?_⟩
    simp [OfWriter, step, ShadowWriters.step, hpc]
  | waiting json n call =>
    obtain ⟨hn, hsender, hcall⟩ := hs.writer_at hpc
    rcases hcall with ⟨hnone, hsteps, -, c, hc, -⟩ | ⟨_, hsome, -, hsteps, -⟩ |
      ⟨_, hsome, -, hsteps, -⟩
    · refine ⟨by omega, .evaluate call, ?_⟩
      simp [OfWriter, step, ShadowWriters.step, hsender, hc, hnone]
    · refine ⟨by omega, .answer w, ?_⟩
      simp [OfWriter, step, ShadowWriters.step, hpc, hsome]
    · refine ⟨by omega, .answer w, ?_⟩
      simp [OfWriter, step, ShadowWriters.step, hpc, hsome]

/-- Reads and conditional writes that do not fail, of any number of writers in any order : a call
that ends in a conflict has seen three items of other writers stored since it began. With at most
three calls every one that ends succeeds. A call that goes on can always take its next step, of
at most twelve, and each of those begun has ended or goes on. -/
theorem given_up_only_under_contention (table : ShadowTable) (deviceId : Bytes)
    {initial : Option Item}
    (hinitial : ∀ item ∈ initial, 1 ≤ item.version) {as : List ContentionAct}
    (hok : Guarded (step table deviceId) VersionBelow (start initial) as)
    (h : exec (step table deviceId) (start initial) as = some s) :
    (∀ e ∈ s.ends, e.result = some .versionConflict → 3 ≤ e.others) ∧
    (s.upserts.length ≤ 3 → ∀ e ∈ s.ends, e.result = some .success) ∧
    ∀ w, s.upserts.count w =
        (s.ends.map CallEnd.writer).count w + (if s.shadow.writers w = .idle then 0 else 1) ∧
      (s.shadow.writers w ≠ .idle → s.steps w < 12 ∧
        ∃ a t, s.OfWriter w a ∧ s.step table deviceId a = some t) := by
  have hs : s.Inv :=
    exec_invariant_guarded (fun _ _ _ hs ha ht => inv_step hs ha ht) (inv_start hinitial) hok h
  refine ⟨fun e he hconflict => ?_, fun hthree e he => ?_, fun w => ⟨hs.ended w, hs.progress⟩⟩
  · rcases hs.ends e he with hsuccess | ⟨-, hothers, -⟩
    · rw [hsuccess] at hconflict
      cases hconflict
    · exact hothers
  · rcases hs.ends e he with hsuccess | ⟨-, hothers, hlt⟩
    · exact hsuccess
    · have : 3 ≤ e.others := hothers
      omega

/-- Three writers create an item at once : the first is applied, the second fails once and the
third twice. -/
def threeWriters : List ContentionAct :=
  [.upsert 0 (ascii "a"), .upsert 1 (ascii "b"), .upsert 2 (ascii "c"), .get 0, .get 1, .get 2,
    .send 0, .send 1, .send 2, .evaluate 0, .evaluate 1, .evaluate 2, .answer 0, .answer 1,
    .answer 2, .get 1, .get 2, .send 1, .send 2, .evaluate 3, .evaluate 4, .answer 1, .answer 2,
    .get 2, .send 2, .evaluate 5, .answer 2]

theorem given_up_only_under_contention_threeWriters :
    ∃ s, exec (step plainTable (ascii "cam-0001")) (start none) threeWriters = some s ∧
      s.ends = [⟨0, some .success, 0⟩, ⟨1, some .success, 1⟩, ⟨2, some .success, 2⟩] ∧
      ∀ e ∈ s.ends, e.result = some .success := by
  obtain ⟨s, hs, hends, hlength⟩ : ∃ s,
      exec (step plainTable (ascii "cam-0001")) (start none) threeWriters = some s ∧
        s.ends = [⟨0, some .success, 0⟩, ⟨1, some .success, 1⟩, ⟨2, some .success, 2⟩] ∧
        s.upserts.length ≤ 3 := exists_exec_of_any (by decide +kernel)
  exact ⟨s, hs, hends,
    (given_up_only_under_contention _ _ (by simp) (by decide +kernel) hs).2.1 hlength⟩

end Contention

end Ridgeline
