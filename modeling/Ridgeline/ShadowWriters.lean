import Mathlib.Data.List.Nodup
import Mathlib.Logic.Function.Basic
import Ridgeline.ShadowStore
import Ridgeline.Transition

/-!
# Concurrent writers of one shadow

Any number of gateways and streams run `UpsertReportedWithRetry` on one device. The table
answers a read with the item as it is or as it once was, and reads can fail. A `PutItem`
is evaluated in one step, at any time after it was sent, also after its caller was told
that it failed.

What a writer has read may be stale, but it is a version that there was (`Known`), and its
request names it, so the table applies the request to no other. Every item stored is the
one before it with the version raised by one, each stored by one call, and a call that
returns `kSuccess` has been applied (`no_lost_update`). A writer during whose call no one else
moves does what `upsertReportedWithRetry` does (`exec_upsertReportedWithRetry`).
-/

namespace Ridgeline

/-- The arguments of a call of `PutReported`. -/
structure PutCall where
  reportedJson : Bytes
  expected : ℤ
  deriving DecidableEq, Repr

/-- An item that was stored : the call that stored it, and the item before. -/
structure Applied where
  call : ℕ
  before : Option Item
  after : Item
  deriving DecidableEq, Repr

/-- `UpsertReportedWithRetry` : before `GetReported`, before `PutReported`, or waiting for
the response to its request. -/
inductive WriterPc
  | idle
  | reading (reportedJson : Bytes) (attempt : ℕ)
  | putting (reportedJson : Bytes) (attempt : ℕ) (expected : ℤ)
  | waiting (reportedJson : Bytes) (attempt : ℕ) (call : ℕ)
  deriving DecidableEq, Repr

/-- The item of the device, at first and now, the writers, the calls of `PutReported` in
the order in which their requests are sent, the responses of the table to them, what they
returned, and the items stored. -/
structure ShadowWriters where
  initial : Option Item
  stored : Option Item := initial
  writers : ℕ → WriterPc := fun _ => .idle
  calls : List PutCall := []
  answers : List (ℕ × HttpResponse) := []
  results : List (ℕ × Option PutResult) := []
  applied : List Applied := []

/-- A step of the writer `w`, or the evaluation of the request of a call. A read is
answered with the item as it was after `k` writes, or fails; a write is answered by the
table, or fails with a response that is not a 200. -/
inductive ShadowAct
  | upsert (w : ℕ) (reportedJson : Bytes)
  | get (w k : ℕ)
  | getFails (w : ℕ) (resp : HttpResponse)
  | send (w : ℕ)
  | evaluate (call : ℕ)
  | answer (w : ℕ)
  | putFails (w : ℕ) (resp : HttpResponse)

namespace ShadowWriters

/-- All items there were, the current one last. -/
def past (s : ShadowWriters) : List (Option Item) :=
  s.initial :: s.applied.map fun e => some e.after

/-- The writer `w` moves on. -/
def set (s : ShadowWriters) (w : ℕ) (pc : WriterPc) : ShadowWriters :=
  { s with writers := Function.update s.writers w pc }

/-- `PutReported` returns : the loop ends, or another attempt begins. -/
def returned (s : ShadowWriters) (w : ℕ) (reportedJson : Bytes) (attempt call : ℕ)
    (resp : HttpResponse) : ShadowWriters :=
  let result := putReported resp
  { s.set w (if result = some .versionConflict ∧ attempt + 1 < maxAttempts then
      .reading reportedJson (attempt + 1) else .idle) with
    results := s.results ++ [(call, result)] }

/-- One step. -/
def step (table : ShadowTable) (deviceId : Bytes) (s : ShadowWriters) :
    ShadowAct → Option ShadowWriters
  | .upsert w json =>
    match s.writers w with
    | .idle => some (s.set w (.reading json 0))
    | _ => none
  | .get w k =>
    match s.writers w, s.past[k]? with
    | .reading json n, some item =>
      some (s.set w (.putting json n (expectedVersion (getReported (table.getItem deviceId item)))))
    | _, _ => none
  | .getFails w resp =>
    match s.writers w, getReported resp with
    | .reading json n, none => some (s.set w (.putting json n (expectedVersion none)))
    | _, _ => none
  | .send w =>
    match s.writers w with
    | .putting json n expected =>
      some { s.set w (.waiting json n s.calls.length) with
        calls := s.calls ++ [⟨json, expected⟩] }
    | _ => none
  | .evaluate call =>
    match s.calls[call]?, s.answers.lookup call with
    | some c, none =>
      let out := table.evaluate (putItem deviceId c.reportedJson c.expected) s.stored
      some { s with
        stored := out.1.or s.stored
        answers := s.answers ++ [(call, out.2)]
        applied := s.applied ++ out.1.toList.map fun item => ⟨call, s.stored, item⟩ }
    | _, _ => none
  | .answer w =>
    match s.writers w with
    | .waiting json n call => (s.answers.lookup call).map (s.returned w json n call)
    | _ => none
  | .putFails w resp =>
    match s.writers w with
    | .waiting json n call =>
      if resp.statusCode ≠ 200 then some (s.returned w json n call resp) else none
    | _ => none

/-! ## What each step does -/

/-- The state in which the request of an attempt is sent. -/
def sent (s : ShadowWriters) (w : ℕ) (json : Bytes) (n : ℕ) (expected : ℤ) : ShadowWriters :=
  { s.set w (.waiting json n s.calls.length) with calls := s.calls ++ [⟨json, expected⟩] }

/-- The state in which the request of the call is evaluated with the outcome `out`. -/
def evaluated (s : ShadowWriters) (call : ℕ) (out : Option Item × HttpResponse) :
    ShadowWriters :=
  { s with
    stored := out.1.or s.stored
    answers := s.answers ++ [(call, out.2)]
    applied := s.applied ++ out.1.toList.map fun item => ⟨call, s.stored, item⟩ }

section StepCases

variable {s t : ShadowWriters} {table : ShadowTable} {deviceId : Bytes} {w k call : ℕ}
  {json : Bytes} {resp : HttpResponse}

theorem upsert_step (h : s.step table deviceId (.upsert w json) = some t) :
    s.writers w = .idle ∧ t = s.set w (.reading json 0) := by
  rw [step] at h
  split at h
  · next hw =>
    cases h
    exact ⟨hw, rfl⟩
  · cases h

theorem get_step (h : s.step table deviceId (.get w k) = some t) :
    ∃ json n item, s.writers w = .reading json n ∧ s.past[k]? = some item ∧
      t = s.set w (.putting json n
        (expectedVersion (getReported (table.getItem deviceId item)))) := by
  rw [step] at h
  split at h
  · next json n item hw hk =>
    cases h
    exact ⟨json, n, item, hw, hk, rfl⟩
  · cases h

theorem getFails_step (h : s.step table deviceId (.getFails w resp) = some t) :
    ∃ json n, s.writers w = .reading json n ∧
      t = s.set w (.putting json n (expectedVersion none)) := by
  rw [step] at h
  split at h
  · next json n hw _ =>
    cases h
    exact ⟨json, n, hw, rfl⟩
  · cases h

theorem send_step (h : s.step table deviceId (.send w) = some t) :
    ∃ json n expected, s.writers w = .putting json n expected ∧ t = s.sent w json n expected := by
  rw [step] at h
  split at h
  · next json n expected hw =>
    cases h
    exact ⟨json, n, expected, hw, rfl⟩
  · cases h

theorem evaluate_step (h : s.step table deviceId (.evaluate call) = some t) :
    ∃ c, s.calls[call]? = some c ∧ s.answers.lookup call = none ∧
      t = s.evaluated call
        (table.evaluate (putItem deviceId c.reportedJson c.expected) s.stored) := by
  rw [step] at h
  split at h
  · next c hcall hnone =>
    cases h
    exact ⟨c, hcall, hnone, rfl⟩
  · cases h

theorem answer_step (h : s.step table deviceId (.answer w) = some t) :
    ∃ json n call resp, s.writers w = .waiting json n call ∧
      s.answers.lookup call = some resp ∧ t = s.returned w json n call resp := by
  rw [step] at h
  split at h
  · next json n call hw =>
    obtain ⟨resp, hresp, rfl⟩ := Option.map_eq_some_iff.1 h
    exact ⟨json, n, call, resp, hw, hresp, rfl⟩
  · cases h

theorem putFails_step (h : s.step table deviceId (.putFails w resp) = some t) :
    ∃ json n call, s.writers w = .waiting json n call ∧ resp.statusCode ≠ 200 ∧
      t = s.returned w json n call resp := by
  rw [step] at h
  split at h
  · next json n call hw =>
    split_ifs at h with h200
    cases h
    exact ⟨json, n, call, hw, h200, rfl⟩
  · cases h

end StepCases

/-! ## No update is lost -/

/-- The writes so far. -/
structure NoLostUpdate (s : ShadowWriters) : Prop where
  /-- The item changes only by the writes : each replaces what the one before it stored. -/
  chain : s.applied.map Applied.before ++ [s.stored] = s.past
  /-- A write raises the version by one, from none to 1. -/
  raises : ∀ e ∈ s.applied, e.after.version = (e.before.map Item.version).getD 0 + 1
  /-- A write replaces exactly the version that its call expected. -/
  expected : ∀ e ∈ s.applied, ∃ c, s.calls[e.call]? = some c ∧ AtVersion c.expected e.before ∧
    e.after = ⟨c.reportedJson, c.expected + 1⟩
  /-- The expected version is one that there was, or 0. -/
  known : ∀ c ∈ s.calls, c.expected = 0 ∨ ∃ item, some item ∈ s.past ∧ item.version = c.expected
  /-- No version is stored twice. -/
  versions : (s.applied.map fun e => e.after.version).Nodup
  /-- No call stores twice. -/
  calls : (s.applied.map Applied.call).Nodup
  /-- A call that returns `kSuccess` has stored its item. -/
  success : ∀ call, (call, some .success) ∈ s.results → ∃ e ∈ s.applied, e.call = call

/-- The stored version is below the largest. -/
def VersionBelow (s : ShadowWriters) (_ : ShadowAct) : Prop :=
  ∀ item ∈ s.stored, item.version < 2 ^ 63 - 1

instance (s : ShadowWriters) (a : ShadowAct) : Decidable (s.VersionBelow a) :=
  inferInstanceAs (Decidable (∀ item ∈ s.stored, _))

/-! ## The invariant -/

/-- The version may be expected by a writer. -/
def Known (past : List (Option Item)) (expected : ℤ) : Prop :=
  -2 ^ 63 ≤ expected ∧ expected < 2 ^ 63 - 1 ∧
    (expected = 0 ∨ ∃ item, some item ∈ past ∧ item.version = expected)

theorem Known.mono {past past' : List (Option Item)} {z : ℤ} (h : Known past z)
    (hsub : past ⊆ past') : Known past' z := by
  obtain ⟨hlo, hhi, h0 | ⟨item, hmem, heq⟩⟩ := h
  · exact ⟨hlo, hhi, .inl h0⟩
  · exact ⟨hlo, hhi, .inr ⟨item, hsub hmem, heq⟩⟩

theorem known_zero (past : List (Option Item)) : Known past 0 :=
  ⟨by omega, by omega, .inl rfl⟩

/-- What a read of one of the past items gives may be expected. -/
theorem known_getItem {table : ShadowTable} {past : List (Option Item)} {deviceId : Bytes}
    {o : Option Item}
    (hmem : o ∈ past) (hbelow : ∀ item ∈ o, item.version < 2 ^ 63 - 1) :
    Known past (expectedVersion (getReported (table.getItem deviceId o))) := by
  cases o with
  | none =>
    rw [getReported_getItem_none]
    exact known_zero past
  | some item =>
    rw [getReported_getItem]
    cases h : stoll (decimalInt item.version) with
    | none => exact known_zero past
    | some z =>
      have hz := eq_of_stoll_decimalInt h
      exact ⟨(stoll_range h).1, hz ▸ hbelow item rfl, .inr ⟨item, hmem, hz.symm⟩⟩

/-- The writes so far, and what the calls and the writers know. -/
structure Inv (s : ShadowWriters) : Prop where
  chain : s.applied.map Applied.before ++ [s.stored] = s.past
  expected : ∀ e ∈ s.applied, ∃ c, s.calls[e.call]? = some c ∧ AtVersion c.expected e.before ∧
    e.after = ⟨c.reportedJson, c.expected + 1⟩
  newest : ∀ item, some item ∈ s.past → ∃ current, s.stored = some current ∧
    item.version ≤ current.version
  versions : (s.applied.map fun e => e.after.version).Pairwise (· < ·)
  calls : (s.applied.map Applied.call).Nodup
  answered : ∀ e ∈ s.applied, ∃ resp, s.answers.lookup e.call = some resp
  answers : ∀ call resp, s.answers.lookup call = some resp → resp.statusCode = 200 →
    ∃ e ∈ s.applied, e.call = call
  known : ∀ c ∈ s.calls, Known s.past c.expected
  writers : ∀ w json n expected, s.writers w = .putting json n expected → Known s.past expected
  success : ∀ call, (call, some .success) ∈ s.results → ∃ e ∈ s.applied, e.call = call

variable {s t : ShadowWriters}

theorem inv_start (initial : Option Item) : Inv { initial := initial } where
  chain := rfl
  expected := by simp
  newest := by
    intro item hmem
    exact ⟨item, (List.mem_singleton.1 hmem).symm, le_rfl⟩
  versions := List.Pairwise.nil
  calls := List.nodup_nil
  answered := by simp
  answers := by simp
  known := by simp
  writers := by simp
  success := by simp

theorem Inv.set (hs : s.Inv) (w : ℕ) (pc : WriterPc)
    (hpc : ∀ json n expected, pc = .putting json n expected → Known s.past expected) :
    (s.set w pc).Inv := by
  refine { hs with writers := fun v json n expected hv => ?_ }
  by_cases hvw : v = w
  · subst hvw
    exact hpc json n expected (by simpa [ShadowWriters.set] using hv)
  · exact hs.writers v json n expected (by simpa [ShadowWriters.set, hvw] using hv)

/-- A result that is `kSuccess` comes from a response that is a 200. -/
theorem Inv.returned {w n call : ℕ} {json : Bytes} {resp : HttpResponse} (hs : s.Inv)
    (hresp : resp.statusCode = 200 → ∃ e ∈ s.applied, e.call = call) :
    (s.returned w json n call resp).Inv := by
  have hset := hs.set w (if putReported resp = some .versionConflict ∧ n + 1 < maxAttempts then
      .reading json (n + 1) else .idle) (by
    intro _ _ _ h
    split_ifs at h)
  refine { hset with success := fun call' h => ?_ }
  rcases List.mem_append.1 h with h | h
  · exact hs.success call' h
  · obtain ⟨rfl, hresult⟩ := Prod.mk.inj (List.mem_singleton.1 h)
    exact hresp (statusCode_of_success hresult.symm)

/-- The response to a call is recorded once. -/
theorem lookup_snoc {l : List (ℕ × HttpResponse)} {k k' : ℕ} {v r : HttpResponse}
    (h : (l ++ [(k, v)]).lookup k' = some r) : l.lookup k' = some r ∨ (k' = k ∧ r = v) := by
  rw [List.lookup_append, Option.or_eq_some_iff] at h
  rcases h with h | ⟨-, h⟩
  · exact .inl h
  · by_cases hk : k' = k
    · subst hk
      rw [List.lookup_cons_self] at h
      exact .inr ⟨rfl, (Option.some.inj h).symm⟩
    · simp [List.lookup_cons, beq_eq_false_iff_ne.2 hk] at h

theorem lookup_append_of_some {l : List (ℕ × HttpResponse)} {e : ℕ × HttpResponse} {k : ℕ}
    (h : ∃ r, l.lookup k = some r) : ∃ r, (l ++ [e]).lookup k = some r := by
  obtain ⟨r, hr⟩ := h
  exact ⟨r, by rw [List.lookup_append, hr, Option.some_or]⟩

/-- A writer sends the request it has made. -/
theorem Inv.send {w n : ℕ} {json : Bytes} {expected : ℤ} (hs : s.Inv)
    (hw : s.writers w = .putting json n expected) :
    Inv { s.set w (.waiting json n s.calls.length) with
      calls := s.calls ++ [⟨json, expected⟩] } := by
  have hset := hs.set w (.waiting json n s.calls.length) nofun
  refine { hset with expected := fun e he => ?_, known := ?_ }
  · obtain ⟨c, hc, hat, hafter⟩ := hs.expected e he
    refine ⟨c, ?_, hat, hafter⟩
    exact (List.getElem?_append_left (List.getElem?_eq_some_iff.1 hc).1).trans hc
  · exact List.forall_mem_append.2
      ⟨hs.known, List.forall_mem_singleton.2 (hs.writers w json n expected hw)⟩

/-- The table refuses a request. -/
theorem Inv.refuse (hs : s.Inv) (call : ℕ) {resp : HttpResponse}
    (hresp : resp.statusCode ≠ 200) : Inv { s with answers := s.answers ++ [(call, resp)] } := by
  refine { hs with answered := fun e he => lookup_append_of_some (hs.answered e he), answers := ?_ }
  intro call' resp' h h200
  rcases lookup_snoc h with h | ⟨-, rfl⟩
  · exact hs.answers call' resp' h h200
  · exact absurd h200 hresp

theorem past_store (s : ShadowWriters) (stored : Option Item) (answers : List (ℕ × HttpResponse))
    (e : Applied) : past { s with
      stored := stored
      answers := answers
      applied := s.applied ++ [e] } = s.past ++ [some e.after] := by
  simp [past]

/-- The version that a request stores is above all there were. -/
theorem Inv.version_lt (hs : s.Inv) {expected : ℤ} (hat : AtVersion expected s.stored) {item : Item}
    (hmem : some item ∈ s.past) : item.version < expected + 1 := by
  obtain ⟨current, hcurrent, hle⟩ := hs.newest item hmem
  rw [hcurrent] at hat
  have := hat.2
  omega

/-- The table stores the item of a request that names the stored version. -/
theorem Inv.store {call : ℕ} {c : PutCall} (hs : s.Inv) (hcall : s.calls[call]? = some c)
    (hnew : s.answers.lookup call = none) (hat : AtVersion c.expected s.stored)
    (resp : HttpResponse) : Inv { s with
      stored := some ⟨c.reportedJson, c.expected + 1⟩
      answers := s.answers ++ [(call, resp)]
      applied := s.applied ++ [⟨call, s.stored, ⟨c.reportedJson, c.expected + 1⟩⟩] } := by
  have hold : ∀ call', (∃ e ∈ s.applied, e.call = call') → ∃ e ∈ s.applied ++
      [⟨call, s.stored, ⟨c.reportedJson, c.expected + 1⟩⟩], e.call = call' :=
    fun _ ⟨e, he, heq⟩ => ⟨e, List.mem_append_left _ he, heq⟩
  have hmono := List.subset_append_left s.past [some (⟨c.reportedJson, c.expected + 1⟩ : Item)]
  refine
    { chain := ?chain, expected := ?expected, newest := ?newest, versions := ?versions
      calls := ?calls, answered := ?answered, answers := ?answers, known := ?known
      writers := ?writers, success := fun call' h => hold call' (hs.success call' h) }
  case chain =>
    rw [past_store, ← hs.chain, List.map_append]
    rfl
  case expected =>
    exact List.forall_mem_append.2
      ⟨hs.expected, List.forall_mem_singleton.2 ⟨c, hcall, hat, rfl⟩⟩
  case newest =>
    intro item hmem
    rw [past_store] at hmem
    refine ⟨_, rfl, ?_⟩
    rcases List.mem_append.1 hmem with hmem | hmem
    · exact (hs.version_lt hat hmem).le
    · rw [Option.some.inj (List.mem_singleton.1 hmem)]
  case versions =>
    rw [List.map_append, List.pairwise_append]
    refine ⟨hs.versions, List.pairwise_singleton _ _, ?_⟩
    intro v hv v' hv'
    obtain ⟨e, he, rfl⟩ := List.mem_map.1 hv
    rw [List.mem_singleton.1 hv']
    exact hs.version_lt hat (List.mem_cons_of_mem _ (List.mem_map.2 ⟨e, he, rfl⟩))
  case calls =>
    rw [List.map_append, List.nodup_append]
    refine ⟨hs.calls, List.nodup_singleton _, ?_⟩
    intro call' hcall' call'' hcall'' heq
    obtain ⟨e, he, rfl⟩ := List.mem_map.1 hcall'
    have hecall : e.call = call := heq.trans (List.mem_singleton.1 hcall'')
    obtain ⟨r, hr⟩ := hs.answered e he
    rw [← hecall, hr] at hnew
    cases hnew
  case answered =>
    refine List.forall_mem_append.2
      ⟨fun e he => lookup_append_of_some (hs.answered e he),
        List.forall_mem_singleton.2 ⟨resp, ?_⟩⟩
    rw [List.lookup_append, hnew, Option.none_or, List.lookup_cons_self]
  case answers =>
    intro call' resp' h h200
    rcases lookup_snoc h with h | ⟨rfl, -⟩
    · exact hold call' (hs.answers call' resp' h h200)
    · exact ⟨_, List.mem_append_right _ (List.mem_singleton_self _), rfl⟩
  case known =>
    intro c' hc'
    rw [past_store]
    exact (hs.known c' hc').mono hmono
  case writers =>
    intro w json n expected hw
    rw [past_store]
    exact (hs.writers w json n expected hw).mono hmono

theorem inv_step {table : ShadowTable} {deviceId : Bytes} {a : ShadowAct} (hs : s.Inv)
    (ha : s.VersionBelow a) (h : s.step table deviceId a = some t) : t.Inv := by
  have hpast : ∀ o ∈ s.past, ∀ item ∈ o, item.version < 2 ^ 63 - 1 := by
    rintro _ hmem item rfl
    obtain ⟨current, hcurrent, hle⟩ := hs.newest item hmem
    exact hle.trans_lt (ha current hcurrent)
  cases a with
  | upsert w json =>
    obtain ⟨-, rfl⟩ := upsert_step h
    exact hs.set w _ nofun
  | get w k =>
    obtain ⟨json, n, item, -, hk, rfl⟩ := get_step h
    refine hs.set w _ fun _ _ _ heq => ?_
    cases heq
    exact known_getItem (List.mem_of_getElem? hk) (hpast item (List.mem_of_getElem? hk))
  | getFails w resp =>
    obtain ⟨json, n, -, rfl⟩ := getFails_step h
    refine hs.set w _ fun _ _ _ heq => ?_
    cases heq
    exact known_zero s.past
  | send w =>
    obtain ⟨json, n, expected, hw, rfl⟩ := send_step h
    exact hs.send hw
  | evaluate call =>
    obtain ⟨c, hcall, hnew, rfl⟩ := evaluate_step h
    obtain ⟨hlo, hhi, -⟩ := hs.known c (List.mem_of_getElem? hcall)
    rcases evaluate_cases table deviceId c.reportedJson hlo hhi s.stored with
      ⟨hat, resp, heval, -⟩ | ⟨-, resp, heval, hrefused⟩
    · simpa [evaluated, heval] using hs.store hcall hnew hat resp
    · have hstatus : resp.statusCode ≠ 200 := by simp [hrefused.1]
      simpa [evaluated, heval] using hs.refuse call hstatus
  | answer w =>
    obtain ⟨json, n, call, resp, -, hresp, rfl⟩ := answer_step h
    exact hs.returned (hs.answers call resp hresp)
  | putFails w resp =>
    obtain ⟨json, n, call, -, h200, rfl⟩ := putFails_step h
    exact hs.returned fun h => absurd h h200

theorem Inv.noLostUpdate (hs : s.Inv) : s.NoLostUpdate where
  chain := hs.chain
  raises := by
    intro e he
    obtain ⟨c, -, hat, hafter⟩ := hs.expected e he
    rw [hafter]
    cases hbefore : e.before with
    | none =>
      rw [hbefore] at hat
      exact congrArg (· + 1) hat
    | some item =>
      rw [hbefore] at hat
      exact congrArg (· + 1) hat.2.symm
  expected := hs.expected
  known := fun c hc => (hs.known c hc).2.2
  versions := hs.versions.imp ne_of_lt
  calls := hs.calls
  success := hs.success

/-- No update is lost, whatever the writers read and whichever responses arrive, as long as
the versions stay below the largest. -/
theorem no_lost_update (table : ShadowTable) (deviceId : Bytes) (initial : Option Item)
    {as : List ShadowAct}
    (hok : Guarded (step table deviceId) VersionBelow { initial := initial } as)
    (h : exec (step table deviceId) { initial := initial } as = some s) : s.NoLostUpdate :=
  (exec_invariant_guarded (fun _ _ _ hs ha ht => inv_step hs ha ht) (inv_start initial) hok
    h).noLostUpdate

/-- The first writer reads that there is no item. The read of the second fails; it creates
the item, but the response is lost. The first is refused, reads again, and writes version 2. -/
def racingRun : List ShadowAct :=
  [.upsert 0 (ascii "a"), .upsert 1 (ascii "b"), .get 0 0, .getFails 1 ⟨500, none⟩, .send 0,
    .send 1, .evaluate 1, .putFails 1 ⟨0, none⟩, .evaluate 0, .answer 0, .get 0 1, .send 0,
    .evaluate 2, .answer 0]

theorem no_lost_update_racingRun : ∃ s,
    exec (step plainTable (ascii "cam-0001")) { initial := none } racingRun = some s ∧
      s.results = [(1, some .error), (0, some .versionConflict), (2, some .success)] ∧
      s.stored = some ⟨ascii "a", 2⟩ ∧ s.NoLostUpdate := by
  obtain ⟨s, hs, hresults, hstored⟩ : ∃ s,
      exec (step plainTable (ascii "cam-0001")) { initial := none } racingRun = some s ∧
        s.results = [(1, some .error), (0, some .versionConflict), (2, some .success)] ∧
        s.stored = some ⟨ascii "a", 2⟩ :=
    exists_exec_of_any (by decide +kernel)
  exact ⟨s, hs, hresults, hstored, no_lost_update _ _ _ (by decide +kernel) hs⟩

end ShadowWriters

/-! ## One writer alone -/

/-- The network can give the requests of an attempt this fate : a read that does not go
through gives nothing, and a write that does not go through is not answered with a 200. -/
structure Fate.Allowed (fate : Fate) : Prop where
  get : ∀ resp ∈ fate.get, getReported resp = none
  put : ∀ out ∈ fate.put, out.2.statusCode ≠ 200

namespace ShadowWriters

variable {s t : ShadowWriters} {table : ShadowTable} {deviceId : Bytes}

/-- The last of the items there were is the current one, and a call that is still to come
has no response. -/
structure Current (s : ShadowWriters) : Prop where
  stored : s.past[s.applied.length]? = some s.stored
  fresh : ∀ call, s.calls.length ≤ call → s.answers.lookup call = none

theorem current_start (initial : Option Item) : Current { initial := initial } :=
  ⟨rfl, fun _ _ => rfl⟩

theorem Current.evaluated (hs : s.Current) {call : ℕ} (hcall : call < s.calls.length)
    (out : Option Item × HttpResponse) : (s.evaluated call out).Current where
  stored := by
    obtain ⟨item | _, resp⟩ := out
    · simpa [ShadowWriters.evaluated, past] using hs.stored
    · simp [ShadowWriters.evaluated, past]
  fresh := by
    intro k hk
    have hne : k ≠ call := (hcall.trans_le hk).ne'
    rw [ShadowWriters.evaluated, List.lookup_append, hs.fresh k hk]
    simp [List.lookup_cons, beq_eq_false_iff_ne.2 hne]

theorem current_step {a : ShadowAct} (hs : s.Current) (h : s.step table deviceId a = some t) :
    t.Current := by
  cases a with
  | upsert w json =>
    obtain ⟨-, rfl⟩ := upsert_step h
    exact ⟨hs.stored, hs.fresh⟩
  | get w k =>
    obtain ⟨json, n, item, -, -, rfl⟩ := get_step h
    exact ⟨hs.stored, hs.fresh⟩
  | getFails w resp =>
    obtain ⟨json, n, -, rfl⟩ := getFails_step h
    exact ⟨hs.stored, hs.fresh⟩
  | send w =>
    obtain ⟨json, n, expected, -, rfl⟩ := send_step h
    exact ⟨hs.stored, fun call hcall => hs.fresh call (by simp [sent] at hcall; omega)⟩
  | evaluate call =>
    obtain ⟨c, hcall, -, rfl⟩ := evaluate_step h
    exact hs.evaluated (List.getElem?_eq_some_iff.1 hcall).1 _
  | answer w =>
    obtain ⟨json, n, call, resp, -, -, rfl⟩ := answer_step h
    exact ⟨hs.stored, hs.fresh⟩
  | putFails w resp =>
    obtain ⟨json, n, call, -, -, rfl⟩ := putFails_step h
    exact ⟨hs.stored, hs.fresh⟩

variable {w n call : ℕ} {json : Bytes} {fate : Fate}

theorem exec_read_send (table : ShadowTable) (deviceId : Bytes) (hs : s.Current)
    (hw : s.writers w = .reading json n) (hfate : fate.Allowed) :
    ∃ as, exec (step table deviceId) s as = some (s.sent w json n
      (expectedVersion (getReported (fate.get.getD (table.getItem deviceId s.stored))))) := by
  cases hget : fate.get with
  | none =>
    refine ⟨[.get w s.applied.length, .send w], ?_⟩
    simp [exec, step, hw, hs.stored, set, sent]
  | some resp =>
    have hnone := hfate.get resp hget
    refine ⟨[.getFails w resp, .send w], ?_⟩
    simp [exec, step, hw, hnone, set, sent]

theorem writers_returned (hw : t.writers = Function.update s.writers w (.waiting json n call))
    (resp : HttpResponse) : (t.returned w json n call resp).writers = Function.update s.writers w
      (if putReported resp = some .versionConflict ∧ n + 1 < maxAttempts then .reading json (n + 1)
      else .idle) := by
  simp [returned, set, hw]

/-- An attempt of a writer during which no one else moves. -/
theorem exec_attempt (table : ShadowTable) (deviceId : Bytes) (hs : s.Current)
    (hw : s.writers w = .reading json n) (hfate : fate.Allowed) :
    ∃ as t, exec (step table deviceId) s as = some t ∧
      t.stored = (attempt table deviceId json fate s.stored).1 ∧
        t.writers = Function.update s.writers w
          (if (attempt table deviceId json fate s.stored).2 = some .versionConflict ∧
            n + 1 < maxAttempts then .reading json (n + 1) else .idle) := by
  obtain ⟨as, has⟩ := exec_read_send table deviceId hs hw hfate
  obtain ⟨get, put⟩ := fate
  set expected := expectedVersion (getReported (get.getD (table.getItem deviceId s.stored)))
  set out := table.evaluate (putItem deviceId json expected) s.stored with hout
  have hfresh : s.answers.lookup s.calls.length = none := hs.fresh _ le_rfl
  have heval : (s.sent w json n expected).step table deviceId (.evaluate s.calls.length) =
      some ((s.sent w json n expected).evaluated s.calls.length out) := by
    simp [step, sent, set, evaluated, hfresh, hout]
  have hfails : ∀ u : ShadowWriters,
      u.writers = Function.update s.writers w (.waiting json n s.calls.length) →
      ∀ resp : HttpResponse, resp.statusCode ≠ 200 →
      u.step table deviceId (.putFails w resp) =
        some (u.returned w json n s.calls.length resp) := by
    intro u hu resp hresp
    simp [step, hu, hresp]
  rcases put with _ | ⟨_ | _, resp⟩
  · have hanswer : ((s.sent w json n expected).evaluated s.calls.length out).step table deviceId
        (.answer w) = some (((s.sent w json n expected).evaluated s.calls.length out).returned
          w json n s.calls.length out.2) := by
      simp [step, evaluated, sent, set, List.lookup_append, hfresh]
    exact ⟨_, _, exec_append_iff.2 ⟨_, has, exec_cons_iff.2 ⟨_, heval, exec_cons_iff.2
      ⟨_, hanswer, exec_nil _ _⟩⟩⟩, rfl, writers_returned rfl _⟩
  · exact ⟨_, _, exec_append_iff.2 ⟨_, has, exec_cons_iff.2
      ⟨_, hfails _ rfl resp (hfate.put _ rfl), exec_nil _ _⟩⟩, rfl,
      writers_returned rfl _⟩
  · have hfails' := hfails ((s.sent w json n expected).evaluated s.calls.length out) rfl
      resp (hfate.put _ rfl)
    exact ⟨_, _, exec_append_iff.2 ⟨_, has, exec_cons_iff.2 ⟨_, heval, exec_cons_iff.2
      ⟨_, hfails', exec_nil _ _⟩⟩⟩, rfl, writers_returned rfl _⟩

theorem exec_upsertLoop (table : ShadowTable) (deviceId : Bytes) :
    ∀ {k n : ℕ} {fates : List Fate} {s : ShadowWriters}, n + k = maxAttempts → s.Current →
      s.writers w = (if 0 < k then .reading json n else .idle) →
      (∀ fate ∈ fates, fate.Allowed) → ∃ as t, exec (step table deviceId) s as = some t ∧
        t.stored = upsertLoop table deviceId json k fates s.stored ∧
          t.writers = Function.update s.writers w .idle
  | 0, _, _, s, _, _, hw, _ => by
    have hidle : s.writers w = .idle := hw
    exact ⟨[], s, rfl, rfl, by rw [← hidle, Function.update_eq_self]⟩
  | k + 1, n, fates, s, hk, hs, hw, hfates => by
    rw [if_pos k.succ_pos] at hw
    have hhead : (fates.head?.getD {}).Allowed := by
      cases fates with
      | nil => exact ⟨nofun, nofun⟩
      | cons fate fates => exact hfates fate List.mem_cons_self
    have htail : ∀ fate ∈ fates.tail, fate.Allowed :=
      fun fate h => hfates fate (List.mem_of_mem_tail h)
    obtain ⟨as, t, has, hstored, ht⟩ := exec_attempt table deviceId hs hw hhead
    rw [upsertLoop]
    split
    · next hconflict =>
      have hcurrent : t.Current := exec_invariant (fun _ _ _ hu h => current_step hu h) hs has
      have ht' : t.writers w = if 0 < k then .reading json (n + 1) else .idle := by
        rw [ht, hconflict, Function.update_self]
        by_cases h0 : 0 < k
        · rw [if_pos h0, if_pos ⟨rfl, by omega⟩]
        · rw [if_neg h0, if_neg (by omega)]
      obtain ⟨bs, u, hbs, hstored', hu⟩ :=
        exec_upsertLoop table deviceId (by omega) hcurrent ht' htail
      rw [ht, Function.update_idem] at hu
      exact ⟨as ++ bs, u, exec_append_iff.2 ⟨t, has, hbs⟩, by rw [hstored', hstored], hu⟩
    · next hother =>
      rw [if_neg fun h => hother h.1] at ht
      exact ⟨as, t, has, hstored, ht⟩

/-- In every state of a run, a writer during whose call no one else moves does to the item
what `upsertReportedWithRetry` does. -/
theorem exec_upsertReportedWithRetry (table : ShadowTable) (deviceId json : Bytes)
    {initial : Option Item} {bs : List ShadowAct} {fates : List Fate}
    (hs : exec (step table deviceId) { initial := initial } bs = some s) (hw : s.writers w = .idle)
    (hfates : ∀ fate ∈ fates, fate.Allowed) :
    ∃ as t, exec (step table deviceId) s as = some t ∧
      t.stored = upsertReportedWithRetry table deviceId json fates s.stored ∧
        t.writers = s.writers := by
  have hcurrent : s.Current :=
    exec_invariant (fun _ _ _ hu h => current_step hu h) (current_start initial) hs
  have hupsert : s.step table deviceId (.upsert w json) = some (s.set w (.reading json 0)) := by
    simp [step, hw]
  have hreading : (s.set w (.reading json 0)).writers w =
      if 0 < maxAttempts then .reading json 0 else .idle := by
    simp [set, maxAttempts]
  obtain ⟨as, t, has, hstored, ht⟩ := exec_upsertLoop table deviceId (Nat.zero_add maxAttempts)
    (current_step hcurrent hupsert) hreading hfates
  refine ⟨.upsert w json :: as, t, exec_cons_iff.2 ⟨_, hupsert, has⟩, hstored, ?_⟩
  rw [ht, set, Function.update_idem, ← hw, Function.update_eq_self]

end ShadowWriters

end Ridgeline
