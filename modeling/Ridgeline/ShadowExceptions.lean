import Ridgeline.Ingest
import Ridgeline.ShadowStore

/-!
# What the shadow store throws

`GetReported`, `PutReported`, `UpsertReportedWithRetry` and the heartbeat that calls them once more,
now with the exceptions : which class each operation on the response throws, and which classes are
caught where. `json::parse` throws `parse_error`, an access of the wrong type `type_error`, and
`std::stoll` one of its own two.

`GetReported` catches all of them (`getReported_eq`). `PutReported` catches `parse_error` only, so
a 400 whose body is JSON of another shape than it expects (`Misshapen`) makes it throw, out of
`UpsertReportedWithRetry` and out of `Connect`, which ends the device's stream
(`array_body_ends_stream`). `shadow_store_best_effort` : these are the only responses that do.
-/

namespace Ridgeline

/-! ## Exceptions -/

/-- The exceptions of the library and of `std::stoll`. -/
inductive Exn
  | parseError
  | typeError
  | conversionError
  deriving DecidableEq, Repr

/-- `try` with a handler for the classes in `caught`, which gives `a`. -/
def catching {α : Type} (caught : Exn → Bool) (x : Except Exn α) (a : α) : Except Exn α :=
  match x with
  | .ok b => .ok b
  | .error e => if caught e then .ok a else .error e

/-- `catch (const json::parse_error&)`. -/
def isParseError (e : Exn) : Bool :=
  e = .parseError

/-- `catch (const std::exception&)`. -/
def isStdException (_ : Exn) : Bool :=
  true

namespace Throwing

/-- `json::parse`. -/
def parse (body : Option Json) : Except Exn Json :=
  match body with
  | some json => .ok json
  | none => .error .parseError

/-- An access that throws `type_error` where it is not defined. -/
def typed {α : Type} (x : Option α) : Except Exn α :=
  match x with
  | some a => .ok a
  | none => .error .typeError

/-- `std::stoll`. -/
def stoll (text : Bytes) : Except Exn ℤ :=
  match Ridgeline.stoll text with
  | some z => .ok z
  | none => .error .conversionError

/-! ## The store -/

/-- The second `try` block of `GetReported`. -/
def readShadow (body : Json) : Except Exn DeviceShadow := do
  let item ← typed (body.member (ascii "Item"))
  let reported ← typed (item.member (ascii "reported_json"))
  let reportedJson ← typed (← typed (reported.member (ascii "S"))).getString
  let version ← typed (item.member (ascii "version"))
  let number ← stoll (← typed (← typed (version.member (ascii "N"))).getString)
  return ⟨reportedJson, number⟩

/-- `GetReported`, of the response to its request. -/
def getReported (resp : HttpResponse) : Except Exn (Option DeviceShadow) :=
  if resp.statusCode ≠ 200 then .ok none
  else do
    let some body ← catching isParseError ((parse resp.body).map some) none | return none
    if body.contains (ascii "Item") then
      catching isStdException ((readShadow body).map some) none
    else return none

/-- The `try` block of `PutReported` : the result, if it returns one. -/
def classify (body : Option Json) : Except Exn (Option PutResult) := do
  let json ← parse body
  let type ← typed (json.valueString (ascii "__type") [])
  return if ascii "ConditionalCheckFailedException" <:+: type then some .versionConflict else none

/-- `PutReported`, of the response to its request. -/
def putReported (resp : HttpResponse) : Except Exn PutResult :=
  if resp.statusCode = 200 then .ok .success
  else if resp.statusCode = 400 then do
    let result ← catching isParseError (classify resp.body) none
    return result.getD .error
  else .ok .error

/-! ## The caller -/

/-- A request that `UpsertReportedWithRetry` sends. -/
inductive Request
  | get (deviceId : Bytes)
  | put (item : PutItem)
  deriving DecidableEq, Repr

/-- The request is a read. -/
def Request.isGet : Request → Bool
  | .get _ => true
  | .put _ => false

/-- A call of `UpsertReportedWithRetry` : the requests it sent, and whether it returned. -/
structure UpsertRun where
  requests : List Request
  result : Except Exn Unit

/-- The loop with `n` attempts left, from the attempt `k` on. The transport answers the requests
with `resps`, one after the other. -/
def upsertLoop (deviceId reportedJson : Bytes) (resps : ℕ → HttpResponse) :
    (n k : ℕ) → UpsertRun
  | 0, _ => ⟨[], .ok ()⟩
  | n + 1, k =>
    match getReported (resps (2 * k)) with
    | .error e => ⟨[.get deviceId], .error e⟩
    | .ok current =>
      let sent := [.get deviceId, .put (putItem deviceId reportedJson (expectedVersion current))]
      match putReported (resps (2 * k + 1)) with
      | .error e => ⟨sent, .error e⟩
      | .ok .success => ⟨sent, .ok ()⟩
      | .ok .error => ⟨sent, .ok ()⟩
      | .ok .versionConflict =>
        let rest := upsertLoop deviceId reportedJson resps n (k + 1)
        ⟨sent ++ rest.requests, rest.result⟩

/-- `UpsertReportedWithRetry`. -/
def upsertReportedWithRetry (deviceId reportedJson : Bytes) (resps : ℕ → HttpResponse) :
    UpsertRun :=
  upsertLoop deviceId reportedJson resps maxAttempts 0

/-- The case `kHeartbeat` of `Connect`. Nothing catches what the shadow update throws, so that
`Connect` ends with the exception. -/
def onHeartbeat (g : Integrations) (s : Stream) (hb : Heartbeat) (ans : Answers)
    (resps : ℕ → HttpResponse) : Except Exn Outcome := do
  if s.deviceId ≠ [] ∧ g.shadowStore then
    (upsertReportedWithRetry s.deviceId (Stream.reportedJson hb ans.shadowNow) resps).result
  return s.onHeartbeat g hb ans

/-! ## What best-effort means -/

/-- The shape that `PutReported` expects of the body of a 400 : an object, whose `__type` is a
text if it has one. -/
def WellShaped (body : Json) : Prop :=
  ∃ members, body = .object members ∧
    ∀ v, members.lookup (ascii "__type") = some v → ∃ type, v = .string type

/-- A 400 whose body is JSON of another shape. -/
def Misshapen (resp : HttpResponse) : Prop :=
  resp.statusCode = 400 ∧ ∃ body, resp.body = some body ∧ ¬ WellShaped body

/-- The update is best-effort, whatever it is called with : it returns after at most three reads
and three writes, and the heartbeat goes on as if there were no shadow store. -/
structure BestEffort (resps : ℕ → HttpResponse) : Prop where
  returns : ∀ deviceId json, (upsertReportedWithRetry deviceId json resps).result = .ok ()
  reads : ∀ deviceId json,
    (upsertReportedWithRetry deviceId json resps).requests.countP Request.isGet ≤ 3
  writes : ∀ deviceId json,
    (upsertReportedWithRetry deviceId json resps).requests.countP (!·.isGet) ≤ 3
  heartbeat : ∀ g s hb ans, onHeartbeat g s hb ans resps = .ok (s.onHeartbeat g hb ans)

/-- No write that is sent, because all before it ended in conflicts, is answered with a misshapen
400. -/
def WritesWellShaped (resps : ℕ → HttpResponse) : Prop :=
  ∀ k < 3, (∀ j < k, NamesConflict (resps (2 * j + 1))) → ¬ Misshapen (resps (2 * k + 1))

/-! ## The two functions of the store -/

theorem toOption_bind {α β : Type} (x : Except Exn α) (f : α → Except Exn β) :
    (x >>= f).toOption = x.toOption.bind fun a => (f a).toOption := by
  cases x <;> rfl

theorem toOption_typed {α : Type} (x : Option α) : (typed x).toOption = x := by
  cases x <;> rfl

theorem toOption_stoll (text : Bytes) : (stoll text).toOption = Ridgeline.stoll text := by
  unfold stoll
  cases Ridgeline.stoll text <;> rfl

theorem toOption_readShadow (body : Json) :
    (readShadow body).toOption = Ridgeline.readShadow body := by
  simp only [readShadow, Ridgeline.readShadow, toOption_bind, toOption_typed, toOption_stoll]
  rfl

theorem catching_isStdException {α : Type} (x : Except Exn α) :
    catching isStdException (x.map some) none = .ok x.toOption := by
  cases x <;> rfl

/-- `GetReported` never throws. -/
theorem getReported_eq (resp : HttpResponse) :
    getReported resp = .ok (Ridgeline.getReported resp) := by
  unfold getReported Ridgeline.getReported
  split_ifs with h200
  · rfl
  · cases resp.body with
    | none => rfl
    | some body =>
      by_cases hitem : body.contains (ascii "Item")
      · simp only [hitem, if_true]
        rw [← toOption_readShadow, ← catching_isStdException]
        simp [parse, catching, Except.map, hitem, bind, Except.bind]
      · simp [parse, catching, Except.map, hitem, bind, Except.bind, pure, Except.pure]

theorem valueString_eq_none_iff (body : Json) :
    body.valueString (ascii "__type") [] = none ↔ ¬ WellShaped body := by
  cases body with
  | object members =>
    simp only [Json.valueString, WellShaped, Json.object.injEq, exists_eq_left', not_forall,
      not_exists]
    cases members.lookup (ascii "__type") with
    | none => simp
    | some v => cases v <;> simp [Json.getString]
  | null | bool | number | string | array => simp [Json.valueString, WellShaped]

theorem valueString_infix_iff {body : Json} {type : Bytes}
    (h : body.valueString (ascii "__type") [] = some type) :
    ascii "ConditionalCheckFailedException" <:+: type ↔
      ∃ members text, body = .object members ∧
        members.lookup (ascii "__type") = some (.string text) ∧
          ascii "ConditionalCheckFailedException" <:+: text := by
  cases body with
  | object members =>
    simp only [Json.valueString] at h
    cases hlookup : members.lookup (ascii "__type") with
    | none =>
      rw [hlookup] at h
      obtain rfl := Option.some.inj h
      simp only [Json.object.injEq, exists_and_left, exists_eq_left', hlookup, reduceCtorEq,
        false_and, exists_false, iff_false]
      decide
    | some v =>
      rw [hlookup] at h
      cases v <;> simp_all [Json.getString]
  | null | bool | number | string | array => simp [Json.valueString] at h

/-- `PutReported` throws exactly for a misshapen 400, and returns `kVersionConflict` exactly for one
that names the exception. -/
theorem putReported_cases (resp : HttpResponse) :
    (Misshapen resp ∧ putReported resp = .error .typeError) ∨
      ¬ Misshapen resp ∧ ∃ result, putReported resp = .ok result ∧
        (result = .versionConflict ↔ NamesConflict resp) := by
  unfold putReported Misshapen NamesConflict
  by_cases h200 : resp.statusCode = 200
  · right
    rw [if_pos h200]
    exact ⟨by omega, .success, rfl, by simp [h200]⟩
  by_cases h400 : resp.statusCode = 400
  · rw [if_neg h200, if_pos h400]
    cases hbody : resp.body with
    | none => exact .inr ⟨by simp, .error, rfl, by simp⟩
    | some body =>
      cases htype : body.valueString (ascii "__type") [] with
      | none =>
        left
        refine ⟨⟨h400, body, rfl, (valueString_eq_none_iff body).1 htype⟩, ?_⟩
        simp [classify, parse, typed, htype, catching, isParseError, bind, Except.bind]
      | some type =>
        right
        have hshape : WellShaped body := by
          by_contra h
          rw [(valueString_eq_none_iff body).2 h] at htype
          cases htype
        have hiff := valueString_infix_iff htype
        refine ⟨by simp [hshape], ?_⟩
        by_cases hconflict : ascii "ConditionalCheckFailedException" <:+: type
        · refine ⟨.versionConflict, ?_, by simpa [h400] using hiff.1 hconflict⟩
          simp [classify, parse, typed, htype, catching, hconflict, bind, Except.bind, pure,
            Except.pure]
        · refine ⟨.error, ?_, by simpa [h400] using mt hiff.2 hconflict⟩
          simp [classify, parse, typed, htype, catching, hconflict, bind, Except.bind, pure,
            Except.pure]
  · right
    rw [if_neg h200, if_neg h400]
    exact ⟨by simp [h400], .error, rfl, by simp [h400]⟩

/-- Without the classes of the exceptions, `PutReported` is the function of the store's model. -/
theorem toOption_putReported (resp : HttpResponse) :
    (putReported resp).toOption = Ridgeline.putReported resp := by
  unfold putReported Ridgeline.putReported
  split_ifs
  · rfl
  · cases resp.body with
    | none => rfl
    | some body =>
      cases htype : body.valueString (ascii "__type") [] with
      | none =>
        simp [classify, parse, typed, htype, catching, isParseError, bind, Except.bind,
          Except.toOption]
      | some type =>
        by_cases hconflict : ascii "ConditionalCheckFailedException" <:+: type <;>
          simp [classify, parse, typed, htype, catching, hconflict, bind, Except.bind, pure,
            Except.pure, Except.toOption]
  · rfl

/-! ## The loop -/

/-- The loop returns if no write that it sends is answered with a misshapen 400. -/
theorem result_upsertLoop_iff (deviceId json : Bytes) (resps : ℕ → HttpResponse) :
    ∀ n k, (upsertLoop deviceId json resps n k).result = .ok () ↔
      ∀ i < n, (∀ j < i, NamesConflict (resps (2 * (k + j) + 1))) →
        ¬ Misshapen (resps (2 * (k + i) + 1))
  | 0, k => by simp [upsertLoop]
  | n + 1, k => by
    rw [upsertLoop, getReported_eq]
    rcases putReported_cases (resps (2 * k + 1)) with ⟨hbad, hput⟩ | ⟨hgood, result, hput, hiff⟩
    · simp only [hput, reduceCtorEq, false_iff, not_forall, not_not]
      exact ⟨0, n.succ_pos, nofun, hbad⟩
    · cases result with
      | versionConflict =>
        have hconflict := hiff.1 rfl
        simp only [hput]
        rw [result_upsertLoop_iff deviceId json resps n (k + 1)]
        constructor
        · intro h i hi hbefore
          cases i with
          | zero => exact hgood
          | succ i =>
            have := h i (by omega) fun j hj => by
              have := hbefore (j + 1) (by omega)
              rwa [show k + 1 + j = k + (j + 1) by omega]
            rwa [show k + (i + 1) = k + 1 + i by omega]
        · intro h i hi hbefore
          rw [show k + 1 + i = k + (i + 1) by omega]
          refine h (i + 1) (by omega) fun j hj => ?_
          cases j with
          | zero => exact hconflict
          | succ j =>
            rw [show k + (j + 1) = k + 1 + j by omega]
            exact hbefore j (by omega)
      | success | error =>
        have hother : ¬ NamesConflict (resps (2 * k + 1)) := fun h => by cases hiff.2 h
        simp only [hput, true_iff]
        intro i _ hbefore
        cases i with
        | zero => exact hgood
        | succ i => exact absurd (hbefore 0 i.succ_pos) hother

/-- Each attempt sends at most one read and one write. -/
theorem requests_upsertLoop (deviceId json : Bytes) (resps : ℕ → HttpResponse) :
    ∀ n k, (upsertLoop deviceId json resps n k).requests.countP Request.isGet ≤ n ∧
      (upsertLoop deviceId json resps n k).requests.countP (!·.isGet) ≤ n
  | 0, k => by simp [upsertLoop]
  | n + 1, k => by
    rw [upsertLoop, getReported_eq]
    rcases putReported_cases (resps (2 * k + 1)) with ⟨-, hput⟩ | ⟨-, result, hput, -⟩
    · simp [hput, Request.isGet, List.countP_cons]
    · cases result with
      | versionConflict =>
        obtain ⟨hreads, hwrites⟩ := requests_upsertLoop deviceId json resps n (k + 1)
        simpa [hput, Request.isGet, List.countP_cons] using ⟨hreads, hwrites⟩
      | success | error => simp [hput, Request.isGet, List.countP_cons]

theorem result_upsertReportedWithRetry_iff (deviceId json : Bytes) (resps : ℕ → HttpResponse) :
    (upsertReportedWithRetry deviceId json resps).result = .ok () ↔ WritesWellShaped resps := by
  have hloop := result_upsertLoop_iff deviceId json resps maxAttempts 0
  simp only [zero_add] at hloop
  exact hloop

theorem onHeartbeat_eq {resps : ℕ → HttpResponse} (h : WritesWellShaped resps) (g : Integrations)
    (s : Stream) (hb : Heartbeat) (ans : Answers) :
    onHeartbeat g s hb ans resps = .ok (s.onHeartbeat g hb ans) := by
  unfold onHeartbeat
  rw [(result_upsertReportedWithRetry_iff _ _ resps).2 h]
  split_ifs <;> rfl

/-- `GetReported` returns for every response. `PutReported` returns unless the response is a
misshapen 400, and returns `kVersionConflict` for a 400 that names the exception and no other. The
update and the heartbeat are best-effort if no write that is sent is answered with a misshapen 400,
and only then. -/
theorem shadow_store_best_effort (resp : HttpResponse) (resps : ℕ → HttpResponse) :
    (∃ shadow, getReported resp = .ok shadow) ∧
    ((∃ result, putReported resp = .ok result) ↔ ¬ Misshapen resp) ∧
    (putReported resp = .ok .versionConflict ↔ NamesConflict resp) ∧
    (BestEffort resps ↔ WritesWellShaped resps) := by
  refine ⟨⟨_, getReported_eq resp⟩, ?_, ?_, fun h => ?_, fun h => ?_⟩
  · rcases putReported_cases resp with ⟨hbad, hput⟩ | ⟨hgood, result, hput, -⟩
    · simp [hbad, hput]
    · exact iff_of_true ⟨result, hput⟩ hgood
  · rcases putReported_cases resp with ⟨⟨h400, body, hbody, hshape⟩, hput⟩ |
      ⟨-, result, hput, hiff⟩
    · rw [hput]
      refine iff_of_false nofun ?_
      rintro ⟨-, members, type, hobject, htype, -⟩
      obtain rfl := Option.some.inj (hbody.symm.trans hobject)
      exact hshape ⟨members, rfl, fun v hv => ⟨type, Option.some.inj (hv.symm.trans htype)⟩⟩
    · rw [hput, Except.ok.injEq, hiff]
  · exact (result_upsertReportedWithRetry_iff [] [] resps).1 (h.returns [] [])
  · exact
      { returns := fun deviceId json => (result_upsertReportedWithRetry_iff deviceId json resps).2 h
        reads := fun deviceId json => (requests_upsertLoop deviceId json resps 3 0).1
        writes := fun deviceId json => (requests_upsertLoop deviceId json resps 3 0).2
        heartbeat := onHeartbeat_eq h }

/-- The table answers the write with a 400 whose body is an empty array : `type_error` leaves the
update, and ends the stream of the device, whose configuration is not pushed either. -/
theorem array_body_ends_stream :
    Misshapen ⟨400, some (.array [])⟩ ∧
    putReported ⟨400, some (.array [])⟩ = .error .typeError ∧
    (upsertReportedWithRetry (ascii "cam-0001") (ascii "1")
      fun _ => ⟨400, some (.array [])⟩).result = .error .typeError ∧
    onHeartbeat ⟨false, false, true, false⟩ { deviceId := ascii "cam-0001" } ⟨0, 0, 0⟩ {}
      (fun _ => ⟨400, some (.array [])⟩) = .error .typeError :=
  ⟨⟨rfl, _, rfl, nofun⟩, rfl, rfl, rfl⟩

end Throwing

end Ridgeline
