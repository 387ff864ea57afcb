import Mathlib.Data.List.Infix
import Ridgeline.Decimal

/-!
# The device shadow

`DeviceShadowStore` and `UpsertReportedWithRetry`, and the table behind them. A
request is answered with an `HttpResponse`, whose body is read as JSON with the
operations of the library : some of them throw, which `GetReported` catches and
`PutReported` does not.

The table is a parameter, `ShadowTable`, whose fields say what is assumed of its responses : a
`PutItem` is evaluated in one step, it is stored if its condition holds, and a refusal says so.
Then a request replaces exactly the version that the caller expected, and raises it by one
(`evaluate_cases`); versions travel as decimal texts, which are read back (`getReported_getItem`).
-/

namespace Ridgeline

/-! ## JSON -/

/-- A JSON value. -/
inductive Json
  | null
  | bool (b : Bool)
  | number (text : Bytes)
  | string (s : Bytes)
  | array (elems : List Json)
  | object (members : List (Bytes × Json))

namespace Json

/-- `contains`. -/
def contains : Json → Bytes → Bool
  | object members, key => (members.lookup key).isSome
  | _, _ => false

/-- The operator `[]` with a key. A member that is missing is created as `null`, also in
`null` itself; for a value of another type the operator throws. -/
def member : Json → Bytes → Option Json
  | object members, key => some ((members.lookup key).getD null)
  | null, _ => some null
  | _, _ => none

/-- `get<std::string>`, which throws for a value of another type. -/
def getString : Json → Option Bytes
  | string s => some s
  | _ => none

/-- `value` with a text as default. It throws if the value is not an object, or if the
member is not a text. -/
def valueString : Json → Bytes → Bytes → Option Bytes
  | object members, key, default =>
    match members.lookup key with
    | none => some default
    | some v => v.getString
  | _, _, _ => none

/-- The value behind a path of keys, if there is one. -/
def path : List Bytes → Json → Option Json
  | [], v => some v
  | key :: keys, object members => (members.lookup key).bind (path keys)
  | _ :: _, _ => none

theorem member_of_path {v w : Json} {key : Bytes} {keys : List Bytes}
    (h : v.path (key :: keys) = some w) :
    v.contains key = true ∧ ∃ u, v.member key = some u ∧ u.path keys = some w := by
  cases v with
  | object members =>
    obtain ⟨u, hu, hw⟩ := Option.bind_eq_some_iff.1 h
    exact ⟨by simp [contains, hu], u, by simp [member, hu], hw⟩
  | null | bool | number | string | array => cases h

end Json

/-- `HttpResponse`, with the body as `json::parse` reads it. The status is 0 if there is
no response. -/
structure HttpResponse where
  statusCode : ℤ
  body : Option Json

/-! ## `GetReported` -/

/-- `DeviceShadow`. -/
structure DeviceShadow where
  reportedJson : Bytes
  version : ℤ
  deriving DecidableEq, Repr

/-- The part of `GetReported` inside the `try` block. -/
def readShadow (body : Json) : Option DeviceShadow := do
  let item ← body.member (ascii "Item")
  let reported ← item.member (ascii "reported_json")
  let reportedJson ← (← reported.member (ascii "S")).getString
  let version ← item.member (ascii "version")
  let number ← stoll (← (← version.member (ascii "N")).getString)
  return ⟨reportedJson, number⟩

/-- `GetReported`, of the response to its request. -/
def getReported (resp : HttpResponse) : Option DeviceShadow :=
  if resp.statusCode ≠ 200 then none
  else
    match resp.body with
    | none => none
    | some body => if body.contains (ascii "Item") then readShadow body else none

/-! ## `PutReported` -/

/-- `PutResult`. -/
inductive PutResult
  | success
  | versionConflict
  | error
  deriving DecidableEq, Repr

/-- The `ConditionExpression` of a `PutItem` : `attribute_not_exists(device_id)`, or
`version = :v` with the number `:v`. -/
inductive Condition
  | attributeNotExists
  | versionIs (v : Bytes)
  deriving DecidableEq, Repr

/-- The `PutItem` request. Numbers are sent as texts. -/
structure PutItem where
  deviceId : Bytes
  reportedJson : Bytes
  version : Bytes
  condition : Condition
  deriving DecidableEq, Repr

/-- The request of `PutReported`. -/
def putItem (deviceId reportedJson : Bytes) (expectedVersion : ℤ) : PutItem where
  deviceId := deviceId
  reportedJson := reportedJson
  version := decimalInt (expectedVersion + 1)
  condition :=
    if expectedVersion = 0 then .attributeNotExists else .versionIs (decimalInt expectedVersion)

/-- The result of `PutReported`, of the response to its request. Only `parse_error` is
caught, so it throws if the body of a 400 is JSON of another shape. -/
def putReported (resp : HttpResponse) : Option PutResult :=
  if resp.statusCode = 200 then some .success
  else if resp.statusCode = 400 then
    match resp.body with
    | none => some .error
    | some body =>
      (body.valueString (ascii "__type") []).map fun type =>
        if ascii "ConditionalCheckFailedException" <:+: type then .versionConflict else .error
  else some .error

/-! ## `UpsertReportedWithRetry` -/

/-- `kMaxAttempts`. -/
def maxAttempts : ℕ :=
  3

/-- The version that an attempt expects : a read that gives nothing counts as version 0. -/
def expectedVersion (current : Option DeviceShadow) : ℤ :=
  (current.map DeviceShadow.version).getD 0

/-! ## The table -/

/-- An item of the table. -/
structure Item where
  reportedJson : Bytes
  version : ℤ
  deriving DecidableEq, Repr

/-- The condition, of the stored item. -/
def PutItem.holds (req : PutItem) (stored : Option Item) : Bool :=
  match req.condition with
  | .attributeNotExists => stored.isNone
  | .versionIs v => stored.any fun item => stoll v = some item.version

/-- A 400 whose `__type` is a text that names `ConditionalCheckFailedException`. -/
def NamesConflict (resp : HttpResponse) : Prop :=
  resp.statusCode = 400 ∧ ∃ members type, resp.body = some (.object members) ∧
    members.lookup (ascii "__type") = some (.string type) ∧
      ascii "ConditionalCheckFailedException" <:+: type

/-- The table : the response to a `GetItem`, and of a `PutItem` the item that is stored, if it
is, and the response, for the item that the device has. -/
structure ShadowTable where
  getItem : Bytes → Option Item → HttpResponse
  evaluate : PutItem → Option Item → Option Item × HttpResponse
  /-- If the device has no item, the body has none. -/
  getItem_none : ∀ deviceId, (getItem deviceId none).statusCode = 200 ∧
    ∃ body, (getItem deviceId none).body = some body ∧ body.contains (ascii "Item") = false
  /-- Otherwise the body has the text, and the version as a decimal text. -/
  getItem_some : ∀ deviceId item, (getItem deviceId (some item)).statusCode = 200 ∧
    ∃ body, (getItem deviceId (some item)).body = some body ∧
      body.path [ascii "Item", ascii "reported_json", ascii "S"] =
        some (.string item.reportedJson) ∧
      body.path [ascii "Item", ascii "version", ascii "N"] =
        some (.string (decimalInt item.version))
  /-- A request whose condition holds is stored and answered with a 200. -/
  applies : ∀ req stored version, stoll req.version = some version → req.holds stored = true →
    (evaluate req stored).1 = some ⟨req.reportedJson, version⟩ ∧
      (evaluate req stored).2.statusCode = 200
  /-- A request whose condition does not hold is not stored, and the response says why. -/
  refuses : ∀ req stored version, stoll req.version = some version → req.holds stored = false →
    (evaluate req stored).1 = none ∧ NamesConflict (evaluate req stored).2

/-- What becomes of the requests of an attempt : the response that arrives instead of the
table's, and whether the `PutItem` is evaluated even so. -/
structure Fate where
  get : Option HttpResponse := none
  put : Option (Bool × HttpResponse) := none

section Upsert

variable (table : ShadowTable)

/-- One attempt of `UpsertReportedWithRetry` on the stored item, and the result of its
`PutReported`. -/
def attempt (deviceId reportedJson : Bytes) (fate : Fate) (stored : Option Item) :
    Option Item × Option PutResult :=
  let expected := expectedVersion (getReported (fate.get.getD (table.getItem deviceId stored)))
  let evaluated := table.evaluate (putItem deviceId reportedJson expected) stored
  match fate.put with
  | none => (evaluated.1.or stored, putReported evaluated.2)
  | some (reached, resp) => (if reached then evaluated.1.or stored else stored, putReported resp)

/-- The loop of `UpsertReportedWithRetry`, with the attempts that are left. -/
def upsertLoop (deviceId reportedJson : Bytes) : ℕ → List Fate → Option Item → Option Item
  | 0, _, stored => stored
  | n + 1, fates, stored =>
    let out := attempt table deviceId reportedJson (fates.head?.getD {}) stored
    match out.2 with
    | some .versionConflict => upsertLoop deviceId reportedJson n fates.tail out.1
    | _ => out.1

/-- `UpsertReportedWithRetry`, while no one else uses the item. -/
def upsertReportedWithRetry (deviceId reportedJson : Bytes) (fates : List Fate)
    (stored : Option Item) : Option Item :=
  upsertLoop table deviceId reportedJson maxAttempts fates stored

end Upsert

/-! ## Versions -/

section Versions

variable {table : ShadowTable}

theorem getReported_getItem_none (deviceId : Bytes) :
    getReported (table.getItem deviceId none) = none := by
  obtain ⟨hstatus, body, hbody, hitem⟩ := table.getItem_none deviceId
  simp [getReported, hstatus, hbody, hitem]

/-- The version of the stored item is read, unless it does not fit. -/
theorem getReported_getItem (deviceId : Bytes) (item : Item) :
    getReported (table.getItem deviceId (some item)) =
      (stoll (decimalInt item.version)).map fun version => ⟨item.reportedJson, version⟩ := by
  obtain ⟨hstatus, body, hbody, hjson, hversion⟩ := table.getItem_some deviceId item
  obtain ⟨hcontains, u, hu, hjson⟩ := Json.member_of_path hjson
  obtain ⟨-, reported, hreported, hjson⟩ := Json.member_of_path hjson
  obtain ⟨-, text, htext, hjson⟩ := Json.member_of_path hjson
  obtain ⟨-, u', hu', hversion⟩ := Json.member_of_path hversion
  obtain rfl := Option.some.inj (hu.symm.trans hu')
  obtain ⟨-, version, hv, hversion⟩ := Json.member_of_path hversion
  obtain ⟨-, number, hnumber, hversion⟩ := Json.member_of_path hversion
  cases hjson
  cases hversion
  have hread : getReported (table.getItem deviceId (some item)) =
      (stoll (decimalInt item.version)).bind fun version => some ⟨item.reportedJson, version⟩ := by
    simp [getReported, hstatus, hbody, hcontains, readShadow, hu, hreported, htext, hv, hnumber,
      Json.getString]
  rw [hread, Option.map_eq_bind]
  rfl

theorem putReported_of_ok {resp : HttpResponse} (h : resp.statusCode = 200) :
    putReported resp = some .success :=
  if_pos h

theorem NamesConflict.putReported_eq {resp : HttpResponse} (h : NamesConflict resp) :
    putReported resp = some .versionConflict := by
  obtain ⟨hstatus, members, type, hbody, htype, hnames⟩ := h
  simp [putReported, hstatus, hbody, Json.valueString, htype, Json.getString, hnames]

/-- `kSuccess` is the result of a 200 only. -/
theorem statusCode_of_success {resp : HttpResponse} (h : putReported resp = some .success) :
    resp.statusCode = 200 := by
  unfold putReported at h
  split_ifs at h with h200 h400
  · exact h200
  · split at h
    · cases h
    · obtain ⟨type, -, htype⟩ := Option.map_eq_some_iff.1 h
      split_ifs at htype
  · cases h

/-- The stored item is at the version that the caller expects, 0 being no item. -/
def AtVersion (expected : ℤ) : Option Item → Prop
  | none => expected = 0
  | some item => expected ≠ 0 ∧ item.version = expected

theorem holds_putItem_iff (deviceId reportedJson : Bytes) {z : ℤ} (hlo : -2 ^ 63 ≤ z)
    (hhi : z < 2 ^ 63) (stored : Option Item) :
    (putItem deviceId reportedJson z).holds stored = true ↔ AtVersion z stored := by
  have hold : stoll (decimalInt z) = some z := stoll_decimalInt hlo hhi
  unfold PutItem.holds putItem
  by_cases h0 : z = 0
  · cases stored <;> simp [h0, AtVersion]
  · cases stored with
    | none => simp [h0, AtVersion]
    | some item => simp [h0, AtVersion, hold, eq_comm]

/-- A `PutItem` is applied exactly if the item is at the expected version, and raises it by
one. -/
theorem evaluate_cases (table : ShadowTable) (deviceId reportedJson : Bytes) {z : ℤ}
    (hlo : -2 ^ 63 ≤ z) (hhi : z < 2 ^ 63 - 1) (stored : Option Item) :
    (AtVersion z stored ∧ ∃ resp, table.evaluate (putItem deviceId reportedJson z) stored =
      (some ⟨reportedJson, z + 1⟩, resp) ∧ resp.statusCode = 200) ∨
    (¬ AtVersion z stored ∧ ∃ resp, table.evaluate (putItem deviceId reportedJson z) stored =
      (none, resp) ∧ NamesConflict resp) := by
  have hnew : stoll (putItem deviceId reportedJson z).version = some (z + 1) :=
    stoll_decimalInt (by omega) (by omega)
  have hholds := holds_putItem_iff deviceId reportedJson hlo (by omega) stored
  by_cases h : AtVersion z stored
  · obtain ⟨hitem, hresp⟩ := table.applies _ stored _ hnew (hholds.2 h)
    exact .inl ⟨h, _, Prod.ext hitem rfl, hresp⟩
  · obtain ⟨hitem, hresp⟩ := table.refuses _ stored _ hnew (Bool.eq_false_iff.2 (mt hholds.1 h))
    exact .inr ⟨h, _, Prod.ext hitem rfl, hresp⟩

/-- If all requests go through, the first upsert creates the item. -/
theorem upsertReportedWithRetry_none (deviceId reportedJson : Bytes) :
    upsertReportedWithRetry table deviceId reportedJson [] none = some ⟨reportedJson, 1⟩ := by
  rcases evaluate_cases table deviceId reportedJson (z := 0) (by omega) (by omega) none with
    ⟨-, resp, heval, hresp⟩ | ⟨hat, -⟩
  · simp [upsertReportedWithRetry, upsertLoop, maxAttempts, attempt, getReported_getItem_none,
      expectedVersion, heval, putReported_of_ok hresp]
  · exact absurd rfl hat

end Versions

/-! ## A table -/

/-- The response to `GetItem`. -/
def plainGetItem (deviceId : Bytes) (stored : Option Item) : HttpResponse where
  statusCode := 200
  body := some <| .object <|
    match stored with
    | none => []
    | some item =>
      [(ascii "Item", .object
        [(ascii "device_id", .object [(ascii "S", .string deviceId)]),
          (ascii "reported_json", .object [(ascii "S", .string item.reportedJson)]),
          (ascii "version", .object [(ascii "N", .string (decimalInt item.version))])])]

/-- The response to a `PutItem` that is refused. -/
def putRefused (type message : String) : HttpResponse :=
  ⟨400, some (.object
    [(ascii "__type", .string (ascii type)), (ascii "message", .string (ascii message))])⟩

/-- The evaluation of a `PutItem`. -/
def plainEvaluate (req : PutItem) (stored : Option Item) : Option Item × HttpResponse :=
  match stoll req.version with
  | none =>
    (none, putRefused "com.amazon.coral.validate#ValidationException"
      "The parameter cannot be converted to a numeric value")
  | some version =>
    if req.holds stored then (some ⟨req.reportedJson, version⟩, ⟨200, some (.object [])⟩)
    else (none, putRefused "com.amazonaws.dynamodb.v20120810#ConditionalCheckFailedException"
      "The conditional request failed")

/-- A table that gives the responses in their usual form. -/
def plainTable : ShadowTable where
  getItem := plainGetItem
  evaluate := plainEvaluate
  getItem_none := fun _ => ⟨rfl, _, rfl, rfl⟩
  getItem_some := fun _ _ => ⟨rfl, _, rfl, rfl, rfl⟩
  applies := fun req stored version hversion hholds => by
    simp [plainEvaluate, hversion, hholds]
  refuses := fun req stored version hversion hholds => by
    simp only [plainEvaluate, hversion, hholds, Bool.false_eq_true, if_false, true_and]
    exact ⟨rfl, _, _, rfl, rfl, by decide⟩

end Ridgeline
