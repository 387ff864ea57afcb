import Mathlib.Data.List.AList
import Ridgeline.DesiredConfigs
import Ridgeline.Tenancy

/-!
# The connection to Redis

`RedisHotStateStore` keeps a hash for each device, which `Update` writes and `Get` reads over one
connection. `redisCommand` sends a command and takes the next unread reply of the connection, so a
call gets the reply to its own command only if no other call is between the two. Each of the
methods has a mutex of its own, a `static` of the function, and it keeps out the calls of this
method only.

`RedisClients` is a run of the two methods in any number of threads. If no call begins while one
of the other method is in progress, and no device that is written has a NUL byte in its id
(`Excluding`), then every call reads the reply to its own command, and a `Get` returns what the
last `Update` stored (`replies_match`). With the mutexes alone a `Get` can take the reply to
an `Update` of another device (`reply_of_other_call`).

The server is a parameter, `RedisServer`, whose fields say what is assumed of `HSET` and
`HGETALL`. What `Get` makes of the fields does not depend on their order (`getResult_flat`), and
an `Update` changes the state that is read under its key and no other (`hotStates_setFields`),
which is how `Stores` sees Redis.
-/

namespace Ridgeline

/-! ## The server -/

/-- The fields of a hash, each with one value. -/
abbrev RedisHash := AList fun _ : Bytes => Bytes

/-- What the server holds under a key. -/
inductive RedisValue
  | hash (fields : RedisHash)
  | other

/-- What the server holds. -/
abbrev RedisDb := Bytes → Option RedisValue

/-- The commands of the store. -/
inductive RedisCommand
  | hset (key : Bytes) (fields : List (Bytes × Bytes))
  | hgetall (key : Bytes)
  deriving DecidableEq, Repr

/-- `redisReply`. An element of an array can be without a text. -/
inductive RedisReply
  | integer (n : ℕ)
  | array (elements : List (Option Bytes))
  | error
  deriving DecidableEq, Repr

/-- `HSET` : a field replaces the one of the same name. -/
def setFields (h : RedisHash) (fields : List (Bytes × Bytes)) : RedisHash :=
  fields.foldl (fun h f => h.insert f.1 f.2) h

/-- The names with the values behind them. -/
def flat (fields : List ((_ : Bytes) × Bytes)) : List (Option Bytes) :=
  fields.flatMap fun f => [some f.1, some f.2]

namespace RedisDb

/-- The hash under a key. A key without a value has the empty one, and a key that holds
something else has none. -/
def hashAt (db : RedisDb) (key : Bytes) : Option RedisHash :=
  match db key with
  | none => some ∅
  | some (.hash h) => some h
  | some .other => none

end RedisDb

/-- The server : the reply to a command and the database after it, if it can make the choice. -/
structure RedisServer where
  execute : RedisDb → List ((_ : Bytes) × Bytes) → RedisCommand → Option (RedisReply × RedisDb)
  /-- `HSET` is refused and changes nothing, or it sets the fields. -/
  hset : ∀ {db choice key fields reply db'},
    execute db choice (.hset key fields) = some (reply, db') →
      (reply = .error ∧ db' = db) ∨ ∃ h n, db.hashAt key = some h ∧ reply = .integer n ∧
        db' = Function.update db key (some (.hash (setFields h fields)))
  /-- `HGETALL` changes nothing. It gives the fields of a hash in any order, and is refused for
  any other value. -/
  hgetall : ∀ {db choice key reply db'},
    execute db choice (.hgetall key) = some (reply, db') → db' = db ∧
      ((∃ h fields, db.hashAt key = some h ∧ fields.Perm h.entries ∧
        reply = .array (flat fields)) ∨ db.hashAt key = none ∧ reply = .error)

/-! ## The two methods -/

/-- A `DeviceHotState` whose time has 64 bits. -/
structure HotState extends DeviceHotState where
  inInt64 : -2 ^ 63 ≤ lastSeenUnixNs ∧ lastSeenUnixNs < 2 ^ 63
  deriving DecidableEq, Repr

/-- The fields that `Update` writes, with their values as they are printed. -/
def stateFields (state : DeviceHotState) : List (Bytes × Bytes) :=
  [(ascii "last_seen_unix_ns", decimalInt state.lastSeenUnixNs),
    (ascii "queue_depth", decimal state.queueDepth.toNat),
    (ascii "frames_dropped", decimal state.framesDropped.toNat)]

/-- The command of `Update`. -/
def updateCommand (deviceId : Bytes) (state : DeviceHotState) : RedisCommand :=
  .hset (redisKey deviceId) (stateFields state)

/-- What `Update` returns for a reply, which is missing if the connection is broken. -/
def updateResult : Option RedisReply → Bool
  | none => false
  | some .error => false
  | some _ => true

/-- The command of `Get`. -/
def getCommand (deviceId : Bytes) : RedisCommand :=
  .hgetall (redisKey deviceId)

/-- The value of `std::stoull` for the digits behind the sign, if it does not throw. -/
def stoullDigits (negative : Bool) (ds : Bytes) : Option UInt64 :=
  (leadingNat ds).bind fun n =>
    if 2 ^ 64 ≤ n then none
    else if negative then some (0 - UInt64.ofNat n)
    else some (UInt64.ofNat n)

/-- `std::stoull`, and `std::stoul`, which has 64 bits too. -/
def stoull (text : Bytes) : Option UInt64 :=
  match text.dropWhile isSpace with
  | 45 :: ds => stoullDigits true ds
  | 43 :: ds => stoullDigits false ds
  | ds => stoullDigits false ds

/-- The text of an element, up to the first NUL byte. -/
def elementStr (element : Option Bytes) : Bytes :=
  (element.map cStr).getD []

/-- The body of the loop in `Get`. A value that is no number is left out. -/
def readField (state : DeviceHotState) (field value : Bytes) : DeviceHotState :=
  if field = ascii "last_seen_unix_ns" then
    { state with lastSeenUnixNs := (stoll value).getD state.lastSeenUnixNs }
  else if field = ascii "queue_depth" then
    { state with queueDepth := ((stoull value).map UInt64.toUInt32).getD state.queueDepth }
  else if field = ascii "frames_dropped" then
    { state with framesDropped := (stoull value).getD state.framesDropped }
  else state

/-- The loop in `Get`. -/
def readFields (state : DeviceHotState) : List (Option Bytes) → DeviceHotState
  | field :: value :: rest =>
    readFields (readField state (elementStr field) (elementStr value)) rest
  | _ => state

/-- What `Get` returns for a reply. -/
def getResult : Option RedisReply → Option DeviceHotState
  | some (.array elements) => if elements = [] then none else some (readFields ⟨0, 0, 0⟩ elements)
  | _ => none

/-! ## What is read of a hash -/

/-- No name in the hash has a NUL byte. -/
def CleanNames (h : RedisHash) : Prop :=
  ∀ name ∈ h, (0 : UInt8) ∉ name

/-- The state in the fields, with the values of `state` for what is missing. -/
def stateOf (state : DeviceHotState) (value : Bytes → Option Bytes) : DeviceHotState where
  lastSeenUnixNs := (((value (ascii "last_seen_unix_ns")).map cStr).bind stoll).getD
    state.lastSeenUnixNs
  queueDepth := ((((value (ascii "queue_depth")).map cStr).bind stoull).map UInt64.toUInt32).getD
    state.queueDepth
  framesDropped := (((value (ascii "frames_dropped")).map cStr).bind stoull).getD
    state.framesDropped

/-- The states in the hashes by key, as `Get` reads them. -/
def RedisDb.hotStates (db : RedisDb) (key : Bytes) : Option DeviceHotState :=
  (db.hashAt key).bind fun h =>
    if h.entries = [] then none else some (stateOf ⟨0, 0, 0⟩ fun name => h.lookup name)

theorem readField_stateOf {state : DeviceHotState} {name value : Bytes}
    {l : List ((_ : Bytes) × Bytes)} (hname : (0 : UInt8) ∉ name)
    (hl : List.dlookup name l = none) :
    stateOf (readField state (elementStr (some name)) (elementStr (some value)))
        (fun n => List.dlookup n l) =
      stateOf state fun n => List.dlookup n (⟨name, value⟩ :: l) := by
  have hstr : elementStr (some name) = name := by simp [elementStr, cStr_eq_self hname]
  have hvalue : elementStr (some value) = cStr value := rfl
  have hother : ∀ n, n ≠ name →
      List.dlookup n ((⟨name, value⟩ : (_ : Bytes) × Bytes) :: l) = List.dlookup n l :=
    fun n hn => List.dlookup_cons_ne l ⟨name, value⟩ hn
  have hown := List.dlookup_cons_eq l name value
  rw [hstr, hvalue, readField]
  split_ifs with h1 h2 h3
  · subst h1
    simp [stateOf, hown, hl, hother (ascii "queue_depth") (by decide),
      hother (ascii "frames_dropped") (by decide)]
  · subst h2
    simp [stateOf, hown, hl, hother (ascii "last_seen_unix_ns") (by decide),
      hother (ascii "frames_dropped") (by decide)]
  · subst h3
    simp [stateOf, hown, hl, hother (ascii "last_seen_unix_ns") (by decide),
      hother (ascii "queue_depth") (by decide)]
  · simp [stateOf, hother _ (Ne.symm h1), hother _ (Ne.symm h2), hother _ (Ne.symm h3)]

/-- The loop finds each value by its name. -/
theorem readFields_flat : ∀ {l : List ((_ : Bytes) × Bytes)} {state : DeviceHotState},
    l.NodupKeys → (∀ name ∈ l.keys, (0 : UInt8) ∉ name) →
      readFields state (flat l) = stateOf state fun name => List.dlookup name l
  | [], _, _, _ => rfl
  | ⟨name, value⟩ :: l, state, hl, hnames => by
    obtain ⟨hname, hl⟩ := List.nodupKeys_cons.1 hl
    rw [← readField_stateOf (hnames name (by simp)) (List.dlookup_eq_none.2 hname),
      ← readFields_flat hl fun n hn => hnames n (by simp [hn])]
    rfl

/-- What `Get` returns for the fields in any order. -/
theorem getResult_flat {db : RedisDb} {key : Bytes} {h : RedisHash}
    {order : List ((_ : Bytes) × Bytes)} (hdb : db.hashAt key = some h) (hclean : CleanNames h)
    (horder : order.Perm h.entries) :
    getResult (some (.array (flat order))) = db.hotStates key := by
  have hnodup : order.NodupKeys := (List.perm_nodupKeys horder).2 h.nodupKeys
  have hnames : ∀ name ∈ order.keys, (0 : UInt8) ∉ name := fun name hname =>
    hclean name (((horder.map Sigma.fst).mem_iff).1 hname)
  have hlookup : (fun name => List.dlookup name order) = fun name => h.lookup name :=
    funext fun name => List.perm_dlookup name hnodup horder
  have hnil : flat order = [] ↔ h.entries = [] := by
    have hflat : flat order = [] ↔ order = [] := by
      cases order <;> simp [flat]
    rw [hflat]
    exact ⟨fun hempty => List.perm_nil.1 (hempty ▸ horder).symm,
      fun hempty => List.perm_nil.1 (hempty ▸ horder)⟩
  simp only [getResult, RedisDb.hotStates, hdb, Option.bind_some, hnil,
    readFields_flat hnodup hnames, hlookup]

/-! ## What is written is read -/

theorem stoull_decimal (n : UInt64) : stoull (decimal n.toNat) = some n := by
  obtain ⟨b, bs, hcons, hb⟩ := decimal_eq_cons n.toNat
  have hdrop : (decimal n.toNat).dropWhile isSpace = decimal n.toNat := by
    rw [hcons]
    exact List.dropWhile_cons_of_neg (by simp [hb.isSpace_eq_false])
  have hvalue : stoullDigits false (decimal n.toNat) = some n := by
    simp only [stoullDigits, leadingNat_decimal, Option.bind_some]
    rw [if_neg (not_le.2 n.toNat_lt), if_neg (by simp), UInt64.ofNat_toNat]
  rw [stoull, hdrop]
  split
  · next ds heq => exact absurd (heq ▸ List.mem_cons_self) (not_mem_decimal (by decide) _)
  · next ds heq => exact absurd (heq ▸ List.mem_cons_self) (not_mem_decimal (by decide) _)
  · exact hvalue

/-- The fields that were written are read as the state they were written from. -/
theorem stateOf_setFields (h : RedisHash) (state : HotState) (d : DeviceHotState) :
    (stateOf d fun name => (setFields h (stateFields state.toDeviceHotState)).lookup name) =
      state.toDeviceHotState := by
  have hdecimal : ∀ n, cStr (decimal n) = decimal n := fun n =>
    cStr_eq_self (not_mem_decimal (by decide) n)
  have hint : cStr (decimalInt state.lastSeenUnixNs) = decimalInt state.lastSeenUnixNs :=
    cStr_eq_self (not_mem_decimalInt (by decide) (by decide) _)
  have hdepth : stoull (decimal state.queueDepth.toNat) = some state.queueDepth.toUInt64 := by
    rw [← UInt32.toNat_toUInt64]
    exact stoull_decimal _
  have h12 : ascii "last_seen_unix_ns" ≠ ascii "queue_depth" := by decide
  have h13 : ascii "last_seen_unix_ns" ≠ ascii "frames_dropped" := by decide
  have h23 : ascii "queue_depth" ≠ ascii "frames_dropped" := by decide
  simp [stateOf, setFields, stateFields, AList.lookup_insert, AList.lookup_insert_ne h12,
    AList.lookup_insert_ne h13, AList.lookup_insert_ne h23, hdecimal, hint, hdepth,
    stoull_decimal, stoll_decimalInt state.inInt64.1 state.inInt64.2]

theorem entries_setFields_ne_nil (h : RedisHash) (state : DeviceHotState) :
    (setFields h (stateFields state)).entries ≠ [] := by
  simp [setFields, stateFields, AList.insert, List.kinsert]

theorem cleanNames_setFields : ∀ {fields : List (Bytes × Bytes)} {h : RedisHash}, CleanNames h →
    (∀ f ∈ fields, (0 : UInt8) ∉ f.1) → CleanNames (setFields h fields)
  | [], _, hclean, _ => hclean
  | f :: fields, h, hclean, hfields => by
    have hinsert : CleanNames (h.insert f.1 f.2) := by
      intro name hname
      rcases (AList.mem_insert h).1 hname with rfl | hname
      · exact hfields f (by simp)
      · exact hclean name hname
    have hrest := cleanNames_setFields hinsert fun g hg => hfields g (List.mem_cons_of_mem f hg)
    exact hrest

namespace RedisDb

/-- No hash has a name with a NUL byte. -/
def Clean (db : RedisDb) : Prop :=
  ∀ key h, db.hashAt key = some h → CleanNames h

variable {server : RedisServer} {db db' : RedisDb} {choice : List ((_ : Bytes) × Bytes)}
  {deviceId key : Bytes} {state : HotState} {h : RedisHash} {reply : RedisReply}

theorem hashAt_update (db : RedisDb) (key : Bytes) (h : RedisHash) :
    hashAt (Function.update db key (some (.hash h))) = Function.update db.hashAt key (some h) := by
  funext k
  rcases eq_or_ne k key with rfl | hk
  · simp [hashAt]
  · simp [hashAt, hk]

/-- What the command of a `Get` does. -/
theorem execute_getCommand (hclean : db.Clean)
    (h : server.execute db choice (getCommand deviceId) = some (reply, db')) :
    db' = db ∧ getResult (some reply) = db.hotStates (redisKey deviceId) := by
  obtain ⟨rfl, ⟨hash, fields, hhash, hfields, rfl⟩ | ⟨hnone, rfl⟩⟩ := server.hgetall h
  · exact ⟨rfl, getResult_flat hhash (hclean _ _ hhash) hfields⟩
  · exact ⟨rfl, by simp [getResult, hotStates, hnone]⟩

/-- After an `Update` its state is the one under the key, and the others are as they were. -/
theorem hotStates_setFields (db : RedisDb) (h : RedisHash) (key : Bytes) (state : HotState) :
    hotStates (Function.update db key
        (some (.hash (setFields h (stateFields state.toDeviceHotState))))) =
      Function.update db.hotStates key (some state.toDeviceHotState) := by
  funext k
  rcases eq_or_ne k key with rfl | hk
  · simp [hotStates, hashAt_update, entries_setFields_ne_nil, stateOf_setFields]
  · simp [hotStates, hashAt_update, hk]

theorem clean_setFields (hclean : db.Clean) (hkey : db.hashAt key = some h) (state : HotState) :
    Clean (Function.update db key
      (some (.hash (setFields h (stateFields state.toDeviceHotState))))) := by
  have hnames : ∀ f ∈ stateFields state.toDeviceHotState, (0 : UInt8) ∉ f.1 := by
    simp only [stateFields, List.forall_mem_cons, List.not_mem_nil, false_implies, implies_true,
      and_true]
    decide
  intro k hash hhash
  rw [hashAt_update] at hhash
  rcases eq_or_ne k key with rfl | hk
  · rw [Function.update_self] at hhash
    cases hhash
    exact cleanNames_setFields (hclean _ _ hkey) hnames
  · rw [Function.update_of_ne hk] at hhash
    exact hclean k hash hhash

end RedisDb

/-! ## The threads -/

/-- The methods that use the connection. -/
inductive RedisMethod
  | update
  | get
  deriving DecidableEq, Repr

/-- The other method. -/
def RedisMethod.other : RedisMethod → RedisMethod
  | .update => .get
  | .get => .update

/-- A call of a method. -/
inductive RedisCall
  | update (deviceId : Bytes) (state : HotState)
  | get (deviceId : Bytes)
  deriving DecidableEq, Repr

/-- What a call returns. -/
inductive RedisResult
  | updated (ok : Bool)
  | got (state : Option DeviceHotState)
  deriving DecidableEq, Repr

namespace RedisCall

/-- The method called. -/
def method : RedisCall → RedisMethod
  | .update _ _ => .update
  | .get _ => .get

/-- The device asked for. -/
def deviceId : RedisCall → Bytes
  | .update deviceId _ => deviceId
  | .get deviceId => deviceId

/-- The command sent. -/
def command : RedisCall → RedisCommand
  | .update deviceId state => updateCommand deviceId state.toDeviceHotState
  | .get deviceId => getCommand deviceId

/-- The reply as the call reads it. -/
def interpret (reply : Option RedisReply) : RedisCall → RedisResult
  | .update _ _ => .updated (updateResult reply)
  | .get _ => .got (getResult reply)

end RedisCall

/-- Where a thread is : outside, with the mutex of the method, or in `redisCommand` with the
command of this number sent. -/
inductive RedisPc
  | idle
  | locked (call : RedisCall)
  | sent (call : RedisCall) (number : ℕ)
  deriving DecidableEq, Repr

/-- A call takes its mutex, or it returns. -/
inductive RedisEvent
  | began (thread : ℕ) (call : RedisCall)
  | returned (thread : ℕ) (call : RedisCall) (result : RedisResult)
  deriving DecidableEq, Repr

/-- The call of an event. -/
def RedisEvent.call : RedisEvent → RedisCall
  | .began _ call => call
  | .returned _ call _ => call

/-- The threads, the mutexes of the methods, the connection with the commands that are not executed
and the replies that are not read, the server, and what happened. -/
structure RedisClients where
  db : RedisDb
  requests : List (ℕ × RedisCommand) := []
  unread : List (ℕ × RedisReply) := []
  sent : ℕ := 0
  mu : RedisMethod → Bool := fun _ => false
  threads : ℕ → RedisPc := fun _ => .idle
  reads : List (ℕ × ℕ) := []
  history : List RedisEvent := []

/-- A call gets its mutex, sends its command, the server executes the next command, and a call
takes the next reply. -/
inductive RedisAct
  | call (w : ℕ) (call : RedisCall)
  | send (w : ℕ)
  | serve (choice : List ((_ : Bytes) × Bytes))
  | read (w : ℕ)
  deriving DecidableEq

namespace RedisClients

/-- One step. A reply is remembered with the number of its command, and so is who takes it. -/
def step (server : RedisServer) (s : RedisClients) : RedisAct → Option RedisClients
  | .call w call =>
    if s.threads w = .idle ∧ s.mu call.method = false then
      some { s with
        threads := Function.update s.threads w (.locked call)
        mu := fun m => if m = call.method then true else s.mu m
        history := s.history ++ [.began w call] }
    else none
  | .send w =>
    match s.threads w with
    | .locked call =>
      some { s with
        threads := Function.update s.threads w (.sent call s.sent)
        requests := s.requests ++ [(s.sent, call.command)]
        sent := s.sent + 1 }
    | _ => none
  | .serve choice =>
    match s.requests with
    | (n, command) :: rest =>
      (server.execute s.db choice command).map fun r =>
        { s with db := r.2, requests := rest, unread := s.unread ++ [(n, r.1)] }
    | [] => none
  | .read w =>
    match s.threads w, s.unread with
    | .sent call n, (m, reply) :: rest =>
      some { s with
        threads := Function.update s.threads w .idle
        mu := fun m => if m = call.method then false else s.mu m
        unread := rest
        reads := s.reads ++ [(n, m)]
        history := s.history ++ [.returned w call (call.interpret (some reply))] }
    | _, _ => none

/-- No call has begun. -/
def start (db : RedisDb) : RedisClients :=
  { db := db }

/-- Every call that took a reply took the one to its own command. -/
def OwnReplies (s : RedisClients) : Prop :=
  ∀ r ∈ s.reads, r.1 = r.2

/-- A `Get` that begins after an `Update` of the device returned `true`, and before any other
`Update` of it, returns the state of this `Update`. -/
def ReadsBack (s : RedisClients) : Prop :=
  ∀ (pre mid post : List RedisEvent) w v deviceId state result,
    s.history = pre ++ RedisEvent.returned w (.update deviceId state) (.updated true) :: mid ++
      RedisEvent.returned v (.get deviceId) (.got result) :: post →
    RedisEvent.began v (.get deviceId) ∈ mid →
    (∀ e ∈ mid, e.call.method = .update → e.call.deviceId ≠ deviceId) →
    result = some state.toDeviceHotState

/-- A call begins only while no call of the other method has its mutex, and only devices without a
NUL byte in their id are written. -/
def Excluding (s : RedisClients) : RedisAct → Prop
  | .call _ call =>
    s.mu call.method.other = false ∧ (call.method = .update → (0 : UInt8) ∉ call.deviceId)
  | _ => True

instance decidableExcluding (s : RedisClients) : ∀ a, Decidable (s.Excluding a)
  | .call _ _ => inferInstanceAs (Decidable (_ ∧ (_ → _)))
  | .send _ => .isTrue trivial
  | .serve _ => .isTrue trivial
  | .read _ => .isTrue trivial

/-! ## What was written last -/

/-- The state of the last `Update` of the device, if it returned `true` and none began since. -/
def settle (deviceId : Bytes) (last : Option DeviceHotState) : RedisEvent → Option DeviceHotState
  | .returned _ (.update d state) (.updated true) =>
    if d = deviceId then some state.toDeviceHotState else last
  | e => if e.call.method = .update ∧ e.call.deviceId = deviceId then none else last

/-- `settle` along the history. -/
def lastWritten (deviceId : Bytes) (history : List RedisEvent) : Option DeviceHotState :=
  history.foldl (settle deviceId) none

theorem settle_of_other {deviceId : Bytes} {e : RedisEvent} (last : Option DeviceHotState)
    (h : e.call.method = .update → e.call.deviceId ≠ deviceId) : settle deviceId last e = last := by
  unfold settle
  split
  · exact if_neg (h rfl)
  · exact if_neg fun hd => h hd.1 hd.2

theorem lastWritten_snoc (deviceId : Bytes) (history : List RedisEvent) (e : RedisEvent) :
    lastWritten deviceId (history ++ [e]) = settle deviceId (lastWritten deviceId history) e := by
  simp [lastWritten]

/-- Other calls do not matter. -/
theorem lastWritten_append_of_other {deviceId : Bytes} (history : List RedisEvent) :
    ∀ {mid : List RedisEvent}, (∀ e ∈ mid, e.call.method = .update → e.call.deviceId ≠ deviceId) →
      lastWritten deviceId (history ++ mid) = lastWritten deviceId history
  | [], _ => by rw [List.append_nil]
  | e :: mid, h => by
    have hrest := lastWritten_append_of_other (history ++ [e]) fun f hf =>
      h f (List.mem_cons_of_mem e hf)
    rw [List.append_assoc, List.singleton_append] at hrest
    rw [hrest, lastWritten_snoc, settle_of_other _ (h e List.mem_cons_self)]

theorem settle_returned (deviceId : Bytes) (last : Option DeviceHotState) (w : ℕ) (state : HotState)
    (ok : Bool) : settle deviceId last (.returned w (.update deviceId state) (.updated ok)) =
      if ok then some state.toDeviceHotState else none := by
  cases ok <;> simp [settle, RedisEvent.call, RedisCall.method, RedisCall.deviceId]

theorem settle_began (last : Option DeviceHotState) {call : RedisCall} (w : ℕ)
    (h : call.method = .update) : settle call.deviceId last (.began w call) = none := by
  simp [settle, RedisEvent.call, h]

/-- What holds of a `Get` that returns, after what happened before. -/
def FaithfulAfter (pre : List RedisEvent) : RedisEvent → Prop
  | .returned _ (.get deviceId) (.got result) =>
    ∀ state, lastWritten deviceId pre = some state → result = some state
  | _ => True

/-! ## The invariant -/

theorem redisKey_injOn {d d' : Bytes} (h : (0 : UInt8) ∉ d) (h' : (0 : UInt8) ∉ d')
    (heq : redisKey d = redisKey d') : d = d' := by
  have hkey : ∀ {d : Bytes}, (0 : UInt8) ∉ d → redisKey d = ascii "device:" ++ d := by
    intro d hd
    have hdevice : (0 : UInt8) ∉ ascii "device:" := by decide
    refine List.takeWhile_eq_self_iff.2 fun b hb => decide_eq_true ?_
    rintro rfl
    exact (List.mem_append.1 hb).elim hdevice hd
  rw [hkey h, hkey h'] at heq
  exact List.append_cancel_left heq

/-- An `Update` that has not returned hides what was written before. -/
def Pending (s : RedisClients) (call : RedisCall) : Prop :=
  call.method = .update →
    (0 : UInt8) ∉ call.deviceId ∧ lastWritten call.deviceId s.history = none

/-- The reply tells what the server holds. -/
def Answered (db : RedisDb) (reply : RedisReply) : RedisCall → Prop
  | .update deviceId state =>
    updateResult (some reply) = true → db.hotStates (redisKey deviceId) = state.toDeviceHotState
  | .get deviceId => getResult (some reply) = db.hotStates (redisKey deviceId)

/-- At most one thread has a call, and at most its command or the reply to it is on the
connection. -/
inductive Phase (s : RedisClients) : Prop
  | quiet (threads : s.threads = fun _ => .idle) (requests : s.requests = [])
    (unread : s.unread = [])
  | locked (w : ℕ) (call : RedisCall)
    (threads : s.threads = Function.update (fun _ => .idle) w (.locked call))
    (mu : s.mu call.method = true) (pending : s.Pending call) (requests : s.requests = [])
    (unread : s.unread = [])
  | asked (w : ℕ) (call : RedisCall) (n : ℕ)
    (threads : s.threads = Function.update (fun _ => .idle) w (.sent call n))
    (mu : s.mu call.method = true) (pending : s.Pending call)
    (requests : s.requests = [(n, call.command)]) (unread : s.unread = [])
  | answered (w : ℕ) (call : RedisCall) (n : ℕ) (reply : RedisReply)
    (threads : s.threads = Function.update (fun _ => .idle) w (.sent call n))
    (mu : s.mu call.method = true) (pending : s.Pending call) (answered : Answered s.db reply call)
    (requests : s.requests = []) (unread : s.unread = [(n, reply)])

/-- What holds as long as the calls exclude each other. -/
structure Inv (s : RedisClients) : Prop where
  phase : s.Phase
  clean : s.db.Clean
  written : ∀ deviceId state, lastWritten deviceId s.history = some state →
    (0 : UInt8) ∉ deviceId ∧ s.db.hotStates (redisKey deviceId) = some state
  reads : s.OwnReplies
  faithful : Historic FaithfulAfter s.history

variable {server : RedisServer} {s t : RedisClients}

theorem update_idle_eq {w v : ℕ} {pc pc' : RedisPc}
    (h : Function.update (fun _ => RedisPc.idle) w pc v = pc') (hpc : pc' ≠ .idle) :
    v = w ∧ pc = pc' := by
  rcases eq_or_ne v w with rfl | hv
  · exact ⟨rfl, by simpa using h⟩
  · rw [Function.update_of_ne hv] at h
    exact absurd h.symm hpc

/-- The call finds no other one. -/
theorem Inv.call {w : ℕ} {call : RedisCall} (hi : s.Inv) (hok : s.Excluding (.call w call))
    (h : s.step server (.call w call) = some t) : t.Inv := by
  simp only [step] at h
  split_ifs at h with hfree
  cases h
  obtain ⟨-, hmu⟩ := hfree
  obtain ⟨hother, hnul⟩ := hok
  have hmus : ∀ m, s.mu m = false := by
    intro m
    rcases hm : call.method <;> rw [hm] at hmu hother <;> cases m <;> assumption
  obtain ⟨threads, requests, unread⟩ :
      s.threads = (fun _ => .idle) ∧ s.requests = [] ∧ s.unread = [] := by
    rcases hi.phase with ⟨h1, h2, h3⟩ | ⟨_, c, _, h, _⟩ | ⟨_, c, _, _, h, _⟩ | ⟨_, c, _, _, _, h, _⟩
    · exact ⟨h1, h2, h3⟩
    all_goals exact absurd ((hmus c.method).symm.trans h) (by decide)
  have hlast : ∀ d, lastWritten d (s.history ++ [.began w call]) = none ∨
      lastWritten d (s.history ++ [.began w call]) = lastWritten d s.history := by
    intro d
    rw [lastWritten_snoc]
    by_cases hd : call.method = .update ∧ call.deviceId = d
    · exact .inl (hd.2 ▸ settle_began _ w hd.1)
    · exact .inr (settle_of_other _ fun hm hd' => hd ⟨hm, hd'⟩)
  refine ⟨.locked w call ?_ ?_ ?_ requests unread, hi.clean, ?_, hi.reads,
    hi.faithful.snoc trivial⟩
  · rw [threads]
  · exact if_pos rfl
  · intro hm
    exact ⟨hnul hm, (lastWritten_snoc ..).trans (settle_began _ w hm)⟩
  · intro d state hd
    rcases hlast d with hnone | hsame
    · exact absurd (hnone.symm.trans hd) (by simp)
    · exact hi.written d state (hsame ▸ hd)

theorem Inv.send {w : ℕ} (hi : s.Inv) (h : s.step server (.send w) = some t) : t.Inv := by
  simp only [step] at h
  split at h
  · next call hpc =>
    cases h
    refine ⟨?_, hi.clean, hi.written, hi.reads, hi.faithful⟩
    rcases hi.phase with ⟨h1, _, _⟩ | ⟨v, c, h1, hmu, hp, h2, h3⟩ | ⟨v, c, n, h1, _⟩ |
      ⟨v, c, n, r, h1, _⟩ <;> rw [h1] at hpc
    · exact absurd hpc (by simp)
    · obtain ⟨rfl, heq⟩ := update_idle_eq hpc (by simp)
      cases heq
      exact .asked w call s.sent (by rw [h1, Function.update_idem]) hmu hp (by rw [h2]; rfl) h3
    all_goals exact absurd (update_idle_eq hpc (by simp)).2 (by simp)
  · cases h

/-- The command of the call in progress is executed. -/
theorem Inv.executed {call : RedisCall} {choice : List ((_ : Bytes) × Bytes)}
    {reply : RedisReply} {db : RedisDb} (hi : s.Inv) (hp : s.Pending call)
    (h : server.execute s.db choice call.command = some (reply, db)) :
    db.Clean ∧ Answered db reply call ∧
      ∀ deviceId state, lastWritten deviceId s.history = some state →
        (0 : UInt8) ∉ deviceId ∧ db.hotStates (redisKey deviceId) = some state := by
  cases call with
  | update d st =>
    obtain ⟨hnul, hnone⟩ := hp rfl
    rcases server.hset h with ⟨rfl, rfl⟩ | ⟨hash, n, hhash, rfl, rfl⟩
    · exact ⟨hi.clean, fun hok => absurd hok (by decide), hi.written⟩
    · refine ⟨RedisDb.clean_setFields hi.clean hhash st, fun _ => ?_, fun d' state hd' => ?_⟩
      · rw [RedisDb.hotStates_setFields, Function.update_self]
      · obtain ⟨hnul', hstate⟩ := hi.written d' state hd'
        have hkey : redisKey d' ≠ redisKey d := fun heq => by
          rw [redisKey_injOn hnul' hnul heq] at hd'
          exact absurd (hnone.symm.trans hd') (by simp)
        rw [RedisDb.hotStates_setFields, Function.update_of_ne hkey]
        exact ⟨hnul', hstate⟩
  | get d =>
    obtain ⟨rfl, hget⟩ := RedisDb.execute_getCommand hi.clean h
    exact ⟨hi.clean, hget, hi.written⟩

theorem Inv.serve {choice : List ((_ : Bytes) × Bytes)} (hi : s.Inv)
    (h : s.step server (.serve choice) = some t) : t.Inv := by
  simp only [step] at h
  split at h
  · next n command rest hreq =>
    obtain ⟨⟨reply, db⟩, hexec, rfl⟩ := Option.map_eq_some_iff.1 h
    rcases hi.phase with ⟨_, h2, _⟩ | ⟨_, _, _, _, _, h2, _⟩ | ⟨v, call, m, h1, hmu, hp, h2, h3⟩ |
      ⟨_, _, _, _, _, _, _, _, h2, _⟩ <;> rw [hreq] at h2 <;> cases h2
    obtain ⟨hclean, hanswered, hwritten⟩ := hi.executed hp hexec
    exact ⟨.answered v call n reply h1 hmu hp hanswered rfl (by rw [h3]; rfl), hclean, hwritten,
      hi.reads, hi.faithful⟩
  · cases h

/-- What is written last after a call returned that read the reply to its command. -/
theorem Inv.written_returned {w : ℕ} {call : RedisCall} {reply : RedisReply} (hi : s.Inv)
    (hp : s.Pending call) (hanswered : Answered s.db reply call) {deviceId : Bytes}
    {state : DeviceHotState} (h : lastWritten deviceId
      (s.history ++ [.returned w call (call.interpret (some reply))]) = some state) :
    (0 : UInt8) ∉ deviceId ∧ s.db.hotStates (redisKey deviceId) = some state := by
  rw [lastWritten_snoc] at h
  by_cases hd : call.method = .update ∧ call.deviceId = deviceId
  · cases call with
    | update d st =>
      obtain ⟨-, rfl⟩ := hd
      simp only [RedisCall.interpret, RedisCall.deviceId, settle_returned] at h
      split_ifs at h with hok
      cases h
      exact ⟨(hp rfl).1, hanswered hok⟩
    | get d => exact absurd hd.1 (by simp [RedisCall.method])
  · have hother : call.method = .update → call.deviceId ≠ deviceId := fun hm hd' => hd ⟨hm, hd'⟩
    rw [settle_of_other (e := .returned w call _) _ hother] at h
    exact hi.written deviceId state h

theorem Inv.read {w : ℕ} (hi : s.Inv) (h : s.step server (.read w) = some t) : t.Inv := by
  simp only [step] at h
  split at h
  · next call n m reply rest hpc hunread =>
    cases h
    rcases hi.phase with ⟨_, _, h3⟩ | ⟨_, _, _, _, _, _, h3⟩ | ⟨_, _, _, _, _, _, _, h3⟩ |
      ⟨v, c, k, r, h1, hmu, hp, hanswered, h2, h3⟩ <;> rw [hunread] at h3 <;> cases h3
    rw [h1] at hpc
    obtain ⟨rfl, heq⟩ := update_idle_eq hpc (by simp)
    cases heq
    have hfaithful : FaithfulAfter s.history (.returned w call (call.interpret (some reply))) := by
      cases call with
      | update d st => trivial
      | get d =>
        intro state hstate
        exact hanswered.trans (hi.written d state hstate).2
    refine ⟨.quiet ?_ h2 rfl, hi.clean, fun _ _ => hi.written_returned hp hanswered,
      List.forall_mem_append.2 ⟨hi.reads, List.forall_mem_singleton.2 rfl⟩,
      hi.faithful.snoc hfaithful⟩
    rw [h1, Function.update_idem, Function.update_eq_self_iff]
  · cases h

theorem inv_step {a : RedisAct} (hi : s.Inv) (hok : s.Excluding a) (h : s.step server a = some t) :
    t.Inv := by
  cases a with
  | call w call => exact hi.call hok h
  | send w => exact hi.send h
  | serve choice => exact hi.serve h
  | read w => exact hi.read h

theorem inv_start {db : RedisDb} (hdb : db.Clean) : (start db).Inv where
  phase := .quiet rfl rfl rfl
  clean := hdb
  written := fun _ _ h => absurd h (by simp [start, lastWritten])
  reads := fun _ h => absurd h (by simp [start])
  faithful := historic_nil _

theorem Inv.readsBack (hi : s.Inv) : s.ReadsBack := by
  intro pre mid post w v deviceId state result heq _ hmid
  have hlast : lastWritten deviceId
      (pre ++ .returned w (.update deviceId state) (.updated true) :: mid) =
        some state.toDeviceHotState := by
    rw [← List.singleton_append, ← List.append_assoc, lastWritten_append_of_other _ hmid,
      lastWritten_snoc, settle_returned, if_pos rfl]
  exact hi.faithful _ _ post heq _ hlast

/-- As long as the calls of the two methods exclude each other and the devices that are written
have no NUL byte in their ids, every call reads the reply to its own command, and a `Get` returns
what the last `Update` stored. -/
theorem replies_match (server : RedisServer) {db : RedisDb} {acts : List RedisAct}
    (hdb : db.Clean) (hok : Guarded (step server) Excluding (start db) acts)
    (h : exec (step server) (start db) acts = some s) : s.OwnReplies ∧ s.ReadsBack := by
  have hi : s.Inv := exec_invariant_guarded (fun _ _ _ hi hok h => inv_step hi hok h)
    (inv_start hdb) hok h
  exact ⟨hi.reads, hi.readsBack⟩

/-- A server that replies to every command. -/
def plainExecute (db : RedisDb) (choice : List ((_ : Bytes) × Bytes)) :
    RedisCommand → Option (RedisReply × RedisDb)
  | .hset key fields =>
    match db.hashAt key with
    | some h => some (.integer (fields.countP fun f => f.1 ∉ h),
        Function.update db key (some (.hash (setFields h fields))))
    | none => some (.error, db)
  | .hgetall key =>
    match db.hashAt key with
    | some h => if choice.Perm h.entries then some (.array (flat choice), db) else none
    | none => some (.error, db)

theorem plainExecute_hset {db db' : RedisDb} {choice : List ((_ : Bytes) × Bytes)} {key : Bytes}
    {fields : List (Bytes × Bytes)} {reply : RedisReply}
    (h : plainExecute db choice (.hset key fields) = some (reply, db')) :
    (reply = .error ∧ db' = db) ∨ ∃ h n, db.hashAt key = some h ∧ reply = .integer n ∧
      db' = Function.update db key (some (.hash (setFields h fields))) := by
  simp only [plainExecute] at h
  split at h
  · next hash hhash =>
    cases h
    exact .inr ⟨hash, _, hhash, rfl, rfl⟩
  · cases h
    exact .inl ⟨rfl, rfl⟩

theorem plainExecute_hgetall {db db' : RedisDb} {choice : List ((_ : Bytes) × Bytes)} {key : Bytes}
    {reply : RedisReply} (h : plainExecute db choice (.hgetall key) = some (reply, db')) :
    db' = db ∧ ((∃ h fields, db.hashAt key = some h ∧ fields.Perm h.entries ∧
      reply = .array (flat fields)) ∨ db.hashAt key = none ∧ reply = .error) := by
  simp only [plainExecute] at h
  split at h
  · next hash hhash =>
    split_ifs at h with hchoice
    cases h
    exact ⟨rfl, .inl ⟨hash, choice, hhash, hchoice, rfl⟩⟩
  · next hhash =>
    cases h
    exact ⟨rfl, .inr ⟨hhash, rfl⟩⟩

/-- That server. -/
def plainServer : RedisServer :=
  ⟨plainExecute, plainExecute_hset, plainExecute_hgetall⟩

/-- A state for `Update`. -/
def seenOnce : HotState :=
  ⟨⟨1789160000000000000, 3, 42⟩, by decide⟩

/-- The device `cam-1` is updated. -/
def updateCam1 : List RedisAct :=
  [.call 0 (.update (ascii "cam-1") seenOnce), .send 0, .serve [], .read 0]

/-- Then it is read. -/
def updateThenGet : List RedisAct :=
  updateCam1 ++ [.call 1 (.get (ascii "cam-1")), .send 1,
    .serve [⟨ascii "last_seen_unix_ns", ascii "1789160000000000000"⟩,
      ⟨ascii "queue_depth", ascii "3"⟩, ⟨ascii "frames_dropped", ascii "42"⟩], .read 1]

theorem clean_empty : RedisDb.Clean fun _ => none := by
  intro key h hh name hname
  cases hh
  exact absurd hname (AList.notMem_empty name)

theorem replies_match_updateThenGet :
    ∃ s, exec (step plainServer) (start fun _ => none) updateThenGet = some s ∧
      s.history.getLast? = some (.returned 1 (.get (ascii "cam-1"))
        (.got (some seenOnce.toDeviceHotState))) ∧ s.OwnReplies ∧ s.ReadsBack := by
  obtain ⟨s, h, hlast⟩ : ∃ s, exec (step plainServer) (start fun _ => none) updateThenGet = some s ∧
      s.history.getLast? = some (.returned 1 (.get (ascii "cam-1"))
        (.got (some seenOnce.toDeviceHotState))) :=
    exists_exec_of_any (by decide +kernel)
  exact ⟨s, h, hlast, replies_match plainServer clean_empty (by decide +kernel) h⟩

/-- The device `cam-1` is updated, and an `Update` of `cam-2` sends its command while a `Get` of
`cam-1` is before its own. -/
def overlappingCalls : List RedisAct :=
  updateCam1 ++ [.call 1 (.get (ascii "cam-1")), .call 0 (.update (ascii "cam-2") seenOnce),
    .send 0, .send 1, .serve [], .read 1]

/-- The `Get` takes the reply to the `Update` of the other device and returns nothing. -/
theorem reply_of_other_call :
    ∃ s, exec (step plainServer) (start fun _ => none) overlappingCalls = some s ∧
      (2, 1) ∈ s.reads ∧ ¬ s.OwnReplies ∧ ¬ s.ReadsBack := by
  obtain ⟨s, h, hread, hhistory⟩ :
      ∃ s, exec (step plainServer) (start fun _ => none) overlappingCalls = some s ∧
        (2, 1) ∈ s.reads ∧ s.history = [RedisEvent.began 0 (.update (ascii "cam-1") seenOnce)] ++
          RedisEvent.returned 0 (.update (ascii "cam-1") seenOnce) (.updated true) ::
            [RedisEvent.began 1 (.get (ascii "cam-1")),
              RedisEvent.began 0 (.update (ascii "cam-2") seenOnce)] ++
          RedisEvent.returned 1 (.get (ascii "cam-1")) (.got none) :: [] :=
    exists_exec_of_any (by decide +kernel)
  refine ⟨s, h, hread, fun hown => absurd (hown _ hread) (by decide), fun hback => ?_⟩
  have hmid : ∀ e ∈ [RedisEvent.began 1 (.get (ascii "cam-1")),
      .began 0 (.update (ascii "cam-2") seenOnce)],
      e.call.method = .update → e.call.deviceId ≠ ascii "cam-1" := by decide
  exact absurd (hback _ _ _ _ _ _ _ _ hhistory (by decide) hmid) (by decide)

-- Two ids with one key : the `Get` of the first returns what was stored for the second.
example : redisKey (ascii "cam-1") = redisKey (ascii "cam-1" ++ [0, 120]) := by decide

end RedisClients

end Ridgeline
