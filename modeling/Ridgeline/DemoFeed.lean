import Mathlib.Data.List.Perm.Subperm
import Mathlib.Data.List.Sort
import Ridgeline.ShadowStore

/-!
# The live feed of the demo

`DynamoDemoWriter` : `PutEvent` writes an event as an item of the table, and `ListRecent` asks for a
`Scan` with a `Limit`, reads the items and sorts them. The table answers with any items, as many as
the limit allows, in any order (`IsScan`), and `std::sort` is any sort by the timestamps as they
were read (`TimeSort`). Timestamps are written as integers and read as doubles, which keep 53 bits
(`roundDouble`).

The limit is one of the scan, so a table with more events than the limit can be answered
without its newest ones (`limit_hides_newest`). Numbers are read as their texts say, so an event
comes with another timestamp if its own is not a double (`event_rounded`), and two events whose
timestamps are the same double can come in either order (`close_times_reversed`). These are the
only ways in which the feed is not that of the newest events, newest first (`feed_newest_iff`).
-/

namespace Ridgeline

/-! ## Numbers and their texts -/

/-- The double nearest to an integer : 53 bits are kept, and of two that are as near the even
one. -/
def roundDouble (z : ℤ) : ℤ :=
  let q := 2 ^ (z.natAbs.log2 - 52)
  let m := z.natAbs / q
  let r := z.natAbs % q
  z.sign * ((if 2 * r < q ∨ 2 * r = q ∧ m % 2 = 0 then m else m + 1) * q : ℕ)

/-- `float` and `double`, and what the library does with them : `std::to_string`, `std::stod`, which
may throw, and the casts. The text of an integer is read as the nearest double, and cast back to
that integer if it fits. -/
structure FloatText (F K : Type) where
  printFloat : F → Bytes
  printDouble : K → Bytes
  stod : Bytes → Option K
  zero : K
  toFloat : K → F
  toInt64 : K → Int64
  stod_decimalInt : ∀ z : Int64, ∃ d, stod (decimalInt z.toInt) = some d ∧
    (roundDouble z.toInt < 2 ^ 63 → toInt64 d = Int64.ofInt (roundDouble z.toInt))

/-- Doubles that are integers. -/
def FloatText.integers : FloatText ℤ ℤ where
  printFloat := decimalInt
  printDouble := decimalInt
  stod text := (stoll text).map roundDouble
  zero := 0
  toFloat d := d
  toInt64 := Int64.ofInt
  stod_decimalInt z :=
    ⟨roundDouble z.toInt, by
      rw [stoll_decimalInt (by simpa using z.le_toInt) (by simpa using z.toInt_lt)]
      exact ⟨rfl, fun _ => rfl⟩⟩

/-! ## The code -/

namespace Json

/-- `at`, which throws if the member is missing. -/
def at? : Json → Bytes → Option Json
  | object members, key => members.lookup key
  | _, _ => none

/-- `value` with `null` as default. -/
def valueJson : Json → Bytes → Option Json
  | object members, key => some ((members.lookup key).getD null)
  | _, _ => none

/-- `value` with a truth value as default. -/
def valueBool : Json → Bytes → Bool → Option Bool
  | object members, key, default =>
    match members.lookup key with
    | none => some default
    | some (bool b) => some b
    | some _ => none
  | _, _, _ => none

end Json

/-- `DemoEvent`. -/
structure DemoEvent (F K : Type) where
  eventId : Bytes
  timestampUnixNs : Int64
  confidence : F
  severity : Bytes
  temperatureC : K
  relativeHumidityPct : K
  windSpeedKmh : K
  weatherAvailable : Bool
  userTriggered : Bool
  deriving DecidableEq, Repr

variable {F K : Type} (E : FloatText F K)

/-- An attribute of an item. -/
def attrValue (type : String) (value : Json) : Json :=
  .object [(ascii type, value)]

/-- The item of `PutEvent`. -/
def eventItem (e : DemoEvent F K) : Json :=
  .object
    [(ascii "event_id", attrValue "S" (.string e.eventId)),
      (ascii "timestamp_unix_ns", attrValue "N" (.string (decimalInt e.timestampUnixNs.toInt))),
      (ascii "confidence", attrValue "N" (.string (E.printFloat e.confidence))),
      (ascii "severity", attrValue "S" (.string e.severity)),
      (ascii "temperature_c", attrValue "N" (.string (E.printDouble e.temperatureC))),
      (ascii "relative_humidity_pct",
        attrValue "N" (.string (E.printDouble e.relativeHumidityPct))),
      (ascii "wind_speed_kmh", attrValue "N" (.string (E.printDouble e.windSpeedKmh))),
      (ascii "weather_available", attrValue "BOOL" (.bool e.weatherAvailable)),
      (ascii "user_triggered", attrValue "BOOL" (.bool e.userTriggered))]

/-- The text of a number in `ParseN`, read with `std::stod`; zero for what throws. -/
def readN (text : Option Bytes) : K :=
  (text.bind E.stod).getD E.zero

/-- `ParseN`. -/
def parseN (item : Json) (key : Bytes) : K :=
  readN E do
    let attr ← item.at? key
    (← attr.at? (ascii "N")).getString

/-- A row of the answer. A row that throws is skipped. -/
def parseEvent (item : Json) : Option (DemoEvent F K) := do
  let eventId ← (← (← item.at? (ascii "event_id")).at? (ascii "S")).getString
  let severity ← (← (← item.at? (ascii "severity")).at? (ascii "S")).getString
  let weatherAvailable ←
    (← item.valueJson (ascii "weather_available")).valueBool (ascii "BOOL") false
  let userTriggered ← (← item.valueJson (ascii "user_triggered")).valueBool (ascii "BOOL") false
  return {
    eventId := eventId
    timestampUnixNs := E.toInt64 (parseN E item (ascii "timestamp_unix_ns"))
    confidence := E.toFloat (parseN E item (ascii "confidence"))
    severity := severity
    temperatureC := parseN E item (ascii "temperature_c")
    relativeHumidityPct := parseN E item (ascii "relative_humidity_pct")
    windSpeedKmh := parseN E item (ascii "wind_speed_kmh")
    weatherAvailable := weatherAvailable
    userTriggered := userTriggered }

/-- The first event is not older than the second. -/
def NotOlder (a b : DemoEvent F K) : Prop :=
  b.timestampUnixNs ≤ a.timestampUnixNs

instance decidableNotOlder : DecidableRel (NotOlder (F := F) (K := K)) :=
  fun a b => inferInstanceAs (Decidable (b.timestampUnixNs ≤ a.timestampUnixNs))

/-- `std::sort` by descending timestamp. -/
structure TimeSort (F K : Type) where
  sort : List (DemoEvent F K) → List (DemoEvent F K)
  perm : ∀ es, (sort es).Perm es
  sorted : ∀ es, (sort es).Pairwise NotOlder

/-- `ListRecent`, of the response to its request. -/
def listRecent (S : TimeSort F K) (resp : HttpResponse) : List (DemoEvent F K) :=
  if resp.statusCode ≠ 200 then []
  else
    match resp.body with
    | none => []
    | some body =>
      match body.at? (ascii "Items") with
      | some (.array items) => S.sort (items.filterMap (parseEvent E))
      | _ => []

/-! ## The table -/

/-- The events of the table, with the id as its key and timestamps that are all different. -/
structure DemoTable (F K : Type) where
  events : List (DemoEvent F K)
  ids : (events.map DemoEvent.eventId).Nodup
  times : (events.map DemoEvent.timestampUnixNs).Nodup

/-- The items that a `Scan` with the limit `n` may return. -/
def IsScan (T : DemoTable F K) (n : ℕ) (items : List (DemoEvent F K)) : Prop :=
  items.Subperm T.events ∧ items.length = min n T.events.length

/-- The response to a `Scan` that returns these items. -/
def scanResponse (items : List (DemoEvent F K)) : HttpResponse where
  statusCode := 200
  body := some (.object [(ascii "Items", .array (items.map (eventItem E)))])

/-- The events of the table, newest first. -/
def newestFirst (T : DemoTable F K) : List (DemoEvent F K) :=
  T.events.insertionSort NotOlder

/-- Whatever the scan returns, and however it is sorted, the feed shows the newest events, as many
as the limit allows, newest first. -/
def ShowsNewest (T : DemoTable F K) (n : ℕ) : Prop :=
  ∀ (S : TimeSort F K) (items : List (DemoEvent F K)), IsScan T n items →
    listRecent E S (scanResponse E items) = (newestFirst T).take n

/-- The same of the ids of the events only. -/
def ShowsNewestIds (T : DemoTable F K) (n : ℕ) : Prop :=
  ∀ (S : TimeSort F K) (items : List (DemoEvent F K)), IsScan T n items →
    (listRecent E S (scanResponse E items)).map DemoEvent.eventId =
      ((newestFirst T).take n).map DemoEvent.eventId

/-- The cast of a timestamp that was read, from the double back to an integer, is defined. -/
def DemoTable.Castable (T : DemoTable F K) : Prop :=
  ∀ e ∈ T.events, roundDouble e.timestampUnixNs.toInt < 2 ^ 63

/-- The timestamps of two events of the table are in the same order when they are rounded. -/
def KeepsOrder (T : DemoTable F K) : Prop :=
  ∀ a ∈ T.events, ∀ b ∈ T.events, a.timestampUnixNs < b.timestampUnixNs →
    roundDouble a.timestampUnixNs.toInt < roundDouble b.timestampUnixNs.toInt

/-- The timestamp is a double, and the other numbers are read from their texts as they were. -/
def SurvivesText (e : DemoEvent F K) : Prop :=
  roundDouble e.timestampUnixNs.toInt = e.timestampUnixNs.toInt ∧
    E.toFloat (readN E (some (E.printFloat e.confidence))) = e.confidence ∧
    readN E (some (E.printDouble e.temperatureC)) = e.temperatureC ∧
    readN E (some (E.printDouble e.relativeHumidityPct)) = e.relativeHumidityPct ∧
    readN E (some (E.printDouble e.windSpeedKmh)) = e.windSpeedKmh

instance decidableCastable (T : DemoTable F K) : Decidable T.Castable :=
  inferInstanceAs (Decidable (∀ e ∈ T.events, _))

instance decidableKeepsOrder (T : DemoTable F K) : Decidable (KeepsOrder T) :=
  inferInstanceAs (Decidable (∀ a ∈ T.events, ∀ b ∈ T.events, _ → _))

instance decidableSurvivesText [DecidableEq F] [DecidableEq K] (e : DemoEvent F K) :
    Decidable (SurvivesText E e) :=
  inferInstanceAs (Decidable (_ ∧ _ ∧ _ ∧ _ ∧ _))

/-! ## Rounding -/

/-- Rounding a number to a multiple of `q` does not lead beyond another multiple. -/
theorem roundMultiple_le {m q k : ℕ} (hq : 0 < q) (h : m ≤ q * k) :
    (if 2 * (m % q) < q ∨ 2 * (m % q) = q ∧ m / q % 2 = 0 then m / q else m / q + 1) * q ≤
      q * k := by
  split_ifs with hdown
  · exact (Nat.div_mul_le_self _ _).trans h
  · -- a multiple of `q` is not rounded up, so there is one above
    have hlt : m < q * k := by
      refine lt_of_le_of_ne h fun heq => hdown (.inl ?_)
      rw [heq, Nat.mul_mod_right]
      exact hq
    rw [Nat.mul_comm q k]
    exact Nat.mul_le_mul_right q (Nat.div_lt_of_lt_mul hlt)

theorem neg_le_sign_mul (z : ℤ) {m b : ℕ} (h : m ≤ b) : -(b : ℤ) ≤ z.sign * m := by
  rcases Int.lt_trichotomy z 0 with hneg | rfl | hpos
  · rw [Int.sign_eq_neg_one_of_neg hneg]
    omega
  · simp
  · rw [Int.sign_eq_one_of_pos hpos]
    omega

/-- Rounding does not leave the range, but for its upper end. -/
theorem neg_le_roundDouble {z : ℤ} (hlo : -2 ^ 63 ≤ z) (hhi : z < 2 ^ 63) :
    -2 ^ 63 ≤ roundDouble z := by
  have habs : z.natAbs ≤ 2 ^ 63 := by omega
  -- the end of the range is a multiple of the distance of the doubles
  have hq : 2 ^ (z.natAbs.log2 - 52) ∣ 2 ^ 63 := by
    refine Nat.pow_dvd_pow 2 ?_
    rcases Nat.eq_zero_or_pos z.natAbs with hzero | hpos
    · simp [hzero]
    · have hlog := (Nat.pow_le_pow_iff_right (le_refl 2)).1
        ((Nat.log2_self_le hpos.ne').trans habs)
      omega
  obtain ⟨k, hk⟩ := hq
  have hle := roundMultiple_le (Nat.two_pow_pos _) (hk ▸ habs)
  rw [← hk] at hle
  exact_mod_cast neg_le_sign_mul z hle

/-- The timestamp that is read for one that was written. -/
def readBack (t : Int64) : Int64 :=
  E.toInt64 (readN E (some (decimalInt t.toInt)))

/-! ## What is read of a scan -/

/-- The event that is read for one that was written. -/
def readEvent (e : DemoEvent F K) : DemoEvent F K :=
  { e with
    timestampUnixNs := readBack E e.timestampUnixNs
    confidence := E.toFloat (readN E (some (E.printFloat e.confidence)))
    temperatureC := readN E (some (E.printDouble e.temperatureC))
    relativeHumidityPct := readN E (some (E.printDouble e.relativeHumidityPct))
    windSpeedKmh := readN E (some (E.printDouble e.windSpeedKmh)) }

theorem readBack_eq {t : Int64} (h : roundDouble t.toInt < 2 ^ 63) :
    readBack E t = Int64.ofInt (roundDouble t.toInt) := by
  obtain ⟨d, hd, hcast⟩ := E.stod_decimalInt t
  rw [readBack, readN, Option.bind_some, hd]
  exact hcast h

theorem toInt_readBack {t : Int64} (h : roundDouble t.toInt < 2 ^ 63) :
    (readBack E t).toInt = roundDouble t.toInt := by
  have hlo : -2 ^ 63 ≤ roundDouble t.toInt :=
    neg_le_roundDouble (by simpa using t.le_toInt) (by simpa using t.toInt_lt)
  rw [readBack_eq E h]
  exact Int64.toInt_ofInt_of_le hlo h

theorem readBack_lt_iff {t u : Int64} (ht : roundDouble t.toInt < 2 ^ 63)
    (hu : roundDouble u.toInt < 2 ^ 63) :
    readBack E t < readBack E u ↔ roundDouble t.toInt < roundDouble u.toInt := by
  rw [Int64.lt_iff_toInt_lt, toInt_readBack E ht, toInt_readBack E hu]

theorem readBack_eq_self_iff {t : Int64} (h : roundDouble t.toInt < 2 ^ 63) :
    readBack E t = t ↔ roundDouble t.toInt = t.toInt := by
  rw [← Int64.toInt_inj, toInt_readBack E h]

/-- What survives its text is read as it was. -/
theorem readEvent_eq_self_iff {e : DemoEvent F K}
    (h : roundDouble e.timestampUnixNs.toInt < 2 ^ 63) :
    readEvent E e = e ↔ SurvivesText E e := by
  rw [SurvivesText, ← readBack_eq_self_iff E h]
  cases e
  simp [readEvent]

theorem parseEvent_eventItem (e : DemoEvent F K) :
    parseEvent E (eventItem E e) = some (readEvent E e) :=
  rfl

theorem filterMap_parseEvent (items : List (DemoEvent F K)) :
    (items.map (eventItem E)).filterMap (parseEvent E) = items.map (readEvent E) := by
  rw [List.filterMap_map, ← List.filterMap_eq_map]
  exact List.filterMap_congr fun e _ => parseEvent_eventItem E e

theorem listRecent_scanResponse (S : TimeSort F K) (items : List (DemoEvent F K)) :
    listRecent E S (scanResponse E items) = S.sort (items.map (readEvent E)) := by
  rw [← filterMap_parseEvent]
  rfl

/-! ## Sorted lists of events -/

instance totalNotOlder : Std.Total (NotOlder (F := F) (K := K)) :=
  ⟨fun a b => Int64.le_total b.timestampUnixNs a.timestampUnixNs⟩

instance transNotOlder : IsTrans (DemoEvent F K) NotOlder :=
  ⟨fun _ _ _ hab hbc => Int64.le_trans hbc hab⟩

/-- A sort that keeps the order of events with the same timestamp. -/
def TimeSort.stable : TimeSort F K where
  sort es := es.insertionSort NotOlder
  perm es := List.perm_insertionSort NotOlder es
  sorted es := List.pairwise_insertionSort NotOlder es

variable {E} (T : DemoTable F K)

theorem newestFirst_perm : (newestFirst T).Perm T.events :=
  List.perm_insertionSort NotOlder T.events

theorem newestFirst_sorted : (newestFirst T).Pairwise NotOlder :=
  List.pairwise_insertionSort NotOlder T.events

variable {T} {n : ℕ}

theorem DemoTable.eq_of_eventId {a b : DemoEvent F K} (ha : a ∈ T.events) (hb : b ∈ T.events)
    (h : a.eventId = b.eventId) : a = b :=
  List.inj_on_of_nodup_map T.ids ha hb h

theorem DemoTable.eq_of_timestamp {a b : DemoEvent F K} (ha : a ∈ T.events) (hb : b ∈ T.events)
    (h : a.timestampUnixNs = b.timestampUnixNs) : a = b :=
  List.inj_on_of_nodup_map T.times ha hb h

theorem KeepsOrder.eq_of_readBack (h : KeepsOrder T) (hcast : T.Castable) {a b : DemoEvent F K}
    (ha : a ∈ T.events) (hb : b ∈ T.events)
    (heq : readBack E a.timestampUnixNs = readBack E b.timestampUnixNs) : a = b := by
  have hround : roundDouble a.timestampUnixNs.toInt = roundDouble b.timestampUnixNs.toInt := by
    rw [← toInt_readBack E (hcast a ha), heq, toInt_readBack E (hcast b hb)]
  refine DemoTable.eq_of_timestamp ha hb ?_
  rcases lt_trichotomy a.timestampUnixNs.toInt b.timestampUnixNs.toInt with hlt | heq' | hlt
  · exact absurd (h a ha b hb (Int64.lt_iff_toInt_lt.2 hlt)) (by omega)
  · exact Int64.toInt_inj.1 heq'
  · exact absurd (h b hb a ha (Int64.lt_iff_toInt_lt.2 hlt)) (by omega)

/-- If the limit does not cut the table and the order is kept, every sort gives the events as they
are read, newest first. -/
theorem listRecent_eq (hlen : T.events.length ≤ n) (hcast : T.Castable) (horder : KeepsOrder T)
    (S : TimeSort F K) {items : List (DemoEvent F K)} (hscan : IsScan T n items) :
    listRecent E S (scanResponse E items) = ((newestFirst T).take n).map (readEvent E) := by
  obtain ⟨hsub, hitems⟩ := hscan
  have hperm : items.Perm T.events := hsub.perm_of_length_le (by omega)
  have hnewest : ((newestFirst T).map (readEvent E)).Pairwise NotOlder := by
    refine List.pairwise_map.2 ((newestFirst_sorted T).imp_of_mem fun {a b} ha hb hab => ?_)
    have ha := (newestFirst_perm T).mem_iff.1 ha
    have hb := (newestFirst_perm T).mem_iff.1 hb
    rcases Int64.lt_or_eq_of_le hab with hlt | heq
    · exact Int64.le_of_lt ((readBack_lt_iff E (hcast b hb) (hcast a ha)).2 (horder b hb a ha hlt))
    · rw [DemoTable.eq_of_timestamp hb ha heq]
      exact Int64.le_refl _
  have hout : S.sort (items.map (readEvent E)) = (newestFirst T).map (readEvent E) := by
    refine List.Perm.eq_of_pairwise (fun a b ha hb hab hba => ?_) (S.sorted _) hnewest ?_
    · obtain ⟨e, he, rfl⟩ := List.mem_map.1 ((S.perm _).mem_iff.1 ha)
      obtain ⟨f, hf, rfl⟩ := List.mem_map.1 hb
      rw [horder.eq_of_readBack hcast (hperm.mem_iff.1 he) ((newestFirst_perm T).mem_iff.1 hf)
        (Int64.le_antisymm hba hab)]
    · exact (S.perm _).trans ((hperm.trans (newestFirst_perm T).symm).map _)
  have htake : (newestFirst T).take n = newestFirst T :=
    List.take_of_length_le ((newestFirst_perm T).length_eq ▸ hlen)
  rw [listRecent_scanResponse, hout, htake]

/-- A scan of the oldest events, if the limit cuts the table. -/
theorem length_le_of_showsNewestIds (hn : 1 ≤ n) (h : ShowsNewestIds E T n) :
    T.events.length ≤ n := by
  by_contra hlen
  have hperm := newestFirst_perm T
  obtain ⟨x, xs, hcons⟩ := List.exists_cons_of_length_pos (l := newestFirst T)
    (by rw [hperm.length_eq]; omega)
  have hxs : n ≤ xs.length := by
    have := hperm.length_eq
    rw [hcons, List.length_cons] at this
    omega
  have hscan : IsScan T n (xs.take n) := by
    refine ⟨?_, by rw [List.length_take]; omega⟩
    exact ((List.take_sublist n xs).trans (List.sublist_cons_self x xs)).subperm.trans
      (hcons ▸ hperm.subperm)
  have hfeed := h TimeSort.stable (xs.take n) hscan
  rw [listRecent_scanResponse, hcons] at hfeed
  -- the feed begins with the newest event, which is not among the rows
  have hmem : x.eventId ∈ xs.map DemoEvent.eventId := by
    obtain ⟨n, rfl⟩ := Nat.exists_eq_add_of_le' hn
    rw [List.take_succ_cons, List.map_cons] at hfeed
    have hx : x.eventId ∈ (TimeSort.stable.sort ((xs.take (n + 1)).map (readEvent E))).map
        DemoEvent.eventId := hfeed ▸ List.mem_cons_self
    obtain ⟨e, he, heq⟩ := List.mem_map.1 hx
    obtain ⟨f, hf, rfl⟩ := List.mem_map.1 ((TimeSort.stable.perm _).mem_iff.1 he)
    exact List.mem_map.2 ⟨f, List.mem_of_mem_take hf, heq⟩
  have hnodup : ((newestFirst T).map DemoEvent.eventId).Nodup :=
    (hperm.map _).nodup_iff.2 T.ids
  rw [hcons, List.map_cons] at hnodup
  exact (List.nodup_cons.1 hnodup).1 hmem

/-- A scan that returns an older event before a newer one whose timestamp is not read as larger. -/
theorem exists_perm_cons_cons {α : Type*} {l : List α} {a b : α} (ha : a ∈ l) (hb : b ∈ l)
    (hne : b ≠ a) : ∃ rest, l.Perm (a :: b :: rest) := by
  obtain ⟨s, t, rfl⟩ := List.append_of_mem ha
  have hb' : b ∈ s ++ t :=
    (List.mem_cons.1 (List.perm_middle.mem_iff.1 hb)).resolve_left hne
  obtain ⟨s', t', hsplit⟩ := List.append_of_mem hb'
  have hrest : (s ++ t).Perm (b :: (s' ++ t')) := hsplit ▸ List.perm_middle
  exact ⟨s' ++ t', List.perm_middle.trans (hrest.cons a)⟩

/-- Of two events in the list that is wanted, the first is not older. -/
theorem timestamp_le_of_sublist {a b : DemoEvent F K} (ha : a ∈ T.events) (hb : b ∈ T.events)
    (h : [a.eventId, b.eventId].Sublist ((newestFirst T).map DemoEvent.eventId)) :
    b.timestampUnixNs ≤ a.timestampUnixNs := by
  obtain ⟨l, hl, heq⟩ := List.sublist_map_iff.1 h
  have hmem : ∀ e ∈ l, e ∈ T.events := fun e he =>
    (newestFirst_perm T).mem_iff.1 (hl.subset he)
  obtain ⟨c, d, rfl⟩ : ∃ c d, l = [c, d] := List.length_eq_two.1 (by
    have := congrArg List.length heq
    simpa using this.symm)
  simp only [List.map_cons, List.map_nil, List.cons.injEq, and_true] at heq
  obtain rfl := DemoTable.eq_of_eventId ha (hmem c (by simp)) heq.1
  obtain rfl := DemoTable.eq_of_eventId hb (hmem d (by simp)) heq.2
  have hsorted := (newestFirst_sorted T).sublist hl
  simp only [List.pairwise_cons, List.mem_singleton, forall_eq] at hsorted
  exact hsorted.1

theorem keepsOrder_of_showsNewestIds (hlen : T.events.length ≤ n) (hcast : T.Castable)
    (h : ShowsNewestIds E T n) : KeepsOrder T := by
  intro a ha b hb hab
  rw [← readBack_lt_iff E (hcast a ha) (hcast b hb)]
  by_contra hread
  have hne : b ≠ a := fun heq => Int64.lt_irrefl (heq ▸ hab)
  obtain ⟨rest, hperm⟩ := exists_perm_cons_cons ha hb hne
  have hscan : IsScan T n (a :: b :: rest) :=
    ⟨hperm.symm.subperm, by rw [← hperm.length_eq]; omega⟩
  have hfeed := h TimeSort.stable _ hscan
  rw [listRecent_scanResponse, List.take_of_length_le
    ((newestFirst_perm T).length_eq ▸ hlen)] at hfeed
  -- the sort keeps the older one before the newer one
  have hkept : [readEvent E a, readEvent E b].Sublist
      (TimeSort.stable.sort ((a :: b :: rest).map (readEvent E))) := by
    refine List.sublist_insertionSort ?_ ?_
    · simpa [NotOlder, readEvent] using Int64.not_lt.1 hread
    · simp
  have hids : [a.eventId, b.eventId].Sublist ((newestFirst T).map DemoEvent.eventId) :=
    hfeed ▸ hkept.map DemoEvent.eventId
  exact Int64.not_le.2 hab (timestamp_le_of_sublist ha hb hids)

theorem showsNewestIds_iff (hn : 1 ≤ n) (hcast : T.Castable) :
    ShowsNewestIds E T n ↔ T.events.length ≤ n ∧ KeepsOrder T := by
  constructor
  · intro h
    have hlen := length_le_of_showsNewestIds hn h
    exact ⟨hlen, keepsOrder_of_showsNewestIds hlen hcast h⟩
  · rintro ⟨hlen, horder⟩ S items hscan
    rw [listRecent_eq hlen hcast horder S hscan, List.map_map]
    rfl

/-- The feed of a table within the limit has every event of the table, as it is read. -/
theorem readEvent_eq_of_showsNewest (hlen : T.events.length ≤ n) (h : ShowsNewest E T n)
    {e : DemoEvent F K} (he : e ∈ T.events) : readEvent E e = e := by
  have hscan : IsScan T n T.events := ⟨List.Subperm.refl _, by omega⟩
  have hfeed := h TimeSort.stable T.events hscan
  rw [listRecent_scanResponse, List.take_of_length_le
    ((newestFirst_perm T).length_eq ▸ hlen)] at hfeed
  have hmem : readEvent E e ∈ newestFirst T :=
    hfeed ▸ (TimeSort.stable.perm _).mem_iff.2 (List.mem_map_of_mem he)
  exact DemoTable.eq_of_eventId ((newestFirst_perm T).mem_iff.1 hmem) he rfl

/-- The feed shows the newest events, newest first, exactly if the table has no more events than
the limit and every number of its events survives its text. As to which events these are and in
which order they come, it is enough that the timestamps are in the same order when they are
rounded, and no less will do. -/
theorem feed_newest_iff (E : FloatText F K) (T : DemoTable F K) {n : ℕ} (hn : 1 ≤ n)
    (hcast : T.Castable) :
    (ShowsNewest E T n ↔ T.events.length ≤ n ∧ ∀ e ∈ T.events, SurvivesText E e) ∧
      (ShowsNewestIds E T n ↔ T.events.length ≤ n ∧ KeepsOrder T) := by
  refine ⟨⟨fun h => ?_, ?_⟩, showsNewestIds_iff hn hcast⟩
  · have hids : ShowsNewestIds E T n := fun S items hscan => by rw [h S items hscan]
    have hlen := length_le_of_showsNewestIds hn hids
    exact ⟨hlen, fun e he =>
      (readEvent_eq_self_iff E (hcast e he)).1 (readEvent_eq_of_showsNewest hlen h he)⟩
  · rintro ⟨hlen, hsurvives⟩ S items hscan
    have horder : KeepsOrder T := fun a ha b hb hab => by
      rw [(hsurvives a ha).1, (hsurvives b hb).1]
      exact Int64.lt_iff_toInt_lt.1 hab
    rw [listRecent_eq hlen hcast horder S hscan]
    refine List.map_congr_left (g := id) (fun e he => ?_) |>.trans (List.map_id _)
    have he := (newestFirst_perm T).mem_iff.1 (List.mem_of_mem_take he)
    exact (readEvent_eq_self_iff E (hcast e he)).2 (hsurvives e he)

/-- An event with nothing but its id and its time. -/
def eventAt (id : String) (t : Int64) : DemoEvent ℤ ℤ :=
  ⟨ascii id, t, 0, ascii "none", 0, 0, 0, false, false⟩

/-- A table with two events. -/
def twoEvents (t t' : Int64) (h : t ≠ t') : DemoTable ℤ ℤ where
  events := [eventAt "a" t, eventAt "b" t']
  ids := by
    have hids : ascii "a" ≠ ascii "b" := by decide
    simpa [eventAt] using hids
  times := by simpa [eventAt] using h

/-- Two events within the limit, at times that are doubles. -/
theorem feed_newest_iff_twoEvents :
    ShowsNewest .integers (twoEvents 1700000000000000000 1700000001000000000 (by decide)) 20 :=
  (feed_newest_iff .integers _ (by decide) (by decide)).1.2 (by decide)

/-- With a limit of one, the scan may return the older of two events, and the feed then shows it. -/
theorem limit_hides_newest :
    IsScan (twoEvents 1 2 (by decide)) 1 [eventAt "a" 1] ∧
    listRecent .integers .stable (scanResponse .integers [eventAt "a" 1]) = [eventAt "a" 1] ∧
    (newestFirst (twoEvents 1 2 (by decide))).take 1 = [eventAt "b" 2] ∧
    ¬ ShowsNewest .integers (twoEvents 1 2 (by decide)) 1 := by
  have hscan : IsScan (twoEvents 1 2 (by decide)) 1 [eventAt "a" 1] :=
    ⟨(List.singleton_sublist.2 List.mem_cons_self).subperm, rfl⟩
  refine ⟨hscan, by decide, by decide, fun h => ?_⟩
  exact absurd (h .stable _ hscan) (by decide)

/-- A table with one event. -/
def oneEvent (t : Int64) : DemoTable ℤ ℤ where
  events := [eventAt "a" t]
  ids := List.nodup_singleton _
  times := List.nodup_singleton _

/-- The only event of a table is shown a nanosecond before its time, which is not a double. -/
theorem event_rounded :
    listRecent .integers .stable (scanResponse .integers (oneEvent 1700000000000000001).events) =
      [eventAt "a" 1700000000000000000] ∧
    ¬ ShowsNewest .integers (oneEvent 1700000000000000001) 1 := by
  refine ⟨by decide, fun h => ?_⟩
  exact absurd (h .stable _ ⟨List.Subperm.refl _, rfl⟩) (by decide)

/-- Two events a nanosecond apart have timestamps that are the same double. The feed may show the
older one first. -/
theorem close_times_reversed :
    ¬ ShowsNewestIds .integers
      (twoEvents 1700000000000000000 1700000000000000001 (by decide)) 20 := by
  intro h
  have hscan : IsScan (twoEvents 1700000000000000000 1700000000000000001 (by decide)) 20
      [eventAt "a" 1700000000000000000, eventAt "b" 1700000000000000001] :=
    ⟨List.Subperm.refl _, rfl⟩
  exact absurd (h .stable _ hscan) (by decide)

end Ridgeline
