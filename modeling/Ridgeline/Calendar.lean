import Mathlib.Order.Lattice
import Ridgeline.Decimal

/-!
# Dates

`gmtime` for the proleptic Gregorian calendar. Years are counted from March, so that the leap day
is the last one : four hundred years, centuries, four years and years are then taken off in turn
(`marchYear`), and what is left is the day of the year (`dayOfYear`). The year and the day give
back the number of days (`days_eq`), hence the fields of the date the time (`gmtime_injective`).

`strftime` prints the fields one behind the other. With a year of four digits every field has a
fixed width, so the text gives back the fields (`strftime_injective`).
-/

namespace Ridgeline

/-- `struct tm`, without the fields that follow from these. -/
structure Tm where
  tmYear : ℤ
  tmMon : ℤ
  tmMday : ℤ
  tmHour : ℤ
  tmMin : ℤ
  tmSec : ℤ
  deriving DecidableEq, Repr

/-! ## Days -/

/-- The full centuries before the day in its four hundred years; the last one is longer. -/
def century (z : ℤ) : ℤ :=
  min (z % 146097 / 36524) 3

/-- The day in its century. -/
def dayOfCentury (z : ℤ) : ℤ :=
  z % 146097 - 36524 * century z

/-- The full years before the day in its four years; the last one is longer. -/
def yearOfFour (z : ℤ) : ℤ :=
  min (dayOfCentury z % 1461 / 365) 3

/-- The year of the day `z`, counted from the first of March of the year 0. -/
def marchYear (z : ℤ) : ℤ :=
  400 * (z / 146097) + 100 * century z + 4 * (dayOfCentury z / 1461) + yearOfFour z

/-- The day in its year. -/
def dayOfYear (z : ℤ) : ℤ :=
  dayOfCentury z % 1461 - 365 * yearOfFour z

theorem dayOfYear_range (z : ℤ) : 0 ≤ dayOfYear z ∧ dayOfYear z ≤ 365 := by
  simp only [dayOfYear, yearOfFour]
  omega

theorem dayOfCentury_range (z : ℤ) : 0 ≤ dayOfCentury z ∧ dayOfCentury z ≤ 36524 := by
  simp only [dayOfCentury, century]
  omega

theorem century_range (z : ℤ) : 0 ≤ century z ∧ century z ≤ 3 := by
  simp only [century]
  omega

theorem yearOfFour_range (z : ℤ) : 0 ≤ yearOfFour z ∧ yearOfFour z ≤ 3 := by
  simp only [yearOfFour]
  omega

/-- The year and the day of the year give back the day. -/
theorem days_eq (z : ℤ) : z = 365 * marchYear z + marchYear z / 4 - marchYear z / 100 +
    marchYear z / 400 + dayOfYear z := by
  have hc := century_range z
  have hd := dayOfCentury_range z
  have hy := yearOfFour_range z
  have hz : z = 146097 * (z / 146097) + 36524 * century z + dayOfCentury z := by
    simp only [dayOfCentury]
    omega
  have hyear : dayOfCentury z =
      1461 * (dayOfCentury z / 1461) + 365 * yearOfFour z + dayOfYear z := by
    simp only [dayOfYear]
    omega
  simp only [marchYear]
  generalize century z = c at *
  generalize dayOfCentury z = d at *
  generalize yearOfFour z = y at *
  generalize dayOfYear z = r at *
  generalize z / 146097 = e at *
  omega

/-! ## Dates and times -/

/-- The month of the day of the year, March being 0. -/
def marchMonth (doy : ℤ) : ℤ :=
  (5 * doy + 2) / 153

/-- `gmtime`. -/
def gmtime (t : ℤ) : Tm :=
  let z := t / 86400 + 719468
  let secs := t % 86400
  let mp := marchMonth (dayOfYear z)
  { tmYear := marchYear z + (if mp < 10 then 0 else 1) - 1900
    tmMon := if mp < 10 then mp + 2 else mp - 10
    tmMday := dayOfYear z - (153 * mp + 2) / 5 + 1
    tmHour := secs / 3600
    tmMin := secs % 3600 / 60
    tmSec := secs % 60 }

example : gmtime 951827696 = ⟨100, 1, 29, 12, 34, 56⟩ := by decide

example : gmtime (-1) = ⟨69, 11, 31, 23, 59, 59⟩ := by decide

theorem marchMonth_range (z : ℤ) :
    0 ≤ marchMonth (dayOfYear z) ∧ marchMonth (dayOfYear z) ≤ 11 := by
  have := dayOfYear_range z
  simp only [marchMonth]
  omega

/-- The fields of the date determine the time. -/
theorem gmtime_injective : Function.Injective gmtime := by
  intro t t' h
  simp only [gmtime, Tm.mk.injEq] at h
  obtain ⟨hyear, hmon, hmday, hhour, hmin, hsec⟩ := h
  have hm := marchMonth_range (t / 86400 + 719468)
  have hm' := marchMonth_range (t' / 86400 + 719468)
  have hz := days_eq (t / 86400 + 719468)
  have hz' := days_eq (t' / 86400 + 719468)
  generalize marchMonth (dayOfYear (t / 86400 + 719468)) = mp at *
  generalize marchMonth (dayOfYear (t' / 86400 + 719468)) = mp' at *
  have hmp : mp = mp' := by
    split_ifs at hmon <;> omega
  subst hmp
  have hY : marchYear (t / 86400 + 719468) = marchYear (t' / 86400 + 719468) := by omega
  rw [hY] at hz
  omega

/-- The fields of a date have at most two digits, but for the year. -/
theorem gmtime_range (t : ℤ) : 0 ≤ (gmtime t).tmMon + 1 ∧ (gmtime t).tmMon + 1 < 100 ∧
    0 ≤ (gmtime t).tmMday ∧ (gmtime t).tmMday < 100 ∧ 0 ≤ (gmtime t).tmHour ∧
    (gmtime t).tmHour < 100 ∧ 0 ≤ (gmtime t).tmMin ∧ (gmtime t).tmMin < 100 ∧
    0 ≤ (gmtime t).tmSec ∧ (gmtime t).tmSec < 100 := by
  have hm := marchMonth_range (t / 86400 + 719468)
  have hd := dayOfYear_range (t / 86400 + 719468)
  simp only [gmtime]
  refine ⟨?_, ?_, ?_, ?_, by omega, by omega, by omega, by omega, by omega, by omega⟩
  · split_ifs <;> omega
  · split_ifs <;> omega
  · simp only [marchMonth]
    omega
  · simp only [marchMonth]
    omega

/-! ## Printing -/

/-- A number with at least two digits. -/
def twoDigits (n : ℤ) : Bytes :=
  if 0 ≤ n ∧ n < 10 then 48 :: decimalInt n else decimalInt n

/-- The field that a letter of the format stands for. -/
def conversion (tm : Tm) (letter : UInt8) : Bytes :=
  match letter with
  | 89 => decimalInt (tm.tmYear + 1900)
  | 109 => twoDigits (tm.tmMon + 1)
  | 100 => twoDigits tm.tmMday
  | 72 => twoDigits tm.tmHour
  | 77 => twoDigits tm.tmMin
  | 83 => twoDigits tm.tmSec
  | _ => []

/-- `strftime`, for the letters `Y`, `m`, `d`, `H`, `M` and `S`. -/
def strftime : Bytes → Tm → Bytes
  | 37 :: letter :: format, tm => conversion tm letter ++ strftime format tm
  | b :: format, tm => b :: strftime format tm
  | [], _ => []

example : strftime (ascii "%Y%m%dT%H%M%SZ") (gmtime 951827696) = ascii "20000229T123456Z" := by
  decide

theorem stoll_twoDigits {n : ℤ} (hlo : 0 ≤ n) (hhi : n < 100) : stoll (twoDigits n) = some n := by
  have h : ∀ k : Fin 100, stoll (twoDigits (k.val : ℤ)) = some (k.val : ℤ) := by decide +kernel
  have := h ⟨n.toNat, by omega⟩
  simpa only [Int.toNat_of_nonneg hlo] using this

theorem length_twoDigits {n : ℤ} (hlo : 0 ≤ n) (hhi : n < 100) : (twoDigits n).length = 2 := by
  have h : ∀ k : Fin 100, (twoDigits (k.val : ℤ)).length = 2 := by decide +kernel
  have := h ⟨n.toNat, by omega⟩
  simpa only [Int.toNat_of_nonneg hlo] using this

theorem length_decimal_year {n : ℕ} (hlo : 1000 ≤ n) (hhi : n < 10000) :
    (decimal n).length = 4 := by
  have hn : n ≠ 0 := by omega
  have hlog : Nat.log 10 n = 3 := (Nat.log_eq_iff (by omega)).2 ⟨by omega, by omega⟩
  rw [decimal, if_neg hn, List.length_reverse, List.length_map,
    Nat.length_digits 10 n (by omega) hn, hlog]

theorem length_decimalInt_year {z : ℤ} (hlo : 1000 ≤ z) (hhi : z ≤ 9999) :
    (decimalInt z).length = 4 := by
  obtain ⟨n, rfl⟩ := Int.eq_ofNat_of_zero_le (by omega : 0 ≤ z)
  exact length_decimal_year (by omega) (by omega)

/-- Fields of the same width are read off one after the other. -/
theorem twoDigits_append_inj {m n : ℤ} {a b : Bytes} (hm : 0 ≤ m) (hm' : m < 100) (hn : 0 ≤ n)
    (hn' : n < 100) (h : twoDigits m ++ a = twoDigits n ++ b) : m = n ∧ a = b := by
  have hlength : (twoDigits m).length = (twoDigits n).length := by
    rw [length_twoDigits hm hm', length_twoDigits hn hn']
  obtain ⟨hfield, hrest⟩ := List.append_inj h hlength
  have hstoll := stoll_twoDigits hm hm'
  rw [hfield, stoll_twoDigits hn hn'] at hstoll
  exact ⟨(Option.some.inj hstoll).symm, hrest⟩

/-- The year of the time is between `lo` and `hi`. -/
def InYears (lo hi t : ℤ) : Prop :=
  lo ≤ (gmtime t).tmYear + 1900 ∧ (gmtime t).tmYear + 1900 ≤ hi

instance decidableInYears (lo hi t : ℤ) : Decidable (InYears lo hi t) :=
  inferInstanceAs (Decidable (_ ∧ _))

/-- A date and time of a year with four digits are printed in one way only. -/
theorem strftime_injective {t t' : ℤ} (ht : InYears 1000 9999 t) (ht' : InYears 1000 9999 t')
    (h : strftime (ascii "%Y%m%dT%H%M%SZ") (gmtime t) =
      strftime (ascii "%Y%m%dT%H%M%SZ") (gmtime t')) : t = t' := by
  refine gmtime_injective ?_
  obtain ⟨y0, y1⟩ := ht
  obtain ⟨y0', y1'⟩ := ht'
  obtain ⟨m0, m1, d0, d1, h0, h1, i0, i1, s0, s1⟩ := gmtime_range t
  obtain ⟨m0', m1', d0', d1', h0', h1', i0', i1', s0', s1'⟩ := gmtime_range t'
  generalize gmtime t = a at *
  generalize gmtime t' = b at *
  change decimalInt (a.tmYear + 1900) ++ (twoDigits (a.tmMon + 1) ++ (twoDigits a.tmMday ++
      84 :: (twoDigits a.tmHour ++ (twoDigits a.tmMin ++ (twoDigits a.tmSec ++ [90]))))) =
    decimalInt (b.tmYear + 1900) ++ (twoDigits (b.tmMon + 1) ++ (twoDigits b.tmMday ++
      84 :: (twoDigits b.tmHour ++ (twoDigits b.tmMin ++ (twoDigits b.tmSec ++ [90]))))) at h
  obtain ⟨hyear, h⟩ := List.append_inj h
    (by rw [length_decimalInt_year y0 y1, length_decimalInt_year y0' y1'])
  obtain ⟨hmon, h⟩ := twoDigits_append_inj m0 m1 m0' m1' h
  obtain ⟨hmday, h⟩ := twoDigits_append_inj d0 d1 d0' d1' h
  obtain ⟨hhour, h⟩ := twoDigits_append_inj h0 h1 h0' h1' (List.cons.inj h).2
  obtain ⟨hmin, h⟩ := twoDigits_append_inj i0 i1 i0' i1' h
  obtain ⟨hsec, -⟩ := twoDigits_append_inj s0 s1 s0' s1' h
  have hyear := decimalInt_injective hyear
  cases a
  cases b
  simp only at hyear hmon
  simp only [Tm.mk.injEq]
  exact ⟨by omega, by omega, hmday, hhour, hmin, hsec⟩

/-- The printed date and time have digits and letters only, and a minus before the year at most. -/
theorem mem_strftime {t : ℤ} {b : UInt8}
    (h : b ∈ strftime (ascii "%Y%m%dT%H%M%SZ") (gmtime t)) :
    b = 45 ∨ b = 84 ∨ b = 90 ∨ IsDigit b := by
  have hint : ∀ {z : ℤ}, b ∈ decimalInt z → b = 45 ∨ b = 84 ∨ b = 90 ∨ IsDigit b := fun h =>
    (mem_decimalInt h).imp_right fun h => .inr (.inr h)
  have htwo : ∀ {z : ℤ}, b ∈ twoDigits z → b = 45 ∨ b = 84 ∨ b = 90 ∨ IsDigit b := by
    intro z h
    unfold twoDigits at h
    split_ifs at h
    · rcases List.mem_cons.1 h with rfl | h
      · exact .inr (.inr (.inr (by decide)))
      · exact hint h
    · exact hint h
  generalize gmtime t = a at *
  change b ∈ decimalInt (a.tmYear + 1900) ++ (twoDigits (a.tmMon + 1) ++ (twoDigits a.tmMday ++
      84 :: (twoDigits a.tmHour ++ (twoDigits a.tmMin ++ (twoDigits a.tmSec ++ [90]))))) at h
  simp only [List.mem_append, List.mem_cons, List.not_mem_nil, or_false] at h
  rcases h with h | h | h | h | h | h | h | h
  · exact hint h
  · exact htwo h
  · exact htwo h
  · exact .inr (.inl h)
  · exact htwo h
  · exact htwo h
  · exact htwo h
  · exact .inr (.inr (.inl h))

end Ridgeline
