import Mathlib.Algebra.Order.Ring.Rat
import Mathlib.Order.Basic

/-!
# The severity of an alert

`ComputeAlertSeverity` : the confidence of a detection and the weather, if there is a reading, give
a severity. Numbers are compared only, so they come from any preorder, with NaN beside them
(`Floating`) : every comparison with NaN is false, in the inputs and in the thresholds alike.

A detection that passes the first cutoff has a tier of its own (`confidenceTier`), to which the
weather is a map (`weatherRule`) that never lowers and is itself monotone in the danger of the
reading. `severity_follows_danger` puts the two together, for thresholds in any order.
-/

namespace Ridgeline

/-! ## Numbers that may be NaN -/

/-- A floating-point number as comparisons see it. The two zeros may be two numbers of `K`, each
at most the other. -/
inductive Floating (K : Type*)
  | nan
  | num (x : K)
  deriving DecidableEq, Repr

namespace Floating

variable {K : Type*} [Preorder K]

instance instLE : LE (Floating K) where
  le
    | num x, num y => x ≤ y
    | _, _ => False

instance instLT : LT (Floating K) where
  lt
    | num x, num y => x < y
    | _, _ => False

instance instDecidableLE [DecidableLE K] : DecidableLE (Floating K)
  | num x, num y => inferInstanceAs (Decidable (x ≤ y))
  | num _, nan => .isFalse id
  | nan, _ => .isFalse id

instance instDecidableLT [DecidableLT K] : DecidableLT (Floating K)
  | num x, num y => inferInstanceAs (Decidable (x < y))
  | num _, nan => .isFalse id
  | nan, _ => .isFalse id

theorem trans_le {a b c : Floating K} (hab : a ≤ b) (hbc : b ≤ c) : a ≤ c := by
  match a, b, c, hab, hbc with
  | num _, num _, num _, hab, hbc => exact le_trans (α := K) hab hbc

theorem lt_of_le {a b c : Floating K} (hab : a ≤ b) (hbc : b < c) : a < c := by
  match a, b, c, hab, hbc with
  | num _, num _, num _, hab, hbc => exact lt_of_le_of_lt (α := K) hab hbc

end Floating

/-! ## The code -/

/-- `AlertSeverity`. -/
inductive AlertSeverity
  | none
  | low
  | medium
  | high
  | critical
  deriving DecidableEq, Repr

namespace AlertSeverity

/-- The value of the enumerator. -/
def level : AlertSeverity → ℕ
  | none => 0
  | low => 1
  | medium => 2
  | high => 3
  | critical => 4

instance instLE : LE AlertSeverity where
  le a b := a.level ≤ b.level

instance instDecidableLE : DecidableLE AlertSeverity :=
  fun a b => inferInstanceAs (Decidable (a.level ≤ b.level))

/-- `Escalate`. -/
def escalate : AlertSeverity → AlertSeverity
  | none => low
  | low => medium
  | medium => high
  | high => critical
  | critical => critical

end AlertSeverity

/-- `WeatherConditions`, the two readings that the severity depends on. -/
structure WeatherConditions (D : Type*) where
  relativeHumidityPct : Floating D
  windSpeedKmh : Floating D

/-- `FireWeatherThresholds` : cutoffs of `float` and weather limits of `double`. -/
structure FireWeatherThresholds (F D : Type*) where
  lowConfidenceCutoff : Floating F
  mediumConfidenceCutoff : Floating F
  highConfidenceCutoff : Floating F
  highWindKmh : Floating D
  lowHumidityPct : Floating D
  extremeWindKmh : Floating D

/-- The thresholds that are used if none are given. The cutoffs are the floats nearest to 0.30,
0.60 and 0.85. -/
def FireWeatherThresholds.defaults : FireWeatherThresholds ℚ ℚ where
  lowConfidenceCutoff := .num (10066330 / 2 ^ 25)
  mediumConfidenceCutoff := .num (10066330 / 2 ^ 24)
  highConfidenceCutoff := .num (14260634 / 2 ^ 24)
  highWindKmh := .num 40
  lowHumidityPct := .num 25
  extremeWindKmh := .num 65

section Severity

variable {F D : Type*} [Preorder F] [DecidableLE F] [DecidableLT F] [Preorder D] [DecidableLE D]

/-- `ComputeAlertSeverity`. -/
def computeAlertSeverity (confidence : Floating F) (weather : Option (WeatherConditions D))
    (thresholds : FireWeatherThresholds F D) : AlertSeverity :=
  if confidence < thresholds.lowConfidenceCutoff then .none
  else
    let severity : AlertSeverity :=
      if thresholds.highConfidenceCutoff ≤ confidence then .high
      else if thresholds.mediumConfidenceCutoff ≤ confidence then .medium
      else .low
    match weather with
    | none => severity
    | some weather =>
      if thresholds.extremeWindKmh ≤ weather.windSpeedKmh then .critical
      else if thresholds.highWindKmh ≤ weather.windSpeedKmh ∧
          weather.relativeHumidityPct ≤ thresholds.lowHumidityPct then severity.escalate
      else severity

end Severity

/-! ## The tier and the weather -/

namespace AlertSeverity

theorem level_le_critical (a : AlertSeverity) : a.level ≤ critical.level := by
  cases a <;> decide

theorem level_escalate_le (a : AlertSeverity) : a.escalate.level ≤ a.level + 1 := by
  cases a <;> decide

theorem level_le_escalate (a : AlertSeverity) : a.level ≤ a.escalate.level := by
  cases a <;> decide

theorem escalate_mono {a b : AlertSeverity} (h : a.level ≤ b.level) :
    a.escalate.level ≤ b.escalate.level := by
  revert h
  cases a <;> cases b <;> decide

end AlertSeverity

section Tier

variable {F D : Type*} [Preorder F] [DecidableLE F]

/-- The severity of a detection for its confidence alone. -/
def confidenceTier (t : FireWeatherThresholds F D) (confidence : Floating F) : AlertSeverity :=
  if t.highConfidenceCutoff ≤ confidence then .high
  else if t.mediumConfidenceCutoff ≤ confidence then .medium
  else .low

variable {t : FireWeatherThresholds F D}

theorem one_le_confidenceTier (c : Floating F) : 1 ≤ (confidenceTier t c).level := by
  unfold confidenceTier
  split_ifs <;> decide

theorem confidenceTier_mono {c d : Floating F} (h : c ≤ d) :
    (confidenceTier t c).level ≤ (confidenceTier t d).level := by
  unfold confidenceTier
  by_cases hhigh : t.highConfidenceCutoff ≤ c
  · rw [if_pos hhigh, if_pos (Floating.trans_le hhigh h)]
  · rw [if_neg hhigh]
    by_cases hmedium : t.mediumConfidenceCutoff ≤ c
    · rw [if_pos hmedium, if_pos (Floating.trans_le hmedium h)]
      split_ifs <;> decide
    · rw [if_neg hmedium]
      split_ifs <;> decide

end Tier

section Weather

variable {F D : Type*} [Preorder D] [DecidableLE D]

/-- What the weather makes of a severity. -/
def weatherRule (t : FireWeatherThresholds F D) (w : WeatherConditions D)
    (severity : AlertSeverity) : AlertSeverity :=
  if t.extremeWindKmh ≤ w.windSpeedKmh then .critical
  else if t.highWindKmh ≤ w.windSpeedKmh ∧ w.relativeHumidityPct ≤ t.lowHumidityPct then
    severity.escalate
  else severity

variable {t : FireWeatherThresholds F D}

theorem level_le_weatherRule (w : WeatherConditions D) (a : AlertSeverity) :
    a.level ≤ (weatherRule t w a).level := by
  unfold weatherRule
  split_ifs
  · exact a.level_le_critical
  · exact a.level_le_escalate
  · exact le_rfl

/-- Short of an extreme wind the weather adds at most one level. -/
theorem weatherRule_le {w : WeatherConditions D} (a : AlertSeverity)
    (h : ¬ t.extremeWindKmh ≤ w.windSpeedKmh) : (weatherRule t w a).level ≤ a.level + 1 := by
  rw [weatherRule, if_neg h]
  split_ifs
  · exact a.level_escalate_le
  · exact Nat.le_succ _

theorem weatherRule_mono (w : WeatherConditions D) {a b : AlertSeverity}
    (h : a.level ≤ b.level) : (weatherRule t w a).level ≤ (weatherRule t w b).level := by
  unfold weatherRule
  split_ifs
  · exact le_rfl
  · exact AlertSeverity.escalate_mono h
  · exact h

/-- A reading that meets every limit the other one meets is at least as dangerous. -/
theorem weatherRule_le_weatherRule {v w : WeatherConditions D} (a : AlertSeverity)
    (hextreme : t.extremeWindKmh ≤ v.windSpeedKmh → t.extremeWindKmh ≤ w.windSpeedKmh)
    (hhigh : t.highWindKmh ≤ v.windSpeedKmh → t.highWindKmh ≤ w.windSpeedKmh)
    (hdry : v.relativeHumidityPct ≤ t.lowHumidityPct → w.relativeHumidityPct ≤ t.lowHumidityPct) :
    (weatherRule t v a).level ≤ (weatherRule t w a).level := by
  by_cases hv : t.extremeWindKmh ≤ v.windSpeedKmh
  · rw [weatherRule, weatherRule, if_pos hv, if_pos (hextreme hv)]
  · by_cases hvd : t.highWindKmh ≤ v.windSpeedKmh ∧ v.relativeHumidityPct ≤ t.lowHumidityPct
    · rw [weatherRule, if_neg hv, if_pos hvd, weatherRule]
      split_ifs with hw hwd
      · exact AlertSeverity.level_le_critical _
      · exact le_rfl
      · exact absurd ⟨hhigh hvd.1, hdry hvd.2⟩ hwd
    · rw [weatherRule, if_neg hv, if_neg hvd]
      exact level_le_weatherRule w a

end Weather

/-! ## The severity -/

section Danger

variable {F D : Type*} [Preorder F] [DecidableLE F] [DecidableLT F] [Preorder D] [DecidableLE D]
variable {t : FireWeatherThresholds F D}

theorem computeAlertSeverity_eq_none {c : Floating F} {w : Option (WeatherConditions D)}
    (h : c < t.lowConfidenceCutoff) : computeAlertSeverity c w t = .none :=
  if_pos h

theorem computeAlertSeverity_nullopt {c : Floating F} (h : ¬ c < t.lowConfidenceCutoff) :
    computeAlertSeverity c none t = confidenceTier t c :=
  if_neg h

theorem computeAlertSeverity_some {c : Floating F} {w : WeatherConditions D}
    (h : ¬ c < t.lowConfidenceCutoff) :
    computeAlertSeverity c (some w) t = weatherRule t w (confidenceTier t c) :=
  if_neg h

theorem computeAlertSeverity_mono_confidence {c d : Floating F} (h : c ≤ d)
    (w : Option (WeatherConditions D)) :
    computeAlertSeverity c w t ≤ computeAlertSeverity d w t := by
  by_cases hc : c < t.lowConfidenceCutoff
  · rw [computeAlertSeverity_eq_none hc]
    exact Nat.zero_le _
  · have hd : ¬ d < t.lowConfidenceCutoff := fun hd => hc (Floating.lt_of_le h hd)
    cases w with
    | none =>
      rw [computeAlertSeverity_nullopt hc, computeAlertSeverity_nullopt hd]
      exact confidenceTier_mono h
    | some w =>
      rw [computeAlertSeverity_some hc, computeAlertSeverity_some hd]
      exact weatherRule_mono w (confidenceTier_mono h)

theorem computeAlertSeverity_mono_weather (c : Floating F) {v w : WeatherConditions D}
    (h : ∀ a, (weatherRule t v a).level ≤ (weatherRule t w a).level) :
    computeAlertSeverity c (some v) t ≤ computeAlertSeverity c (some w) t := by
  by_cases hc : c < t.lowConfidenceCutoff
  · rw [computeAlertSeverity_eq_none hc]
    exact Nat.zero_le _
  · rw [computeAlertSeverity_some hc, computeAlertSeverity_some hc]
    exact h _

theorem nullopt_le_computeAlertSeverity (c : Floating F) (w : WeatherConditions D) :
    computeAlertSeverity c none t ≤ computeAlertSeverity c (some w) t := by
  by_cases hc : c < t.lowConfidenceCutoff
  · rw [computeAlertSeverity_eq_none hc]
    exact Nat.zero_le _
  · rw [computeAlertSeverity_nullopt hc, computeAlertSeverity_some hc]
    exact level_le_weatherRule w _

theorem extreme_of_two_levels {c : Floating F} {w : WeatherConditions D}
    (h : (computeAlertSeverity c none t).level + 1 < (computeAlertSeverity c (some w) t).level) :
    t.extremeWindKmh ≤ w.windSpeedKmh := by
  by_contra hw
  by_cases hc : c < t.lowConfidenceCutoff
  · rw [computeAlertSeverity_eq_none hc, computeAlertSeverity_eq_none hc] at h
    omega
  · rw [computeAlertSeverity_nullopt hc, computeAlertSeverity_some hc] at h
    have := weatherRule_le (confidenceTier t c) hw
    omega

theorem computeAlertSeverity_eq_none_iff (c : Floating F) (w : Option (WeatherConditions D)) :
    computeAlertSeverity c w t = .none ↔ c < t.lowConfidenceCutoff := by
  refine ⟨fun h => ?_, computeAlertSeverity_eq_none⟩
  by_contra hc
  have hone : 1 ≤ (computeAlertSeverity c w t).level := by
    cases w with
    | none =>
      rw [computeAlertSeverity_nullopt hc]
      exact one_le_confidenceTier c
    | some w =>
      rw [computeAlertSeverity_some hc]
      exact (one_le_confidenceTier c).trans (level_le_weatherRule w _)
  rw [h] at hone
  exact absurd hone (by decide)

/-- For all thresholds, in any order and with NaN among them : the severity does not fall with the
confidence or the wind, and does not rise with the humidity; a reading never lowers it, and lifts it
by more than one level only in an extreme wind; and it is none exactly below the first cutoff. -/
theorem severity_follows_danger (t : FireWeatherThresholds F D) :
    (∀ (w : Option (WeatherConditions D)) (c d : Floating F), c ≤ d →
      computeAlertSeverity c w t ≤ computeAlertSeverity d w t) ∧
    (∀ (c : Floating F) (w : WeatherConditions D) (wind : Floating D), w.windSpeedKmh ≤ wind →
      computeAlertSeverity c (some w) t ≤
        computeAlertSeverity c (some { w with windSpeedKmh := wind }) t) ∧
    (∀ (c : Floating F) (w : WeatherConditions D) (humidity : Floating D),
      w.relativeHumidityPct ≤ humidity →
      computeAlertSeverity c (some { w with relativeHumidityPct := humidity }) t ≤
        computeAlertSeverity c (some w) t) ∧
    (∀ (c : Floating F) (w : WeatherConditions D),
      computeAlertSeverity c none t ≤ computeAlertSeverity c (some w) t ∧
      ((computeAlertSeverity c none t).level + 1 < (computeAlertSeverity c (some w) t).level →
        t.extremeWindKmh ≤ w.windSpeedKmh)) ∧
    ∀ (c : Floating F) (w : Option (WeatherConditions D)),
      computeAlertSeverity c w t = .none ↔ c < t.lowConfidenceCutoff := by
  refine ⟨fun w c d h => computeAlertSeverity_mono_confidence h w, fun c w wind h => ?_,
    fun c w humidity h => ?_,
    fun c w => ⟨nullopt_le_computeAlertSeverity c w, extreme_of_two_levels⟩,
    computeAlertSeverity_eq_none_iff⟩
  · exact computeAlertSeverity_mono_weather c fun a =>
      weatherRule_le_weatherRule a (fun hv => Floating.trans_le hv h)
        (fun hv => Floating.trans_le hv h) id
  · exact computeAlertSeverity_mono_weather c fun a =>
      weatherRule_le_weatherRule a id id (Floating.trans_le h)

end Danger

/-- With the default thresholds a faint detection in a storm is critical, and one that is as faint
on a calm day is low. -/
theorem severity_follows_danger_defaults :
    computeAlertSeverity (.num (1 / 2)) none FireWeatherThresholds.defaults ≤
        computeAlertSeverity (.num (9 / 10)) none FireWeatherThresholds.defaults ∧
      (computeAlertSeverity (.num (1 / 2)) none FireWeatherThresholds.defaults).level + 1 <
        (computeAlertSeverity (.num (1 / 2)) (some ⟨.num 80, .num 70⟩)
          FireWeatherThresholds.defaults).level ∧
      FireWeatherThresholds.defaults.extremeWindKmh ≤ .num 70 :=
  ⟨(severity_follows_danger .defaults).1 none _ _ (by decide +kernel), by decide +kernel,
    ((severity_follows_danger .defaults).2.2.2.1 (.num (1 / 2)) ⟨.num 80, .num 70⟩).2
      (by decide +kernel)⟩

end Ridgeline
