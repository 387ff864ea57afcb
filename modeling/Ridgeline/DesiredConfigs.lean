import Ridgeline.Ingest

/-!
# The desired configurations

`LoadDesiredConfigs` of the gateway : a file with one device in a line,
`device_id,version,confirm_k,confirm_n,confidence_threshold,target_fps`. A line is refused
only if it has fewer than six fields. A number is what `strtoull` makes of its text, and 32
bits of it are kept. Nothing relates the fields to each other, so a line can ask for any
update (`loadDesiredConfigs_configLine`).
-/

namespace Ridgeline

/-- `std::getline` : what is before the delimiter, and what is left to read. At the end of the
text it reads nothing. -/
def getline (delim : UInt8) : Bytes → Option (Bytes × Bytes)
  | [] => none
  | b :: bs =>
    some ((b :: bs).takeWhile (· != delim), ((b :: bs).dropWhile (· != delim)).drop 1)

/-- `c_str()`, as far as a reader of a C string gets. -/
def cStr (bs : Bytes) : Bytes :=
  bs.takeWhile (· != 0)

/-- The value of `strtoull` for the digits behind the sign. Without digits it is zero, and a
number that does not fit gives the largest one. -/
def unsignedValue (negative : Bool) (ds : Bytes) : UInt64 :=
  let n := (leadingNat ds).getD 0
  if 2 ^ 64 ≤ n then UInt64.ofNat (2 ^ 64 - 1)
  else if negative then 0 - UInt64.ofNat n
  else UInt64.ofNat n

/-- `strtoull` with base 10, and `strtoul`, which has 64 bits too. -/
def strtoull (text : Bytes) : UInt64 :=
  match (cStr text).dropWhile isSpace with
  | 45 :: ds => unsignedValue true ds
  | 43 :: ds => unsignedValue false ds
  | ds => unsignedValue false ds

/-- The number in a field of 32 bits. -/
def strtoul32 (text : Bytes) : UInt32 :=
  (strtoull text).toUInt32

variable (atof : Bytes → ℚ)

/-- One line of the file. A line that is too short is skipped. -/
def parseConfigLine (line : Bytes) : Option (Bytes × ConfigUpdate) := do
  let (deviceId, rest) ← getline 44 line
  let (version, rest) ← getline 44 rest
  let (k, rest) ← getline 44 rest
  let (n, rest) ← getline 44 rest
  let (conf, rest) ← getline 44 rest
  let (fps, _) ← getline 44 rest
  return (deviceId, ⟨strtoull version, atof conf, strtoul32 k, strtoul32 n, strtoul32 fps⟩)

/-- The body of the loop : empty lines and comments are skipped, and a later line replaces an
earlier one of the same device. -/
def loadConfigLine (out : Bytes → Option ConfigUpdate) (line : Bytes) :
    Bytes → Option ConfigUpdate :=
  if line.head? = none ∨ line.head? = some 35 then out
  else
    match parseConfigLine atof line with
    | some (deviceId, update) => Function.update out deviceId (some update)
    | none => out

/-- The loop over the lines, of which there are at most `fuel`. -/
def loadConfigLines : ℕ → Bytes → (Bytes → Option ConfigUpdate) → Bytes → Option ConfigUpdate
  | 0, _, out => out
  | fuel + 1, text, out =>
    match getline 10 text with
    | none => out
    | some (line, rest) => loadConfigLines fuel rest (loadConfigLine atof out line)

/-- `LoadDesiredConfigs`. A file that cannot be read is as one without lines. -/
def loadDesiredConfigs (file : Option Bytes) : Bytes → Option ConfigUpdate :=
  let text := file.getD []
  loadConfigLines atof text.length text fun _ => none

/-! ## A line for any update -/

/-- The line that asks for `u`, with the text `conf` for the threshold. -/
def configLine (deviceId : Bytes) (u : ConfigUpdate) (conf : Bytes) : Bytes :=
  deviceId ++ 44 :: (decimal u.version.toNat ++ 44 :: (decimal u.confirmK.toNat ++
    44 :: (decimal u.confirmN.toNat ++ 44 :: (conf ++ 44 :: decimal u.targetFps.toNat))))

/-- A field is read up to the delimiter behind it. -/
theorem getline_append {delim : UInt8} {field : Bytes} (h : delim ∉ field) (rest : Bytes) :
    getline delim (field ++ delim :: rest) = some (field, rest) := by
  have hne : ∀ b ∈ field, (b != delim) = true := fun b hb => by
    simpa using fun heq : b = delim => h (heq ▸ hb)
  obtain ⟨b, bs, hcons⟩ : ∃ b bs, field ++ delim :: rest = b :: bs :=
    List.exists_cons_of_ne_nil (by simp)
  rw [hcons, getline, ← hcons, List.takeWhile_append_of_pos hne, List.dropWhile_append_of_pos hne]
  simp

/-- The last field is read up to the end. -/
theorem getline_last {delim : UInt8} {field : Bytes} (h : delim ∉ field) (hnil : field ≠ []) :
    getline delim field = some (field, []) := by
  have hne : ∀ b ∈ field, (b != delim) = true := fun b hb => by
    simpa using fun heq : b = delim => h (heq ▸ hb)
  obtain ⟨b, bs, rfl⟩ := List.exists_cons_of_ne_nil hnil
  rw [getline, List.takeWhile_eq_self_iff.2 hne, List.dropWhile_eq_nil_iff.2 hne]
  rfl

theorem not_mem_decimal {b : UInt8} (h : ¬ IsDigit b) (n : ℕ) : b ∉ decimal n :=
  fun hb => h (isDigit_of_mem_decimal hb)

theorem not_mem_decimalInt {b : UInt8} (hb : ¬ IsDigit b) (h45 : b ≠ 45) (z : ℤ) :
    b ∉ decimalInt z :=
  fun h => (mem_decimalInt h).elim h45 hb

theorem cStr_eq_self {text : Bytes} (h : 0 ∉ text) : cStr text = text :=
  List.takeWhile_eq_self_iff.2 fun b hb => by simpa using fun h0 : b = 0 => h (h0 ▸ hb)

/-- `strtoull` reads back a number of 64 bits. -/
theorem strtoull_decimal (n : UInt64) : strtoull (decimal n.toNat) = n := by
  obtain ⟨b, bs, hcons, hb⟩ := decimal_eq_cons n.toNat
  have hzero : ∀ c ∈ decimal n.toNat, (c != 0) = true := fun c hc => by
    simpa using fun heq : c = 0 => not_mem_decimal (by decide) _ (heq ▸ hc)
  have hdrop : (decimal n.toNat).dropWhile isSpace = decimal n.toNat := by
    rw [hcons]
    exact List.dropWhile_cons_of_neg (by simp [hb.isSpace_eq_false])
  have hvalue : unsignedValue false (decimal n.toNat) = n := by
    simp only [unsignedValue, leadingNat_decimal, Option.getD_some]
    rw [if_neg (not_le.2 n.toNat_lt), if_neg (by simp), UInt64.ofNat_toNat]
  rw [strtoull, cStr, List.takeWhile_eq_self_iff.2 hzero, hdrop]
  split
  · next ds heq => exact absurd (heq ▸ List.mem_cons_self) (not_mem_decimal (by decide) _)
  · next ds heq => exact absurd (heq ▸ List.mem_cons_self) (not_mem_decimal (by decide) _)
  · exact hvalue

theorem strtoul32_decimal (n : UInt32) : strtoul32 (decimal n.toNat) = n := by
  have h := strtoull_decimal n.toUInt64
  rw [UInt32.toNat_toUInt64] at h
  rw [strtoul32, h]
  simp

variable {atof} {deviceId conf : Bytes} {u : ConfigUpdate}

theorem parseConfigLine_configLine (hdev : 44 ∉ deviceId) (hconf : 44 ∉ conf)
    (hatof : atof conf = u.confidenceThreshold) :
    parseConfigLine atof (configLine deviceId u conf) = some (deviceId, u) := by
  have hdigits := fun n => not_mem_decimal (b := 44) (by decide) n
  simp only [parseConfigLine, configLine, getline_append hdev, getline_append hconf,
    getline_append (hdigits _), getline_last (hdigits _) (decimal_ne_nil _), bind, Option.bind_some,
    strtoull_decimal, strtoul32_decimal, hatof]
  rfl

theorem mem_configLine {b : UInt8} (hb : ¬ IsDigit b) (hcomma : b ≠ 44)
    (h : b ∈ configLine deviceId u conf) : b ∈ deviceId ∨ b ∈ conf := by
  have hdigits := not_mem_decimal hb
  simpa [configLine, hcomma, hdigits] using h

/-- Every update can be asked for, whatever its fields, as far as there is a text for its
threshold. -/
theorem loadDesiredConfigs_configLine (hdev : 44 ∉ deviceId) (hdev' : 10 ∉ deviceId)
    (hhead : deviceId.head? ≠ none ∧ deviceId.head? ≠ some 35) (hconf : 44 ∉ conf)
    (hconf' : 10 ∉ conf) (hatof : atof conf = u.confidenceThreshold) :
    loadDesiredConfigs atof (some (configLine deviceId u conf)) deviceId = some u := by
  have hline : 10 ∉ configLine deviceId u conf := fun h =>
    (mem_configLine (by decide) (by decide) h).elim hdev' hconf'
  have hhead' : (configLine deviceId u conf).head? = deviceId.head? := by
    obtain ⟨b, hb⟩ := Option.ne_none_iff_exists'.1 hhead.1
    simp [configLine, hb]
  have hloaded : loadConfigLine atof (fun _ => none) (configLine deviceId u conf) deviceId =
      some u := by
    rw [loadConfigLine, hhead', if_neg (not_or.2 hhead),
      parseConfigLine_configLine hdev hconf hatof]
    exact Function.update_self _ _ _
  obtain ⟨b, bs, hcons⟩ : ∃ b bs, configLine deviceId u conf = b :: bs :=
    List.exists_cons_of_ne_nil (by simp [configLine])
  have hend : ∀ fuel out, loadConfigLines atof fuel [] out = out := by
    rintro (_ | fuel) out <;> rfl
  rw [loadDesiredConfigs, Option.getD_some, hcons, List.length_cons, loadConfigLines, ← hcons,
    getline_last hline (by simp [hcons])]
  simp only [hend, hloaded]

example : loadDesiredConfigs (fun _ => 0)
    (some (ascii "# fleet\n\ncam-0001,7,3,5,0.35\ncam-0001, 7,-1,5x,0.35,15,\n"))
      (ascii "cam-0001") = some ⟨7, 0, 4294967295, 5, 15⟩ := by
  decide

end Ridgeline
