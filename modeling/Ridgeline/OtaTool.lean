import Ridgeline.HexText
import Ridgeline.OtaManifest

/-!
# Signed manifests on disk

`ridgeline_ota_tool` : the file that `sign` writes, and `verify`, which parses a file and checks
the signature over the canonical bytes of the manifest it found. The contents of the files that
`ReadFileOrDie` reads are arguments here.

A manifest whose texts have no line break is read back from its file, with its signature, so that
`verify` accepts what `sign` wrote (`signed_manifest_round_trip`). Of any file `verify` says OK only
if the signature is one of the manifest it parsed. It finishes for every file except those with a
signature line that has a pair of characters `std::stoi` cannot read : its exception is caught
nowhere (`verify_finishes_iff`).
-/

namespace Ridgeline

/-! ## The file -/

/-- The value of `strtoll`, which is the nearest one that fits. -/
def clampInt64 (z : ℤ) : Int64 :=
  Int64.ofInt (max (-2 ^ 63) (min z (2 ^ 63 - 1)))

/-- `strtoll` with base 10. Without digits it is zero. -/
def strtoll (text : Bytes) : Int64 :=
  match (cStr text).dropWhile isSpace with
  | 45 :: ds => clampInt64 (-((leadingNat ds).getD 0 : ℕ))
  | 43 :: ds => clampInt64 ((leadingNat ds).getD 0 : ℕ)
  | ds => clampInt64 ((leadingNat ds).getD 0 : ℕ)

/-- The lines that `std::getline` reads, one after the other. -/
def getlines : Bytes → List Bytes
  | [] => []
  | b :: rest =>
    if b = 10 then [] :: getlines rest
    else
      match getlines rest with
      | [] => [[b]]
      | line :: lines => (b :: line) :: lines

/-- The outputs of `ParseSignedManifest`. -/
structure SignedManifest where
  manifest : OtaManifest := {}
  signature : Bytes := []
  deriving DecidableEq, Repr

/-- `SerializeSignedManifest`. -/
def serializeSignedManifest (m : OtaManifest) (signature : Bytes) : Bytes :=
  ascii "version=" ++ decimal m.version.toNat ++ ascii "\n" ++
    ascii "binary_sha256=" ++ m.binarySha256Hex ++ ascii "\n" ++
    ascii "url=" ++ m.url ++ ascii "\n" ++
    ascii "issued_unix_ns=" ++ decimalInt m.issuedUnixNs.toInt ++ ascii "\n" ++
    ascii "signature_hex=" ++ toHex signature ++ ascii "\n"

/-- `value_after`. -/
def valueAfter (line key : Bytes) : Bytes :=
  line.drop key.length

/-- What a line of the file makes of the loop : the next round, `return false`, or an exception. -/
inductive LineResult
  | next (out : SignedManifest)
  | refused
  | threw
  deriving DecidableEq, Repr

/-- The body of the loop of `ParseSignedManifest`. -/
def parseLine (out : SignedManifest) (line : Bytes) : LineResult :=
  if ascii "version=" <+: line then
    .next { out with manifest.version := strtoull (valueAfter line (ascii "version=")) }
  else if ascii "binary_sha256=" <+: line then
    .next { out with manifest.binarySha256Hex := valueAfter line (ascii "binary_sha256=") }
  else if ascii "url=" <+: line then
    .next { out with manifest.url := valueAfter line (ascii "url=") }
  else if ascii "issued_unix_ns=" <+: line then
    .next { out with manifest.issuedUnixNs := strtoll (valueAfter line (ascii "issued_unix_ns=")) }
  else if ascii "signature_hex=" <+: line then
    match fromHex (valueAfter line (ascii "signature_hex=")) with
    | some signature => .next { out with signature := signature }
    | none => .threw
  else if line ≠ [] then .refused
  else .next out

/-- The loop of `ParseSignedManifest` : what it returns, with its outputs, or nothing if it
throws. -/
def parseLines : List Bytes → SignedManifest → Option (Bool × SignedManifest)
  | [], out => some (out.signature ≠ [], out)
  | line :: lines, out =>
    match parseLine out line with
    | .next out => parseLines lines out
    | .refused => some (false, out)
    | .threw => none

/-- `ParseSignedManifest`, with fresh outputs. -/
def parseSignedManifest (text : Bytes) : Option (Bool × SignedManifest) :=
  parseLines (getlines text) {}

/-! ## The command -/

/-- A command that has finished : what it prints, and its exit code. -/
structure Finished where
  printed : Bytes
  exitCode : ℕ
  deriving DecidableEq, Repr

variable {SecretKey PublicKey : Type} (E : SignatureScheme SecretKey PublicKey)

/-- The line that `verify` prints about a manifest. `%s` ends at a zero byte. -/
def verifyVerdict (m : OtaManifest) (ok : Bool) : Bytes :=
  (if ok then ascii "OK" else ascii "FAIL") ++ ascii ": version=" ++ decimal m.version.toNat ++
    ascii " binary_sha256=" ++ cStr m.binarySha256Hex ++ ascii " url=" ++ cStr m.url ++ ascii "\n"

/-- The command `verify`, of the path and the contents of the manifest file and of the public
key. An exception has a text. -/
def verifyCommand (manifestPath file publicKeyPem : Bytes) : Except String Finished :=
  match parseSignedManifest file with
  | none => .error "stoi"
  | some (false, _) =>
    .ok ⟨ascii "FAIL: could not parse " ++ cStr manifestPath ++ ascii "\n", 1⟩
  | some (true, out) => do
    let ok ← out.manifest.verifyManifestSignature E out.signature publicKeyPem
    return ⟨verifyVerdict out.manifest ok, if ok then 0 else 1⟩

/-- The file that the command `sign` writes. -/
def signCommand (m : OtaManifest) (privateKeyPem : Bytes) : Except String Bytes := do
  let signature ← m.signManifest E privateKeyPem
  return serializeSignedManifest m signature

/-! ## Lines -/

/-- A line is read up to the line break behind it. -/
theorem getlines_append : ∀ {line : Bytes}, 10 ∉ line → ∀ rest,
    getlines (line ++ 10 :: rest) = line :: getlines rest
  | [], _, rest => by simp [getlines]
  | b :: line, h, rest => by
    have hb : b ≠ 10 := fun heq => h (heq ▸ List.mem_cons_self)
    have ih := getlines_append (fun hmem => h (List.mem_cons_of_mem b hmem)) rest
    rw [List.cons_append, getlines, if_neg hb, ih]

/-- A line that begins with one key does not begin with another that has a different first
letter. -/
theorem not_isPrefix_append (key key' : Bytes) (h : key.head? ≠ key'.head?) (hkey : key ≠ [])
    (hkey' : key' ≠ []) (v : Bytes) : ¬ key <+: key' ++ v := by
  rintro ⟨rest, heq⟩
  obtain ⟨b, bs, rfl⟩ := List.exists_cons_of_ne_nil hkey
  obtain ⟨c, cs, rfl⟩ := List.exists_cons_of_ne_nil hkey'
  exact h (congrArg some (List.cons.inj heq).1)

theorem valueAfter_append (key v : Bytes) : valueAfter (key ++ v) key = v :=
  List.drop_left

section Fields

variable (out : SignedManifest) (v : Bytes)

theorem parseLine_version : parseLine out (ascii "version=" ++ v) =
    .next { out with manifest.version := strtoull v } := by
  rw [parseLine, if_pos (List.prefix_append _ _), valueAfter_append]

theorem parseLine_binarySha256 : parseLine out (ascii "binary_sha256=" ++ v) =
    .next { out with manifest.binarySha256Hex := v } := by
  have hother := fun key h hkey =>
    not_isPrefix_append key (ascii "binary_sha256=") h hkey (by decide) v
  rw [parseLine, if_neg (hother _ (by decide) (by decide)), if_pos (List.prefix_append _ _),
    valueAfter_append]

theorem parseLine_url : parseLine out (ascii "url=" ++ v) =
    .next { out with manifest.url := v } := by
  have hother := fun key h hkey =>
    not_isPrefix_append key (ascii "url=") h hkey (by decide) v
  rw [parseLine, if_neg (hother _ (by decide) (by decide)),
    if_neg (hother _ (by decide) (by decide)), if_pos (List.prefix_append _ _), valueAfter_append]

theorem parseLine_issuedUnixNs : parseLine out (ascii "issued_unix_ns=" ++ v) =
    .next { out with manifest.issuedUnixNs := strtoll v } := by
  have hother := fun key h hkey =>
    not_isPrefix_append key (ascii "issued_unix_ns=") h hkey (by decide) v
  rw [parseLine, if_neg (hother _ (by decide) (by decide)),
    if_neg (hother _ (by decide) (by decide)), if_neg (hother _ (by decide) (by decide)),
    if_pos (List.prefix_append _ _), valueAfter_append]

theorem parseLine_signatureHex : parseLine out (ascii "signature_hex=" ++ v) =
    match fromHex v with
    | some signature => .next { out with signature := signature }
    | none => .threw := by
  have hother := fun key h hkey =>
    not_isPrefix_append key (ascii "signature_hex=") h hkey (by decide) v
  rw [parseLine, if_neg (hother _ (by decide) (by decide)),
    if_neg (hother _ (by decide) (by decide)), if_neg (hother _ (by decide) (by decide)),
    if_neg (hother _ (by decide) (by decide)), if_pos (List.prefix_append _ _), valueAfter_append]

end Fields

/-! ## Reading back a file -/

/-- `strtoll` reads the number that is printed, as far as it fits. -/
theorem strtoll_decimalInt (z : ℤ) : strtoll (decimalInt z) = clampInt64 z := by
  rw [strtoll, cStr_eq_self (not_mem_decimalInt (by decide) (by decide) z)]
  cases z with
  | ofNat n =>
    obtain ⟨b, bs, hcons, hb⟩ := decimal_eq_cons n
    have hdrop : (decimal n).dropWhile isSpace = decimal n := by
      rw [hcons]
      exact List.dropWhile_cons_of_neg (by simp [hb.isSpace_eq_false])
    rw [decimalInt, hdrop]
    split
    · next heq => exact absurd (heq ▸ List.mem_cons_self) (not_mem_decimal (by decide) n)
    · next heq => exact absurd (heq ▸ List.mem_cons_self) (not_mem_decimal (by decide) n)
    · rw [leadingNat_decimal]
      rfl
  | negSucc n =>
    have hdrop : (45 :: decimal (n + 1)).dropWhile isSpace = 45 :: decimal (n + 1) := rfl
    simp only [decimalInt, hdrop, leadingNat_decimal]
    rfl

theorem clampInt64_toInt (z : Int64) : clampInt64 z.toInt = z := by
  have hlo := z.le_toInt
  have hhi := z.toInt_lt
  rw [clampInt64, min_eq_left (by omega), max_eq_right (by omega), Int64.ofInt_toInt]

/-- The lines of the file that is written for a manifest without line breaks. -/
theorem getlines_serializeSignedManifest {m : OtaManifest} (hsha : 10 ∉ m.binarySha256Hex)
    (hurl : 10 ∉ m.url) (signature : Bytes) :
    getlines (serializeSignedManifest m signature) =
      [ascii "version=" ++ decimal m.version.toNat, ascii "binary_sha256=" ++ m.binarySha256Hex,
        ascii "url=" ++ m.url, ascii "issued_unix_ns=" ++ decimalInt m.issuedUnixNs.toInt,
        ascii "signature_hex=" ++ toHex signature] := by
  have hline : ∀ key {v : Bytes}, 10 ∉ key → 10 ∉ v → ∀ rest,
      getlines (key ++ (v ++ (ascii "\n" ++ rest))) = (key ++ v) :: getlines rest := by
    intro key v hkey hv rest
    rw [← List.append_assoc]
    exact getlines_append (by simp [hkey, hv]) rest
  have hsig : 10 ∉ toHex signature := fun h => absurd (mem_toHex h) (by decide)
  have hlast := hline (ascii "signature_hex=") (by decide) hsig []
  rw [List.append_nil] at hlast
  simp only [serializeSignedManifest, List.append_assoc]
  rw [hline _ (by decide) (not_mem_decimal (by decide) _), hline _ (by decide) hsha,
    hline _ (by decide) hurl, hline _ (by decide) (not_mem_decimalInt (by decide) (by decide) _),
    hlast]
  rfl

theorem parseSignedManifest_serializeSignedManifest {m : OtaManifest} {signature : Bytes}
    (hsha : 10 ∉ m.binarySha256Hex) (hurl : 10 ∉ m.url) (hsig : signature ≠ []) :
    parseSignedManifest (serializeSignedManifest m signature) = some (true, ⟨m, signature⟩) := by
  rw [parseSignedManifest, getlines_serializeSignedManifest hsha hurl]
  simp only [parseLines, parseLine_version, parseLine_binarySha256, parseLine_url,
    parseLine_issuedUnixNs, parseLine_signatureHex, fromHex_toHex, strtoull_decimal,
    strtoll_decimalInt, clampInt64_toInt]
  simp [hsig]

/-- The file written for a manifest without line breaks in its texts and a signature that is not
empty gives back both, and what `sign` writes is accepted under the matching public key. -/
theorem signed_manifest_round_trip {m : OtaManifest} {signature : Bytes}
    (hsha : 10 ∉ m.binarySha256Hex) (hurl : 10 ∉ m.url) (hsig : signature ≠ []) :
    parseSignedManifest (serializeSignedManifest m signature) = some (true, ⟨m, signature⟩) ∧
      ∀ {SecretKey PublicKey : Type} (E : SignatureScheme SecretKey PublicKey)
        (skPem pkPem path : Bytes), OtaManifest.KeyPair E skPem pkPem →
          m.signManifest E skPem = .ok signature →
            signCommand E m skPem = .ok (serializeSignedManifest m signature) ∧
              verifyCommand E path (serializeSignedManifest m signature) pkPem =
                .ok ⟨verifyVerdict m true, 0⟩ := by
  have hparse := parseSignedManifest_serializeSignedManifest hsha hurl hsig
  refine ⟨hparse, fun E skPem pkPem path hkeys hsign => ⟨?_, ?_⟩⟩
  · rw [signCommand, hsign]
    rfl
  · have hverify : m.verifyManifestSignature E signature pkPem = .ok true :=
      (OtaManifest.verifyManifestSignature_iff E hkeys hsign).2 rfl
    rw [verifyCommand, hparse]
    simp only [hverify]
    rfl

/-- The largest version, the least time, and texts that look like other fields. -/
theorem signed_manifest_round_trip_limits :
    parseSignedManifest (serializeSignedManifest
        ⟨18446744073709551615, ascii "signature_hex=zz", ascii "version=1", -9223372036854775808⟩
        [0, 10, 255]) =
      some (true, ⟨⟨18446744073709551615, ascii "signature_hex=zz", ascii "version=1",
        -9223372036854775808⟩, [0, 10, 255]⟩) :=
  (signed_manifest_round_trip (by decide) (by decide) (by decide)).1

/-! ## Any file -/

/-- The keys of the fields. -/
def fieldKeys : List Bytes :=
  [ascii "version=", ascii "binary_sha256=", ascii "url=", ascii "issued_unix_ns=",
    ascii "signature_hex="]

/-- The line is empty, or begins with the key of a field. -/
def KnownLine (line : Bytes) : Prop :=
  line = [] ∨ ∃ key ∈ fieldKeys, key <+: line

instance decidableKnownLine (line : Bytes) : Decidable (KnownLine line) :=
  inferInstanceAs (Decidable (_ ∨ _))

/-- If the line is the signature's, its pairs can be read. -/
def ReadableLine (line : Bytes) : Prop :=
  ascii "signature_hex=" <+: line → HexReadable (valueAfter line (ascii "signature_hex="))

instance decidableReadableLine (line : Bytes) : Decidable (ReadableLine line) :=
  inferInstanceAs (Decidable (_ → _))

/-- The lines before the first one that is not known can be read. -/
def ReadableFile (file : Bytes) : Prop :=
  ∀ line ∈ (getlines file).takeWhile (fun line => decide (KnownLine line)), ReadableLine line

instance decidableReadableFile (file : Bytes) : Decidable (ReadableFile file) :=
  inferInstanceAs (Decidable (∀ line ∈ (getlines file).takeWhile _, ReadableLine line))

/-- What a line makes of the loop. -/
theorem parseLine_cases (out : SignedManifest) (line : Bytes) :
    (¬ KnownLine line ∧ parseLine out line = .refused) ∨
      (KnownLine line ∧ ReadableLine line ∧ ∃ out', parseLine out line = .next out') ∨
      (KnownLine line ∧ ¬ ReadableLine line ∧ parseLine out line = .threw) := by
  by_cases hknown : KnownLine line
  · right
    by_cases hsig : ascii "signature_hex=" <+: line
    · obtain ⟨v, rfl⟩ := hsig
      have hiff : ReadableLine (ascii "signature_hex=" ++ v) ↔ (fromHex v).isSome := by
        rw [fromHex_isSome_iff, ReadableLine, valueAfter_append]
        exact ⟨fun h => h (List.prefix_append _ _), fun h _ => h⟩
      rw [hiff, parseLine_signatureHex]
      cases fromHex v with
      | none => exact .inr ⟨hknown, by simp, rfl⟩
      | some signature => exact .inl ⟨hknown, rfl, _, rfl⟩
    · left
      refine ⟨hknown, fun h => absurd h hsig, ?_⟩
      rcases hknown with rfl | ⟨key, hkey, v, rfl⟩
      · exact ⟨out, rfl⟩
      · simp only [fieldKeys, List.mem_cons, List.not_mem_nil, or_false] at hkey
        rcases hkey with rfl | rfl | rfl | rfl | rfl
        · exact ⟨_, parseLine_version out v⟩
        · exact ⟨_, parseLine_binarySha256 out v⟩
        · exact ⟨_, parseLine_url out v⟩
        · exact ⟨_, parseLine_issuedUnixNs out v⟩
        · exact absurd (List.prefix_append _ _) hsig
  · left
    refine ⟨hknown, ?_⟩
    obtain ⟨hnil, hkeys⟩ := not_or.1 hknown
    have hkey : ∀ key ∈ fieldKeys, ¬ key <+: line := fun key hmem h => hkeys ⟨key, hmem, h⟩
    simp only [fieldKeys, List.forall_mem_cons] at hkey
    obtain ⟨h1, h2, h3, h4, h5, -⟩ := hkey
    rw [parseLine, if_neg h1, if_neg h2, if_neg h3, if_neg h4, if_neg h5, if_pos hnil]

/-- The loop throws exactly if one of the lines it reads cannot be read. -/
theorem parseLines_isSome_iff : ∀ (lines : List Bytes) (out : SignedManifest),
    (parseLines lines out).isSome ↔
      ∀ line ∈ lines.takeWhile (fun line => decide (KnownLine line)), ReadableLine line
  | [], out => by simp [parseLines]
  | line :: lines, out => by
    rw [parseLines]
    rcases parseLine_cases out line with ⟨hknown, hparse⟩ | ⟨hknown, hread, out', hparse⟩ |
      ⟨hknown, hread, hparse⟩
    · simp [hparse, hknown]
    · rw [hparse]
      simp only [parseLines_isSome_iff lines out']
      rw [List.takeWhile_cons_of_pos (by simpa using hknown), List.forall_mem_cons]
      exact ⟨fun h => ⟨hread, h⟩, fun h => h.2⟩
    · rw [hparse]
      rw [List.takeWhile_cons_of_pos (by simpa using hknown), List.forall_mem_cons]
      simp [hread]

/-- The result of a command that finishes cleanly : OK, and the signature is one of the manifest
that was parsed, or FAIL. -/
def CleanResult (pk : PublicKey) (file : Bytes) (r : Finished) : Prop :=
  (ascii "OK:" <+: r.printed ∧ r.exitCode = 0 ∧ ∃ out,
    parseSignedManifest file = some (true, out) ∧
      E.verify pk out.signature out.manifest.canonicalBytes = true) ∨
  (ascii "FAIL:" <+: r.printed ∧ r.exitCode = 1)

/-- Under a valid public key `verify` finishes cleanly for the files whose signature lines, before
the first line that is not known, have only pairs that can be read, and for no others. -/
theorem verify_finishes_iff {pk : PublicKey} {publicKeyPem : Bytes}
    (hpk : E.readPublicKey publicKeyPem = some pk) (manifestPath file : Bytes) :
    (∃ r, verifyCommand E manifestPath file publicKeyPem = .ok r ∧ CleanResult E pk file r) ↔
      ReadableFile file := by
  have hiff : (parseSignedManifest file).isSome ↔ ReadableFile file :=
    parseLines_isSome_iff (getlines file) {}
  rw [← hiff, verifyCommand]
  cases hparse : parseSignedManifest file with
  | none => simp
  | some result =>
    obtain ⟨_ | _, out⟩ := result
    · refine iff_of_true ⟨_, rfl, .inr ⟨?_, rfl⟩⟩ rfl
      exact ⟨_, rfl⟩
    · refine iff_of_true ?_ rfl
      simp only [OtaManifest.verifyManifestSignature, hpk]
      cases hok : E.verify pk out.signature out.manifest.canonicalBytes with
      | true => exact ⟨_, rfl, .inl ⟨⟨_, rfl⟩, rfl, out, hparse, hok⟩⟩
      | false => exact ⟨_, rfl, .inr ⟨⟨_, rfl⟩, rfl⟩⟩

/-- White space, signs and an odd digit do not stop it, nor what is behind an unknown line. -/
def oddPairs : Bytes :=
  ascii "signature_hex=0x f+14\nx\nsignature_hex=zz\n"

theorem verify_finishes_iff_oddPairs :
    ∃ r, verifyCommand .plain (ascii "m") oddPairs [] = .ok r ∧
      CleanResult .plain () oddPairs r :=
  (verify_finishes_iff .plain rfl _ _).2 (by decide)

/-- A signature line with two letters that are not digits : the exception of `std::stoi` ends the
program. -/
theorem bad_hex_ends_verify :
    verifyCommand .plain (ascii "m") (ascii "signature_hex=zz\n") [] = .error "stoi" := by
  decide

end Ridgeline
