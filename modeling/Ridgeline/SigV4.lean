import Ridgeline.Calendar
import Ridgeline.HexText
import Ridgeline.Separator

/-!
# Signed requests

`SigV4Signer::Sign`. SHA-256 and HMAC are any functions (`Digests`), the date is what `gmtime` and
`strftime` make of the time, and the headers are an ordered map, as `std::map` keeps them
(`HeaderMap`).

The header lines of the canonical request end with the first line that is empty, and each is split
at its first colon, so the canonical request determines the method, the path, the headers and the
hash of the body (`canonicalRequest_inj`). The date is a line of the text that is signed. If the two
calls hash no two different inputs to the same value, the authorization header therefore
determines all that was signed (`authorization_determines_request`).
-/

namespace Ridgeline

/-! ## Ordered maps -/

/-- The order of `std::string`. -/
def bytesLt : Bytes → Bytes → Bool
  | [], [] => false
  | [], _ :: _ => true
  | _ :: _, [] => false
  | a :: as, b :: bs => a.toNat < b.toNat || (a = b && bytesLt as bs)

theorem bytesLt_trans : ∀ {a b c : Bytes}, bytesLt a b → bytesLt b c → bytesLt a c
  | [], _, [], hab, hbc => by
    rename_i b
    cases b <;> simp [bytesLt] at hab hbc
  | [], _, _ :: _, _, _ => rfl
  | _ :: _, [], _, hab, _ => by simp [bytesLt] at hab
  | _ :: _, _ :: _, [], _, hbc => by simp [bytesLt] at hbc
  | a :: as, b :: bs, c :: cs, hab, hbc => by
    simp only [bytesLt, Bool.or_eq_true, Bool.and_eq_true, decide_eq_true_eq] at hab hbc ⊢
    rcases hab with hab | ⟨rfl, hab⟩ <;> rcases hbc with hbc | ⟨rfl, hbc⟩
    · exact .inl (hab.trans hbc)
    · exact .inl hab
    · exact .inl hbc
    · exact .inr ⟨rfl, bytesLt_trans hab hbc⟩

theorem bytesLt_of_not : ∀ {a b : Bytes}, a ≠ b → bytesLt a b = false → bytesLt b a
  | [], [], hne, _ => absurd rfl hne
  | [], _ :: _, _, h => by simp [bytesLt] at h
  | _ :: _, [], _, _ => rfl
  | a :: as, b :: bs, hne, h => by
    simp only [bytesLt, Bool.or_eq_false_iff, Bool.and_eq_false_iff, decide_eq_false_iff_not] at h
    simp only [bytesLt, Bool.or_eq_true, Bool.and_eq_true, decide_eq_true_eq]
    by_cases hab : a = b
    · subst hab
      refine .inr ⟨rfl, bytesLt_of_not (fun heq => hne (by rw [heq])) ?_⟩
      exact h.2.resolve_left fun h => h rfl
    · have : a.toNat ≠ b.toNat := fun heq => hab (UInt8.toNat_inj.1 heq)
      exact .inl (by omega)

/-- `std::map<std::string, std::string>` : its entries in the order of their keys. -/
@[ext]
structure HeaderMap where
  entries : List (Bytes × Bytes)
  sorted : entries.Pairwise fun a b => bytesLt a.1 b.1

/-- The assignment to a key, in a list of entries. -/
def setEntry (key value : Bytes) : List (Bytes × Bytes) → List (Bytes × Bytes)
  | [] => [(key, value)]
  | e :: es =>
    if key = e.1 then (key, value) :: es
    else if bytesLt key e.1 then (key, value) :: e :: es
    else e :: setEntry key value es

theorem mem_setEntry {key value : Bytes} {e : Bytes × Bytes} :
    ∀ {es : List (Bytes × Bytes)}, e ∈ setEntry key value es → e = (key, value) ∨ e ∈ es
  | [], h => .inl (List.mem_singleton.1 h)
  | f :: es, h => by
    unfold setEntry at h
    split_ifs at h
    · exact (List.mem_cons.1 h).imp_right (List.mem_cons_of_mem f)
    · exact List.mem_cons.1 h
    · rcases List.mem_cons.1 h with rfl | h
      · exact .inr List.mem_cons_self
      · exact (mem_setEntry h).imp_right (List.mem_cons_of_mem f)

theorem sorted_setEntry (key value : Bytes) : ∀ {es : List (Bytes × Bytes)},
    es.Pairwise (fun a b => bytesLt a.1 b.1) →
      (setEntry key value es).Pairwise fun a b => bytesLt a.1 b.1
  | [], _ => List.pairwise_singleton _ _
  | f :: es, h => by
    obtain ⟨hf, hes⟩ := List.pairwise_cons.1 h
    unfold setEntry
    split_ifs with heq hlt
    · subst heq
      exact List.pairwise_cons.2 ⟨hf, hes⟩
    · refine List.pairwise_cons.2 ⟨fun e he => ?_, h⟩
      rcases List.mem_cons.1 he with rfl | he
      · exact hlt
      · exact bytesLt_trans hlt (hf e he)
    · refine List.pairwise_cons.2 ⟨fun e he => ?_, sorted_setEntry key value hes⟩
      rcases mem_setEntry he with rfl | he
      · exact bytesLt_of_not heq (by simpa using hlt)
      · exact hf e he

/-- `map[key] = value`. -/
def HeaderMap.set (m : HeaderMap) (key value : Bytes) : HeaderMap where
  entries := setEntry key value m.entries
  sorted := sorted_setEntry key value m.sorted

/-! ## The signer -/

/-- The functions of OpenSSL : the digest of a text, and the one of a text under a key. -/
structure Digests where
  sha256 : Bytes → Bytes
  hmacSha256 : Bytes → Bytes → Bytes

/-- `SigV4Credentials`. -/
structure SigV4Credentials where
  accessKeyId : Bytes
  secretAccessKey : Bytes
  region : Bytes
  service : Bytes
  deriving DecidableEq, Repr

/-- `SigV4SignedRequest`. -/
structure SigV4SignedRequest where
  authorizationHeader : Bytes
  amzDate : Bytes
  deriving DecidableEq, Repr

/-- The arguments of `Sign`. -/
structure SignInput where
  method : Bytes
  host : Bytes
  path : Bytes
  body : Bytes
  extraHeaders : HeaderMap
  unixSeconds : Int64

/-- `FormatAmzDate`. -/
def formatAmzDate (unixSeconds : Int64) : Bytes :=
  strftime (ascii "%Y%m%dT%H%M%SZ") (gmtime unixSeconds.toInt)

/-- `FormatDateStamp`. -/
def formatDateStamp (unixSeconds : Int64) : Bytes :=
  strftime (ascii "%Y%m%d") (gmtime unixSeconds.toInt)

/-- `canonical_headers`, a line for every header. -/
def canonicalHeaders (es : List (Bytes × Bytes)) : Bytes :=
  es.flatMap fun e => e.1 ++ ascii ":" ++ e.2 ++ ascii "\n"

/-- `signed_headers`, the names with semicolons between them. -/
def signedHeaders : List (Bytes × Bytes) → Bytes
  | [] => []
  | [e] => e.1
  | e :: es => e.1 ++ ascii ";" ++ signedHeaders es

/-- The headers that are signed. -/
def SignInput.allHeaders (r : SignInput) : HeaderMap :=
  (r.extraHeaders.set (ascii "host") r.host).set (ascii "x-amz-date") (formatAmzDate r.unixSeconds)

section Sign

variable (D : Digests) (cred : SigV4Credentials) (r : SignInput)

/-- `Sha256Hex`. -/
def sha256Hex (data : Bytes) : Bytes :=
  toHex (D.sha256 data)

/-- The first stage. The query string is empty. -/
def canonicalRequest : Bytes :=
  r.method ++ ascii "\n" ++ r.path ++ ascii "\n" ++ [] ++ ascii "\n" ++
    canonicalHeaders r.allHeaders.entries ++ ascii "\n" ++ signedHeaders r.allHeaders.entries ++
    ascii "\n" ++ sha256Hex D r.body

/-- `credential_scope`. -/
def credentialScope : Bytes :=
  formatDateStamp r.unixSeconds ++ ascii "/" ++ cred.region ++ ascii "/" ++ cred.service ++
    ascii "/aws4_request"

/-- The second stage. -/
def stringToSign : Bytes :=
  ascii "AWS4-HMAC-SHA256\n" ++ formatAmzDate r.unixSeconds ++ ascii "\n" ++
    credentialScope cred r ++ ascii "\n" ++ sha256Hex D (canonicalRequest D r)

/-- The third stage. -/
def kSigning : Bytes :=
  let kDate := D.hmacSha256 (ascii "AWS4" ++ cred.secretAccessKey) (formatDateStamp r.unixSeconds)
  let kRegion := D.hmacSha256 kDate cred.region
  let kService := D.hmacSha256 kRegion cred.service
  D.hmacSha256 kService (ascii "aws4_request")

/-- The fourth stage. -/
def signatureHex : Bytes :=
  toHex (D.hmacSha256 (kSigning D cred r) (stringToSign D cred r))

/-- `SigV4Signer::Sign`. -/
def sign : SigV4SignedRequest where
  amzDate := formatAmzDate r.unixSeconds
  authorizationHeader :=
    ascii "AWS4-HMAC-SHA256 Credential=" ++ cred.accessKeyId ++ ascii "/" ++
      credentialScope cred r ++ ascii ", SignedHeaders=" ++ signedHeaders r.allHeaders.entries ++
      ascii ", Signature=" ++ signatureHex D cred r

/-- The texts that the call hashes. -/
def shaInputs : List Bytes :=
  [r.body, canonicalRequest D r]

/-- The keys and texts that the call takes the HMAC of. -/
def hmacInputs : List (Bytes × Bytes) :=
  let kDate := D.hmacSha256 (ascii "AWS4" ++ cred.secretAccessKey) (formatDateStamp r.unixSeconds)
  let kRegion := D.hmacSha256 kDate cred.region
  let kService := D.hmacSha256 kRegion cred.service
  [(ascii "AWS4" ++ cred.secretAccessKey, formatDateStamp r.unixSeconds), (kDate, cred.region),
    (kRegion, cred.service), (kService, ascii "aws4_request"),
    (kSigning D cred r, stringToSign D cred r)]

end Sign

/-- No two of the inputs have the same image. -/
def CollisionFree {α β : Type} (f : α → β) (xs : List α) : Prop :=
  ∀ x ∈ xs, ∀ y ∈ xs, f x = f y → x = y

instance decidableCollisionFree {α β : Type} [DecidableEq α] [DecidableEq β] (f : α → β)
    (xs : List α) : Decidable (CollisionFree f xs) :=
  inferInstanceAs (Decidable (∀ x ∈ xs, ∀ y ∈ xs, _))

/-- The texts of the request that are not hashed have no line break, and no header has a colon in
its name. -/
structure SignInput.WellFormed (r : SignInput) : Prop where
  method : 10 ∉ r.method
  path : 10 ∉ r.path
  host : 10 ∉ r.host
  names : ∀ e ∈ r.extraHeaders.entries, 10 ∉ e.1 ∧ 58 ∉ e.1
  values : ∀ e ∈ r.extraHeaders.entries, 10 ∉ e.2

/-! ## What the canonical request determines -/

/-- What the proof needs of the entries of a header map. -/
def Splits (es : List (Bytes × Bytes)) : Prop :=
  ∀ e ∈ es, 10 ∉ e.1 ∧ 58 ∉ e.1 ∧ 10 ∉ e.2

theorem canonicalHeaders_cons (e : Bytes × Bytes) (es : List (Bytes × Bytes)) (rest : Bytes) :
    canonicalHeaders (e :: es) ++ rest =
      e.1 ++ 58 :: (e.2 ++ 10 :: (canonicalHeaders es ++ rest)) := by
  simp only [canonicalHeaders, List.flatMap_cons, List.append_assoc]
  rfl

theorem canonicalHeaders_ne_newline {e : Bytes × Bytes} {es : List (Bytes × Bytes)}
    {rest rest' : Bytes} (he : 10 ∉ e.1) :
    canonicalHeaders (e :: es) ++ rest ≠ 10 :: rest' := by
  rw [canonicalHeaders_cons]
  intro h
  cases hname : e.1 with
  | nil =>
    rw [hname] at h
    exact absurd (List.cons.inj h).1 (by decide)
  | cons b bs =>
    rw [hname] at h he
    exact he ((List.cons.inj h).1 ▸ List.mem_cons_self)

/-- The header lines end with the first empty line. -/
theorem canonicalHeaders_inj : ∀ {es es' : List (Bytes × Bytes)} {rest rest' : Bytes},
    Splits es → Splits es' →
      canonicalHeaders es ++ 10 :: rest = canonicalHeaders es' ++ 10 :: rest' →
        es = es' ∧ rest = rest'
  | [], [], _, _, _, _, h => ⟨rfl, (List.cons.inj h).2⟩
  | [], e :: es, _, _, _, hes, h =>
    absurd h.symm (canonicalHeaders_ne_newline (hes e List.mem_cons_self).1)
  | e :: es, [], _, _, hes, _, h =>
    absurd h (canonicalHeaders_ne_newline (hes e List.mem_cons_self).1)
  | e :: es, e' :: es', rest, rest', hes, hes', h => by
    obtain ⟨-, hname, hvalue⟩ := hes e List.mem_cons_self
    obtain ⟨-, hname', hvalue'⟩ := hes' e' List.mem_cons_self
    rw [canonicalHeaders_cons, canonicalHeaders_cons] at h
    obtain ⟨hfst, h⟩ := append_cons_inj_left hname hname' h
    obtain ⟨hsnd, h⟩ := append_cons_inj_left hvalue hvalue' h
    obtain ⟨htail, hrest⟩ := canonicalHeaders_inj
      (fun f hf => hes f (List.mem_cons_of_mem e hf))
      (fun f hf => hes' f (List.mem_cons_of_mem e' hf)) h
    exact ⟨by rw [Prod.ext hfst hsnd, htail], hrest⟩

theorem newline_not_mem_formatAmzDate (t : Int64) : 10 ∉ formatAmzDate t := fun h => by
  rcases mem_strftime h with h | h | h | h <;> revert h <;> decide

theorem SignInput.WellFormed.splits {r : SignInput} (h : r.WellFormed) :
    Splits r.allHeaders.entries := by
  have hdate : 10 ∉ ascii "x-amz-date" ∧ 58 ∉ ascii "x-amz-date" := by decide
  have hhost : 10 ∉ ascii "host" ∧ 58 ∉ ascii "host" := by decide
  intro e he
  rcases mem_setEntry he with rfl | he
  · exact ⟨hdate.1, hdate.2, newline_not_mem_formatAmzDate _⟩
  rcases mem_setEntry he with rfl | he
  · exact ⟨hhost.1, hhost.2, h.host⟩
  · exact ⟨(h.names e he).1, (h.names e he).2, h.values e he⟩

theorem canonicalRequest_eq (D : Digests) (r : SignInput) : canonicalRequest D r =
    r.method ++ 10 :: (r.path ++ 10 :: (10 :: (canonicalHeaders r.allHeaders.entries ++
      10 :: (signedHeaders r.allHeaders.entries ++ 10 :: sha256Hex D r.body)))) := by
  simp only [canonicalRequest, List.append_assoc]
  rfl

variable {D : Digests} {cred : SigV4Credentials} {r r' : SignInput}

/-- The canonical request determines what it is made of. -/
theorem canonicalRequest_inj (hr : r.WellFormed) (hr' : r'.WellFormed)
    (h : canonicalRequest D r = canonicalRequest D r') :
    r.method = r'.method ∧ r.path = r'.path ∧ r.allHeaders = r'.allHeaders ∧
      D.sha256 r.body = D.sha256 r'.body := by
  rw [canonicalRequest_eq, canonicalRequest_eq] at h
  obtain ⟨hmethod, h⟩ := append_cons_inj_left hr.method hr'.method h
  obtain ⟨hpath, h⟩ := append_cons_inj_left hr.path hr'.path h
  obtain ⟨hentries, h⟩ := canonicalHeaders_inj hr.splits hr'.splits (List.cons.inj h).2
  rw [hentries] at h
  have hbody : sha256Hex D r.body = sha256Hex D r'.body :=
    (List.cons.inj (List.append_cancel_left h)).2
  exact ⟨hmethod, hpath, HeaderMap.ext hentries, toHex_injective hbody⟩

/-! ## What the authorization header determines -/

theorem stringToSign_eq (D : Digests) (cred : SigV4Credentials) (r : SignInput) :
    stringToSign D cred r = ascii "AWS4-HMAC-SHA256\n" ++ (formatAmzDate r.unixSeconds ++
      10 :: (credentialScope cred r ++ 10 :: sha256Hex D (canonicalRequest D r))) := by
  simp only [stringToSign, List.append_assoc]
  rfl

/-- The text that is signed determines the time and the hash of the canonical request. -/
theorem stringToSign_inj (ht : InYears 1000 9999 r.unixSeconds.toInt)
    (ht' : InYears 1000 9999 r'.unixSeconds.toInt)
    (h : stringToSign D cred r = stringToSign D cred r') :
    r.unixSeconds = r'.unixSeconds ∧
      D.sha256 (canonicalRequest D r) = D.sha256 (canonicalRequest D r') := by
  rw [stringToSign_eq, stringToSign_eq] at h
  obtain ⟨hdate, h⟩ := append_cons_inj_left (newline_not_mem_formatAmzDate _)
    (newline_not_mem_formatAmzDate _) (List.append_cancel_left h)
  have htime : r.unixSeconds = r'.unixSeconds :=
    Int64.toInt_inj.1 (strftime_injective ht ht' hdate)
  have hscope : credentialScope cred r = credentialScope cred r' := by
    rw [credentialScope, credentialScope, htime]
  rw [hscope] at h
  exact ⟨htime, toHex_injective (List.cons.inj (List.append_cancel_left h)).2⟩

/-- The signature is behind the last equals sign. -/
theorem signatureHex_eq_of_authorization
    (h : (sign D cred r).authorizationHeader = (sign D cred r').authorizationHeader) :
    signatureHex D cred r = signatureHex D cred r' := by
  have hhex : ∀ r, 61 ∉ signatureHex D cred r := fun r h => absurd (mem_toHex h) (by decide)
  have hsplit : ∀ r, (sign D cred r).authorizationHeader =
      (ascii "AWS4-HMAC-SHA256 Credential=" ++ cred.accessKeyId ++ ascii "/" ++
        credentialScope cred r ++ ascii ", SignedHeaders=" ++ signedHeaders r.allHeaders.entries ++
        ascii ", Signature") ++ 61 :: signatureHex D cred r := by
    intro r
    have hequals : ascii ", Signature=" = ascii ", Signature" ++ [61] := by decide
    simp only [sign, hequals, List.append_assoc, List.singleton_append]
  rw [hsplit, hsplit] at h
  exact (append_cons_inj_right (hhex r) (hhex r') h).2

/-- Two calls with the same credentials, whose texts have no line breaks and whose header names
have no colons, in years with four digits. If they hash no two different inputs to the same value,
then equal authorization headers were made of equal methods, paths, bodies, times and signed
headers. -/
theorem authorization_determines_request
    (hsha : CollisionFree D.sha256 (shaInputs D r ++ shaInputs D r'))
    (hhmac : CollisionFree (fun p : Bytes × Bytes => D.hmacSha256 p.1 p.2)
      (hmacInputs D cred r ++ hmacInputs D cred r'))
    (hr : r.WellFormed) (hr' : r'.WellFormed) (ht : InYears 1000 9999 r.unixSeconds.toInt)
    (ht' : InYears 1000 9999 r'.unixSeconds.toInt)
    (h : (sign D cred r).authorizationHeader = (sign D cred r').authorizationHeader) :
    r.method = r'.method ∧ r.path = r'.path ∧ r.body = r'.body ∧
      r.unixSeconds = r'.unixSeconds ∧ r.allHeaders = r'.allHeaders := by
  have hsigned : (kSigning D cred r, stringToSign D cred r) =
      (kSigning D cred r', stringToSign D cred r') :=
    hhmac _ (by simp [hmacInputs]) _ (by simp [hmacInputs])
      (toHex_injective (signatureHex_eq_of_authorization h))
  obtain ⟨htime, hhash⟩ := stringToSign_inj ht ht' (Prod.mk.inj hsigned).2
  have hrequest : canonicalRequest D r = canonicalRequest D r' :=
    hsha _ (by simp [shaInputs]) _ (by simp [shaInputs]) hhash
  obtain ⟨hmethod, hpath, hheaders, hbody⟩ := canonicalRequest_inj hr hr' hrequest
  refine ⟨hmethod, hpath, ?_, htime, hheaders⟩
  exact hsha _ (by simp [shaInputs]) _ (by simp [shaInputs]) hbody

/-- Digests of 32 bytes that are the first ones of the text, then of the key. -/
def firstBytes : Digests where
  sha256 data := (data ++ List.replicate 32 0).take 32
  hmacSha256 key data := (data ++ key ++ List.replicate 32 0).take 32

/-- The credentials for a table on the same machine. -/
def localCredentials : SigV4Credentials :=
  ⟨ascii "local", ascii "key", ascii "us-east-1", ascii "dynamodb"⟩

/-- A request to the table, with some headers. -/
def tableRequest (extraHeaders : HeaderMap) : SignInput where
  method := ascii "POST"
  host := ascii "localhost:8000"
  path := ascii "/"
  body := ascii "\x7b\x7d"
  extraHeaders := extraHeaders
  unixSeconds := 1709210096

/-- Headers with a host among them. -/
def hostGiven : HeaderMap :=
  ⟨[(ascii "content-type", ascii "a"), (ascii "host", ascii "b")], by decide⟩

/-- The headers without a host. -/
def hostNotGiven : HeaderMap :=
  ⟨[(ascii "content-type", ascii "a")], by decide⟩

/-- A host among the extra headers is overwritten, so it is not part of what is signed. -/
theorem authorization_determines_request_hostGiven :
    (tableRequest hostGiven).allHeaders = (tableRequest hostNotGiven).allHeaders := by
  have hsame : (sign firstBytes localCredentials (tableRequest hostGiven)).authorizationHeader =
      (sign firstBytes localCredentials (tableRequest hostNotGiven)).authorizationHeader := by
    decide +kernel
  exact (authorization_determines_request (by decide +kernel) (by decide +kernel)
    ⟨by decide, by decide, by decide, by decide, by decide⟩
    ⟨by decide, by decide, by decide, by decide, by decide⟩
    (by decide +kernel) (by decide +kernel) hsame).2.2.2.2

end Ridgeline
