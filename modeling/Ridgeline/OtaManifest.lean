import Ridgeline.Decimal
import Ridgeline.Separator

/-!
# Update manifests

`OtaManifest::CanonicalBytes`, `SignManifest` and `VerifyManifestSignature`. The version
and the issue time are printed as decimals, so their ends are found in the text; the hash
and the url are free texts with `|url=` between them. A manifest is therefore the only one
with its canonical bytes, and the only one its signature is accepted for, exactly when
neither of its two texts contains `|url=` (`signedOnce_iff`).
-/

namespace Ridgeline

/-- `OtaManifest`. -/
structure OtaManifest where
  version : UInt64 := 0
  binarySha256Hex : Bytes := []
  url : Bytes := []
  issuedUnixNs : Int64 := 0
  deriving DecidableEq, Repr

/-- Ed25519 as OpenSSL offers it : keys are parsed from PEM texts, which may fail, and
`Matching` are the secret and public keys of one pair. A signature is accepted under the
matching key for the text it was made of, and for no other text. -/
structure SignatureScheme (SecretKey PublicKey : Type) where
  readPrivateKey : Bytes → Option SecretKey
  readPublicKey : Bytes → Option PublicKey
  sign : SecretKey → Bytes → Bytes
  verify : PublicKey → Bytes → Bytes → Bool
  Matching : SecretKey → PublicKey → Prop
  verify_sign_iff : ∀ {sk pk}, Matching sk pk → ∀ signed text,
    verify pk (sign sk signed) text = true ↔ text = signed

/-- A scheme in which a text is its own signature. -/
def SignatureScheme.plain : SignatureScheme Unit Unit where
  readPrivateKey _ := some ()
  readPublicKey _ := some ()
  sign _ text := text
  verify _ signature text := text == signature
  Matching _ _ := True
  verify_sign_iff := by simp

variable {SecretKey PublicKey : Type} (E : SignatureScheme SecretKey PublicKey)

namespace OtaManifest

/-- `OtaManifest::CanonicalBytes`. -/
def canonicalBytes (m : OtaManifest) : Bytes :=
  ascii "v1|version=" ++ decimal m.version.toNat ++ ascii "|binary_sha256=" ++ m.binarySha256Hex ++
    ascii "|url=" ++ m.url ++ ascii "|issued_unix_ns=" ++ decimalInt m.issuedUnixNs.toInt

/-- The text of the error that OpenSSL's failures are thrown with. -/
def openSslError (what : String) : String :=
  what ++ " (OpenSSL error, see stderr for details)"

/-- `SignManifest`. -/
def signManifest (m : OtaManifest) (privateKeyPem : Bytes) : Except String Bytes :=
  match E.readPrivateKey privateKeyPem with
  | none => .error (openSslError "failed to parse Ed25519 private key PEM")
  | some key => .ok (E.sign key m.canonicalBytes)

/-- `VerifyManifestSignature`. -/
def verifyManifestSignature (m : OtaManifest) (signature publicKeyPem : Bytes) :
    Except String Bool :=
  match E.readPublicKey publicKeyPem with
  | none => .error (openSslError "failed to parse Ed25519 public key PEM")
  | some key => .ok (E.verify key signature m.canonicalBytes)

/-- The PEM texts hold a matching pair of keys. -/
def KeyPair (privateKeyPem publicKeyPem : Bytes) : Prop :=
  ∃ sk pk, E.readPrivateKey privateKeyPem = some sk ∧ E.readPublicKey publicKeyPem = some pk ∧
    E.Matching sk pk

/-- The manifest is the only one with its canonical bytes, and the only one that its
signature is accepted for. -/
def SignedOnce (m₀ : OtaManifest) : Prop :=
  (∀ m, m.canonicalBytes = m₀.canonicalBytes → m = m₀) ∧
    ∀ {SecretKey PublicKey : Type} (E : SignatureScheme SecretKey PublicKey) (skPem pkPem : Bytes),
      KeyPair E skPem pkPem → ∀ m signature, m₀.signManifest E skPem = .ok signature →
        m.verifyManifestSignature E signature pkPem = .ok true → m = m₀

/-- A signature is accepted for the manifests with the canonical bytes of the one that was
signed. -/
theorem verifyManifestSignature_iff {m m₀ : OtaManifest} {skPem pkPem signature : Bytes}
    (hkeys : KeyPair E skPem pkPem) (hsign : m₀.signManifest E skPem = .ok signature) :
    m.verifyManifestSignature E signature pkPem = .ok true ↔
      m.canonicalBytes = m₀.canonicalBytes := by
  obtain ⟨sk, pk, hsk, hpk, hmatch⟩ := hkeys
  simp only [signManifest, hsk, Except.ok.injEq] at hsign
  subst hsign
  simp only [verifyManifestSignature, hpk, Except.ok.injEq]
  exact E.verify_sign_iff hmatch _ _

example : verifyManifestSignature .plain ⟨1, ascii "a", ascii "b", 0⟩
    (canonicalBytes ⟨1, ascii "a", ascii "c", 0⟩) [] = .ok false := by decide

/-! ## What the canonical bytes determine -/

theorem bar_not_mem_decimalInt (z : ℤ) : 124 ∉ decimalInt z := by
  intro h
  rcases mem_decimalInt h with h | h
  · exact absurd h (by decide)
  · exact absurd h (by decide)

theorem bar_not_mem_decimal (n : ℕ) : 124 ∉ decimal n :=
  bar_not_mem_decimalInt n

/-- The hash and the url, with the label between them. -/
def texts (m : OtaManifest) : Bytes :=
  m.binarySha256Hex ++ (ascii "|url=" ++ m.url)

theorem canonicalBytes_eq (m : OtaManifest) : m.canonicalBytes =
    ascii "v1|version=" ++ (decimal m.version.toNat ++ 124 :: (ascii "binary_sha256=" ++
      (m.texts ++ 124 :: (ascii "issued_unix_ns=" ++ decimalInt m.issuedUnixNs.toInt)))) := by
  simp only [canonicalBytes, texts, List.append_assoc]
  rfl

/-- The canonical bytes determine the version, the issue time, and the hash and url as one
text. -/
theorem canonicalBytes_eq_iff {m m' : OtaManifest} : m.canonicalBytes = m'.canonicalBytes ↔
    m.version = m'.version ∧ m.issuedUnixNs = m'.issuedUnixNs ∧ m.texts = m'.texts := by
  rw [canonicalBytes_eq, canonicalBytes_eq]
  constructor
  · intro h
    obtain ⟨hversion, h⟩ := append_cons_inj_left (bar_not_mem_decimal _) (bar_not_mem_decimal _)
      (List.append_cancel_left h)
    have hlast : ∀ z, 124 ∉ ascii "issued_unix_ns=" ++ decimalInt z := fun z hmem =>
      (List.mem_append.1 hmem).elim (by decide) (bar_not_mem_decimalInt z)
    obtain ⟨htexts, h⟩ := append_cons_inj_right (hlast _) (hlast _) (List.append_cancel_left h)
    have hissued := decimalInt_injective (List.append_cancel_left h)
    exact ⟨UInt64.toNat_inj.1 (decimal_injective hversion), Int64.toInt_inj.1 hissued, htexts⟩
  · rintro ⟨hversion, hissued, htexts⟩
    rw [hversion, hissued, htexts]

/-- Another manifest has the canonical bytes if one of the texts contains the separator. -/
theorem exists_ne_canonicalBytes_eq {m₀ : OtaManifest}
    (h : ascii "|url=" <:+: m₀.binarySha256Hex ∨ ascii "|url=" <:+: m₀.url) :
    ∃ m, m.canonicalBytes = m₀.canonicalBytes ∧ m ≠ m₀ := by
  obtain ⟨sha, url, heq, hne⟩ := exists_other_split h
  refine ⟨{ m₀ with binarySha256Hex := sha, url := url },
    canonicalBytes_eq_iff.2 ⟨rfl, rfl, heq⟩, fun hm => hne ?_⟩
  rw [← hm]

theorem eq_of_canonicalBytes_eq {m m₀ : OtaManifest}
    (hsha : ¬ ascii "|url=" <:+: m₀.binarySha256Hex) (hurl : ¬ ascii "|url=" <:+: m₀.url)
    (h : m.canonicalBytes = m₀.canonicalBytes) : m = m₀ := by
  obtain ⟨hversion, hissued, htexts⟩ := canonicalBytes_eq_iff.1 h
  rcases append_separator_cases (by decide) htexts with ⟨hsha', hurl'⟩ | hin | hin
  · cases m
    cases m₀
    simp_all
  · exact absurd hin hsha
  · exact absurd hin hurl

/-- The signature covers one manifest exactly when neither the hash nor the url contains
the text between them. -/
theorem signedOnce_iff (m₀ : OtaManifest) : SignedOnce m₀ ↔
    ¬ ascii "|url=" <:+: m₀.binarySha256Hex ∧ ¬ ascii "|url=" <:+: m₀.url := by
  constructor
  · rintro ⟨hbytes, -⟩
    rw [← not_or]
    intro hin
    obtain ⟨m, heq, hne⟩ := exists_ne_canonicalBytes_eq hin
    exact hne (hbytes m heq)
  · rintro ⟨hsha, hurl⟩
    refine ⟨fun m => eq_of_canonicalBytes_eq hsha hurl, ?_⟩
    intro SecretKey PublicKey E skPem pkPem hkeys m signature hsign hverify
    exact eq_of_canonicalBytes_eq hsha hurl ((verifyManifestSignature_iff E hkeys hsign).1 hverify)

/-- The text `|url=b` moves from the hash to the url, and the signature is still accepted. -/
theorem url_label_in_hash_not_signedOnce :
    ¬ SignedOnce ⟨1, ascii "a|url=b", ascii "c", 0⟩ ∧
      ∀ {SecretKey PublicKey : Type} (E : SignatureScheme SecretKey PublicKey)
        (skPem pkPem signature : Bytes), KeyPair E skPem pkPem →
          signManifest E ⟨1, ascii "a|url=b", ascii "c", 0⟩ skPem = .ok signature →
            verifyManifestSignature E ⟨1, ascii "a", ascii "b|url=c", 0⟩ signature pkPem =
              .ok true := by
  have hbytes : canonicalBytes ⟨1, ascii "a", ascii "b|url=c", 0⟩ =
      canonicalBytes ⟨1, ascii "a|url=b", ascii "c", 0⟩ := by decide
  constructor
  · rintro ⟨honce, -⟩
    exact absurd (honce _ hbytes) (by decide)
  · intro SecretKey PublicKey E skPem pkPem signature hkeys hsign
    exact (verifyManifestSignature_iff E hkeys hsign).2 hbytes

end OtaManifest

end Ridgeline
