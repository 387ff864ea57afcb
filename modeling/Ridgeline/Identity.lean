import Ridgeline.Ingest

/-!
# Certificates and identities

The identity a Hello claims is a tenant, which may be empty, and a device. The gateway
compares one text built from both with the common name of the client certificate. A name
with a colon inside is the text of the tenant before the colon and the device behind it,
and also of the whole name as a device without a tenant. So a certificate determines the
identity exactly when its common name has no colon inside (`determinesIdentity_iff`), and
no certificate issued for a tenant does (`tenant_certificate_not_determined`).
-/

namespace Ridgeline

/-- The tenant and the device that a Hello claims. -/
def Hello.identity (h : Hello) : Bytes × Bytes :=
  (h.tenantId, h.deviceId)

/-- The bucket that the detections behind the Hello are charged to. -/
def Hello.rateKey (h : Hello) : Bytes :=
  Stream.rateKey { deviceId := h.deviceId, tenantId := h.tenantId }

/-- The Hellos a stream accepts, until `Connect` returns. -/
def acceptedHellos (g : Integrations) (certCn : Option Bytes) :
    Stream → List (AgentMessage × Answers) → List Hello
  | _, [] => []
  | s, (msg, ans) :: rest =>
    let out := s.onMessage g certCn msg ans
    if out.status.isSome then []
    else
      match msg with
      | .hello h => h :: acceptedHellos g certCn out.stream rest
      | _ => acceptedHellos g certCn out.stream rest

/-- All Hellos that are accepted under the common name, on any streams, claim the same
identity and are charged to the same bucket. -/
def DeterminesIdentity (cn : Bytes) : Prop :=
  ∀ g₁ g₂ ins₁ ins₂, ∀ h₁ ∈ acceptedHellos g₁ (some cn) {} ins₁,
    ∀ h₂ ∈ acceptedHellos g₂ (some cn) {} ins₂,
      h₁.identity = h₂.identity ∧ h₁.rateKey = h₂.rateKey

/-- There is a colon with a byte before it and a byte behind it. -/
def HasInnerColon (cn : Bytes) : Prop :=
  58 ∈ cn.tail.dropLast

theorem expectedCn_of_mem {g : Integrations} {cn : Bytes} {h : Hello} :
    ∀ {ins : List (AgentMessage × Answers)} {s : Stream},
      h ∈ acceptedHellos g (some cn) s ins → h.deviceId ≠ [] ∧ expectedCn h = cn
  | [], _, hmem => by cases hmem
  | (msg, ans) :: ins, s, hmem => by
    cases msg with
    | hello h' =>
      rw [acceptedHellos] at hmem
      split_ifs at hmem with hstatus
      · cases hmem
      rcases List.mem_cons.1 hmem with rfl | hmem
      · have hok : (s.onHello (some cn) h).status = none :=
          Option.not_isSome_iff_eq_none.1 hstatus
        obtain ⟨hdev, hcn⟩ := Stream.status_onHello_iff.1 hok
        exact ⟨hdev, (hcn cn rfl).symm⟩
      · exact expectedCn_of_mem hmem
    | detection | heartbeat | notSet =>
      rw [acceptedHellos] at hmem
      · split_ifs at hmem
        · cases hmem
        · exact expectedCn_of_mem hmem
      · nofun

/-- A Hello with the expected name is accepted as the first message of a stream. -/
theorem mem_acceptedHellos (g : Integrations) {h : Hello} (hdev : h.deviceId ≠ []) :
    h ∈ acceptedHellos g (some (expectedCn h)) {} [(.hello h, {})] := by
  have hok : (Stream.onHello (some (expectedCn h)) {} h).status = none :=
    Stream.status_onHello_iff.2 ⟨hdev, by simp⟩
  simp [acceptedHellos, Stream.onMessage, hok]

theorem hasInnerColon_iff {cn : Bytes} :
    HasInnerColon cn ↔ ∃ t d : Bytes, t ≠ [] ∧ d ≠ [] ∧ cn = t ++ ascii ":" ++ d := by
  have hcolon : ascii ":" = [58] := rfl
  rw [HasInnerColon, hcolon]
  constructor
  · intro h
    obtain ⟨u, v, huv⟩ := List.append_of_mem h
    cases cn with
    | nil => cases h
    | cons x xs =>
      have hne : xs ≠ [] := by
        rintro rfl
        cases h
      refine ⟨x :: u, v ++ [xs.getLast hne], by simp, by simp, ?_⟩
      rw [List.tail_cons] at huv
      conv_lhs => rw [← List.dropLast_append_getLast hne, huv]
      simp
  · rintro ⟨t, d, ht, hd, rfl⟩
    obtain ⟨x, t, rfl⟩ := List.exists_cons_of_ne_nil ht
    obtain ⟨ds, y, rfl⟩ := (List.eq_nil_or_concat' d).resolve_left hd
    have : (x :: t ++ [58] ++ (ds ++ [y])).tail.dropLast = t ++ [58] ++ ds := by
      rw [List.cons_append, List.cons_append, List.tail_cons, ← List.append_assoc,
        List.dropLast_concat]
    rw [this]
    simp

/-- A name with a colon inside is also the name of a device without a tenant. -/
theorem not_determinesIdentity {t d : Bytes} (ht : t ≠ []) (hd : d ≠ []) :
    ¬ DeterminesIdentity (t ++ ascii ":" ++ d) := by
  intro hdet
  let tenanted : Hello := ⟨d, 0, true, t⟩
  let plain : Hello := ⟨t ++ ascii ":" ++ d, 0, true, []⟩
  have htenanted : expectedCn tenanted = t ++ ascii ":" ++ d := if_neg ht
  have hplain : expectedCn plain = t ++ ascii ":" ++ d := if_pos rfl
  have hm := mem_acceptedHellos ⟨false, false, false, false⟩ (h := tenanted) hd
  have hm' := mem_acceptedHellos ⟨false, false, false, false⟩ (h := plain) (by simp [plain, ht])
  rw [htenanted] at hm
  rw [hplain] at hm'
  exact ht (Prod.ext_iff.1 (hdet _ _ _ _ tenanted hm plain hm').1).1

/-- A Hello that is accepted under a name without a colon inside claims no tenant, and the
name as its device. -/
theorem identity_of_not_hasInnerColon {cn : Bytes} {h : Hello} (hcolon : ¬ HasInnerColon cn)
    (hdev : h.deviceId ≠ []) (hcn : expectedCn h = cn) : h.tenantId = [] ∧ h.deviceId = cn := by
  by_cases ht : h.tenantId = []
  · exact ⟨ht, by rwa [expectedCn, if_pos ht] at hcn⟩
  · rw [expectedCn, if_neg ht] at hcn
    exact absurd (hasInnerColon_iff.2 ⟨_, _, ht, hdev, hcn.symm⟩) hcolon

/-- The certificate determines the identity exactly when its common name has no colon with
a byte on each side. -/
theorem determinesIdentity_iff (cn : Bytes) : DeterminesIdentity cn ↔ ¬ HasInnerColon cn := by
  constructor
  · intro hdet hcolon
    obtain ⟨t, d, ht, hd, rfl⟩ := hasInnerColon_iff.1 hcolon
    exact not_determinesIdentity ht hd hdet
  · intro hcolon g₁ g₂ ins₁ ins₂ h₁ hm₁ h₂ hm₂
    obtain ⟨hd₁, hc₁⟩ := expectedCn_of_mem hm₁
    obtain ⟨hd₂, hc₂⟩ := expectedCn_of_mem hm₂
    obtain ⟨ht₁, hd₁⟩ := identity_of_not_hasInnerColon hcolon hd₁ hc₁
    obtain ⟨ht₂, hd₂⟩ := identity_of_not_hasInnerColon hcolon hd₂ hc₂
    simp [Hello.identity, Hello.rateKey, Stream.rateKey, ht₁, ht₂, hd₁, hd₂]

/-- The certificate of a tenant's camera also passes as a device without a tenant. -/
theorem tenant_certificate_not_determined :
    ¬ DeterminesIdentity (ascii "tenant-a:cam-0001") :=
  not_determinesIdentity (t := ascii "tenant-a") (d := ascii "cam-0001") (by decide) (by decide)

end Ridgeline
