import Mathlib.Data.List.Basic

/-!
# Self-delimiting records

A `Framing` is a codec for records written one after the other : a record's encoding
followed by anything decodes to the record and leaves the rest, and whatever decodes is
the encoding of what it decoded to. `Framing.records` decodes from the front until a
record fails, and `Framing.tail` is what is left there.

Every byte string is the encodings of its records followed by its tail
(`encodeAll_records_append_tail`), a log decodes to what was written
(`records_encodeAll_append`), and a proper prefix of an encoding never decodes
(`decode_take_encode`), so a torn last record is a tail, and a log cut anywhere decodes to the
records that are complete (`longestFit_records_take`).
-/

namespace Ridgeline

/-- A codec of records of type `α` over the alphabet `β`. -/
structure Framing (α β : Type*) where
  encode : α → List β
  decode : List β → Option (α × List β)
  /-- The records the decoder takes back. -/
  Valid : α → Prop
  encode_ne_nil : ∀ a, encode a ≠ []
  decode_encode : ∀ a bs, Valid a → decode (encode a ++ bs) = some (a, bs)
  decode_sound : ∀ a bs cs, decode bs = some (a, cs) → Valid a ∧ bs = encode a ++ cs

namespace Framing

variable {α β : Type*} (F : Framing α β)

/-- Decode at most `n` records from the front, and return them with what is left. -/
def decodeUpTo : ℕ → List β → List α × List β
  | 0, bs => ([], bs)
  | n + 1, bs =>
    match F.decode bs with
    | none => ([], bs)
    | some (a, cs) => (a :: (decodeUpTo n cs).1, (decodeUpTo n cs).2)

/-- The records at the front of `bs`, up to the first that fails to decode. -/
def records (bs : List β) : List α :=
  (F.decodeUpTo bs.length bs).1

/-- What follows the last record that decodes. -/
def tail (bs : List β) : List β :=
  (F.decodeUpTo bs.length bs).2

/-- The encodings of `as`, one after the other. -/
def encodeAll (as : List α) : List β :=
  as.flatMap F.encode

@[simp] theorem encodeAll_nil : F.encodeAll [] = [] :=
  rfl

@[simp] theorem encodeAll_cons (a : α) (as : List α) :
    F.encodeAll (a :: as) = F.encode a ++ F.encodeAll as :=
  rfl

@[simp] theorem encodeAll_append (as bs : List α) :
    F.encodeAll (as ++ bs) = F.encodeAll as ++ F.encodeAll bs := by
  simp [encodeAll]

variable {F}

theorem decode_nil : F.decode [] = none := by
  cases h : F.decode [] with
  | none => rfl
  | some p =>
    obtain ⟨-, hnil⟩ := F.decode_sound p.1 [] p.2 h
    exact (F.encode_ne_nil p.1 (List.append_eq_nil_iff.1 hnil.symm).1).elim

theorem length_lt_of_decode {a : α} {bs cs : List β} (h : F.decode bs = some (a, cs)) :
    cs.length < bs.length := by
  obtain ⟨-, rfl⟩ := F.decode_sound a bs cs h
  have := List.length_pos_iff.2 (F.encode_ne_nil a)
  simp
  omega

/-- Fuel beyond the length changes nothing. -/
theorem decodeUpTo_eq : ∀ {n m : ℕ} {bs : List β}, bs.length ≤ n → bs.length ≤ m →
    F.decodeUpTo n bs = F.decodeUpTo m bs
  | 0, m, bs, hn, _ => by
    rw [List.length_eq_zero_iff.1 (Nat.le_zero.1 hn)]
    cases m <;> simp [decodeUpTo, decode_nil]
  | n + 1, 0, bs, _, hm => by
    rw [List.length_eq_zero_iff.1 (Nat.le_zero.1 hm)]
    simp [decodeUpTo, decode_nil]
  | n + 1, m + 1, bs, hn, hm => by
    cases h : F.decode bs with
    | none => simp [decodeUpTo, h]
    | some p =>
      have hlt := length_lt_of_decode h
      have ih : F.decodeUpTo n p.2 = F.decodeUpTo m p.2 := decodeUpTo_eq (by omega) (by omega)
      simp [decodeUpTo, h, ih]

theorem records_of_decode_none {bs : List β} (h : F.decode bs = none) : F.records bs = [] := by
  unfold records
  cases bs.length <;> simp [decodeUpTo, h]

theorem tail_of_decode_none {bs : List β} (h : F.decode bs = none) : F.tail bs = bs := by
  unfold tail
  cases bs.length <;> simp [decodeUpTo, h]

theorem decodeUpTo_of_decode {a : α} {bs cs : List β} (h : F.decode bs = some (a, cs)) :
    F.decodeUpTo bs.length bs = (a :: F.records cs, F.tail cs) := by
  have hlt := length_lt_of_decode h
  obtain ⟨n, hn⟩ : ∃ n, bs.length = n + 1 := ⟨bs.length - 1, by omega⟩
  have hfuel : F.decodeUpTo n cs = F.decodeUpTo cs.length cs :=
    decodeUpTo_eq (by omega) (Nat.le_refl _)
  rw [hn, decodeUpTo, h]
  simp only [hfuel, records, tail]

theorem records_of_decode {a : α} {bs cs : List β} (h : F.decode bs = some (a, cs)) :
    F.records bs = a :: F.records cs := by
  rw [records, decodeUpTo_of_decode h]

theorem tail_of_decode {a : α} {bs cs : List β} (h : F.decode bs = some (a, cs)) :
    F.tail bs = F.tail cs := by
  rw [tail, decodeUpTo_of_decode h]

/-- Induction along the records of a byte string. -/
theorem decode_induction {P : List β → Prop} (stop : ∀ bs, F.decode bs = none → P bs)
    (next : ∀ a bs cs, F.decode bs = some (a, cs) → P cs → P bs) (bs : List β) : P bs := by
  cases h : F.decode bs with
  | none => exact stop bs h
  | some p =>
    have := length_lt_of_decode h
    exact next p.1 bs p.2 h (decode_induction stop next p.2)
  termination_by bs.length

/-- A byte string is its records' encodings and its tail. -/
theorem encodeAll_records_append_tail (bs : List β) :
    F.encodeAll (F.records bs) ++ F.tail bs = bs := by
  induction bs using F.decode_induction with
  | stop bs h => simp [records_of_decode_none h, tail_of_decode_none h]
  | next a bs cs h ih =>
    rw [records_of_decode h, tail_of_decode h, encodeAll_cons, List.append_assoc, ih]
    exact (F.decode_sound a bs cs h).2.symm

/-- Nothing decodes at the tail. -/
theorem decode_tail (bs : List β) : F.decode (F.tail bs) = none := by
  induction bs using F.decode_induction with
  | stop bs h => rwa [tail_of_decode_none h]
  | next a bs cs h ih => rwa [tail_of_decode h]

theorem valid_of_mem_records (bs : List β) : ∀ a ∈ F.records bs, F.Valid a := by
  induction bs using F.decode_induction with
  | stop bs h => simp [records_of_decode_none h]
  | next a bs cs h ih =>
    rw [records_of_decode h]
    rintro b (_ | ⟨_, hb⟩)
    · exact (F.decode_sound a bs cs h).1
    · exact ih b hb

theorem decode_encodeAll_cons {a : α} (as : List α) (bs : List β) (ha : F.Valid a) :
    F.decode (F.encodeAll (a :: as) ++ bs) = some (a, F.encodeAll as ++ bs) := by
  rw [encodeAll_cons, List.append_assoc]
  exact F.decode_encode a _ ha

/-- Records written before `bs` are read before the records of `bs`. -/
theorem records_encodeAll_append : ∀ {as : List α} (bs : List β), (∀ a ∈ as, F.Valid a) →
    F.records (F.encodeAll as ++ bs) = as ++ F.records bs
  | [], bs, _ => rfl
  | a :: as, bs, h => by
    rw [records_of_decode (decode_encodeAll_cons as bs (h a (by simp))),
      records_encodeAll_append bs fun b hb => h b (by simp [hb])]
    rfl

theorem tail_encodeAll_append : ∀ {as : List α} (bs : List β), (∀ a ∈ as, F.Valid a) →
    F.tail (F.encodeAll as ++ bs) = F.tail bs
  | [], bs, _ => rfl
  | a :: as, bs, h => by
    rw [tail_of_decode (decode_encodeAll_cons as bs (h a (by simp))),
      tail_encodeAll_append bs fun b hb => h b (by simp [hb])]

theorem records_encodeAll {as : List α} (h : ∀ a ∈ as, F.Valid a) :
    F.records (F.encodeAll as) = as := by
  simpa [records_of_decode_none decode_nil] using F.records_encodeAll_append [] h

theorem tail_encodeAll {as : List α} (h : ∀ a ∈ as, F.Valid a) : F.tail (F.encodeAll as) = [] := by
  simpa [tail_of_decode_none decode_nil] using F.tail_encodeAll_append [] h

/-- A torn record does not decode : were a prefix of `a`'s encoding to decode, `a` would
decode from that prefix too. -/
theorem decode_take_encode {a : α} (ha : F.Valid a) {k : ℕ} (hk : k < (F.encode a).length) :
    F.decode ((F.encode a).take k) = none := by
  cases h : F.decode ((F.encode a).take k) with
  | none => rfl
  | some p =>
    obtain ⟨b, cs⟩ := p
    obtain ⟨hb, hsplit⟩ := F.decode_sound b _ cs h
    have hwhole : F.encode a ++ [] = F.encode b ++ (cs ++ (F.encode a).drop k) := by
      rw [← List.append_assoc, ← hsplit, List.take_append_drop, List.append_nil]
    have hdec := F.decode_encode a [] ha
    rw [hwhole, F.decode_encode b _ hb, Option.some.injEq, Prod.mk.injEq] at hdec
    have hdrop := (List.append_eq_nil_iff.1 hdec.2).2
    rw [List.drop_eq_nil_iff] at hdrop
    omega

variable (F) in
/-- `ps` is the longest part of `as` from the front with an encoding of at most `n` symbols. -/
structure LongestFit (n : ℕ) (as ps : List α) : Prop where
  initial : ps <+: as
  fits : (F.encodeAll ps).length ≤ n
  longest : ∀ qs, qs <+: as → (F.encodeAll qs).length ≤ n → qs <+: ps

theorem LongestFit.cons {n : ℕ} {a : α} {as ps : List α} (ha : (F.encode a).length ≤ n)
    (h : F.LongestFit (n - (F.encode a).length) as ps) : F.LongestFit n (a :: as) (a :: ps) where
  initial := List.cons_prefix_cons.2 ⟨rfl, h.initial⟩
  fits := by
    have := h.fits
    rw [encodeAll_cons, List.length_append]
    omega
  longest := by
    rintro (_ | ⟨q, qs⟩) hqs hfits
    · exact List.nil_prefix
    · obtain ⟨rfl, hrest⟩ := List.cons_prefix_cons.1 hqs
      rw [encodeAll_cons, List.length_append] at hfits
      exact List.cons_prefix_cons.2 ⟨rfl, h.longest qs hrest (by omega)⟩

theorem longestFit_nil {n : ℕ} {a : α} {as : List α} (ha : n < (F.encode a).length) :
    F.LongestFit n (a :: as) [] where
  initial := List.nil_prefix
  fits := Nat.zero_le n
  longest := by
    rintro (_ | ⟨q, qs⟩) hqs hfits
    · exact List.nil_prefix
    · obtain ⟨rfl, -⟩ := List.cons_prefix_cons.1 hqs
      rw [encodeAll_cons, List.length_append] at hfits
      omega

/-- A log cut behind `n` symbols decodes to the records that are complete there. -/
theorem longestFit_records_take : ∀ {as : List α} (n : ℕ), (∀ a ∈ as, F.Valid a) →
    F.LongestFit n as (F.records ((F.encodeAll as).take n))
  | [], n, _ => by
    rw [encodeAll_nil, List.take_nil, records_of_decode_none decode_nil]
    exact ⟨List.prefix_refl [], Nat.zero_le n, fun qs hqs _ => hqs⟩
  | a :: as, n, h => by
    have ha := h a List.mem_cons_self
    rw [encodeAll_cons]
    rcases Nat.lt_or_ge n (F.encode a).length with hlt | hge
    · rw [List.take_append_of_le_length (Nat.le_of_lt hlt),
        records_of_decode_none (decode_take_encode ha hlt)]
      exact longestFit_nil hlt
    · rw [List.take_append, List.take_of_length_le hge,
        records_of_decode (F.decode_encode a _ ha)]
      exact (longestFit_records_take _ fun b hb => h b (List.mem_cons_of_mem _ hb)).cons hge

end Framing

end Ridgeline
