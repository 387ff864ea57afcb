import Ridgeline.MissingNumbers
import Ridgeline.StreamAccounting

/-!
# The events reported as lost

`attributed_lost` is what is left of the gaps when the detections that the rate limiter rejected
are taken from them. A gap is counted when a detection behind it is accepted, so it holds what
never arrived and what was rejected, by the rate limiter or by Kafka, up to the last accepted
detection (`gapEvents_eq`). The rejections of the rate limiter behind that detection are
subtracted although they are in no gap, and those of Kafka are not subtracted at all
(`attributedLost_eq`).

So the figure is the number of events that never arrived only if the errors cancel, or if nothing
is missing and the clamp hides them (`lost_exact_iff`).
-/

namespace Ridgeline

/-! ## What arrived -/

/-- What the rate limiter and Kafka make of a detection that is not a duplicate. -/
inductive Verdict
  | accepted
  | rateLimited
  | kafkaFailed
  deriving DecidableEq, Repr

/-- The rate limiter is asked first, and Kafka only if it is configured. -/
def verdict (g : Integrations) (ans : Answers) : Verdict :=
  if !ans.rateOk then .rateLimited
  else if g.kafka && !ans.published then .kafkaFailed
  else .accepted

theorem verdict_eq_accepted {g : Integrations} {ans : Answers} :
    verdict g ans = .accepted ↔ Stream.passes g ans := by
  unfold verdict Stream.passes
  cases ans.rateOk <;> cases g.kafka <;> cases ans.published <;> decide

namespace Account

/-- The seqs of the detections, in the order in which they arrive. -/
def seqs (xs : List Delivery) : List UInt64 :=
  xs.map (·.1.seq)

/-- The seqs increase, and are greater than `b`. -/
def Increasing (b : UInt64) (xs : List Delivery) : Prop :=
  (b :: seqs xs).Pairwise (· < ·)

instance (b : UInt64) (xs : List Delivery) : Decidable (Increasing b xs) :=
  inferInstanceAs (Decidable (List.Pairwise _ _))

/-- The largest seq received. -/
def largest (b : UInt64) (xs : List Delivery) : UInt64 :=
  (b :: seqs xs).max (List.cons_ne_nil _ _)

/-- The number of seqs `s` with `a < s ≤ m` for which no detection arrived. -/
def neverArrived (xs : List Delivery) (a m : UInt64) : ℕ :=
  missing ((seqs xs).map UInt64.toNat) a.toNat m.toNat

variable (g : Integrations)

/-- The seq of the last detection that is accepted. -/
def lastAccepted (b : UInt64) (xs : List Delivery) : UInt64 :=
  (seqs (xs.filter fun x => verdict g x.2 = .accepted)).getLastD b

/-- The number of detections with a verdict, among those with a seq in `p`. -/
def tally (v : Verdict) (p : UInt64 → Bool) (xs : List Delivery) : ℕ :=
  xs.countP fun x => verdict g x.2 = v && p x.1.seq

/-- The publishes that fail before the last accepted detection are as many as what the figure
leaves out behind it, or nothing is missing and they are not more than what is subtracted. -/
def ErrorsCancel (b : UInt64) (xs : List Delivery) : Prop :=
  let last := lastAccepted g b xs
  let failed := tally g .kafkaFailed (· ≤ last) xs
  let rejected := tally g .rateLimited (last < ·) xs
  failed = rejected + neverArrived xs last (largest b xs) ∨
    (neverArrived xs b (largest b xs) = 0 ∧ failed ≤ rejected)

instance (b : UInt64) (xs : List Delivery) : Decidable (ErrorsCancel g b xs) :=
  inferInstanceAs (Decidable (_ ∨ _))

variable {g} {b : UInt64} {s : Account} {xs : List Delivery}

theorem Increasing.nodup (h : Increasing b xs) : ((seqs xs).map UInt64.toNat).Nodup :=
  (List.pairwise_cons.1 h).2.map _ fun _ _ hlt => (UInt64.lt_iff_toNat_lt.1 hlt).ne

theorem Increasing.of_snoc {x : Delivery} (h : Increasing b (xs ++ [x])) :
    Increasing b xs ∧ ∀ n ∈ b :: seqs xs, n < x.1.seq := by
  rw [Increasing, seqs, List.map_append, ← List.cons_append, List.pairwise_append] at h
  exact ⟨h.1, fun n hn => h.2.2 n hn _ (List.mem_singleton.2 rfl)⟩

/-- What arrived up to `m` and what never arrived are all the seqs from `b` to `m`. -/
theorem neverArrived_add (h : Increasing b xs) (m : UInt64) :
    neverArrived xs b m + xs.countP (fun x => x.1.seq ≤ m) = m.toNat - b.toNat := by
  rw [neverArrived, ← missing_add_countP h.nodup b.toNat m.toNat, seqs, List.map_map,
    List.countP_map]
  congr 1
  refine List.countP_congr fun x hx => ?_
  have hlt := (List.pairwise_cons.1 h).1 x.1.seq (List.mem_map_of_mem hx)
  simp [UInt64.le_iff_toNat_le, UInt64.lt_iff_toNat_lt.1 hlt]

theorem Increasing.length_lt (h : Increasing b xs) : xs.length < 2 ^ 64 := by
  have hadd := neverArrived_add h 18446744073709551615
  have hall : xs.countP (fun x => x.1.seq ≤ 18446744073709551615) = xs.length :=
    List.countP_eq_length.2 fun x _ => by
      have := x.1.seq.toNat_lt
      simp [UInt64.le_iff_toNat_le]
      omega
  have : (18446744073709551615 : UInt64).toNat = 2 ^ 64 - 1 := rfl
  omega

/-! ## What is counted -/

/-- The variables of the stream after the deliveries `xs`. -/
structure Tallied (g : Integrations) (b : UInt64) (xs : List Delivery) (s : Account) : Prop where
  inv : s.Inv b
  lastSeq : s.stream.lastSeq = lastAccepted g b xs
  accepted : s.accepted = seqs (xs.filter fun x => verdict g x.2 = .accepted)
  received : s.stream.received = UInt64.ofNat (tally g .accepted (fun _ => true) xs)
  rateLimited : s.stream.rateLimited = UInt64.ofNat (tally g .rateLimited (fun _ => true) xs)

theorem tallied_start {certCn : Option Bytes} {h : Hello}
    (hok : (({} : Stream).onHello certCn h).status = none) (hdurable : h.durableResume = true) :
    Tallied g h.lastAckedSeq [] (start certCn h) where
  inv := inv_start hok hdurable
  lastSeq := by rw [start, Stream.stream_onHello hok]; rfl
  accepted := rfl
  received := by rw [start, Stream.stream_onHello hok]; rfl
  rateLimited := by rw [start, Stream.stream_onHello hok]; rfl

theorem tally_snoc (v : Verdict) (p : UInt64 → Bool) (xs : List Delivery) (x : Delivery) :
    tally g v p (xs ++ [x]) =
      tally g v p xs + if verdict g x.2 = v ∧ p x.1.seq then 1 else 0 := by
  simp [tally, List.countP_append, List.countP_cons]

/-- A detection that is rejected changes one counter at most. -/
theorem Tallied.reject {t : Account} {x : Delivery} (hs : Tallied g b xs s) (hinv : t.Inv b)
    (hv : verdict g x.2 ≠ .accepted) (haccepted : t.accepted = s.accepted)
    (hstream : t.stream.lastSeq = s.stream.lastSeq ∧ t.stream.received = s.stream.received)
    (hrate : t.stream.rateLimited =
      UInt64.ofNat (tally g .rateLimited (fun _ => true) (xs ++ [x]))) :
    Tallied g b (xs ++ [x]) t := by
  have hfilter : (xs ++ [x]).filter (fun x => verdict g x.2 = .accepted) =
      xs.filter fun x => verdict g x.2 = .accepted := by simp [hv]
  exact {
    inv := hinv
    lastSeq := by rw [lastAccepted, hfilter, hstream.1]; exact hs.lastSeq
    accepted := by rw [hfilter, haccepted]; exact hs.accepted
    received := by rw [tally_snoc, hstream.2]; simpa [hv] using hs.received
    rateLimited := hrate }

theorem Tallied.step {t : Account} {x : Delivery} (hs : Tallied g b xs s)
    (hinc : Increasing b (xs ++ [x])) (h : s.step g x = some t) : Tallied g b (xs ++ [x]) t := by
  have hinv := inv_step s x t hs.inv h
  have hnew : s.stream.lastSeq < x.1.seq := by
    have hmem : s.stream.lastSeq ∈ b :: seqs xs := by
      rcases hs.inv.last with hbase | hacc
      · exact hbase ▸ List.mem_cons_self
      · refine List.mem_cons_of_mem _ ?_
        rw [hs.accepted] at hacc
        exact (List.filter_sublist.map _).subset hacc
    exact hinc.of_snoc.2 _ hmem
  rcases step_cases hs.inv.device h with ⟨hle, -⟩ | ⟨-, hrate, rfl⟩ |
    ⟨-, hrate, hkafka, hpub, rfl⟩ | ⟨-, hpass, n, published, e, -, rfl⟩
  · exact absurd hnew (not_lt.2 hle)
  · have hv : verdict g x.2 = .rateLimited := by simp [verdict, hrate]
    refine hs.reject hinv (by simp [hv]) rfl ⟨rfl, rfl⟩ ?_
    rw [tally_snoc]
    simp [hv, hs.rateLimited, UInt64.ofNat_add]
  · have hv : verdict g x.2 = .kafkaFailed := by simp [verdict, hrate, hkafka, hpub]
    refine hs.reject hinv (by simp [hv]) rfl ⟨rfl, rfl⟩ ?_
    rw [tally_snoc]
    simpa [hv] using hs.rateLimited
  · have hv : verdict g x.2 = .accepted := verdict_eq_accepted.2 hpass
    have hfilter : seqs ((xs ++ [x]).filter fun x => verdict g x.2 = .accepted) =
        seqs (xs.filter fun x => verdict g x.2 = .accepted) ++ [x.1.seq] := by
      simp [seqs, hv]
    exact {
      inv := hinv
      lastSeq := by rw [lastAccepted, hfilter, List.getLastD_concat]; rfl
      accepted := by rw [hfilter, ← hs.accepted]
      received := by rw [tally_snoc]; simp [hv, Stream.accept, hs.received, UInt64.ofNat_add]
      rateLimited := by rw [tally_snoc]; simpa [hv, Stream.accept] using hs.rateLimited }

theorem tallied_of_exec {s₀ : Account} (h₀ : Tallied g b [] s₀) :
    ∀ {xs : List Delivery} {s : Account}, Increasing b xs → exec (Account.step g) s₀ xs = some s →
      Tallied g b xs s := by
  intro xs
  induction xs using List.reverseRecOn with
  | nil =>
    rintro s - hs
    exact Option.some.inj hs ▸ h₀
  | append_singleton xs x ih =>
    intro s hinc hs
    obtain ⟨t, ht, hstep⟩ := exec_snoc_iff.1 hs
    exact (ih hinc.of_snoc.1 ht).step hinc hstep

/-- The detections that arrived up to `m`, by verdict. -/
theorem countP_le_eq {m : UInt64} : ∀ {xs : List Delivery},
    (∀ x ∈ xs, verdict g x.2 = .accepted → x.1.seq ≤ m) → xs.countP (fun x => x.1.seq ≤ m) =
      tally g .accepted (fun _ => true) xs + tally g .rateLimited (· ≤ m) xs +
        tally g .kafkaFailed (· ≤ m) xs
  | [], _ => rfl
  | x :: xs, h => by
    have ih := countP_le_eq fun y hy => h y (List.mem_cons_of_mem _ hy)
    have hx := h x List.mem_cons_self
    simp only [tally, List.countP_cons] at ih ⊢
    by_cases hle : x.1.seq ≤ m <;> cases hv : verdict g x.2 <;> simp_all <;> omega

theorem tally_split (v : Verdict) (m : UInt64) : ∀ xs : List Delivery,
    tally g v (fun _ => true) xs = tally g v (· ≤ m) xs + tally g v (m < ·) xs
  | [] => rfl
  | x :: xs => by
    have ih := tally_split v m xs
    simp only [tally, List.countP_cons, Bool.and_true] at ih ⊢
    by_cases hle : x.1.seq ≤ m <;> by_cases hv : verdict g x.2 = v <;>
      simp [hle, hv, not_lt.2, not_le.1] <;> omega

/-- With increasing seqs, no counter of the detections wraps. -/
theorem Increasing.toNat_tally (h : Increasing b xs) (v : Verdict) (p : UInt64 → Bool) :
    (UInt64.ofNat (tally g v p xs)).toNat = tally g v p xs := by
  rw [UInt64.toNat_ofNat']
  exact Nat.mod_eq_of_lt (List.countP_le_length.trans_lt h.length_lt)

/-- The gaps are what never arrived and what was rejected up to the last accepted detection. -/
theorem Tallied.gapEvents_eq (hs : Tallied g b xs s) (hinc : Increasing b xs) :
    s.stream.gapEvents.toNat = neverArrived xs b s.stream.lastSeq +
      tally g .rateLimited (· ≤ s.stream.lastSeq) xs +
        tally g .kafkaFailed (· ≤ s.stream.lastSeq) xs := by
  have hbelow : ∀ x ∈ xs, verdict g x.2 = .accepted → x.1.seq ≤ s.stream.lastSeq := by
    intro x hx hv
    refine hs.inv.below _ ?_
    rw [hs.accepted]
    exact List.mem_map_of_mem (List.mem_filter.2 ⟨hx, by simp [hv]⟩)
  have harrived := neverArrived_add hinc s.stream.lastSeq
  have hreceived : s.stream.received.toNat = tally g .accepted (fun _ => true) xs := by
    rw [hs.received, hinc.toNat_tally]
  have hlast := hs.inv.lastSeq
  rw [countP_le_eq hbelow] at harrived
  omega

/-- The clamped difference is the one of natural numbers. -/
theorem toNat_attributedLost (st : Stream) :
    st.attributedLost.toNat = st.gapEvents.toNat - st.rateLimited.toNat := by
  unfold Stream.attributedLost
  split_ifs with hlt
  · exact UInt64.toNat_sub_of_le _ _ (le_of_lt hlt)
  · have hle := UInt64.le_iff_toNat_le.1 (not_lt.1 hlt)
    exact (Nat.sub_eq_zero_of_le hle).symm

theorem Tallied.attributedLost_eq (hs : Tallied g b xs s) (hinc : Increasing b xs) :
    s.stream.attributedLost.toNat = neverArrived xs b s.stream.lastSeq +
      tally g .kafkaFailed (· ≤ s.stream.lastSeq) xs -
        tally g .rateLimited (s.stream.lastSeq < ·) xs := by
  have hgap := hs.gapEvents_eq hinc
  have hrate : s.stream.rateLimited.toNat =
      tally g .rateLimited (· ≤ s.stream.lastSeq) xs +
        tally g .rateLimited (s.stream.lastSeq < ·) xs := by
    rw [hs.rateLimited, hinc.toNat_tally, tally_split .rateLimited s.stream.lastSeq]
  rw [toNat_attributedLost]
  omega

/-- For every stream with one Hello, of durable state, and detections with increasing seqs behind
it, the figure is the number of seqs up to the largest one received that never arrived exactly
when the errors cancel. -/
theorem lost_exact_iff (g : Integrations) (certCn : Option Bytes) {h : Hello}
    (hok : (({} : Stream).onHello certCn h).status = none) (hdurable : h.durableResume = true)
    {xs : List Delivery} (hinc : Increasing h.lastAckedSeq xs)
    (hs : exec (Account.step g) (start certCn h) xs = some s) :
    s.stream.attributedLost.toNat =
        neverArrived xs h.lastAckedSeq (largest h.lastAckedSeq xs) ↔
      ErrorsCancel g h.lastAckedSeq xs := by
  have htallied := tallied_of_exec (tallied_start hok hdurable) hinc hs
  have hlost := htallied.attributedLost_eq hinc
  have hlast := htallied.inv.lastSeq
  have hle : lastAccepted g h.lastAckedSeq xs ≤ largest h.lastAckedSeq xs := by
    refine List.le_max_of_mem ?_
    have hmem := List.getLastD_mem_cons
      (l := seqs (xs.filter fun x => verdict g x.2 = .accepted)) (a := h.lastAckedSeq)
    exact List.cons_subset_cons _ (List.filter_sublist.map _).subset hmem
  rw [htallied.lastSeq] at hlost hlast
  have hsplit : neverArrived xs h.lastAckedSeq (lastAccepted g h.lastAckedSeq xs) +
      neverArrived xs (lastAccepted g h.lastAckedSeq xs) (largest h.lastAckedSeq xs) =
        neverArrived xs h.lastAckedSeq (largest h.lastAckedSeq xs) :=
    missing_add_missing _ (by omega) (UInt64.le_iff_toNat_le.1 hle)
  simp only [ErrorsCancel]
  omega

/-- Seq 5 never arrives, and 7 is rejected by the rate limiter before 8 is accepted. -/
def rejectedInside : List Delivery :=
  [(⟨6, []⟩, {}), (⟨7, []⟩, { rateOk := false }), (⟨8, []⟩, {})]

theorem lost_exact_rejectedInside : ∃ s,
    exec (Account.step ⟨true, false, false, false⟩) (start none helloAt4) rejectedInside = some s ∧
      s.stream.attributedLost.toNat = neverArrived rejectedInside 4 (largest 4 rejectedInside) := by
  obtain ⟨s, hs, -⟩ : ∃ s, exec (Account.step ⟨true, false, false, false⟩) (start none helloAt4)
      rejectedInside = some s ∧ s.stream.attributedLost = 1 := exists_exec_of_any (by decide)
  exact ⟨s, hs, (lost_exact_iff _ none (h := helloAt4) rfl rfl (by decide) hs).2 (by decide)⟩

/-- Seq 5 never arrives, and the last detection is rejected by the rate limiter. -/
def rejectedBehind : List Delivery :=
  [(⟨6, []⟩, {}), (⟨7, []⟩, { rateOk := false })]

/-- Every seq arrives, and the publish of the first detection fails. -/
def failedInside : List Delivery :=
  [(⟨5, []⟩, { published := false }), (⟨6, []⟩, {})]

/-- The event that never arrived is hidden, and the one whose publish failed is reported. -/
theorem lost_hidden_and_invented :
    (Increasing 4 rejectedBehind ∧ Increasing 4 failedInside) ∧
    (∃ s, exec (Account.step ⟨true, false, false, false⟩) (start none helloAt4) rejectedBehind =
        some s ∧ s.stream.attributedLost.toNat = 0 ∧
          neverArrived rejectedBehind 4 (largest 4 rejectedBehind) = 1) ∧
      ∃ s, exec (Account.step ⟨true, false, false, false⟩) (start none helloAt4) failedInside =
        some s ∧ s.stream.attributedLost.toNat = 1 ∧
          neverArrived failedInside 4 (largest 4 failedInside) = 0 :=
  ⟨by decide, exists_exec_of_any (by decide), exists_exec_of_any (by decide)⟩

end Account

end Ridgeline
