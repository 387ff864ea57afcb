import Mathlib.Algebra.Order.Field.Rat
import Mathlib.Tactic.FieldSimp
import Ridgeline.Regulator
import Ridgeline.TokenBucket

/-!
# The token bucket as a regulator

A `TokenBucket` whose clock does not go back holds, when it is asked, the slack of what it has
granted (`Regulates.tracks`). So what it grants conforms to its capacity and rate, and it rejects
nothing of a stream of calls that conforms by itself. Whatever the clock does, no more is granted
than the capacity and what the rate adds up to the latest reading (`token_bucket_regulates`).
-/

namespace Ridgeline

/-- A call of `TryConsume`. -/
structure TokenCall where
  cost : ℚ
  nowNs : ℤ
  deriving DecidableEq, Repr

/-- The call as a request, with the time in nanoseconds. -/
def TokenCall.request (x : TokenCall) : Request ℚ :=
  ⟨x.cost, x.nowNs⟩

namespace TokenBucket

/-- The rate for each nanosecond. -/
def perNs (b : TokenBucket) : ℚ :=
  b.tokensPerSecond / 1000000000

/-- What a call is granted : its cost, or nothing. -/
def grant (b : TokenBucket) (x : TokenCall) : TokenCall :=
  if (b.tryConsume x.cost x.nowNs).1 then x else { x with cost := 0 }

/-- The bucket after some calls. -/
def after (b : TokenBucket) (xs : List TokenCall) : TokenBucket :=
  xs.foldl (fun b x => (b.tryConsume x.cost x.nowNs).2) b

/-- What the calls return. -/
def answers (b : TokenBucket) : List TokenCall → List Bool
  | [] => []
  | x :: xs => (b.tryConsume x.cost x.nowNs).1 :: answers (b.tryConsume x.cost x.nowNs).2 xs

/-- What the calls are granted. -/
def granted (b : TokenBucket) : List TokenCall → List TokenCall
  | [] => []
  | x :: xs => b.grant x :: granted (b.tryConsume x.cost x.nowNs).2 xs

variable {b : TokenBucket} {x : TokenCall}

/-! ## One call -/

@[simp] theorem capacity_refill (t : ℤ) : (b.refill t).capacity = b.capacity := by
  unfold refill
  split_ifs <;> rfl

@[simp] theorem perNs_refill (t : ℤ) : (b.refill t).perNs = b.perNs := by
  unfold refill
  split_ifs <;> rfl

theorem lastRefillNs_refill (t : ℤ) : (b.refill t).lastRefillNs = max b.lastRefillNs t := by
  unfold refill
  split_ifs with h
  · exact (max_eq_left h).symm
  · exact (max_eq_right (not_le.1 h).le).symm

theorem tokens_refill (hle : b.tokens ≤ b.capacity) {t : ℤ} (ht : b.lastRefillNs ≤ t) :
    (b.refill t).tokens = min b.capacity (b.tokens + b.perNs * (t - b.lastRefillNs)) := by
  unfold refill
  split_ifs with h
  · obtain rfl := le_antisymm ht h
    simp [hle]
  · simp only [perNs, Int.cast_sub]
    congr 2
    ring

/-- The two ends of `TryConsume`. -/
theorem tryConsume_cases (b : TokenBucket) (x : TokenCall) :
    (x.cost ≤ (b.refill x.nowNs).tokens ∧ b.grant x = x ∧ b.tryConsume x.cost x.nowNs =
      (true, { b.refill x.nowNs with tokens := (b.refill x.nowNs).tokens - x.cost })) ∨
    ((b.refill x.nowNs).tokens < x.cost ∧ b.grant x = { x with cost := 0 } ∧
      b.tryConsume x.cost x.nowNs = (false, b.refill x.nowNs)) := by
  by_cases h : (b.refill x.nowNs).tokens < x.cost
  · have heq : b.tryConsume x.cost x.nowNs = (false, b.refill x.nowNs) := if_pos h
    exact .inr ⟨h, by simp [grant, heq], heq⟩
  · have heq : b.tryConsume x.cost x.nowNs =
        (true, { b.refill x.nowNs with tokens := (b.refill x.nowNs).tokens - x.cost }) := if_neg h
    exact .inl ⟨not_lt.1 h, by simp [grant, heq], heq⟩

@[simp] theorem capacity_tryConsume : (b.tryConsume x.cost x.nowNs).2.capacity = b.capacity := by
  rcases tryConsume_cases b x with ⟨-, -, heq⟩ | ⟨-, -, heq⟩ <;> simp [heq]

@[simp] theorem perNs_tryConsume : (b.tryConsume x.cost x.nowNs).2.perNs = b.perNs := by
  rcases tryConsume_cases b x with ⟨-, -, heq⟩ | ⟨-, -, heq⟩ <;> rw [heq] <;>
    exact perNs_refill x.nowNs

theorem lastRefillNs_tryConsume :
    (b.tryConsume x.cost x.nowNs).2.lastRefillNs = max b.lastRefillNs x.nowNs := by
  rcases tryConsume_cases b x with ⟨-, -, heq⟩ | ⟨-, -, heq⟩ <;> rw [heq] <;>
    exact lastRefillNs_refill x.nowNs

theorem tokens_tryConsume : (b.tryConsume x.cost x.nowNs).2.tokens =
    (b.refill x.nowNs).tokens - (b.grant x).cost := by
  rcases tryConsume_cases b x with ⟨-, hgrant, heq⟩ | ⟨-, hgrant, heq⟩ <;> simp [hgrant, heq]

theorem nowNs_grant : (b.grant x).nowNs = x.nowNs := by
  rcases tryConsume_cases b x with ⟨-, hgrant, -⟩ | ⟨-, hgrant, -⟩ <;> rw [hgrant]

theorem grant_nonneg (hx : 0 ≤ x.cost) : 0 ≤ (b.grant x).cost := by
  rcases tryConsume_cases b x with ⟨-, hgrant, -⟩ | ⟨-, hgrant, -⟩ <;> rw [hgrant]
  exact hx

/-- The tokens are between none and the capacity, and refilling does not take any. -/
structure Within (b : TokenBucket) : Prop where
  rate : 0 ≤ b.perNs
  nonneg : 0 ≤ b.tokens
  le : b.tokens ≤ b.capacity

theorem Within.tokens_le_refill (hb : b.Within) (t : ℤ) : b.tokens ≤ (b.refill t).tokens := by
  rcases le_total t b.lastRefillNs with h | h
  · rw [TokenBucket.refill, if_pos h]
  · rw [tokens_refill hb.le h]
    have hadd : 0 ≤ b.perNs * (t - b.lastRefillNs) :=
      mul_nonneg hb.rate (sub_nonneg.2 (Int.cast_le.2 h))
    exact le_min hb.le (by linarith)

theorem Within.refill (hb : b.Within) (t : ℤ) : (b.refill t).Within where
  rate := by
    rw [perNs_refill]
    exact hb.rate
  nonneg := hb.nonneg.trans (hb.tokens_le_refill t)
  le := by
    rcases le_total t b.lastRefillNs with h | h
    · rw [TokenBucket.refill, if_pos h]
      exact hb.le
    · rw [tokens_refill hb.le h, capacity_refill]
      exact min_le_left _ _

theorem Within.grant_le (hb : b.Within) : (b.grant x).cost ≤ (b.refill x.nowNs).tokens := by
  rcases tryConsume_cases b x with ⟨hle, hgrant, -⟩ | ⟨-, hgrant, -⟩ <;> rw [hgrant]
  · exact hle
  · exact (hb.refill x.nowNs).nonneg

theorem Within.tryConsume (hb : b.Within) (hx : 0 ≤ x.cost) :
    (b.tryConsume x.cost x.nowNs).2.Within := by
  have hle := (hb.refill x.nowNs).le
  refine ⟨perNs_tryConsume.symm ▸ hb.rate, ?_, ?_⟩
  · rw [tokens_tryConsume]
    exact sub_nonneg.2 hb.grant_le
  · rw [tokens_tryConsume, capacity_tryConsume]
    rw [capacity_refill] at hle
    exact (sub_le_self _ (grant_nonneg hx)).trans hle

/-! ## A clock that does not go back -/

/-- The bucket has granted `h`, which conforms, and holds its slack. -/
structure Regulates (h : List TokenCall) (b : TokenBucket) : Prop extends b.Within where
  conforms : Conforms b.capacity b.perNs (h.map TokenCall.request)
  tracks : ∀ t : ℤ, b.lastRefillNs ≤ t →
    (b.refill t).tokens = slack b.capacity b.perNs (h.map TokenCall.request).reverse t

theorem regulates_create {capacity rate : ℚ} (start : ℤ) (hcap : 0 ≤ capacity) (hrate : 0 ≤ rate) :
    Regulates [] (create capacity rate start) := by
  have hwithin : (create capacity rate start).Within :=
    ⟨div_nonneg hrate (by norm_num), hcap, le_rfl⟩
  refine ⟨hwithin, conforms_nil, fun t ht => ?_⟩
  exact le_antisymm ((hwithin.refill t).le.trans_eq (capacity_refill t))
    (hwithin.tokens_le_refill t)

theorem Regulates.step {h : List TokenCall} (hb : Regulates h b) (hx : 0 ≤ x.cost)
    (ht : b.lastRefillNs ≤ x.nowNs) :
    Regulates (h ++ [b.grant x]) (b.tryConsume x.cost x.nowNs).2 := by
  have hwithin := hb.toWithin.tryConsume hx
  have htokens := hb.tracks x.nowNs ht
  have hrequest : (b.grant x).request = ⟨(b.grant x).cost, x.nowNs⟩ := by
    rw [TokenCall.request, nowNs_grant]
  refine ⟨hwithin, ?_, fun t htt => ?_⟩ <;>
    rw [List.map_append, List.map_singleton, capacity_tryConsume, perNs_tryConsume, hrequest]
  · rw [conforms_snoc_iff]
    exact ⟨hb.conforms, htokens ▸ hb.toWithin.grant_le⟩
  · rw [tokens_refill hwithin.le htt, capacity_tryConsume, perNs_tryConsume, tokens_tryConsume,
      lastRefillNs_tryConsume, max_eq_right ht, htokens, List.reverse_concat, slack]

/-- A call that conforms with what was granted before is granted. -/
theorem Regulates.grants {h : List TokenCall} (hb : Regulates h b) (ht : b.lastRefillNs ≤ x.nowNs)
    (hx : Conforms b.capacity b.perNs ((h ++ [x]).map TokenCall.request)) :
    (b.tryConsume x.cost x.nowNs).1 = true ∧ b.grant x = x := by
  rw [List.map_append, List.map_singleton, conforms_snoc_iff] at hx
  have hle : x.cost ≤ (b.refill x.nowNs).tokens := (hb.tracks x.nowNs ht).symm ▸ hx.2
  rcases tryConsume_cases b x with ⟨-, hgrant, heq⟩ | ⟨hlt, -, -⟩
  · exact ⟨by rw [heq], hgrant⟩
  · exact absurd hle (not_le.2 hlt)

/-- The clock is not before `start`, and does not go back. -/
def Ordered (start : ℤ) (xs : List TokenCall) : Prop :=
  (start :: xs.map TokenCall.nowNs).Pairwise (· ≤ ·)

instance (start : ℤ) (xs : List TokenCall) : Decidable (Ordered start xs) :=
  inferInstanceAs (Decidable (List.Pairwise _ _))

theorem Ordered.cons {xs : List TokenCall} (h : Ordered b.lastRefillNs (x :: xs)) :
    b.lastRefillNs ≤ x.nowNs ∧ Ordered (b.tryConsume x.cost x.nowNs).2.lastRefillNs xs := by
  rw [Ordered, List.map_cons, List.pairwise_cons] at h
  have hle := h.1 _ List.mem_cons_self
  rw [lastRefillNs_tryConsume, max_eq_right hle]
  exact ⟨hle, h.2⟩

theorem Regulates.granted_conforms : ∀ {xs h : List TokenCall} {b : TokenBucket},
    Regulates h b → (∀ x ∈ xs, 0 ≤ x.cost) → Ordered b.lastRefillNs xs →
      Conforms b.capacity b.perNs ((h ++ b.granted xs).map TokenCall.request)
  | [], h, b, hb, _, _ => by
    rw [granted, List.append_nil]
    exact hb.conforms
  | x :: xs, h, b, hb, hcost, htimes => by
    obtain ⟨hle, hrest⟩ := htimes.cons
    have hstep := hb.step (hcost x List.mem_cons_self) hle
    have := hstep.granted_conforms (fun y hy => hcost y (List.mem_cons_of_mem _ hy)) hrest
    rwa [capacity_tryConsume, perNs_tryConsume, List.append_assoc] at this

theorem Regulates.none_rejected : ∀ {xs h : List TokenCall} {b : TokenBucket},
    Regulates h b → (∀ x ∈ xs, 0 ≤ x.cost) → Ordered b.lastRefillNs xs →
      Conforms b.capacity b.perNs ((h ++ xs).map TokenCall.request) →
        ∀ answer ∈ b.answers xs, answer = true
  | [], _, _, _, _, _, _ => nofun
  | x :: xs, h, b, hb, hcost, htimes, hconf => by
    obtain ⟨hle, hrest⟩ := htimes.cons
    rw [List.append_cons] at hconf
    have hsnoc : Conforms b.capacity b.perNs ((h ++ [x]).map TokenCall.request) := by
      rw [List.map_append] at hconf
      exact hconf.of_append
    obtain ⟨hans, hgrant⟩ := hb.grants hle hsnoc
    have hstep := hb.step (hcost x List.mem_cons_self) hle
    rw [hgrant] at hstep
    refine List.forall_mem_cons.2 ⟨hans, ?_⟩
    refine hstep.none_rejected (fun y hy => hcost y (List.mem_cons_of_mem _ hy)) hrest ?_
    rwa [capacity_tryConsume, perNs_tryConsume]

/-! ## Any clock -/

theorem Within.after : ∀ {xs : List TokenCall} {b : TokenBucket}, b.Within →
    (∀ x ∈ xs, 0 ≤ x.cost) → (b.after xs).Within ∧ (b.after xs).capacity = b.capacity
  | [], _, hb, _ => ⟨hb, rfl⟩
  | x :: xs, b, hb, hcost => by
    obtain ⟨hwithin, hcap⟩ := (hb.tryConsume (hcost x List.mem_cons_self)).after
      fun y hy => hcost y (List.mem_cons_of_mem _ hy)
    exact ⟨hwithin, hcap.trans capacity_tryConsume⟩

/-- Refilling adds at most what the rate gives for the time that has passed. -/
theorem Within.refill_le (hb : b.Within) (t : ℤ) : (b.refill t).tokens ≤
    b.tokens + b.perNs * ((max b.lastRefillNs t : ℤ) - b.lastRefillNs) := by
  rcases le_total t b.lastRefillNs with h | h
  · rw [TokenBucket.refill, if_pos h, max_eq_left h]
    simp
  · rw [tokens_refill hb.le h, max_eq_right h]
    exact min_le_right _ _

/-- What is granted and what is left is at most what was there and what the rate has added. -/
theorem Within.total_granted : ∀ {xs : List TokenCall} {b : TokenBucket}, b.Within →
    (∀ x ∈ xs, 0 ≤ x.cost) →
      totalCost ((b.granted xs).map TokenCall.request) ≤ b.tokens +
        b.perNs * ((xs.foldl (fun m x => max m x.nowNs) b.lastRefillNs : ℤ) - b.lastRefillNs)
  | [], b, hb, _ => by simpa [granted, totalCost] using hb.nonneg
  | x :: xs, b, hb, hcost => by
    have ih := (hb.tryConsume (hcost x List.mem_cons_self)).total_granted
      fun y hy => hcost y (List.mem_cons_of_mem _ hy)
    have hrefill := hb.refill_le x.nowNs
    rw [perNs_tryConsume, tokens_tryConsume, lastRefillNs_tryConsume] at ih
    rw [List.foldl_cons]
    simp only [granted, totalCost, List.map_cons, List.sum_cons] at ih ⊢
    have hcost : (b.grant x).request.cost = (b.grant x).cost := rfl
    linarith

/-! ## The regulator -/

/-- What a bucket does with the calls `xs`. -/
structure ExactRegulator (capacity rate : ℚ) (start : ℤ) (xs : List TokenCall) : Prop where
  tokens : ∀ ys, ys <+: xs → 0 ≤ ((create capacity rate start).after ys).tokens ∧
    ((create capacity rate start).after ys).tokens ≤ capacity
  /-- In every window, what is granted is within the capacity and what the rate adds. -/
  windows : Ordered start xs → Conforms capacity (rate / 1000000000)
    (((create capacity rate start).granted xs).map TokenCall.request)
  /-- If what is asked for is within that in every window, no call is rejected. -/
  conversely : Ordered start xs → Conforms capacity (rate / 1000000000)
    (xs.map TokenCall.request) → ∀ answer ∈ (create capacity rate start).answers xs, answer = true
  /-- With any clock, the same holds of all that is granted since `start`. -/
  total : totalCost (((create capacity rate start).granted xs).map TokenCall.request) ≤
    capacity + rate / 1000000000 * ((xs.foldl (fun m x => max m x.nowNs) start : ℤ) - start)

/-- For every capacity, rate and start time, and all calls with costs that are not negative. -/
theorem token_bucket_regulates {capacity rate : ℚ} (start : ℤ) (hcap : 0 < capacity)
    (hrate : 0 ≤ rate) {xs : List TokenCall} (hcost : ∀ x ∈ xs, 0 ≤ x.cost) :
    ExactRegulator capacity rate start xs := by
  have hcreate := regulates_create start hcap.le hrate
  exact {
    tokens := fun ys hys => by
      obtain ⟨hwithin, hcapacity⟩ := hcreate.toWithin.after fun x hx => hcost x (hys.subset hx)
      exact ⟨hwithin.nonneg, hwithin.le.trans_eq hcapacity⟩
    windows := fun htimes => hcreate.granted_conforms hcost htimes
    conversely := fun htimes hconf => hcreate.none_rejected hcost htimes hconf
    total := hcreate.toWithin.total_granted hcost }

/-- Three calls at once on a bucket of two tokens, and one a second later. -/
def burstCalls : List TokenCall :=
  [⟨1, 0⟩, ⟨1, 0⟩, ⟨1, 0⟩, ⟨1, 1000000000⟩]

theorem token_bucket_regulates_burst :
    (create 2 1 0).answers burstCalls = [true, true, false, true] ∧ Ordered 0 burstCalls ∧
      ExactRegulator 2 1 0 burstCalls :=
  ⟨by decide +kernel, by decide, token_bucket_regulates 0 (by decide) (by decide) (by decide)⟩

end TokenBucket

end Ridgeline
