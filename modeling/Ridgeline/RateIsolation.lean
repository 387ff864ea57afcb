import Mathlib.Logic.Function.Basic
import Ridgeline.Ingest
import Ridgeline.TokenRegulator
import Ridgeline.Transition

/-!
# Rate limiting under concurrent streams

Every stream of the gateway calls `CheckRateLimit` from its own thread, and the map of buckets is
behind `rate_limiter_mu_`. Here a call is made one access at a time : it takes the lock, finds the
bucket of its key or puts a new one into the map, consumes, and releases the lock. Any number of
streams may be in a call, and the clock may show anything.

A call that has been decided was decided as `checkRateLimit` would have done in one step, in the
order of the decisions (`Serial`). The key of a bucket determines the principal it is charged to
(`Principal.key_injective`). So what one principal is answered depends on its own calls only : it is
what a bucket that belongs to it alone answers (`rate_decisions_isolated`).
-/

namespace Ridgeline

/-! ## The calls, one access at a time -/

/-- A call of `CheckRateLimit` : the stream that makes it, and what the clock shows in it. -/
structure RateCall where
  stream : Stream
  now : RateClock
  deriving DecidableEq, Repr

/-- Where a stream is in `CheckRateLimit` : outside, before the lock, or with the lock held and
before `find`, before `TryConsume`, or before the return. -/
inductive RatePc
  | idle
  | waiting (c : RateCall)
  | holding (c : RateCall)
  | found (c : RateCall)
  | returning
  deriving DecidableEq, Repr

namespace RatePc

/-- The stream is between taking the lock and releasing it. -/
def Inside : RatePc → Prop
  | idle | waiting _ => False
  | holding _ | found _ | returning => True

/-- The call whose bucket is in the map, and not consumed from yet. -/
def found? : RatePc → Option RateCall
  | found c => some c
  | _ => none

end RatePc

/-- `rate_limiters_`, the owner of `rate_limiter_mu_`, the streams, and the calls that were decided,
each with its answer. -/
structure RateGateway (ι : Type*) where
  buckets : RateLimiters
  owner : Option ι
  pc : ι → RatePc
  decided : List (RateCall × Bool)

/-- A step of the stream `i`. -/
inductive RateAct (ι : Type*)
  | call (i : ι) (c : RateCall)
  | lock (i : ι)
  | find (i : ι)
  | consume (i : ι)
  | unlock (i : ι)

/-- The map when `find` has returned, or `emplace` has. -/
def RateLimiters.opened (limits : RateLimits) (buckets : RateLimiters) (c : RateCall) :
    RateLimiters :=
  Function.update buckets c.stream.rateKey (some ((buckets c.stream.rateKey).getD
    (TokenBucket.create limits.capacity limits.tokensPerSecond c.now.created)))

namespace RateGateway

variable {ι : Type*} [DecidableEq ι] (limits : RateLimits)

/-- No bucket, and no stream in a call. -/
def start : RateGateway ι where
  buckets := fun _ => none
  owner := none
  pc := fun _ => .idle
  decided := []

/-- One step. A call that finds the limiter disabled returns without the lock. -/
def step (g : RateGateway ι) : RateAct ι → Option (RateGateway ι)
  | .call i c =>
    match g.pc i with
    | .idle =>
      if limits.capacity ≤ 0 then some { g with decided := g.decided ++ [(c, true)] }
      else some { g with pc := Function.update g.pc i (.waiting c) }
    | _ => none
  | .lock i =>
    match g.pc i, g.owner with
    | .waiting c, none => some { g with owner := some i, pc := Function.update g.pc i (.holding c) }
    | _, _ => none
  | .find i =>
    match g.pc i with
    | .holding c =>
      some { g with
        buckets := g.buckets.opened limits c
        pc := Function.update g.pc i (.found c) }
    | _ => none
  | .consume i =>
    match g.pc i with
    | .found c =>
      (g.buckets c.stream.rateKey).map fun bucket =>
        let consumed := bucket.tryConsume 1 c.now.consumed
        { g with
          buckets := Function.update g.buckets c.stream.rateKey (some consumed.2)
          pc := Function.update g.pc i .returning
          decided := g.decided ++ [(c, consumed.1)] }
    | _ => none
  | .unlock i =>
    match g.pc i with
    | .returning => some { g with owner := none, pc := Function.update g.pc i .idle }
    | _ => none

end RateGateway

/-! ## One call after the other -/

/-- A call in one step, behind those that were decided before. -/
def serveNext (limits : RateLimits) (s : RateLimiters × List (RateCall × Bool)) (c : RateCall) :
    RateLimiters × List (RateCall × Bool) :=
  let checked := checkRateLimit limits c.now c.stream.rateKey s.1
  (checked.2, s.2 ++ [(c, checked.1)])

/-- The calls `cs`, one after the other. -/
def serve (limits : RateLimits) (cs : List RateCall) : RateLimiters × List (RateCall × Bool) :=
  cs.foldl (serveNext limits) (fun _ => none, [])

@[simp] theorem serve_concat (limits : RateLimits) (cs : List RateCall) (c : RateCall) :
    serve limits (cs ++ [c]) = serveNext limits (serve limits cs) c := by
  simp [serve]

namespace RateGateway

variable {ι : Type*} [DecidableEq ι] {limits : RateLimits} {g g' : RateGateway ι} {i : ι}

/-- The call of the owner of the lock, between `find` and `TryConsume`. -/
def finding (g : RateGateway ι) : Option RateCall :=
  g.owner.bind fun i => (g.pc i).found?

theorem finding_update {p : RatePc} (h : p.found? = (g.pc i).found?) :
    finding { g with pc := Function.update g.pc i p } = g.finding := by
  cases ho : g.owner with
  | none => simp [finding, ho]
  | some j =>
    by_cases hj : j = i
    · subst hj
      simp [finding, ho, h]
    · simp [finding, ho, hj]

/-- The calls that were decided, in the order of the decisions. -/
def calls (g : RateGateway ι) : List RateCall :=
  g.decided.map Prod.fst

/-- Only the owner of the lock is in the code behind it, the answers are those of the calls made one
after the other, and so is the map, but for the bucket that the owner has found. -/
structure Serial (limits : RateLimits) (g : RateGateway ι) : Prop where
  exclusive : ∀ i, (g.pc i).Inside → g.owner = some i
  enabled : ∀ i, g.pc i ≠ .idle → 0 < limits.capacity
  decided : (serve limits g.calls).2 = g.decided
  buckets : g.buckets = g.finding.elim (serve limits g.calls).1
    ((serve limits g.calls).1.opened limits)

omit [DecidableEq ι] in
theorem serial_start : Serial limits (start : RateGateway ι) :=
  ⟨nofun, fun _ h => absurd rfl h, rfl, rfl⟩

/-- The streams behind the lock, when the stream `i` moves to `p`. -/
theorem exclusive_update {o : Option ι} {p : RatePc}
    (hothers : ∀ j, j ≠ i → (g.pc j).Inside → o = some j) (hself : p.Inside → o = some i) :
    ∀ j, (Function.update g.pc i p j).Inside → o = some j := by
  intro j hj
  by_cases hji : j = i
  · subst hji
    rw [Function.update_self] at hj
    exact hself hj
  · rw [Function.update_of_ne hji] at hj
    exact hothers j hji hj

theorem Serial.enabled_update (hg : Serial limits g) {p : RatePc}
    (hcap : p ≠ .idle → 0 < limits.capacity) :
    ∀ j, Function.update g.pc i p j ≠ .idle → 0 < limits.capacity := by
  intro j hj
  by_cases hji : j = i
  · subst hji
    rw [Function.update_self] at hj
    exact hcap hj
  · rw [Function.update_of_ne hji] at hj
    exact hg.enabled j hj

/-- Consuming from the bucket that was found is what is left of `CheckRateLimit`. -/
theorem checkRateLimit_opened {m : RateLimiters} {c : RateCall} {bucket : TokenBucket}
    (hcap : 0 < limits.capacity) (h : m.opened limits c c.stream.rateKey = some bucket) :
    checkRateLimit limits c.now c.stream.rateKey m =
      ((bucket.tryConsume 1 c.now.consumed).1, Function.update (m.opened limits c)
        c.stream.rateKey (some (bucket.tryConsume 1 c.now.consumed).2)) := by
  simp only [RateLimiters.opened, Function.update_self, Option.some.injEq] at h
  simp [checkRateLimit, not_le.2 hcap, h, RateLimiters.opened]

theorem Serial.call {c : RateCall} (hg : Serial limits g)
    (h : g.step limits (.call i c) = some g') : Serial limits g' := by
  cases hpc : g.pc i <;> simp only [step, hpc, reduceCtorEq] at h
  by_cases hcap : limits.capacity ≤ 0
  · rw [if_pos hcap] at h
    cases h
    have hnext : serve limits (g.calls ++ [c]) =
        ((serve limits g.calls).1, g.decided ++ [(c, true)]) := by
      simp [serveNext, checkRateLimit, hcap, hg.decided]
    refine ⟨hg.exclusive, hg.enabled, ?_, ?_⟩ <;> simp only [calls, List.map_append,
      List.map_singleton] <;> rw [← calls, hnext]
    exact hg.buckets
  · rw [if_neg hcap] at h
    cases h
    have hfinding : RatePc.found? (.waiting c) = (g.pc i).found? := by rw [hpc]; rfl
    refine ⟨exclusive_update (fun j _ => hg.exclusive j) False.elim,
      hg.enabled_update fun _ => not_le.1 hcap, hg.decided, ?_⟩
    rw [finding_update hfinding]
    exact hg.buckets

theorem Serial.lock (hg : Serial limits g) (h : g.step limits (.lock i) = some g') :
    Serial limits g' := by
  cases hpc : g.pc i <;> cases ho : g.owner <;> simp only [step, hpc, ho, reduceCtorEq] at h
  cases h
  have hfree : ∀ j, ¬ (g.pc j).Inside := fun j hj => by simpa [ho] using hg.exclusive j hj
  have hbuckets := hg.buckets
  simp only [finding, ho] at hbuckets
  refine ⟨exclusive_update (fun j _ hj => absurd hj (hfree j)) fun _ => rfl,
    hg.enabled_update fun _ => hg.enabled i (by simp [hpc]), hg.decided, ?_⟩
  simpa [finding, RatePc.found?, calls] using hbuckets

theorem Serial.find (hg : Serial limits g) (h : g.step limits (.find i) = some g') :
    Serial limits g' := by
  cases hpc : g.pc i <;> simp only [step, hpc, reduceCtorEq] at h
  cases h
  have ho : g.owner = some i := hg.exclusive i (by rw [hpc]; trivial)
  have hbuckets := hg.buckets
  simp only [finding, ho, Option.bind_some, hpc, RatePc.found?, Option.elim_none] at hbuckets
  refine ⟨exclusive_update (fun j _ => hg.exclusive j) fun _ => ho,
    hg.enabled_update fun _ => hg.enabled i (by simp [hpc]), hg.decided, ?_⟩
  simp [finding, ho, RatePc.found?, hbuckets, calls]

theorem Serial.consume (hg : Serial limits g) (h : g.step limits (.consume i) = some g') :
    Serial limits g' := by
  cases hpc : g.pc i <;> simp only [step, hpc, reduceCtorEq] at h
  rename_i c
  obtain ⟨bucket, hbucket, rfl⟩ := Option.map_eq_some_iff.1 h
  have ho : g.owner = some i := hg.exclusive i (by rw [hpc]; trivial)
  have hbuckets := hg.buckets
  simp only [finding, ho, Option.bind_some, hpc, RatePc.found?, Option.elim_some] at hbuckets
  have hcap : 0 < limits.capacity := hg.enabled i (by simp [hpc])
  rw [hbuckets] at hbucket
  have hnext := checkRateLimit_opened hcap hbucket
  refine ⟨exclusive_update (fun j _ => hg.exclusive j) fun _ => ho,
    hg.enabled_update fun _ => hcap, ?_, ?_⟩ <;>
    simp only [calls, List.map_append, List.map_singleton, serve_concat, serveNext] <;>
    rw [← calls, hnext]
  · rw [hg.decided]
  · simp [finding, ho, RatePc.found?, hbuckets]

theorem Serial.unlock (hg : Serial limits g) (h : g.step limits (.unlock i) = some g') :
    Serial limits g' := by
  cases hpc : g.pc i <;> simp only [step, hpc, reduceCtorEq] at h
  cases h
  have ho : g.owner = some i := hg.exclusive i (by rw [hpc]; trivial)
  have hothers : ∀ j, j ≠ i → ¬ (g.pc j).Inside := fun j hji hj =>
    hji (Option.some.inj ((hg.exclusive j hj).symm.trans ho))
  have hbuckets := hg.buckets
  simp only [finding, ho, Option.bind_some, hpc, RatePc.found?] at hbuckets
  exact ⟨exclusive_update (fun j hji hj => absurd hj (hothers j hji)) False.elim,
    hg.enabled_update fun hp => absurd rfl hp, hg.decided, hbuckets⟩

theorem Serial.step (g : RateGateway ι) (a : RateAct ι) (g' : RateGateway ι)
    (hg : Serial limits g) (h : g.step limits a = some g') : Serial limits g' := by
  cases a with
  | call i c => exact hg.call h
  | lock i => exact hg.lock h
  | find i => exact hg.find h
  | consume i => exact hg.consume h
  | unlock i => exact hg.unlock h

end RateGateway

/-! ## A principal alone -/

theorem TokenBucket.answers_concat : ∀ (b : TokenBucket) (xs : List TokenCall) (x : TokenCall),
    b.answers (xs ++ [x]) = b.answers xs ++ [((b.after xs).tryConsume x.cost x.nowNs).1]
  | b, [], x => rfl
  | b, y :: xs, x => by
    simp only [List.cons_append, answers, after, List.foldl_cons]
    rw [answers_concat, after]

theorem TokenBucket.after_concat (b : TokenBucket) (xs : List TokenCall) (x : TokenCall) :
    b.after (xs ++ [x]) = ((b.after xs).tryConsume x.cost x.nowNs).2 := by
  simp [after]

/-- What the call asks of its bucket. -/
def RateCall.tokenCall (c : RateCall) : TokenCall :=
  ⟨1, c.now.consumed⟩

/-- The bucket that the calls leave if no one else uses it. It is created by the first of them. -/
def bucketAlone (limits : RateLimits) : List RateCall → Option TokenBucket
  | [] => none
  | c :: cs => some ((TokenBucket.create limits.capacity limits.tokensPerSecond c.now.created).after
      ((c :: cs).map RateCall.tokenCall))

/-- What that bucket answers. -/
def answersAlone (limits : RateLimits) : List RateCall → List Bool
  | [] => []
  | c :: cs => (TokenBucket.create limits.capacity limits.tokensPerSecond c.now.created).answers
      ((c :: cs).map RateCall.tokenCall)

section

variable {limits : RateLimits} (p : Principal)

theorem bucketAlone_concat (cs : List RateCall) (c : RateCall) :
    bucketAlone limits (cs ++ [c]) = some (((bucketAlone limits cs).getD
      (.create limits.capacity limits.tokensPerSecond c.now.created)).tryConsume 1
        c.now.consumed).2 := by
  cases cs with
  | nil => rfl
  | cons d cs =>
    simp only [List.cons_append, bucketAlone, Option.getD_some]
    rw [← List.cons_append, List.map_append, List.map_singleton, TokenBucket.after_concat]
    rfl

theorem answersAlone_concat (cs : List RateCall) (c : RateCall) :
    answersAlone limits (cs ++ [c]) = answersAlone limits cs ++
      [(((bucketAlone limits cs).getD
        (.create limits.capacity limits.tokensPerSecond c.now.created)).tryConsume 1
          c.now.consumed).1] := by
  cases cs with
  | nil => rfl
  | cons d cs =>
    simp only [List.cons_append, answersAlone, bucketAlone, Option.getD_some]
    rw [← List.cons_append, List.map_append, List.map_singleton, TokenBucket.answers_concat]
    rfl

/-- The calls that are charged to `p`. -/
def callsOf (cs : List RateCall) : List RateCall :=
  cs.filter fun c => c.stream.principal = p

/-- The answers to the calls that are charged to `p`. -/
def answersOf (ds : List (RateCall × Bool)) : List Bool :=
  (ds.filter fun d => d.1.stream.principal = p).map Prod.snd

/-- In any sequence of calls, those of `p` get what a bucket of their own answers, and leave it as
the bucket of `p`. -/
theorem serve_alone (hcap : 0 < limits.capacity) (cs : List RateCall) :
    answersOf p (serve limits cs).2 = answersAlone limits (callsOf p cs) ∧
      (serve limits cs).1 p.key = bucketAlone limits (callsOf p cs) := by
  induction cs using List.reverseRecOn with
  | nil => exact ⟨rfl, rfl⟩
  | append_singleton cs c ih =>
    obtain ⟨hanswers, hbucket⟩ := ih
    rw [serve_concat, serveNext]
    by_cases hp : c.stream.principal = p
    · have hkey : c.stream.rateKey = p.key := by rw [Stream.rateKey_eq, hp]
      have hcalls : callsOf p (cs ++ [c]) = callsOf p cs ++ [c] := by simp [callsOf, hp]
      rw [hcalls, bucketAlone_concat, answersAlone_concat, ← hbucket, ← hanswers, ← hkey]
      simp [checkRateLimit, not_le.2 hcap, answersOf, hp]
    · have hkey : p.key ≠ c.stream.rateKey := by
        rw [Stream.rateKey_eq]
        exact fun h => hp (Principal.key_injective h).symm
      have hcalls : callsOf p (cs ++ [c]) = callsOf p cs := by simp [callsOf, hp]
      have hleft : (checkRateLimit limits c.now c.stream.rateKey (serve limits cs).1).2 p.key =
          (serve limits cs).1 p.key := checkRateLimit_of_ne limits c.now hkey
      rw [hcalls, ← hanswers]
      exact ⟨by simp [answersOf, hp], hleft.trans hbucket⟩

/-- A limiter that is off grants every call. -/
theorem serve_disabled (hcap : limits.capacity ≤ 0) (cs : List RateCall) :
    ∀ d ∈ (serve limits cs).2, d.2 = true := by
  induction cs using List.reverseRecOn with
  | nil => exact nofun
  | append_singleton cs c ih =>
    rw [serve_concat, serveNext]
    refine List.forall_mem_append.2 ⟨ih, List.forall_mem_singleton.2 ?_⟩
    simp [checkRateLimit, hcap]

end

namespace RateGateway

variable {ι : Type*} [DecidableEq ι]

/-- What the streams are answered, by any interleaving of their calls. -/
structure Isolated (limits : RateLimits) (g : RateGateway ι) : Prop where
  /-- If the limiter is on, the calls of a principal are answered by a bucket of their own. -/
  alone : 0 < limits.capacity → ∀ p, answersOf p g.decided = answersAlone limits (callsOf p g.calls)
  /-- If it is off, every call is granted. -/
  disabled : limits.capacity ≤ 0 → ∀ p, ∀ answer ∈ answersOf p g.decided, answer = true
  /-- A bucket belongs to one principal. -/
  buckets : ∀ s s' : Stream, s.rateKey = s'.rateKey → s.principal = s'.principal
  tenants : ∀ tenantId deviceId : Bytes,
    (Principal.tenant tenantId).key ≠ (Principal.device deviceId).key

/-- For all limits, all interleavings of calls of any number of streams, and any clock. -/
theorem rate_decisions_isolated (limits : RateLimits) {as : List (RateAct ι)} {g : RateGateway ι}
    (h : exec (step limits) start as = some g) : Isolated limits g := by
  have hg : Serial limits g := exec_invariant Serial.step serial_start h
  refine ⟨fun hcap p => ?_, fun hcap p => ?_, fun s s' hkey => ?_, Principal.tenant_key_ne⟩
  · rw [← hg.decided]
    exact (serve_alone p hcap g.calls).1
  · rw [← hg.decided]
    intro answer hanswer
    obtain ⟨d, hd, rfl⟩ := List.mem_map.1 hanswer
    exact serve_disabled hcap g.calls d (List.mem_filter.1 hd).1
  · rw [Stream.rateKey_eq, Stream.rateKey_eq] at hkey
    exact Principal.key_injective hkey

/-- A call of a tenant's stream, and of a stream without a tenant, on the device `tenant:a`. -/
def tenantCall : RateCall :=
  ⟨{ deviceId := ascii "cam", tenantId := ascii "a" }, ⟨0, 0⟩⟩

@[inherit_doc tenantCall]
def deviceCall : RateCall :=
  ⟨{ deviceId := ascii "tenant:a" }, ⟨5, 7⟩⟩

/-- The two streams call at the same time, and the tenant's stream calls once more. -/
def twoStreamsRun : List (RateAct Bool) :=
  [.call true tenantCall, .call false deviceCall, .lock true, .find true, .consume true,
    .unlock true, .lock false, .find false, .call true tenantCall, .consume false, .unlock false,
    .lock true, .find true, .consume true, .unlock true]

theorem rate_decisions_isolated_twoStreamsRun : ∃ g : RateGateway Bool,
    exec (step ⟨1, 1⟩) start twoStreamsRun = some g ∧
      (answersOf tenantCall.stream.principal g.decided = [true, false] ∧
        answersOf deviceCall.stream.principal g.decided = [true]) ∧ Isolated ⟨1, 1⟩ g := by
  have hrun : ∃ g : RateGateway Bool, exec (step ⟨1, 1⟩) start twoStreamsRun = some g ∧
      (answersOf tenantCall.stream.principal g.decided = [true, false] ∧
        answersOf deviceCall.stream.principal g.decided = [true]) :=
    exists_exec_of_any (by decide +kernel)
  obtain ⟨g, hg, hanswers⟩ := hrun
  exact ⟨g, hg, hanswers, rate_decisions_isolated _ hg⟩

/-- With the limiter off a call is granted, and a bucket without capacity would have refused it. -/
theorem disabled_limiter_grants : ∃ g : RateGateway Bool,
    exec (step ⟨0, 0⟩) start [.call true tenantCall] = some g ∧
      answersOf tenantCall.stream.principal g.decided = [true] ∧
        answersAlone ⟨0, 0⟩ (callsOf tenantCall.stream.principal g.calls) = [false] :=
  exists_exec_of_any (by decide +kernel)

end RateGateway

end Ridgeline
