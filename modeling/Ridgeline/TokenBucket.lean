import Mathlib.Data.Rat.Defs
import Mathlib.Algebra.Order.Field.Rat
import Ridgeline.Word

/-!
# Rate limiting

`TokenBucket`, over exact rationals in place of `double`, and `CheckRateLimit`, which keeps
one bucket for each key. A call reads and writes the bucket of its own key only
(`checkRateLimit_of_ne`, `checkRateLimit_congr`).
-/

namespace Ridgeline

/-- `TokenBucket`. -/
structure TokenBucket where
  capacity : ℚ
  tokensPerSecond : ℚ
  tokens : ℚ
  lastRefillNs : ℤ
  deriving DecidableEq, Repr

namespace TokenBucket

/-- The constructor : a new bucket is full. -/
def create (capacity tokensPerSecond : ℚ) (nowNs : ℤ) : TokenBucket :=
  ⟨capacity, tokensPerSecond, capacity, nowNs⟩

/-- `Refill`. -/
def refill (b : TokenBucket) (nowNs : ℤ) : TokenBucket :=
  if nowNs ≤ b.lastRefillNs then b
  else
    let elapsedSeconds : ℚ := (nowNs - b.lastRefillNs : ℤ) / 1000000000
    { b with
      tokens := min b.capacity (b.tokens + elapsedSeconds * b.tokensPerSecond)
      lastRefillNs := nowNs }

/-- `TryConsume`. -/
def tryConsume (b : TokenBucket) (cost : ℚ) (nowNs : ℤ) : Bool × TokenBucket :=
  let b := b.refill nowNs
  if b.tokens < cost then (false, b) else (true, { b with tokens := b.tokens - cost })

end TokenBucket

/-- `rate_limit_capacity` and `rate_limit_tokens_per_second`. -/
structure RateLimits where
  capacity : ℚ
  tokensPerSecond : ℚ
  deriving DecidableEq, Repr

/-- `rate_limiters_`. -/
abbrev RateLimiters : Type :=
  Bytes → Option TokenBucket

/-- The two readings of the clock in `CheckRateLimit` : for a new bucket, and for the
call. -/
structure RateClock where
  created : ℤ
  consumed : ℤ
  deriving DecidableEq, Repr

/-- `CheckRateLimit`. -/
def checkRateLimit (limits : RateLimits) (now : RateClock) (key : Bytes) (buckets : RateLimiters) :
    Bool × RateLimiters :=
  if limits.capacity ≤ 0 then (true, buckets)
  else
    let bucket :=
      (buckets key).getD (TokenBucket.create limits.capacity limits.tokensPerSecond now.created)
    let consumed := bucket.tryConsume 1 now.consumed
    (consumed.1, Function.update buckets key (some consumed.2))

variable (limits : RateLimits) (now : RateClock) {key key' : Bytes}
variable {buckets buckets' : RateLimiters}

/-- A call leaves the buckets of the other keys. -/
theorem checkRateLimit_of_ne (h : key' ≠ key) :
    (checkRateLimit limits now key buckets).2 key' = buckets key' := by
  unfold checkRateLimit
  split_ifs
  · rfl
  · exact Function.update_of_ne h _ _

/-- The answer, and the bucket after the call, depend on the bucket of the key only. -/
theorem checkRateLimit_congr (h : buckets key = buckets' key) :
    (checkRateLimit limits now key buckets).1 = (checkRateLimit limits now key buckets').1 ∧
      (checkRateLimit limits now key buckets).2 key =
        (checkRateLimit limits now key buckets').2 key := by
  unfold checkRateLimit
  split_ifs
  · exact ⟨rfl, h⟩
  · simp only [h, Function.update_self, and_self]

end Ridgeline
