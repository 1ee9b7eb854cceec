import Rss.Model.Messaging.Consumer

/-! # Subscription backoff

The delays between two attempts to connect a consumer's subscription, in nanoseconds. -/

namespace Rss.Messaging.Consumer

structure SubscriptionBackoffPolicy where
  base : ℕ
  cap : ℕ
  base_pos : 0 < base
  base_le : base ≤ cap
  cap_le : cap ≤ durationMax

inductive SubscriptionBackoffPolicyError where
  | zeroBase | baseExceedsCap
  deriving DecidableEq, Repr

/-- `SubscriptionBackoffPolicy::new` of two durations. -/
def SubscriptionBackoffPolicy.new (base cap : ℕ) (range : cap ≤ durationMax) :
    Except SubscriptionBackoffPolicyError SubscriptionBackoffPolicy :=
  if hbase : base = 0 then .error .zeroBase
  else if hcap : base > cap then .error .baseExceedsCap
  else .ok ⟨base, cap, Nat.pos_of_ne_zero hbase, Nat.le_of_not_gt hcap, range⟩

/-- A delay doubled so many times, which stops at the cap. -/
def cappedDoublings (cap : ℕ) : ℕ → ℕ → ℕ
  | 0, delay => delay
  | n + 1, delay =>
      let next := min (min (delay * 2) durationMax) cap
      if next = cap then next else cappedDoublings cap n next

def SubscriptionBackoffPolicy.delayAfter (p : SubscriptionBackoffPolicy) (failedAttempt : ℕ) : ℕ :=
  cappedDoublings p.cap (min (failedAttempt - 1) 128) p.base

end Rss.Messaging.Consumer
