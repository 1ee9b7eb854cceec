import Mathlib.Tactic.Linarith
import Mathlib.Tactic.Ring
import Rss.Model.Messaging.Backoff

/-! # Delays of the messaging runtime

The truncated doubling loops compute the capped power they stand for. -/

namespace Rss.Messaging.Consumer

/-- The loop is the closed formula, whether or not it stops early. -/
theorem cappedDoublings_eq {cap : ℕ} (hcap : cap ≤ durationMax) {n delay : ℕ}
    (hdelay : delay ≤ cap) : cappedDoublings cap n delay = min cap (delay * 2 ^ n) := by
  induction n generalizing delay with
  | zero => simp [cappedDoublings, hdelay]
  | succ n ih =>
      have hnext : min (min (delay * 2) durationMax) cap = min (delay * 2) cap := by omega
      have hpower : delay * 2 ^ (n + 1) = delay * 2 * 2 ^ n := by ring
      simp only [cappedDoublings]
      rw [hnext, hpower]
      split
      · rename_i hstop
        have hfull : cap ≤ delay * 2 := by omega
        have hpos : 0 < 2 ^ n := Nat.two_pow_pos n
        have hle : delay * 2 ≤ delay * 2 * 2 ^ n := Nat.le_mul_of_pos_right _ hpos
        omega
      · rename_i hgo
        have hbelow : min (delay * 2) cap = delay * 2 := by omega
        rw [hbelow]
        exact ih (by omega)

/-- More doublings than the loop makes change nothing: the cap is reached before. -/
theorem cappedDoublings_truncated {cap : ℕ} (hcap : cap ≤ durationMax) {n base : ℕ}
    (hpos : 0 < base) (hbase : base ≤ cap) :
    cappedDoublings cap (min n 128) base = min cap (base * 2 ^ n) := by
  rw [cappedDoublings_eq hcap hbase]
  rcases Nat.le_total n 128 with hn | hn
  · rw [Nat.min_eq_left hn]
  · have hmax : durationMax ≤ 2 ^ 128 := by decide
    have hpower : 2 ^ 128 ≤ 2 ^ n := Nat.pow_le_pow_right (by decide) hn
    have hfirst : 2 ^ 128 ≤ base * 2 ^ 128 := Nat.le_mul_of_pos_left _ hpos
    have hsecond : 2 ^ n ≤ base * 2 ^ n := Nat.le_mul_of_pos_left _ hpos
    rw [Nat.min_eq_right hn, Nat.min_eq_left (by omega), Nat.min_eq_left (by omega)]

/-- The loop of the retry policy is the same loop. -/
theorem RetryPolicy.doubled_eq (p : RetryPolicy) (n delay : ℕ) :
    p.doubled n delay = cappedDoublings p.cap n delay := by
  induction n generalizing delay with
  | zero => rfl
  | succ n ih => simp only [RetryPolicy.doubled, cappedDoublings, ih]

theorem RetryPolicy.delayAfter_eq (p : RetryPolicy) (n : ℕ) :
    p.delayAfter n = min p.cap (p.base * 2 ^ (n - 1)) := by
  unfold delayAfter
  rw [p.doubled_eq, Nat.min_eq_left p.base_le]
  exact cappedDoublings_truncated p.cap_le p.base_pos p.base_le

theorem SubscriptionBackoffPolicy.delayAfter_eq (p : SubscriptionBackoffPolicy) (n : ℕ) :
    p.delayAfter n = min p.cap (p.base * 2 ^ (n - 1)) :=
  cappedDoublings_truncated p.cap_le p.base_pos p.base_le

end Rss.Messaging.Consumer
