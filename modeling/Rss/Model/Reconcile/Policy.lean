import Rss.Library.Fallible
import Rss.Model.Messaging.Consumer

/-! # Execution limits and retry delays

The validated policy of reconcile's worker and the window from which it draws a retry delay. A
duration is its number of nanoseconds. Arithmetic on machine words is checked: a computation that
would panic or wrap has no value. -/

namespace Rss.Reconcile

open Rss.Messaging.Consumer (durationMax)

inductive ErrorKind where
  | invalidInput | storageContract | transient | permanent | invariant | fenced | bindingChanged
  | cancelled | deadline | commitUnknown | rollbackFailed
  deriving DecidableEq, Repr

/-! ### Durations -/

def asSecs (d : ℕ) : ℕ := d / 1000000000

def subsecNanos (d : ℕ) : ℕ := d % 1000000000

def subsecMillis (d : ℕ) : ℕ := subsecNanos d / 1000000

def fromMillis (millis : ℕ) : ℕ := millis * 1000000

/-- `Duration::saturating_mul`. -/
def saturatingMul (d factor : ℕ) : ℕ := min (d * factor) durationMax

/-- `1u32.checked_shl(bits).unwrap_or(u32::MAX)`. -/
def shiftedOne (bits : ℕ) : ℕ := if bits < 32 then 2 ^ bits else 2 ^ 32 - 1

/-- `u64::div_ceil`. -/
def divCeil (a b : ℕ) : ℕ := if a % b = 0 then a / b else a / b + 1

/-- The remainder of unsigned integers, absent for a zero divisor. -/
def checkedRem (a b : ℕ) : Option ℕ := if b = 0 then none else some (a % b)

/-! ### Policies -/

structure PolicyConfig where
  concurrency : ℕ
  leaseTtl : ℕ
  attemptTimeout : ℕ
  scanInterval : ℕ
  idleScanInterval : ℕ
  initialBackoff : ℕ
  maxBackoff : ℕ
  maxAttempts : ℕ
  deriving DecidableEq, Repr

structure Policy where
  concurrency : ℕ
  lease : ℕ
  attempt : ℕ
  scan : ℕ
  idleScan : ℕ
  backoff : ℕ
  cap : ℕ
  maxAttempts : ℕ
  deriving DecidableEq, Repr

/-- The closure `valid`. -/
def validDuration (d : ℕ) : Bool :=
  d ≠ 0 && d ≤ 86400 * 1000000000 && subsecNanos d % 1000000 = 0

def Policy.tryFrom (c : PolicyConfig) : Except ErrorKind Policy :=
  if !(1 ≤ c.concurrency && c.concurrency ≤ 64) ||
      !([c.leaseTtl, c.attemptTimeout, c.scanInterval, c.idleScanInterval, c.initialBackoff,
        c.maxBackoff].all validDuration) ||
      c.leaseTtl < fromMillis 3 || c.maxBackoff < c.initialBackoff ||
      !(1 ≤ c.maxAttempts && c.maxAttempts ≤ 1000) then
    .error .invalidInput
  else
    .ok ⟨c.concurrency, c.leaseTtl, c.attemptTimeout, c.scanInterval, c.idleScanInterval,
      c.initialBackoff, c.maxBackoff, c.maxAttempts⟩

/-! ### Delays -/

/-- The end of the window after so many failures. -/
def Policy.upper (p : Policy) (failures : ℕ) : ℕ :=
  min (saturatingMul p.backoff (shiftedOne (max failures 1))) p.cap

/-- `as_secs() * 1000 + u64::from(subsec_millis())`. -/
def wholeMillis (d : ℕ) : Option ℕ := do
  let seconds ← checkedMul 64 (asSecs d) 1000
  checkedAdd 64 seconds (subsecMillis d)

/-- `hasher` is what the default hasher finishes with after a target and a failure count. -/
def Policy.retryDelay {Target : Type} (p : Policy) (hasher : Target → UInt32 → UInt64)
    (target : Target) (failures : UInt32) : Option ℕ := do
  let upper ← wholeMillis (p.upper failures.toNat)
  let floor ← wholeMillis p.backoff
  let lower := max floor (divCeil upper 2)
  let spread ← checkedSub upper lower
  let width ← checkedAdd 64 spread 1
  let offset ← checkedRem (hasher target failures).toNat width
  let millis ← checkedAdd 64 lower offset
  some (fromMillis millis)

end Rss.Reconcile
