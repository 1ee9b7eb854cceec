import Rss.Model.Messaging.Consumer
import Rss.Model.Messaging.Outcome
import Rss.Library.Fallible

/-! # Relaying one batch of the outbox

`relay_once` and `relay_claim` of the messaging runtime. Durations and instants are
nanoseconds. Every call of the clock in `relay_claim` has a name, and an attempt says what the
clock shows there and what the store and the publisher answer. -/

namespace Rss.Messaging.Relay

open Rss.Messaging.Consumer (MessagingErrorKind capped durationMax)

/-! ### The budget -/

/-- `DELIVERY_BUDGET_MAX`, one day. -/
def deliveryBudgetMax : ℕ := 24 * 60 * 60 * 1000000000

inductive DeliveryBudgetError where
  | zero | nonIntegralMilliseconds | operationalRangeExceeded | requiredBudgetOverflow
  | requiredBudgetNotBelowLease
  deriving DecidableEq, Repr

/-- `Duration::checked_add`. -/
def durationAdd (a b : ℕ) : Option ℕ := if a + b ≤ durationMax then some (a + b) else none

/-- `Duration::saturating_add`. -/
def durationSaturatingAdd (a b : ℕ) : ℕ := min (a + b) durationMax

/-- The checks that `DeliveryBudget::new` makes of each component. -/
def checkComponent (duration : ℕ) : Except DeliveryBudgetError Unit :=
  if duration = 0 then .error .zero
  else if (duration % 1000000000) % 1000000 ≠ 0 then .error .nonIntegralMilliseconds
  else if deliveryBudgetMax < duration then .error .operationalRangeExceeded
  else .ok ()

/-- Headroom for publication, settlement and safety strictly inside an outbox lease. -/
structure DeliveryBudget where
  leaseTtl : ℕ
  publishTimeout : ℕ
  settleTimeout : ℕ
  safetyMargin : ℕ
  lease_ok : checkComponent leaseTtl = .ok ()
  publish_ok : checkComponent publishTimeout = .ok ()
  settle_ok : checkComponent settleTimeout = .ok ()
  safety_ok : checkComponent safetyMargin = .ok ()
  required_lt : publishTimeout + settleTimeout + safetyMargin < leaseTtl

namespace DeliveryBudget

def new (leaseTtl publishTimeout settleTimeout safetyMargin : ℕ) :
    Except DeliveryBudgetError DeliveryBudget :=
  match hl : checkComponent leaseTtl, hp : checkComponent publishTimeout,
      hs : checkComponent settleTimeout, hm : checkComponent safetyMargin with
  | .error e, _, _, _ => .error e
  | .ok _, .error e, _, _ => .error e
  | .ok _, .ok _, .error e, _ => .error e
  | .ok _, .ok _, .ok _, .error e => .error e
  | .ok _, .ok _, .ok _, .ok _ =>
      match (durationAdd publishTimeout settleTimeout).bind
          (fun value => durationAdd value safetyMargin) with
      | none => .error .requiredBudgetOverflow
      | some _ =>
          if h : publishTimeout + settleTimeout + safetyMargin < leaseTtl then
            .ok ⟨leaseTtl, publishTimeout, settleTimeout, safetyMargin, hl, hp, hs, hm, h⟩
          else .error .requiredBudgetNotBelowLease

def requiredBudget (b : DeliveryBudget) : ℕ :=
  durationSaturatingAdd (durationSaturatingAdd b.publishTimeout b.settleTimeout) b.safetyMargin

def canStartAttempt (b : DeliveryBudget) (remaining : ℕ) : Bool := b.requiredBudget < remaining

end DeliveryBudget

/-! ### Settlements -/

inductive OutboxDisposition where
  | published | retry | deadLetter
  deriving DecidableEq, Repr

inductive OutboxSettlement (ρ : Type) where
  | published (receipt : ρ)
  | retry
  | deadLetter
  deriving DecidableEq, Repr

variable {ρ : Type}

def OutboxSettlement.disposition : OutboxSettlement ρ → OutboxDisposition
  | .published _ => .published
  | .retry => .retry
  | .deadLetter => .deadLetter

def isRetryable (kind : FailureKind) : Bool := kind = .transient

def intoSettlement : PublishOutcome ρ → OutboxSettlement ρ
  | .confirmed receipt => .published receipt
  | .definitelyNotPublished failure =>
      if isRetryable failure.kind then .retry else .deadLetter
  | .ambiguous _ => .retry

def deadlineElapsedPublishOutcome : PublishOutcome ρ :=
  .ambiguous ⟨.transient, .confirm, .deadlineElapsed⟩

inductive OutboxLeaseStatus where
  | held (remaining : ℕ) (deliveryRemaining : Option ℕ)
  | lost
  deriving DecidableEq, Repr

/-! ### One attempt -/

/-- The places where `relay_claim` and the guards it awaits read the clock, in their order. -/
inductive Reading where
  | leaseDeadline | leaseCall | extendDeadline | extendStarted | extendCall | elapsed
  | publishStarted | attemptDeadline | publishCap | publishCall | settlementCap | settlementCall
  deriving DecidableEq, Repr

def Reading.order : Reading → ℕ
  | .leaseDeadline => 0
  | .leaseCall => 1
  | .extendDeadline => 2
  | .extendStarted => 3
  | .extendCall => 4
  | .elapsed => 5
  | .publishStarted => 6
  | .attemptDeadline => 7
  | .publishCap => 8
  | .publishCall => 9
  | .settlementCap => 10
  | .settlementCall => 11

/-- What one claim meets: the clock, its last instant, and the answers of the providers, where
`none` says that the cutoff came first. -/
structure Attempt (ρ : Type) where
  clock : Reading → ℕ
  horizon : ℕ
  leaseStatus : Option (Except MessagingErrorKind OutboxLeaseStatus)
  extend : Option (Except MessagingErrorKind OutboxLeaseStatus)
  publish : Option (PublishOutcome ρ)
  settle : Option (Except MessagingErrorKind Unit)

/-- A call of a provider that was started, with its cutoff and the watchdog it was given. -/
inductive Call (ρ : Type) where
  | leaseStatus (cutoff timeout : ℕ)
  | extend (cutoff timeout : ℕ)
  | publish (cutoff timeout : ℕ)
  | settle (settlement : OutboxSettlement ρ) (cutoff timeout : ℕ)
  deriving DecidableEq, Repr

/-- A part of an attempt: it may fail, and it leaves the calls it started. -/
abbrev RelayM (ρ α : Type) := ExceptT MessagingErrorKind (StateM (List (Call ρ))) α

namespace Attempt

variable (x : Attempt ρ)

/-- `Deadline::from_timeout`. -/
def fromTimeout (at' : Reading) (timeout : ℕ) : Option ℕ :=
  if x.clock at' + timeout ≤ x.horizon then some (x.clock at' + timeout) else none

def absoluteDeadline (at' : Reading) (timeout : ℕ) : RelayM ρ ℕ :=
  liftExcept (okOr (x.fromTimeout at' timeout) MessagingErrorKind.invariant)

/-- `OperationDeadline::from_cutoff`. -/
def operationDeadline (at' : Reading) (cutoff : ℕ) : ℕ := cutoff - x.clock at'

/-- `within`: an elapsed cutoff starts nothing, and a cutoff that comes first drops the call. -/
def within {α : Type} (at' : Reading) (cutoff : ℕ) (start : ℕ → Call ρ) (answer : Option α) :
    RelayM ρ α :=
  if x.operationDeadline at' cutoff = 0 then throw .deadlineElapsed
  else do
    modify (· ++ [start (x.operationDeadline at' cutoff)])
    liftExcept (okOr answer MessagingErrorKind.deadlineElapsed)

/-- `within(..).await.and_then(identity)`. -/
def request {α : Type} (at' : Reading) (cutoff : ℕ) (start : ℕ → Call ρ)
    (answer : Option (Except MessagingErrorKind α)) : RelayM ρ α := do
  liftExcept (← x.within at' cutoff start answer)

/-- The first half of `relay_claim`: the claim is confirmed held and its lease extended. -/
def hold (budget : DeliveryBudget) : RelayM ρ OutboxLeaseStatus := do
  let leaseDeadline ← x.absoluteDeadline .leaseDeadline budget.settleTimeout
  match ← x.request .leaseCall leaseDeadline (.leaseStatus leaseDeadline) x.leaseStatus with
  | .lost => pure .lost
  | .held _ _ =>
      let extendDeadline ← x.absoluteDeadline .extendDeadline budget.settleTimeout
      x.request .extendCall extendDeadline (.extend extendDeadline) x.extend

/-- The round trip of the extension, as its caller measured it. -/
def elapsed : ℕ := x.clock .elapsed - x.clock .extendStarted

/-- `remaining` less the round trip. -/
def leaseLeft (remaining : ℕ) : ℕ := remaining - x.elapsed

def deliveryBudget (remaining : ℕ) (deliveryRemaining : Option ℕ) : ℕ :=
  match deliveryRemaining with
  | none => x.leaseLeft remaining
  | some value => min (value - x.elapsed) (x.leaseLeft remaining)

def publishDeadline (budget : DeliveryBudget) (attemptDeadline : ℕ) : ℕ :=
  capped x.horizon attemptDeadline (x.clock .publishCap) budget.publishTimeout

def settlementDeadline (budget : DeliveryBudget) (attemptDeadline : ℕ) : ℕ :=
  capped x.horizon attemptDeadline (x.clock .settlementCap) budget.settleTimeout

def attemptDeadline (budget : DeliveryBudget) (remaining : ℕ) : Option ℕ :=
  x.fromTimeout .attemptDeadline (x.leaseLeft remaining - budget.safetyMargin)

def publishOutcome (cutoff : ℕ) : RelayM ρ (PublishOutcome ρ) :=
  tryCatch (x.within .publishCall cutoff (.publish cutoff) x.publish)
    fun _ => pure deadlineElapsedPublishOutcome

/-- The branch of `relay_claim` that may publish, and what it asks the store to settle. -/
def chooseSettlement (budget : DeliveryBudget) (remaining : ℕ) (deliveryRemaining : Option ℕ)
    (attemptDeadline : ℕ) : RelayM ρ (OutboxSettlement ρ) :=
  if deliveryRemaining = some 0 then pure .deadLetter
  else if budget.canStartAttempt (x.deliveryBudget remaining deliveryRemaining) then do
    let outcome ← x.publishOutcome (x.publishDeadline budget attemptDeadline)
    pure (intoSettlement outcome)
  else pure .retry

/-- The second half of `relay_claim`: at most one publication, then the settlement. -/
def deliver (budget : DeliveryBudget) (remaining : ℕ) (deliveryRemaining : Option ℕ) :
    RelayM ρ OutboxDisposition := do
  let attemptDeadline ← liftExcept
    (okOr (x.attemptDeadline budget remaining) MessagingErrorKind.invariant)
  let settlement ← x.chooseSettlement budget remaining deliveryRemaining attemptDeadline
  let cutoff := x.settlementDeadline budget attemptDeadline
  x.request .settlementCall cutoff (.settle settlement cutoff) x.settle
  pure settlement.disposition

def relayClaim (budget : DeliveryBudget) : RelayM ρ (Option OutboxDisposition) := do
  match ← x.hold budget with
  | .lost => pure none
  | .held remaining deliveryRemaining =>
      return some (← x.deliver budget remaining deliveryRemaining)

/-- What an attempt returned and the calls it started, in order. -/
def run (budget : DeliveryBudget) :
    Except MessagingErrorKind (Option OutboxDisposition) × List (Call ρ) :=
  ((x.relayClaim budget).run.run []).run

end Attempt

/-! ### One batch -/

/-- Counts the outcomes of one bounded batch. -/
structure RelayReport where
  claimed : ℕ
  published : ℕ
  retried : ℕ
  deadLettered : ℕ
  fenced : ℕ
  deriving DecidableEq, Repr

abbrev Result := Except MessagingErrorKind (Option OutboxDisposition)

/-- What one batch meets. The attempts run concurrently and `complete` is the order in which
they end, each with the place of its claim. -/
structure Batch (ρ : Type) where
  now : ℕ
  calledAt : ℕ
  horizon : ℕ
  claims : Option (Except MessagingErrorKind (List (Attempt ρ)))
  complete : List (Result × ℕ) → List (Result × ℕ)
  complete_perm : ∀ results, (complete results).Perm results

/-- One turn of the loop over the ordered results. -/
def tally : RelayReport × Option MessagingErrorKind → Result →
    RelayReport × Option MessagingErrorKind
  | (report, first), .ok none => ({ report with fenced := report.fenced + 1 }, first)
  | (report, first), .ok (some .published) =>
      ({ report with published := report.published + 1 }, first)
  | (report, first), .ok (some .retry) =>
      ({ report with retried := report.retried + 1 }, first)
  | (report, first), .ok (some .deadLetter) =>
      ({ report with deadLettered := report.deadLettered + 1 }, first)
  | (report, none), .error error => (report, some error)
  | (report, some first), .error _ => (report, some first)

def reportOf (results : List Result) : Except MessagingErrorKind RelayReport :=
  match results.foldl tally (⟨results.length, 0, 0, 0, 0⟩, none) with
  | (_, some error) => .error error
  | (report, none) => .ok report

namespace Batch

variable (b : Batch ρ)

/-- The claim request, guarded by a cutoff as every other. -/
def claimed (budget : DeliveryBudget) : Except MessagingErrorKind (List (Attempt ρ)) :=
  if b.horizon < b.now + budget.settleTimeout then .error .invariant
  else if b.now + budget.settleTimeout - b.calledAt = 0 then .error .deadlineElapsed
  else match b.claims with
    | none => .error .deadlineElapsed
    | some answer => answer

/-- The results of every claim in the order of the claims. -/
def results (budget : DeliveryBudget) (claims : List (Attempt ρ)) : List Result :=
  ((b.complete ((claims.map fun x => (x.run budget).1).zipIdx)).mergeSort
    fun r s => r.2 ≤ s.2).map Prod.fst

def relayOnce (budget : DeliveryBudget) : Except MessagingErrorKind RelayReport :=
  (b.claimed budget).bind fun claims => reportOf (b.results budget claims)

end Batch

end Rss.Messaging.Relay
