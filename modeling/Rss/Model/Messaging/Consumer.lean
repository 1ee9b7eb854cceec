import Rss.Model.Messaging.Inbox

/-! # Consuming one delivery

`consume_once` of the messaging runtime as a machine. A point of the machine is a place where
the source awaits a provider or reads the clock; between two points time may pass, and the
providers answer as they like. Durations and instants are nanoseconds. -/

namespace Rss.Messaging.Consumer

open Rss.Sql
open Rss.Messaging.Inbox (Digest RejectKind Disposition)

/-! ### Policies -/

/-- The largest `Duration`. -/
def durationMax : ℕ := (2 ^ 64 - 1) * 1000000000 + 999999999

structure RetryPolicy where
  maxAttempts : ℕ
  base : ℕ
  cap : ℕ
  attempts_pos : 0 < maxAttempts
  attempts_le : maxAttempts ≤ 128
  base_pos : 0 < base
  base_le : base ≤ cap
  cap_le : cap ≤ durationMax

/-- `attempt.saturating_add(1)` on 32 bits. -/
def nextAttempt (attempt : ℕ) : ℕ := min (attempt + 1) (2 ^ 32 - 1)

namespace RetryPolicy

variable (p : RetryPolicy)

def allowsAttempt (attempt : ℕ) : Bool := attempt ≤ p.maxAttempts

/-- The doublings of `delay_after`, which stop at the cap. -/
def doubled : ℕ → ℕ → ℕ
  | 0, delay => delay
  | n + 1, delay =>
      let next := min (min (delay * 2) durationMax) p.cap
      if next = p.cap then next else doubled n next

def delayAfter (failedAttempt : ℕ) : ℕ :=
  p.doubled (min (failedAttempt - 1) 128) (min p.base p.cap)

end RetryPolicy

structure ExecutionBudget where
  total : ℕ
  settlementReserve : ℕ
  reserve_pos : 0 < settlementReserve
  reserve_lt : settlementReserve < total

structure LeaseRenewalPolicy where
  ttl : ℕ
  ttl_gt : 1000000 < ttl

def LeaseRenewalPolicy.interval (p : LeaseRenewalPolicy) : ℕ := max (p.ttl / 3) 1000000

def LeaseRenewalPolicy.fits (p : LeaseRenewalPolicy) (remaining : ℕ) : Bool :=
  p.interval < remaining

/-- `Deadline::capped`; `horizon` is the last instant the clock can express. -/
def capped (horizon cutoff now cap : ℕ) : ℕ :=
  if now + cap ≤ horizon then min cutoff (now + cap) else cutoff

/-! ### Evidence -/

inductive MessagingErrorKind where
  | transient | permanent | conflict | ownershipLost | invariant | deadlineElapsed
  deriving DecidableEq, Repr

inductive EnvelopeValidationFailure where
  | malformedIdentity | malformedMetadata | unsupportedContract | fingerprintConflict
  deriving DecidableEq, Repr

structure ConsumerIdentity where
  tenantId : Uuid
  group : String
  messageId : String
  contract : String
  deriving DecidableEq, Repr

/-- What ingress and the receipt read of an envelope. -/
structure Message where
  tenantId : Uuid
  id : String
  contract : String
  fingerprint : Digest
  deriving DecidableEq, Repr

structure VerifiedIngress where
  subscription : String
  tenantId : Uuid
  messageId : String
  contract : String
  fingerprint : Digest
  deriving DecidableEq, Repr

structure VerifiedConsumerBinding where
  identity : ConsumerIdentity
  fingerprint : Digest
  deriving DecidableEq, Repr

structure TerminalReceipt where
  consumer : ConsumerIdentity
  fingerprint : Digest
  disposition : Disposition
  deriving DecidableEq, Repr

def TerminalReceipt.matches (r : TerminalReceipt) (b : VerifiedConsumerBinding) : Bool :=
  r.consumer = b.identity && r.fingerprint = b.fingerprint

inductive SettlementKind where
  | acknowledge | requeue | reject
  deriving DecidableEq, Repr

def settlementForDisposition : Disposition → SettlementKind
  | .succeeded => .acknowledge
  | .rejected _ => .reject

def validateTerminal (b : VerifiedConsumerBinding) (r : TerminalReceipt) :
    Except EnvelopeValidationFailure Disposition :=
  if r.matches b then .ok r.disposition else .error .fingerprintConflict

def verifyIngress (verdict : Except EnvelopeValidationFailure VerifiedIngress) (group : String)
    (subscription : String) (message : Message) :
    Except EnvelopeValidationFailure VerifiedConsumerBinding :=
  match verdict with
  | .error reason => .error reason
  | .ok v =>
      if v.subscription ≠ subscription || v.tenantId ≠ message.tenantId ||
          v.messageId ≠ message.id || v.contract ≠ message.contract ||
          v.fingerprint ≠ message.fingerprint then
        .error .fingerprintConflict
      else
        .ok ⟨⟨v.tenantId, group, v.messageId, v.contract⟩, message.fingerprint⟩

inductive FailureClass where
  | transient | permanent | infrastructure
  deriving DecidableEq, Repr

inductive TransactionOutcome where
  | committed (receipt : TerminalReceipt)
  | notStarted (failure : FailureClass)
  | rolledBack (failure : FailureClass)
  | rollbackFailed
  | commitUnknown
  | fenced
  deriving DecidableEq, Repr

def TransactionOutcome.mayRetry : TransactionOutcome → Bool
  | .notStarted .transient | .rolledBack .transient => true
  | _ => false

inductive IdempotencyDisposition where
  | inProgress
  | terminal (receipt : TerminalReceipt)
  | acquired
  deriving DecidableEq, Repr

inductive LeaseStatus where
  | held (remaining : ℕ)
  | lost
  deriving DecidableEq, Repr

inductive ProcessingDisposition where
  | inProgress
  | duplicate (disposition : Disposition)
  | committed (disposition : Disposition)
  | rejected (failure : EnvelopeValidationFailure)
  | fenced
  | deferred
  deriving DecidableEq, Repr

/-- What `consume_once` returns. -/
abbrev Return := Except MessagingErrorKind ProcessingDisposition

/-- What a step does to or hears from a provider. `dropped` lets the settlement handle go
unused; `passed` is time. -/
inductive Event where
  | deadlines (representable : Bool)
  | verified (result : Except EnvelopeValidationFailure VerifiedConsumerBinding)
  | claimed (result : Except MessagingErrorKind IdempotencyDisposition)
  | extended (result : Except MessagingErrorKind LeaseStatus)
  | executed
  | reported (outcome : TransactionOutcome)
  | released (result : Except MessagingErrorKind Unit)
  | settle (kind : SettlementKind)
  | abandon
  | dropped
  | internal
  | passed

/-! ### The transaction loop -/

/-- Where `transaction_loop` is, with the attempt it makes. -/
inductive Flow where
  | entering (attempt : ℕ)
  | calling (attempt : ℕ)
  | executing (attempt : ℕ)
  | backingOff (attempt : ℕ) (outcome : TransactionOutcome)
  | arming (attempt : ℕ) (outcome : TransactionOutcome)
  | resting (attempt : ℕ) (outcome : TransactionOutcome) (wake : ℕ)
  | sleeping (attempt : ℕ) (outcome : TransactionOutcome) (wake : ℕ)

/-- After a report: return it, or try again. -/
def Flow.judge (p : RetryPolicy) (attempt : ℕ) (outcome : TransactionOutcome) :
    Flow ⊕ TransactionOutcome :=
  if !outcome.mayRetry || !p.allowsAttempt (nextAttempt attempt) then .inr outcome
  else .inl (.backingOff attempt outcome)

/-- One step of `transaction_loop` at an instant. A call that is not made or not awaited to its
end for want of time counts as an unknown commit. -/
inductive FlowStep (p : RetryPolicy) (horizon cutoff now : ℕ) :
    Flow → Event → Flow ⊕ TransactionOutcome → Prop where
  | expire {n : ℕ} (late : cutoff ≤ now) :
      FlowStep p horizon cutoff now (.entering n) .internal (.inr (.notStarted .infrastructure))
  | enter {n : ℕ} (early : now < cutoff) :
      FlowStep p horizon cutoff now (.entering n) .internal (.inl (.calling n))
  | refuse {n : ℕ} (late : cutoff ≤ now) :
      FlowStep p horizon cutoff now (.calling n) (.reported .commitUnknown)
        (Flow.judge p n .commitUnknown)
  | call {n : ℕ} (early : now < cutoff) :
      FlowStep p horizon cutoff now (.calling n) .executed (.inl (.executing n))
  | answer {n : ℕ} (outcome : TransactionOutcome) :
      FlowStep p horizon cutoff now (.executing n) (.reported outcome) (Flow.judge p n outcome)
  | timeout {n : ℕ} (late : cutoff ≤ now) :
      FlowStep p horizon cutoff now (.executing n) (.reported .commitUnknown)
        (Flow.judge p n .commitUnknown)
  | exhausted {n : ℕ} {outcome : TransactionOutcome} (short : cutoff - now ≤ p.delayAfter n) :
      FlowStep p horizon cutoff now (.backingOff n outcome) .internal (.inr outcome)
  | again {n : ℕ} {outcome : TransactionOutcome} (enough : p.delayAfter n < cutoff - now) :
      FlowStep p horizon cutoff now (.backingOff n outcome) .internal (.inl (.arming n outcome))
  | arm {n : ℕ} {outcome : TransactionOutcome} :
      FlowStep p horizon cutoff now (.arming n outcome) .internal
        (.inl (.resting n outcome (capped horizon cutoff now (p.delayAfter n))))
  | restless {n : ℕ} {outcome : TransactionOutcome} {wake : ℕ} (late : cutoff ≤ now) :
      FlowStep p horizon cutoff now (.resting n outcome wake) .internal (.inr outcome)
  | rest {n : ℕ} {outcome : TransactionOutcome} {wake : ℕ} (early : now < cutoff) :
      FlowStep p horizon cutoff now (.resting n outcome wake) .internal
        (.inl (.sleeping n outcome wake))
  | overslept {n : ℕ} {outcome : TransactionOutcome} {wake : ℕ} (late : cutoff ≤ now) :
      FlowStep p horizon cutoff now (.sleeping n outcome wake) .internal (.inr outcome)
  | woken {n : ℕ} {outcome : TransactionOutcome} {wake : ℕ} (due : wake ≤ now) :
      FlowStep p horizon cutoff now (.sleeping n outcome wake) .internal
        (.inl (.entering (nextAttempt n)))

/-! ### The renewal loop -/

inductive Renewal where
  | arming
  | resting (wake : ℕ)
  | sleeping (wake : ℕ)
  | calling
  | extending

/-- How `renewal_loop` ends. -/
inductive RenewalExit where
  | lost
  | failed (kind : MessagingErrorKind)
  deriving DecidableEq, Repr

inductive RenewalStep (horizon cutoff now : ℕ) :
    Renewal → Event → Renewal ⊕ RenewalExit → Prop where
  | arm (policy : LeaseRenewalPolicy) :
      RenewalStep horizon cutoff now .arming .internal
        (.inl (.resting (capped horizon cutoff now policy.interval)))
  | restless {wake : ℕ} (late : cutoff ≤ now) :
      RenewalStep horizon cutoff now (.resting wake) .internal (.inr (.failed .deadlineElapsed))
  | rest {wake : ℕ} (early : now < cutoff) :
      RenewalStep horizon cutoff now (.resting wake) .internal (.inl (.sleeping wake))
  | overslept {wake : ℕ} (late : cutoff ≤ now) :
      RenewalStep horizon cutoff now (.sleeping wake) .internal (.inr (.failed .deadlineElapsed))
  | woken {wake : ℕ} (due : wake ≤ now) :
      RenewalStep horizon cutoff now (.sleeping wake) .internal (.inl .calling)
  | refuse (late : cutoff ≤ now) :
      RenewalStep horizon cutoff now .calling .internal (.inr (.failed .deadlineElapsed))
  | call (early : now < cutoff) :
      RenewalStep horizon cutoff now .calling .internal (.inl .extending)
  | held {remaining : ℕ} {policy : LeaseRenewalPolicy} (fits : policy.fits remaining = true) :
      RenewalStep horizon cutoff now .extending (.extended (.ok (.held remaining))) (.inl .arming)
  | short {remaining : ℕ} {policy : LeaseRenewalPolicy} (fits : policy.fits remaining = false) :
      RenewalStep horizon cutoff now .extending (.extended (.ok (.held remaining)))
        (.inr (.failed .invariant))
  | lost : RenewalStep horizon cutoff now .extending (.extended (.ok .lost)) (.inr .lost)
  | error (kind : MessagingErrorKind) :
      RenewalStep horizon cutoff now .extending (.extended (.error kind)) (.inr (.failed kind))

/-! ### The delivery -/

/-- Where `consume_once` is. A settlement or an abandonment carries what is returned after it;
after an earlier error that error is returned whatever becomes of the abandonment. -/
inductive Control where
  | starting
  | verifying
  | claimCall (binding : VerifiedConsumerBinding)
  | claiming (binding : VerifiedConsumerBinding)
  | extendCall
  | extending
  | racing (flow : Flow) (renewal : Renewal)
  | alone (flow : Flow)
  | releaseCall
  | releasing
  | settleCall (kind : SettlementKind) (disposition : ProcessingDisposition)
  | settling (disposition : ProcessingDisposition)
  | abandonCall (result : Return)
  | abandoning (result : Return)
  | done (result : Return)

/-- `finalize_outcome`. -/
def finalizeOutcome : TransactionOutcome → Control
  | .committed receipt =>
      .settleCall (settlementForDisposition receipt.disposition) (.committed receipt.disposition)
  | .notStarted _ | .rolledBack _ => .releaseCall
  | .rollbackFailed | .commitUnknown => .abandonCall (.ok .deferred)
  | .fenced => .abandonCall (.ok .fenced)

/-- The claim answered; a claim that was acquired is renewed once before any work. -/
def afterClaim (b : VerifiedConsumerBinding) :
    Except MessagingErrorKind IdempotencyDisposition → Control
  | .error kind => .abandonCall (.error kind)
  | .ok .inProgress => .settleCall .requeue .inProgress
  | .ok (.terminal receipt) =>
      match validateTerminal b receipt with
      | .ok disposition =>
          .settleCall (settlementForDisposition disposition) (.duplicate disposition)
      | .error reason => .settleCall .reject (.rejected reason)
  | .ok .acquired => .extendCall

/-- The first renewal answered. -/
def afterExtend (policy : LeaseRenewalPolicy) : Except MessagingErrorKind LeaseStatus → Control
  | .ok (.held remaining) =>
      if policy.fits remaining then .racing (.entering 1) .arming
      else .abandonCall (.error .invariant)
  | .ok .lost => .abandonCall (.ok .fenced)
  | .error kind => .abandonCall (.error kind)

/-- The transaction loop went on or returned. -/
def afterFlow (resume : Flow → Control) : Flow ⊕ TransactionOutcome → Control
  | .inl flow => resume flow
  | .inr outcome => finalizeOutcome outcome

/-- The renewal loop went on or ended the race. Past the operation cutoff the transaction is
awaited alone. -/
def afterRenewal (flow : Flow) : Renewal ⊕ RenewalExit → Control
  | .inl renewal => .racing flow renewal
  | .inr (.failed .deadlineElapsed) => .alone flow
  | .inr .lost => .abandonCall (.ok .fenced)
  | .inr (.failed kind) => .abandonCall (.error kind)

def afterRelease : Except MessagingErrorKind Unit → Control
  | .ok _ => .settleCall .requeue .deferred
  | .error kind => .abandonCall (.error kind)

def afterSettle (disposition : ProcessingDisposition) : Except MessagingErrorKind Unit → Return
  | .ok _ => .ok disposition
  | .error kind => .error kind

/-- The primary error wins over that of the abandonment. -/
def afterAbandon (result : Return) : Except MessagingErrorKind Unit → Return
  | .ok _ => result
  | .error kind =>
      match result with
      | .ok _ => .error kind
      | .error primary => .error primary

/-- One subscription's execution and the message delivered to it. -/
structure Execution where
  group : String
  subscription : String
  retry : RetryPolicy
  budget : ExecutionBudget
  message : Message
  horizon : ℕ

/-- A move of `consume_once` from one point to another, at an instant and under the two cutoffs.
Both loops of the race may move; what ends one ends the race. `within` calls nothing once its
cutoff has passed; a pending call ends with any answer, and one that outlives its cutoff with
`deadlineElapsed`. -/
inductive Move (x : Execution) (now operation settlement : ℕ) :
    Control → Event → Control → Prop where
  | overflow (fits : x.horizon < now + x.budget.total) :
      Move x now operation settlement .starting (.deadlines false) (.done (.error .invariant))
  | verify {binding : VerifiedConsumerBinding}
      (verdict : Except EnvelopeValidationFailure VerifiedIngress)
      (accepted : verifyIngress verdict x.group x.subscription x.message = .ok binding) :
      Move x now operation settlement .verifying (.verified (.ok binding)) (.claimCall binding)
  | reject {reason : EnvelopeValidationFailure}
      (verdict : Except EnvelopeValidationFailure VerifiedIngress)
      (refused : verifyIngress verdict x.group x.subscription x.message = .error reason) :
      Move x now operation settlement .verifying (.verified (.error reason))
        (.settleCall .reject (.rejected reason))
  | claimLate {binding : VerifiedConsumerBinding} (late : operation ≤ now) :
      Move x now operation settlement (.claimCall binding) (.claimed (.error .deadlineElapsed))
        (afterClaim binding (.error .deadlineElapsed))
  | claim {binding : VerifiedConsumerBinding} (early : now < operation) :
      Move x now operation settlement (.claimCall binding) .internal (.claiming binding)
  | claimed {binding : VerifiedConsumerBinding}
      (result : Except MessagingErrorKind IdempotencyDisposition) :
      Move x now operation settlement (.claiming binding) (.claimed result)
        (afterClaim binding result)
  | extendLate {policy : LeaseRenewalPolicy} (late : operation ≤ now) :
      Move x now operation settlement .extendCall (.extended (.error .deadlineElapsed))
        (afterExtend policy (.error .deadlineElapsed))
  | extend (early : now < operation) :
      Move x now operation settlement .extendCall .internal .extending
  | extended {policy : LeaseRenewalPolicy} (result : Except MessagingErrorKind LeaseStatus) :
      Move x now operation settlement .extending (.extended result) (afterExtend policy result)
  | flow {flow : Flow} {renewal : Renewal} {a : Event} {next : Flow ⊕ TransactionOutcome}
      (moved : FlowStep x.retry x.horizon operation now flow a next) :
      Move x now operation settlement (.racing flow renewal) a
        (afterFlow (fun flow => .racing flow renewal) next)
  | renewal {flow : Flow} {renewal : Renewal} {a : Event} {next : Renewal ⊕ RenewalExit}
      (moved : RenewalStep x.horizon operation now renewal a next) :
      Move x now operation settlement (.racing flow renewal) a (afterRenewal flow next)
  | alone {flow : Flow} {a : Event} {next : Flow ⊕ TransactionOutcome}
      (moved : FlowStep x.retry x.horizon operation now flow a next) :
      Move x now operation settlement (.alone flow) a (afterFlow .alone next)
  | releaseLate (late : settlement ≤ now) :
      Move x now operation settlement .releaseCall (.released (.error .deadlineElapsed))
        (afterRelease (.error .deadlineElapsed))
  | release (early : now < settlement) :
      Move x now operation settlement .releaseCall .internal .releasing
  | released (result : Except MessagingErrorKind Unit) :
      Move x now operation settlement .releasing (.released result) (afterRelease result)
  | settleLate {kind : SettlementKind} {disposition : ProcessingDisposition}
      (late : settlement ≤ now) :
      Move x now operation settlement (.settleCall kind disposition) .dropped
        (.done (afterSettle disposition (.error .deadlineElapsed)))
  | settle {kind : SettlementKind} {disposition : ProcessingDisposition}
      (early : now < settlement) :
      Move x now operation settlement (.settleCall kind disposition) (.settle kind)
        (.settling disposition)
  | settled {disposition : ProcessingDisposition} (result : Except MessagingErrorKind Unit) :
      Move x now operation settlement (.settling disposition) .internal
        (.done (afterSettle disposition result))
  | abandonLate {result : Return} (late : settlement ≤ now) :
      Move x now operation settlement (.abandonCall result) .dropped
        (.done (afterAbandon result (.error .deadlineElapsed)))
  | abandon {result : Return} (early : now < settlement) :
      Move x now operation settlement (.abandonCall result) .abandon (.abandoning result)
  | abandoned {result : Return} (answer : Except MessagingErrorKind Unit) :
      Move x now operation settlement (.abandoning result) .internal
        (.done (afterAbandon result answer))

structure State where
  now : ℕ
  operation : ℕ
  settlement : ℕ
  control : Control

def State.initial (now : ℕ) : State := ⟨now, 0, 0, .starting⟩

/-- The cutoffs are taken once, from one reading of the clock. -/
inductive Step (x : Execution) : State → Event → State → Prop where
  | deadlines {s : State} (here : s.control = .starting)
      (fits : s.now + x.budget.total ≤ x.horizon) :
      Step x s (.deadlines true)
        ⟨s.now, s.now + (x.budget.total - x.budget.settlementReserve), s.now + x.budget.total,
          .verifying⟩
  | move {s : State} {a : Event} {c : Control}
      (moved : Move x s.now s.operation s.settlement s.control a c) :
      Step x s a { s with control := c }
  | pass {s : State} (elapsed : ℕ) : Step x s .passed { s with now := s.now + elapsed }

end Rss.Messaging.Consumer
