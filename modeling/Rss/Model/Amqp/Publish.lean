import Rss.Model.Amqp.Transport
import Rss.Model.Messaging.Outcome

/-! # Publish attempts

`Publisher::publish` of the AMQP adapter: what ends an attempt, what is decided about it, and
how attempts that share a confirm channel run beside the broker, the recovery of the transport
and the clock. -/

namespace Rss.Amqp

open Rss.Messaging

/-! ### The decision table -/

/-- `AMQPSoftError`. -/
inductive SoftError where
  | contentTooLarge | noRoute | noConsumers | accessRefused | notFound | resourceLocked
  | preconditionFailed
  deriving DecidableEq, Repr

/-- The kinds of `lapin::ErrorKind` the adapter tells apart. -/
inductive ClientError where
  | invalidChannel | invalidChannelState | invalidConnectionState | io | runtimeShutdown
  | missingHeartbeat | hard | soft (e : SoftError) | other
  deriving DecidableEq, Repr

inductive PublishPhase where
  | preSend | postSend | confirm
  deriving DecidableEq, Repr

def isTransportLifecycleLost : ClientError → Bool
  | .invalidChannel | .invalidChannelState | .invalidConnectionState | .io | .runtimeShutdown
  | .missingHeartbeat | .hard => true
  | .soft _ | .other => false

def isProtocolClose : ClientError → Bool
  | .hard | .soft _ => true
  | _ => false

def isPermanentSoftError : SoftError → Bool
  | .accessRefused | .preconditionFailed | .contentTooLarge => true
  | _ => false

inductive Decision where
  | keepDefinitive (kind : FailureKind)
  | retireDefinitive (generation : ℕ) (kind : FailureKind)
  | retireAmbiguous (generation : ℕ)
  deriving DecidableEq, Repr

def Decision.retirementGeneration : Decision → Option ℕ
  | .keepDefinitive _ => none
  | .retireDefinitive generation _ | .retireAmbiguous generation => some generation

/-- `PublishAttemptFailure`. -/
inductive AttemptFailure where
  | expiredAdmission
  | encoding
  | admission (e : TransportError)
  | client (generation : ℕ) (phase : PublishPhase) (source : ClientError)
  | deadline (generation : ℕ) (phase : PublishPhase)
  | nack
  | unroutable
  deriving DecidableEq, Repr

section

-- `Error::can_be_recovered` of the client library.
variable (canBeRecovered : ClientError → Bool)

def isPermanentLapin (e : ClientError) : Bool :=
  match e with
  | .soft soft => isPermanentSoftError soft || !canBeRecovered e
  | _ => !canBeRecovered e

def classifyPublishKind (e : ClientError) : FailureKind :=
  if isPermanentLapin canBeRecovered e then .permanent else .transient

def decideClientFailure (generation : ℕ) (phase : PublishPhase) (source : ClientError) :
    Decision :=
  if phase ≠ .preSend && isTransportLifecycleLost source then .retireAmbiguous generation
  else
    let kind := classifyPublishKind canBeRecovered source
    if isTransportLifecycleLost source || isProtocolClose source then
      .retireDefinitive generation kind
    else .keepDefinitive kind

namespace AttemptFailure

def decision : AttemptFailure → Decision
  | .encoding => .keepDefinitive .permanent
  | .expiredAdmission | .admission _ | .nack | .unroutable => .keepDefinitive .transient
  | .client generation phase source => decideClientFailure canBeRecovered generation phase source
  | .deadline generation _ => .retireAmbiguous generation

def diagnostic (f : AttemptFailure) (kind : FailureKind) : PublishFailure where
  kind := kind
  stage := match f with
    | .encoding => .encode
    | .expiredAdmission | .admission _ => .admission
    | .client _ .preSend _ => .send
    | .client _ _ _ | .deadline _ _ | .nack | .unroutable => .confirm
  reason := match f with
    | .encoding => .invalidMessage
    | .expiredAdmission | .deadline _ _ => .deadlineElapsed
    | .nack | .unroutable => .providerRejected
    | .admission _ | .client _ _ _ => .transportUnavailable

/-- The outcome of `apply_publish_failure_decision`. -/
def outcome (f : AttemptFailure) : PublishOutcome Unit :=
  match f.decision canBeRecovered with
  | .keepDefinitive kind | .retireDefinitive _ kind => .definitelyNotPublished (f.diagnostic kind)
  | .retireAmbiguous _ => .ambiguous (f.diagnostic .transient)

end AttemptFailure

/-! ### Attempts beside the broker -/

/-- What `PublisherConfirm` resolves to. -/
inductive Confirmation where
  | ack
  | returned
  | nack
  deriving DecidableEq, Repr

/-- Why an attempt ended. -/
inductive Ending where
  | failed (failure : AttemptFailure)
  | confirmed (time : ℕ)
  deriving DecidableEq, Repr

/-- What the broker made of a message it was sent, as far as that is decided. -/
inductive Fate where
  | open_
  | accepted
  | refused
  deriving DecidableEq, Repr

/-- A message handed to the client: the transport it uses, whether its channel had closed by
then, and the cutoff of its attempt. -/
structure Handed where
  generation : ℕ
  transport : ℕ
  late : Bool
  cutoff : ℕ
  deriving DecidableEq, Repr

/-- An attempt awaits its confirmation, ended with an outcome, or was dropped by its caller. -/
inductive Attempt where
  | waiting
  | ended (ending : Ending) (outcome : PublishOutcome Unit)
  | dropped
  deriving DecidableEq, Repr

structure Publishing where
  transport : State
  attempts : ℕ → Option Attempt
  handed : ℕ → Option Handed
  fate : ℕ → Fate
  /-- The error that closed the channel or its connection, by transport. -/
  closed : ℕ → Option ClientError
  now : ℕ

namespace Publishing

def start : Publishing where
  transport := .start
  attempts := fun _ => none
  handed := fun _ => none
  fate := fun _ => .open_
  closed := fun _ => none
  now := 0

def setAttempt (s : Publishing) (i : ℕ) (a : Attempt) : Publishing :=
  { s with attempts := fun j => if j = i then some a else s.attempts j }

def setFate (s : Publishing) (i : ℕ) (f : Fate) : Publishing :=
  { s with fate := fun j => if j = i then f else s.fate j }

/-- `handle_publish_failure`. -/
def fail (s : Publishing) (i : ℕ) (f : AttemptFailure) : Publishing :=
  let s := s.setAttempt i (.ended (.failed f) (f.outcome canBeRecovered))
  match (f.decision canBeRecovered).retirementGeneration with
  | some generation => { s with transport := s.transport.retireTransport generation }
  | none => s

/-- After a close that the broker answers for, it takes nothing more from the channel. -/
def Receives (s : Publishing) (h : Handed) : Prop :=
  h.late = false ∧ ∀ e ∈ s.closed h.transport, isProtocolClose e = false

instance (s : Publishing) (h : Handed) : Decidable (s.Receives h) :=
  inferInstanceAs (Decidable (_ ∧ ∀ e ∈ _, _))

/-- The message awaits its confirmation on this transport. -/
def Unconfirmed (s : Publishing) (c i : ℕ) : Prop :=
  s.attempts i = some .waiting ∧ ∃ h, s.handed i = some h ∧ h.transport = c ∧ h.late = false

end Publishing

/-- What the failures before the message is handed over can be. -/
def AttemptFailure.unsent : AttemptFailure → Bool
  | .expiredAdmission | .encoding | .admission _ | .client _ .preSend _ => true
  | _ => false

/-- The failure a confirmation stands for, unless it is an acknowledgement. -/
def Confirmation.failure : Confirmation → Option AttemptFailure
  | .ack => none
  | .returned => some .unroutable
  | .nack => some .nack

/-- One step of an attempt, of the broker, of the transport's owners or of the clock. -/
inductive PublishStep : Publishing → Publishing → Prop where
  | refuse {s : Publishing} {i : ℕ} {f : AttemptFailure} (fresh : s.attempts i = none)
      (unsent : f.unsent) : PublishStep s (s.fail canBeRecovered i f)
  | hand {s : Publishing} {i cutoff generation transport admission : ℕ} {t : State}
      (fresh : s.attempts i = none) (before : s.now < cutoff)
      (snapshot : s.transport.transportSnapshot = (.ok (generation, transport, admission), t)) :
      PublishStep s
        { s.setAttempt i .waiting with
          transport := t
          handed := fun j => if j = i then
            some ⟨generation, transport, (s.closed transport).isSome, cutoff⟩ else s.handed j }
  | accept {s : Publishing} {i : ℕ} {h : Handed} (handed : s.handed i = some h)
      (receives : s.Receives h) (undecided : s.fate i = .open_) :
      PublishStep s (s.setFate i .accepted)
  | turnDown {s : Publishing} {i : ℕ} (undecided : s.fate i = .open_) :
      PublishStep s (s.setFate i .refused)
  | acknowledge {s : Publishing} {i : ℕ} {h : Handed} (waiting : s.attempts i = some .waiting)
      (handed : s.handed i = some h) (accepted : s.fate i = .accepted)
      (before : s.now < h.cutoff) :
      PublishStep s (s.setAttempt i (.ended (.confirmed s.now) (.confirmed ())))
  | reject {s : Publishing} {i : ℕ} {h : Handed} {c : Confirmation} {f : AttemptFailure}
      (waiting : s.attempts i = some .waiting) (handed : s.handed i = some h)
      (refused : s.fate i = .refused) (before : s.now < h.cutoff) (failure : c.failure = some f) :
      PublishStep s (s.fail canBeRecovered i f)
  | close {s : Publishing} {c : ℕ} (e : ClientError) (offender : Option ℕ)
      (up : s.closed c = none) (unaccepted : ∀ i ∈ offender, s.fate i ≠ .accepted) :
      PublishStep s
        { s with
          closed := fun d => if d = c then some e else s.closed d
          fate := fun i => if some i = offender then .refused else s.fate i }
  | complete {s : Publishing} {i : ℕ} {h : Handed} {e : ClientError} {phase : PublishPhase}
      (waiting : s.attempts i = some .waiting) (handed : s.handed i = some h)
      (closed : s.closed h.transport = some e) (sent : phase ≠ .preSend)
      (before : s.now < h.cutoff) :
      PublishStep s (s.fail canBeRecovered i
        (.client h.generation phase (if h.late then .invalidChannelState else e)))
  | expire {s : Publishing} {i : ℕ} {h : Handed} {phase : PublishPhase}
      (waiting : s.attempts i = some .waiting) (handed : s.handed i = some h)
      (sent : phase ≠ .preSend) (elapsed : h.cutoff ≤ s.now) :
      PublishStep s (s.fail canBeRecovered i (.deadline h.generation phase))
  | drop {s : Publishing} {i : ℕ} {h : Handed} (waiting : s.attempts i = some .waiting)
      (handed : s.handed i = some h) :
      PublishStep s
        { s.setAttempt i .dropped with
          transport := s.transport.retireTransport h.generation }
  | transport {s : Publishing} {a : Action} {t : State} (step : Step s.transport a t) :
      PublishStep s { s with transport := t }
  | elapse {s : Publishing} (elapsed : ℕ) : PublishStep s { s with now := s.now + elapsed }

end

end Rss.Amqp
