import Mathlib.Data.Nat.Notation
import Rss.Model.Messaging.Outcome

/-! # The MQTT client's vocabulary

Errors and connection states of the adapter, the answers of the client library it tells apart,
and what `outcome.rs` makes of them. -/

namespace Rss.Mqtt

open Rss.Messaging

inductive MqttError where
  | invalidConfig | invalidMessage | closed | deadlineElapsed | unavailable | connectionLost
  | brokerBusy | authentication | protocol | staleDelivery | settlementUnknown | subscriptionRejected
  | sessionState | sessionStore | unsupportedQos | receiveCapacity
  deriving DecidableEq, Repr

inductive ConnectionState where
  | connecting
  | ready (generation : ℕ) (sessionPresent : Bool)
  | reconnecting (cause : MqttError) (generation : ℕ)
  | failed (error : MqttError)
  | closed
  deriving DecidableEq, Repr

def ConnectionState.isReady : ConnectionState → Bool
  | .ready _ _ => true
  | _ => false

def ConnectionState.isFailed : ConnectionState → Bool
  | .failed _ => true
  | _ => false

inductive PubAckReason where
  | success | noMatchingSubscribers | unspecifiedError | implementationSpecificError
  | notAuthorized | topicNameInvalid | packetIdentifierInUse | quotaExceeded
  | payloadFormatInvalid
  deriving DecidableEq, Repr

/-- What `try_publish_tracked` can refuse a request with. -/
inductive ClientError where
  | invalidRequest | requestChannelFull | requestChannelDisconnected | trackingUnavailable
  | other
  deriving DecidableEq, Repr

/-- What a publish notice resolves to: a PUBACK, a result of another quality of service, or a
`PublishNoticeError`. -/
inductive Notice where
  | qos1 (reason : PubAckReason)
  | otherQos
  | retainNotSupported
  | brokerOnlySessionResume
  | otherError
  deriving DecidableEq, Repr

/-! ### Outcomes -/

def definite (kind : FailureKind) (stage : FailureStage) (reason : FailureReason) :
    PublishOutcome Unit :=
  .definitelyNotPublished ⟨kind, stage, reason⟩

def ambiguous (reason : FailureReason) : PublishOutcome Unit :=
  .ambiguous ⟨.transient, .confirm, reason⟩

def admission : ClientError → PublishOutcome Unit
  | .invalidRequest => definite .permanent .encode .invalidMessage
  | .requestChannelFull | .requestChannelDisconnected | .trackingUnavailable =>
      definite .transient .admission .transportUnavailable
  | .other => ambiguous .transportUnavailable

def puback : PubAckReason → PublishOutcome Unit
  | .success | .noMatchingSubscribers => .confirmed ()
  | .notAuthorized | .topicNameInvalid | .payloadFormatInvalid =>
      definite .permanent .confirm .providerRejected
  | .unspecifiedError | .implementationSpecificError | .packetIdentifierInUse
  | .quotaExceeded => definite .transient .confirm .providerRejected

def notice : Notice → PublishOutcome Unit
  | .qos1 reason => puback reason
  | .retainNotSupported => definite .permanent .send .providerRejected
  | .brokerOnlySessionResume => definite .transient .admission .transportUnavailable
  | .otherQos | .otherError => ambiguous .transportUnavailable

end Rss.Mqtt
