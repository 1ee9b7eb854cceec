/-! # Publish outcomes

What a provider can say about a publication (`transport.rs`). -/

namespace Rss.Messaging

inductive FailureKind where
  | transient | permanent
  deriving DecidableEq, Repr

inductive FailureStage where
  | encode | admission | send | confirm
  deriving DecidableEq, Repr

inductive FailureReason where
  | invalidMessage | transportUnavailable | deadlineElapsed | providerRejected
  deriving DecidableEq, Repr

structure PublishFailure where
  kind : FailureKind
  stage : FailureStage
  reason : FailureReason
  deriving DecidableEq, Repr

inductive PublishOutcome (ρ : Type) where
  | confirmed (receipt : ρ)
  | definitelyNotPublished (failure : PublishFailure)
  | ambiguous (failure : PublishFailure)
  deriving DecidableEq, Repr

end Rss.Messaging
