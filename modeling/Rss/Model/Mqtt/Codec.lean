import Rss.Model.Messaging.Envelope
import Rss.Model.Mqtt.Client

/-! # MQTT envelopes

The user properties of a publication and the message they carry. -/

namespace Rss.Mqtt.Codec

open Rss.Contract
open Rss.Envelope
open Rss.Messaging.Consumer (EnvelopeValidationFailure)

/-! ### Names -/

namespace Name

def messageId : String := "messageId"

def tenantId : String := "tenantId"

def domain : String := "domain"

def route : String := "route"

def contractId : String := "contractId"

def schemaVersion : String := "schemaVersion"

def schemaHash : String := "schemaHash"

def occurredAt : String := "occurredAt"

def partitionKey : String := "partitionKey"

def correlation : String := "correlation"

def causationId : String := "causationId"

def trace : String := "trace"

def tenantAuthority : String := "tenantAuthority"

end Name

def attributePrefix : String := "attribute."

/-! ### Writing -/

/-- The bytes counted and the properties emitted so far. -/
structure Emitted where
  size : ℕ
  fields : List (String × String)

def u16Max : ℕ := 65535

/-- The closure `emit`. -/
def emit (limit : UInt64) (s : Emitted) (key value : String) : Except MqttError Emitted := do
  let size ← okOr (checkedAdd 64 s.size key.utf8ByteSize) .invalidMessage
  let size ← okOr (checkedAdd 64 size value.utf8ByteSize) .invalidMessage
  let size ← okOr (checkedAdd 64 size 5) .invalidMessage
  if size > limit.toNat || key.utf8ByteSize > u16Max || value.utf8ByteSize > u16Max ||
      key.toList.contains (Char.ofNat 0) || value.toList.contains (Char.ofNat 0) then
    .error .invalidMessage
  else .ok ⟨size, s.fields ++ [(key, value)]⟩

def emitOptional (limit : UInt64) (s : Emitted) (key : String) :
    Option String → Except MqttError Emitted
  | some value => emit limit s key value
  | none => .ok s

def emitAttribute (limit : UInt64) (s : Emitted) (entry : String × String) :
    Except MqttError Emitted :=
  if entry.1.utf8ByteSize > u16Max - attributePrefix.utf8ByteSize then .error .invalidMessage
  else emit limit s (attributePrefix ++ entry.1) entry.2

def encode (u : UuidText) (message : MessageEnvelope (List UInt8)) (limit : UInt64) :
    Except MqttError (List (String × String)) := do
  let m := message.metadata
  let s ← emit limit ⟨message.payload.length, []⟩ Name.messageId message.id.asStr
  let s ← emit limit s Name.tenantId (m.tenantId.text u)
  let s ← emit limit s Name.domain m.domain.asStr
  let s ← emit limit s Name.route m.route.asStr
  let s ← emit limit s Name.contractId m.contract.id.asStr
  let s ← emit limit s Name.schemaVersion m.contract.version.text
  let s ← emit limit s Name.schemaHash m.contract.schemaDigest.asStr
  let s ← emit limit s Name.occurredAt (decimal m.occurredAt.unixSeconds)
  let s ← emitOptional limit s Name.partitionKey (m.partition.map (·.key.asStr))
  let s ← emitOptional limit s Name.correlation m.correlation
  let s ← emitOptional limit s Name.causationId (m.causation.map (·.asStr))
  let s ← emitOptional limit s Name.trace message.transport.trace
  let s ← emitOptional limit s Name.tenantAuthority message.transport.tenantAuthority
  let s ← m.attributes.toList.foldlM (emitAttribute limit) s
  .ok s.fields

/-! ### Reading -/

/-- What the decoder reads of a PUBLISH: its user properties, when it has properties at all. -/
structure Publish where
  userProperties : Option (List (String × String))
  payload : List UInt8

/-- The remaining headers, each of which is an attribute. -/
def decodeAttributes (headers : Headers) : Except EnvelopeValidationFailure Attributes :=
  headers.toList.foldlM (fun attributes entry => do
    let key ← okOr (stripPrefix? attributePrefix entry.1) .malformedMetadata
    .ok (attributes.insert key entry.2)) ∅

def decode (u : UuidText) (publish : Publish) (subscription : SubscriptionIdentity) :
    Except EnvelopeValidationFailure (MessageEnvelope (List UInt8)) := do
  let properties ← okOr publish.userProperties .malformedMetadata
  let headers ← properties.foldlM (insertNew .malformedMetadata) ∅
  let (raw, headers) ← takeRequired headers Name.messageId
  let id ← orFail (MessageId.parse raw) .malformedIdentity
  let (raw, headers) ← takeRequired headers Name.tenantId
  let tenant ← orFail (TenantId.parse u raw) .malformedIdentity
  let (raw, headers) ← takeRequired headers Name.occurredAt
  let occurred ← okOr ((parseI64 raw).bind Timepoint.tryFrom) .malformedMetadata
  let (raw, headers) ← takeRequired headers Name.domain
  let domain ← orFail (MessagingDomain.parse raw) .malformedMetadata
  let (raw, headers) ← takeRequired headers Name.route
  let route ← orFail (MessageRoute.parse raw) .malformedMetadata
  let (raw, headers) ← takeRequired headers Name.contractId
  let contractId ← orFail (ContractId.parse raw) .unsupportedContract
  let (raw, headers) ← takeRequired headers Name.schemaVersion
  let version ← orFail (ContractVersion.parse raw) .unsupportedContract
  let (raw, headers) ← takeRequired headers Name.schemaHash
  let schemaDigest ← orFail (SchemaDigest.parse raw) .unsupportedContract
  let correlation ← orFail (parseOptional CorrelationId.parse headers[Name.correlation]?)
    .malformedMetadata
  let headers := headers.erase Name.correlation
  let partition ← orFail (parseOptional PartitionKey.parse headers[Name.partitionKey]?)
    .malformedMetadata
  let headers := headers.erase Name.partitionKey
  let causation ← orFail (parseOptional MessageId.parse headers[Name.causationId]?)
    .malformedMetadata
  let headers := headers.erase Name.causationId
  let trace := headers[Name.trace]?
  let headers := headers.erase Name.trace
  let tenantAuthority := headers[Name.tenantAuthority]?
  let headers := headers.erase Name.tenantAuthority
  let attributes ← decodeAttributes headers
  let message := (MessageEnvelope.new id
    (MessageMetadata.new ⟨tenant, occurred, domain, route, contractId, version, schemaDigest⟩
      ⟨correlation, partition, causation, attributes⟩)
    publish.payload).withTransportContext ⟨trace, tenantAuthority⟩
  if !subscription.accepts message then .error .unsupportedContract
  else .ok message

end Rss.Mqtt.Codec
