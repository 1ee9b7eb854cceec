import Rss.Library.Entries
import Rss.Library.Framing
import Rss.Model.Contract.Identity
import Rss.Model.Messaging.Consumer

/-! # Authored messages

The identities of a message, its metadata and its envelope. The texts of UUIDs and the digest are
those of the crates `uuid` and `sha2`. -/

namespace Rss.Envelope

open Rss.Contract
open Rss.Sql (Uuid)
open Rss.Messaging.Inbox (Digest)
open Rss.Messaging.Consumer (EnvelopeValidationFailure)
open Std

/-! ### Identities -/

inductive MessageIdentityError where
  | empty | tooLong | invalidChar
  deriving DecidableEq, Repr

/-- An identity of one to `maxLen` bytes, each of which is allowed. -/
def validateIdentity (allowed : UInt8 → Bool) (maxLen : ℕ) (raw : String) :
    Except MessageIdentityError Unit :=
  if raw = "" then .error .empty
  else if raw.utf8ByteSize > maxLen then .error .tooLong
  else if !(utf8 raw).all allowed then .error .invalidChar
  else .ok ()

def validateTransportIdentity (maxLen : ℕ) (raw : String) : Except MessageIdentityError Unit :=
  validateIdentity (fun b => isAsciiAlphanumeric b || [46, 45, 95, 58].contains b) maxLen raw

def messageIdMaxLen : ℕ := 255

def partitionKeyMaxLen : ℕ := 255

abbrev MessageId := Checked (validateTransportIdentity messageIdMaxLen)

/-- Domains and routes have the syntax of a message id. -/
abbrev MessagingDomain := Checked (validateTransportIdentity messageIdMaxLen)

abbrev MessageRoute := Checked (validateTransportIdentity messageIdMaxLen)

def MessageId.parse (raw : String) : Except MessageIdentityError MessageId := Checked.parse _ raw

def MessagingDomain.parse (raw : String) : Except MessageIdentityError MessagingDomain :=
  Checked.parse _ raw

def MessageRoute.parse (raw : String) : Except MessageIdentityError MessageRoute :=
  Checked.parse _ raw

def validatePartitionKey (raw : String) : Except MessageIdentityError Unit :=
  validateIdentity (fun b => !isAsciiControl b) partitionKeyMaxLen raw

abbrev PartitionKey := Checked validatePartitionKey

def PartitionKey.parse (raw : String) : Except MessageIdentityError PartitionKey :=
  Checked.parse _ raw

/-- The errors of `CorrelationId::parse` have the names of those of a message identity. -/
def validateCorrelationId (raw : String) : Except MessageIdentityError Unit :=
  validateIdentity (fun b => isAsciiAlphanumeric b || [45, 95, 46].contains b) 128 raw

abbrev CorrelationId := Checked validateCorrelationId

def CorrelationId.parse (raw : String) : Except MessageIdentityError CorrelationId :=
  Checked.parse _ raw

/-! ### Contracts -/

structure ContractIdentity where
  id : ContractId
  version : ContractVersion
  schemaDigest : SchemaDigest
  deriving DecidableEq

/-! ### Tenants -/

/-- The texts of UUIDs. -/
structure UuidText where
  hyphenated : Uuid → String
  tryParse : String → Option Uuid

/-- A hyphenated text is not empty and is read back. -/
structure UuidText.Lawful (u : UuidText) : Prop where
  tryParse_hyphenated : ∀ id, u.tryParse (u.hyphenated id) = some id
  hyphenated_ne : ∀ id, u.hyphenated id ≠ ""

inductive TenantIdError where
  | empty | nil | invalidFormat
  deriving DecidableEq, Repr

structure TenantId where
  uuid : Uuid
  not_nil : uuid ≠ 0

instance : DecidableEq TenantId := fun a b =>
  decidable_of_iff (a.uuid = b.uuid) (by cases a; cases b; simp)

def TenantId.parse (u : UuidText) (value : String) : Except TenantIdError TenantId :=
  if value = "" then .error .empty
  else
    match u.tryParse value with
    | none => .error .invalidFormat
    | some parsed =>
        if u.hyphenated parsed ≠ value then .error .invalidFormat
        else if h : parsed = 0 then .error .nil
        else .ok ⟨parsed, h⟩

def TenantId.text (u : UuidText) (t : TenantId) : String := u.hyphenated t.uuid

def TenantId.octets (t : TenantId) : List UInt8 := beBytes 16 t.uuid.toNat

/-! ### Envelopes -/

structure PartitionIdentity where
  tenantId : TenantId
  domain : MessagingDomain
  key : PartitionKey
  deriving DecidableEq

abbrev Attributes := ExtTreeMap String String

structure AuthoredMessageMetadata where
  tenantId : TenantId
  occurredAt : Timepoint
  domain : MessagingDomain
  route : MessageRoute
  contract : ContractIdentity

structure MessageMetadataExtensions where
  correlation : Option CorrelationId
  partitionKey : Option PartitionKey
  causation : Option MessageId
  attributes : Attributes

/-- Its partition is that of its tenant and domain, and its correlation was checked. -/
structure MessageMetadata where
  tenantId : TenantId
  occurredAt : Timepoint
  correlation : Option String
  domain : MessagingDomain
  route : MessageRoute
  contract : ContractIdentity
  partition : Option PartitionIdentity
  causation : Option MessageId
  attributes : Attributes
  correlation_valid : ∀ c ∈ correlation, validateCorrelationId c = .ok ()
  partition_scope : ∀ p ∈ partition, p.tenantId = tenantId ∧ p.domain = domain

def MessageMetadata.new (required : AuthoredMessageMetadata)
    (extensions : MessageMetadataExtensions) : MessageMetadata where
  tenantId := required.tenantId
  occurredAt := required.occurredAt
  correlation := extensions.correlation.map (·.asStr)
  domain := required.domain
  route := required.route
  contract := required.contract
  partition := extensions.partitionKey.map fun key => ⟨required.tenantId, required.domain, key⟩
  causation := extensions.causation
  attributes := extensions.attributes
  correlation_valid := by
    intro c hc
    obtain ⟨value, -, rfl⟩ := Option.map_eq_some_iff.mp hc
    exact value.valid
  partition_scope := by
    intro p hp
    obtain ⟨key, -, rfl⟩ := Option.map_eq_some_iff.mp hp
    exact ⟨rfl, rfl⟩

structure TransportContext where
  trace : Option String
  tenantAuthority : Option String
  deriving DecidableEq, Repr

structure MessageEnvelope (P : Type) where
  id : MessageId
  metadata : MessageMetadata
  transport : TransportContext
  payload : P

/-- An envelope without a transport context. -/
def MessageEnvelope.new {P : Type} (id : MessageId) (metadata : MessageMetadata) (payload : P) :
    MessageEnvelope P :=
  ⟨id, metadata, ⟨none, none⟩, payload⟩

def MessageEnvelope.withTransportContext {P : Type} (message : MessageEnvelope P)
    (transport : TransportContext) : MessageEnvelope P :=
  { message with transport := transport }

structure SubscriptionIdentity where
  domain : MessagingDomain
  route : MessageRoute
  contract : ContractIdentity
  deriving DecidableEq

def SubscriptionIdentity.accepts {P : Type} (s : SubscriptionIdentity)
    (message : MessageEnvelope P) : Bool :=
  message.metadata.domain = s.domain && message.metadata.route = s.route &&
    message.metadata.contract = s.contract

/-! ### Fingerprints -/

def fingerprintDomain : String := "rss-transactional-message-v1"

/-- A tagged value behind its length. -/
def tagged (tag : UInt8) (value : List UInt8) : List UInt8 := tag :: frame 8 value

def taggedOptional (tag : UInt8) : Option (List UInt8) → List UInt8
  | some value => tagged tag [1] ++ tagged tag value
  | none => tagged tag [0]

def taggedPartition : Option PartitionIdentity → List UInt8
  | some p =>
      tagged 10 [1] ++ tagged 11 p.tenantId.octets ++ tagged 12 (utf8 p.domain.asStr) ++
        tagged 13 (utf8 p.key.asStr)
  | none => tagged 10 [0]

/-- The bytes under the fingerprint. -/
def canonicalBytes (message : MessageEnvelope (List UInt8)) : List UInt8 :=
  let m := message.metadata
  tagged 0 (utf8 fingerprintDomain) ++
  tagged 1 (utf8 message.id.asStr) ++
  tagged 2 m.tenantId.octets ++
  tagged 3 (beBytes 8 m.occurredAt.unixSeconds.toNat) ++
  taggedOptional 4 (m.correlation.map utf8) ++
  tagged 5 (utf8 m.domain.asStr) ++
  tagged 6 (utf8 m.route.asStr) ++
  tagged 7 (utf8 m.contract.id.asStr) ++
  tagged 8 (beBytes 4 m.contract.version.major) ++
  tagged 9 (utf8 m.contract.schemaDigest.asStr) ++
  taggedPartition m.partition ++
  taggedOptional 14 (m.causation.map fun id => utf8 id.asStr) ++
  tagged 15 (beBytes 8 m.attributes.toList.length) ++
  m.attributes.toList.flatMap (fun entry => tagged 16 (utf8 entry.1) ++ tagged 17 (utf8 entry.2)) ++
  tagged 18 message.payload

/-- `MessageFingerprint::of`. -/
def fingerprint (sha256 : List UInt8 → Digest) (message : MessageEnvelope (List UInt8)) : Digest :=
  sha256 (canonicalBytes message)

/-! ### Headers -/

abbrev Headers := ExtTreeMap String String

/-- The table without a header that is present and not empty. -/
def takeRequired (headers : Headers) (key : String) :
    Except EnvelopeValidationFailure (String × Headers) :=
  match headers[key]?.filter (fun value => value ≠ "") with
  | some value => .ok (value, headers.erase key)
  | none => .error .malformedMetadata

/-- `map_err(|_| …)`. -/
def orFail {ε α : Type} (x : Except ε α) (failure : EnvelopeValidationFailure) :
    Except EnvelopeValidationFailure α :=
  x.mapError fun _ => failure

/-- `map(parse).transpose()`. -/
def parseOptional {ε α : Type} (parse : String → Except ε α) : Option String → Except ε (Option α)
  | none => .ok none
  | some raw => (parse raw).map some

end Rss.Envelope
