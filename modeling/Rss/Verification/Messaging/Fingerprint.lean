import Rss.Library.Prefixes
import Rss.Verification.Messaging.Envelope

/-! # The bytes under a fingerprint

They are read in one way, so that two messages share them only when they were authored alike. -/

namespace Rss.Envelope

open Rss.Contract
open Rss.Messaging.Inbox (Digest)
open Std

/-! ### Texts and their bytes -/

theorem utf8_eq (s : String) : utf8 s = s.toByteArray.data.toList := by
  rw [← String.utf8Encode_toList, List.utf8Encode, List.data_toByteArray]
  rfl

theorem utf8_inj {s t : String} (h : utf8 s = utf8 t) : s = t := by
  rw [utf8_eq, utf8_eq] at h
  exact String.toByteArray_inj.mp (ByteArray.ext (Array.toList_inj.mp h))

theorem length_utf8 (s : String) : (utf8 s).length = s.utf8ByteSize := by
  rw [utf8_eq, Array.length_toList]
  rfl

theorem Checked.ext_utf8 {ε : Type} {check : String → Except ε Unit} {s t : Checked check}
    (h : utf8 s.asStr = utf8 t.asStr) : s = t := by
  cases s
  cases t
  cases utf8_inj h
  rfl

/-! ### Frames -/

theorem readable_tagged (tag : UInt8) :
    Readable (fun bytes : List UInt8 => bytes.length < 2 ^ 64) (tagged tag) :=
  ((readable_frame 8).behind [tag]).mono fun _ h => h

theorem readable_text (tag : UInt8) :
    Readable (fun s : String => s.utf8ByteSize < 2 ^ 64) (fun s => tagged tag (utf8 s)) :=
  (readable_tagged tag).comp (fun s h => (length_utf8 s).symm ▸ h) fun _ _ _ _ h => utf8_inj h

theorem readable_option (tag : UInt8) {α : Type} {valid : α → Prop} {encode : α → List UInt8}
    (h : Readable valid encode) : Readable (fun o : Option α => ∀ a ∈ o, valid a)
      (fun o => o.elim (tagged tag [0]) fun a => tagged tag [1] ++ encode a) :=
  h.option rfl fun heq => by
    have := (readable_tagged tag).injective (by decide) (by decide) heq
    cases this

/-! ### Sizes -/

theorem size_of_identity {allowed : UInt8 → Bool} {maxLen : ℕ} {raw : String}
    (h : validateIdentity allowed maxLen raw = .ok ()) : raw.utf8ByteSize ≤ maxLen := by
  unfold validateIdentity at h
  split at h
  · cases h
  · split at h
    · cases h
    · rename_i hsize
      exact Nat.le_of_not_lt hsize

theorem size_identity {allowed : UInt8 → Bool} {maxLen : ℕ} (hmax : maxLen < 2 ^ 64)
    (t : Checked (validateIdentity allowed maxLen)) : t.asStr.utf8ByteSize < 2 ^ 64 :=
  Nat.lt_of_le_of_lt (size_of_identity t.valid) hmax

theorem size_contractId (id : ContractId) : id.asStr.utf8ByteSize < 2 ^ 64 := by
  have h := id.valid
  unfold validateContractId at h
  split at h
  · cases h
  · split at h
    · cases h
    · rename_i hsize
      omega

theorem size_schemaDigest (digest : SchemaDigest) : digest.asStr.utf8ByteSize < 2 ^ 64 := by
  have h := digest.valid
  unfold validateSchemaDigest at h
  split at h
  · cases h
  · rename_i hvalid
    rw [Bool.not_eq_true', Bool.not_eq_false] at hvalid
    simp only [validSchemaDigest, Bool.and_eq_true, decide_eq_true_eq, length_utf8] at hvalid
    rw [hvalid.1.1]
    decide

theorem octets_inj {t t' : TenantId} (h : t.octets = t'.octets) : t = t' := by
  have hnat := beBytes_inj t.uuid.isLt t'.uuid.isLt h
  cases t
  cases t'
  cases BitVec.eq_of_toNat_eq hnat
  rfl

/-! ### Parts of a message -/

theorem taggedOptional_eq (tag : UInt8) (o : Option (List UInt8)) :
    taggedOptional tag o = o.elim (tagged tag [0]) fun value => tagged tag [1] ++ tagged tag value := by
  cases o <;> rfl

theorem readable_partition : Readable (fun _ : Option PartitionIdentity => True) taggedPartition := by
  have hpart : Readable (fun _ : PartitionIdentity => True) (fun p =>
      tagged 11 p.tenantId.octets ++ tagged 12 (utf8 p.domain.asStr) ++
        tagged 13 (utf8 p.key.asStr)) := by
    intro p q rest rest' _ _ h
    simp only [List.append_assoc] at h
    obtain ⟨htenant, h⟩ := readable_tagged 11 (by simp [TenantId.octets]) (by simp [TenantId.octets]) h
    obtain ⟨hdomain, h⟩ := readable_text 12 (size_identity (by decide) p.domain)
      (size_identity (by decide) q.domain) h
    obtain ⟨hkey, h⟩ := readable_text 13 (size_identity (by decide) p.key)
      (size_identity (by decide) q.key) h
    refine ⟨?_, h⟩
    cases p
    cases q
    cases octets_inj htenant
    cases Checked.ext_utf8 (congrArg utf8 hdomain)
    cases Checked.ext_utf8 (congrArg utf8 hkey)
    rfl
  have hoption := readable_option 10 hpart
  intro p q rest rest' _ _ h
  have helim : ∀ o, taggedPartition o = o.elim (tagged 10 [0]) fun p => tagged 10 [1] ++
      (tagged 11 p.tenantId.octets ++ tagged 12 (utf8 p.domain.asStr) ++
        tagged 13 (utf8 p.key.asStr)) := by
    intro o
    cases o with
    | none => rfl
    | some p => simp only [taggedPartition, Option.elim_some, List.append_assoc]
  rw [helim, helim] at h
  exact hoption (fun _ _ => trivial) (fun _ _ => trivial) h

/-! ### Messages -/

/-- What the lengths of strings, vectors and maps are: 64-bit numbers. -/
structure Addressable (message : MessageEnvelope (List UInt8)) : Prop where
  payload : message.payload.length < 2 ^ 64
  count : message.metadata.attributes.toList.length < 2 ^ 64
  attributes : ∀ entry ∈ message.metadata.attributes.toList,
    entry.1.utf8ByteSize < 2 ^ 64 ∧ entry.2.utf8ByteSize < 2 ^ 64

theorem Addressable.withTransportContext {message : MessageEnvelope (List UInt8)}
    (h : Addressable message) (transport : TransportContext) :
    Addressable (message.withTransportContext transport) :=
  ⟨h.payload, h.count, h.attributes⟩

theorem readable_attribute : Readable
    (fun entry : String × String => entry.1.utf8ByteSize < 2 ^ 64 ∧ entry.2.utf8ByteSize < 2 ^ 64)
    (fun entry => tagged 16 (utf8 entry.1) ++ tagged 17 (utf8 entry.2)) :=
  (readable_text 16).append (readable_text 17)

theorem metadata_ext {m m' : MessageMetadata} (htenant : m.tenantId = m'.tenantId)
    (htime : m.occurredAt = m'.occurredAt) (hcorrelation : m.correlation = m'.correlation)
    (hdomain : m.domain = m'.domain) (hroute : m.route = m'.route)
    (hcontract : m.contract = m'.contract) (hpartition : m.partition = m'.partition)
    (hcausation : m.causation = m'.causation) (hattributes : m.attributes = m'.attributes) :
    m = m' := by
  cases m
  cases m'
  cases htenant
  cases htime
  cases hcorrelation
  cases hdomain
  cases hroute
  cases hcontract
  cases hpartition
  cases hcausation
  cases hattributes
  rfl

theorem size_correlation (m : MessageMetadata) :
    ∀ bytes ∈ m.correlation.map utf8, bytes.length < 2 ^ 64 := by
  intro bytes hbytes
  obtain ⟨raw, hraw, rfl⟩ := Option.map_eq_some_iff.mp hbytes
  have hsize := size_of_identity (m.correlation_valid raw hraw)
  rw [length_utf8]
  omega

theorem size_causation (m : MessageMetadata) :
    ∀ bytes ∈ m.causation.map (fun id => utf8 id.asStr), bytes.length < 2 ^ 64 := by
  intro bytes hbytes
  obtain ⟨id, -, rfl⟩ := Option.map_eq_some_iff.mp hbytes
  rw [length_utf8]
  exact size_identity (by decide) id

theorem contract_ext {c c' : ContractIdentity} (hid : c.id.asStr = c'.id.asStr)
    (hversion : c.version.major = c'.version.major)
    (hdigest : c.schemaDigest.asStr = c'.schemaDigest.asStr) : c = c' := by
  obtain ⟨id, version, digest⟩ := c
  obtain ⟨id', version', digest'⟩ := c'
  cases Checked.ext_utf8 (congrArg utf8 hid)
  cases Checked.ext_utf8 (congrArg utf8 hdigest)
  cases version
  cases version'
  cases hversion
  rfl

theorem timepoint_ext {t t' : Timepoint}
    (h : beBytes 8 t.unixSeconds.toNat = beBytes 8 t'.unixSeconds.toNat) : t = t' := by
  obtain ⟨n, hn, hlt⟩ := t
  obtain ⟨n', hn', hlt'⟩ := t'
  have hnat : n.toNat = n'.toNat := beBytes_inj (by omega) (by omega) h
  have hint : n = n' := by omega
  cases hint
  rfl

theorem attributes_ext {attributes attributes' : Attributes}
    (h : attributes.toList = attributes'.toList) : attributes = attributes' :=
  ext_entries fun key value => by
    rw [← ExtTreeMap.mem_toList_iff_getElem?_eq_some, h,
      ExtTreeMap.mem_toList_iff_getElem?_eq_some]

/-- Messages with the same canonical bytes were authored alike. -/
theorem eq_of_canonicalBytes {a b : MessageEnvelope (List UInt8)} (ha : Addressable a)
    (hb : Addressable b) (h : canonicalBytes a = canonicalBytes b) :
    a.id = b.id ∧ a.metadata = b.metadata ∧ a.payload = b.payload := by
  unfold canonicalBytes at h
  simp only [List.append_assoc, taggedOptional_eq] at h
  have h := List.append_cancel_left h
  obtain ⟨hid, h⟩ := readable_text 1 (size_identity (by decide) a.id)
    (size_identity (by decide) b.id) h
  obtain ⟨htenant, h⟩ := readable_tagged 2 (by simp [TenantId.octets]) (by simp [TenantId.octets]) h
  obtain ⟨htime, h⟩ := readable_tagged 3 (by simp) (by simp) h
  obtain ⟨hcorrelation, h⟩ := readable_option 4 (readable_tagged 4) (size_correlation a.metadata)
    (size_correlation b.metadata) h
  obtain ⟨hdomain, h⟩ := readable_text 5 (size_identity (by decide) a.metadata.domain)
    (size_identity (by decide) b.metadata.domain) h
  obtain ⟨hroute, h⟩ := readable_text 6 (size_identity (by decide) a.metadata.route)
    (size_identity (by decide) b.metadata.route) h
  obtain ⟨hcontract, h⟩ := readable_text 7 (size_contractId a.metadata.contract.id)
    (size_contractId b.metadata.contract.id) h
  obtain ⟨hversion, h⟩ := readable_tagged 8 (by simp) (by simp) h
  obtain ⟨hdigest, h⟩ := readable_text 9 (size_schemaDigest a.metadata.contract.schemaDigest)
    (size_schemaDigest b.metadata.contract.schemaDigest) h
  obtain ⟨hpartition, h⟩ := readable_partition trivial trivial h
  obtain ⟨hcausation, h⟩ := readable_option 14 (readable_tagged 14) (size_causation a.metadata)
    (size_causation b.metadata) h
  obtain ⟨hcount, h⟩ := readable_tagged 15 (by simp) (by simp) h
  obtain ⟨hattributes, h⟩ := readable_attribute.flatMap_inj (beBytes_inj ha.count hb.count hcount)
    ha.attributes hb.attributes h
  refine ⟨Checked.ext_utf8 (congrArg utf8 hid), metadata_ext (octets_inj htenant)
    (timepoint_ext htime) ?_ (Checked.ext_utf8 (congrArg utf8 hdomain))
    (Checked.ext_utf8 (congrArg utf8 hroute)) (contract_ext hcontract ?_ hdigest) hpartition ?_
    (attributes_ext hattributes), (readable_tagged 18).injective ha.payload hb.payload h⟩
  · exact Option.map_injective (fun _ _ => utf8_inj) hcorrelation
  · exact beBytes_inj a.metadata.contract.version.range b.metadata.contract.version.range hversion
  · exact Option.map_injective (fun _ _ => Checked.ext_utf8) hcausation

/-- The fingerprint of a message tells its identity, its metadata and its payload, and nothing of
its transport, unless the digest collides on their bytes. -/
theorem fingerprint_eq_iff {sha256 : List UInt8 → Digest} {a b : MessageEnvelope (List UInt8)}
    (ha : Addressable a) (hb : Addressable b)
    (hsha : sha256 (canonicalBytes a) = sha256 (canonicalBytes b) →
      canonicalBytes a = canonicalBytes b) :
    fingerprint sha256 a = fingerprint sha256 b ↔
      a.id = b.id ∧ a.metadata = b.metadata ∧ a.payload = b.payload := by
  constructor
  · intro h
    exact eq_of_canonicalBytes ha hb (hsha h)
  · intro h
    obtain ⟨hid, hmetadata, hpayload⟩ := h
    unfold fingerprint canonicalBytes
    rw [hid, hmetadata, hpayload]

/-! ### One message -/

/-- A message with an attribute that is called as a header of the transports. -/
def orderMessage : MessageEnvelope (List UInt8) where
  id := ⟨"identity", rfl⟩
  metadata := .new
    { tenantId := ⟨7, by decide⟩
      occurredAt := ⟨42, by decide, by decide⟩
      domain := ⟨"domain", rfl⟩
      route := ⟨"created", rfl⟩
      contract := ⟨⟨"domain.created", rfl⟩, ⟨1, Nat.one_pos, by decide⟩, ⟨"sha256:" ++
        String.ofList (List.replicate 64 'a'), rfl⟩⟩ }
    { correlation := none
      partitionKey := some ⟨"partition", rfl⟩
      causation := none
      attributes := (∅ : Attributes).insert "messageId" "forged" }
  transport := ⟨some "trace", none⟩
  payload := [1, 2]

def orderSubscription : SubscriptionIdentity :=
  ⟨orderMessage.metadata.domain, orderMessage.metadata.route, orderMessage.metadata.contract⟩

theorem addressable_order : Addressable orderMessage where
  payload := by decide
  count := by decide
  attributes := by decide

/-- The message with another payload. -/
def editedMessage : MessageEnvelope (List UInt8) := { orderMessage with payload := [1, 3] }

theorem addressable_edited : Addressable editedMessage :=
  ⟨by decide, addressable_order.count, addressable_order.attributes⟩

theorem editedMessage_ne : canonicalBytes editedMessage ≠ canonicalBytes orderMessage := by
  intro h
  obtain ⟨-, -, hpayload⟩ := eq_of_canonicalBytes addressable_edited addressable_order h
  exact absurd hpayload (by decide)

/-- SHA-256 of the message and of the edited one. -/
def orderDigest (bytes : List UInt8) : Digest :=
  if bytes = canonicalBytes orderMessage then
    0x532622c16c8171dc2d1a8387497269793e42fc1a321f3a0b5ea619e16222b632#256
  else 0xb3f0d0e47de2a48a8396508f49ecbae7279ba33ef8d9a286171dba2a5edf4a0a#256

theorem orderDigest_free (h : orderDigest (canonicalBytes orderMessage) =
    orderDigest (canonicalBytes editedMessage)) :
    canonicalBytes orderMessage = canonicalBytes editedMessage := by
  rw [orderDigest, if_pos rfl, orderDigest, if_neg editedMessage_ne] at h
  exact absurd h (by decide)

/-- A relay that fills in the transport context leaves the fingerprint alone, and whoever edits the
payload does not. -/
theorem fingerprint_eq_iff_order :
    fingerprint orderDigest (orderMessage.withTransportContext ⟨none, none⟩) =
      fingerprint orderDigest (orderMessage.withTransportContext ⟨none, some "authority"⟩) ∧
    fingerprint orderDigest orderMessage ≠ fingerprint orderDigest editedMessage := by
  constructor
  · exact (fingerprint_eq_iff (addressable_order.withTransportContext _)
      (addressable_order.withTransportContext _) fun _ => rfl).mpr ⟨rfl, rfl, rfl⟩
  · rw [ne_eq, fingerprint_eq_iff addressable_order addressable_edited orderDigest_free]
    rintro ⟨-, -, hpayload⟩
    exact absurd hpayload (by decide)

end Rss.Envelope
