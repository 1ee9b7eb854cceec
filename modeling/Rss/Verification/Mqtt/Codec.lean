import Rss.Library.Hexadecimal
import Rss.Model.Mqtt.Codec
import Rss.Verification.Messaging.Fingerprint

/-! # Round trips of MQTT envelopes

What the encoder emits, when it refuses to, and what the decoder makes of any property list. -/

namespace Rss.Mqtt.Codec

open Rss.Contract
open Rss.Envelope
open Rss.Messaging.Consumer (EnvelopeValidationFailure)
open Rss.Messaging.Inbox (Digest)
open Rss.Sql (Uuid)
open Std

/-! ### The properties of a message -/

/-- The named properties, in the order they are emitted. -/
def fields (u : UuidText) (message : MessageEnvelope (List UInt8)) :
    List (String × Option String) :=
  let m := message.metadata
  [(Name.messageId, some message.id.asStr),
    (Name.tenantId, some (m.tenantId.text u)),
    (Name.domain, some m.domain.asStr),
    (Name.route, some m.route.asStr),
    (Name.contractId, some m.contract.id.asStr),
    (Name.schemaVersion, some m.contract.version.text),
    (Name.schemaHash, some m.contract.schemaDigest.asStr),
    (Name.occurredAt, some (decimal m.occurredAt.unixSeconds)),
    (Name.partitionKey, m.partition.map (·.key.asStr)),
    (Name.correlation, m.correlation),
    (Name.causationId, m.causation.map (·.asStr)),
    (Name.trace, message.transport.trace),
    (Name.tenantAuthority, message.transport.tenantAuthority)]

/-- The properties of a message. -/
def properties (u : UuidText) (message : MessageEnvelope (List UInt8)) : List (String × String) :=
  entries attributePrefix (fields u message) message.metadata.attributes

def names : List String :=
  [Name.messageId, Name.tenantId, Name.domain, Name.route, Name.contractId, Name.schemaVersion,
    Name.schemaHash, Name.occurredAt, Name.partitionKey, Name.correlation, Name.causationId,
    Name.trace, Name.tenantAuthority]

theorem fields_names (u : UuidText) (message : MessageEnvelope (List UInt8)) :
    (fields u message).map Prod.fst = names := rfl

theorem nodup_names : names.Nodup := by decide

theorem names_unprefixed : ∀ key ∈ names, stripPrefix? attributePrefix key = none := by decide

/-! ### Emitting -/

/-- The bytes of properties on the wire, each with its framing. -/
def framedSize (l : List (String × String)) : ℕ :=
  (l.map fun entry => entry.1.utf8ByteSize + entry.2.utf8ByteSize + 5).sum

/-- A text that a user property can carry. -/
def Fits (s : String) : Prop := s.utf8ByteSize ≤ u16Max ∧ Char.ofNat 0 ∉ s.toList

theorem emit_eq_ok {limit : UInt64} {s s' : Emitted} {key value : String} :
    emit limit s key value = .ok s' ↔
      s.size + key.utf8ByteSize + value.utf8ByteSize + 5 ≤ limit.toNat ∧ Fits key ∧ Fits value ∧
        s' = ⟨s.size + key.utf8ByteSize + value.utf8ByteSize + 5, s.fields ++ [(key, value)]⟩ := by
  have hlimit : limit.toNat < 2 ^ 64 := limit.toNat_lt
  unfold emit Fits
  simp only [bind_eq_ok, okOr_eq_ok, checkedAdd_eq_some]
  constructor
  · intro h
    obtain ⟨_, ⟨rfl, -⟩, _, ⟨rfl, -⟩, _, ⟨rfl, -⟩, h⟩ := h
    split at h
    · cases h
    · rename_i hnot
      simp only [gt_iff_lt, Bool.or_eq_true, decide_eq_true_eq, List.contains_iff_mem, not_or,
        Nat.not_lt] at hnot
      obtain ⟨⟨⟨⟨hsize, hkey⟩, hvalue⟩, hkeyNul⟩, hvalueNul⟩ := hnot
      exact ⟨hsize, ⟨hkey, hkeyNul⟩, ⟨hvalue, hvalueNul⟩, (Except.ok.inj h).symm⟩
  · intro h
    obtain ⟨hsize, ⟨hkey, hkeyNul⟩, ⟨hvalue, hvalueNul⟩, rfl⟩ := h
    refine ⟨_, ⟨rfl, by omega⟩, _, ⟨rfl, by omega⟩, _, ⟨rfl, by omega⟩, ?_⟩
    rw [if_neg]
    simp only [gt_iff_lt, Bool.or_eq_true, decide_eq_true_eq, List.contains_iff_mem, not_or,
      Nat.not_lt]
    exact ⟨⟨⟨⟨hsize, hkey⟩, hvalue⟩, hkeyNul⟩, hvalueNul⟩

theorem emit_eq_error {limit : UInt64} {s : Emitted} {key value : String} {e : MqttError}
    (h : emit limit s key value = .error e) : e = .invalidMessage := by
  unfold emit at h
  simp only [bind_eq_error, okOr_eq_error] at h
  rcases h with h | ⟨_, -, h | ⟨_, -, h | ⟨_, -, h⟩⟩⟩
  · exact h.2
  · exact h.2
  · exact h.2
  · split at h
    · exact (Except.error.inj h).symm
    · cases h

/-- The guard on the key of an attribute is the one on its name. -/
theorem emitAttribute_eq (limit : UInt64) (s : Emitted) (entry : String × String) :
    emitAttribute limit s entry = emit limit s (attributePrefix ++ entry.1) entry.2 := by
  unfold emitAttribute
  split
  · rename_i hlong
    cases h : emit limit s (attributePrefix ++ entry.1) entry.2 with
    | error e => rw [emit_eq_error h]
    | ok s' =>
        obtain ⟨-, ⟨hkey, -⟩, -⟩ := emit_eq_ok.mp h
        rw [String.utf8ByteSize_append] at hkey
        unfold u16Max at *
        omega
  · rfl

/-! ### Encoding -/

/-- A list of properties is emitted as a whole or not at all. -/
theorem foldlM_emit {limit : UInt64} {l : List (String × String)} {s s' : Emitted} :
    l.foldlM (fun s e => emit limit s e.1 e.2) s = .ok s' ↔
      (l ≠ [] → s.size + framedSize l ≤ limit.toNat) ∧ (∀ e ∈ l, Fits e.1 ∧ Fits e.2) ∧
        s' = ⟨s.size + framedSize l, s.fields ++ l⟩ := by
  induction l generalizing s with
  | nil => simp [framedSize, pure, Except.pure, eq_comm]
  | cons e l ih =>
      have hsize : framedSize (e :: l) =
          e.1.utf8ByteSize + e.2.utf8ByteSize + 5 + framedSize l := by
        simp [framedSize]
      simp only [List.foldlM_cons, bind_eq_ok, emit_eq_ok, ih, List.forall_mem_cons, hsize]
      constructor
      · intro h
        obtain ⟨_, ⟨hfirst, hkey, hvalue, rfl⟩, hrest, hfits, rfl⟩ := h
        refine ⟨fun _ => ?_, ⟨⟨hkey, hvalue⟩, hfits⟩, ?_⟩
        · by_cases hl : l = []
          · subst hl
            simpa [framedSize, Nat.add_assoc] using hfirst
          · have hlimit := hrest hl
            simp only at hlimit
            omega
        · simp [Nat.add_assoc]
      · intro h
        obtain ⟨hlimit, ⟨⟨hkey, hvalue⟩, hfits⟩, rfl⟩ := h
        have hlimit := hlimit (List.cons_ne_nil e l)
        refine ⟨_, ⟨by omega, hkey, hvalue, rfl⟩, fun _ => ?_, hfits, ?_⟩
        · simp only
          omega
        · simp [Nat.add_assoc]

theorem foldlM_present_cons {limit : UInt64} {key : String} {o : Option String}
    {l : List (String × Option String)} {s : Emitted} :
    (present ((key, o) :: l)).foldlM (fun s e => emit limit s e.1 e.2) s =
      emitOptional limit s key o >>= fun s =>
        (present l).foldlM (fun s e => emit limit s e.1 e.2) s := by
  cases o with
  | none => rfl
  | some value => rfl

/-- The encoder emits the properties of the message one after the other. -/
theorem encode_eq (u : UuidText) (message : MessageEnvelope (List UInt8)) (limit : UInt64) :
    encode u message limit =
      ((properties u message).foldlM (fun s e => emit limit s e.1 e.2)
        ⟨message.payload.length, []⟩).map Emitted.fields := by
  have hattributes : ∀ s : Emitted,
      (message.metadata.attributes.toList.map fun entry =>
        (attributePrefix ++ entry.1, entry.2)).foldlM (fun s e => emit limit s e.1 e.2) s =
      message.metadata.attributes.toList.foldlM (emitAttribute limit) s := by
    intro s
    rw [List.foldlM_map]
    exact congrArg (fun f => List.foldlM f s _)
      (funext fun s => funext fun e => (emitAttribute_eq limit s e).symm)
  have hmap : ∀ x : Except MqttError Emitted, x.map Emitted.fields = x >>= fun s => .ok s.fields := by
    intro x
    cases x with
    | error e => rfl
    | ok s => rfl
  unfold properties entries fields
  rw [hmap]
  simp only [List.foldlM_append, foldlM_present_cons, hattributes, bind_assoc, present_nil,
    List.foldlM_nil, pure_bind]
  rfl

/-- The encoder succeeds exactly when the properties fit, and gives them. -/
theorem encode_eq_ok {u : UuidText} {message : MessageEnvelope (List UInt8)} {limit : UInt64}
    {l : List (String × String)} :
    encode u message limit = .ok l ↔
      message.payload.length + framedSize (properties u message) ≤ limit.toNat ∧
        (∀ e ∈ properties u message, Fits e.1 ∧ Fits e.2) ∧ l = properties u message := by
  have hne : properties u message ≠ [] := List.cons_ne_nil _ _
  rw [encode_eq, map_eq_ok]
  simp only [foldlM_emit, List.nil_append]
  constructor
  · intro h
    obtain ⟨_, ⟨hsize, hfits, rfl⟩, rfl⟩ := h
    exact ⟨hsize hne, hfits, rfl⟩
  · intro h
    obtain ⟨hsize, hfits, rfl⟩ := h
    exact ⟨_, ⟨fun _ => hsize, hfits, rfl⟩, rfl⟩

theorem nodup_properties (u : UuidText) (message : MessageEnvelope (List UInt8)) :
    ((properties u message).map Prod.fst).Nodup :=
  nodup_entries nodup_names names_unprefixed

/-! ### Decoding -/

/-- The names in the order the decoder takes them out. -/
def order : List String :=
  [Name.messageId, Name.tenantId, Name.occurredAt, Name.domain, Name.route, Name.contractId,
    Name.schemaVersion, Name.schemaHash, Name.correlation, Name.partitionKey, Name.causationId,
    Name.trace, Name.tenantAuthority]

theorem nodup_order : order.Nodup := by decide

theorem order_unprefixed : ∀ key ∈ order, stripPrefix? attributePrefix key = none := by decide

/-- The table of a list of properties: no name is given twice. -/
theorem table_eq_ok {l : List (String × String)} {headers : Headers} :
    l.foldlM (insertNew EnvelopeValidationFailure.malformedMetadata) ∅ = .ok headers ↔
      (l.map Prod.fst).Nodup ∧
        l.foldl (fun acc entry => acc.insert entry.1 entry.2) ∅ = headers := by
  rw [foldlM_insertNew_eq_ok]
  simp

theorem carries_of_perm {u : UuidText} {message : MessageEnvelope (List UInt8)}
    {l : List (String × String)} (h : l.Perm (properties u message)) :
    ∃ headers, l.foldlM (insertNew EnvelopeValidationFailure.malformedMetadata) ∅ = .ok headers ∧
      ∀ key value : String, headers[key]? = some value ↔ (key, value) ∈ properties u message := by
  have hnodup : (l.map Prod.fst).Nodup := (h.map Prod.fst).nodup_iff.mpr (nodup_properties u message)
  refine ⟨_, table_eq_ok.mpr ⟨hnodup, rfl⟩, fun key value => ?_⟩
  rw [getElem?_foldl_insert hnodup, h.mem_iff]
  simp

theorem carries_of_properties {u : UuidText} {message : MessageEnvelope (List UInt8)}
    {headers : Headers}
    (h : ∀ key value : String, headers[key]? = some value ↔ (key, value) ∈ properties u message) :
    Carries headers attributePrefix (fields u message) message.metadata.attributes :=
  @carries_of_entries _ _ (fields u message) _ nodup_names names_unprefixed h

theorem decimal_unixSeconds_ne (t : Timepoint) : decimal t.unixSeconds ≠ "" := by
  obtain ⟨n, hn⟩ := Int.eq_ofNat_of_zero_le t.nonneg
  rw [hn]
  exact decimal_ne n

/-- What remains behind the names are the attributes. -/
theorem decodeAttributes_of_carries {u : UuidText} {message : MessageEnvelope (List UInt8)}
    {headers : Headers}
    (h : ∀ key value : String, headers[key]? = some value ↔ (key, value) ∈ properties u message) :
    decodeAttributes (remaining order headers order.length) = .ok message.metadata.attributes := by
  have hcarries := carries_of_properties h
  refine foldlM_renamed.mpr ⟨fun entry hentry => ?_, ?_⟩
  · obtain ⟨hnot, hget⟩ := getElem?_foldl_erase.mp
      (ExtTreeMap.mem_toList_iff_getElem?_eq_some.mp hentry)
    rcases List.mem_append.mp ((h entry.1 entry.2).mp hget) with hfield | hattribute
    · have hname := (keys_present_sublist _).subset (List.mem_map.mpr ⟨_, hfield, rfl⟩)
      rw [fields_names] at hname
      rw [List.take_length] at hnot
      have hall : ∀ key ∈ names, key ∈ order := by decide
      exact absurd (hall _ hname) hnot
    · obtain ⟨entry', -, heq⟩ := List.mem_map.mp hattribute
      rw [← (Prod.mk.inj heq).1, stripPrefix?_append]
      rfl
  · rw [← ExtTreeMap.ofList_eq_foldl]
    rw [← hcarries.renamed order_unprefixed, remaining, List.take_length]
    rfl

/-- The decoder gives back the message, whatever the order of its properties is, to the
subscriptions that accept it. -/
theorem decode_of_perm {u : UuidText} (hu : u.Lawful) {message : MessageEnvelope (List UInt8)}
    {l : List (String × String)} (h : l.Perm (properties u message))
    (subscription : SubscriptionIdentity) :
    decode u ⟨some l, message.payload⟩ subscription =
      if subscription.accepts message then .ok message else .error .unsupportedContract := by
  obtain ⟨headers, htable, hget⟩ := carries_of_perm h
  have hcarries := carries_of_properties hget
  obtain ⟨c, hc⟩ := message.metadata.exists_correlation
  have hmem : ∀ n key o, (fields u message)[n]? = some (key, o) → (key, o) ∈ fields u message :=
    fun n key o hget => List.mem_of_getElem? hget
  have htake : ∀ n i key value, order[n]? = some key →
      (fields u message)[i]? = some (key, some value) → value ≠ "" →
      takeRequired (remaining order headers n) key = .ok (value, remaining order headers (n + 1)) :=
    fun n i key value hread hfield => hcarries.takeRequired nodup_order hread (hmem i _ _ hfield)
  have hlook : ∀ n i key o, order[n]? = some key → (fields u message)[i]? = some (key, o) →
      (remaining order headers n)[key]? = o :=
    fun n i key o hread hfield => hcarries.lookup nodup_order hread (hmem i _ _ hfield)
  have herase : ∀ n key, order[n]? = some key →
      (remaining order headers n).erase key = remaining order headers (n + 1) :=
    fun n key hread => (remaining_succ hread).symm
  have hid := htake 0 0 _ _ rfl rfl (validateIdentity_ne message.id.valid)
  have htenant := htake 1 1 _ _ rfl rfl (message.metadata.tenantId.text_ne hu)
  have hoccurred := htake 2 7 _ _ rfl rfl (decimal_unixSeconds_ne message.metadata.occurredAt)
  have hdomain := htake 3 2 _ _ rfl rfl (validateIdentity_ne message.metadata.domain.valid)
  have hroute := htake 4 3 _ _ rfl rfl (validateIdentity_ne message.metadata.route.valid)
  have hcontract := htake 5 4 _ _ rfl rfl
    (validateContractId_ne message.metadata.contract.id.valid)
  have hversion := htake 6 5 _ _ rfl rfl message.metadata.contract.version.text_ne
  have hdigest := htake 7 6 _ _ rfl rfl
    (validateSchemaDigest_ne message.metadata.contract.schemaDigest.valid)
  have hcorrelation := hlook 8 9 _ _ rfl rfl
  have hpartition := hlook 9 8 _ _ rfl rfl
  have hcausation := hlook 10 10 _ _ rfl rfl
  have htrace := hlook 11 11 _ _ rfl rfl
  have hauthority := hlook 12 12 _ _ rfl rfl
  have hcorrelation' : orFail (parseOptional CorrelationId.parse message.metadata.correlation)
      .malformedMetadata = .ok c := by
    rw [← hc]
    exact orFail_eq_ok.mpr (parseOptional_map c)
  have hpartition' : orFail (parseOptional PartitionKey.parse
      (message.metadata.partition.map (·.key.asStr))) .malformedMetadata =
      .ok (message.metadata.partition.map (·.key)) := by
    refine orFail_eq_ok.mpr ?_
    rw [← parseOptional_map (message.metadata.partition.map (·.key)), Option.map_map]
    rfl
  have hcausation' : orFail (parseOptional MessageId.parse
      (message.metadata.causation.map (·.asStr))) .malformedMetadata =
      .ok message.metadata.causation := orFail_eq_ok.mpr (parseOptional_map _)
  have hparse : ∀ {ε : Type} {check : String → Except ε Unit} (t : Checked check)
      (f : EnvelopeValidationFailure), orFail (Checked.parse check t.asStr) f = .ok t :=
    fun t f => orFail_eq_ok.mpr (Checked.parse_asStr t)
  have htenant' : ∀ f, orFail (TenantId.parse u (message.metadata.tenantId.text u)) f = .ok _ :=
    fun f => orFail_eq_ok.mpr (TenantId.parse_text hu _)
  have hversion' : ∀ f, orFail (ContractVersion.parse message.metadata.contract.version.text) f =
      .ok _ := fun f => orFail_eq_ok.mpr (ContractVersion.parse_text _)
  have hattributes := decodeAttributes_of_carries hget
  have hrequired := message.metadata.new_required hc
  change takeRequired headers _ = _ at hid
  unfold decode
  simp only [okOr_some, ok_bind, htable, hid, htenant, hoccurred, hdomain, hroute, hcontract,
    hversion, hdigest, MessageId.parse, MessagingDomain.parse, MessageRoute.parse,
    ContractId.parse, SchemaDigest.parse, hparse, htenant', Timepoint.parse_decimal, hversion',
    hcorrelation, hcorrelation', herase 8 _ rfl, hpartition, hpartition', herase 9 _ rfl,
    hcausation, hcausation', herase 10 _ rfl, htrace, herase 11 _ rfl, hauthority,
    herase 12 _ rfl]
  change decodeAttributes (remaining order headers (12 + 1)) = _ at hattributes
  simp only [MessageMetadata.required] at hrequired
  simp only [hattributes, ok_bind, hrequired]
  change (if (!subscription.accepts message) = true then _ else Except.ok message) = _
  cases subscription.accepts message with
  | false => rfl
  | true => rfl

/-- What the decoder asks of a list of properties: no name twice, no name but those of the
envelope and of attributes, and a value for each name that it requires. -/
structure WellFormed (l : List (String × String)) : Prop where
  nodup : (l.map Prod.fst).Nodup
  known : ∀ key ∈ l.map Prod.fst, key ∈ names ∨ (stripPrefix? attributePrefix key).isSome = true
  required : ∀ key ∈ order.take 8, ∃ value ≠ "", (key, value) ∈ l

theorem takeRequired_bind_eq_ok {α : Type} {headers : Headers} {key : String}
    {f : String × Headers → Except EnvelopeValidationFailure α} {a : α} :
    (takeRequired headers key >>= f) = .ok a ↔
      ∃ value, headers[key]? = some value ∧ value ≠ "" ∧ f (value, headers.erase key) = .ok a := by
  simp only [bind_eq_ok, Prod.exists, takeRequired_eq_ok, and_assoc, exists_and_left,
    exists_eq_left']

/-- The decoder rejects the lists that are not well formed. -/
theorem wellFormed_of_decode {u : UuidText} {publish : Publish}
    {subscription : SubscriptionIdentity} {message : MessageEnvelope (List UInt8)}
    (h : decode u publish subscription = .ok message) :
    message.payload = publish.payload ∧ subscription.accepts message = true ∧
      ∃ l, publish.userProperties = some l ∧ WellFormed l := by
  obtain ⟨l, hl, h⟩ := bind_eq_ok.mp h
  obtain ⟨headers, htable, h⟩ := bind_eq_ok.mp h
  obtain ⟨raw₁, h₁, hne₁, h⟩ := takeRequired_bind_eq_ok.mp h
  obtain ⟨id, -, h⟩ := bind_eq_ok.mp h
  obtain ⟨raw₂, h₂, hne₂, h⟩ := takeRequired_bind_eq_ok.mp h
  obtain ⟨tenant, -, h⟩ := bind_eq_ok.mp h
  obtain ⟨raw₃, h₃, hne₃, h⟩ := takeRequired_bind_eq_ok.mp h
  obtain ⟨occurred, -, h⟩ := bind_eq_ok.mp h
  obtain ⟨raw₄, h₄, hne₄, h⟩ := takeRequired_bind_eq_ok.mp h
  obtain ⟨domain, -, h⟩ := bind_eq_ok.mp h
  obtain ⟨raw₅, h₅, hne₅, h⟩ := takeRequired_bind_eq_ok.mp h
  obtain ⟨route, -, h⟩ := bind_eq_ok.mp h
  obtain ⟨raw₆, h₆, hne₆, h⟩ := takeRequired_bind_eq_ok.mp h
  obtain ⟨contractId, -, h⟩ := bind_eq_ok.mp h
  obtain ⟨raw₇, h₇, hne₇, h⟩ := takeRequired_bind_eq_ok.mp h
  obtain ⟨version, -, h⟩ := bind_eq_ok.mp h
  obtain ⟨raw₈, h₈, hne₈, h⟩ := takeRequired_bind_eq_ok.mp h
  obtain ⟨digest, -, h⟩ := bind_eq_ok.mp h
  obtain ⟨correlation, -, h⟩ := bind_eq_ok.mp h
  obtain ⟨partition, -, h⟩ := bind_eq_ok.mp h
  obtain ⟨causation, -, h⟩ := bind_eq_ok.mp h
  obtain ⟨attributes, hattributes, h⟩ := bind_eq_ok.mp h
  rw [okOr_eq_ok] at hl
  simp only at h
  split at h
  · cases h
  rename_i haccepts
  obtain rfl := Except.ok.inj h
  obtain ⟨hnodup, rfl⟩ := table_eq_ok.mp htable
  have hget : ∀ key value : String, (l.foldl (fun acc entry => acc.insert entry.1 entry.2)
      (∅ : Headers))[key]? = some value ↔ (key, value) ∈ l := by
    intro key value
    rw [getElem?_foldl_insert hnodup]
    simp
  have hread : ∀ n key value, (remaining order (l.foldl (fun acc entry =>
      acc.insert entry.1 entry.2) ∅) n)[key]? = some value → (key, value) ∈ l :=
    fun n key value hlook => (hget key value).mp (getElem?_foldl_erase.mp hlook).2
  refine ⟨rfl, by simpa using haccepts, l, hl, hnodup, fun key hkey => ?_, fun key hkey => ?_⟩
  · obtain ⟨⟨name, value⟩, hmem, rfl⟩ := List.mem_map.mp hkey
    by_cases hname : name ∈ order
    · have hall : ∀ name ∈ order, name ∈ names := by decide
      exact .inl (hall name hname)
    · have hrest := getElem?_foldl_erase.mpr ⟨hname, (hget name value).mpr hmem⟩
      exact .inr ((foldlM_renamed.mp hattributes).1 (name, value)
        (ExtTreeMap.mem_toList_iff_getElem?_eq_some.mpr hrest))
  · simp only [order, List.take_succ_cons, List.take_zero, List.mem_cons, List.not_mem_nil,
      or_false] at hkey
    rcases hkey with rfl | rfl | rfl | rfl | rfl | rfl | rfl | rfl
    · exact ⟨raw₁, hne₁, hread 0 _ _ h₁⟩
    · exact ⟨raw₂, hne₂, hread 1 _ _ h₂⟩
    · exact ⟨raw₃, hne₃, hread 2 _ _ h₃⟩
    · exact ⟨raw₄, hne₄, hread 3 _ _ h₄⟩
    · exact ⟨raw₅, hne₅, hread 4 _ _ h₅⟩
    · exact ⟨raw₆, hne₆, hread 5 _ _ h₆⟩
    · exact ⟨raw₇, hne₇, hread 6 _ _ h₇⟩
    · exact ⟨raw₈, hne₈, hread 7 _ _ h₈⟩


/-- Envelopes round trip, whatever their attributes are called: encoding succeeds exactly when the
properties fit, names each of them once, and is undone by the decoder in whatever order the
properties arrive, for the subscriptions that accept the message. The decoder accepts nothing that
is not well formed. -/
theorem envelopes_round_trip {u : UuidText} (hu : u.Lawful)
    (message : MessageEnvelope (List UInt8)) (limit : UInt64)
    (subscription : SubscriptionIdentity) :
    (∀ l, encode u message limit = .ok l ↔
      message.payload.length + framedSize (properties u message) ≤ limit.toNat ∧
        (∀ e ∈ properties u message, Fits e.1 ∧ Fits e.2) ∧ l = properties u message) ∧
    (∀ l, encode u message limit = .ok l → (l.map Prod.fst).Nodup ∧
      ∀ received, received.Perm l → decode u ⟨some received, message.payload⟩ subscription =
        if subscription.accepts message then .ok message else .error .unsupportedContract) ∧
    ∀ publish decoded, decode u publish subscription = .ok decoded →
      decoded.payload = publish.payload ∧ subscription.accepts decoded = true ∧
        ∃ received, publish.userProperties = some received ∧ WellFormed received := by
  refine ⟨fun l => encode_eq_ok, fun l hencode => ?_, fun publish decoded => wellFormed_of_decode⟩
  obtain ⟨-, -, rfl⟩ := encode_eq_ok.mp hencode
  exact ⟨nodup_properties u message, fun received hperm => decode_of_perm hu hperm subscription⟩

/-! ### One message -/

/-- The texts of UUIDs, as the crate writes them. -/
def uuidText : UuidText where
  hyphenated id := String.ofList (hyphenate [8, 4, 4, 4] (hexDigits 32 id.toNat))
  tryParse s :=
    let cs := s.toList.filter fun c => c ≠ '-'
    if cs.length = 32 then (readHex cs).map (BitVec.ofNat 128) else none

theorem tryParse_hyphenated (id : Uuid) :
    uuidText.tryParse (uuidText.hyphenated id) = some id := by
  have hlt : id.toNat < 16 ^ 32 := by simpa using id.isLt
  have hdigits : (uuidText.hyphenated id).toList.filter (fun c => c ≠ '-') =
      hexDigits 32 id.toNat := by
    rw [uuidText, String.toList_ofList, filter_hyphenate (hyphen_notMem_hexDigits 32 id.toNat)]
  have hlength : (hexDigits 32 id.toNat).length = 32 := length_hexDigits 32 id.toNat
  have hread := readHex_hexDigits 32 id.toNat
  rw [Nat.mod_eq_of_lt hlt] at hread
  generalize uuidText.hyphenated id = text at hdigits
  unfold uuidText
  simp only [hdigits, hlength, if_true, hread, Option.map_some, BitVec.ofNat_toNat,
    BitVec.setWidth_eq]

theorem uuidText_lawful : uuidText.Lawful where
  tryParse_hyphenated := tryParse_hyphenated
  hyphenated_ne id h := by
    have hlist := congrArg String.toList h
    rw [uuidText, String.toList_ofList] at hlist
    simp [hyphenate] at hlist

/-- A message with an attribute called as a header, read back from its properties in reverse. -/
theorem envelopes_round_trip_order : ∃ l, encode uuidText orderMessage 4096 = .ok l ∧
    decode uuidText ⟨some l.reverse, orderMessage.payload⟩ orderSubscription = .ok orderMessage := by
  have htrip := envelopes_round_trip uuidText_lawful orderMessage 4096 orderSubscription
  have hfits : orderMessage.payload.length + framedSize (properties uuidText orderMessage) ≤
      (4096 : UInt64).toNat ∧ ∀ e ∈ properties uuidText orderMessage, Fits e.1 ∧ Fits e.2 := by
    unfold Fits
    decide +kernel
  have hencode := (htrip.1 _).mpr ⟨hfits.1, hfits.2, rfl⟩
  refine ⟨_, hencode, ?_⟩
  rw [(htrip.2.1 _ hencode).2 _ (List.reverse_perm _)]
  exact if_pos (by decide)

end Rss.Mqtt.Codec
