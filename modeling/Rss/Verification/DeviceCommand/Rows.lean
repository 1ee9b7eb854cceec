import Rss.Model.DeviceCommand.Schema
import Rss.Verification.DeviceCommand.Operations

/-! # Rows and snapshots

The rows that decode are those that carry a command of the core, and the constraints of the schema
let each of them through. -/

namespace Rss.DeviceCommand

open Rss.Sql

/-! ### Stored texts -/

theorem Status.asStr_injective {s s' : Status} (h : s.asStr = s'.asStr) : s = s' := by
  cases s <;> cases s' <;> first | rfl | exact absurd h (by decide)

theorem Status.restore_asStr (s : Status) : Status.restore s.asStr = .ok s := by
  cases s <;> rfl

theorem Status.restore_eq_ok {raw : String} {s : Status} :
    Status.restore raw = .ok s ↔ raw = s.asStr := by
  constructor
  · intro h
    have hfound := List.find?_some (okOr_eq_ok.mp h)
    exact (of_decide_eq_true hfound).symm
  · intro h
    rw [h]
    exact s.restore_asStr

theorem utf8ByteSize_of_ascii {s : String} (h : ∀ c ∈ s.toList, c.utf8Size = 1) :
    s.utf8ByteSize = s.length := by
  induction s using String.push_induction with
  | empty => rfl
  | push s c ih =>
      rw [String.toList_push] at h
      rw [String.utf8ByteSize_push, String.length_push, h c (by simp)]
      rw [ih fun d hd => h d (List.mem_append_left _ hd)]

/-- The characters of an identity take one byte each. -/
theorem utf8Size_identity {c : Char} (h : (c.isAlphanum || ['_', '.', ':', '-'].contains c) = true) :
    c.utf8Size = 1 := by
  rw [Char.utf8Size_eq_one_iff]
  delta Char.isAlphanum Char.isAlpha Char.isUpper Char.isLower Char.isDigit at h
  simp only [Bool.or_eq_true, Bool.and_eq_true, decide_eq_true_eq, List.contains_iff_mem,
    List.mem_cons, List.not_mem_nil, or_false] at h
  rcases h with ((⟨-, h⟩ | ⟨-, h⟩) | ⟨-, h⟩) | rfl | rfl | rfl | rfl
  · exact UInt32.le_trans h (by decide)
  · exact UInt32.le_trans h (by decide)
  · exact UInt32.le_trans h (by decide)
  all_goals decide

namespace Schema

/-- The pattern of the schema is the check of the core. -/
theorem identity_eq (raw : String) : identity raw = commandIdOk raw := by
  unfold identity commandIdOk
  cases hall : raw.toList.all (fun c => c.isAlphanum || ['_', '.', ':', '-'].contains c) with
  | false => simp
  | true =>
      have hsize : raw.utf8ByteSize = raw.length :=
        utf8ByteSize_of_ascii fun c hc => utf8Size_identity (List.all_eq_true.mp hall c hc)
      have hempty : (decide (1 ≤ raw.length) : Bool) = decide (raw ≠ "") := by
        rw [decide_eq_decide, ← hsize, ne_eq, ← String.utf8ByteSize_eq_zero_iff]
        omega
      rw [hempty, hsize]

/-! ### The columns of a row -/

/-- The columns of the typed row. -/
def columns (r : Row) : CommandRow where
  deviceId := r.device.uuid
  generation := r.coordinate.generation
  authorityEpoch := r.coordinate.epoch
  expectedDigest := ⟨32, r.expected⟩
  deadline := r.deadline
  queuedAt := r.queuedAt
  outboxDomain := r.domain
  outboxMessageId := r.messageId
  outboxFingerprint := ⟨32, r.fingerprint⟩
  status := r.status.asStr
  version := r.version
  publishedAt := r.publishedAt
  receivedAt := r.receivedAt
  terminalAt := r.terminalAt

theorem passes_unequal (s s' : Status) :
    (unequal (some s.asStr) (some s'.asStr)).Passes ↔ s ≠ s' := by
  unfold unequal
  rw [Truth.passes_comparing]
  constructor
  · intro h hs
    have := h _ rfl _ rfl
    simp [hs] at this
  · intro h x hx y hy
    cases hx
    cases hy
    exact decide_eq_true fun hs => h (Status.asStr_injective hs)

/-- The statuses the schema knows, and those it takes for terminal. -/
theorem isIn_status (s : Status) :
    isIn (some s.asStr) ["queued", "published", "received", "applied", "rejected", "timed_out",
      "superseded", "cancelled"] = some true ∧
    isIn (some s.asStr) ["applied", "rejected", "timed_out", "superseded", "cancelled"] =
      some s.isTerminal ∧
    (s.asStr ∈ ["received", "applied"] ↔ s = .received ∨ s = .applied) := by
  cases s <;> decide

theorem or_some_eq (a : Option ℤ) (b : ℤ) : (a <|> some b) = some (a.getD b) := by
  cases a <;> rfl

/-- The constraints of the schema are those of the typed rows. -/
theorem admitted_columns {commandId : String} {r : Row} :
    Admitted (checks commandId (columns r)) ↔
      commandIdOk commandId = true ∧ commandIdOk r.domain = true ∧ r.Checked := by
  have hqueued : (unequal (some r.status.asStr) (some "queued")).Passes ↔ _ :=
    passes_unequal r.status .queued
  have hpublished : (unequal (some r.status.asStr) (some "published")).Passes ↔ _ :=
    passes_unequal r.status .published
  have hrejected : (unequal (some r.status.asStr) (some "rejected")).Passes ↔ _ :=
    passes_unequal r.status .rejected
  have htimedOut : (unequal (some r.status.asStr) (some "timed_out")).Passes ↔ _ :=
    passes_unequal r.status .timedOut
  have happlied : (unequal (some r.status.asStr) (some "applied")).Passes ↔ _ :=
    passes_unequal r.status .applied
  have hgeneration := r.coordinate.generation_pos
  have hepoch := r.coordinate.epoch_pos
  obtain ⟨hin, hterminal, hreceived⟩ := isIn_status r.status
  simp only [checks, columns, admitted_cons, admitted_nil, identity_eq, Truth.passes_some,
    Truth.passes_or, Truth.passes_and, Truth.passes_isNull, Truth.passes_isNotNull, hin, hterminal,
    hqueued, hpublished, hrejected, htimedOut, happlied, less, equal, atLeast,
    Truth.passes_comparing, hreceived, decide_eq_true_eq, Option.mem_def, Option.some.injEq,
    forall_eq']
  constructor
  · rintro ⟨hid, -, -, -, hdomain, -, -, hversion, hdeadline, hpub, hrec, hterm, hclosed, hq, hp,
      hra, hrej, hto, hap, -⟩
    refine ⟨hid, hdomain, hversion, hdeadline, ?_, ?_, ?_, ?_, ?_, ?_, ?_, ?_, ?_, ?_⟩
    · intro t ht
      rcases hpub with hnone | ⟨hle, hlt⟩
      · rw [hnone] at ht
        cases ht
      · exact ⟨hle t ht, hlt t ht⟩
    · intro t ht
      rcases hrec with hnone | ⟨hsome, hle, hlt⟩
      · rw [hnone] at ht
        cases ht
      · obtain ⟨p, hp⟩ := Option.isSome_iff_exists.mp hsome
        exact ⟨p, hp, hle t ht p hp, hlt t ht⟩
    · intro t ht
      rcases hterm with hnone | hle
      · rw [hnone] at ht
        cases ht
      · exact hle t ht _ (or_some_eq _ _)
    · exact hclosed _ rfl
    · exact fun hs => hq.resolve_left (not_not.mpr hs)
    · exact fun hs => hp.resolve_left (not_not.mpr hs)
    · exact fun hs => hra.resolve_left (not_not.mpr hs)
    · exact fun hs => hrej.resolve_left (not_not.mpr hs)
    · exact fun hs => hto.resolve_left (not_not.mpr hs)
    · exact fun hs => hap.resolve_left (not_not.mpr hs)
  · rintro ⟨hid, hdomain, h⟩
    refine ⟨hid, hgeneration, hepoch, trivial, hdomain, trivial, trivial, h.version, h.deadline,
      ?_, ?_, ?_, fun _ hs => h.closed.trans (Option.some.inj hs), ?_, ?_, ?_, ?_, ?_, ?_, trivial⟩
    · exact .inr ⟨fun t ht => (h.published t ht).1, fun t ht => (h.published t ht).2⟩
    · cases hr : r.receivedAt with
      | none => exact .inl rfl
      | some t =>
          obtain ⟨p, hp, hle, hlt⟩ := h.received t hr
          rw [hp]
          refine .inr ⟨rfl, ?_, ?_⟩
          · intro x hx y hy
            cases hx
            cases hy
            exact hle
          · intro x hx
            cases hx
            exact hlt
    · refine .inr fun t ht y hy => ?_
      rw [or_some_eq] at hy
      cases hy
      exact h.terminal t ht
    · exact not_or_of_imp h.queuedShape
    · exact not_or_of_imp h.publishedShape
    · exact not_or_of_imp h.receivedShape
    · exact not_or_of_imp h.rejectedShape
    · exact not_or_of_imp h.timedOut
    · exact not_or_of_imp h.applied

/-! ### Decoding -/

/-- The typed row of a stored command. -/
def Stored.typed (st : Stored) : Row where
  device := st.command.spec.scope.device
  coordinate := st.command.spec.coordinate
  expected := st.command.spec.expected
  deadline := st.command.spec.deadline
  queuedAt := st.command.record.queuedAt
  status := st.command.status
  version := st.command.version
  publishedAt := st.command.record.publishedAt
  receivedAt := st.command.record.receivedAt
  terminalAt := st.command.record.terminalAt
  messageId := st.messageId.value
  fingerprint := st.fingerprint
  domain := st.domain.value

def Stored.row (st : Stored) : CommandRow := columns st.typed

/-- The core's snapshots are let through. -/
theorem Stored.admitted (st : Stored) : Admitted (checks st.command.spec.id.value st.row) := by
  refine admitted_columns.mpr ⟨st.command.spec.id.valid, st.domain.valid, ?_⟩
  exact @Row.checked_of_valid (st.command.spec.scope.tenant, st.command.spec.id) _
    st.command.record_valid

theorem parseTenant_eq_ok {uuid tenant : Uuid} :
    parseTenant uuid = .ok tenant ↔ uuid ≠ 0 ∧ uuid = tenant := by
  unfold parseTenant
  split
  · next h => exact iff_of_false (fun he => by cases he) fun he => he.1 h
  · next h => exact ⟨fun he => ⟨h, Except.ok.inj he⟩, fun he => congrArg _ he.2⟩

theorem deviceId_new_eq_ok {uuid : Uuid} {d : DeviceId} :
    DeviceId.new uuid = .ok d ↔ uuid = d.uuid := by
  obtain ⟨own, hown⟩ := d
  unfold DeviceId.new
  constructor
  · intro h
    split at h <;> cases h
    rfl
  · rintro rfl
    exact dif_neg hown

theorem commandId_parse_eq_ok {raw : String} {id : CommandId} :
    CommandId.parse raw = .ok id ↔ raw = id.value := by
  obtain ⟨own, hown⟩ := id
  unfold CommandId.parse
  constructor
  · intro h
    split at h <;> cases h
    rfl
  · rintro rfl
    exact dif_pos hown

theorem messageId_parse_eq_ok {raw : String} {id : MessageId} :
    MessageId.parse raw = .ok id ↔ raw = id.value := by
  obtain ⟨own, hown⟩ := id
  unfold MessageId.parse
  constructor
  · intro h
    split at h <;> cases h
    rfl
  · rintro rfl
    exact dif_pos hown

theorem messagingDomain_parse_eq_ok {raw : String} {d : MessagingDomain} :
    MessagingDomain.parse raw = .ok d ↔ raw = d.value := by
  obtain ⟨own, hown⟩ := d
  unfold MessagingDomain.parse
  constructor
  · intro h
    split at h <;> cases h
    rfl
  · rintro rfl
    exact dif_pos hown

theorem coordinate_new_eq_ok {g e : ℤ} {c : Coordinate} :
    Coordinate.new g e = .ok c ↔ g = c.generation ∧ e = c.epoch := by
  obtain ⟨generation, epoch, hg, he⟩ := c
  unfold Coordinate.new
  constructor
  · intro h
    split at h <;> cases h
    exact ⟨rfl, rfl⟩
  · rintro ⟨rfl, rfl⟩
    exact dif_neg (by omega)

/-- A row decodes exactly when it is the row of the stored command, under its key. -/
theorem decode_eq_ok {key : Uuid × String} {row : CommandRow} {st : Stored} :
    decode key row = .ok st ↔ key.1 ≠ 0 ∧ key = keyOf st.command ∧ row = st.row := by
  unfold decode
  simp only [bind_eq_ok, okOr_eq_ok, parseTenant_eq_ok, deviceId_new_eq_ok, commandId_parse_eq_ok,
    coordinate_new_eq_ok, Status.restore_eq_ok, messageId_parse_eq_ok,
    messagingDomain_parse_eq_ok, Command.restore_eq_ok, Bytea.sized_eq_some]
  constructor
  · rintro ⟨tenant, ⟨hne, htenant⟩, device, hdevice, id, hid, coordinate, ⟨hg, he⟩, expected,
      hexpected, status, hstatus, command, hcommand, messageId, hmessage, fingerprint,
      hfingerprint, domain, hdomain, h⟩
    cases h
    refine ⟨hne, ?_, ?_⟩
    · unfold keyOf Command.spec
      rw [hcommand]
      exact Prod.ext htenant hid
    · unfold Stored.row Stored.typed columns Command.spec Command.status Command.version
      obtain ⟨_, _, _, _, _, _, _, _, _, _, _, _, _, _⟩ := row
      simp only at hdevice hg he hexpected hstatus hmessage hfingerprint hdomain
      simp only [hcommand, hdevice, hg, he, hexpected, hstatus, hmessage, hfingerprint, hdomain]
  · rintro ⟨hne, rfl, rfl⟩
    refine ⟨_, ⟨hne, rfl⟩, st.command.spec.scope.device, rfl, st.command.spec.id, rfl,
      st.command.spec.coordinate, ⟨rfl, rfl⟩, st.command.spec.expected, rfl, st.command.status, rfl,
      st.command, rfl, st.messageId, rfl, st.fingerprint, rfl, st.domain, rfl, rfl⟩

end Schema

end Rss.DeviceCommand
