import Rss.Model.Messaging.Envelope
import Rss.Verification.Contract.Identity

/-! # Texts of a message

Each part of a message is read back from its own text, and its text is not empty. -/

namespace Rss.Envelope

open Rss.Contract
open Rss.Messaging.Consumer (EnvelopeValidationFailure)
open Std

/-! ### Identities -/

theorem validateIdentity_ne {allowed : UInt8 → Bool} {maxLen : ℕ} {raw : String}
    (h : validateIdentity allowed maxLen raw = .ok ()) : raw ≠ "" := by
  intro hempty
  simp [validateIdentity, hempty] at h

/-! ### Tenants -/

theorem TenantId.text_ne {u : UuidText} (hu : u.Lawful) (t : TenantId) : t.text u ≠ "" :=
  hu.hyphenated_ne t.uuid

theorem TenantId.parse_text {u : UuidText} (hu : u.Lawful) (t : TenantId) :
    parse u (t.text u) = .ok t := by
  change parse u (u.hyphenated t.uuid) = _
  unfold parse
  rw [if_neg (hu.hyphenated_ne t.uuid)]
  simp only [hu.tryParse_hyphenated]
  rw [if_neg (fun h => h rfl), dif_neg t.not_nil]

/-! ### Metadata -/

/-- The facts a message was authored with. -/
def MessageMetadata.required (m : MessageMetadata) : AuthoredMessageMetadata :=
  ⟨m.tenantId, m.occurredAt, m.domain, m.route, m.contract⟩

/-- A message has the partition that its tenant, its domain and its key give it. -/
theorem MessageMetadata.new_required (m : MessageMetadata) {correlation : Option CorrelationId}
    (hcorrelation : correlation.map (·.asStr) = m.correlation) :
    new m.required ⟨correlation, m.partition.map (·.key), m.causation, m.attributes⟩ = m := by
  obtain ⟨tenant, occurred, _, domain, route, contract, partition, causation, attributes, _,
    scope⟩ := m
  subst hcorrelation
  simp only [new, required, mk.injEq, and_true, true_and, Option.map_map]
  cases partition with
  | none => rfl
  | some p =>
      obtain ⟨htenant, hdomain⟩ := scope p rfl
      simp only [Option.map_some, Function.comp, ← htenant, ← hdomain]

/-- The correlation of a message as the checked text it was. -/
theorem MessageMetadata.exists_correlation (m : MessageMetadata) :
    ∃ c : Option CorrelationId, c.map (·.asStr) = m.correlation := by
  cases h : m.correlation with
  | none => exact ⟨none, rfl⟩
  | some raw => exact ⟨some ⟨raw, m.correlation_valid raw h⟩, rfl⟩

/-! ### Headers -/

theorem takeRequired_eq_ok {headers headers' : Headers} {key value : String} :
    takeRequired headers key = .ok (value, headers') ↔
      headers[key]? = some value ∧ value ≠ "" ∧ headers.erase key = headers' := by
  unfold takeRequired
  cases h : headers[key]? with
  | none => simp
  | some v =>
      by_cases hv : v = ""
      · simp only [Option.filter_some, hv, ne_eq, not_true_eq_false, decide_false]
        simp
        intro h₁ h₂
        exact absurd h₁ h₂
      · simp only [Option.filter_some, hv, ne_eq, not_false_eq_true, decide_true, if_true]
        simp
        intro h₁ _
        exact h₁ ▸ hv

theorem orFail_eq_ok {ε α : Type} {x : Except ε α} {f : EnvelopeValidationFailure} {a : α} :
    orFail x f = .ok a ↔ x = .ok a := mapError_eq_ok

@[simp] theorem parseOptional_map {ε : Type} {check : String → Except ε Unit}
    (t : Option (Checked check)) :
    parseOptional (Checked.parse check) (t.map (·.asStr)) = .ok t := by
  cases t with
  | none => rfl
  | some t => simp [parseOptional, Except.map]

/-! ### Tables of a message -/

/-- The entries a message is written as: its fields, and its attributes behind a prefix. -/
def entries (p : String) (fields : List (String × Option String)) (attributes : Attributes) :
    List (String × String) :=
  present fields ++ attributes.toList.map fun entry => (p ++ entry.1, entry.2)

/-- A table that looks up each field under its name and each attribute behind the prefix. -/
structure Carries (headers : Headers) (p : String) (fields : List (String × Option String))
    (attributes : Attributes) : Prop where
  field : ∀ key value, (key, value) ∈ fields → headers[key]? = value
  custom : ∀ key value, headers[p ++ key]? = some value ↔ attributes[key]? = some value

section

variable {headers : Headers} {p : String} {fields : List (String × Option String)}
  {attributes : Attributes}

theorem append_notMem_names (hp : ∀ key ∈ fields.map Prod.fst, stripPrefix? p key = none)
    (key : String) : p ++ key ∉ fields.map Prod.fst := by
  intro hmem
  have := hp _ hmem
  simp at this

theorem nodup_entries (hfields : (fields.map Prod.fst).Nodup)
    (hp : ∀ key ∈ fields.map Prod.fst, stripPrefix? p key = none) :
    ((entries p fields attributes).map Prod.fst).Nodup := by
  unfold entries
  rw [List.map_append, List.map_map]
  refine List.Nodup.append (hfields.sublist (keys_present_sublist fields)) ?_ ?_
  · have hkeys : attributes.toList.map (Prod.fst ∘ fun entry => (p ++ entry.1, entry.2)) =
        (attributes.toList.map Prod.fst).map (p ++ ·) := by
      rw [List.map_map]
      rfl
    rw [hkeys]
    refine (nodup_keys_toList attributes).map fun a b hab => ?_
    have hstrip := congrArg (stripPrefix? p) hab
    simpa using hstrip
  · intro key hkey hattribute
    obtain ⟨entry, -, rfl⟩ := List.mem_map.mp hattribute
    exact append_notMem_names hp entry.1 ((keys_present_sublist fields).subset hkey)

theorem mem_entries_append (hp : ∀ key ∈ fields.map Prod.fst, stripPrefix? p key = none)
    {key value : String} :
    (p ++ key, value) ∈ entries p fields attributes ↔ attributes[key]? = some value := by
  unfold entries
  rw [List.mem_append, mem_present]
  constructor
  · intro h
    rcases h with hfield | hattribute
    · exact absurd (List.mem_map.mpr ⟨_, hfield, rfl⟩) (append_notMem_names hp key)
    · obtain ⟨entry, hentry, heq⟩ := List.mem_map.mp hattribute
      obtain ⟨hkey, rfl⟩ := Prod.mk.inj heq
      have hstrip := congrArg (stripPrefix? p) hkey
      rw [stripPrefix?_append, stripPrefix?_append, Option.some.injEq] at hstrip
      exact ExtTreeMap.mem_toList_iff_getElem?_eq_some.mp (hstrip ▸ hentry)
  · intro h
    refine .inr (List.mem_map.mpr ⟨(key, value), ?_, rfl⟩)
    exact ExtTreeMap.mem_toList_iff_getElem?_eq_some.mpr h

theorem mem_entries_field (hfields : (fields.map Prod.fst).Nodup)
    (hp : ∀ key ∈ fields.map Prod.fst, stripPrefix? p key = none) {key value : String}
    {o : Option String} (hmem : (key, o) ∈ fields) :
    (key, value) ∈ entries p fields attributes ↔ o = some value := by
  unfold entries
  rw [List.mem_append, mem_present]
  constructor
  · intro h
    rcases h with hfield | hattribute
    · exact eq_of_mem_of_nodup_keys hfields hmem hfield
    · obtain ⟨entry, -, heq⟩ := List.mem_map.mp hattribute
      have hkey : p ++ entry.1 ∈ fields.map Prod.fst :=
        (Prod.mk.inj heq).1 ▸ List.mem_map.mpr ⟨_, hmem, rfl⟩
      exact absurd hkey (append_notMem_names hp entry.1)
  · intro h
    exact .inl (h ▸ hmem)

/-- The table with the entries of a message carries it. -/
theorem carries_of_entries (hfields : (fields.map Prod.fst).Nodup)
    (hp : ∀ key ∈ fields.map Prod.fst, stripPrefix? p key = none)
    (h : ∀ (key value : String), headers[key]? = some value ↔
      (key, value) ∈ entries p fields attributes) : Carries headers p fields attributes where
  field key _ hmem := Option.ext fun value =>
    (h key value).trans (mem_entries_field hfields hp hmem)
  custom key value := (h (p ++ key) value).trans (mem_entries_append hp)

/-! ### Reading a table -/

/-- What is left of a table when the first names of an order were taken out of it. -/
def remaining (order : List String) (headers : Headers) (n : ℕ) : Headers :=
  (order.take n).foldl ExtTreeMap.erase headers

variable {order : List String} {n : ℕ} {key : String}

theorem remaining_succ (hread : order[n]? = some key) :
    remaining order headers (n + 1) = (remaining order headers n).erase key := by
  rw [remaining, List.take_add_one, hread, List.foldl_append]
  rfl

theorem notMem_take (horder : order.Nodup) (hread : order[n]? = some key) :
    key ∉ order.take n := by
  intro hmem
  have hnodup := horder.sublist (List.take_sublist (n + 1) order)
  rw [List.take_add_one, hread, Option.toList_some] at hnodup
  exact List.disjoint_of_nodup_append hnodup hmem (List.mem_singleton_self key)

/-- Each field is looked up before it is taken out. -/
theorem Carries.lookup (h : Carries headers p fields attributes) (horder : order.Nodup)
    (hread : order[n]? = some key) {o : Option String} (hmem : (key, o) ∈ fields) :
    (remaining order headers n)[key]? = o :=
  Option.ext fun value => by
    rw [remaining, getElem?_foldl_erase, h.field key o hmem]
    exact ⟨fun h => h.2, fun h => ⟨notMem_take horder hread, h⟩⟩

theorem Carries.takeRequired (h : Carries headers p fields attributes) (horder : order.Nodup)
    (hread : order[n]? = some key) {value : String} (hmem : (key, some value) ∈ fields)
    (hvalue : value ≠ "") :
    takeRequired (remaining order headers n) key = .ok (value, remaining order headers (n + 1)) :=
  takeRequired_eq_ok.mpr ⟨h.lookup horder hread hmem, hvalue, (remaining_succ hread).symm⟩

/-- Behind the fields are the attributes. -/
theorem Carries.renamed (h : Carries headers p fields attributes) {taken : List String}
    (htaken : ∀ key ∈ taken, stripPrefix? p key = none) :
    ExtTreeMap.ofList (renamed (stripPrefix? p) (taken.foldl ExtTreeMap.erase headers)) =
      attributes := by
  have hnodup := nodup_renamed (t := taken.foldl ExtTreeMap.erase headers) (f := stripPrefix? p)
    fun k a key hk ha => by rw [stripPrefix?_eq_some.mp hk, stripPrefix?_eq_some.mp ha]
  refine ext_entries fun key value => ?_
  rw [getElem?_ofList_eq_some hnodup, mem_renamed, ← h.custom]
  constructor
  · intro hread
    obtain ⟨k, hk, hget⟩ := hread
    rw [← stripPrefix?_eq_some.mp hk]
    exact (getElem?_foldl_erase.mp hget).2
  · intro hget
    refine ⟨p ++ key, stripPrefix?_append p key, getElem?_foldl_erase.mpr ⟨fun hmem => ?_, hget⟩⟩
    have := htaken _ hmem
    simp at this

end

end Rss.Envelope
