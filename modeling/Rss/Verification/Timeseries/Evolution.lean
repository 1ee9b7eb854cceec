import Rss.Library.Fallible
import Rss.Model.Timeseries.Lifecycle

/-! # Definitions that follow one another

A definition may replace an earlier one of its key when nothing that was valid stops being valid. -/

namespace Rss.Timeseries

/-! ### Dimensions -/

/-- What the rules admit of a dimension map. -/
structure DimensionRules.Admits (r : DimensionRules) (values : List (String × String)) : Prop where
  count : values.length ≤ r.maxCount
  required : ∀ k ∈ r.required, k ∈ values.map Prod.fst
  allowed : ∀ k ∈ values.map Prod.fst, k ∈ r.allowed
  value : ∀ x ∈ values, x.2.utf8ByteSize ≤ r.maxValueBytes
  total : (values.map (fun x => x.1.utf8ByteSize + x.2.utf8ByteSize)).sum ≤ r.maxTotalBytes

namespace DimensionRules

variable {r new old : DimensionRules} {values : List (String × String)}

theorem totalBytes_eq_ok {bytes total : ℕ} :
    r.totalBytes bytes values = .ok total ↔
      (∀ x ∈ values, x.2.utf8ByteSize ≤ r.maxValueBytes) ∧
        total = bytes + (values.map (fun x => x.1.utf8ByteSize + x.2.utf8ByteSize)).sum := by
  induction values generalizing bytes with
  | nil => simp [totalBytes, eq_comm]
  | cons x values ih =>
      simp only [totalBytes, List.mem_cons, forall_eq_or_imp, List.map_cons, List.sum_cons]
      by_cases hlong : r.maxValueBytes < x.2.utf8ByteSize
      · simp only [hlong, if_true, reduceCtorEq, false_iff]
        omega
      · simp only [hlong, if_false, ih, not_lt.mp hlong, true_and, add_assoc]

/-- Valid rules pass exactly the maps they admit. -/
theorem validateValues_eq_ok (hvalid : r.validate = .ok ()) :
    r.validateValues values = .ok () ↔ r.Admits values := by
  unfold validateValues
  rw [hvalid, ok_bind]
  constructor
  · intro h
    split at h
    · cases h
    · rename_i hcount
      split at h
      · cases h
      · rename_i hkeys
        obtain ⟨hrequired, hallowed⟩ := not_not.mp hkeys
        obtain ⟨bytes, htotal, h⟩ := bind_eq_ok.mp h
        obtain ⟨hvalue, rfl⟩ := totalBytes_eq_ok.mp htotal
        split at h
        · cases h
        · rename_i hle
          rw [zero_add, not_lt] at hle
          exact ⟨not_lt.mp hcount, hrequired, hallowed, hvalue, hle⟩
  · intro h
    have htotal : r.totalBytes 0 values =
        .ok (0 + (values.map (fun x => x.1.utf8ByteSize + x.2.utf8ByteSize)).sum) :=
      totalBytes_eq_ok.mpr ⟨h.value, rfl⟩
    rw [if_neg (not_lt.mpr h.count), if_neg (not_not.mpr ⟨h.required, h.allowed⟩)]
    simp only [htotal, ok_bind, zero_add, if_neg (not_lt.mpr h.total)]

theorem validate_of_validateValues (h : r.validateValues values = .ok ()) :
    r.validate = .ok () := by
  obtain ⟨⟨⟩, hvalid, -⟩ := bind_eq_ok.mp h
  exact hvalid

/-- Every bound is at least as wide, and the required keys are the same. -/
structure Widens (new old : DimensionRules) : Prop where
  allowed : old.allowed ⊆ new.allowed
  required : new.required = old.required
  count : old.maxCount ≤ new.maxCount
  value : old.maxValueBytes ≤ new.maxValueBytes
  total : old.maxTotalBytes ≤ new.maxTotalBytes

theorem extends_iff : new.extends_ old = true ↔ new.Widens old := by
  simp only [extends_, Bool.and_eq_true, decide_eq_true_eq]
  constructor
  · rintro ⟨⟨⟨⟨hallowed, hrequired⟩, hcount⟩, hvalue⟩, htotal⟩
    exact ⟨hallowed, hrequired, hcount, hvalue, htotal⟩
  · intro h
    exact ⟨⟨⟨⟨h.allowed, h.required⟩, h.count⟩, h.value⟩, h.total⟩

theorem Widens.trans {newer : DimensionRules} (h : newer.Widens new) (h' : new.Widens old) :
    newer.Widens old where
  allowed := h'.allowed.trans h.allowed
  required := h.required.trans h'.required
  count := h'.count.trans h.count
  value := h'.value.trans h.value
  total := h'.total.trans h.total

theorem Widens.admits (h : new.Widens old) (hold : old.Admits values) : new.Admits values where
  count := hold.count.trans h.count
  required := by
    rw [h.required]
    exact hold.required
  allowed := fun k hk => h.allowed (hold.allowed k hk)
  value := fun x hx => (hold.value x hx).trans h.value
  total := hold.total.trans h.total

/-- Wider rules that are valid themselves admit every map of the earlier ones. -/
theorem Widens.validateValues (h : new.Widens old) (hvalid : new.validate = .ok ())
    (hold : old.validateValues values = .ok ()) : new.validateValues values = .ok () := by
  have hadmits := (validateValues_eq_ok (validate_of_validateValues hold)).mp hold
  exact (validateValues_eq_ok hvalid).mpr (h.admits hadmits)

end DimensionRules

/-! ### Metrics -/

namespace Metric

/-- The same metric, or states with more members. -/
inductive Widens : Metric → Metric → Prop where
  | same (m : Metric) : Widens m m
  | members {new old : Finset String} (subset : old ⊆ new) : Widens (.state new) (.state old)

theorem extends_iff {new old : Metric} : new.extends_ old = true ↔ new.Widens old := by
  constructor
  · intro h
    unfold extends_ at h
    split at h
    · exact .members (of_decide_eq_true h)
    · rw [of_decide_eq_true h]
      exact .same old
  · intro h
    cases h with
    | members subset => exact decide_eq_true subset
    | same =>
        unfold extends_
        split
        · exact decide_eq_true (Finset.Subset.refl _)
        · exact decide_eq_true rfl

theorem Widens.trans {newer new old : Metric} (h : newer.Widens new) (h' : new.Widens old) :
    newer.Widens old := by
  cases h with
  | same => exact h'
  | members subset =>
      cases h' with
      | same => exact .members subset
      | members subset' => exact .members (subset'.trans subset)

theorem Widens.accepts {new old : Metric} (h : new.Widens old) {v : Value}
    (hold : old.accepts v = true) : new.accepts v = true := by
  cases h with
  | same => exact hold
  | members subset =>
      cases v with
      | state id => exact decide_eq_true (subset (of_decide_eq_true hold))
      | number n => cases hold
      | bool b => cases hold

end Metric

/-! ### Versions -/

namespace Definition

variable {d new old : Definition}

/-- A later version of the same key, with every bound at least as wide. -/
structure Follows (new old : Definition) : Prop where
  scope : new.scope = old.scope
  key : new.key = old.key
  version : old.version < new.version
  unit : new.unit = old.unit
  metric : new.metric.Widens old.metric
  dimensions : new.dimensions.Widens old.dimensions

theorem Follows.trans {newer : Definition} (h : newer.Follows new) (h' : new.Follows old) :
    newer.Follows old where
  scope := h.scope.trans h'.scope
  key := h.key.trans h'.key
  version := h'.version.trans h.version
  unit := h.unit.trans h'.unit
  metric := h.metric.trans h'.metric
  dimensions := h.dimensions.trans h'.dimensions

theorem compare_compatible : new.compare old = .ok .compatibleVersion ↔ new.Follows old := by
  unfold compare
  constructor
  · intro h
    split at h
    · cases h
    · rename_i hkey
      rw [not_or, not_not, not_not] at hkey
      split at h
      · split at h <;> cases h
      · rename_i hversion
        split at h
        · cases h
        · rename_i hwide
          simp only [not_or, not_lt, not_not, Bool.not_eq_false] at hwide
          obtain ⟨hle, hunit, hmetric, hdimensions⟩ := hwide
          exact ⟨hkey.1, hkey.2, lt_of_le_of_ne hle (Ne.symm hversion), hunit,
            Metric.extends_iff.mp hmetric, DimensionRules.extends_iff.mp hdimensions⟩
  · intro h
    have hmetric := Metric.extends_iff.mpr h.metric
    have hdimensions := DimensionRules.extends_iff.mpr h.dimensions
    have hversion := h.version
    rw [if_neg (by simp [h.scope, h.key]), if_neg (by omega), if_neg]
    simp only [hmetric, hdimensions, h.unit, reduceCtorEq, ne_eq, not_true, or_false, not_lt]
    exact hversion.le

theorem compare_replay : new.compare old = .ok .replay ↔ new = old := by
  unfold compare
  constructor
  · intro h
    split at h
    · cases h
    · split at h
      · split at h
        · assumption
        · cases h
      · split at h <;> cases h
  · rintro rfl
    simp

theorem validate_of_check (h : d.check = .ok ()) : d.dimensions.validate = .ok () := by
  unfold check at h
  split at h
  · cases h
  · obtain ⟨⟨⟩, hvalid, -⟩ := bind_eq_ok.mp h
    exact hvalid

end Definition

/-- A compatible extension: what was admitted under the earlier version stays admitted, with the
same unit and the same kind of metric. -/
structure Extension (old new : Definition) : Prop where
  later : old.version < new.version
  compatible : new.compare old = .ok .compatibleVersion
  unit : new.unit = old.unit
  metric : new.metric.Widens old.metric
  values : ∀ v, old.metric.accepts v = true → new.metric.accepts v = true
  dimensions : ∀ values, old.dimensions.validateValues values = .ok () →
    new.dimensions.validateValues values = .ok ()

theorem Definition.Follows.extension {new old : Definition} (h : new.Follows old)
    (hnew : new.check = .ok ()) : Extension old new where
  later := h.version
  compatible := Definition.compare_compatible.mpr h
  unit := h.unit
  metric := h.metric
  values := fun _ => h.metric.accepts
  dimensions := fun _ => h.dimensions.validateValues (Definition.validate_of_check hnew)

end Rss.Timeseries
