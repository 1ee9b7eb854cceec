import Mathlib.Data.List.Nodup
import Rss.Library.Fallible

/-! # Ordered maps and their entries

A map built from a list of entries no two of which share a key is the list, whatever its order.
The maps are those of the standard library, which are equal as soon as they look up the same. -/

namespace Rss

open Std

variable {κ κ' ρ ε : Type} [Ord κ] [TransOrd κ]

/-- One more entry, which fails on a key that is there. -/
def insertNew (e : ε) (t : ExtTreeMap κ ρ) (entry : κ × ρ) : Except ε (ExtTreeMap κ ρ) :=
  if t.contains entry.1 then .error e else .ok (t.insert entry.1 entry.2)

theorem insertNew_eq_ok {e : ε} {t t' : ExtTreeMap κ ρ} {entry : κ × ρ} :
    insertNew e t entry = .ok t' ↔ t[entry.1]? = none ∧ t.insert entry.1 entry.2 = t' := by
  unfold insertNew
  rw [ExtTreeMap.contains_eq_isSome_getElem?]
  cases t[entry.1]? <;> simp

variable [LawfulEqOrd κ]

/-! ### Lookups -/

theorem getElem?_insert_ne {t : ExtTreeMap κ ρ} {k a : κ} {v : ρ} (h : k ≠ a) :
    (t.insert k v)[a]? = t[a]? := by
  rw [ExtTreeMap.getElem?_insert, if_neg (fun hcmp => h (LawfulEqOrd.eq_of_compare hcmp))]

theorem getElem?_erase_ne {t : ExtTreeMap κ ρ} {k a : κ} (h : k ≠ a) :
    (t.erase k)[a]? = t[a]? := by
  rw [ExtTreeMap.getElem?_erase, if_neg (fun hcmp => h (LawfulEqOrd.eq_of_compare hcmp))]

theorem getElem?_erase_eq_some {t : ExtTreeMap κ ρ} {k a : κ} {v : ρ} :
    (t.erase k)[a]? = some v ↔ a ≠ k ∧ t[a]? = some v := by
  by_cases hk : k = a
  · subst hk
    simp
  · rw [getElem?_erase_ne hk]
    exact ⟨fun h => ⟨Ne.symm hk, h⟩, fun h => h.2⟩

/-- A map from which some keys were taken out. -/
theorem getElem?_foldl_erase {ks : List κ} {t : ExtTreeMap κ ρ} {a : κ} {v : ρ} :
    (ks.foldl ExtTreeMap.erase t)[a]? = some v ↔ a ∉ ks ∧ t[a]? = some v := by
  induction ks generalizing t with
  | nil => simp
  | cons k ks ih =>
      rw [List.foldl_cons, ih, getElem?_erase_eq_some, List.mem_cons, not_or]
      exact ⟨fun h => ⟨⟨h.2.1, h.1⟩, h.2.2⟩, fun h => ⟨h.1.2, h.1.1, h.2⟩⟩

/-- Two maps with the same entries are equal. -/
theorem ext_entries {t t' : ExtTreeMap κ ρ}
    (h : ∀ (k : κ) (v : ρ), t[k]? = some v ↔ t'[k]? = some v) : t = t' :=
  ExtTreeMap.ext_getElem? fun k => Option.ext (h k)

theorem nodup_keys_toList (t : ExtTreeMap κ ρ) : (t.toList.map Prod.fst).Nodup := by
  rw [List.nodup_iff_pairwise_ne, List.pairwise_map]
  refine ExtTreeMap.distinct_keys_toList.imp fun h heq => h ?_
  rw [heq]
  exact ReflOrd.compare_self

/-! ### Insertions -/

/-- Entries written one after the other, no key twice. -/
theorem getElem?_foldl_insert {l : List (κ × ρ)} {t : ExtTreeMap κ ρ}
    (h : (l.map Prod.fst).Nodup) {k : κ} {v : ρ} :
    (l.foldl (fun acc e => acc.insert e.1 e.2) t)[k]? = some v ↔
      (k, v) ∈ l ∨ k ∉ l.map Prod.fst ∧ t[k]? = some v := by
  induction l generalizing t with
  | nil => simp
  | cons e l ih =>
      obtain ⟨a, b⟩ := e
      rw [List.map_cons, List.nodup_cons] at h
      rw [List.foldl_cons, ih h.2, List.map_cons, List.mem_cons, List.mem_cons, Prod.mk.injEq]
      by_cases hk : a = k
      · subst hk
        have hnot : (a, v) ∉ l := fun hmem => h.1 (List.mem_map.mpr ⟨_, hmem, rfl⟩)
        simp [h.1, hnot, eq_comm]
      · rw [getElem?_insert_ne hk]
        simp [Ne.symm hk]

/-- The map of a list without repeated keys has its entries. -/
theorem getElem?_ofList_eq_some {l : List (κ × ρ)} (h : (l.map Prod.fst).Nodup) {k : κ} {v : ρ} :
    (ExtTreeMap.ofList l)[k]? = some v ↔ (k, v) ∈ l := by
  rw [ExtTreeMap.ofList_eq_foldl, getElem?_foldl_insert h]
  simp

/-- A list is written without a failure when its keys are new and no two of them are equal. -/
theorem foldlM_insertNew_eq_ok {e : ε} {l : List (κ × ρ)} {t t' : ExtTreeMap κ ρ} :
    l.foldlM (insertNew e) t = .ok t' ↔
      (l.map Prod.fst).Nodup ∧ (∀ k ∈ l.map Prod.fst, t[k]? = none) ∧
        l.foldl (fun acc entry => acc.insert entry.1 entry.2) t = t' := by
  induction l generalizing t with
  | nil => simp [pure, Except.pure]
  | cons entry l ih =>
      simp only [List.foldlM_cons, bind_eq_ok, insertNew_eq_ok, ih, List.map_cons,
        List.nodup_cons, List.forall_mem_cons, List.foldl_cons]
      constructor
      · intro h
        obtain ⟨_, ⟨hnew, rfl⟩, hnodup, hrest, heq⟩ := h
        have hnot : entry.1 ∉ l.map Prod.fst := fun hmem => by
          simpa using hrest entry.1 hmem
        refine ⟨⟨hnot, hnodup⟩, ⟨hnew, fun k hk => ?_⟩, heq⟩
        have hne : entry.1 ≠ k := fun heq => hnot (heq ▸ hk)
        rw [← getElem?_insert_ne hne]
        exact hrest k hk
      · intro h
        obtain ⟨⟨hnot, hnodup⟩, ⟨hnew, hrest⟩, heq⟩ := h
        refine ⟨_, ⟨hnew, rfl⟩, hnodup, fun k hk => ?_, heq⟩
        have hne : entry.1 ≠ k := fun heq => hnot (heq ▸ hk)
        rw [getElem?_insert_ne hne]
        exact hrest k hk

/-! ### Renamed keys -/

/-- The entries under the names their keys have, without those that have none. -/
def renamed (f : κ → Option κ') (t : ExtTreeMap κ ρ) : List (κ' × ρ) :=
  t.toList.filterMap fun entry => (f entry.1).map fun k => (k, entry.2)

theorem mem_renamed {f : κ → Option κ'} {t : ExtTreeMap κ ρ} {k' : κ'} {v : ρ} :
    (k', v) ∈ renamed f t ↔ ∃ k, f k = some k' ∧ t[k]? = some v := by
  unfold renamed
  simp only [List.mem_filterMap, Option.map_eq_some_iff, Prod.mk.injEq, Prod.exists,
    ExtTreeMap.mem_toList_iff_getElem?_eq_some]
  constructor
  · intro h
    obtain ⟨k, _, hget, k', hf, rfl, rfl⟩ := h
    exact ⟨k, hf, hget⟩
  · intro h
    obtain ⟨k, hf, hget⟩ := h
    exact ⟨k, v, hget, k', hf, rfl, rfl⟩

/-- Names of different keys are different. -/
theorem nodup_renamed {f : κ → Option κ'} {t : ExtTreeMap κ ρ}
    (hf : ∀ k a k', f k = some k' → f a = some k' → k = a) :
    ((renamed f t).map Prod.fst).Nodup := by
  have hkeys : (renamed f t).map Prod.fst = (t.toList.map Prod.fst).filterMap f := by
    unfold renamed
    rw [List.map_filterMap, List.filterMap_map]
    refine List.filterMap_congr fun entry _ => ?_
    cases hname : f entry.1 <;> simp [hname]
  rw [hkeys]
  exact (nodup_keys_toList t).filterMap fun k a k' hk ha => hf k a k' hk ha

/-! ### Optional entries -/

/-- The entries of a list that have a value. -/
def present (l : List (κ × Option ρ)) : List (κ × ρ) :=
  l.filterMap fun entry => entry.2.map fun v => (entry.1, v)

omit [Ord κ] [TransOrd κ] [LawfulEqOrd κ]

@[simp] theorem present_nil : present ([] : List (κ × Option ρ)) = [] := rfl

@[simp] theorem present_cons_some (k : κ) (v : ρ) (l : List (κ × Option ρ)) :
    present ((k, some v) :: l) = (k, v) :: present l := rfl

@[simp] theorem present_cons_none (k : κ) (l : List (κ × Option ρ)) :
    present ((k, none) :: l) = present l := rfl

theorem mem_present {l : List (κ × Option ρ)} {k : κ} {v : ρ} :
    (k, v) ∈ present l ↔ (k, some v) ∈ l := by
  unfold present
  simp only [List.mem_filterMap, Option.map_eq_some_iff, Prod.mk.injEq, Prod.exists]
  constructor
  · intro h
    obtain ⟨_, _, hmem, _, rfl, rfl, rfl⟩ := h
    exact hmem
  · intro h
    exact ⟨k, some v, h, v, rfl, rfl, rfl⟩

/-- Entries written under the names of their keys, all of which have one. -/
theorem foldlM_renamed [Ord κ'] [TransOrd κ'] {f : κ → Option κ'} {e : ε} {l : List (κ × ρ)}
    {t t' : ExtTreeMap κ' ρ} :
    l.foldlM (fun acc entry => do
      let k ← okOr (f entry.1) e
      .ok (acc.insert k entry.2)) t = (.ok t' : Except ε _) ↔
      (∀ entry ∈ l, (f entry.1).isSome = true) ∧
        t' = (l.filterMap fun entry => (f entry.1).map fun k => (k, entry.2)).foldl
          (fun acc entry => acc.insert entry.1 entry.2) t := by
  induction l generalizing t with
  | nil =>
      rw [List.foldlM_nil]
      exact ⟨fun h => ⟨fun _ hmem => absurd hmem List.not_mem_nil, (Except.ok.inj h).symm⟩,
        fun h => congrArg Except.ok h.2.symm⟩
  | cons entry l ih =>
      rw [List.foldlM_cons, List.forall_mem_cons]
      cases hname : f entry.1 with
      | none => simp
      | some k =>
          rw [okOr_some, ok_bind, ok_bind, ih, List.filterMap_cons, hname]
          simp

/-- The keys that have a value are some of the keys. -/
theorem keys_present_sublist (l : List (κ × Option ρ)) :
    ((present l).map Prod.fst).Sublist (l.map Prod.fst) := by
  induction l with
  | nil => exact List.Sublist.refl _
  | cons entry l ih =>
      obtain ⟨k, o⟩ := entry
      cases o with
      | none => exact ih.cons k
      | some v => exact ih.cons_cons k

/-- A key is listed once. -/
theorem eq_of_mem_of_nodup_keys {l : List (κ × ρ)} (h : (l.map Prod.fst).Nodup) {k : κ}
    {v w : ρ} (hv : (k, v) ∈ l) (hw : (k, w) ∈ l) : v = w :=
  (Prod.mk.inj (List.inj_on_of_nodup_map h hv hw rfl)).2

end Rss
