import Mathlib.Data.List.Nodup

/-! # Keyed tables

A relational table with a primary key: rows in physical order, no key twice. The
operations are those of `INSERT`, `UPDATE`, `DELETE` and keyed `SELECT`; each one is
described by what a lookup sees afterwards. -/

namespace Rss

structure Table (κ ρ : Type) where
  rows : List (κ × ρ)
  nodup : (rows.map Prod.fst).Nodup

namespace Table

variable {κ ρ : Type} [DecidableEq κ]

instance [DecidableEq ρ] : DecidableEq (Table κ ρ) := fun t u =>
  decidable_of_iff (t.rows = u.rows) (by cases t; cases u; simp)

def empty : Table κ ρ := ⟨[], List.nodup_nil⟩

/-- `SELECT … WHERE key = k`. -/
def get? (t : Table κ ρ) (k : κ) : Option ρ :=
  (t.rows.find? (fun row => row.1 = k)).map Prod.snd

@[simp] theorem get?_empty (k : κ) : (empty : Table κ ρ).get? k = none := rfl

/-- A row is in the table exactly when its key looks it up. -/
theorem mem_rows {t : Table κ ρ} {k : κ} {v : ρ} : (k, v) ∈ t.rows ↔ t.get? k = some v := by
  obtain ⟨rows, nodup⟩ := t
  simp only [get?]
  induction rows with
  | nil => simp
  | cons row rows ih =>
      obtain ⟨k', v'⟩ := row
      simp only [List.map_cons, List.nodup_cons] at nodup
      by_cases hk : k' = k
      · subst hk
        have hnot : (k', v) ∉ rows := fun h => nodup.1 (List.mem_map_of_mem h)
        simp [hnot, eq_comm]
      · simp only [List.mem_cons, Prod.mk.injEq, Ne.symm hk, false_and, false_or,
          List.find?_cons, hk, decide_false]
        exact ih nodup.2

theorem mem_keys {t : Table κ ρ} {k : κ} : k ∈ t.rows.map Prod.fst ↔ (t.get? k).isSome := by
  simp only [List.mem_map, Prod.exists, exists_and_right, exists_eq_right, mem_rows,
    Option.isSome_iff_exists]

/-- `SELECT key … WHERE … ORDER BY … LIMIT cap`. -/
def select (t : Table κ ρ) (p : κ → ρ → Bool) (le : κ × ρ → κ × ρ → Bool) (cap : ℕ) : List κ :=
  (((t.rows.filter (fun row => p row.1 row.2)).mergeSort le).take cap).map Prod.fst

/-- Every key selected is one of a row that qualifies. -/
theorem exists_of_mem_select {t : Table κ ρ} {p : κ → ρ → Bool} {le : κ × ρ → κ × ρ → Bool}
    {cap : ℕ} {k : κ} (h : k ∈ t.select p le cap) : ∃ v, t.get? k = some v ∧ p k v = true := by
  obtain ⟨row, hrow, rfl⟩ := List.mem_map.mp h
  have hmem := List.mem_mergeSort.mp (List.mem_of_mem_take hrow)
  obtain ⟨hin, hp⟩ := List.mem_filter.mp hmem
  exact ⟨row.2, mem_rows.mp hin, hp⟩

/-! ### Updates -/

/-- `UPDATE … SET …`, with the condition inside the function. -/
def update (t : Table κ ρ) (f : κ → ρ → ρ) : Table κ ρ where
  rows := t.rows.map (fun row => (row.1, f row.1 row.2))
  nodup := by simpa [Function.comp_def] using t.nodup

@[simp] theorem get?_update (t : Table κ ρ) (f : κ → ρ → ρ) (k : κ) :
    (t.update f).get? k = (t.get? k).map (f k) := by
  ext v
  rw [← mem_rows]
  simp only [update, List.mem_map, Prod.exists, Prod.mk.injEq, mem_rows, Option.map_eq_some_iff]
  constructor
  · rintro ⟨k', w, hw, rfl, rfl⟩
    exact ⟨w, hw, rfl⟩
  · rintro ⟨w, hw, rfl⟩
    exact ⟨k, w, hw, rfl, rfl⟩

/-- `UPDATE … WHERE key = k`. -/
def modify (t : Table κ ρ) (k : κ) (f : ρ → ρ) : Table κ ρ :=
  t.update (fun k' v => if k' = k then f v else v)

@[simp] theorem get?_modify_self (t : Table κ ρ) (k : κ) (f : ρ → ρ) :
    (t.modify k f).get? k = (t.get? k).map f := by
  simp [modify]

theorem get?_modify_const {t : Table κ ρ} {k : κ} {v : ρ} (h : t.get? k = some v) (w : ρ) :
    (t.modify k (fun _ => w)).get? k = some w := by
  simp [h]

theorem get?_modify_of_ne (t : Table κ ρ) {k k' : κ} (h : k' ≠ k) (f : ρ → ρ) :
    (t.modify k f).get? k' = t.get? k' := by
  simp [modify, h]

theorem get?_modify (t : Table κ ρ) (k k' : κ) (f : ρ → ρ) :
    (t.modify k f).get? k' = if k' = k then (t.get? k').map f else t.get? k' := by
  by_cases h : k' = k
  · subst h
    simp
  · simp [get?_modify_of_ne t h, h]

/-! ### Insertion and deletion -/

/-- `INSERT … ON CONFLICT DO NOTHING`. -/
def insertNew (t : Table κ ρ) (k : κ) (v : ρ) : Table κ ρ :=
  if h : k ∈ t.rows.map Prod.fst then t
  else
    { rows := t.rows ++ [(k, v)]
      nodup := by simpa [List.nodup_append] using ⟨t.nodup, fun a b hb e => h (by simpa using ⟨b, e ▸ hb⟩)⟩ }

theorem get?_insertNew (t : Table κ ρ) (k : κ) (v : ρ) (k' : κ) :
    (t.insertNew k v).get? k' = if k' = k then some ((t.get? k).getD v) else t.get? k' := by
  unfold insertNew
  split
  · rename_i h
    obtain ⟨w, hw⟩ := Option.isSome_iff_exists.mp (mem_keys.mp h)
    by_cases hk : k' = k
    · subst hk
      simp [hw]
    · simp [hk]
  · rename_i h
    have hnone : t.get? k = none := by simpa using mt mem_keys.mpr h
    by_cases hk : k' = k
    · subst hk
      simp only [get?, Option.map_eq_none_iff] at hnone
      simp [get?, List.find?_append, hnone]
    · simp [get?, List.find?_append, hk, Ne.symm hk]

@[simp] theorem get?_insertNew_self (t : Table κ ρ) (k : κ) (v : ρ) :
    (t.insertNew k v).get? k = some ((t.get? k).getD v) := by
  simp [get?_insertNew]

theorem rows_insertNew {t : Table κ ρ} {k : κ} (h : t.get? k = none) (v : ρ) :
    (t.insertNew k v).rows = t.rows ++ [(k, v)] := by
  have hk : k ∉ t.rows.map Prod.fst := by
    rw [mem_keys, h]
    simp
  rw [insertNew, dif_neg hk]

/-- `INSERT … ON CONFLICT DO UPDATE`. -/
def upsert (t : Table κ ρ) (k : κ) (v : ρ) (f : ρ → ρ) : Table κ ρ :=
  if (t.get? k).isSome then t.modify k f else t.insertNew k v

theorem get?_upsert (t : Table κ ρ) (k : κ) (v : ρ) (f : ρ → ρ) (k' : κ) :
    (t.upsert k v f).get? k' =
      if k' = k then some (((t.get? k).map f).getD v) else t.get? k' := by
  unfold upsert
  split
  · rename_i h
    obtain ⟨w, hw⟩ := Option.isSome_iff_exists.mp h
    by_cases hk : k' = k
    · subst hk
      simp [hw]
    · simp [get?_modify_of_ne t hk, hk]
  · rename_i h
    have hnone : t.get? k = none := by simpa using h
    simp [get?_insertNew, hnone]

theorem get?_upsert_const (t : Table κ ρ) (k k' : κ) (v : ρ) :
    (t.upsert k v fun _ => v).get? k' = if k' = k then some v else t.get? k' := by
  rw [get?_upsert]
  cases t.get? k <;> rfl

/-- `DELETE … WHERE …`. -/
def delete (t : Table κ ρ) (p : κ → Bool) : Table κ ρ where
  rows := t.rows.filter (fun row => !p row.1)
  nodup := (List.filter_sublist.map Prod.fst).nodup t.nodup

theorem get?_delete (t : Table κ ρ) (p : κ → Bool) (k : κ) :
    (t.delete p).get? k = if p k then none else t.get? k := by
  ext v
  rw [← mem_rows]
  by_cases hp : p k <;> simp [delete, hp, mem_rows]

/-! ### Rows of a kind -/

/-- A row of another kind may be inserted. -/
theorem filter_insertNew (t : Table κ ρ) {k : κ} {v : ρ} {p : κ × ρ → Bool}
    (h : p (k, v) = false) : (t.insertNew k v).rows.filter p = t.rows.filter p := by
  unfold insertNew
  split
  · rfl
  · simp [List.filter_append, h]

theorem filter_modify (t : Table κ ρ) {k : κ} (f : ρ → ρ) {p : κ × ρ → Bool}
    (h : ∀ v, p (k, v) = false) : (t.modify k f).rows.filter p = t.rows.filter p := by
  show (t.rows.map (fun row => (row.1, if row.1 = k then f row.2 else row.2))).filter p = _
  induction t.rows with
  | nil => rfl
  | cons row rows ih =>
      obtain ⟨k', v⟩ := row
      rw [List.map_cons, List.filter_cons, List.filter_cons, ih]
      by_cases hk : k' = k
      · subst hk
        simp [h]
      · simp [hk]

omit [DecidableEq κ] in
theorem filter_delete (t : Table κ ρ) {q : κ → Bool} {p : κ × ρ → Bool}
    (h : ∀ row ∈ t.rows, p row = true → q row.1 = false) :
    (t.delete q).rows.filter p = t.rows.filter p := by
  show (t.rows.filter (fun row => !q row.1)).filter p = _
  rw [List.filter_filter]
  refine List.filter_congr fun row hrow => ?_
  cases hp : p row with
  | false => rfl
  | true => simp [h row hrow hp]

/-! ### Bulk insertion -/

/-- `INSERT … SELECT … ON CONFLICT DO NOTHING` of one row per key. -/
def insertAll (t : Table κ ρ) (ks : List κ) (v : κ → ρ) : Table κ ρ :=
  ks.foldl (fun t k => t.insertNew k (v k)) t

theorem get?_insertAll (t : Table κ ρ) (ks : List κ) (v : κ → ρ) (k : κ) :
    (t.insertAll ks v).get? k = if k ∈ ks then some ((t.get? k).getD (v k)) else t.get? k := by
  unfold insertAll
  induction ks generalizing t with
  | nil => simp
  | cons k' ks ih =>
      rw [List.foldl_cons, ih, get?_insertNew]
      by_cases hk : k = k'
      · subst hk
        by_cases hm : k ∈ ks <;> simp [hm]
      · simp [hk]

end Table

end Rss
