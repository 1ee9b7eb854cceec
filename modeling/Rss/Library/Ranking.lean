import Mathlib.Data.List.Nodup
import Mathlib.Order.Lattice

/-! # Row numbers

`row_number() OVER (ORDER BY …)` of rows with a primary key. -/

namespace Rss

variable {κ ρ ω : Type} [LinearOrder ω]

/-- The keys of the rows in the order of a sort key. -/
def ranking (rows : List (κ × ρ)) (key : κ × ρ → ω) : List κ :=
  (rows.mergeSort (fun a b => decide (key a ≤ key b))).map Prod.fst

theorem mem_ranking {rows : List (κ × ρ)} {key : κ × ρ → ω} {k : κ} :
    k ∈ ranking rows key ↔ k ∈ rows.map Prod.fst := by
  simp only [ranking, List.mem_map, List.mem_mergeSort]

theorem nodup_ranking {rows : List (κ × ρ)} (key : κ × ρ → ω) (h : (rows.map Prod.fst).Nodup) :
    (ranking rows key).Nodup :=
  ((List.mergeSort_perm rows _).map Prod.fst).nodup_iff.mpr h

theorem pairwise_mergeSort_key (rows : List (κ × ρ)) (key : κ × ρ → ω) :
    (rows.mergeSort (fun a b => decide (key a ≤ key b))).Pairwise (fun a b => key a ≤ key b) := by
  refine (List.pairwise_mergeSort ?_ ?_ rows).imp of_decide_eq_true
  · intro x y z hxy hyz
    exact decide_eq_true (le_trans (of_decide_eq_true hxy) (of_decide_eq_true hyz))
  · intro x y
    rw [Bool.or_eq_true]
    exact (le_total (key x) (key y)).imp decide_eq_true decide_eq_true

variable [DecidableEq κ]

/-- The number of a key, from one. -/
def rowNumber (keys : List κ) (k : κ) : Option ℕ :=
  if k ∈ keys then some (keys.idxOf k + 1) else none

theorem rowNumber_eq_some {keys : List κ} {k : κ} {p : ℕ} :
    rowNumber keys k = some p ↔ k ∈ keys ∧ p = keys.idxOf k + 1 := by
  unfold rowNumber
  split <;> simp_all [eq_comm]

theorem isSome_rowNumber {keys : List κ} {k : κ} : (rowNumber keys k).isSome ↔ k ∈ keys := by
  unfold rowNumber
  split <;> simp_all

theorem exists_rowNumber {keys : List κ} (h : keys.Nodup) {p : ℕ} :
    (∃ k, rowNumber keys k = some p) ↔ 1 ≤ p ∧ p ≤ keys.length := by
  constructor
  · rintro ⟨k, hk⟩
    obtain ⟨hmem, rfl⟩ := rowNumber_eq_some.mp hk
    exact ⟨Nat.succ_le_succ (Nat.zero_le _), List.idxOf_lt_length_iff.mpr hmem⟩
  · rintro ⟨hone, hle⟩
    have hlt : p - 1 < keys.length := by omega
    refine ⟨keys.get ⟨p - 1, hlt⟩, rowNumber_eq_some.mpr ⟨List.get_mem keys _, ?_⟩⟩
    rw [List.get_eq_getElem, h.idxOf_getElem]
    exact (Nat.sub_add_cancel hone).symm

theorem rowNumber_inj {keys : List κ} {k k' : κ} {p : ℕ} (h : rowNumber keys k = some p)
    (h' : rowNumber keys k' = some p) : k = k' := by
  obtain ⟨hmem, hp⟩ := rowNumber_eq_some.mp h
  obtain ⟨-, hp'⟩ := rowNumber_eq_some.mp h'
  exact (List.idxOf_inj hmem).mp (Nat.succ.inj (hp.symm.trans hp'))

/-- In a list without a key twice, positions tell the order of its pairs. -/
theorem rel_of_idxOf_lt {R : κ × ρ → κ × ρ → Prop} {rows : List (κ × ρ)} (h : rows.Pairwise R)
    (hnodup : (rows.map Prod.fst).Nodup) {a b : κ × ρ} (ha : a ∈ rows) (hb : b ∈ rows)
    (hlt : (rows.map Prod.fst).idxOf a.1 < (rows.map Prod.fst).idxOf b.1) : R a b := by
  induction rows with
  | nil => cases ha
  | cons x rows ih =>
      rw [List.map_cons] at hlt hnodup
      obtain ⟨hx, hnodup⟩ := List.nodup_cons.mp hnodup
      obtain ⟨hrel, h⟩ := List.pairwise_cons.mp h
      rcases List.mem_cons.mp hb with rfl | hb'
      · rw [List.idxOf_cons_self] at hlt
        exact absurd hlt (Nat.not_lt_zero _)
      · rcases List.mem_cons.mp ha with rfl | ha
        · exact hrel b hb'
        · have hne : ∀ y ∈ rows, x.1 ≠ y.1 := fun y hy heq => hx (heq ▸ List.mem_map_of_mem hy)
          rw [List.idxOf_cons_ne _ (hne a ha), List.idxOf_cons_ne _ (hne b hb')] at hlt
          exact ih h hnodup ha hb' (Nat.lt_of_succ_lt_succ hlt)

/-- Smaller numbers have smaller sort keys. -/
theorem key_le_of_rowNumber_lt {rows : List (κ × ρ)} {key : κ × ρ → ω}
    (hnodup : (rows.map Prod.fst).Nodup) {a b : κ × ρ} (ha : a ∈ rows) (hb : b ∈ rows)
    {p p' : ℕ} (hp : rowNumber (ranking rows key) a.1 = some p)
    (hp' : rowNumber (ranking rows key) b.1 = some p') (hlt : p < p') : key a ≤ key b := by
  obtain ⟨-, rfl⟩ := rowNumber_eq_some.mp hp
  obtain ⟨-, rfl⟩ := rowNumber_eq_some.mp hp'
  exact rel_of_idxOf_lt (pairwise_mergeSort_key rows key) (nodup_ranking key hnodup)
    (List.mem_mergeSort.mpr ha) (List.mem_mergeSort.mpr hb) (Nat.lt_of_succ_lt_succ hlt)

end Rss
