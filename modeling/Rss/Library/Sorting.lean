import Mathlib.Data.List.Basic
import Mathlib.Algebra.Order.Ring.Int

/-! # Sorted rows

What `ORDER BY` yields for a part of the rows. -/

namespace Rss

variable {α : Type*} {le : α → α → Bool}

/-- Where the order decides between members, the rows that qualify come in the order they have
among all. -/
theorem mergeSort_filter {l : List α} (p : α → Bool)
    (trans : ∀ a b c, le a b = true → le b c = true → le a c = true)
    (total : ∀ a b, (le a b || le b a) = true)
    (antisymm : ∀ a ∈ l, ∀ b ∈ l, le a b = true → le b a = true → a = b) :
    (l.filter p).mergeSort le = (l.mergeSort le).filter p := by
  have hsorted := (List.pairwise_mergeSort trans total l).sublist (List.filter_sublist (p := p))
  refine List.Perm.eq_of_pairwise ?_ (List.pairwise_mergeSort trans total _) hsorted ?_
  · intro a b ha hb
    exact antisymm a (List.mem_filter.mp (List.mem_mergeSort.mp ha)).1
      b (List.mem_mergeSort.mp (List.mem_filter.mp hb).1)
  · exact (List.mergeSort_perm _ _).trans ((List.mergeSort_perm l le).symm.filter p)

/-- `ORDER BY` two columns. -/
theorem then_isLE {a b c d : ℕ} :
    ((compare a b).then (compare c d)).isLE = true ↔ a < b ∨ (a = b ∧ c ≤ d) := by
  rcases Nat.lt_trichotomy a b with h | h | h
  · simp [Nat.compare_eq_lt.mpr h, h]
  · subst h
    rw [Nat.compare_eq_eq.mpr rfl, Ordering.eq_then, Nat.isLE_compare]
    simp
  · have hne : a ≠ b := by omega
    simp [Nat.compare_eq_gt.mpr h, h.asymm, hne]

/-- After a member of a strictly ordered list come those that are greater. -/
theorem filter_after {r : α → α → Prop} [DecidableRel r] {xs ys : List α} {x : α}
    (h : (xs ++ x :: ys).Pairwise r) (hirrefl : ∀ a, ¬ r a a) (hasymm : ∀ a b, r a b → ¬ r b a) :
    (xs ++ x :: ys).filter (fun y => decide (r x y)) = ys := by
  obtain ⟨-, hrest, hbefore⟩ := List.pairwise_append.mp h
  have hafter := List.pairwise_cons.mp hrest
  have hnone : xs.filter (fun y => decide (r x y)) = [] := by
    refine List.filter_eq_nil_iff.mpr fun y hy => ?_
    rw [decide_eq_true_eq]
    exact hasymm y x (hbefore y hy x List.mem_cons_self)
  rw [List.filter_append, hnone, List.nil_append, List.filter_cons, if_neg (by simpa using hirrefl x)]
  exact List.filter_eq_self.mpr fun y hy => decide_eq_true (hafter.1 y hy)

end Rss
