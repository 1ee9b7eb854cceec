import Mathlib.Algebra.GroupWithZero.Nat
import Mathlib.Data.Finset.Card
import Mathlib.Order.Interval.Finset.Nat

/-! # Half-open spans

Lists of spans of the natural numbers, each ending before the next one starts, and what they
cover. A span is anything that has a start and a stop. -/

namespace Rss

variable {ι : Type*} (start stop : ι → ℕ)

/-- Each span stops before those after it start. -/
def Apart (l : List ι) : Prop := l.Pairwise (fun a b => stop a ≤ start b)

/-- The instants that some span covers. -/
def covered (l : List ι) : Finset ℕ := l.foldr (fun s rest => Finset.Ico (start s) (stop s) ∪ rest) ∅

@[simp] theorem covered_nil : covered start stop [] = ∅ := rfl

@[simp] theorem covered_cons (s : ι) (l : List ι) :
    covered start stop (s :: l) = Finset.Ico (start s) (stop s) ∪ covered start stop l := rfl

variable {start stop}

theorem mem_covered {l : List ι} {t : ℕ} :
    t ∈ covered start stop l ↔ ∃ s ∈ l, start s ≤ t ∧ t < stop s := by
  induction l with
  | nil => simp
  | cons s l ih => simp [ih]

/-- What the spans cover is as large as their lengths together. -/
theorem card_covered {l : List ι} (h : Apart start stop l) :
    (covered start stop l).card = (l.map (fun s => stop s - start s)).sum := by
  induction l with
  | nil => rfl
  | cons s l ih =>
      have hrest := List.pairwise_cons.mp h
      have hdisjoint : ∀ ⦃t⦄, t ∈ Finset.Ico (start s) (stop s) → t ∉ covered start stop l := by
        intro t ht hcovered
        obtain ⟨s', hs', hlow, -⟩ := mem_covered.mp hcovered
        have hapart := hrest.1 s' hs'
        have hhigh := (Finset.mem_Ico.mp ht).2
        omega
      rw [covered_cons, Finset.card_union_of_disjoint (Finset.disjoint_left.mpr hdisjoint),
        Nat.card_Ico, ih hrest.2, List.map_cons, List.sum_cons]

end Rss
