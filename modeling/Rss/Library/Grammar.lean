import Mathlib.Computability.RegularExpressions

/-! # Regular languages of a grammar

Words over character classes, two rules of Kleene algebra and the classes of a regular
expression. -/

namespace Rss

open scoped Computability

/-! ### Kleene algebra -/

section

variable {α : Type} [KleeneAlgebra α]

/-- Repeated choices are runs of the first, parted by the second. -/
theorem kstar_add_eq (a b : α) : (a + b)∗ = a∗ * (b * a∗)∗ := by
  apply le_antisymm
  · refine kstar_le_of_mul_le_right ?_ ?_
    · calc (1 : α) = 1 * 1 := (one_mul 1).symm
        _ ≤ a∗ * (b * a∗)∗ := mul_le_mul' one_le_kstar one_le_kstar
    · rw [add_mul, add_le_iff]
      constructor
      · rw [← mul_assoc]
        exact mul_le_mul_left mul_kstar_le_kstar _
      · calc b * (a∗ * (b * a∗)∗) = (b * a∗) * (b * a∗)∗ := (mul_assoc _ _ _).symm
          _ ≤ (b * a∗)∗ := mul_kstar_le_kstar
          _ = 1 * (b * a∗)∗ := (one_mul _).symm
          _ ≤ a∗ * (b * a∗)∗ := mul_le_mul_left one_le_kstar _
  · have ha : a∗ ≤ (a + b)∗ := kstar_mono (add_le_iff.mp le_rfl).1
    have hb : b ≤ (a + b)∗ := (add_le_iff.mp le_rfl).2.trans le_kstar
    have hba : (b * a∗)∗ ≤ (a + b)∗ := by
      rw [← kstar_idem (a + b)]
      refine kstar_mono ((mul_le_mul' hb ha).trans ?_)
      rw [kstar_mul_kstar]
    calc a∗ * (b * a∗)∗ ≤ (a + b)∗ * (a + b)∗ := mul_le_mul' ha hba
      _ = (a + b)∗ := kstar_mul_kstar _

/-- A separator behind each word is a separator before each word but the first. -/
theorem kstar_mul_slide (a b : α) : (a * b)∗ * a = a * (b * a)∗ := by
  apply le_antisymm
  · refine kstar_mul_le ?_ ?_
    · calc a = a * 1 := (mul_one a).symm
        _ ≤ a * (b * a)∗ := mul_le_mul_right one_le_kstar _
    · calc a * b * (a * (b * a)∗) = a * (b * a * (b * a)∗) := by simp only [mul_assoc]
        _ ≤ a * (b * a)∗ := mul_le_mul_right mul_kstar_le_kstar _
  · refine mul_kstar_le ?_ ?_
    · calc a = 1 * a := (one_mul a).symm
        _ ≤ (a * b)∗ * a := mul_le_mul_left one_le_kstar _
    · calc (a * b)∗ * a * (b * a) = (a * b)∗ * (a * b) * a := by simp only [mul_assoc]
        _ ≤ (a * b)∗ * a := mul_le_mul_left kstar_mul_le_kstar _

end

/-! ### Classes -/

section

variable {α : Type}

/-- The words of one letter of a class. -/
def oneOf (p : α → Bool) : Language α := {w | ∃ a, p a = true ∧ w = [a]}

theorem nil_notMem_oneOf_mul {p : α → Bool} {l : Language α} : [] ∉ oneOf p * l := by
  intro h
  obtain ⟨_, ⟨a, -, rfl⟩, w, -, heq⟩ := Language.mem_mul.mp h
  cases heq

theorem cons_mem_oneOf_mul {p : α → Bool} {l : Language α} {a : α} {w : List α} :
    a :: w ∈ oneOf p * l ↔ p a = true ∧ w ∈ l := by
  constructor
  · intro h
    obtain ⟨_, ⟨b, hb, rfl⟩, v, hv, heq⟩ := Language.mem_mul.mp h
    cases heq
    exact ⟨hb, hv⟩
  · intro h
    have hfirst : [a] ∈ oneOf p := ⟨a, h.1, rfl⟩
    exact Language.append_mem_mul hfirst h.2

/-- A class of a regular expression. -/
def choiceOf (letters : List α) : RegularExpression α :=
  letters.foldr (fun a r => .char a + r) 0

theorem matches'_choiceOf [DecidableEq α] (letters : List α) :
    (choiceOf letters).matches' = oneOf fun a => letters.contains a := by
  induction letters with
  | nil =>
      refine Language.ext fun w => ⟨fun h => absurd h (Language.notMem_zero w), fun h => ?_⟩
      obtain ⟨a, ha, -⟩ := h
      simp at ha
  | cons b letters ih =>
      refine Language.ext fun w => ?_
      have hsum : (choiceOf (b :: letters)).matches' = {[b]} + (choiceOf letters).matches' := by
        rw [← RegularExpression.matches'_char, ← RegularExpression.matches'_add]
        rfl
      rw [hsum, ih, Language.mem_add]
      constructor
      · intro h
        rcases h with rfl | ⟨a, ha, rfl⟩
        · exact ⟨b, by simp, rfl⟩
        · exact ⟨a, by simp_all, rfl⟩
      · intro h
        obtain ⟨a, ha, rfl⟩ := h
        by_cases hab : a = b
        · exact .inl (hab ▸ rfl)
        · exact .inr ⟨a, by simpa [hab] using ha, rfl⟩

end

end Rss
