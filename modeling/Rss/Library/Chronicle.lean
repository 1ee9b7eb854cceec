import Mathlib.Data.List.Basic

/-! # Logs

What each entry of a log finds before it. -/

namespace Rss

variable {α : Type} {Q : List α → α → Prop} {log : List α}

/-- Every entry of the log stands in a relation to what is before it. -/
def Chronicle (Q : List α → α → Prop) (log : List α) : Prop :=
  ∀ before a after, log = before ++ a :: after → Q before a

namespace Chronicle

theorem nil : Chronicle Q [] := by
  intro before a after h
  simp at h

theorem snoc {a : α} (h : Chronicle Q log) (ha : Q log a) : Chronicle Q (log ++ [a]) := by
  intro before b after heq
  rcases List.eq_nil_or_concat after with rfl | ⟨init, last, rfl⟩
  · obtain ⟨rfl, hb⟩ := List.append_inj' heq rfl
    exact List.singleton_inj.mp hb ▸ ha
  · rw [List.concat_eq_append, ← List.cons_append, ← List.append_assoc] at heq
    exact h before b init (List.append_inj' heq rfl).1

theorem append {entries : List α} (h : Chronicle Q log)
    (hentries : ∀ before a after, entries = before ++ a :: after → Q (log ++ before) a) :
    Chronicle Q (log ++ entries) := by
  induction entries generalizing log with
  | nil =>
      rw [List.append_nil]
      exact h
  | cons a entries ih =>
      have ha : Q log a := List.append_nil log ▸ hentries [] a entries rfl
      rw [List.append_cons]
      refine ih (h.snoc ha) fun before b after heq => ?_
      rw [List.append_assoc]
      exact hentries (a :: before) b after (by rw [heq]; rfl)

end Chronicle

/-- The entries before the first that satisfies a predicate do not change when the log grows. -/
theorem takeWhile_append_of_mem {p : α → Bool} {a : α} (h : a ∈ log) (ha : p a = false)
    (entries : List α) : (log ++ entries).takeWhile p = log.takeWhile p := by
  induction log with
  | nil => cases h
  | cons b log ih =>
      rw [List.cons_append, List.takeWhile_cons, List.takeWhile_cons]
      cases hb : p b with
      | false => rfl
      | true =>
          have hmem : a ∈ log := by
            rcases List.mem_cons.mp h with rfl | hmem
            · rw [ha] at hb
              cases hb
            · exact hmem
          simp only [if_true, ih hmem]

theorem takeWhile_append_of_all {p : α → Bool} {a : α} (h : ∀ b ∈ log, p b = true)
    (ha : p a = false) (entries : List α) : (log ++ a :: entries).takeWhile p = log := by
  induction log with
  | nil => rw [List.nil_append, List.takeWhile_cons, ha, if_neg Bool.false_ne_true]
  | cons b log ih =>
      rw [List.forall_mem_cons] at h
      rw [List.cons_append, List.takeWhile_cons, h.1, if_pos rfl, ih h.2]

end Rss
