import Mathlib.Data.List.Basic

/-! # Labelled runs

Finite runs of a labelled step relation, with the list of their labels in order. -/

namespace Rss

variable {σ α : Type}

/-- The steps labelled by the list lead from the first state to the second. -/
inductive Runs (Step : σ → α → σ → Prop) (s₀ : σ) : List α → σ → Prop where
  | nil : Runs Step s₀ [] s₀
  | snoc {labels : List α} {s s' : σ} {a : α} :
      Runs Step s₀ labels s → Step s a s' → Runs Step s₀ (labels ++ [a]) s'

namespace Runs

variable {Step : σ → α → σ → Prop} {s₀ s s' : σ} {labels labels' : List α} {a : α}

theorem single (h : Step s a s') : Runs Step s [a] s' := .snoc .nil h

theorem trans (h : Runs Step s₀ labels s) (h' : Runs Step s labels' s') :
    Runs Step s₀ (labels ++ labels') s' := by
  induction h' with
  | nil => simpa using h
  | snoc _ hstep ih =>
      rw [← List.append_assoc]
      exact .snoc ih hstep

/-- A property of the labels so far and the state reached, kept by every step. -/
theorem invariant {I : List α → σ → Prop} (h : Runs Step s₀ labels s) (h₀ : I [] s₀)
    (hstep : ∀ labels s a s', Runs Step s₀ labels s → I labels s → Step s a s' →
      I (labels ++ [a]) s') : I labels s := by
  induction h with
  | nil => exact h₀
  | snoc hrun hs ih => exact hstep _ _ _ _ hrun ih hs

/-- A run is one of every weaker step relation. -/
theorem mono {Step' : σ → α → σ → Prop} (hle : ∀ s a s', Step s a s' → Step' s a s')
    (h : Runs Step s₀ labels s) : Runs Step' s₀ labels s := by
  induction h with
  | nil => exact .nil
  | snoc _ hstep ih => exact ih.snoc (hle _ _ _ hstep)

/-- What holds of the label of every step holds of all labels. -/
theorem forall_labels {P : α → Prop} (hP : ∀ s a s', Step s a s' → P a)
    (h : Runs Step s₀ labels s) : ∀ a ∈ labels, P a := by
  induction h with
  | nil => exact fun _ hb => nomatch hb
  | snoc _ hstep ih =>
      intro b hb
      rcases List.mem_append.mp hb with hb | hb
      · exact ih b hb
      · rw [List.mem_singleton] at hb
        exact hb ▸ hP _ _ _ hstep

/-- Every label of a run is taken by a step inside it. -/
theorem split {before after : List α} (h : Runs Step s₀ (before ++ a :: after) s) :
    ∃ m m', Runs Step s₀ before m ∧ Step m a m' ∧ Runs Step m' after s := by
  generalize hl : before ++ a :: after = all at h
  induction h generalizing after with
  | nil => simp at hl
  | @snoc all m m' b hrun hstep ih =>
      rcases List.eq_nil_or_concat after with rfl | ⟨mid, last, rfl⟩
      · obtain ⟨rfl, rfl⟩ : before = all ∧ a = b := by simpa using hl
        exact ⟨m, m', hrun, hstep, .nil⟩
      · rw [List.concat_eq_append, ← List.cons_append, ← List.append_assoc] at hl
        obtain ⟨hall, hb⟩ := List.append_inj' hl rfl
        obtain ⟨x, y, hx, hy, hrest⟩ := ih hall
        obtain rfl := List.singleton_inj.mp hb
        rw [List.concat_eq_append]
        exact ⟨x, y, hx, hy, .snoc hrest hstep⟩

/-- The labels lead to the state through a point at which the property held. -/
def Passed (Step : σ → α → σ → Prop) (s₀ : σ) (P : List α → σ → Prop) (labels : List α)
    (s : σ) : Prop :=
  ∃ before after m, labels = before ++ after ∧ Runs Step s₀ before m ∧ Runs Step m after s ∧
    P before m

theorem Passed.of_now {P : List α → σ → Prop} (h : Runs Step s₀ labels s) (hP : P labels s) :
    Passed Step s₀ P labels s :=
  ⟨labels, [], s, (List.append_nil labels).symm, h, .nil, hP⟩

theorem Passed.snoc {P : List α → σ → Prop} (h : Passed Step s₀ P labels s)
    (hstep : Step s a s') : Passed Step s₀ P (labels ++ [a]) s' := by
  obtain ⟨before, after, m, rfl, hbefore, hafter, hP⟩ := h
  exact ⟨before, after ++ [a], m, List.append_assoc .., hbefore, hafter.snoc hstep, hP⟩

theorem Passed.exists {P : List α → σ → Prop} (h : Passed Step s₀ P labels s) :
    ∃ before m, P before m := by
  obtain ⟨before, _, m, -, -, -, hP⟩ := h
  exact ⟨before, m, hP⟩

end Runs

end Rss
