import Mathlib.Data.List.Basic
import Mathlib.Order.Lattice

/-! # Chains of intervals

Intervals chained end to end, the times that reach another one over a list of intervals, and the
chain that always takes the longest interval. -/

namespace Rss

section Chains

variable {τ α : Type*} {lo hi : α → τ}

/-- The intervals lead from the first time to the second, each from where the one before ends. -/
inductive Tiling (lo hi : α → τ) : τ → τ → List α → Prop where
  | nil (t : τ) : Tiling lo hi t t []
  | cons {x : α} {xs : List α} {b : τ} (rest : Tiling lo hi (hi x) b xs) :
      Tiling lo hi (lo x) b (x :: xs)

/-- Some of the intervals lead from the first time to the second. -/
def Reaches (lo hi : α → τ) (xs : List α) (a b : τ) : Prop :=
  ∃ chain, Tiling lo hi a b chain ∧ ∀ x ∈ chain, x ∈ xs

/-- No interval starts at the time. -/
def DeadEnd (lo : α → τ) (xs : List α) (t : τ) : Prop := ∀ x ∈ xs, lo x ≠ t

theorem Tiling.append {a b c : τ} {xs ys : List α} (h : Tiling lo hi a b xs)
    (h' : Tiling lo hi b c ys) : Tiling lo hi a c (xs ++ ys) := by
  induction h with
  | nil t => exact h'
  | cons rest ih => exact .cons (ih h')

theorem Reaches.refl (xs : List α) (t : τ) : Reaches lo hi xs t t :=
  ⟨[], .nil t, fun _ hx => absurd hx List.not_mem_nil⟩

theorem Reaches.mono {xs ys : List α} {a b : τ} (h : Reaches lo hi xs a b)
    (hsub : ∀ x ∈ xs, x ∈ ys) : Reaches lo hi ys a b := by
  obtain ⟨chain, htiling, hmem⟩ := h
  exact ⟨chain, htiling, fun x hx => hsub x (hmem x hx)⟩

theorem Reaches.step {xs : List α} {x : α} {b : τ} (hx : x ∈ xs) (h : Reaches lo hi xs (hi x) b) :
    Reaches lo hi xs (lo x) b := by
  obtain ⟨chain, htiling, hmem⟩ := h
  refine ⟨x :: chain, .cons htiling, fun y hy => ?_⟩
  rcases List.mem_cons.mp hy with rfl | hy
  · exact hx
  · exact hmem y hy

theorem reaches_nil {a b : τ} : Reaches lo hi ([] : List α) a b ↔ a = b := by
  constructor
  · rintro ⟨chain, htiling, hmem⟩
    cases htiling with
    | nil t => rfl
    | @cons x xs b rest => exact absurd (hmem x List.mem_cons_self) List.not_mem_nil
  · rintro rfl
    exact .refl [] a

/-- Which times are reached is a matter of the ends of the intervals. -/
theorem Reaches.of_ends {β : Type*} {lo' hi' : β → τ} {xs : List α} {ys : List β} {a b : τ}
    (h : Reaches lo hi xs a b)
    (hends : ∀ x ∈ xs, ∃ y ∈ ys, lo' y = lo x ∧ hi' y = hi x) : Reaches lo' hi' ys a b := by
  obtain ⟨chain, htiling, hmem⟩ := h
  induction htiling with
  | nil t => exact .refl ys t
  | @cons x rest b _ ih =>
      obtain ⟨y, hy, hlo, hhi⟩ := hends x (hmem x List.mem_cons_self)
      have hrest := ih fun z hz => hmem z (List.mem_cons_of_mem x hz)
      rw [← hhi] at hrest
      rw [← hlo]
      exact hrest.step hy

end Chains

section Proper

variable {τ α : Type*} [LinearOrder τ] {lo hi : α → τ}

/-- Proper intervals of a chain start at its beginning or later. -/
theorem Tiling.le_lo {a b : τ} {xs : List α} (h : Tiling lo hi a b xs)
    (hproper : ∀ x ∈ xs, lo x < hi x) : ∀ x ∈ xs, a ≤ lo x := by
  induction h with
  | nil t => exact fun x hx => absurd hx List.not_mem_nil
  | @cons x xs b rest ih =>
      intro y hy
      rcases List.mem_cons.mp hy with rfl | hy
      · exact le_rfl
      · have hlater := ih (fun z hz => hproper z (List.mem_cons_of_mem x hz)) y hy
        exact (hproper x List.mem_cons_self).le.trans hlater

/-- Proper intervals of a chain start one after another. -/
theorem Tiling.pairwise {a b : τ} {xs : List α} (h : Tiling lo hi a b xs)
    (hproper : ∀ x ∈ xs, lo x < hi x) : xs.Pairwise (fun x y => lo x < lo y) := by
  induction h with
  | nil t => exact .nil
  | @cons x xs b rest ih =>
      have hrest : ∀ y ∈ xs, lo y < hi y := fun y hy => hproper y (List.mem_cons_of_mem x hy)
      refine List.pairwise_cons.mpr ⟨fun y hy => ?_, ih hrest⟩
      exact (hproper x List.mem_cons_self).trans_le (rest.le_lo hrest y hy)

theorem Tiling.le {a b : τ} {xs : List α} (h : Tiling lo hi a b xs)
    (hproper : ∀ x ∈ xs, lo x < hi x) : a ≤ b := by
  induction h with
  | nil t => exact le_rfl
  | @cons x xs b rest ih =>
      exact (hproper x List.mem_cons_self).le.trans
        (ih fun y hy => hproper y (List.mem_cons_of_mem x hy))

/-- An interval that starts no later than the others begins every chain it is in. -/
theorem reaches_cons {x : α} {xs : List α} {a b : τ} (hx : lo x < hi x)
    (hproper : ∀ y ∈ xs, lo y < hi y) (hfirst : ∀ y ∈ xs, lo x ≤ lo y) :
    Reaches lo hi (x :: xs) a b ↔
      Reaches lo hi xs a b ∨ (a = lo x ∧ Reaches lo hi xs (hi x) b) := by
  have hall : ∀ y ∈ x :: xs, lo y < hi y := by
    intro y hy
    rcases List.mem_cons.mp hy with rfl | hy
    · exact hx
    · exact hproper y hy
  -- What follows a member of the chain starts later, so it is not the first interval.
  have hlater : ∀ (y : α) (rest : List α), y ∈ x :: xs → Tiling lo hi (hi y) b rest →
      (∀ z ∈ rest, z ∈ x :: xs) → ∀ z ∈ rest, z ∈ xs := by
    intro y rest hy htiling hmem z hz
    have hafter := htiling.le_lo (fun w hw => hall w (hmem w hw)) z hz
    have hlo : lo x ≤ lo y := by
      rcases List.mem_cons.mp hy with rfl | hy
      · exact le_rfl
      · exact hfirst y hy
    rcases List.mem_cons.mp (hmem z hz) with rfl | hin
    · exact absurd (hlo.trans_lt (hall y hy)) (not_lt.mpr hafter)
    · exact hin
  constructor
  · rintro ⟨chain, htiling, hmem⟩
    cases htiling with
    | nil t => exact .inl (.refl xs _)
    | @cons y rest b htail =>
        have hy := hmem y List.mem_cons_self
        have hrest := hlater y rest hy htail fun z hz => hmem z (List.mem_cons_of_mem y hz)
        rcases List.mem_cons.mp hy with rfl | hy
        · exact .inr ⟨rfl, rest, htail, hrest⟩
        · exact .inl (Reaches.step hy ⟨rest, htail, hrest⟩)
  · rintro (h | ⟨rfl, h⟩)
    · exact h.mono fun y hy => List.mem_cons_of_mem x hy
    · exact Reaches.step List.mem_cons_self (h.mono fun y hy => List.mem_cons_of_mem x hy)

/-! ### The longest intervals -/

/-- From the first time to the second over the longest interval at each time. -/
inductive Longest (lo hi : α → τ) (xs : List α) : τ → τ → List α → Prop where
  | refl (t : τ) : Longest lo hi xs t t []
  | step {x : α} {b : τ} {chain : List α} (mem : x ∈ xs)
      (longest : ∀ y ∈ xs, lo y = lo x → hi y ≤ hi x) (rest : Longest lo hi xs (hi x) b chain) :
      Longest lo hi xs (lo x) b (x :: chain)

/-- From the first time to the second over the longest interval at each time that the second is
reached from. -/
inductive Widest (lo hi : α → τ) (xs : List α) : τ → τ → List α → Prop where
  | refl (t : τ) : Widest lo hi xs t t []
  | step {x : α} {b : τ} {chain : List α} (mem : x ∈ xs)
      (longest : ∀ y ∈ xs, lo y = lo x → Reaches lo hi xs (hi y) b → hi y ≤ hi x)
      (rest : Widest lo hi xs (hi x) b chain) : Widest lo hi xs (lo x) b (x :: chain)

theorem Longest.widest {xs chain : List α} {a b : τ} (h : Longest lo hi xs a b chain) :
    Widest lo hi xs a b chain := by
  induction h with
  | refl t => exact .refl t
  | step mem longest rest ih => exact .step mem (fun y hy hsame _ => longest y hy hsame) ih

theorem Widest.tiling {xs chain : List α} {a b : τ} (h : Widest lo hi xs a b chain) :
    Tiling lo hi a b chain ∧ ∀ x ∈ chain, x ∈ xs := by
  induction h with
  | refl t => exact ⟨.nil t, fun _ hx => absurd hx List.not_mem_nil⟩
  | @step x b chain mem longest rest ih =>
      refine ⟨.cons ih.1, fun y hy => ?_⟩
      rcases List.mem_cons.mp hy with rfl | hy
      · exact mem
      · exact ih.2 y hy

theorem Widest.reaches {xs chain : List α} {a b : τ} (h : Widest lo hi xs a b chain) :
    Reaches lo hi xs a b := ⟨chain, h.tiling⟩

/-- The longest intervals end at one time. -/
theorem Longest.unique {xs chain chain' : List α} {a b c : τ} (h : Longest lo hi xs a b chain)
    (hb : DeadEnd lo xs b) (h' : Longest lo hi xs a c chain') (hc : DeadEnd lo xs c) : b = c := by
  induction h generalizing chain' with
  | refl t =>
      cases h' with
      | refl t => rfl
      | @step x b chain mem longest rest => exact absurd rfl (hb x mem)
  | @step x b chain mem longest rest ih =>
      generalize hax : lo x = a at h'
      cases h' with
      | refl t => exact absurd hax (hc x mem)
      | @step y b' chain' mem' longest' rest' =>
          have hends : hi x = hi y :=
            le_antisymm (longest' x mem hax) (longest y mem' hax.symm)
          rw [← hends] at rest'
          exact ih hb rest'

/-- Over lists with the same intervals the same ones are taken. -/
theorem Widest.ends_eq {β : Type*} {lo' hi' : β → τ} {xs chain : List α} {ys chain' : List β}
    {a b : τ} (h : Widest lo hi xs a b chain) (h' : Widest lo' hi' ys a b chain')
    (hproper : ∀ x ∈ xs, lo x < hi x)
    (hto : ∀ x ∈ xs, ∃ y ∈ ys, lo' y = lo x ∧ hi' y = hi x)
    (hfrom : ∀ y ∈ ys, ∃ x ∈ xs, lo x = lo' y ∧ hi x = hi' y) :
    chain.map (fun x => (lo x, hi x)) = chain'.map (fun y => (lo' y, hi' y)) := by
  have hproper' : ∀ y ∈ ys, lo' y < hi' y := by
    intro y hy
    obtain ⟨x, hx, hlo, hhi⟩ := hfrom y hy
    rw [← hlo, ← hhi]
    exact hproper x hx
  induction h generalizing chain' with
  | refl t =>
      cases h' with
      | refl t => rfl
      | @step y b chain' mem longest rest =>
          obtain ⟨htiling, hmem⟩ := rest.tiling
          have hback := htiling.le fun z hz => hproper' z (hmem z hz)
          exact absurd (hproper' y mem) (not_lt.mpr hback)
  | @step x b chain mem longest rest ih =>
      generalize hax : lo x = a at h'
      cases h' with
      | refl t =>
          obtain ⟨htiling, hmem⟩ := rest.tiling
          have hback := htiling.le fun z hz => hproper z (hmem z hz)
          rw [← hax] at hback
          exact absurd (hproper x mem) (not_lt.mpr hback)
      | @step y b' chain' mem' longest' rest' =>
          have hends : hi x = hi' y := by
            apply le_antisymm
            · obtain ⟨z, hz, hlo, hhi⟩ := hto x mem
              rw [← hhi]
              refine longest' z hz (hlo.trans hax) ?_
              rw [hhi]
              exact rest.reaches.of_ends hto
            · obtain ⟨z, hz, hlo, hhi⟩ := hfrom y mem'
              rw [← hhi]
              refine longest z hz (hlo.trans hax.symm) ?_
              rw [hhi]
              exact rest'.reaches.of_ends hfrom
          rw [← hends] at rest'
          rw [List.map_cons, List.map_cons, ih rest', hax, hends]

theorem Longest.of_ends {β : Type*} {lo' hi' : β → τ} {xs chain : List α} {ys : List β} {a b : τ}
    (h : Longest lo hi xs a b chain)
    (hends : ∀ x ∈ xs, ∃ y ∈ ys, lo' y = lo x ∧ hi' y = hi x)
    (hends' : ∀ y ∈ ys, ∃ x ∈ xs, lo x = lo' y ∧ hi x = hi' y) :
    ∃ chain', Longest lo' hi' ys a b chain' := by
  induction h with
  | refl t => exact ⟨[], .refl t⟩
  | @step x b chain mem longest rest ih =>
      obtain ⟨y, hy, hlo, hhi⟩ := hends x mem
      obtain ⟨chain', hrest⟩ := ih
      rw [← hhi] at hrest
      rw [← hlo]
      refine ⟨y :: chain', .step hy (fun z hz hsame => ?_) hrest⟩
      obtain ⟨w, hw, hwlo, hwhi⟩ := hends' z hz
      rw [← hwhi, hhi]
      exact longest w hw (by rw [hwlo, hsame, hlo])

/-- The intervals taken of a list in its order from a time on, and where they end. -/
def greedy (lo hi : α → τ) : List α → τ → List α × τ
  | [], a => ([], a)
  | x :: xs, a =>
      if lo x = a then (x :: (greedy lo hi xs (hi x)).1, (greedy lo hi xs (hi x)).2)
      else greedy lo hi xs a

theorem greedy_of_deadEnd {xs : List α} {a : τ} (h : DeadEnd lo xs a) :
    greedy lo hi xs a = ([], a) := by
  induction xs with
  | nil => rfl
  | cons x xs ih =>
      rw [greedy, if_neg (h x List.mem_cons_self), ih fun y hy => h y (List.mem_cons_of_mem x hy)]

/-- An interval that starts earlier does not count. -/
theorem Longest.cons {x : α} {xs chain : List α} {a b : τ} (h : Longest lo hi xs a b chain)
    (hx : lo x < a) (hproper : ∀ y ∈ xs, lo y < hi y) : Longest lo hi (x :: xs) a b chain := by
  induction h with
  | refl t => exact .refl t
  | @step y b chain mem longest rest ih =>
      refine .step (List.mem_cons_of_mem x mem) (fun z hz hsame => ?_)
        (ih (hx.trans (hproper y mem)))
      rcases List.mem_cons.mp hz with rfl | hz
      · exact absurd hsame hx.ne
      · exact longest z hz hsame

/-- Over a list that is ordered by the start, the longest first, the intervals taken are the longest
ones, up to a time at which none starts. -/
theorem greedy_longest {xs : List α} (hproper : ∀ x ∈ xs, lo x < hi x)
    (hsorted : xs.Pairwise (fun x y => lo x < lo y ∨ (lo x = lo y ∧ hi y ≤ hi x))) (a : τ) :
    Longest lo hi xs a (greedy lo hi xs a).2 (greedy lo hi xs a).1 ∧
      DeadEnd lo xs (greedy lo hi xs a).2 := by
  induction xs generalizing a with
  | nil => exact ⟨.refl a, fun _ hx => absurd hx List.not_mem_nil⟩
  | cons x xs ih =>
      obtain ⟨hfirst, hrest⟩ := List.pairwise_cons.mp hsorted
      have hx := hproper x List.mem_cons_self
      have hxs : ∀ y ∈ xs, lo y < hi y := fun y hy => hproper y (List.mem_cons_of_mem x hy)
      by_cases hat : lo x = a
      · subst hat
        rw [greedy, if_pos rfl]
        obtain ⟨hlongest, hdead⟩ := ih hxs hrest (hi x)
        obtain ⟨htiling, hmem⟩ := hlongest.widest.tiling
        have hend := htiling.le fun y hy => hxs y (hmem y hy)
        refine ⟨.step List.mem_cons_self (fun y hy hsame => ?_) (hlongest.cons hx hxs),
          fun y hy => ?_⟩
        · rcases List.mem_cons.mp hy with rfl | hy
          · exact le_rfl
          · rcases hfirst y hy with hlt | ⟨-, hle⟩
            · exact absurd hsame hlt.ne'
            · exact hle
        · rcases List.mem_cons.mp hy with rfl | hy
          · exact (hx.trans_le hend).ne
          · exact hdead y hy
      · rw [greedy, if_neg hat]
        obtain ⟨hlongest, hdead⟩ := ih hxs hrest a
        obtain ⟨htiling, hmem⟩ := hlongest.widest.tiling
        have hend := htiling.le fun y hy => hxs y (hmem y hy)
        rcases lt_or_gt_of_ne hat with hlt | hgt
        · refine ⟨hlongest.cons hlt hxs, fun y hy => ?_⟩
          rcases List.mem_cons.mp hy with rfl | hy
          · exact (hlt.trans_le hend).ne
          · exact hdead y hy
        · -- Nothing starts at the time, for all that follows starts later.
          have hnone : DeadEnd lo (x :: xs) a := by
            intro y hy
            rcases List.mem_cons.mp hy with rfl | hy
            · exact hat
            · rcases hfirst y hy with hlt | ⟨heq, -⟩
              · exact (hgt.trans hlt).ne'
              · rw [← heq]
                exact hat
          rw [greedy_of_deadEnd fun y hy => hnone y (List.mem_cons_of_mem x hy)]
          exact ⟨.refl a, hnone⟩

end Proper

end Rss
