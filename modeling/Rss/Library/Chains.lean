import Mathlib.Algebra.BigOperators.Group.List.Basic
import Mathlib.Algebra.Order.Ring.Int
import Mathlib.Data.List.SplitBy
import Mathlib.Tactic.Abel

/-! # Neighbours in a list

Pairs of consecutive members, and sums of differences over those that are related. -/

namespace Rss

variable {α β : Type*}

/-- The pairs of consecutive members. -/
def neighbours : List α → List (α × α)
  | a :: b :: rest => (a, b) :: neighbours (b :: rest)
  | _ => []

@[simp] theorem neighbours_nil : neighbours ([] : List α) = [] := rfl

@[simp] theorem neighbours_singleton (a : α) : neighbours [a] = [] := rfl

theorem neighbours_cons (a b : α) (rest : List α) :
    neighbours (a :: b :: rest) = (a, b) :: neighbours (b :: rest) := rfl

theorem length_neighbours (xs : List α) : (neighbours xs).length = xs.length - 1 := by
  induction xs with
  | nil => rfl
  | cons a xs ih =>
      cases xs with
      | nil => rfl
      | cons b rest =>
          rw [neighbours_cons, List.length_cons, ih]
          simp

/-- A list before another one: its own pairs, the pair where they meet, and those after. -/
theorem neighbours_append (xs : List α) (a b : α) (ys : List α) :
    neighbours (xs ++ a :: b :: ys) = neighbours (xs ++ [a]) ++ (a, b) :: neighbours (b :: ys) := by
  induction xs with
  | nil => rfl
  | cons x xs ih =>
      cases xs with
      | nil => rfl
      | cons y xs => exact congrArg ((x, y) :: ·) ih

theorem mem_of_neighbours {xs : List α} {p : α × α} (h : p ∈ neighbours xs) :
    p.1 ∈ xs ∧ p.2 ∈ xs := by
  induction xs with
  | nil => cases h
  | cons a xs ih =>
      cases xs with
      | nil => cases h
      | cons b rest =>
          rw [neighbours_cons, List.mem_cons] at h
          rcases h with rfl | h
          · simp
          · exact ⟨List.mem_cons_of_mem a (ih h).1, List.mem_cons_of_mem a (ih h).2⟩

/-- Neighbours in an ordered list are in order. -/
theorem rel_of_neighbours {r : α → α → Prop} {xs : List α} (hxs : xs.Pairwise r) {p : α × α}
    (h : p ∈ neighbours xs) : r p.1 p.2 := by
  induction xs with
  | nil => cases h
  | cons a xs ih =>
      cases xs with
      | nil => cases h
      | cons b rest =>
          rw [neighbours_cons, List.mem_cons] at h
          rcases h with rfl | h
          · exact (List.pairwise_cons.mp hxs).1 b List.mem_cons_self
          · exact ih (List.pairwise_cons.mp hxs).2 h

/-- Of two pairs, the second starts where the first ends, or later. -/
theorem neighbours_pairwise {r : α → α → Prop} {xs : List α} (hxs : xs.Pairwise r) :
    (neighbours xs).Pairwise (fun p q => p.2 = q.1 ∨ r p.2 q.1) := by
  induction xs with
  | nil => exact List.Pairwise.nil
  | cons a xs ih =>
      cases xs with
      | nil => exact List.Pairwise.nil
      | cons b rest =>
          have hordered := List.pairwise_cons.mp hxs
          refine List.pairwise_cons.mpr ⟨fun q hq => ?_, ih hordered.2⟩
          rcases List.mem_cons.mp (mem_of_neighbours hq).1 with hsame | hq
          · exact .inl hsame.symm
          · exact .inr ((List.pairwise_cons.mp hordered.2).1 q.1 hq)

/-! ### Telescoping -/

/-- The difference of a function between the ends of a list. -/
def rise [AddCommGroup β] (f : α → β) : List α → β
  | [] => 0
  | a :: rest => f ((a :: rest).getLast (List.cons_ne_nil a rest)) - f a

/-- The sum of a function's differences over the related neighbours. -/
def relatedSum [AddCommGroup β] (r : α → α → Bool) (f : α → β) (xs : List α) : β :=
  (((neighbours xs).filter (fun p => r p.1 p.2)).map (fun p => f p.2 - f p.1)).sum

theorem relatedSum_chain [AddCommGroup β] {r : α → α → Bool} (f : α → β) {xs : List α}
    (h : xs.IsChain (fun a b => r a b)) : relatedSum r f xs = rise f xs := by
  induction xs with
  | nil => rfl
  | cons a xs ih =>
      cases xs with
      | nil => simp [relatedSum, rise]
      | cons b rest =>
          have hchain := List.isChain_cons_cons.mp h
          have hrest := ih hchain.2
          simp only [relatedSum, rise] at hrest
          simp only [relatedSum, neighbours_cons, List.filter_cons, hchain.1, if_true,
            List.map_cons, List.sum_cons, hrest, rise, List.getLast_cons_cons]
          abel

/-- A pair that is not related adds nothing where two lists meet. -/
theorem relatedSum_append [AddCommGroup β] {r : α → α → Bool} (f : α → β) {xs ys : List α}
    (hx : xs ≠ []) (hy : ys ≠ []) (h : r (xs.getLast hx) (ys.head hy) = false) :
    relatedSum r f (xs ++ ys) = relatedSum r f xs + relatedSum r f ys := by
  obtain ⟨init, a, rfl⟩ : ∃ init a, xs = init ++ [a] :=
    ⟨xs.dropLast, xs.getLast hx, (List.dropLast_concat_getLast hx).symm⟩
  obtain ⟨b, rest, rfl⟩ := List.exists_cons_of_ne_nil hy
  rw [List.getLast_append_singleton, List.head_cons] at h
  rw [List.append_assoc, List.singleton_append, relatedSum, neighbours_append, List.filter_append,
    List.filter_cons_of_neg (by simp [h]), List.map_append, List.sum_append]
  rfl

/-- Lists whose members are related throughout, with a break between one and the next. -/
theorem relatedSum_flatten [AddCommGroup β] {r : α → α → Bool} (f : α → β) {gs : List (List α)}
    (hne : ∀ g ∈ gs, g ≠ []) (hchain : ∀ g ∈ gs, g.IsChain (fun a b => r a b))
    (hbreak : gs.IsChain (fun a b => ∃ ha hb, r (a.getLast ha) (b.head hb) = false)) :
    relatedSum r f gs.flatten = (gs.map (rise f)).sum := by
  induction gs with
  | nil => rfl
  | cons g gs ih =>
      have hg := hne g List.mem_cons_self
      have hrest := ih (fun x hx => hne x (List.mem_cons_of_mem g hx))
        (fun x hx => hchain x (List.mem_cons_of_mem g hx)) hbreak.tail
      have hfirst := relatedSum_chain f (hchain g List.mem_cons_self)
      rw [List.flatten_cons, List.map_cons, List.sum_cons, ← hrest, ← hfirst]
      cases gs with
      | nil => simp [relatedSum]
      | cons g' gs =>
          have hg' := hne g' (List.mem_cons_of_mem g List.mem_cons_self)
          obtain ⟨_, _, hpair⟩ := (List.isChain_cons_cons.mp hbreak).1
          have hne' : (g' :: gs).flatten ≠ [] := by simp [hg']
          refine relatedSum_append f hg hne' ?_
          rw [← hpair]
          congr 1
          simp only [List.flatten_cons]
          rw [List.head_append_of_ne_nil]

/-- The differences of related neighbours add up to what each maximal run rises. -/
theorem relatedSum_eq_runs [AddCommGroup β] (r : α → α → Bool) (f : α → β) (xs : List α) :
    relatedSum r f xs = ((xs.splitBy r).map (rise f)).sum := by
  have hruns := relatedSum_flatten (r := r) f
    (fun g hg => List.ne_nil_of_mem_splitBy hg) (fun g hg => List.isChain_of_mem_splitBy hg)
    (List.isChain_getLast_head_splitBy r xs)
  rwa [List.flatten_splitBy] at hruns

end Rss
