import Rss.Library.Chains
import Rss.Verification.Timeseries.Statistics

/-! # The points of an ordered metric

Of the samples of a counter or a state only the last at each time is a point, and a point is
flushed between its neighbours. -/

namespace Rss.Timeseries

/-- The last sample at each time. -/
def latest : List Sample → List Sample
  | [] => []
  | [s] => [s]
  | s :: t :: rest =>
      if s.observedAt = t.observedAt then latest (t :: rest) else s :: latest (t :: rest)

/-- The points of a list, each with the one before it and the time of the one after it. -/
def successive (previous : Option Sample) : List Sample → List Point
  | [] => []
  | s :: rest =>
      ⟨previous, s, rest.head?.map (fun t => t.observedAt)⟩ :: successive (some s) rest

theorem latest_head (s : Sample) (rest : List Sample) :
    (latest (s :: rest)).head?.map (fun t => t.observedAt) = some s.observedAt := by
  induction rest generalizing s with
  | nil => rfl
  | cons t rest ih =>
      rw [latest]
      split
      · next hsame => rw [ih t, hsame]
      · rfl

/-- The builder flushes the last sample at each time. -/
theorem trace_true (previous : Option Sample) (p : Sample) (rest : List Sample) :
    trace true previous p rest = successive previous (latest (p :: rest)) := by
  induction rest generalizing previous p with
  | nil => rfl
  | cons s rest ih =>
      rw [trace, latest]
      by_cases hsame : p.observedAt = s.observedAt
      · rw [if_pos (by simp [hsame]), if_pos hsame, ih]
      · rw [if_neg (by simp [hsame]), if_neg hsame, successive, ih, latest_head]

theorem pointsOf_true (samples : List Sample) :
    pointsOf true samples = successive none (latest samples) := by
  cases samples with
  | nil => rfl
  | cons p rest => exact trace_true none p rest

theorem latest_sublist (samples : List Sample) : (latest samples).Sublist samples := by
  induction samples with
  | nil => exact List.Sublist.refl _
  | cons t samples ih =>
      cases samples with
      | nil => exact List.Sublist.refl _
      | cons u rest =>
          rw [latest]
          split
          · exact ih.cons t
          · exact ih.cons_cons t

theorem latest_subset {samples : List Sample} {s : Sample} (h : s ∈ latest samples) :
    s ∈ samples := (latest_sublist samples).subset h

theorem Sample.Before.trans {a b c : Sample} (h : a.Before b) (h' : b.Before c) : a.Before c := by
  unfold Sample.Before at *
  rcases h with h | ⟨h, h₂ | ⟨h₂, h₃⟩⟩ <;> rcases h' with h' | ⟨h', h₂' | ⟨h₂', h₃'⟩⟩ <;>
    first
      | exact .inl (by omega)
      | exact .inr ⟨by omega, .inl (by omega)⟩
      | exact .inr ⟨by omega, .inr ⟨by omega, h₃.trans h₃'⟩⟩

theorem Sample.Before.irrefl (a : Sample) : ¬ a.Before a := by
  unfold Sample.Before
  simp

/-- Points are at different times, in order. -/
theorem latest_sorted {samples : List Sample} (h : samples.Pairwise Sample.Before) :
    (latest samples).Pairwise (fun a b => a.observedAt < b.observedAt) := by
  induction samples with
  | nil => exact List.Pairwise.nil
  | cons s samples ih =>
      have hordered := List.pairwise_cons.mp h
      cases samples with
      | nil => simp [latest]
      | cons t rest =>
          rw [latest]
          split
          · exact ih hordered.2
          · next hne =>
              refine List.pairwise_cons.mpr ⟨fun x hx => ?_, ih hordered.2⟩
              have hst := (hordered.1 t List.mem_cons_self).le
              rcases List.mem_cons.mp (latest_subset hx) with rfl | hx
              · omega
              · have htx := ((List.pairwise_cons.mp hordered.2).1 x hx).le
                omega

/-- A point is a sample that no other one follows at its time. -/
theorem mem_latest {samples : List Sample} (h : samples.Pairwise Sample.Before) {s : Sample} :
    s ∈ latest samples ↔ s ∈ samples ∧ ∀ t ∈ samples, s.Before t → s.observedAt < t.observedAt := by
  induction samples with
  | nil => simp [latest]
  | cons u samples ih =>
      have hordered := List.pairwise_cons.mp h
      cases samples with
      | nil =>
          simp only [latest, List.mem_singleton]
          refine ⟨?_, fun hs => hs.1⟩
          rintro rfl
          exact ⟨rfl, by rintro t rfl hst; exact absurd hst (Sample.Before.irrefl _)⟩
      | cons t rest =>
          rw [latest]
          have hut := hordered.1 t List.mem_cons_self
          by_cases hsame : u.observedAt = t.observedAt
          · rw [if_pos hsame, ih hordered.2]
            constructor
            · rintro ⟨hs, hlast⟩
              refine ⟨List.mem_cons_of_mem u hs, fun x hx hsx => ?_⟩
              rcases List.mem_cons.mp hx with rfl | hx
              · exact absurd (hsx.trans (hordered.1 s hs)) (Sample.Before.irrefl s)
              · exact hlast x hx hsx
            · rintro ⟨hs, hlast⟩
              rcases List.mem_cons.mp hs with rfl | hs
              · have hlt := hlast t (List.mem_cons_of_mem s List.mem_cons_self) hut
                omega
              · exact ⟨hs, fun x hx => hlast x (List.mem_cons_of_mem u hx)⟩
          · rw [if_neg hsame, List.mem_cons, ih hordered.2]
            have hlt : u.observedAt < t.observedAt := lt_of_le_of_ne hut.le hsame
            constructor
            · rintro (rfl | ⟨hs, hlast⟩)
              · refine ⟨List.mem_cons_self, fun x hx hsx => ?_⟩
                rcases List.mem_cons.mp hx with rfl | hx
                · exact absurd hsx (Sample.Before.irrefl _)
                · rcases List.mem_cons.mp hx with rfl | hx
                  · exact hlt
                  · exact hlt.trans_le ((List.pairwise_cons.mp hordered.2).1 x hx).le
              · refine ⟨List.mem_cons_of_mem u hs, fun x hx hsx => ?_⟩
                rcases List.mem_cons.mp hx with rfl | hx
                · exact absurd (hsx.trans (hordered.1 s hs)) (Sample.Before.irrefl s)
                · exact hlast x hx hsx
            · rintro ⟨hs, hlast⟩
              rcases List.mem_cons.mp hs with rfl | hs
              · exact .inl rfl
              · exact .inr ⟨hs, fun x hx => hlast x (List.mem_cons_of_mem u hx)⟩

/-- Every time at which a sample was observed has its point. -/
theorem exists_latest {samples : List Sample} {s : Sample} (hs : s ∈ samples) :
    ∃ p ∈ latest samples, p.observedAt = s.observedAt := by
  induction samples generalizing s with
  | nil => cases hs
  | cons u samples ih =>
      cases samples with
      | nil => exact ⟨s, hs, rfl⟩
      | cons t rest =>
          rw [latest]
          rcases List.mem_cons.mp hs with rfl | hs
          · split
            · next hsame =>
                rw [hsame]
                exact ih List.mem_cons_self
            · exact ⟨s, List.mem_cons_self, rfl⟩
          · obtain ⟨p, hp, hat⟩ := ih hs
            split
            · exact ⟨p, hp, hat⟩
            · exact ⟨p, List.mem_cons_of_mem u hp, hat⟩

/-! ### Points inside a window -/

theorem inside_iff {t : ℕ} {w : Interval} : inside t w = true ↔ w.start ≤ t ∧ t < w.stop := by
  simp [inside]

/-- The neighbours inside a window are those of which both are. -/
theorem neighbours_filter_inside {xs : List Sample} (w : Interval)
    (h : xs.Pairwise (fun a b => a.observedAt < b.observedAt)) :
    neighbours (xs.filter (fun s => inside s.observedAt w)) =
      (neighbours xs).filter (fun p => inside p.1.observedAt w && inside p.2.observedAt w) := by
  induction xs with
  | nil => rfl
  | cons a xs ih =>
      have hordered := List.pairwise_cons.mp h
      cases xs with
      | nil =>
          rw [List.filter_cons]
          split <;> rfl
      | cons b rest =>
          have hab := hordered.1 b List.mem_cons_self
          rw [neighbours_cons, List.filter_cons (x := (a, b))]
          rcases Bool.eq_false_or_eq_true (inside a.observedAt w) with ha | ha
          · rcases Bool.eq_false_or_eq_true (inside b.observedAt w) with hb | hb
            · simp only [List.filter_cons, ha, hb, if_true, Bool.and_self] at ih ⊢
              rw [neighbours_cons, ih hordered.2]
            · -- Nothing from the second on is inside.
              have hpast : ∀ x ∈ b :: rest, inside x.observedAt w = false := by
                intro x hx
                have hbx : b.observedAt ≤ x.observedAt := by
                  rcases List.mem_cons.mp hx with rfl | hx
                  · exact le_rfl
                  · exact ((List.pairwise_cons.mp hordered.2).1 x hx).le
                have ha' := inside_iff.mp ha
                rw [← Bool.not_eq_true, inside_iff] at hb ⊢
                omega
              have hnone : (b :: rest).filter (fun s => inside s.observedAt w) = [] :=
                List.filter_eq_nil_iff.mpr fun x hx => by simp [hpast x hx]
              have hpairs : (neighbours (b :: rest)).filter
                  (fun p => inside p.1.observedAt w && inside p.2.observedAt w) = [] :=
                List.filter_eq_nil_iff.mpr fun p hp => by
                  simp [hpast p.1 (mem_of_neighbours hp).1]
              rw [List.filter_cons, if_pos ha, hnone, hpairs]
              simp [hb]
          · rw [List.filter_cons, if_neg (by simp [ha]), ih hordered.2]
            simp [ha]

end Rss.Timeseries
