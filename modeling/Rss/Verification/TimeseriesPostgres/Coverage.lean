import Rss.Library.Sorting
import Rss.Model.TimeseriesPostgres.Aggregate
import Rss.Verification.Timeseries.Chained

/-! # Stored summaries of the relational provider

The provider takes the longest clean summary at each time, so it finds a result when these lead to
the end of the window and their sums can be added. -/

namespace Rss.TimeseriesPostgres

open Rss.Timeseries

variable {s : Store} {spec : SummarySpec} {window : Interval} {limits : Limits}
  {rows : List (ℕ × SummaryRow)} {held : ℕ → ℕ → Summary}

/-- The end of a row. -/
def rowStop (row : ℕ × SummaryRow) : ℕ := row.2.hi

/-- The stored summary of a row. -/
def rowValue (row : ℕ × SummaryRow) : Except Error Summary := .ok row.2.data

theorem references_sorted : (s.references spec window).Pairwise (fun a b =>
    a.1 < b.1 ∨ (a.1 = b.1 ∧ rowStop b ≤ rowStop a)) := by
  unfold Store.references
  rw [List.pairwise_map]
  refine (List.pairwise_mergeSort (fun a b c hab hbc => ?_) (fun a b => ?_) _).imp
    fun {a b} hab => then_isLE.mp hab
  · rw [then_isLE] at hab hbc ⊢
    omega
  · rw [Bool.or_eq_true, then_isLE, then_isLE]
    omega

theorem references_within : ∀ row ∈ s.references spec window,
    window.start ≤ row.1 ∧ rowStop row ≤ window.stop := by
  intro row hrow
  obtain ⟨found, hfound, rfl⟩ := List.mem_map.mp hrow
  obtain ⟨-, hin⟩ := List.mem_filter.mp (List.mem_mergeSort.mp hfound)
  simp only [Bool.and_eq_true, decide_eq_true_eq] at hin
  exact ⟨hin.1.1.2, hin.1.2⟩

/-- The rows that the walk takes are merged; it has a result if they end where the window does. -/
theorem walk_eq {stop maxPoints : ℕ} {at_ : ℕ} {acc : Option Summary} (hat : at_ < stop)
    (hproper : ∀ row ∈ rows, row.1 < rowStop row) (hwithin : ∀ row ∈ rows, rowStop row ≤ stop)
    (hwindow : ∀ row ∈ rows, row.2.data.window.start = row.1 ∧ row.2.data.window.stop = rowStop row) :
    walk stop maxPoints at_ acc rows =
      (mergeAlong rowValue maxPoints acc (greedy Prod.fst rowStop rows at_).1).map (fun merged =>
        if (greedy Prod.fst rowStop rows at_).2 = stop then merged else none) := by
  induction rows generalizing at_ acc with
  | nil =>
      show _ = Except.ok (if at_ = stop then acc else none)
      rw [walk, if_neg hat.ne]
  | cons row rows ih =>
      obtain ⟨lo, stored⟩ := row
      have hrows := fun row hrow => hproper row (List.mem_cons_of_mem (lo, stored) hrow)
      have hends := fun row hrow => hwithin row (List.mem_cons_of_mem (lo, stored) hrow)
      have hvalues := fun row hrow => hwindow row (List.mem_cons_of_mem (lo, stored) hrow)
      obtain ⟨hstart, hstop⟩ := hwindow (lo, stored) List.mem_cons_self
      have hlt : lo < stored.hi := hproper (lo, stored) List.mem_cons_self
      have hle : stored.hi ≤ stop := hwithin (lo, stored) List.mem_cons_self
      rw [walk, greedy]
      by_cases heq : lo = at_
      · have hsame : stored.data.window = ⟨lo, stored.hi, hlt.le⟩ := by
          cases hw : stored.data.window with
          | mk start stop le =>
              rw [hw] at hstart hstop
              simp only at hstart hstop
              subst hstart hstop
              rfl
        rw [if_neg (not_not.mpr heq), if_pos heq, mergeAlong_cons, Interval.new_of_le hlt.le, ok_bind]
        simp only
        rw [if_neg (not_not.mpr hsame), rowValue, ok_bind]
        cases hmerged : Summary.mergeAfter acc stored.data maxPoints with
        | error e => rfl
        | ok merged =>
            rw [ok_bind, ok_bind]
            by_cases hend : stored.hi = stop
            · have hdead : DeadEnd Prod.fst rows stop := fun row hrow => by
                have hproper' := hrows row hrow
                have hwithin' := hends row hrow
                omega
              have hstay : greedy Prod.fst rowStop rows stored.hi = ([], stop) := by
                rw [hend]
                exact greedy_of_deadEnd hdead
              rw [if_pos hend]
              show _ = (mergeAlong rowValue maxPoints (some merged)
                (greedy Prod.fst rowStop rows stored.hi).1).map _
              rw [show rowStop (lo, stored) = stored.hi from rfl, hstay]
              show _ = Except.ok (if stop = stop then some merged else none)
              rw [if_pos rfl]
              rfl
            · rw [if_neg hend]
              exact ih (by omega) hrows hends hvalues
      · rw [if_pos heq, if_neg heq]
        exact ih hat hrows hends hvalues

/-- The provider finds a result exactly when the longest summaries lead to the end and their sums
can be added. -/
theorem cached_longest (hwindow : window.start < window.stop)
    (hcount : (s.references spec window).length ≤ limits.maxPoints)
    (hmergeable : Mergeable Prod.fst rowStop rowValue spec limits.maxPoints
      (s.references spec window) held) :
    (∃ summary, s.cached spec window limits = .ok (some summary)) ↔
      ∃ chain, Longest Prod.fst rowStop (s.references spec window) window.start window.stop chain ∧
        ∃ total, addAlong held none (endsOf Prod.fst rowStop chain) = .ok total := by
  have hproper : ∀ row ∈ s.references spec window, row.1 < rowStop row :=
    fun row hrow => (hmergeable.holds row hrow).proper
  have hvalues : ∀ row ∈ s.references spec window, row.2.data.window.start = row.1 ∧
      row.2.data.window.stop = rowStop row := by
    intro row hrow
    have hholds := hmergeable.holds row hrow
    have hdata : row.2.data = held row.1 (rowStop row) := Except.ok.inj hholds.value
    rw [hdata]
    exact ⟨hholds.start, hholds.stop⟩
  obtain ⟨hlongest, hdead⟩ := greedy_longest hproper references_sorted window.start
  obtain ⟨htiling, hmem⟩ := hlongest.widest.tiling
  have hstopDead : DeadEnd Prod.fst (s.references spec window) window.stop := by
    intro row hrow
    have hlt := hproper row hrow
    have hwithin := (references_within row hrow).2
    omega
  unfold Store.cached
  simp only
  rw [if_neg (not_lt.mpr hcount), walk_eq hwindow hproper
    (fun row hrow => (references_within row hrow).2) hvalues]
  constructor
  · rintro ⟨summary, hfound⟩
    obtain ⟨merged, hmerged, hresult⟩ := map_eq_ok.mp hfound
    split at hresult
    · next hend =>
        rw [hend] at hlongest htiling
        rw [hresult] at hmerged
        exact ⟨_, hlongest, (hmergeable.mergeAlong htiling hmem hwindow).mp ⟨summary, hmerged⟩⟩
    · cases hresult
  · rintro ⟨chain, hchain, hsum⟩
    have hend := hlongest.unique hdead hchain hstopDead
    rw [hend] at hlongest htiling
    have hends : endsOf Prod.fst rowStop chain = endsOf Prod.fst rowStop
        (greedy Prod.fst rowStop (s.references spec window) window.start).1 :=
      hchain.widest.ends_eq hlongest.widest hproper (fun row hrow => ⟨row, hrow, rfl, rfl⟩)
        fun row hrow => ⟨row, hrow, rfl, rfl⟩
    rw [hends] at hsum
    obtain ⟨summary, hmerged⟩ := (hmergeable.mergeAlong htiling hmem hwindow).mpr hsum
    exact ⟨summary, by rw [hmerged, hend]; simp [Except.map]⟩

end Rss.TimeseriesPostgres
