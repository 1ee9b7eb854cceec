import Rss.Library.Spans
import Rss.Verification.Timeseries.Merge
import Rss.Verification.Timeseries.Points

/-! # States that are held

What a state summary measures of a window, compared to the instants at which a state is held. -/

namespace Rss.Timeseries

/-- The state is held at an instant: a sample reported it, its hold lasts, and no sample has
followed. -/
def Held (hold : ℕ) (samples : List Sample) (t : ℕ) (v : StateValue) : Prop :=
  ∃ s ∈ samples, s.stateValue = some v ∧ s.observedAt ≤ t ∧ t < s.observedAt + hold ∧
    ∀ s' ∈ samples, s.Before s' → t < s'.observedAt

/-! ### The segments of the points -/

/-- The segments that points add. -/
def segmentsOf (spec : SummarySpec) (w : Interval) : List Sample → List StateSegment
  | [] => []
  | s :: rest =>
      (heldSegment spec w s (rest.head?.map (fun t => t.observedAt))).toList ++
        segmentsOf spec w rest

theorem pieces_segments (spec : SummarySpec) (w : Interval) (previous : Option Sample)
    (xs : List Sample) :
    (pieces spec w (successive previous xs)).segments = segmentsOf spec w xs := by
  induction xs generalizing previous with
  | nil => rfl
  | cons s rest ih =>
      rw [successive, pieces_cons, segmentsOf, ← ih (some s)]
      rfl

/-- A segment covers the instants of the window from its point to the end of its hold. -/
theorem mem_heldSegment {spec : SummarySpec} {w : Interval} {s : Sample} {next : Option ℕ}
    {hold t : ℕ} {v : StateValue} (hcoverage : spec.coverage = .holdLast hold)
    (hstop : w.stop ≤ timestampMax) :
    (∃ g ∈ heldSegment spec w s next, g.value = v ∧ g.window.start ≤ t ∧ t < g.window.stop) ↔
      (w.start ≤ t ∧ t < w.stop) ∧ s.stateValue = some v ∧ s.observedAt ≤ t ∧
        t < s.observedAt + hold ∧ ∀ n ∈ next, t < n := by
  have hend : t < holdEnd spec w s.observedAt next ↔
      t < s.observedAt + hold ∧ (∀ n ∈ next, t < n) ∧ t < w.stop := by
    simp only [holdEnd, hcoverage]
    cases next with
    | none =>
        simp only [Option.getD_none]
        constructor
        · intro ht
          exact ⟨by omega, by simp, by omega⟩
        · rintro ⟨ht, -, hw⟩
          omega
    | some n =>
        simp only [Option.getD_some, Option.mem_def, Option.some.injEq, forall_eq']
        omega
  unfold heldSegment
  cases hv : s.stateValue with
  | none => simp
  | some u =>
      constructor
      · rintro ⟨g, hg, rfl, hlow, hhigh⟩
        simp only [Option.bind_some, Option.mem_def] at hg
        split at hg
        · next h =>
            cases hg
            dsimp only at hlow hhigh
            obtain ⟨hhold, hnext, hin⟩ := hend.mp hhigh
            exact ⟨⟨by omega, hin⟩, rfl, by omega, hhold, hnext⟩
        · cases hg
      · rintro ⟨⟨hlow, hin⟩, hu, hfrom, hhold, hnext⟩
        cases hu
        have hhigh := hend.mpr ⟨hhold, hnext, hin⟩
        refine ⟨⟨v, ⟨max s.observedAt w.start, holdEnd spec w s.observedAt next, by omega⟩⟩, ?_,
          rfl, max_le hfrom hlow, hhigh⟩
        rw [Option.mem_def, Option.bind_some, dif_pos ⟨by omega, by omega⟩]

theorem heldSegment_bounds {spec : SummarySpec} {w : Interval} {s : Sample} {next : Option ℕ}
    {hold : ℕ} {g : StateSegment} (hcoverage : spec.coverage = .holdLast hold)
    (hg : g ∈ heldSegment spec w s next) :
    g.window.start = max s.observedAt w.start ∧ g.window.stop ≤ w.stop ∧
      (∀ n ∈ next, g.window.stop ≤ n) ∧ s.observedAt < w.stop ∧ s.stateValue = some g.value ∧
      g.window.stop ≤ s.observedAt + hold := by
  unfold heldSegment at hg
  cases hv : s.stateValue with
  | none => simp [hv] at hg
  | some u =>
      simp only [hv, Option.bind_some, Option.mem_def] at hg
      split at hg
      · next h =>
          cases hg
          simp only [holdEnd, hcoverage]
          refine ⟨trivial, min_le_right _ _, ?_, h.1, trivial, by omega⟩
          rintro n ⟨⟩
          simp only [Option.getD_some]
          omega
      · cases hg

/-- The segments lie inside the window and do not start before their points. -/
theorem segmentsOf_bounds {spec : SummarySpec} {w : Interval} {xs : List Sample} {hold : ℕ}
    {g : StateSegment} (hcoverage : spec.coverage = .holdLast hold)
    (hg : g ∈ segmentsOf spec w xs) :
    w.start ≤ g.window.start ∧ g.window.stop ≤ w.stop ∧
      ∃ s ∈ xs, s.observedAt ≤ g.window.start := by
  induction xs with
  | nil => cases hg
  | cons s rest ih =>
      rw [segmentsOf, List.mem_append, Option.mem_toList] at hg
      rcases hg with hg | hg
      · obtain ⟨hstart, hstop, -⟩ := heldSegment_bounds hcoverage hg
        exact ⟨by omega, hstop, s, List.mem_cons_self, by omega⟩
      · obtain ⟨hstart, hstop, x, hx, hle⟩ := ih hg
        exact ⟨hstart, hstop, x, List.mem_cons_of_mem s hx, hle⟩

theorem segmentsOf_apart {spec : SummarySpec} {w : Interval} {xs : List Sample} {hold : ℕ}
    (hcoverage : spec.coverage = .holdLast hold)
    (hsorted : xs.Pairwise (fun a b => a.observedAt < b.observedAt)) :
    Apart (fun g => g.window.start) (fun g => g.window.stop) (segmentsOf spec w xs) := by
  induction xs with
  | nil => exact List.Pairwise.nil
  | cons s rest ih =>
      have hordered := List.pairwise_cons.mp hsorted
      rw [segmentsOf, Apart, List.pairwise_append]
      refine ⟨?_, ih hordered.2, ?_⟩
      · cases heldSegment spec w s (rest.head?.map (fun t => t.observedAt)) <;> simp
      · intro a ha b hb
        rw [Option.mem_toList] at ha
        obtain ⟨-, -, hnext, -⟩ := heldSegment_bounds hcoverage ha
        obtain ⟨-, -, x, hx, hle⟩ := segmentsOf_bounds hcoverage hb
        cases rest with
        | nil => cases hx
        | cons y ys =>
            have hstop := hnext y.observedAt rfl
            have hyx : y.observedAt ≤ x.observedAt := by
              rcases List.mem_cons.mp hx with rfl | hx
              · exact le_rfl
              · exact ((List.pairwise_cons.mp hordered.2).1 x hx).le
            exact hstop.trans (hyx.trans hle)

/-- The instants of the window at which the segments show a state are those at which a point
holds it. -/
theorem mem_segmentsOf {spec : SummarySpec} {w : Interval} {xs : List Sample} {hold t : ℕ}
    {v : StateValue} (hcoverage : spec.coverage = .holdLast hold) (hstop : w.stop ≤ timestampMax)
    (hsorted : xs.Pairwise (fun a b => a.observedAt < b.observedAt)) :
    (∃ g ∈ segmentsOf spec w xs, g.value = v ∧ g.window.start ≤ t ∧ t < g.window.stop) ↔
      (w.start ≤ t ∧ t < w.stop) ∧ ∃ s ∈ xs, s.stateValue = some v ∧ s.observedAt ≤ t ∧
        t < s.observedAt + hold ∧ ∀ s' ∈ xs, s.observedAt < s'.observedAt → t < s'.observedAt := by
  induction xs with
  | nil => simp [segmentsOf]
  | cons s rest ih =>
      have hordered := List.pairwise_cons.mp hsorted
      have hsplit : (∃ g ∈ segmentsOf spec w (s :: rest), g.value = v ∧ g.window.start ≤ t ∧
            t < g.window.stop) ↔
          (∃ g ∈ heldSegment spec w s (rest.head?.map (fun t => t.observedAt)), g.value = v ∧
            g.window.start ≤ t ∧ t < g.window.stop) ∨
          ∃ g ∈ segmentsOf spec w rest, g.value = v ∧ g.window.start ≤ t ∧ t < g.window.stop := by
        simp only [segmentsOf, List.mem_append, Option.mem_toList, or_and_right, exists_or,
          Option.mem_def]
      have hnext : (∀ n ∈ rest.head?.map (fun t => t.observedAt), t < n) ↔
          ∀ s' ∈ rest, t < s'.observedAt := by
        cases rest with
        | nil => simp
        | cons y ys =>
            simp only [List.head?_cons, Option.map_some, Option.mem_def, Option.some.injEq,
              forall_eq', List.mem_cons, forall_eq_or_imp]
            refine ⟨fun hy => ⟨hy, fun x hx => ?_⟩, fun h => h.1⟩
            exact hy.trans ((List.pairwise_cons.mp hordered.2).1 x hx)
      rw [hsplit, mem_heldSegment hcoverage hstop, ih hordered.2, hnext]
      constructor
      · rintro (⟨hin, hv, hfrom, hhold, hlast⟩ | ⟨hin, x, hx, hv, hfrom, hhold, hlast⟩)
        · refine ⟨hin, s, List.mem_cons_self, hv, hfrom, hhold, fun s' hs' hlt => ?_⟩
          rcases List.mem_cons.mp hs' with rfl | hs'
          · omega
          · exact hlast s' hs'
        · refine ⟨hin, x, List.mem_cons_of_mem s hx, hv, hfrom, hhold, fun s' hs' hlt => ?_⟩
          rcases List.mem_cons.mp hs' with rfl | hs'
          · have hsx := hordered.1 x hx
            omega
          · exact hlast s' hs' hlt
      · rintro ⟨hin, x, hx, hv, hfrom, hhold, hlast⟩
        rcases List.mem_cons.mp hx with rfl | hx
        · exact .inl ⟨hin, hv, hfrom, hhold, fun s' hs' =>
            hlast s' (List.mem_cons_of_mem x hs') (hordered.1 s' hs')⟩
        · exact .inr ⟨hin, x, hx, hv, hfrom, hhold, fun s' hs' =>
            hlast s' (List.mem_cons_of_mem s hs')⟩

/-- The points hold what the samples do. -/
theorem held_latest {samples : List Sample} {hold t : ℕ} {v : StateValue}
    (h : samples.Pairwise Sample.Before) :
    (∃ s ∈ latest samples, s.stateValue = some v ∧ s.observedAt ≤ t ∧ t < s.observedAt + hold ∧
      ∀ s' ∈ latest samples, s.observedAt < s'.observedAt → t < s'.observedAt) ↔
      Held hold samples t v := by
  constructor
  · rintro ⟨s, hs, hv, hfrom, hhold, hlast⟩
    obtain ⟨hmem, hnext⟩ := (mem_latest h).mp hs
    refine ⟨s, hmem, hv, hfrom, hhold, fun s' hs' hbefore => ?_⟩
    obtain ⟨p, hp, hat⟩ := exists_latest hs'
    rw [← hat]
    refine hlast p hp ?_
    rw [hat]
    exact hnext s' hs' hbefore
  · rintro ⟨s, hs, hv, hfrom, hhold, hlast⟩
    have hpoint : s ∈ latest samples :=
      (mem_latest h).mpr ⟨hs, fun x hx hbefore => hfrom.trans_lt (hlast x hx hbefore)⟩
    exact ⟨s, hpoint, hv, hfrom, hhold, fun s' hs' hlt => hlast s' (latest_subset hs') (.inl hlt)⟩

/-! ### A hold that ends where the window starts -/

/-- The last point before the window is valid, its hold reaches the start of the window, and its
state is not held there. -/
def StaleHold (hold : ℕ) (w : Interval) (samples : List Sample) : Prop :=
  ∃ q ∈ samples, q.observedAt < w.start ∧ (∀ s ∈ samples, q.Before s → w.start ≤ s.observedAt) ∧
    ∃ v, q.stateValue = some v ∧ w.start ≤ q.observedAt + hold ∧ ¬ Held hold samples w.start v

/-- Segments that last. -/
def Lasting (gs : List StateSegment) : Prop := ∀ g ∈ gs, g.window.start < g.window.stop

/-- From the start of the window on every segment lasts. -/
theorem segmentsOf_lasting {spec : SummarySpec} {w : Interval} {xs : List Sample} {hold : ℕ}
    (hcoverage : spec.coverage = .holdLast hold) (hhold : 0 < hold)
    (hsorted : xs.Pairwise (fun a b => a.observedAt < b.observedAt))
    (hfrom : ∀ s ∈ xs, w.start ≤ s.observedAt) : Lasting (segmentsOf spec w xs) := by
  induction xs with
  | nil => simp [segmentsOf, Lasting]
  | cons s rest ih =>
      have hordered := List.pairwise_cons.mp hsorted
      intro g hg
      rw [segmentsOf, List.mem_append, Option.mem_toList] at hg
      rcases hg with hg | hg
      · have hstart := hfrom s List.mem_cons_self
        have hlt := s.valid.observed_lt
        unfold heldSegment at hg
        cases hv : s.stateValue with
        | none => simp [hv] at hg
        | some u =>
            simp only [hv, Option.bind_some] at hg
            split at hg
            · next h =>
                cases hg
                have hnext : s.observedAt <
                    (rest.head?.map (fun t => t.observedAt)).getD w.stop := by
                  cases rest with
                  | nil => exact h.1
                  | cons y ys => exact hordered.1 y List.mem_cons_self
                simp only [holdEnd, hcoverage]
                omega
            · cases hg
      · exact ih hordered.2 (fun x hx => hfrom x (List.mem_cons_of_mem s hx)) g hg

/-- All segments last, but for the first one where the hold of the last point before the window
ends as the window starts. -/
theorem segmentsOf_cases {spec : SummarySpec} {w : Interval} {xs : List Sample} {hold : ℕ}
    (hcoverage : spec.coverage = .holdLast hold) (hhold : 0 < hold)
    (hsorted : xs.Pairwise (fun a b => a.observedAt < b.observedAt)) :
    Lasting (segmentsOf spec w xs) ∨
      ∃ q ∈ xs, q.observedAt < w.start ∧
        (∀ s ∈ xs, q.observedAt < s.observedAt → w.start ≤ s.observedAt) ∧
        ∃ v rest, q.stateValue = some v ∧ w.start ≤ q.observedAt + hold ∧
          segmentsOf spec w xs = ⟨v, ⟨w.start, w.start, le_rfl⟩⟩ :: rest ∧ Lasting rest := by
  induction xs with
  | nil => exact .inl (by simp [segmentsOf, Lasting])
  | cons s rest ih =>
      have hordered := List.pairwise_cons.mp hsorted
      by_cases hfrom : w.start ≤ s.observedAt
      · refine .inl (segmentsOf_lasting hcoverage hhold hsorted fun x hx => ?_)
        rcases List.mem_cons.mp hx with rfl | hx
        · exact hfrom
        · exact hfrom.trans (hordered.1 x hx).le
      · have hbefore : s.observedAt < w.start := not_le.mp hfrom
        by_cases hlast : ∀ n ∈ rest.head?.map (fun t => t.observedAt), w.start ≤ n
        · have hrest : ∀ x ∈ rest, w.start ≤ x.observedAt := by
            intro x hx
            cases rest with
            | nil => cases hx
            | cons y ys =>
                have hy := hlast y.observedAt rfl
                rcases List.mem_cons.mp hx with rfl | hx
                · exact hy
                · exact hy.trans ((List.pairwise_cons.mp hordered.2).1 x hx).le
          have hlasting := segmentsOf_lasting hcoverage hhold hordered.2 hrest
          cases hg : heldSegment spec w s (rest.head?.map (fun t => t.observedAt)) with
          | none =>
              left
              simpa [segmentsOf, hg] using hlasting
          | some g =>
              obtain ⟨hstart, -, -, -, hvalue, hreach⟩ := heldSegment_bounds hcoverage hg
              rw [max_eq_right hbefore.le] at hstart
              have hle := g.window.le
              by_cases hlong : g.window.start < g.window.stop
              · left
                simp only [segmentsOf, hg, Option.toList_some, List.singleton_append]
                exact List.forall_mem_cons.mpr ⟨hlong, hlasting⟩
              · right
                have hstop : g.window.stop = w.start := by omega
                refine ⟨s, List.mem_cons_self, hbefore, ?_, g.value, segmentsOf spec w rest, hvalue,
                  by omega, ?_, hlasting⟩
                · intro x hx hlt
                  rcases List.mem_cons.mp hx with rfl | hx
                  · exact absurd hlt (lt_irrefl _)
                  · exact hrest x hx
                · obtain ⟨value, start, stop, hwindow⟩ := g
                  dsimp only at hstart hstop
                  subst hstart hstop
                  simp [segmentsOf, hg]
        · -- The next point is before the window as well, so this one holds nothing in it.
          have hnone : heldSegment spec w s (rest.head?.map (fun t => t.observedAt)) = none := by
            refine Option.eq_none_iff_forall_ne_some.mpr fun g hg => hlast fun n hn => ?_
            obtain ⟨hstart, -, hnext, -⟩ := heldSegment_bounds hcoverage hg
            have hle := g.window.le
            have hstop := hnext n hn
            omega
          have hsame : segmentsOf spec w (s :: rest) = segmentsOf spec w rest := by
            simp [segmentsOf, hnone]
          rw [hsame]
          refine (ih hordered.2).imp_right ?_
          rintro ⟨q, hq, hqbefore, hqlast, v, gs, hv, hreach, hgs, hlasting⟩
          refine ⟨q, List.mem_cons_of_mem s hq, hqbefore, fun x hx hlt => ?_, v, gs, hv, hreach, hgs,
            hlasting⟩
          rcases List.mem_cons.mp hx with rfl | hx
          · have hxq := hordered.1 q hq
            omega
          · exact hqlast x hx hlt

/-! ### Durations -/

/-- How long segments last together. -/
def duration (gs : List StateSegment) : ℕ := (gs.map (fun g => g.window.widthMicros)).sum

theorem duration_snoc (gs : List StateSegment) (g : StateSegment) :
    duration (gs ++ [g]) = duration gs + g.window.widthMicros := by
  simp [duration]

/-- The durations are those of the states that the segments show. -/
structure Tallied (gs : List StateSegment) (ds : List StateDuration) : Prop where
  nodup : (ds.map (fun d => d.value)).Nodup
  states : ∀ v, v ∈ ds.map (fun d => d.value) ↔ v ∈ gs.map (fun g => g.value)
  micros : ∀ d ∈ ds, d.micros = duration (gs.filter (fun g => g.value = d.value))
  total : (ds.map (fun d => d.micros)).sum = duration gs

/-- The durations with time added to the entry of a state. -/
def lengthen (v : StateValue) (x : ℕ) (ds : List StateDuration) : List StateDuration :=
  ds.map (fun d => if d.value = v then { d with micros := d.micros + x } else d)

/-- A state without an entry gets no time. -/
theorem lengthen_eq_self {v : StateValue} (x : ℕ) {ds : List StateDuration}
    (h : v ∉ ds.map (fun d => d.value)) : lengthen v x ds = ds := by
  refine (List.map_congr_left fun d hd => if_neg ?_).trans (List.map_id ds)
  rintro rfl
  exact h (List.mem_map_of_mem hd)

theorem lengthen_values (v : StateValue) (x : ℕ) (ds : List StateDuration) :
    (lengthen v x ds).map (fun d => d.value) = ds.map (fun d => d.value) := by
  rw [lengthen, List.map_map]
  refine List.map_congr_left fun d _ => ?_
  by_cases hd : d.value = v <;> simp [hd]

theorem lengthen_cons (v : StateValue) (x : ℕ) (d : StateDuration) (ds : List StateDuration) :
    lengthen v x (d :: ds) =
      (if d.value = v then { d with micros := d.micros + x } else d) :: lengthen v x ds := rfl

theorem lengthen_sum {v : StateValue} (x : ℕ) {ds : List StateDuration}
    (hnodup : (ds.map (fun d => d.value)).Nodup) (hv : v ∈ ds.map (fun d => d.value)) :
    ((lengthen v x ds).map (fun d => d.micros)).sum = (ds.map (fun d => d.micros)).sum + x := by
  induction ds with
  | nil => simp at hv
  | cons d ds ih =>
      rw [List.map_cons, List.nodup_cons] at hnodup
      rw [lengthen_cons, List.map_cons, List.map_cons, List.sum_cons, List.sum_cons]
      by_cases hd : d.value = v
      · rw [lengthen_eq_self x (hd ▸ hnodup.1), if_pos hd]
        exact Nat.add_right_comm _ _ _
      · have hrest := ih hnodup.2 (by simpa [Ne.symm hd] using hv)
        rw [if_neg hd, hrest]
        omega

/-- Time added to a state goes to its entry, or to a new one at the end. -/
theorem addDuration_eq {v : StateValue} {x : ℕ} {ds : List StateDuration}
    (hnodup : (ds.map (fun d => d.value)).Nodup)
    (hfits : (ds.map (fun d => d.micros)).sum + x < 2 ^ 64) :
    addDuration v x ds =
      .ok (if v ∈ ds.map (fun d => d.value) then lengthen v x ds else ds ++ [⟨v, x⟩]) := by
  induction ds with
  | nil => rfl
  | cons d ds ih =>
      rw [List.map_cons, List.nodup_cons] at hnodup
      rw [List.map_cons, List.sum_cons] at hfits
      rw [addDuration]
      by_cases hd : d.value = v
      · have hsame := lengthen_eq_self x (hd ▸ hnodup.1)
        rw [if_pos hd, checkedAdd_of_lt (by omega)]
        simp [hd, lengthen_cons, hsame]
      · rw [if_neg hd, ih hnodup.2 (by omega)]
        by_cases hv : v ∈ ds.map (fun d => d.value)
        · simp only [hv, if_true, ok_bind, List.map_cons, List.mem_cons, or_true, lengthen_cons, hd,
            if_false]
          rfl
        · have hne : ¬ v = d.value := fun h => hd h.symm
          simp only [hv, if_false, ok_bind, List.map_cons, List.mem_cons, or_false, hne]
          rfl

theorem Tallied.snoc {gs : List StateSegment} {ds : List StateDuration} {g : StateSegment}
    (h : Tallied gs ds) (hfits : duration (gs ++ [g]) < 2 ^ 64) :
    ∃ ds', addDuration g.value g.window.widthMicros ds = .ok ds' ∧ Tallied (gs ++ [g]) ds' := by
  have hsum : (ds.map (fun d => d.micros)).sum + g.window.widthMicros < 2 ^ 64 := by
    rw [h.total, ← duration_snoc]
    exact hfits
  refine ⟨_, addDuration_eq h.nodup hsum, ?_⟩
  have hfilter : ∀ v, duration ((gs ++ [g]).filter (fun x => x.value = v)) =
      duration (gs.filter (fun x => x.value = v)) +
        if g.value = v then g.window.widthMicros else 0 := by
    intro v
    rw [List.filter_append]
    by_cases hv : g.value = v
    · simp [hv, duration]
    · simp [hv]
  by_cases hv : g.value ∈ ds.map (fun d => d.value)
  · rw [if_pos hv]
    refine ⟨by rw [lengthen_values]; exact h.nodup, fun v => ?_, ?_, ?_⟩
    · rw [lengthen_values, h.states, List.map_append, List.mem_append, List.map_singleton,
        List.mem_singleton]
      refine ⟨.inl, ?_⟩
      rintro (hmem | rfl)
      · exact hmem
      · exact (h.states _).mp hv
    · intro d hd
      obtain ⟨e, he, rfl⟩ := List.mem_map.mp hd
      by_cases heq : e.value = g.value
      · simp only [heq, if_true, hfilter, h.micros e he]
      · simp only [heq, if_false, hfilter, h.micros e he, Ne.symm heq, add_zero]
    · rw [lengthen_sum _ h.nodup hv, h.total, duration_snoc]
  · rw [if_neg hv]
    refine ⟨?_, fun v => ?_, ?_, ?_⟩
    · rw [List.map_append, List.nodup_append]
      refine ⟨h.nodup, by simp, ?_⟩
      simp only [List.map_singleton, List.mem_singleton, forall_eq]
      rintro v hmem rfl
      exact hv hmem
    · simp [h.states, eq_comm]
    · intro d hd
      rcases List.mem_append.mp hd with hd | hd
      · have hne : ¬ g.value = d.value := fun heq => hv (heq ▸ List.mem_map_of_mem hd)
        rw [hfilter, if_neg hne, h.micros d hd, add_zero]
      · rw [List.mem_singleton] at hd
        subst hd
        have hnone : gs.filter (fun x => x.value = g.value) = [] := by
          refine List.filter_eq_nil_iff.mpr fun x hx => ?_
          simp only [decide_eq_true_eq]
          intro heq
          exact hv ((h.states _).mpr (heq ▸ List.mem_map_of_mem hx))
        rw [hfilter, hnone]
        simp [duration]
    · simp [h.total, duration_snoc]

/-! ### The timeline -/

/-- The segments after the current one, each joined to it while it goes on with its state. -/
def compactFrom (cur : StateSegment) : List StateSegment → List StateSegment
  | [] => [cur]
  | g :: rest =>
      if h : cur.value = g.value ∧ cur.window.stop = g.window.start then
        compactFrom ⟨cur.value, ⟨cur.window.start, g.window.stop,
          cur.window.le.trans (h.2.le.trans g.window.le)⟩⟩ rest
      else cur :: compactFrom g rest

def compacted : List StateSegment → List StateSegment
  | [] => []
  | g :: rest => compactFrom g rest

theorem compactFrom_ne_nil (cur : StateSegment) (rest : List StateSegment) :
    compactFrom cur rest ≠ [] := by
  induction rest generalizing cur with
  | nil => simp [compactFrom]
  | cons g rest ih =>
      rw [compactFrom]
      split
      · exact ih _
      · simp

/-- Only the last segment counts where another one is added. -/
theorem compactInto_cons {a : StateSegment} {compact : List StateSegment} (g : StateSegment)
    (h : compact ≠ []) :
    compactInto (a :: compact) g = (compactInto compact g).map (fun c => a :: c) := by
  cases compact with
  | nil => exact absurd rfl h
  | cons b rest =>
      unfold compactInto
      rw [List.getLast?_cons_cons]
      cases (b :: rest).getLast? with
      | none => rfl
      | some last =>
          by_cases hmeet : last.value = g.value ∧ last.window.stop = g.window.start
          · simp only [hmeet, and_self, if_true]
            cases Interval.new last.window.start g.window.stop with
            | error e => rfl
            | ok window => rfl
          · simp only [hmeet, if_false]
            rfl

theorem compactInto_compactFrom (cur g : StateSegment) (rest : List StateSegment) :
    compactInto (compactFrom cur rest) g = .ok (compactFrom cur (rest ++ [g])) := by
  induction rest generalizing cur with
  | nil =>
      rw [List.nil_append, compactFrom, compactFrom]
      by_cases hmeet : cur.value = g.value ∧ cur.window.stop = g.window.start
      · have hle := cur.window.le.trans (hmeet.2.le.trans g.window.le)
        rw [dif_pos hmeet]
        simp only [compactInto, List.getLast?_singleton, if_pos hmeet, Interval.new_of_le hle]
        rfl
      · rw [dif_neg hmeet]
        simp only [compactInto, List.getLast?_singleton, if_neg hmeet]
        rfl
  | cons x rest ih =>
      rw [List.cons_append, compactFrom, compactFrom]
      split
      · exact ih _
      · rw [compactInto_cons g (compactFrom_ne_nil x rest), ih]
        rfl

/-- The loop of the projection compacts the segments and adds up their durations. -/
theorem take_fold {gs : List StateSegment} (hfits : duration gs < 2 ^ 64) :
    ∃ ds, gs.foldlM Timeline.take ⟨[], [], 0⟩ = .ok ⟨ds, compacted gs, duration gs⟩ ∧
      Tallied gs ds := by
  induction gs using List.reverseRecOn with
  | nil => exact ⟨[], rfl, by simp, by simp, by simp, rfl⟩
  | append_singleton gs g ih =>
      have hlength := duration_snoc gs g
      obtain ⟨ds, hfold, htallied⟩ := ih (by omega)
      obtain ⟨ds', hadd, htallied'⟩ := htallied.snoc hfits
      have hcompact : compactInto (compacted gs) g = .ok (compacted (gs ++ [g])) := by
        cases gs with
        | nil => rfl
        | cons x rest => exact compactInto_compactFrom x g rest
      refine ⟨ds', ?_, htallied'⟩
      rw [List.foldlM_append, hfold, ok_bind, List.foldlM_cons, Timeline.take,
        checkedAdd_of_lt (by dsimp only; omega)]
      simp only [okOr_some, ok_bind, hadd, hcompact, hlength]
      rfl

/-- Joining segments changes neither what they show nor where they begin and end. -/
theorem mem_compactFrom {cur : StateSegment} {rest : List StateSegment} {v : StateValue} {t : ℕ} :
    (∃ g ∈ compactFrom cur rest, g.value = v ∧ g.window.start ≤ t ∧ t < g.window.stop) ↔
      ∃ g ∈ cur :: rest, g.value = v ∧ g.window.start ≤ t ∧ t < g.window.stop := by
  induction rest generalizing cur with
  | nil => rfl
  | cons x rest ih =>
      rw [compactFrom]
      have hcur := cur.window.le
      have hx := x.window.le
      split
      · next hmeet =>
          rw [ih]
          simp only [List.mem_cons, exists_eq_or_imp]
          constructor
          · rintro (⟨rfl, hlow, hhigh⟩ | hrest)
            · by_cases hin : t < cur.window.stop
              · exact .inl ⟨rfl, hlow, hin⟩
              · exact .inr (.inl ⟨hmeet.1.symm, by omega, hhigh⟩)
            · exact .inr (.inr hrest)
          · rintro (⟨rfl, hlow, hhigh⟩ | ⟨rfl, hlow, hhigh⟩ | hrest)
            · exact .inl ⟨rfl, hlow, by omega⟩
            · exact .inl ⟨hmeet.1, by omega, hhigh⟩
            · exact .inr hrest
      · have hrest := @ih x
        simp only [List.mem_cons, exists_eq_or_imp] at hrest ⊢
        rw [hrest]

theorem compactFrom_bounds {cur g : StateSegment} {rest : List StateSegment}
    (hg : g ∈ compactFrom cur rest) :
    (∃ a ∈ cur :: rest, g.window.start = a.window.start) ∧
      ∃ a ∈ cur :: rest, g.window.stop = a.window.stop := by
  induction rest generalizing cur with
  | nil =>
      rw [compactFrom, List.mem_singleton] at hg
      subst hg
      simp
  | cons x rest ih =>
      rw [compactFrom] at hg
      split at hg
      · obtain ⟨hstart, hstop⟩ := ih hg
        simp only [List.mem_cons, exists_eq_or_imp] at hstart hstop ⊢
        exact ⟨hstart.imp_right .inr, .inr hstop⟩
      · rcases List.mem_cons.mp hg with rfl | hg
        · simp
        · obtain ⟨⟨a, ha, hstart⟩, b, hb, hstop⟩ := ih hg
          exact ⟨⟨a, List.mem_cons_of_mem _ ha, hstart⟩, b, List.mem_cons_of_mem _ hb, hstop⟩

/-- Segments in order, of which two that touch show different states. -/
def Separated (gs : List StateSegment) : Prop :=
  gs.Pairwise (fun a b => a.window.stop < b.window.start ∨
    (a.window.stop = b.window.start ∧ a.value ≠ b.value))

/-- A joined list of lasting segments begins as its first one, and is separated. -/
theorem compactFrom_separated {cur : StateSegment} {rest : List StateSegment}
    (hapart : Apart (fun g => g.window.start) (fun g => g.window.stop) (cur :: rest))
    (hlasting : Lasting (cur :: rest)) :
    (∀ g ∈ compactFrom cur rest, g.window.start = cur.window.start ∧ g.value = cur.value ∨
      cur.window.start < g.window.start) ∧
      Lasting (compactFrom cur rest) ∧ Separated (compactFrom cur rest) := by
  induction rest generalizing cur with
  | nil => exact ⟨by simp [compactFrom], hlasting, List.pairwise_singleton _ _⟩
  | cons x rest ih =>
      have hordered := List.pairwise_cons.mp hapart
      have hafter := List.pairwise_cons.mp hordered.2
      have hcur := hlasting cur List.mem_cons_self
      have hx := hlasting x (by simp)
      have hrest : Lasting rest := fun g hg => hlasting g (by simp [hg])
      rw [compactFrom]
      split
      · next hmeet =>
          apply ih
          · exact List.pairwise_cons.mpr ⟨hafter.1, hafter.2⟩
          · exact List.forall_mem_cons.mpr ⟨by dsimp only; omega, hrest⟩
      · next hmeet =>
          obtain ⟨hfirst, hlong, hseparated⟩ := ih hordered.2 (List.forall_mem_cons.mpr ⟨hx, hrest⟩)
          have hnext : cur.window.stop ≤ x.window.start := hordered.1 x List.mem_cons_self
          refine ⟨List.forall_mem_cons.mpr ⟨.inl ⟨rfl, rfl⟩, fun g hg => .inr ?_⟩,
            List.forall_mem_cons.mpr ⟨hcur, hlong⟩, List.pairwise_cons.mpr ⟨fun g hg => ?_,
              hseparated⟩⟩
          · rcases hfirst g hg with ⟨hstart, -⟩ | hstart <;> omega
          · rcases hfirst g hg with ⟨hstart, hvalue⟩ | hstart
            · rw [hstart, hvalue]
              by_cases htouch : cur.window.stop = x.window.start
              · exact .inr ⟨htouch, fun hsame => hmeet ⟨hsame, htouch⟩⟩
              · exact .inl (lt_of_le_of_ne hnext htouch)
            · exact .inl (by omega)

/-! ### Transitions -/

theorem mem_transitionOf {spec : SummarySpec} {w : Interval} {a b : Sample} {hold : ℕ}
    {x : Transition} (hcoverage : spec.coverage = .holdLast hold) :
    x ∈ transitionOf spec w (some a) b ↔ inside b.observedAt w = true ∧
      a.stateValue = some x.before ∧ b.stateValue = some x.after ∧ x.before ≠ x.after ∧
        b.observedAt - a.observedAt ≤ hold ∧ x.at_ = b.observedAt := by
  obtain ⟨at_, before, after⟩ := x
  unfold transitionOf transitionInto
  cases hb : b.stateValue with
  | none => simp
  | some v =>
      cases ha : a.stateValue with
      | none => simp [ha]
      | some u =>
          simp only [Option.bind_some, hcoverage, Option.mem_def, Option.some.injEq, ha]
          rcases Bool.eq_false_or_eq_true (inside b.observedAt w) with hin | hin
          · have hlt := (inside_iff.mp hin).2
            by_cases hgo : b.observedAt - a.observedAt ≤ hold ∧ u ≠ v
            · simp only [hlt, hin, hgo, if_true, decide_true, ne_eq, not_false_eq_true,
                Bool.and_self, Option.some.injEq, Transition.mk.injEq, true_and]
              constructor
              · rintro ⟨rfl, rfl, rfl⟩
                exact ⟨rfl, rfl, hgo.2, rfl⟩
              · rintro ⟨rfl, rfl, -, rfl⟩
                exact ⟨rfl, rfl, rfl⟩
            · have hstay : (decide (b.observedAt - a.observedAt ≤ hold) && decide (u ≠ v)) = false := by
                simpa using hgo
              simp only [hlt, hin, hstay, if_true, Bool.false_eq_true, if_false, reduceCtorEq,
                false_iff, true_and]
              rintro ⟨rfl, rfl, hne, hle, -⟩
              exact hgo ⟨hle, hne⟩
          · simp [hin]

theorem pieces_transitions (spec : SummarySpec) (w : Interval) (a : Sample) (xs : List Sample) :
    (pieces spec w (successive (some a) xs)).transitions =
      (neighbours (a :: xs)).filterMap (fun p => transitionOf spec w (some p.1) p.2) := by
  induction xs generalizing a with
  | nil => rfl
  | cons s rest ih =>
      rw [successive, pieces_cons, neighbours_cons, List.filterMap_cons]
      simp only [Piece.append_def, Piece.append, ih s, piece]
      cases transitionOf spec w (some a) s <;> rfl

theorem transitionOf_none (spec : SummarySpec) (w : Interval) (s : Sample) :
    transitionOf spec w none s = none := by
  unfold transitionOf transitionInto
  cases s.stateValue <;> simp

theorem pieces_transitions_first (spec : SummarySpec) (w : Interval) (xs : List Sample) :
    (pieces spec w (successive none xs)).transitions =
      (neighbours xs).filterMap (fun p => transitionOf spec w (some p.1) p.2) := by
  cases xs with
  | nil => rfl
  | cons s rest =>
      rw [successive, pieces_cons]
      simp only [Piece.append_def, Piece.append, piece, transitionOf_none, Option.toList_none,
        List.nil_append]
      exact pieces_transitions spec w s rest

/-- The transitions of a window, in order: at each point inside it whose predecessor had another
state, no longer ago than the hold. -/
structure TransitionsOf (hold : ℕ) (w : Interval) (samples : List Sample)
    (ts : List Transition) : Prop where
  ordered : ts.Pairwise (fun a b => a.at_ < b.at_)
  mem : ∀ x, x ∈ ts ↔ ∃ p ∈ neighbours (latest samples), inside p.2.observedAt w = true ∧
    p.1.stateValue = some x.before ∧ p.2.stateValue = some x.after ∧ x.before ≠ x.after ∧
      p.2.observedAt - p.1.observedAt ≤ hold ∧ x.at_ = p.2.observedAt

theorem transitions_of_pieces {spec : SummarySpec} {w : Interval} {samples : List Sample} {hold : ℕ}
    (hcoverage : spec.coverage = .holdLast hold) (h : samples.Pairwise Sample.Before) :
    TransitionsOf hold w samples (pieces spec w (successive none (latest samples))).transitions where
  ordered := by
    have hsorted := latest_sorted h
    rw [pieces_transitions_first, List.pairwise_filterMap]
    refine (neighbours_pairwise hsorted).imp_of_mem fun {p q} _ hq happart x hx y hy => ?_
    have hx_at := ((mem_transitionOf hcoverage).mp hx).2.2.2.2.2
    have hy_at := ((mem_transitionOf hcoverage).mp hy).2.2.2.2.2
    have hforward := rel_of_neighbours hsorted hq
    rcases happart with hsame | hlt
    · rw [hx_at, hy_at, hsame]
      exact hforward
    · rw [hx_at, hy_at]
      exact hlt.trans hforward
  mem x := by
    rw [pieces_transitions_first, List.mem_filterMap]
    exact exists_congr fun p => and_congr_right fun _ => mem_transitionOf hcoverage

/-! ### What a summary measures -/

open scoped Classical in
/-- The instants of the window at which the state is held. -/
noncomputable def heldBy (hold : ℕ) (w : Interval) (samples : List Sample) (v : StateValue) :
    Finset ℕ :=
  (Finset.Ico w.start w.stop).filter (fun t => Held hold samples t v)

open scoped Classical in
/-- The instants of the window at which any state is held. -/
noncomputable def heldIn (hold : ℕ) (w : Interval) (samples : List Sample) : Finset ℕ :=
  (Finset.Ico w.start w.stop).filter (fun t => ∃ v, Held hold samples t v)

/-- The segments are in order inside the window, and show what is held. -/
structure Shown (hold : ℕ) (w : Interval) (samples : List Sample) (gs : List StateSegment) :
    Prop where
  apart : Apart (fun g => g.window.start) (fun g => g.window.stop) gs
  inside : ∀ g ∈ gs, w.start ≤ g.window.start ∧ g.window.stop ≤ w.stop
  shows : ∀ t v, (∃ g ∈ gs, g.value = v ∧ g.window.start ≤ t ∧ t < g.window.stop) ↔
    (w.start ≤ t ∧ t < w.stop) ∧ Held hold samples t v

variable {spec : SummarySpec} {hold : ℕ} {w : Interval} {samples : List Sample}

theorem Shown.duration_value {gs : List StateSegment} (h : Shown hold w samples gs)
    (v : StateValue) :
    duration (gs.filter (fun g => g.value = v)) = (heldBy hold w samples v).card := by
  have hsame : heldBy hold w samples v = covered (fun g : StateSegment => g.window.start)
      (fun g => g.window.stop) (gs.filter (fun g => g.value = v)) := by
    ext t
    have hshows := h.shows t v
    simp only [heldBy, Finset.mem_filter, Finset.mem_Ico, mem_covered, List.mem_filter,
      decide_eq_true_eq, and_assoc] at hshows ⊢
    rw [hshows]
  rw [hsame, card_covered (List.Pairwise.sublist List.filter_sublist h.apart)]
  rfl

theorem Shown.duration {gs : List StateSegment} (h : Shown hold w samples gs) :
    duration gs = (heldIn hold w samples).card := by
  have hsame : heldIn hold w samples = covered (fun g : StateSegment => g.window.start)
      (fun g => g.window.stop) gs := by
    ext t
    simp only [heldIn, Finset.mem_filter, Finset.mem_Ico, mem_covered]
    constructor
    · rintro ⟨hin, v, hheld⟩
      obtain ⟨g, hg, -, hcovers⟩ := (h.shows t v).mpr ⟨hin, hheld⟩
      exact ⟨g, hg, hcovers⟩
    · rintro ⟨g, hg, hcovers⟩
      have hshown := (h.shows t g.value).mp ⟨g, hg, rfl, hcovers⟩
      exact ⟨hshown.1, g.value, hshown.2⟩
  rw [hsame, card_covered h.apart]
  rfl

theorem heldIn_card_le (hold : ℕ) (w : Interval) (samples : List Sample) :
    (heldIn hold w samples).card ≤ w.widthMicros := by
  classical
  unfold heldIn
  calc _ ≤ (Finset.Ico w.start w.stop).card := Finset.card_filter_le _ _
    _ = w.widthMicros := Nat.card_Ico _ _

/-- The timeline of a window: maximal segments that cover exactly what is held. -/
structure TimelineOf (hold : ℕ) (w : Interval) (samples : List Sample) (gs : List StateSegment) :
    Prop where
  inside : ∀ g ∈ gs, w.start ≤ g.window.start ∧ g.window.stop ≤ w.stop
  lasting : Lasting gs
  separated : Separated gs
  shows : ∀ t v, (∃ g ∈ gs, g.value = v ∧ g.window.start ≤ t ∧ t < g.window.stop) ↔
    (w.start ≤ t ∧ t < w.stop) ∧ Held hold samples t v

/-- The durations of a window: one for each state that is held in it, and how long it is. -/
structure CoverageOf (hold : ℕ) (w : Interval) (samples : List Sample) (ds : List StateDuration) :
    Prop where
  nodup : (ds.map (fun d => d.value)).Nodup
  states : ∀ v, v ∈ ds.map (fun d => d.value) ↔ (heldBy hold w samples v).Nonempty
  micros : ∀ d ∈ ds, d.micros = (heldBy hold w samples d.value).card
  total : (ds.map (fun d => d.micros)).sum = (heldIn hold w samples).card

/-- A bucket with a value, or missing where nothing is held. -/
structure StateBucket (hold : ℕ) (w : Interval) (samples : List Sample) (value : AggregateValue)
    (bucket : AggregateBucket) : Prop where
  covered : bucket.coveredMicros = (heldIn hold w samples).card
  covered_le : bucket.coveredMicros ≤ w.widthMicros
  value : bucket.value = if heldIn hold w samples = ∅ then .missing else value

/-- A summary of a state measures exactly what was held. -/
structure StateExact (hold : ℕ) (w : Interval) (samples : List Sample) (s : Summary) : Prop where
  timeline : ∃ bucket gs, s.project .timeline = .ok bucket ∧ TimelineOf hold w samples gs ∧
    StateBucket hold w samples (.stateSegments gs) bucket
  coverage : ∃ bucket ds, s.project .coverage = .ok bucket ∧ CoverageOf hold w samples ds ∧
    StateBucket hold w samples (.stateCoverage ds) bucket
  transitions : ∃ bucket ts, s.project .transitions = .ok bucket ∧
    TransitionsOf hold w samples ts ∧ StateBucket hold w samples (.transitions ts) bucket

/-- What each operation takes from the pieces. -/
inductive Projected (a : Piece) (ds : List StateDuration) : AggregateOp → AggregateValue → Prop
  | timeline : Projected a ds .timeline (.stateSegments (compacted a.segments))
  | coverage : Projected a ds .coverage (.stateCoverage ds)
  | transitions : Projected a ds .transitions (.transitions a.transitions)

/-- The metric is a state. -/
def SummarySpec.IsState (spec : SummarySpec) : Prop :=
  spec.metric = .bool ∨ ∃ members, spec.metric = .state members

theorem dataOf_state {a : Piece} (hm : spec.IsState) :
    dataOf spec.metric a = .state a.segments a.transitions := by
  rcases hm with hm | ⟨members, hm⟩ <;> rw [hm] <;> rfl

theorem project_state {a : Piece} (hm : spec.IsState) (hfits : duration a.segments < 2 ^ 64) :
    ∃ ds, Tallied a.segments ds ∧ ∀ op value, Projected a ds op value →
      ∃ bucket, (summaryOf spec w a).project op = .ok bucket ∧
        bucket.coveredMicros = duration a.segments ∧
        bucket.value = if a.segments = [] then .missing else value := by
  obtain ⟨ds, hfold, htallied⟩ := take_fold hfits
  refine ⟨ds, htallied, fun op value hprojected => ?_⟩
  have hstate : projectState a.segments a.transitions op =
      .ok (if a.segments = [] then .missing else value, duration a.segments) := by
    rw [projectState, hfold, ok_bind]
    by_cases hempty : a.segments = []
    · simp only [hempty, List.isEmpty_nil, if_true]
      rfl
    · have hsome : a.segments.isEmpty = false := by simpa using hempty
      simp only [hsome, Bool.false_eq_true, if_false, hempty]
      cases hprojected <;> rfl
  have hdata : (summaryOf spec w a).projectData op =
      .ok (if a.segments = [] then .missing else value, duration a.segments, a.defects) := by
    simp only [Summary.projectData, summaryOf, dataOf_state hm]
    rw [hstate]
    rfl
  rw [Summary.project, hdata, ok_bind]
  exact ⟨_, rfl, rfl, rfl⟩

/-- Where every segment lasts, the summary is exact. -/
theorem stateExact_of_lasting {a : Piece} (hm : spec.IsState) (hwidth : w.widthMicros < 2 ^ 64)
    (hshown : Shown hold w samples a.segments) (hlasting : Lasting a.segments)
    (htransitions : TransitionsOf hold w samples a.transitions) :
    StateExact hold w samples (summaryOf spec w a) := by
  have hduration := hshown.duration
  have hle := heldIn_card_le hold w samples
  obtain ⟨ds, htallied, hproject⟩ := @project_state spec w a hm (by omega)
  have hempty : a.segments = [] ↔ heldIn hold w samples = ∅ := by
    rw [← Finset.card_eq_zero, ← hduration]
    constructor
    · intro hnil
      rw [hnil]
      rfl
    · intro hzero
      cases hsegments : a.segments with
      | nil => rfl
      | cons g rest =>
          have hlong := hlasting g (by simp [hsegments])
          rw [hsegments] at hzero
          simp only [duration, List.map_cons, List.sum_cons, Interval.widthMicros] at hzero
          omega
  have hbucket : ∀ op value, Projected a ds op value → ∃ bucket,
      (summaryOf spec w a).project op = .ok bucket ∧ StateBucket hold w samples value bucket := by
    intro op value hprojected
    obtain ⟨bucket, hok, hcovered, hvalue⟩ := hproject op value hprojected
    refine ⟨bucket, hok, hcovered.trans hduration, by omega, ?_⟩
    simp only [hvalue, hempty]
  have htimeline : TimelineOf hold w samples (compacted a.segments) := by
    obtain ⟨hapart, hinside, hshows⟩ := hshown
    cases hsegments : a.segments with
    | nil =>
        rw [hsegments] at hshows
        exact ⟨by simp [compacted], by simp [compacted, Lasting], List.Pairwise.nil, hshows⟩
    | cons g rest =>
        rw [hsegments] at hapart hinside hshows hlasting
        obtain ⟨-, hlong, hseparated⟩ := compactFrom_separated hapart hlasting
        refine ⟨fun x hx => ?_, hlong, hseparated, fun t v => mem_compactFrom.trans (hshows t v)⟩
        obtain ⟨⟨b, hb, hstart⟩, c, hc, hstop⟩ := compactFrom_bounds hx
        rw [hstart, hstop]
        exact ⟨(hinside b hb).1, (hinside c hc).2⟩
  have hcoverage : CoverageOf hold w samples ds := by
    refine ⟨htallied.nodup, fun v => ?_, fun d hd => ?_, htallied.total.trans hduration⟩
    · rw [htallied.states]
      constructor
      · intro hv
        obtain ⟨g, hg, rfl⟩ := List.mem_map.mp hv
        have hheld := (hshown.shows g.window.start g.value).mp ⟨g, hg, rfl, le_rfl, hlasting g hg⟩
        refine ⟨g.window.start, ?_⟩
        simp only [heldBy, Finset.mem_filter, Finset.mem_Ico]
        exact hheld
      · rintro ⟨t, ht⟩
        simp only [heldBy, Finset.mem_filter, Finset.mem_Ico] at ht
        obtain ⟨g, hg, rfl, -⟩ := (hshown.shows t v).mpr ht
        exact List.mem_map_of_mem hg
    · rw [htallied.micros d hd, hshown.duration_value]
  obtain ⟨timeline, htimeline_ok, htimeline_bucket⟩ := hbucket _ _ .timeline
  obtain ⟨coverage, hcoverage_ok, hcoverage_bucket⟩ := hbucket _ _ .coverage
  obtain ⟨transitions, htransitions_ok, htransitions_bucket⟩ := hbucket _ _ .transitions
  exact ⟨⟨timeline, _, htimeline_ok, htimeline, htimeline_bucket⟩,
    ⟨coverage, _, hcoverage_ok, hcoverage, hcoverage_bucket⟩,
    ⟨transitions, _, htransitions_ok, htransitions, htransitions_bucket⟩⟩

theorem shown_segmentsOf (hcoverage : spec.coverage = .holdLast hold)
    (hstop : w.stop ≤ timestampMax) (h : samples.Pairwise Sample.Before) :
    Shown hold w samples (segmentsOf spec w (latest samples)) where
  apart := segmentsOf_apart hcoverage (latest_sorted h)
  inside g hg := by
    obtain ⟨hstart, hend, -⟩ := segmentsOf_bounds hcoverage hg
    exact ⟨hstart, hend⟩
  shows t v := by
    rw [mem_segmentsOf hcoverage hstop (latest_sorted h), held_latest h]

/-! ### Stale holds -/

/-- The last point before the window has a segment where its hold reaches the window. -/
theorem exists_segment {xs : List Sample} (hcoverage : spec.coverage = .holdLast hold)
    (hw : w.start < w.stop) (hstop : w.stop ≤ timestampMax) {q : Sample} (hq : q ∈ xs)
    (hsorted : xs.Pairwise (fun a b => a.observedAt < b.observedAt)) (hbefore : q.observedAt < w.start)
    (hlast : ∀ s ∈ xs, q.observedAt < s.observedAt → w.start ≤ s.observedAt) {v : StateValue}
    (hv : q.stateValue = some v) (hreach : w.start ≤ q.observedAt + hold) :
    ∃ g ∈ segmentsOf spec w xs, g.value = v ∧ g.window.start = w.start := by
  induction xs with
  | nil => cases hq
  | cons s rest ih =>
      have hordered := List.pairwise_cons.mp hsorted
      rw [segmentsOf]
      rcases List.mem_cons.mp hq with rfl | hq
      · have hnext : w.start ≤ (rest.head?.map (fun t => t.observedAt)).getD w.stop := by
          cases rest with
          | nil => exact hw.le
          | cons y ys => exact hlast y (by simp) (hordered.1 y List.mem_cons_self)
        have hend : w.start ≤
            holdEnd spec w q.observedAt (rest.head?.map (fun t => t.observedAt)) := by
          simp only [holdEnd, hcoverage]
          omega
        have hmax : max q.observedAt w.start = w.start := max_eq_right hbefore.le
        refine ⟨⟨v, ⟨max q.observedAt w.start, _, hmax.le.trans hend⟩⟩, ?_, rfl, hmax⟩
        rw [List.mem_append, Option.mem_toList]
        left
        simp only [heldSegment, hv, Option.bind_some]
        exact dif_pos ⟨by omega, hmax.le.trans hend⟩
      · obtain ⟨g, hg, hgv, hgs⟩ := ih hq hordered.2
          (fun x hx => hlast x (List.mem_cons_of_mem s hx))
        exact ⟨g, List.mem_append_right _ hg, hgv, hgs⟩

/-- A stale hold has a segment at the start of the window that does not last. -/
theorem StaleHold.segment (h : StaleHold hold w samples) (hcoverage : spec.coverage = .holdLast hold)
    (hw : w.start < w.stop) (hstop : w.stop ≤ timestampMax) (hordered : samples.Pairwise Sample.Before) :
    ∃ g ∈ segmentsOf spec w (latest samples), g.window.stop = w.start ∧
      ¬ Held hold samples w.start g.value := by
  obtain ⟨q, hq, hbefore, hlast, v, hv, hreach, hnot⟩ := h
  have hpoint : q ∈ latest samples :=
    (mem_latest hordered).mpr ⟨hq, fun s hs hqs => hbefore.trans_le (hlast s hs hqs)⟩
  obtain ⟨g, hg, rfl, hstart⟩ := exists_segment hcoverage hw hstop hpoint (latest_sorted hordered)
    hbefore (fun s hs hlt => hlast s (latest_subset hs) (.inl hlt)) hv hreach
  refine ⟨g, hg, ?_, hnot⟩
  have hle := g.window.le
  by_contra hne
  have hheld := (shown_segmentsOf hcoverage hstop hordered).shows w.start g.value
  exact hnot (hheld.mp ⟨g, hg, rfl, hstart.le, by omega⟩).2

/-- A segment at the start of the window that goes on with the state of the first one. -/
def Continues (w : Interval) (v : StateValue) (gs : List StateSegment) : Prop :=
  ∃ g rest, gs = g :: rest ∧ g.value = v ∧ g.window.start = w.start

/-- After an empty segment the state is held at the start of the window exactly where the next
segment goes on with it. -/
theorem held_iff_continues {v : StateValue} {rest : List StateSegment} (hw : w.start < w.stop)
    (hshown : Shown hold w samples (⟨v, ⟨w.start, w.start, le_rfl⟩⟩ :: rest))
    (hlasting : Lasting rest) : Held hold samples w.start v ↔ Continues w v rest := by
  have hheld : Held hold samples w.start v ↔
      ∃ g ∈ rest, g.value = v ∧ g.window.start ≤ w.start ∧ w.start < g.window.stop := by
    have hshows := hshown.shows w.start v
    simp only [List.mem_cons, exists_eq_or_imp, lt_irrefl, and_false, false_or, le_refl, hw,
      true_and] at hshows
    exact hshows.symm
  rw [hheld]
  constructor
  · rintro ⟨g, hg, hgv, hlow, -⟩
    have hin := hshown.inside g (List.mem_cons_of_mem _ hg)
    cases rest with
    | nil => cases hg
    | cons x rest =>
        rcases List.mem_cons.mp hg with rfl | hg
        · exact ⟨g, rest, rfl, hgv, le_antisymm hlow hin.1⟩
        · have hlong := hlasting x List.mem_cons_self
          have hx := hshown.inside x (by simp)
          have hapart : x.window.stop ≤ g.window.start :=
            (List.pairwise_cons.mp (List.pairwise_cons.mp hshown.apart).2).1 g hg
          omega
  · rintro ⟨g, tail, rfl, hgv, hstart⟩
    have hlong := hlasting g List.mem_cons_self
    exact ⟨g, List.mem_cons_self, hgv, hstart.le, by omega⟩

/-- Dropping an empty segment changes nothing that is shown. -/
theorem Shown.tail {g : StateSegment} {rest : List StateSegment}
    (h : Shown hold w samples (g :: rest)) (hempty : g.window.stop = g.window.start) :
    Shown hold w samples rest where
  apart := (List.pairwise_cons.mp h.apart).2
  inside x hx := h.inside x (List.mem_cons_of_mem g hx)
  shows t v := by
    rw [← h.shows t v]
    simp only [List.mem_cons, exists_eq_or_imp, hempty]
    refine ⟨.inr, ?_⟩
    rintro (⟨-, hlow, hhigh⟩ | hrest)
    · omega
    · exact hrest

/-- An empty segment with which the next one does not go on stays in the timeline. -/
theorem compacted_empty {v : StateValue} {rest : List StateSegment} (h : ¬ Continues w v rest) :
    (⟨v, ⟨w.start, w.start, le_rfl⟩⟩ : StateSegment) ∈
      compacted (⟨v, ⟨w.start, w.start, le_rfl⟩⟩ :: rest) := by
  cases rest with
  | nil => exact List.mem_singleton.mpr rfl
  | cons g rest =>
      rw [compacted, compactFrom, dif_neg (fun hmeet => h ⟨g, rest, rfl, hmeet.1.symm,
        hmeet.2.symm⟩)]
      exact List.mem_cons_self

/-- With such a segment the timeline is not exact. -/
theorem not_stateExact {a : Piece} {v : StateValue} {rest : List StateSegment} (hm : spec.IsState)
    (hwidth : w.widthMicros < 2 ^ 64) (hshown : Shown hold w samples a.segments)
    (hsegments : a.segments = ⟨v, ⟨w.start, w.start, le_rfl⟩⟩ :: rest)
    (h : ¬ Continues w v rest) : ¬ StateExact hold w samples (summaryOf spec w a) := by
  rintro ⟨⟨bucket, gs, hproject, htimeline, hbucket⟩, -, -⟩
  have hduration := hshown.duration
  have hle := heldIn_card_le hold w samples
  obtain ⟨ds, -, hprojected⟩ := @project_state spec w a hm (by omega)
  obtain ⟨bucket', hproject', -, hvalue⟩ := hprojected _ _ .timeline
  obtain rfl := Except.ok.inj (hproject.symm.trans hproject')
  have hne : a.segments ≠ [] := by simp [hsegments]
  rw [if_neg hne, hbucket.value] at hvalue
  split at hvalue
  · cases hvalue
  · have hmem := @compacted_empty w v rest h
    rw [← hsegments, ← AggregateValue.stateSegments.inj hvalue] at hmem
    exact absurd (htimeline.lasting _ hmem) (lt_irrefl _)

theorem StateExact.congr {s s' : Summary} (hsame : ∀ op, s'.project op = s.project op)
    (h : StateExact hold w samples s) : StateExact hold w samples s' := by
  obtain ⟨htimeline, hcoverage, htransitions⟩ := h
  constructor
  · rwa [hsame]
  · rwa [hsame]
  · rwa [hsame]

/-- What the pieces of a window measure is exact but for a stale hold. -/
theorem stateExact_iff (hm : spec.IsState) (hcoverage : spec.coverage = .holdLast hold)
    (hhold : 0 < hold) (hw : w.widthMicros ≠ 0) (hstop : w.stop ≤ timestampMax)
    (h : samples.Pairwise Sample.Before) :
    StateExact hold w samples
        (summaryOf spec w (pieces spec w (successive none (latest samples)))) ↔
      ¬ StaleHold hold w samples := by
  have hlt : w.start < w.stop := by
    simp only [Interval.widthMicros] at hw
    omega
  have hwidth : w.widthMicros < 2 ^ 64 := by
    simp only [Interval.widthMicros, timestampMax] at *
    omega
  have hshown := @shown_segmentsOf spec hold w samples hcoverage hstop h
  have htransitions := @transitions_of_pieces spec w samples hold hcoverage h
  have hsegments := pieces_segments spec w none (latest samples)
  generalize pieces spec w (successive none (latest samples)) = a at hsegments htransitions ⊢
  rcases segmentsOf_cases (w := w) hcoverage hhold (latest_sorted h) with
    hlasting | ⟨q, hq, hbefore, hlast, v, rest, hv, hreach, hrest, hlasting⟩
  · refine iff_of_true ?_ fun hstale => ?_
    · exact stateExact_of_lasting hm hwidth (hsegments ▸ hshown) (hsegments ▸ hlasting) htransitions
    · obtain ⟨g, hg, hstop_start, -⟩ := hstale.segment hcoverage hlt hstop h
      have hlong := hlasting g hg
      have hin := hshown.inside g hg
      omega
  · rw [hrest] at hsegments
    rw [hrest] at hshown
    have hheld := held_iff_continues hlt hshown hlasting
    by_cases hcontinues : Continues w v rest
    · refine iff_of_true ?_ fun hstale => ?_
      · obtain ⟨⟨value, start, stop, hle⟩, tail, rfl, hvalue, hstart⟩ := hcontinues
        dsimp only at hvalue hstart
        subst hvalue hstart
        have hcut : Cut (⟨value, ⟨w.start, stop, hle⟩⟩ :: tail) a.segments :=
          @Cut.cut _ _ [] tail value w.start w.start stop le_rfl hle rfl hsegments
        refine StateExact.congr (@project_cut spec w
          { a with segments := ⟨value, ⟨w.start, stop, hle⟩⟩ :: tail } _ hcut) ?_
        exact stateExact_of_lasting hm hwidth (hshown.tail rfl) hlasting htransitions
      · obtain ⟨g, hg, hempty, hnot⟩ := hstale.segment hcoverage hlt hstop h
        rw [hrest] at hg
        rcases List.mem_cons.mp hg with rfl | hg
        · exact hnot (hheld.mpr hcontinues)
        · have hlong := hlasting g hg
          have hin := hshown.inside g (List.mem_cons_of_mem _ hg)
          omega
    · refine iff_of_false (not_stateExact hm hwidth (hsegments ▸ hshown) hsegments hcontinues) ?_
      rw [not_not]
      refine ⟨q, latest_subset hq, hbefore, fun s hs hqs => ?_, v, hv, hreach,
        mt hheld.mp hcontinues⟩
      obtain ⟨p, hp, hat⟩ := exists_latest hs
      rw [← hat]
      refine hlast p hp ?_
      rw [hat]
      exact ((mem_latest h).mp hq).2 s hs hqs

theorem ordered_state (hm : spec.IsState) : SummaryBuilder.ordered spec.metric = true := by
  rcases hm with hm | ⟨members, hm⟩ <;> rw [hm] <;> rfl

theorem SummarySpec.IsState.integral (hm : spec.IsState) : spec.metric.Integral := by
  rcases hm with hm | ⟨members, hm⟩ <;> rw [hm] <;> trivial

/-- State summaries measure exactly what was held, exactly when no stale hold ends where the
window starts. -/
theorem state_measures {maxItems : ℕ} (hspec : spec.validate = .ok ()) (hm : spec.IsState)
    (hcoverage : spec.coverage = .holdLast hold) (hhold : 0 < hold) (hw : w.widthMicros ≠ 0)
    (hstop : w.stop ≤ timestampMax) (hsamples : Canonical spec samples) (hmax : maxItems < 2 ^ 64) :
    (3 * samples.length + 1 ≤ maxItems →
      ∃ summary, Summary.compute spec w samples maxItems = .ok summary) ∧
    ∀ summary, Summary.compute spec w samples maxItems = .ok summary →
      (StateExact hold w samples summary ↔ ¬ StaleHold hold w samples) := by
  refine ⟨fun hroom => ?_, fun summary hcompute => ?_⟩
  · exact ⟨_, compute_eq hm.integral hspec hw hsamples (by omega) (by omega)⟩
  · rw [compute_spec hm.integral hspec hw hsamples (fun hlen => hlen.trans_lt hmax), ordered_state hm,
      pointsOf_true, Summary.within] at hcompute
    split at hcompute
    · cases hcompute
    · split at hcompute
      · rw [← Except.ok.inj hcompute]
        exact stateExact_iff hm hcoverage hhold hw hstop hsamples.ordered
      · cases hcompute

theorem valve_canonical (id : String) (at_ : ℕ) (value : Bool) (h : at_ < timestampMax) :
    Canonical valveSpec [valveSample id at_ value h] where
  matches_ := by simp [valveSample, SummarySpec.matches]
  ordered := List.pairwise_singleton _ _
  ids := List.nodup_singleton _

/-- The valve is closed when the window starts, and opens inside it. -/
def valveOpens : List Sample :=
  [valveSample "a" 4 false (by decide), valveSample "b" 12 true (by decide)]

theorem valveOpens_canonical : Canonical valveSpec valveOpens where
  matches_ := by simp [valveOpens, valveSample, SummarySpec.matches]
  ordered := List.pairwise_pair.mpr (.inl (by decide))
  ids := by decide

/-- The hold of the point before the window ends where the valve opens. -/
theorem state_measures_valve :
    ∃ summary bucket, Summary.compute valveSpec ⟨10, 20, by decide⟩ valveOpens 100 = .ok summary ∧
      StateExact 10 ⟨10, 20, by decide⟩ valveOpens summary ∧
      summary.project .transitions = .ok bucket ∧
      bucket.value = .transitions [⟨12, .bool false, .bool true⟩] := by
  obtain ⟨hok, hexact⟩ := @state_measures valveSpec 10 ⟨10, 20, by decide⟩ valveOpens 100
    (by decide) (.inl rfl) rfl (by decide) (by decide) (by decide) valveOpens_canonical (by decide)
  obtain ⟨summary, hcompute⟩ := hok (by decide)
  have hstate : StateExact 10 ⟨10, 20, by decide⟩ valveOpens summary := by
    refine (hexact summary hcompute).mpr ?_
    rintro ⟨q, hq, hbefore, -, v, hv, -, hnot⟩
    rcases List.mem_pair.mp hq with rfl | rfl
    · refine hnot ⟨_, hq, hv, by decide, by decide, fun s hs hlater => ?_⟩
      rcases List.mem_pair.mp hs with rfl | rfl
      · exact absurd hlater (Sample.Before.irrefl _)
      · decide
    · exact absurd hbefore (by decide)
  have heq := @compute_eq valveSpec ⟨10, 20, by decide⟩ valveOpens 100 trivial (by decide)
    (by decide) valveOpens_canonical (by decide) (by decide)
  rw [heq] at hcompute
  cases hcompute
  exact ⟨_, _, heq, hstate, rfl, rfl⟩

/-- The valve was open until the window starts: the timeline shows it for no time at all. -/
theorem valve_shown_for_no_time :
    ∃ summary bucket, Summary.compute valveSpec ⟨10, 20, by decide⟩
        [valveSample "a" 0 true (by decide)] 100 = .ok summary ∧
      summary.project .timeline = .ok bucket ∧
      bucket.value = .stateSegments [⟨.bool true, ⟨10, 10, le_rfl⟩⟩] ∧
      ¬ StateExact 10 ⟨10, 20, by decide⟩ [valveSample "a" 0 true (by decide)] summary := by
  have hcompute := @compute_eq valveSpec ⟨10, 20, by decide⟩
    [valveSample "a" 0 true (by decide)] 100 trivial (by decide) (by decide) (valve_canonical _ _ _ _)
    (by decide) (by decide)
  have hcanonical := valve_canonical "a" 0 true (by decide)
  have hstale : StaleHold 10 ⟨10, 20, by decide⟩ [valveSample "a" 0 true (by decide)] := by
    refine ⟨_, List.mem_singleton.mpr rfl, by decide, ?_, .bool true, rfl, by decide, ?_⟩
    · rintro s hs hbefore
      rw [List.mem_singleton] at hs
      subst hs
      exact absurd hbefore (Sample.Before.irrefl _)
    · rintro ⟨s, hs, -, -, hheld, -⟩
      rw [List.mem_singleton] at hs
      subst hs
      exact absurd hheld (by decide)
  refine ⟨_, _, hcompute, rfl, rfl, fun hexact => ?_⟩
  have hiff := @stateExact_iff valveSpec 10 ⟨10, 20, by decide⟩ _ (.inl rfl) rfl (by decide)
    (by decide) (by decide) hcanonical.ordered
  rw [← pointsOf_true] at hiff
  exact hiff.mp hexact hstale

end Rss.Timeseries
