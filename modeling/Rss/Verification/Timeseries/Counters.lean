import Rss.Verification.Timeseries.Points

/-! # Cumulative counters

The increase of a window is what its runs of linked readings rise. -/

namespace Rss.Timeseries

/-! ### Linked readings -/

/-- The reading of a counter as an integer. -/
def Sample.count (s : Sample) : ℤ := (s.number.map Number.value).getD 0

/-- The reading goes on from the one before: the same start, a positive interval, no decrease. -/
def continues (a b : Sample) : Bool :=
  decide (a.interval.map (fun i => i.start) = b.interval.map (fun i => i.start)) &&
    b.interval.all (fun i => i.widthMicros ≠ 0) && decide (a.count ≤ b.count)

/-- Both are valid, and the counter started again between them. -/
def resets (a b : Sample) : Bool := a.number.isSome && b.number.isSome && !continues a b

/-- Both are valid, and the second goes on from the first within the gap. -/
def linked (maxGap : ℕ) (a b : Sample) : Bool :=
  a.number.isSome && b.number.isSome && continues a b &&
    decide (b.observedAt - a.observedAt ≤ maxGap)

/-- What the counter rose from one reading to the next. -/
def increment (kind : NumberKind) (a b : Sample) : Contribution :=
  ⟨⟨a.observedAt, max a.observedAt b.observedAt, le_max_left _ _⟩,
    Sum.ofInt kind (b.count - a.count)⟩

theorem difference_eq {kind : NumberKind} {x y : Number} (hint : kind ≠ .f64) (hx : x.kind = kind)
    (hy : y.kind = kind) (h : x.value ≤ y.value) : difference x y = .ok (Sum.ofInt kind (y.value - x.value)) := by
  subst hx
  match x, y with
  | .i64 a, .i64 b => rfl
  | .u64 a, .u64 b =>
      have hle : a.toNat ≤ b.toNat := Int.ofNat_le.mp h
      have hsub : ((b.toNat : ℤ) - a.toNat).toNat = b.toNat - a.toNat := Int.toNat_sub _ _
      simp [difference, checkedSub, hle, Except.map, Sum.ofInt, Number.kind, Number.value, hsub]
  | .f64 _, _ => exact absurd rfl hint

/-- What two points of a counter contribute. -/
theorem cumulative_eq {spec : SummarySpec} {a b : Sample} {kind : NumberKind} (maxGap : ℕ)
    (hint : kind ≠ .f64) (ha : spec.matches a = true) (hb : spec.matches b = true)
    (hm : spec.metric = .counter kind .cumulative) (hle : a.observedAt ≤ b.observedAt) :
    cumulative a b maxGap =
      .ok (if linked maxGap a b then (some (increment kind a b), ∅)
        else (none, if resets a b then {.resetBoundary} else {.gaps})) := by
  obtain ⟨ai, hai⟩ := Sample.interval_of_counter ha hm
  obtain ⟨bi, hbi⟩ := Sample.interval_of_counter hb hm
  unfold cumulative
  cases hx : a.number with
  | none => simp [linked, resets, hx]
  | some x =>
      cases hy : b.number with
      | none => simp [linked, resets, hx, hy]
      | some y =>
          have hkx := Sample.number_kind ha hx (.inr ⟨_, hm⟩)
          have hky := Sample.number_kind hb hy (.inr ⟨_, hm⟩)
          have hkind : y.kind = x.kind := hky.trans hkx.symm
          have hcx : a.count = x.value := by simp [Sample.count, hx]
          have hcy : b.count = y.value := by simp [Sample.count, hy]
          simp only [hai, hbi, okOr_some, ok_bind, Number.compare_eq (hky.trans_ne hint) hkind,
            Except.map, compare_beq_lt, Interval.new_of_le hle]
          by_cases hsame : ai.start ≠ bi.start ∨ bi.widthMicros = 0
          · have hno : continues a b = false := by
              simp only [continues, hai, hbi, Option.map_some, Option.some.injEq, Option.all_some]
              rcases hsame with h | h <;> simp [h]
            simp only [hsame, if_true, linked, resets, hno, hx, hy]
            rfl
          · have hgo : continues a b = decide (x.value ≤ y.value) := by
              rw [not_or, not_not] at hsame
              simp [continues, hai, hbi, hsame.1, hsame.2, hcx, hcy]
            by_cases hlt : y.value < x.value
            · have hno : continues a b = false := by simp [hgo, hlt]
              simp only [hsame, if_false, hlt, decide_true, if_true, linked, resets, hno, hx, hy]
              rfl
            · have hyes : continues a b = true := by simp [hgo, not_lt.mp hlt]
              have hdiff := difference_eq hint hkx hky (not_lt.mp hlt)
              have hwidth : (⟨a.observedAt, b.observedAt, hle⟩ : Interval).widthMicros =
                  b.observedAt - a.observedAt := rfl
              simp only [hsame, if_false, hlt, decide_false, ok_bind, Bool.false_eq_true, hdiff,
                linked, resets, hyes, hx, hy, hwidth]
              by_cases hfar : b.observedAt - a.observedAt > maxGap
              · have hout : ¬ b.observedAt - a.observedAt ≤ maxGap := not_le.mpr hfar
                simp only [hfar, if_true, hout]
                rfl
              · simp only [hfar, if_false, not_lt.mp hfar, increment, hcx, hcy, max_eq_right hle]
                rfl

/-! ### What the points contribute -/

theorem contributionOf_cumulative {spec : SummarySpec} {a b : Sample} {kind : NumberKind}
    (hint : kind ≠ .f64) (ha : spec.matches a = true) (hb : spec.matches b = true)
    (hm : spec.metric = .counter kind .cumulative) (hle : a.observedAt ≤ b.observedAt) :
    contributionOf spec (some a) b =
      if linked (spec.maxGap.getD 0) a b then (some (increment kind a b), ∅)
      else (none, if resets a b then {.resetBoundary} else {.gaps}) := by
  simp only [contributionOf, contribution, hm, cumulative_eq _ hint ha hb hm hle]
  rfl

/-- The pairs of points whose increments a window keeps. -/
def increments (maxGap : ℕ) (w : Interval) (points : List Sample) : List (Sample × Sample) :=
  (neighbours points).filter (fun p => inside p.2.observedAt w && linked maxGap p.1 p.2)

/-- The defects that points add after an optional one before them. -/
structure CounterDefects (maxGap : ℕ) (w : Interval) (previous : Option Sample) (xs : List Sample)
    (defects : Finset Completeness) : Prop where
  reset : .resetBoundary ∈ defects ↔ ∃ p ∈ neighbours (previous.toList ++ xs),
    inside p.2.observedAt w = true ∧ resets p.1 p.2 = true
  gaps : .gaps ∈ defects ↔ (∃ s ∈ xs, inside s.observedAt w = true ∧ s.isValid = false) ∨
    ∃ p ∈ neighbours (previous.toList ++ xs), inside p.2.observedAt w = true ∧
      linked maxGap p.1 p.2 = false ∧ resets p.1 p.2 = false
  boundary : .boundary ∉ defects
  overlap : .overlap ∉ defects

theorem neighbours_toList (previous : Option Sample) (x : Sample) (xs : List Sample) :
    neighbours (previous.toList ++ x :: xs) =
      (previous.map (fun a => (a, x))).toList ++ neighbours (x :: xs) := by
  cases previous <;> rfl

/-- The defects of a point come before those of the points after it. -/
theorem CounterDefects.cons {maxGap : ℕ} {w : Interval} {previous : Option Sample} {x : Sample}
    {xs : List Sample} {first defects : Finset Completeness}
    (h : CounterDefects maxGap w (some x) xs defects)
    (hreset : .resetBoundary ∈ first ↔
      inside x.observedAt w = true ∧ ∃ a ∈ previous, resets a x = true)
    (hgaps : .gaps ∈ first ↔ inside x.observedAt w = true ∧ (x.isValid = false ∨
      ∃ a ∈ previous, linked maxGap a x = false ∧ resets a x = false))
    (hboundary : .boundary ∉ first) (hoverlap : .overlap ∉ first) :
    CounterDefects maxGap w previous (x :: xs) (first ∪ defects) where
  reset := by
    rw [Finset.mem_union, hreset, h.reset, neighbours_toList]
    cases previous <;> simp
  gaps := by
    rw [Finset.mem_union, hgaps, h.gaps, neighbours_toList]
    cases previous with
    | none => simp [or_assoc]
    | some a =>
        simp only [Option.toList_some, Option.map_some, List.singleton_append, List.mem_cons,
          exists_eq_or_imp, Option.mem_def, Option.some.injEq, exists_eq_left', and_or_left]
        exact or_or_or_comm
  boundary := by simp [hboundary, h.boundary]
  overlap := by simp [hoverlap, h.overlap]

theorem resets_of_linked {maxGap : ℕ} {a b : Sample} (h : linked maxGap a b = true) :
    resets a b = false := by
  simp only [linked, Bool.and_eq_true] at h
  simp [resets, h.1.2]

/-- What the points of a counter add, whether or not a point precedes them. -/
theorem pieces_counter {spec : SummarySpec} {kind : NumberKind} {w : Interval}
    {previous : Option Sample} {xs : List Sample} (hint : kind ≠ .f64)
    (hm : spec.metric = .counter kind .cumulative) (hs : ∀ s ∈ previous.toList ++ xs, spec.matches s = true)
    (hsorted : (previous.toList ++ xs).Pairwise (fun a b => a.observedAt < b.observedAt)) :
    (pieces spec w (successive previous xs)).contributions =
        (increments (spec.maxGap.getD 0) w (previous.toList ++ xs)).map
          (fun p => increment kind p.1 p.2) ∧
      CounterDefects (spec.maxGap.getD 0) w previous xs
        (pieces spec w (successive previous xs)).defects := by
  induction xs generalizing previous with
  | nil => cases previous <;> constructor <;> first | rfl | constructor <;>
      simp [successive, pieces_nil, Piece.empty]
  | cons x xs ih =>
      have hx : spec.matches x = true := hs x (by simp)
      obtain ⟨hcontributions, hdefects⟩ := @ih (some x)
        (fun s hs' => hs s (List.mem_append_right _ hs'))
        (hsorted.sublist (List.sublist_append_right _ _))
      simp only [Option.toList_some, List.singleton_append] at hcontributions
      simp only [increments, neighbours_toList, successive, pieces_cons, Piece.append_def,
        Piece.append, hcontributions]
      cases previous with
      | none =>
          have hnone : contributionOf spec none x = (none, ∅) := by
            simp [contributionOf, contribution, hm, Except.valueD]
          simp only [piece, hnone]
          refine ⟨by simp, hdefects.cons ?_ ?_ ?_ ?_⟩
          all_goals
            generalize inside x.observedAt w = i
            generalize x.isValid = v
            cases i <;> cases v <;> simp
      | some a =>
          have hlt : a.observedAt < x.observedAt :=
            (List.pairwise_cons.mp hsorted).1 x List.mem_cons_self
          have hpair := contributionOf_cumulative hint (hs a (by simp)) hx hm hlt.le
          simp only [piece, hpair]
          rcases Bool.eq_false_or_eq_true (linked (spec.maxGap.getD 0) a x) with hl | hl
          · have hr := resets_of_linked hl
            refine ⟨?_, hdefects.cons ?_ ?_ ?_ ?_⟩
            · cases hin : inside x.observedAt w <;> simp [hin, hl]
            all_goals
              generalize inside x.observedAt w = i
              generalize x.isValid = v
              cases i <;> cases v <;> simp [hl, hr]
          · refine ⟨?_, hdefects.cons ?_ ?_ ?_ ?_⟩
            · cases hin : inside x.observedAt w <;> simp [hin, hl]
            all_goals
              generalize inside x.observedAt w = i
              generalize x.isValid = v
              cases hr : resets a x <;> cases i <;> cases v <;> simp [hl, hr]

/-! ### Adding increments up -/

theorem Sample.count_bounds {spec : SummarySpec} {s : Sample} {kind : NumberKind} {t : Temporality}
    (hint : kind ≠ .f64) (hs : spec.matches s = true) (hm : spec.metric = .counter kind t) :
    0 ≤ s.count ∧ s.count < if kind = .i64 then 2 ^ 63 else 2 ^ 64 := by
  unfold Sample.count
  cases hn : s.number with
  | none =>
      simp only [Option.map_none, Option.getD_none]
      split <;> omega
  | some n =>
      have haccepts := s.valid.accepts _ (Sample.number_accepts hn).1
      have hkind := Sample.number_kind hs hn (.inr ⟨t, hm⟩)
      rw [SummarySpec.metric_eq hs, hm] at haccepts
      simp only [Metric.accepts, Bool.and_eq_true, Bool.not_eq_true'] at haccepts
      simp only [Option.map_some, Option.getD_some]
      cases kind with
      | i64 =>
          have hbounds := value_bounds_i64 hkind
          cases n with
          | i64 v =>
              have hneg : ¬ v.toInt < 0 := by simpa [Number.isNegative] using haccepts.2
              simp only [Number.value, if_true] at hbounds ⊢
              omega
          | u64 v => cases hkind
          | f64 v => cases hkind
      | u64 =>
          have hbounds := value_bounds_u64 hkind
          simpa using hbounds
      | f64 => exact absurd rfl hint

/-- What the pairs rise in all. -/
def gain (ps : List (Sample × Sample)) : ℤ := (ps.map (fun p => p.2.count - p.1.count)).sum

/-- How long the pairs last in all. -/
def span (ps : List (Sample × Sample)) : ℕ :=
  (ps.map (fun p => p.2.observedAt - p.1.observedAt)).sum

/-- Pairs of points in order of time, none of them falling, up to a time. -/
structure Rising (stop : ℕ) (ps : List (Sample × Sample)) : Prop where
  forward : ∀ p ∈ ps, p.1.observedAt < p.2.observedAt
  before : ∀ p ∈ ps, p.2.observedAt < stop
  rises : ∀ p ∈ ps, p.1.count ≤ p.2.count
  apart : ps.Pairwise (fun p q => p.2.observedAt ≤ q.1.observedAt)

theorem Rising.sublist {stop : ℕ} {ps qs : List (Sample × Sample)} (h : Rising stop ps)
    (hsub : qs.Sublist ps) : Rising stop qs :=
  ⟨fun p hp => h.forward p (hsub.subset hp), fun p hp => h.before p (hsub.subset hp),
    fun p hp => h.rises p (hsub.subset hp), h.apart.sublist hsub⟩

theorem Rising.gain_nonneg {stop : ℕ} {ps : List (Sample × Sample)} (h : Rising stop ps) :
    0 ≤ gain ps := by
  refine List.sum_nonneg fun x hx => ?_
  obtain ⟨p, hp, rfl⟩ := List.mem_map.mp hx
  exact Int.sub_nonneg.mpr (h.rises p hp)

/-- Pairs from a time on cover no more than what is left of the window. -/
theorem Rising.span_lt {stop start : ℕ} {ps : List (Sample × Sample)} (h : Rising stop ps)
    (hstart : ∀ p ∈ ps, start ≤ p.1.observedAt) (hlt : start < stop) : start + span ps < stop := by
  induction ps generalizing start with
  | nil => simpa [span] using hlt
  | cons p ps ih =>
      have hfirst := hstart p List.mem_cons_self
      have hforward := h.forward p List.mem_cons_self
      have hbefore := h.before p List.mem_cons_self
      have hrest : p.2.observedAt + span ps < stop :=
        ih (h.sublist (List.sublist_cons_self p ps)) (List.pairwise_cons.mp h.apart).1 hbefore
      simp only [span, List.map_cons, List.sum_cons] at hrest ⊢
      omega

/-- Each pair lasts, so what they rise is bounded by how long they last. -/
theorem Rising.gain_le {stop : ℕ} {ps : List (Sample × Sample)} {bound : ℤ} (h : Rising stop ps)
    (hbound : ∀ p ∈ ps, p.2.count - p.1.count ≤ bound) (hpos : 0 ≤ bound) :
    gain ps ≤ bound * span ps := by
  induction ps with
  | nil => simp [gain, span]
  | cons p ps ih =>
      have hforward := h.forward p List.mem_cons_self
      have hrest := ih (h.sublist (List.sublist_cons_self p ps))
        (fun q hq => hbound q (List.mem_cons_of_mem p hq))
      have hfirst := hbound p List.mem_cons_self
      have hwidth : bound * 1 ≤ bound * ((p.2.observedAt - p.1.observedAt : ℕ) : ℤ) :=
        Int.mul_le_mul_of_nonneg_left (by omega) hpos
      simp only [gain, span, List.map_cons, List.sum_cons] at hrest ⊢
      push_cast at hrest ⊢
      rw [mul_add]
      linarith

/-- The pairs that begin inside the window. -/
def kept (w : Interval) (ps : List (Sample × Sample)) : List (Sample × Sample) :=
  ps.filter (fun p => w.start ≤ p.1.observedAt)

/-- The loop of the projection keeps the increments that begin inside the window. -/
theorem tally_fold {kind : NumberKind} {w : Interval} {ps : List (Sample × Sample)} {t : Tally}
    {total : ℤ} (hint : kind ≠ .f64) (h : Rising w.stop ps) (hsum : t.sum = Sum.ofInt kind total) (htotal : 0 ≤ total)
    (hoverlap : t.overlap = false)
    (hlast : ∀ l ∈ t.last, ∀ p ∈ ps, l ≤ p.1.observedAt)
    (hgain : total + gain (kept w ps) < if kind = .i64 then 2 ^ 127 else 2 ^ 128)
    (hspan : t.covered + span (kept w ps) < 2 ^ 64) :
    ∃ t', (ps.map (fun p => increment kind p.1 p.2)).foldlM (Tally.take w) t = .ok t' ∧
      t'.sum = Sum.ofInt kind (total + gain (kept w ps)) ∧
      t'.covered = t.covered + span (kept w ps) ∧ t'.overlap = false ∧
      ∀ d, d ∈ t'.defects ↔ d ∈ t.defects ∨
        (d = .boundary ∧ ∃ p ∈ ps, p.1.observedAt < w.start) := by
  induction ps generalizing t total with
  | nil => exact ⟨t, rfl, by simpa [kept, gain] using hsum, by simp [kept, span], hoverlap, by simp⟩
  | cons p ps ih =>
      have hrest := h.sublist (List.sublist_cons_self p ps)
      have hforward := h.forward p List.mem_cons_self
      have hbefore := h.before p List.mem_cons_self
      have hrises := h.rises p List.mem_cons_self
      have hkept_rest : 0 ≤ gain (kept w ps) := (hrest.sublist List.filter_sublist).gain_nonneg
      have hmax : max p.1.observedAt p.2.observedAt = p.2.observedAt := max_eq_right hforward.le
      rw [List.map_cons, List.foldlM_cons]
      by_cases hin : w.start ≤ p.1.observedAt
      · have hkept : kept w (p :: ps) = p :: kept w ps := by simp [kept, hin]
        have hgain_cons : gain (p :: kept w ps) = p.2.count - p.1.count + gain (kept w ps) := rfl
        have hspan_cons : span (p :: kept w ps) =
            p.2.observedAt - p.1.observedAt + span (kept w ps) := rfl
        rw [hkept, hgain_cons] at hgain
        rw [hkept, hspan_cons] at hspan
        have hadd := Sum.checkedAdd_ofInt hint htotal (Int.sub_nonneg.mpr hrises)
          (lt_of_le_of_lt (by omega) hgain)
        have hpast : t.last.any (fun stop => decide (p.1.observedAt < stop)) = false := by
          cases hl : t.last with
          | none => rfl
          | some l => simpa using hlast l hl p List.mem_cons_self
        have hwindow : ¬ (p.1.observedAt < w.start ∨ w.stop < p.2.observedAt) := by omega
        obtain ⟨last, htake, hlast_eq⟩ : ∃ last, t.take w (increment kind p.1 p.2) =
            .ok ⟨Sum.ofInt kind (total + (p.2.count - p.1.count)),
              t.covered + (p.2.observedAt - p.1.observedAt), some last, false, t.defects⟩ ∧
            (last = p.2.observedAt ∨ ∃ l ∈ t.last, last = max l p.2.observedAt) := by
          simp only [Tally.take, increment, hmax, hwindow, if_false, hsum, hadd, ok_bind,
            Interval.widthMicros, hoverlap, hpast, Bool.or_self]
          rw [checkedAdd_of_lt (by omega), okOr_some, ok_bind]
          cases t.last with
          | none => exact ⟨_, rfl, .inl rfl⟩
          | some l => exact ⟨_, rfl, .inr ⟨l, rfl, rfl⟩⟩
        have hnext : ∀ l ∈ some last, ∀ q ∈ ps, l ≤ q.1.observedAt := by
          rintro l ⟨⟩ q hq
          have hq_after := (List.pairwise_cons.mp h.apart).1 q hq
          rcases hlast_eq with rfl | ⟨l, hl, rfl⟩
          · exact hq_after
          · exact max_le (hlast l hl q (List.mem_cons_of_mem p hq)) hq_after
        obtain ⟨t', hfold, hsum', hcovered, hoverlap', hdefects⟩ := @ih
          ⟨Sum.ofInt kind (total + (p.2.count - p.1.count)),
            t.covered + (p.2.observedAt - p.1.observedAt), some last, false, t.defects⟩
          (total + (p.2.count - p.1.count)) hrest rfl (by omega) rfl hnext (by rwa [add_assoc])
          (by rwa [add_assoc])
        refine ⟨t', by rw [htake, ok_bind, hfold], ?_, ?_, hoverlap', fun d => ?_⟩
        · rw [hsum', hkept, hgain_cons, add_assoc]
        · rw [hcovered, hkept, hspan_cons, add_assoc]
        · rw [hdefects]
          simp [not_lt.mpr hin]
      · have hkept : kept w (p :: ps) = kept w ps := by simp [kept, hin]
        have htake : t.take w (increment kind p.1 p.2) =
            .ok { t with defects := insert .boundary t.defects } := by
          rw [Tally.take, if_pos (.inl (by simpa [increment] using hin))]
          rfl
        rw [hkept] at hgain hspan
        obtain ⟨t', hfold, hsum', hcovered, hoverlap', hdefects⟩ := ih
          (t := { t with defects := insert .boundary t.defects }) hrest hsum htotal hoverlap
          (fun l hl q hq => hlast l hl q (List.mem_cons_of_mem p hq)) hgain hspan
        refine ⟨t', by rw [htake, ok_bind, hfold], by rw [hkept, hsum'], by rw [hkept, hcovered],
          hoverlap', fun d => ?_⟩
        rw [hdefects, Finset.mem_insert]
        have hout : p.1.observedAt < w.start := not_le.mp hin
        constructor
        · rintro ((rfl | hd) | ⟨rfl, q, hq, hlt⟩)
          · exact .inr ⟨rfl, p, List.mem_cons_self, hout⟩
          · exact .inl hd
          · exact .inr ⟨rfl, q, List.mem_cons_of_mem p hq, hlt⟩
        · rintro (hd | ⟨rfl, -⟩)
          · exact .inl (.inr hd)
          · exact .inl (.inl rfl)

/-! ### Projection -/

theorem rising_increments {maxGap : ℕ} {w : Interval} {points : List Sample}
    (h : points.Pairwise (fun a b => a.observedAt < b.observedAt)) :
    Rising w.stop (increments maxGap w points) where
  forward p hp := rel_of_neighbours h (List.mem_filter.mp hp).1
  before p hp := by
    have hp := (List.mem_filter.mp hp).2
    rw [Bool.and_eq_true, inside_iff] at hp
    exact hp.1.2
  rises p hp := by
    have hp := (List.mem_filter.mp hp).2
    simp only [linked, continues, Bool.and_eq_true, decide_eq_true_eq] at hp
    exact hp.2.1.2.2
  apart := by
    refine List.Pairwise.sublist List.filter_sublist ((neighbours_pairwise h).imp ?_)
    rintro p q (hsame | hlt)
    · rw [hsame]
    · exact hlt.le

/-- The points inside the window. -/
def inWindow (w : Interval) (samples : List Sample) : List Sample :=
  (latest samples).filter (fun s => inside s.observedAt w)

/-- The linked neighbours inside the window. -/
def links (maxGap : ℕ) (w : Interval) (samples : List Sample) : List (Sample × Sample) :=
  (neighbours (inWindow w samples)).filter (fun p => linked maxGap p.1 p.2)

theorem kept_increments {maxGap : ℕ} {w : Interval} {samples : List Sample}
    (h : samples.Pairwise Sample.Before) :
    kept w (increments maxGap w (latest samples)) = links maxGap w samples := by
  have hsorted := latest_sorted h
  rw [kept, increments, links, inWindow, neighbours_filter_inside w hsorted, List.filter_filter,
    List.filter_filter]
  refine List.filter_congr fun p hp => ?_
  have hforward : p.1.observedAt < p.2.observedAt := rel_of_neighbours hsorted hp
  rw [Bool.eq_iff_iff]
  simp only [Bool.and_eq_true, decide_eq_true_eq, inside_iff]
  constructor
  · rintro ⟨hstart, ⟨hlow, hhigh⟩, hlinked⟩
    exact ⟨hlinked, ⟨hstart, by omega⟩, hlow, hhigh⟩
  · rintro ⟨hlinked, ⟨hstart, -⟩, hlow, hhigh⟩
    exact ⟨hstart, ⟨hlow, hhigh⟩, hlinked⟩

/-- What a counter rises inside a window: its maximal runs of linked points, each from its first
reading to its last. -/
def increase (maxGap : ℕ) (w : Interval) (samples : List Sample) : ℤ :=
  (((inWindow w samples).splitBy (linked maxGap)).map (rise Sample.count)).sum

theorem gain_links (maxGap : ℕ) (w : Interval) (samples : List Sample) :
    gain (links maxGap w samples) = increase maxGap w samples :=
  relatedSum_eq_runs (linked maxGap) Sample.count (inWindow w samples)

theorem mergeSort_increments {kind : NumberKind} {stop : ℕ} {ps : List (Sample × Sample)}
    (h : Rising stop ps) :
    (ps.map (fun p => increment kind p.1 p.2)).mergeSort
        (fun a b => a.window.start < b.window.start ||
          (a.window.start = b.window.start && a.window.stop ≤ b.window.stop)) =
      ps.map (fun p => increment kind p.1 p.2) := by
  apply List.mergeSort_of_pairwise
  rw [List.pairwise_map]
  refine h.apart.imp_of_mem fun {p q} hp _ happart => ?_
  have hforward := h.forward p hp
  have hlt : p.1.observedAt < q.1.observedAt := by omega
  simp [increment, hlt]

/-- The bounds of what a window's links add up to. -/
theorem links_bounds {spec : SummarySpec} {kind : NumberKind} {w : Interval}
    {samples : List Sample} (hint : kind ≠ .f64) (hm : spec.metric = .counter kind .cumulative)
    (hw : w.widthMicros ≠ 0) (hstop : w.stop ≤ timestampMax) (hsamples : Canonical spec samples) :
    span (links (spec.maxGap.getD 0) w samples) < w.widthMicros ∧
      gain (links (spec.maxGap.getD 0) w samples) < if kind = .i64 then 2 ^ 127 else 2 ^ 128 := by
  have hrising : Rising w.stop (kept w (increments (spec.maxGap.getD 0) w (latest samples))) :=
    (rising_increments (latest_sorted hsamples.ordered)).sublist List.filter_sublist
  rw [kept_increments hsamples.ordered] at hrising
  have hstart : ∀ p ∈ links (spec.maxGap.getD 0) w samples, w.start ≤ p.1.observedAt := by
    intro p hp
    rw [← kept_increments hsamples.ordered] at hp
    simpa using (List.mem_filter.mp hp).2
  have hwidth : w.widthMicros = w.stop - w.start := rfl
  have hspan := hrising.span_lt hstart (by omega)
  refine ⟨by omega, ?_⟩
  have hmatches : ∀ p ∈ links (spec.maxGap.getD 0) w samples,
      spec.matches p.1 = true ∧ spec.matches p.2 = true := by
    intro p hp
    obtain ⟨h₁, h₂⟩ := mem_of_neighbours (List.mem_filter.mp hp).1
    exact ⟨hsamples.matches_ _ (latest_subset (List.mem_filter.mp h₁).1),
      hsamples.matches_ _ (latest_subset (List.mem_filter.mp h₂).1)⟩
  have hbound : ∀ p ∈ links (spec.maxGap.getD 0) w samples,
      p.2.count - p.1.count ≤ if kind = .i64 then 2 ^ 63 else 2 ^ 64 := by
    intro p hp
    have h₁ := Sample.count_bounds hint (hmatches p hp).1 hm
    have h₂ := Sample.count_bounds hint (hmatches p hp).2 hm
    omega
  have hgain := hrising.gain_le hbound (by split <;> omega)
  have hshort : span (links (spec.maxGap.getD 0) w samples) < 2 ^ 63 := by
    simp only [timestampMax] at hstop
    omega
  cases kind with
  | i64 =>
      simp only [if_true] at hgain ⊢
      omega
  | u64 =>
      simp only [reduceCtorEq, if_false] at hgain ⊢
      omega
  | f64 => exact absurd rfl hint

/-- The projection of a cumulative counter, whichever of its operations is asked for. -/
structure CounterBucket (spec : SummarySpec) (kind : NumberKind) (w : Interval)
    (samples : List Sample) (value : AggregateValue) (bucket : AggregateBucket) : Prop where
  value : bucket.value = if links (spec.maxGap.getD 0) w samples = [] then .missing else value
  covered : bucket.coveredMicros = span (links (spec.maxGap.getD 0) w samples)
  covered_lt : bucket.coveredMicros < w.widthMicros
  overlap : .overlap ∉ bucket.completeness
  reset : .resetBoundary ∈ bucket.completeness ↔ ∃ p ∈ neighbours (latest samples),
    inside p.2.observedAt w = true ∧ resets p.1 p.2 = true
  boundary : .boundary ∈ bucket.completeness ↔ ∃ p ∈ neighbours (latest samples),
    inside p.2.observedAt w = true ∧ linked (spec.maxGap.getD 0) p.1 p.2 = true ∧
      p.1.observedAt < w.start
  gaps : .gaps ∈ bucket.completeness

/-- What the points of a window add. -/
theorem pieces_points {spec : SummarySpec} {kind : NumberKind} (w : Interval)
    {samples : List Sample} (hint : kind ≠ .f64) (hm : spec.metric = .counter kind .cumulative)
    (hsamples : Canonical spec samples) :
    (pieces spec w (successive none (latest samples))).contributions =
        (increments (spec.maxGap.getD 0) w (latest samples)).map
          (fun p => increment kind p.1 p.2) ∧
      CounterDefects (spec.maxGap.getD 0) w none (latest samples)
        (pieces spec w (successive none (latest samples))).defects :=
  @pieces_counter spec kind w none (latest samples) hint hm
    (fun s hs => hsamples.matches_ s (latest_subset hs)) (latest_sorted hsamples.ordered)

theorem span_eq_zero {stop : ℕ} {ps : List (Sample × Sample)} (h : Rising stop ps) :
    span ps = 0 ↔ ps = [] := by
  cases ps with
  | nil => simp [span]
  | cons p ps =>
      have hforward := h.forward p List.mem_cons_self
      simp only [span, List.map_cons, List.sum_cons, reduceCtorEq, iff_false]
      omega

theorem project_counter {spec : SummarySpec} {kind : NumberKind} {w : Interval}
    {samples : List Sample} {op : AggregateOp} {value : AggregateValue}
    (hint : kind ≠ .f64) (hm : spec.metric = .counter kind .cumulative) (hw : w.widthMicros ≠ 0)
    (hstop : w.stop ≤ timestampMax) (hsamples : Canonical spec samples)
    (hop : op = .increase ∧
        value = .sum (Sum.ofInt kind (increase (spec.maxGap.getD 0) w samples)) ∨
      op = .rate ∧ value = .rate (Sum.ofInt kind (increase (spec.maxGap.getD 0) w samples))
        (span (links (spec.maxGap.getD 0) w samples))) :
    ∃ bucket, (summaryOf spec w (pieces spec w (successive none (latest samples)))).project op =
        .ok bucket ∧ CounterBucket spec kind w samples value bucket := by
  have hsorted := latest_sorted hsamples.ordered
  obtain ⟨hcontributions, hdefects⟩ := pieces_points w hint hm hsamples
  have hreset := hdefects.reset
  simp only [Option.toList_none, List.nil_append] at hreset
  generalize hpieces : pieces spec w (successive none (latest samples)) = a
    at hcontributions hdefects hreset ⊢
  have hrising := @rising_increments (spec.maxGap.getD 0) w _ hsorted
  have hkept := @kept_increments (spec.maxGap.getD 0) w _ hsamples.ordered
  obtain ⟨hspan, hgain⟩ := links_bounds hint hm hw hstop hsamples
  have hwidth : w.widthMicros < 2 ^ 63 := by
    simp only [Interval.widthMicros, timestampMax] at *
    omega
  obtain ⟨t, hfold, hsum, hcovered, hoverlap, htally⟩ :=
    @tally_fold kind w _ ⟨.zero kind, 0, none, false, a.defects⟩ 0 hint hrising (by cases kind <;> rfl)
      le_rfl rfl (by simp) (by rw [hkept, zero_add]; exact hgain) (by rw [hkept]; dsimp only; omega)
  have hsorted_items := @mergeSort_increments kind _ _ hrising
  rw [hkept, zero_add, gain_links] at hsum
  simp only [hkept, zero_add] at hcovered
  have hempty : t.covered = 0 ↔ links (spec.maxGap.getD 0) w samples = [] := by
    rw [hcovered]
    refine @span_eq_zero w.stop _ ?_
    rw [← hkept]
    exact hrising.sublist List.filter_sublist
  have hcounter : projectCounter kind a.contributions w op a.defects =
      .ok (if links (spec.maxGap.getD 0) w samples = [] then .missing else value, t.covered,
        t.defects) := by
    simp only [projectCounter, hcontributions, hsorted_items, hfold, ok_bind, hoverlap,
      Bool.false_eq_true, if_false]
    by_cases hnone : t.covered = 0
    · simp only [hnone, if_true, hempty.mp hnone]
      rfl
    · have hsome := mt hempty.mpr hnone
      simp only [hnone, hsome, if_false]
      rcases hop with ⟨rfl, rfl⟩ | ⟨rfl, rfl⟩
      · rw [hsum]
        rfl
      · rw [hsum, hcovered]
        rfl
  have hshort : t.covered < w.widthMicros := by omega
  refine ⟨⟨w, if links (spec.maxGap.getD 0) w samples = [] then .missing else value, a.valid,
    t.covered, insert .gaps t.defects⟩, ?_, ?_⟩
  · have hproject : (summaryOf spec w a).projectData op = .ok (if links (spec.maxGap.getD 0) w
        samples = [] then .missing else value, t.covered, t.defects) := by
      simp only [Summary.projectData, summaryOf, hm, dataOf, hcounter]
    have hkind : (summaryOf spec w a).isNumeric = false := by
      simp only [Summary.isNumeric, summaryOf, hm, dataOf]
    simp only [Summary.project, hproject, ok_bind, hkind]
    simp only [summaryOf, hshort]
    rfl
  · refine ⟨rfl, hcovered, hshort, ?_, ?_, ?_, Finset.mem_insert_self _ _⟩
    · simp [htally, hdefects.overlap]
    · simpa [htally] using hreset
    · have hlate : .boundary ∈ t.defects ↔
          ∃ p ∈ increments (spec.maxGap.getD 0) w (latest samples), p.1.observedAt < w.start := by
        simp [htally, hdefects.boundary]
      simp [hlate, increments, and_assoc]

/-! ### Whole windows -/

/-- A counter is summarised whenever its samples are within the bound. -/
theorem compute_counter {spec : SummarySpec} {kind : NumberKind} {w : Interval}
    {samples : List Sample} {maxItems : ℕ} (hint : kind ≠ .f64) (hspec : spec.validate = .ok ())
    (hm : spec.metric = .counter kind .cumulative) (hw : w.widthMicros ≠ 0)
    (hsamples : Canonical spec samples) (hlen : samples.length ≤ maxItems)
    (hmax : maxItems < 2 ^ 64) :
    Summary.compute spec w samples maxItems =
      .ok (summaryOf spec w (pieces spec w (successive none (latest samples)))) := by
  have hordered : SummaryBuilder.ordered spec.metric = true := by simp [hm, SummaryBuilder.ordered]
  have hsize : (summaryOf spec w (pieces spec w (successive none (latest samples)))).size ≤
      maxItems := by
    have hcontributions := (pieces_points w hint hm hsamples).1
    simp only [Summary.size, summaryOf, hm, dataOf, hcontributions, List.length_map]
    calc (increments (spec.maxGap.getD 0) w (latest samples)).length
        ≤ (neighbours (latest samples)).length := List.length_filter_le _ _
      _ ≤ (latest samples).length := by rw [length_neighbours]; exact Nat.sub_le _ _
      _ ≤ samples.length := (latest_sublist samples).length_le
      _ ≤ maxItems := hlen
  rw [compute_spec (by rw [hm]; exact hint) hspec hw hsamples (fun _ => hlen.trans_lt hmax), if_neg (not_lt.mpr hlen),
    hordered, pointsOf_true, Summary.within, if_pos hsize]

/-- Cumulative counters of integers telescope: what is projected as the increase is what the window's maximal
runs of linked points rise, no addition fails on the way, and every defect has its cause. A bucket
lacks the time up to its end, so it always reports gaps. -/
theorem counter_telescopes {spec : SummarySpec} {kind : NumberKind} {w : Interval}
    {samples : List Sample} {maxItems : ℕ} (hint : kind ≠ .f64) (hspec : spec.validate = .ok ())
    (hm : spec.metric = .counter kind .cumulative) (hw : w.widthMicros ≠ 0)
    (hstop : w.stop ≤ timestampMax) (hsamples : Canonical spec samples)
    (hlen : samples.length ≤ maxItems) (hmax : maxItems < 2 ^ 64) :
    ∃ summary, Summary.compute spec w samples maxItems = .ok summary ∧
      CounterDefects (spec.maxGap.getD 0) w none (latest samples) summary.defects ∧
      (∃ bucket, summary.project .increase = .ok bucket ∧ CounterBucket spec kind w samples
        (.sum (Sum.ofInt kind (increase (spec.maxGap.getD 0) w samples))) bucket) ∧
      ∃ bucket, summary.project .rate = .ok bucket ∧ CounterBucket spec kind w samples
        (.rate (Sum.ofInt kind (increase (spec.maxGap.getD 0) w samples))
          (span (links (spec.maxGap.getD 0) w samples))) bucket :=
  ⟨_, compute_counter hint hspec hm hw hsamples hlen hmax, (pieces_points w hint hm hsamples).2,
    project_counter hint hm hw hstop hsamples (.inl ⟨rfl, rfl⟩),
    project_counter hint hm hw hstop hsamples (.inr ⟨rfl, rfl⟩)⟩

/-- A counter of requests, read every two microseconds since its start. -/
def requestsSpec : SummarySpec where
  stream := ⟨⟨1, "plant"⟩, "gateway", "g1"⟩
  series := ⟨⟨⟨1, "plant"⟩, "requests", 1, "1", .counter .u64 .cumulative, ⟨∅, ∅, 0, 0, 0⟩⟩,
    "gateway", "r1", []⟩
  resolution := 10
  coverage := .observedOnly
  maxGap := some 5

def requestsSample (id : String) (at_ : ℕ) (value : UInt64) (h : 0 < at_ ∧ at_ < timestampMax) :
    Sample where
  stream := requestsSpec.stream
  series := requestsSpec.series
  id := id
  sequence := at_
  observedAt := at_
  interval := some ⟨0, at_, Nat.zero_le at_⟩
  reading := .valid (.number (.u64 value))
  valid :=
    { observed_lt := h.2
      scope := rfl
      accepts := by
        rintro v ⟨⟩
        rfl
      interval_stop := by
        rintro w ⟨⟩
        rfl
      counter_interval := by
        rintro n t ⟨⟩
        exact ⟨_, rfl, by simp⟩ }

def requestsSamples : List Sample :=
  [requestsSample "a" 4 10 (by decide), requestsSample "b" 6 13 (by decide)]

theorem requestsSamples_canonical : Canonical requestsSpec requestsSamples where
  matches_ := by
    intro s hs
    simp only [requestsSamples, List.mem_cons, List.not_mem_nil, or_false] at hs
    rcases hs with rfl | rfl <;> decide
  ordered := by
    simp only [requestsSamples, List.pairwise_cons, List.mem_singleton, forall_eq,
      List.not_mem_nil, false_implies, implies_true, List.Pairwise.nil, and_true]
    decide
  ids := by decide

theorem counter_telescopes_requests :
    ∃ summary, Summary.compute requestsSpec ⟨0, 10, by decide⟩ requestsSamples 100 = .ok summary ∧
      ∃ bucket, summary.project .increase = .ok bucket ∧ bucket.value = .sum (.u128 3) ∧
        bucket.coveredMicros = 2 := by
  obtain ⟨summary, hcompute, -, ⟨bucket, hproject, hbucket⟩, -⟩ :=
    @counter_telescopes requestsSpec .u64 ⟨0, 10, by decide⟩ requestsSamples 100 (by decide) (by decide) rfl
      (by decide) (by decide) requestsSamples_canonical (by decide) (by decide)
  refine ⟨summary, hcompute, bucket, hproject, hbucket.value, hbucket.covered⟩

/-- Every point is linked to the next one, and yet the bucket reports gaps. -/
theorem linked_requests_report_gaps :
    (∀ s ∈ requestsSamples, s.isValid = true) ∧
      (∀ p ∈ neighbours (latest requestsSamples), linked 5 p.1 p.2 = true) ∧
      ∃ summary bucket,
        Summary.compute requestsSpec ⟨0, 10, by decide⟩ requestsSamples 100 = .ok summary ∧
          summary.project .increase = .ok bucket ∧ .gaps ∈ bucket.completeness := by
  refine ⟨by decide, by decide, ?_⟩
  obtain ⟨bucket, hproject, hbucket⟩ := @project_counter requestsSpec .u64 ⟨0, 10, by decide⟩
    requestsSamples .increase _ (by decide) rfl (by decide) (by decide) requestsSamples_canonical
    (.inl ⟨rfl, rfl⟩)
  exact ⟨_, bucket, compute_counter (by decide) (by decide) rfl (by decide) requestsSamples_canonical
    (by decide) (by decide), hproject, hbucket.gaps⟩

end Rss.Timeseries
