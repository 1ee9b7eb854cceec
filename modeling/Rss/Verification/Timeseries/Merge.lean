import Rss.Verification.Timeseries.Statistics

/-! # Merged summaries are exact

A boundary inside a window changes the points on either side in one way only: the state that is
held across it is cut in two segments. -/

namespace Rss.Timeseries

/-! ### Points on either side of a boundary -/

/-- Up to the last sample before it, a later sample only tells the last point its time. -/
theorem trace_split (single : Bool) (previous : Option Sample) (p : Sample) (xs : List Sample) :
    ∃ init r q, q ∈ p :: xs ∧ (p :: xs).getLast? = some q ∧
      trace single previous p xs = init ++ [⟨r, q, none⟩] ∧
      (∀ x ∈ init, x.sample ∈ p :: xs ∧ ∃ s ∈ xs, x.next = some s.observedAt) ∧
      ∀ y ys, q.observedAt ≠ y.observedAt → trace single previous p (xs ++ y :: ys) =
        init ++ ⟨r, q, some y.observedAt⟩ :: trace single (some q) y ys := by
  induction xs generalizing previous p with
  | nil =>
      refine ⟨[], previous, p, List.mem_cons_self, rfl, rfl, by simp, fun y ys hne => ?_⟩
      simp [trace, hne]
  | cons s xs ih =>
      by_cases hshared : (single && decide (p.observedAt = s.observedAt)) = true
      · obtain ⟨init, r, q, hq, hlast, htrace, hinit, hsplit⟩ := ih previous s
        refine ⟨init, r, q, List.mem_cons_of_mem p hq, by simpa using hlast, ?_, ?_, ?_⟩
        · rw [trace, if_pos hshared, htrace]
        · intro x hx
          obtain ⟨hmem, t, ht, hnext⟩ := hinit x hx
          exact ⟨List.mem_cons_of_mem p hmem, t, List.mem_cons_of_mem s ht, hnext⟩
        · intro y ys hne
          rw [List.cons_append, trace, if_pos hshared, hsplit y ys hne]
      · obtain ⟨init, r, q, hq, hlast, htrace, hinit, hsplit⟩ := ih (some p) s
        refine ⟨⟨previous, p, some s.observedAt⟩ :: init, r, q, List.mem_cons_of_mem p hq,
          by simpa using hlast, ?_, ?_, ?_⟩
        · rw [trace, if_neg hshared, htrace, List.cons_append]
        · intro x hx
          rcases List.mem_cons.mp hx with rfl | hx
          · exact ⟨List.mem_cons_self, s, List.mem_cons_self, rfl⟩
          · obtain ⟨hmem, t, ht, hnext⟩ := hinit x hx
            exact ⟨List.mem_cons_of_mem p hmem, t, List.mem_cons_of_mem s ht, hnext⟩
        · intro y ys hne
          rw [List.cons_append, trace, if_neg hshared, hsplit y ys hne, List.cons_append]

theorem trace_mem {single : Bool} {previous : Option Sample} {p : Sample} {xs : List Sample}
    {x : Point} (h : x ∈ trace single previous p xs) : x.sample ∈ p :: xs := by
  obtain ⟨init, r, q, hq, -, htrace, hinit, -⟩ := trace_split single previous p xs
  rw [htrace, List.mem_append, List.mem_singleton] at h
  rcases h with h | rfl
  · exact (hinit x h).1
  · exact hq

theorem pointsOf_mem {single : Bool} {xs : List Sample} {x : Point} (h : x ∈ pointsOf single xs) :
    x.sample ∈ xs := by
  cases xs with
  | nil => cases h
  | cons p xs => exact trace_mem h

theorem pieces_congr {spec : SummarySpec} {w w' : Interval} {xs : List Point}
    (h : ∀ x ∈ xs, piece spec w x = piece spec w' x) : pieces spec w xs = pieces spec w' xs := by
  induction xs with
  | nil => rfl
  | cons x xs ih =>
      rw [pieces_cons, pieces_cons, h x List.mem_cons_self,
        ih (fun y hy => h y (List.mem_cons_of_mem x hy))]

/-! ### Pieces in two windows -/

theorem transitionInto_congr {spec : SummarySpec} {w w' : Interval} {previous : Option Sample}
    {p : Sample} (hin : inside p.observedAt w = inside p.observedAt w') (value : StateValue) :
    transitionInto spec w previous p value = transitionInto spec w' previous p value := by
  unfold transitionInto
  rw [hin]

/-- Two windows that agree on a point and on its segment agree on all it adds. -/
theorem piece_congr {spec : SummarySpec} {w w' : Interval} {previous : Option Sample} {p : Sample}
    {next next' : Option ℕ} (hin : inside p.observedAt w = inside p.observedAt w')
    (hstop : p.observedAt < w.stop ↔ p.observedAt < w'.stop)
    (hsegment : heldSegment spec w p next = heldSegment spec w' p next') :
    piece spec w ⟨previous, p, next⟩ = piece spec w' ⟨previous, p, next'⟩ := by
  have htransition : transitionOf spec w previous p = transitionOf spec w' previous p := by
    unfold transitionOf
    simp only [transitionInto_congr hin, hstop]
  simp only [piece, hin, hsegment, htransition]

/-- A segment is determined by its bounds. -/
theorem heldSegment_congr {spec : SummarySpec} {w w' : Interval} {p : Sample}
    {next next' : Option ℕ} (hstop : p.observedAt < w.stop ↔ p.observedAt < w'.stop)
    (hstart : max p.observedAt w.start = max p.observedAt w'.start)
    (hend : holdEnd spec w p.observedAt next = holdEnd spec w' p.observedAt next') :
    heldSegment spec w p next = heldSegment spec w' p next' := by
  unfold heldSegment
  simp only [hstop, hstart, hend]

/-- A window and the one after it. -/
structure Adjacent (w₁ w₂ w : Interval) : Prop where
  start : w.start = w₁.start
  inner : w₁.stop = w₂.start
  stop : w.stop = w₂.stop

variable {spec : SummarySpec} {w₁ w₂ w : Interval}

theorem Adjacent.le (h : Adjacent w₁ w₂ w) : w₁.stop ≤ w.stop := by
  rw [h.stop, h.inner]
  exact w₂.le

theorem Adjacent.inside_left (h : Adjacent w₁ w₂ w) {t : ℕ} (ht : t < w₁.stop) :
    inside t w = inside t w₁ := by
  have := h.le
  simp only [inside, h.start, ht, ht.trans_le h.le]

theorem Adjacent.inside_right (h : Adjacent w₁ w₂ w) {t : ℕ} (ht : w₁.stop ≤ t) :
    inside t w = inside t w₂ := by
  have h₁ : w₁.start ≤ t := w₁.le.trans ht
  have h₂ : w₂.start ≤ t := h.inner ▸ ht
  simp only [inside, h.start, h.stop, h₁, h₂]

/-- Before the last point of the first window nothing changes. -/
theorem Adjacent.piece_left (h : Adjacent w₁ w₂ w) {x : Point} (hx : x.sample.observedAt < w₁.stop)
    {t : ℕ} (hnext : x.next = some t) (ht : t < w₁.stop) :
    piece spec w x = piece spec w₁ x := by
  obtain ⟨previous, p, next⟩ := x
  dsimp only at hx hnext
  subst hnext
  have hle := h.le
  have hstop : p.observedAt < w.stop ↔ p.observedAt < w₁.stop :=
    ⟨fun _ => hx, fun _ => hx.trans_le hle⟩
  refine piece_congr (h.inside_left hx) hstop (heldSegment_congr hstop (by rw [h.start]) ?_)
  unfold holdEnd
  cases spec.coverage with
  | observedOnly => rfl
  | holdLast n =>
      simp only [Option.getD_some]
      omega

/-- From the boundary on nothing changes either. -/
theorem Adjacent.piece_right (h : Adjacent w₁ w₂ w) {x : Point}
    (hx : w₁.stop ≤ x.sample.observedAt) : piece spec w x = piece spec w₂ x := by
  obtain ⟨previous, p, next⟩ := x
  dsimp only at hx
  have hstop : p.observedAt < w.stop ↔ p.observedAt < w₂.stop := by rw [h.stop]
  have hstart : max p.observedAt w.start = max p.observedAt w₂.start := by
    rw [h.start, ← h.inner, max_eq_left (w₁.le.trans hx), max_eq_left hx]
  refine piece_congr (h.inside_right hx) hstop (heldSegment_congr hstop hstart ?_)
  unfold holdEnd
  rw [h.stop]

/-- Points past the window add nothing. -/
theorem piece_past {x : Point} (hx : w.stop ≤ x.sample.observedAt) :
    piece spec w x = .empty := by
  have hin : inside x.sample.observedAt w = false := by
    simp [inside, not_lt.mpr hx]
  have hsegment : heldSegment spec w x.sample x.next = none := by
    unfold heldSegment
    cases x.sample.stateValue with
    | none => rfl
    | some value => simp [not_lt.mpr hx]
  have htransition : transitionOf spec w x.previous x.sample = none := by
    unfold transitionOf
    cases x.sample.stateValue with
    | none => rfl
    | some value => simp [not_lt.mpr hx]
  simp [piece, hin, hsegment, htransition, Piece.empty]

/-! ### A state held across the boundary -/

/-- The second list is the first, up to one segment that is cut in two. -/
inductive Cut (before after : List StateSegment) : Prop where
  | same (h : before = after)
  | cut {l r : List StateSegment} {v : StateValue} {s b e : ℕ} (hs : s ≤ b) (he : b ≤ e)
      (hbefore : before = l ++ ⟨v, ⟨s, e, hs.trans he⟩⟩ :: r)
      (hafter : after = l ++ ⟨v, ⟨s, b, hs⟩⟩ :: ⟨v, ⟨b, e, he⟩⟩ :: r)

theorem Cut.append {before after : List StateSegment} (h : Cut before after)
    (l r : List StateSegment) : Cut (l ++ (before ++ r)) (l ++ (after ++ r)) := by
  cases h with
  | same h => exact .same (by rw [h])
  | @cut l' r' v s b e hs he hbefore hafter =>
      exact @Cut.cut _ _ (l ++ l') (r' ++ r) v s b e hs he (by simp [hbefore]) (by simp [hafter])

/-- A state from one time to another, absent when they are out of order. -/
def segmentOf (v : StateValue) (start stop : ℕ) : Option StateSegment :=
  if h : start ≤ stop then some ⟨v, ⟨start, stop, h⟩⟩ else none

theorem heldSegment_eq_segmentOf {q : Sample} {next : Option ℕ} {v : StateValue}
    (hv : q.stateValue = some v) (hq : q.observedAt < w.stop) :
    heldSegment spec w q next =
      segmentOf v (max q.observedAt w.start) (holdEnd spec w q.observedAt next) := by
  simp only [heldSegment, hv, Option.bind_some, segmentOf, hq, true_and]

/-- A hold that ends before the boundary is one span, a longer one is two. -/
theorem span_cut {v : StateValue} {s b e : ℕ} (hs : s ≤ b) :
    Cut (segmentOf v s e).toList ((segmentOf v s (min e b)).toList ++ (segmentOf v b e).toList) := by
  by_cases hlt : e < b
  · have hnone : segmentOf v b e = none := dif_neg (not_le.mpr hlt)
    rw [min_eq_left hlt.le, hnone]
    exact .same (by simp)
  · have hbe : b ≤ e := not_lt.mp hlt
    rw [min_eq_right hbe]
    simp only [segmentOf, dif_pos hs, dif_pos hbe, dif_pos (hs.trans hbe)]
    exact @Cut.cut _ _ [] [] v s b e hs hbe rfl rfl

/-- The segment of the last point before the boundary, whole and in its two windows. -/
theorem Adjacent.heldSegment_cut (h : Adjacent w₁ w₂ w) {q : Sample} (hq : q.observedAt < w₁.stop)
    {next : Option ℕ} (hnext : ∀ t ∈ next, w₁.stop ≤ t) :
    Cut (heldSegment spec w q next).toList
      ((heldSegment spec w₁ q none).toList ++ (heldSegment spec w₂ q next).toList) := by
  have hle := h.le
  cases hv : q.stateValue with
  | none => exact .same (by simp [heldSegment, hv])
  | some v =>
      have hnext' : w₁.stop ≤ next.getD w₂.stop := by
        cases next with
        | none => exact h.stop ▸ hle
        | some t => exact hnext t rfl
      have hend₂ : holdEnd spec w₂ q.observedAt next = holdEnd spec w q.observedAt next := by
        simp only [holdEnd, h.stop]
      have hend₁ : holdEnd spec w₁ q.observedAt none =
          min (holdEnd spec w q.observedAt next) w₁.stop := by
        unfold holdEnd
        rw [h.stop] at hle ⊢
        cases spec.coverage with
        | observedOnly => exact (min_eq_left hq.le).symm
        | holdLast n =>
            simp only [Option.getD_none]
            omega
      have hstart₂ : max q.observedAt w₂.start = w₁.stop := by
        rw [← h.inner, max_eq_right hq.le]
      rw [heldSegment_eq_segmentOf hv (hq.trans_le hle), heldSegment_eq_segmentOf hv hq,
        heldSegment_eq_segmentOf hv (hq.trans_le (h.stop ▸ hle)), hend₁, hend₂, hstart₂, h.start]
      exact span_cut (max_le hq.le w₁.le)

/-- All that the last point before the boundary adds. -/
theorem Adjacent.piece_last (h : Adjacent w₁ w₂ w) {q : Sample} (hq : q.observedAt < w₁.stop)
    {previous : Option Sample} {next : Option ℕ} (hnext : ∀ t ∈ next, w₁.stop ≤ t) :
    ∃ segments, Cut (piece spec w ⟨previous, q, next⟩).segments segments ∧
      piece spec w₁ ⟨previous, q, none⟩ ++ piece spec w₂ ⟨none, q, next⟩ =
        { piece spec w ⟨previous, q, next⟩ with segments } := by
  have hle := h.le
  have hin₂ : inside q.observedAt w₂ = false := by
    simp [inside, ← h.inner, not_le.mpr hq]
  have hin := h.inside_left hq
  have htransition₂ : transitionOf spec w₂ none q = none := by
    unfold transitionOf transitionInto
    cases q.stateValue <;> simp
  have htransition : transitionOf spec w previous q = transitionOf spec w₁ previous q := by
    unfold transitionOf
    simp only [transitionInto_congr hin, hq, hq.trans_le hle]
  refine ⟨_, h.heldSegment_cut hq hnext, ?_⟩
  simp [Piece.append_def, Piece.append, piece, hin₂, hin, htransition, htransition₂]

/-! ### Projecting a cut segment -/

/-- Two checked additions are one. -/
theorem checkedAdd_checkedAdd (a x y : ℕ) :
    (okOr (checkedAdd 64 a x) Error.numericRange >>= fun t =>
      okOr (checkedAdd 64 t y) Error.numericRange) =
        okOr (checkedAdd 64 a (x + y)) Error.numericRange := by
  unfold checkedAdd
  by_cases hx : a + x < 2 ^ 64
  · simp only [if_pos hx, okOr_some, ok_bind, Nat.add_assoc]
  · rw [if_neg hx, if_neg (show ¬ a + (x + y) < 2 ^ 64 by omega)]
    rfl

/-- Time added to a state in two parts. -/
theorem addDuration_add {v : StateValue} {x y : ℕ} (h : x + y < 2 ^ 64)
    (ds : List StateDuration) :
    (addDuration v x ds >>= addDuration v y) = addDuration v (x + y) ds := by
  induction ds with
  | nil => simp [addDuration, checkedAdd_of_lt h]
  | cons d ds ih =>
      by_cases hd : d.value = v
      · have hsum := checkedAdd_checkedAdd d.micros x y
        simp only [addDuration, if_pos hd]
        rw [← hsum]
        cases okOr (checkedAdd 64 d.micros x) Error.numericRange with
        | error e => rfl
        | ok t => simp [addDuration, hd]
      · simp only [addDuration, if_neg hd]
        rw [← ih]
        cases addDuration v x ds with
        | error e => rfl
        | ok ds' => simp [addDuration, hd]

/-- A segment that follows one of the same state lengthens it. -/
theorem compactInto_snoc {compact : List StateSegment} {v : StateValue} {l m e : ℕ} (hl : l ≤ m)
    (he : m ≤ e) : compactInto (compact ++ [⟨v, ⟨l, m, hl⟩⟩]) ⟨v, ⟨m, e, he⟩⟩ =
      .ok (compact ++ [⟨v, ⟨l, e, hl.trans he⟩⟩]) := by
  simp [compactInto, Interval.new_of_le (hl.trans he)]

theorem compactInto_compactInto {v : StateValue} {s b e : ℕ} (hs : s ≤ b) (he : b ≤ e)
    (compact : List StateSegment) :
    (compactInto compact ⟨v, ⟨s, b, hs⟩⟩ >>= fun c => compactInto c ⟨v, ⟨b, e, he⟩⟩) =
      compactInto compact ⟨v, ⟨s, e, hs.trans he⟩⟩ := by
  have hnew : ∀ {t : ℕ} (ht : s ≤ t),
      compactInto compact ⟨v, ⟨s, t, ht⟩⟩ = .ok (compact ++ [⟨v, ⟨s, t, ht⟩⟩]) ∨
        ∃ init l, ∃ hl : l ≤ s, compact = init ++ [⟨v, ⟨l, s, hl⟩⟩] := by
    intro t ht
    rcases List.eq_nil_or_concat compact with rfl | ⟨init, ⟨value, l, m, hl⟩, rfl⟩
    · exact .inl rfl
    · rw [List.concat_eq_append]
      by_cases hmeet : value = v ∧ m = s
      · obtain ⟨rfl, rfl⟩ := hmeet
        exact .inr ⟨init, l, hl, rfl⟩
      · exact .inl (by simp [compactInto, hmeet])
  rcases hnew hs with hs' | ⟨init, l, hl, rfl⟩
  · rcases hnew (hs.trans he) with he' | ⟨init, l, hl, rfl⟩
    · rw [hs', he', ok_bind, compactInto_snoc]
    · rw [compactInto_snoc, compactInto_snoc, ok_bind, compactInto_snoc]
  · rw [compactInto_snoc, compactInto_snoc, ok_bind, compactInto_snoc]

/-- All failures of a step are overflows. -/
theorem compactInto_ok (compact : List StateSegment) (s : StateSegment) :
    ∃ c, compactInto compact s = .ok c := by
  unfold compactInto
  split
  · split
    · rename_i last _ hmeet
      rw [Interval.new_of_le (last.window.le.trans (hmeet.2.le.trans s.window.le))]
      exact ⟨_, rfl⟩
    · exact ⟨_, rfl⟩
  · exact ⟨_, rfl⟩

theorem addDuration_error {v : StateValue} {x : ℕ} {ds : List StateDuration} {e : Error}
    (h : addDuration v x ds = .error e) : e = .numericRange := by
  induction ds with
  | nil => cases h
  | cons d ds ih =>
      rw [addDuration] at h
      split at h
      · rcases bind_eq_error.mp h with h | ⟨t, -, h⟩
        · exact (okOr_eq_error.mp h).2
        · cases h
      · rcases bind_eq_error.mp h with h | ⟨t, -, h⟩
        · exact ih h
        · cases h

theorem Timeline.take_error {t : Timeline} {s : StateSegment} {e : Error}
    (h : t.take s = .error e) : e = .numericRange := by
  rcases bind_eq_error.mp h with h | ⟨covered, -, h⟩
  · exact (okOr_eq_error.mp h).2
  · rcases bind_eq_error.mp h with h | ⟨durations, -, h⟩
    · exact addDuration_error h
    · obtain ⟨c, hc⟩ := compactInto_ok t.compact s
      rw [hc] at h
      cases h

theorem Timeline.take_covered {t t' : Timeline} {s : StateSegment} (h : t.take s = .ok t') :
    t'.covered = t.covered + s.window.widthMicros := by
  obtain ⟨covered, hcovered, h⟩ := bind_eq_ok.mp h
  obtain ⟨durations, -, h⟩ := bind_eq_ok.mp h
  obtain ⟨compact, -, h⟩ := bind_eq_ok.mp h
  rw [← Except.ok.inj h]
  exact (checkedAdd_eq_some.mp (okOr_eq_ok.mp hcovered)).1

theorem Timeline.take_overflow {t : Timeline} {s : StateSegment}
    (h : ¬ t.covered + s.window.widthMicros < 2 ^ 64) : t.take s = .error .numericRange := by
  rw [Timeline.take, checkedAdd, if_neg h]
  rfl

/-- Two parts of a segment leave the timeline as the whole does. -/
theorem Timeline.take_take {v : StateValue} {s b e : ℕ} (hs : s ≤ b) (he : b ≤ e) (t : Timeline) :
    (t.take ⟨v, ⟨s, b, hs⟩⟩ >>= fun t => t.take ⟨v, ⟨b, e, he⟩⟩) =
      t.take ⟨v, ⟨s, e, hs.trans he⟩⟩ := by
  have hwidth : (b - s) + (e - b) = e - s := by omega
  by_cases hfits : t.covered + (e - s) < 2 ^ 64
  · have hb : t.covered + (b - s) < 2 ^ 64 := by omega
    have hdurations := @addDuration_add v (b - s) (e - b) (by omega) t.durations
    rw [hwidth] at hdurations
    have hcompact := @compactInto_compactInto v s b e hs he t.compact
    simp only [Timeline.take, Interval.widthMicros, checkedAdd_of_lt hfits, checkedAdd_of_lt hb,
      okOr_some, ok_bind, ← hdurations, ← hcompact, bind_assoc]
    cases addDuration v (b - s) t.durations with
    | error e => rfl
    | ok ds =>
        obtain ⟨c, hc⟩ := compactInto_ok t.compact ⟨v, ⟨s, b, hs⟩⟩
        have hcovered : t.covered + (b - s) + (e - b) < 2 ^ 64 := by omega
        simp only [ok_bind, hc, pure_bind, checkedAdd_of_lt hcovered, okOr_some]
        rw [Nat.add_assoc, hwidth]
  · rw [@Timeline.take_overflow t ⟨v, ⟨s, e, hs.trans he⟩⟩ hfits]
    cases hfirst : t.take ⟨v, ⟨s, b, hs⟩⟩ with
    | error e =>
        rw [Timeline.take_error hfirst]
        rfl
    | ok t' =>
        have hcovered := Timeline.take_covered hfirst
        simp only [Interval.widthMicros] at hcovered
        have hlate : ¬ t'.covered + (e - b) < 2 ^ 64 := by omega
        exact @Timeline.take_overflow t' ⟨v, ⟨b, e, he⟩⟩ hlate

theorem projectState_cut {before after : List StateSegment} (h : Cut before after)
    (transitions : List Transition) (op : AggregateOp) :
    projectState after transitions op = projectState before transitions op := by
  cases h with
  | same h => rw [h]
  | @cut l r v s b e hs he hbefore hafter =>
      have hfold : after.foldlM Timeline.take ⟨[], [], 0⟩ =
          before.foldlM Timeline.take ⟨[], [], 0⟩ := by
        rw [hbefore, hafter, List.foldlM_append, List.foldlM_append]
        refine bind_congr (fun t => ?_)
        rw [List.foldlM_cons, List.foldlM_cons, ← Timeline.take_take hs he t, bind_assoc]
        exact bind_congr (fun t => List.foldlM_cons)
      have hempty : after.isEmpty = before.isEmpty := by
        rw [hbefore, hafter]
        cases l <;> rfl
      rw [projectState, projectState, hfold, hempty]

/-- Summaries that differ in one cut project alike. -/
theorem project_cut {a : Piece} {segments : List StateSegment} (h : Cut a.segments segments)
    (op : AggregateOp) :
    (summaryOf spec w { a with segments }).project op = (summaryOf spec w a).project op := by
  have hdata : (summaryOf spec w { a with segments }).projectData op =
      (summaryOf spec w a).projectData op := by
    simp only [Summary.projectData, summaryOf, dataOf]
    cases spec.metric with
    | bool => simp only [projectState_cut h]
    | state members => simp only [projectState_cut h]
    | _ => rfl
  have hnumeric : (summaryOf spec w { a with segments }).isNumeric =
      (summaryOf spec w a).isNumeric := by
    simp only [Summary.isNumeric, summaryOf, dataOf]
    cases spec.metric <;> rfl
  rw [Summary.project, Summary.project, hdata, hnumeric]
  rfl

/-! ### Splitting the samples -/

/-- Samples past the window make no difference. -/
theorem pieces_past {single : Bool} {xs zs : List Sample} (hx : ∀ s ∈ xs, s.observedAt < w.stop)
    (hz : ∀ s ∈ zs, w.stop ≤ s.observedAt) :
    pieces spec w (pointsOf single (xs ++ zs)) = pieces spec w (pointsOf single xs) := by
  have hempty : ∀ {ps : List Point}, (∀ x ∈ ps, w.stop ≤ x.sample.observedAt) →
      pieces spec w ps = .empty := by
    intro ps hps
    induction ps with
    | nil => rfl
    | cons x ps ih =>
        rw [pieces_cons, piece_past (hps x List.mem_cons_self), Piece.empty_append]
        exact ih (fun y hy => hps y (List.mem_cons_of_mem x hy))
  match xs, zs with
  | [], zs => exact hempty (fun x h => hz _ (pointsOf_mem h))
  | xs, [] => rw [List.append_nil]
  | p :: xs, z :: zs =>
      obtain ⟨init, r, q, hq, -, htrace, -, hsplit⟩ := trace_split single none p xs
      have hqlt := hx q hq
      have hzle := hz z List.mem_cons_self
      have hlast : piece spec w ⟨r, q, some z.observedAt⟩ = piece spec w ⟨r, q, none⟩ := by
        refine piece_congr rfl Iff.rfl (heldSegment_congr Iff.rfl rfl ?_)
        unfold holdEnd
        cases spec.coverage with
        | observedOnly => rfl
        | holdLast n =>
            simp only [Option.getD_some, Option.getD_none]
            omega
      rw [List.cons_append, pointsOf, pointsOf, htrace, hsplit z zs (by omega), pieces_append,
        pieces_append, pieces_cons, pieces_cons, hlast, pieces_nil,
        hempty (fun x h => hz _ (trace_mem h))]

/-- The pieces of two adjacent windows, the second begun with the last sample before it, are
those of the joined window up to one cut. -/
theorem Adjacent.pieces_split (h : Adjacent w₁ w₂ w) {single : Bool} {xs ys : List Sample}
    (hx : ∀ s ∈ xs, s.observedAt < w₁.stop) (hy : ∀ s ∈ ys, w₁.stop ≤ s.observedAt) :
    ∃ segments, Cut (pieces spec w (pointsOf single (xs ++ ys))).segments segments ∧
      pieces spec w₁ (pointsOf single xs) ++
          pieces spec w₂ (pointsOf single (xs.getLast?.toList ++ ys)) =
        { pieces spec w (pointsOf single (xs ++ ys)) with segments } := by
  cases xs with
  | nil =>
      refine ⟨_, .same rfl, ?_⟩
      rw [List.getLast?_nil, Option.toList_none, List.nil_append, pointsOf, pieces_nil,
        Piece.empty_append]
      exact pieces_congr (fun x hx => (h.piece_right (hy _ (pointsOf_mem hx))).symm)
  | cons p xs =>
      obtain ⟨init, r, q, hq, hlast, htrace, hinit, hsplit⟩ := trace_split single none p xs
      have hqlt := hx q hq
      have hleft : pieces spec w init = pieces spec w₁ init := by
        refine pieces_congr (fun x hmem => ?_)
        obtain ⟨hsample, s, hs, hnext⟩ := hinit x hmem
        exact h.piece_left (hx _ hsample) hnext (hx s (List.mem_cons_of_mem p hs))
      -- the points from the last sample before the boundary on, in the second window and whole
      obtain ⟨next, rest, hnext, hright, hsecond, hwhole⟩ :
          ∃ next rest, (∀ t ∈ next, w₁.stop ≤ t) ∧
            (∀ x ∈ rest, w₁.stop ≤ (x : Point).sample.observedAt) ∧
            pointsOf single (q :: ys) = ⟨none, q, next⟩ :: rest ∧
            trace single none p (xs ++ ys) = init ++ ⟨r, q, next⟩ :: rest := by
        cases ys with
        | nil => exact ⟨none, [], by simp, by simp, rfl, by rw [List.append_nil, htrace]⟩
        | cons y ys =>
            have hyle := hy y List.mem_cons_self
            have hne : q.observedAt ≠ y.observedAt := by omega
            refine ⟨some y.observedAt, trace single (some q) y ys, by simpa using hyle,
              fun x hmem => hy _ (trace_mem hmem), ?_, hsplit y ys hne⟩
            simp [pointsOf, trace, hne]
      obtain ⟨segments, hcut, hpiece⟩ := @Adjacent.piece_last spec w₁ w₂ w h q hqlt r next hnext
      refine ⟨(pieces spec w init).segments ++ (segments ++ (pieces spec w rest).segments), ?_, ?_⟩
      · rw [List.cons_append, pointsOf, hwhole, pieces_append, pieces_cons]
        exact hcut.append _ _
      · rw [hlast, Option.toList_some, List.singleton_append, hsecond, List.cons_append, pointsOf,
          pointsOf, htrace, hwhole, pieces_append, pieces_append, pieces_cons, pieces_cons,
          pieces_cons, pieces_nil, Piece.append_empty, ← hleft,
          ← pieces_congr (fun x hmem => h.piece_right (hright x hmem)), Piece.append_assoc,
          ← Piece.append_assoc (piece spec w₁ _), hpiece]
        rfl

/-- Ordered samples before a time come before the others. -/
theorem filter_split {samples : List Sample} (h : samples.Pairwise Sample.Before) (t : ℕ) :
    samples.filter (fun s => s.observedAt < t) ++ samples.filter (fun s => t ≤ s.observedAt) =
      samples := by
  induction samples with
  | nil => rfl
  | cons s rest ih =>
      obtain ⟨hfirst, hrest⟩ := List.pairwise_cons.mp h
      by_cases hs : s.observedAt < t
      · have hnot : ¬ t ≤ s.observedAt := not_le.mpr hs
        simp only [List.filter_cons, hs, hnot, decide_true, decide_false, if_true,
          List.cons_append, Bool.false_eq_true, if_false, ih hrest]
      · have hle : t ≤ s.observedAt := not_lt.mp hs
        have hnone : rest.filter (fun s => s.observedAt < t) = [] := by
          rw [List.filter_eq_nil_iff]
          intro x hx
          have := (hfirst x hx).le
          simp only [decide_eq_true_eq]
          omega
        have hall : rest.filter (fun s => t ≤ s.observedAt) = rest := by
          rw [List.filter_eq_self]
          intro x hx
          have := (hfirst x hx).le
          simp only [decide_eq_true_eq]
          omega
        simp [hs, hle, hnone, hall]

theorem Canonical.sublist {xs ys : List Sample} (h : Canonical spec ys) (hsub : xs.Sublist ys) :
    Canonical spec xs where
  matches_ s hs := h.matches_ s (hsub.subset hs)
  ordered := h.ordered.sublist hsub
  ids := h.ids.sublist (hsub.map _)

/-- The samples before the second window. -/
def earlier (w₂ : Interval) (samples : List Sample) : List Sample :=
  samples.filter (fun s => s.observedAt < w₂.start)

/-- The last sample before the second window, and those in it. -/
def later (w₂ : Interval) (samples : List Sample) : List Sample :=
  (earlier w₂ samples).getLast?.toList ++ samples.filter (fun s => inside s.observedAt w₂)

/-- Before, within and past the second window. -/
theorem samples_split {samples : List Sample} (h : samples.Pairwise Sample.Before) :
    earlier w₂ samples ++ (samples.filter (fun s => inside s.observedAt w₂) ++
      samples.filter (fun s => w₂.stop ≤ s.observedAt)) = samples := by
  have hlate := filter_split
    (h.sublist (@List.filter_sublist _ (fun s => w₂.start ≤ s.observedAt) _)) w₂.stop
  have hinside : ∀ s : Sample, (decide (s.observedAt < w₂.stop) && decide (w₂.start ≤ s.observedAt)) =
      inside s.observedAt w₂ := fun s => Bool.and_comm _ _
  have hpast : ∀ s : Sample, (decide (w₂.stop ≤ s.observedAt) && decide (w₂.start ≤ s.observedAt)) =
      decide (w₂.stop ≤ s.observedAt) := by
    intro s
    by_cases hs : w₂.stop ≤ s.observedAt
    · simp [hs, w₂.le.trans hs]
    · simp [hs]
  rw [List.filter_filter, List.filter_filter] at hlate
  simp only [hinside, hpast] at hlate
  rw [hlate]
  exact filter_split h w₂.start

theorem later_sublist (w₂ : Interval) {samples : List Sample}
    (h : samples.Pairwise Sample.Before) : (later w₂ samples).Sublist samples := by
  have hlast : (earlier w₂ samples).getLast?.toList.Sublist (earlier w₂ samples) := by
    cases hl : (earlier w₂ samples).getLast? with
    | none => simp
    | some q => simpa using List.mem_of_getLast? hl
  have hsub := List.Sublist.append hlast (List.sublist_append_left
    (samples.filter (fun s => inside s.observedAt w₂))
    (samples.filter (fun s => w₂.stop ≤ s.observedAt)))
  rwa [samples_split h] at hsub

/-- Only the last sample before the second window is read twice. -/
theorem length_split (w₂ : Interval) {samples : List Sample}
    (h : samples.Pairwise Sample.Before) :
    (earlier w₂ samples).length + (later w₂ samples).length ≤ samples.length + 1 := by
  have hsplit := congrArg List.length (@samples_split w₂ samples h)
  have hlast : (earlier w₂ samples).getLast?.toList.length ≤ 1 := by
    cases (earlier w₂ samples).getLast? <;> simp
  simp only [later, List.length_append] at hsplit ⊢
  omega

/-- What a computed summary is. -/
theorem compute_pieces {samples : List Sample} {maxItems : ℕ} (hint : spec.metric.Integral)
    (hspec : spec.validate = .ok ()) (hw : w.widthMicros ≠ 0) (hsamples : Canonical spec samples)
    (hmax : 3 * samples.length + 1 ≤ maxItems) (hlen : samples.length < 2 ^ 64) :
    ∃ a : Piece, Summary.compute spec w samples maxItems = .ok (summaryOf spec w a) ∧
      a = pieces spec w (pointsOf (SummaryBuilder.ordered spec.metric) samples) ∧ a.Fits spec ∧
      a.items ≤ 3 * samples.length ∧ a.valid ≤ samples.length := by
  refine ⟨_, compute_eq hint hspec hw hsamples hmax hlen, rfl, ?_, ?_⟩
  · exact pieces_fits hint (fun x hx => hsamples.matches_ _ (pointsOf_mem hx))
  · have hbounds := pieces_bounds spec w (pointsOf (SummaryBuilder.ordered spec.metric) samples)
    have hlength := pointsOf_length (SummaryBuilder.ordered spec.metric) samples
    exact ⟨by omega, by omega⟩

/-- The pieces of the two windows and those of the joined one, from the same samples. -/
theorem pieces_exact (h : Adjacent w₁ w₂ w) {single : Bool} {samples : List Sample}
    (hordered : samples.Pairwise Sample.Before) :
    ∃ segments, Cut (pieces spec w (pointsOf single samples)).segments segments ∧
      pieces spec w₁ (pointsOf single (earlier w₂ samples)) ++
          pieces spec w₂ (pointsOf single (later w₂ samples)) =
        { pieces spec w (pointsOf single samples) with segments } := by
  have hearlier : ∀ s ∈ earlier w₂ samples, s.observedAt < w₁.stop := by
    intro s hs
    rw [h.inner]
    simpa using (List.mem_filter.mp hs).2
  have hwithin : ∀ s ∈ samples.filter (fun s => inside s.observedAt w₂),
      w₂.start ≤ s.observedAt ∧ s.observedAt < w₂.stop := by
    intro s hs
    simpa [inside] using (List.mem_filter.mp hs).2
  have hpast : ∀ s ∈ samples.filter (fun s => w₂.stop ≤ s.observedAt), w.stop ≤ s.observedAt := by
    intro s hs
    rw [h.stop]
    simpa using (List.mem_filter.mp hs).2
  have hbefore : ∀ s ∈ earlier w₂ samples ++ samples.filter (fun s => inside s.observedAt w₂),
      s.observedAt < w.stop := by
    intro s hs
    rcases List.mem_append.mp hs with hs | hs
    · exact (hearlier s hs).trans_le h.le
    · exact h.stop ▸ (hwithin s hs).2
  have hwhole : pieces spec w (pointsOf single samples) = pieces spec w (pointsOf single
      (earlier w₂ samples ++ samples.filter (fun s => inside s.observedAt w₂))) := by
    rw [← pieces_past hbefore hpast, List.append_assoc, samples_split hordered]
  rw [hwhole]
  exact h.pieces_split hearlier (fun s hs => h.inner ▸ (hwithin s hs).1)

/-- Three consecutive summaries merge to one, in either order. -/
theorem merge_assoc {w₃ : Interval} {a₁ a₂ a₃ : Piece} {maxItems : ℕ} (h₁₂ : w₁.stop = w₂.start)
    (h₂₃ : w₂.stop = w₃.start) (hfits₁ : a₁.Fits spec) (hfits₂ : a₂.Fits spec)
    (hfits₃ : a₃.Fits spec) (hitems : 1 + a₁.items + a₂.items + a₃.items ≤ maxItems)
    (hvalid : a₁.valid + a₂.valid + a₃.valid < 2 ^ 64) :
    ∃ s₁₂ s₂₃ all,
      (summaryOf spec w₁ a₁).merge (summaryOf spec w₂ a₂) maxItems = .ok s₁₂ ∧
      s₁₂.merge (summaryOf spec w₃ a₃) maxItems = .ok all ∧
      (summaryOf spec w₂ a₂).merge (summaryOf spec w₃ a₃) maxItems = .ok s₂₃ ∧
      (summaryOf spec w₁ a₁).merge s₂₃ maxItems = .ok all := by
  have hw₁ := w₁.le
  have hw₂ := w₂.le
  have hw₃ := w₃.le
  have hcount₁₂ : (a₁ ++ a₂).valid = a₁.valid + a₂.valid := rfl
  have hcount₂₃ : (a₂ ++ a₃).valid = a₂.valid + a₃.valid := rfl
  have hsize₁₂ := Piece.items_append a₁ a₂
  have hsize₂₃ := Piece.items_append a₂ a₃
  have h₁ := @merge_eq spec w₁ w₂ a₁ a₂ maxItems h₁₂ (by omega) hfits₁ hfits₂ (by omega)
  have h₂ := @merge_eq spec ⟨w₁.start, w₂.stop, by omega⟩ w₃ (a₁ ++ a₂) a₃ maxItems h₂₃
    (show w₁.start ≤ w₃.stop by omega) (hfits₁.append hfits₂) hfits₃ (by omega)
  have h₃ := @merge_eq spec w₂ w₃ a₂ a₃ maxItems h₂₃ (by omega) hfits₂ hfits₃ (by omega)
  have h₄ := @merge_eq spec w₁ ⟨w₂.start, w₃.stop, by omega⟩ a₁ (a₂ ++ a₃) maxItems h₁₂
    (show w₁.start ≤ w₃.stop by omega) hfits₁ (hfits₂.append hfits₃) (by omega)
  rw [if_pos (by omega)] at h₁ h₂ h₃ h₄
  rw [Piece.append_assoc] at h₂
  exact ⟨_, _, _, h₁, h₂, h₃, h₄⟩

/-- Merging is exact for every valid specification whose numbers are integers. The summaries of two adjacent windows, the
second begun with the last sample before it, merge to one that projects like the summary of the
joined window, whatever the operation; and three consecutive summaries merge alike in both
orders. -/
theorem merge_exact (hint : spec.metric.Integral) (hspec : spec.validate = .ok ()) :
    (∀ (w₁ w₂ : Interval) (samples : List Sample) (maxItems : ℕ) (hle : w₁.start ≤ w₂.stop),
      w₁.widthMicros ≠ 0 → w₂.widthMicros ≠ 0 → w₁.stop = w₂.start → Canonical spec samples →
      3 * samples.length + 4 ≤ maxItems → maxItems < 2 ^ 64 →
      ∃ s₁ s₂ merged direct,
        Summary.compute spec w₁ (earlier w₂ samples) maxItems = .ok s₁ ∧
        Summary.compute spec w₂ (later w₂ samples) maxItems = .ok s₂ ∧
        s₁.merge s₂ maxItems = .ok merged ∧
        Summary.compute spec ⟨w₁.start, w₂.stop, hle⟩ samples maxItems = .ok direct ∧
        ∀ op, merged.project op = direct.project op) ∧
    (∀ (w₁ w₂ w₃ : Interval) (l₁ l₂ l₃ : List Sample) (maxItems : ℕ) (s₁ s₂ s₃ : Summary),
      w₁.widthMicros ≠ 0 → w₂.widthMicros ≠ 0 → w₃.widthMicros ≠ 0 →
      w₁.stop = w₂.start → w₂.stop = w₃.start →
      Canonical spec l₁ → Canonical spec l₂ → Canonical spec l₃ →
      3 * (l₁.length + l₂.length + l₃.length) + 1 ≤ maxItems → maxItems < 2 ^ 64 →
      Summary.compute spec w₁ l₁ maxItems = .ok s₁ → Summary.compute spec w₂ l₂ maxItems = .ok s₂ →
      Summary.compute spec w₃ l₃ maxItems = .ok s₃ →
      ∃ s₁₂ s₂₃ left right, s₁.merge s₂ maxItems = .ok s₁₂ ∧ s₁₂.merge s₃ maxItems = .ok left ∧
        s₂.merge s₃ maxItems = .ok s₂₃ ∧ s₁.merge s₂₃ maxItems = .ok right ∧
        ∀ op, left.project op = right.project op) := by
  refine ⟨?_, ?_⟩
  · intro w₁ w₂ samples maxItems hle hw₁ hw₂ hadjacent hsamples hmax husize
    have hadj : Adjacent w₁ w₂ ⟨w₁.start, w₂.stop, hle⟩ := ⟨rfl, hadjacent, rfl⟩
    have hw : (⟨w₁.start, w₂.stop, hle⟩ : Interval).widthMicros ≠ 0 := by
      have := w₁.le
      have := w₂.le
      simp only [Interval.widthMicros] at hw₁ ⊢
      omega
    have hearlier : Canonical spec (earlier w₂ samples) :=
      hsamples.sublist List.filter_sublist
    have hlater : Canonical spec (later w₂ samples) :=
      hsamples.sublist (later_sublist w₂ hsamples.ordered)
    have hlen₁ : (earlier w₂ samples).length ≤ samples.length := List.length_filter_le _ _
    have hlen₂ : (later w₂ samples).length ≤ samples.length :=
      (later_sublist w₂ hsamples.ordered).length_le
    have hlen := length_split w₂ hsamples.ordered
    obtain ⟨a, hs₁, ha, hafits, haitems, havalid⟩ :=
      @compute_pieces spec w₁ _ maxItems hint hspec hw₁ hearlier (by omega) (by omega)
    obtain ⟨b, hs₂, hb, hbfits, hbitems, hbvalid⟩ :=
      @compute_pieces spec w₂ _ maxItems hint hspec hw₂ hlater (by omega) (by omega)
    obtain ⟨d, hdirect, hd, -⟩ :=
      @compute_pieces spec ⟨w₁.start, w₂.stop, hle⟩ _ maxItems hint hspec hw hsamples (by omega)
        (by omega)
    have hcounted : a.valid + b.valid < 2 ^ 64 := by omega
    have hfew : 1 + a.items + b.items ≤ maxItems := by omega
    have hmerged := merge_eq hadjacent hle hafits hbfits hfew
    rw [if_pos hcounted] at hmerged
    obtain ⟨segments, hcut, hab⟩ := pieces_exact hadj hsamples.ordered
    rw [← ha, ← hb, ← hd] at hab
    rw [← hd] at hcut
    refine ⟨_, _, _, _, hs₁, hs₂, hmerged, hdirect, fun op => ?_⟩
    rw [hab]
    exact project_cut hcut op
  · intro w₁ w₂ w₃ l₁ l₂ l₃ maxItems s₁ s₂ s₃ hw₁ hw₂ hw₃ h₁₂ h₂₃ hl₁ hl₂ hl₃ hmax husize hs₁ hs₂ hs₃
    obtain ⟨a₁, hc₁, -, hfits₁, hitems₁, hvalid₁⟩ :=
      @compute_pieces spec w₁ l₁ maxItems hint hspec hw₁ hl₁ (by omega) (by omega)
    obtain ⟨a₂, hc₂, -, hfits₂, hitems₂, hvalid₂⟩ :=
      @compute_pieces spec w₂ l₂ maxItems hint hspec hw₂ hl₂ (by omega) (by omega)
    obtain ⟨a₃, hc₃, -, hfits₃, hitems₃, hvalid₃⟩ :=
      @compute_pieces spec w₃ l₃ maxItems hint hspec hw₃ hl₃ (by omega) (by omega)
    obtain rfl := Except.ok.inj (hs₁.symm.trans hc₁)
    obtain rfl := Except.ok.inj (hs₂.symm.trans hc₂)
    obtain rfl := Except.ok.inj (hs₃.symm.trans hc₃)
    obtain ⟨s₁₂, s₂₃, all, h₁, h₂, h₃, h₄⟩ := @merge_assoc spec w₁ w₂ w₃ a₁ a₂ a₃ maxItems h₁₂ h₂₃
      hfits₁ hfits₂ hfits₃ (by omega) (by omega)
    exact ⟨s₁₂, s₂₃, all, all, h₁, h₂, h₃, h₄, fun op => rfl⟩

/-- A valve that reports whether it is open and holds its state for ten microseconds. -/
def valveSpec : SummarySpec where
  stream := ⟨⟨1, "plant"⟩, "plc", "g1"⟩
  series := ⟨⟨⟨1, "plant"⟩, "valve.open", 1, "1", .bool, ⟨∅, ∅, 0, 0, 0⟩⟩, "valve", "v1", []⟩
  resolution := 10
  coverage := .holdLast 10
  maxGap := none

def valveSample (id : String) (at_ : ℕ) (value : Bool) (h : at_ < timestampMax) : Sample where
  stream := valveSpec.stream
  series := valveSpec.series
  id := id
  sequence := at_
  observedAt := at_
  interval := none
  reading := .valid (.bool value)
  valid :=
    { observed_lt := h
      scope := rfl
      accepts := by
        rintro v ⟨⟩
        rfl
      interval_stop := by rintro w ⟨⟩
      counter_interval := by rintro n t ⟨⟩ }

/-- The valve opens in the first window, and the hold crosses the boundary. -/
theorem merge_exact_valve :
    ∃ s₁ s₂ merged direct,
      Summary.compute valveSpec ⟨0, 10, by decide⟩
        [valveSample "a" 4 true (by decide)] 100 = .ok s₁ ∧
      Summary.compute valveSpec ⟨10, 20, by decide⟩
        [valveSample "a" 4 true (by decide), valveSample "b" 12 false (by decide)] 100 = .ok s₂ ∧
      s₁.merge s₂ 100 = .ok merged ∧
      Summary.compute valveSpec ⟨0, 20, by decide⟩
        [valveSample "a" 4 true (by decide), valveSample "b" 12 false (by decide)] 100 =
          .ok direct ∧
      ∀ op, merged.project op = direct.project op := by
  have hcanonical : Canonical valveSpec
      [valveSample "a" 4 true (by decide), valveSample "b" 12 false (by decide)] :=
    { matches_ := by
        intro s hs
        simp only [List.mem_cons, List.not_mem_nil, or_false] at hs
        rcases hs with rfl | rfl <;> decide
      ordered := by
        simp only [List.pairwise_cons, List.mem_singleton, forall_eq, List.not_mem_nil,
          false_implies, implies_true, List.Pairwise.nil, and_true]
        decide
      ids := by decide }
  exact (@merge_exact valveSpec trivial (by decide)).1 ⟨0, 10, by decide⟩ ⟨10, 20, by decide⟩ _
    100 (by decide) (by decide) (by decide) rfl hcanonical (by decide) (by decide)

end Rss.Timeseries
