import Rss.Verification.TimeseriesPostgres.Reads

/-! # Recomputation in steps

A plan folds each bucket of its window over several transactions. What it stores of a bucket is
what one reading of the bucket computes. -/

namespace Rss.TimeseriesPostgres

open Rss.Timeseries

variable {D : Digests} {s s' : Store} {spec : SummarySpec} {limits : Limits}

/-! ### One bucket -/

namespace Store

/-- The builder of a bucket before its first sample. -/
def begin (s : Store) (spec : SummarySpec) (at_ : ℕ) (max : ℕ) : Except Error SummaryBuilder := do
  let builder ← SummaryBuilder.new spec (spec.bucket at_)
  let prior := s.predecessor spec at_
  s.ensureBoundary spec at_ prior max
  match prior with
  | some p => builder.push p max
  | none => pure builder

/-- The deletions that may cut the bucket after what the builder has seen. -/
def gapsAfter (s : Store) (spec : SummarySpec) (b : SummaryBuilder) (bucket : Interval) (max : ℕ) :
    Except Error (List (ℕ × ℕ)) := do
  let window ← Interval.new (b.lastObservedAt.getD bucket.start) bucket.stop
  s.deletions spec window max

/-- The samples of a bucket. -/
def bucketSamples (s : Store) (spec : SummarySpec) (at_ : ℕ) : List Sample :=
  s.seriesWithin spec (spec.bucket at_).start (spec.bucket at_).stop

theorem openBuilder_none {fold : Fold} (h : fold.builder = none) :
    s.openBuilder spec fold limits = s.begin spec fold.at_ limits.maxPoints := by
  simp only [openBuilder, h]
  rfl

theorem openBuilder_some {fold : Fold} {b : SummaryBuilder} (h : fold.builder = some b) :
    s.openBuilder spec fold limits = .ok b := by
  simp only [openBuilder, h]

theorem fencesWithin_mono {selection : Selection} {w : Interval} {kinds : List FenceKind}
    {max max' : ℕ} {found : List Fence} (h : s.fencesWithin selection w kinds max = .ok found)
    (hle : max ≤ max') : s.fencesWithin selection w kinds max' = .ok found := by
  rw [fencesWithin_eq] at h ⊢
  split at h
  · cases h
  · rw [if_neg (by omega), h]

theorem ensureBoundary_mono {at_ max max' : ℕ} {prior : Option Sample}
    (h : s.ensureBoundary spec at_ prior max = .ok ()) (hle : max ≤ max') :
    s.ensureBoundary spec at_ prior max' = .ok () := by
  unfold ensureBoundary at h ⊢
  split at h
  · next hneeds =>
      rw [if_pos hneeds]
      exact h
  · next hneeds =>
      rw [if_neg hneeds]
      cases hreach : reach spec
      all_goals
        simp only [hreach] at h ⊢
        split at h
        · next hstart =>
            rw [if_pos hstart]
            exact h
        · next hstart =>
            obtain ⟨w, hw, h⟩ := bind_eq_ok.mp h
            obtain ⟨found, hfound, h⟩ := bind_eq_ok.mp h
            rw [if_neg hstart, hw, ok_bind, fencesWithin_mono hfound hle, ok_bind]
            exact h

/-- The builder with the sample before its bucket, if there is one. -/
def enter (prior : Option Sample) (max : ℕ) (b : SummaryBuilder) : Except Error SummaryBuilder :=
  match prior with
  | some p => b.push p max
  | none => .ok b

theorem begin_eq (at_ max : ℕ) : s.begin spec at_ max =
    SummaryBuilder.new spec (spec.bucket at_) >>= fun b =>
      s.ensureBoundary spec at_ (s.predecessor spec at_) max >>= fun _ =>
        enter (s.predecessor spec at_) max b := by
  unfold begin enter
  cases s.predecessor spec at_
  all_goals rfl

theorem enter_mono {prior : Option Sample} {max max' : ℕ} {b c : SummaryBuilder}
    (h : enter prior max b = .ok c) (hle : max ≤ max') : enter prior max' b = .ok c := by
  cases prior with
  | none => exact h
  | some p => exact SummaryBuilder.push_mono h hle

theorem enter_last {prior : Option Sample} {max : ℕ} {b c : SummaryBuilder}
    (h : enter prior max b = .ok c) (hnone : b.lastObservedAt = none) :
    c.lastObservedAt = prior.map (fun p => p.observedAt) := by
  cases prior with
  | none =>
      cases h
      exact hnone
  | some p => exact SummaryBuilder.push_last h

theorem enter_window {prior : Option Sample} {max : ℕ} {b c : SummaryBuilder}
    (h : enter prior max b = .ok c) : c.summary.window = b.summary.window := by
  cases prior with
  | none =>
      cases h
      rfl
  | some p => exact SummaryBuilder.push_window h

theorem begin_mono {at_ max max' : ℕ} {b : SummaryBuilder} (h : s.begin spec at_ max = .ok b)
    (hle : max ≤ max') : s.begin spec at_ max' = .ok b := by
  rw [begin_eq] at h ⊢
  obtain ⟨c, hnew, h⟩ := bind_eq_ok.mp h
  obtain ⟨⟨⟩, hboundary, h⟩ := bind_eq_ok.mp h
  rw [hnew, ok_bind, ensureBoundary_mono hboundary hle, ok_bind, enter_mono h hle]

theorem begin_window {at_ max : ℕ} {b : SummaryBuilder} (h : s.begin spec at_ max = .ok b) :
    b.summary.window = spec.bucket at_ := by
  rw [begin_eq] at h
  obtain ⟨c, hnew, h⟩ := bind_eq_ok.mp h
  obtain ⟨⟨⟩, -, h⟩ := bind_eq_ok.mp h
  exact (enter_window h).trans (SummaryBuilder.new_window hnew).1

theorem predecessor_lt {at_ : ℕ} {p : Sample} (hfiled : Filed s)
    (h : s.predecessor spec at_ = some p) : p.observedAt < at_ := by
  unfold predecessor at h
  split at h
  · exact (mem_seriesWithin hfiled (List.mem_of_getLast? h)).2
  · cases h

/-- A builder that has only begun saw at most the sample before its bucket. -/
theorem begin_last {at_ max : ℕ} {b : SummaryBuilder} (hfiled : Filed s)
    (h : s.begin spec at_ max = .ok b) : ∀ last ∈ b.lastObservedAt, last < at_ := by
  rw [begin_eq] at h
  obtain ⟨c, hnew, h⟩ := bind_eq_ok.mp h
  obtain ⟨⟨⟩, -, h⟩ := bind_eq_ok.mp h
  intro last hlast
  rw [enter_last h (SummaryBuilder.new_window hnew).2] at hlast
  obtain ⟨p, hp, rfl⟩ := Option.map_eq_some_iff.mp hlast
  exact predecessor_lt hfiled hp

end Store

/-- The builder of a bucket after some of its samples, within some bound. -/
def Folds (s : Store) (spec : SummarySpec) (at_ : ℕ) (xs : List Sample) (b : SummaryBuilder) :
    Prop :=
  ∃ max b₀ gaps, s.begin spec at_ max = .ok b₀ ∧
    s.gapsAfter spec b₀ (spec.bucket at_) max = .ok gaps ∧ maskAndPush gaps max b₀ xs = .ok b

/-- The summary of a bucket, folded in one go within some bound. -/
def Computes (s : Store) (spec : SummarySpec) (at_ : ℕ) (summary : Summary) : Prop :=
  ∃ max b₀ gaps b c, s.begin spec at_ max = .ok b₀ ∧
    s.gapsAfter spec b₀ (spec.bucket at_) max = .ok gaps ∧
    maskAndPush gaps max b₀ (s.bucketSamples spec at_) = .ok b ∧
    mask gaps (spec.bucket at_).stop b = .ok c ∧ c.finish max = .ok summary

theorem gapsAfter_eq_ok {b : SummaryBuilder} {bucket : Interval} {max : ℕ} {gaps : List (ℕ × ℕ)} :
    s.gapsAfter spec b bucket max = .ok gaps ↔
      ∃ h : b.lastObservedAt.getD bucket.start ≤ bucket.stop,
        s.deletions spec ⟨_, _, h⟩ max = .ok gaps := by
  unfold Store.gapsAfter Interval.new
  by_cases h : b.lastObservedAt.getD bucket.start ≤ bucket.stop
  · rw [dif_pos h, ok_bind]
    exact ⟨fun hgaps => ⟨h, hgaps⟩, fun ⟨_, hgaps⟩ => hgaps⟩
  · rw [dif_neg h, error_bind]
    simp [h]

theorem gapsAfter_mono {b : SummaryBuilder} {bucket : Interval} {max max' : ℕ}
    {gaps : List (ℕ × ℕ)} (h : s.gapsAfter spec b bucket max = .ok gaps) (hle : max ≤ max') :
    s.gapsAfter spec b bucket max' = .ok gaps := by
  obtain ⟨hwindow, hgaps⟩ := gapsAfter_eq_ok.mp h
  exact gapsAfter_eq_ok.mpr ⟨hwindow, deletions_mono hgaps hle⟩

theorem Computes.window {at_ : ℕ} {summary : Summary} (h : Computes s spec at_ summary) :
    summary.window = spec.bucket at_ := by
  obtain ⟨max, b₀, gaps, b, c, hbegin, -, hfold, hmask, hfinish⟩ := h
  rw [SummaryBuilder.finish_window hfinish, mask_window hmask, maskAndPush_window hfold,
    Store.begin_window hbegin]

/-- There is one summary of a bucket, whatever the bounds. -/
theorem Computes.unique {at_ : ℕ} {x y : Summary} (h : Computes s spec at_ x)
    (h' : Computes s spec at_ y) : x = y := by
  obtain ⟨max, b₀, gaps, b, c, hbegin, hgaps, hfold, hmask, hfinish⟩ := h
  obtain ⟨max', b₀', gaps', b', c', hbegin', hgaps', hfold', hmask', hfinish'⟩ := h'
  have hle := le_max_left max max'
  have hle' := le_max_right max max'
  obtain rfl := Except.ok.inj ((Store.begin_mono hbegin hle).symm.trans (Store.begin_mono hbegin' hle'))
  obtain rfl := Except.ok.inj ((gapsAfter_mono hgaps hle).symm.trans (gapsAfter_mono hgaps' hle'))
  obtain rfl := Except.ok.inj
    ((maskAndPush_mono hfold hle).symm.trans (maskAndPush_mono hfold' hle'))
  obtain rfl := Except.ok.inj (hmask.symm.trans hmask')
  exact Except.ok.inj ((SummaryBuilder.finish_mono hfinish hle).symm.trans
    (SummaryBuilder.finish_mono hfinish' hle'))

/-! ### One reading -/

/-- Where the deletions of a bucket are read from. -/
def gapStart (prior : Option Sample) (start : ℕ) : ℕ :=
  match prior with
  | some p => p.observedAt
  | none => start

theorem raw_eq (w : Interval) : s.raw spec w limits =
    s.ensureBoundary spec w.start (s.predecessor spec w.start) limits.maxPoints >>= fun _ =>
      if (s.seriesWithin spec w.start w.stop).length > limits.maxPoints then .error .budgetExceeded
      else
        Interval.new (gapStart (s.predecessor spec w.start) w.start) w.stop >>= fun gapWindow =>
        s.deletions spec gapWindow limits.maxPoints >>= fun gaps =>
        SummaryBuilder.new spec w >>= fun b =>
        Store.enter (s.predecessor spec w.start) limits.maxPoints b >>= fun b =>
        maskAndPush gaps limits.maxPoints b (s.seriesWithin spec w.start w.stop) >>= fun b =>
        mask gaps w.stop b >>= fun b => b.finish limits.maxPoints := by
  unfold Store.raw gapStart Store.enter
  cases s.predecessor spec w.start
  all_goals
    refine bind_congr fun _ => ?_
    simp only
    split
    · rfl
    · rfl

/-- The deletions are read from the last point the builder has seen. -/
theorem enter_gapStart {w : Interval} {prior : Option Sample} {max : ℕ} {b c : SummaryBuilder}
    (hnew : SummaryBuilder.new spec w = .ok b) (h : Store.enter prior max b = .ok c) (start : ℕ) :
    c.lastObservedAt.getD start = gapStart prior start := by
  rw [Store.enter_last h (SummaryBuilder.new_window hnew).2]
  cases prior
  all_goals rfl

/-- `raw` folds a bucket that has no more samples than it may read. -/
theorem raw_eq_ok {at_ : ℕ} {summary : Summary} (haligned : (spec.bucket at_).start = at_) :
    s.raw spec (spec.bucket at_) limits = .ok summary ↔
      (s.bucketSamples spec at_).length ≤ limits.maxPoints ∧
        ∃ b₀ gaps b c, s.begin spec at_ limits.maxPoints = .ok b₀ ∧
          s.gapsAfter spec b₀ (spec.bucket at_) limits.maxPoints = .ok gaps ∧
          maskAndPush gaps limits.maxPoints b₀ (s.bucketSamples spec at_) = .ok b ∧
          mask gaps (spec.bucket at_).stop b = .ok c ∧ c.finish limits.maxPoints = .ok summary := by
  rw [raw_eq, haligned, Store.bucketSamples, haligned]
  constructor
  · intro h
    obtain ⟨⟨⟩, hboundary, h⟩ := bind_eq_ok.mp h
    split at h
    · cases h
    · next hcount =>
        obtain ⟨gapWindow, hwindow, h⟩ := bind_eq_ok.mp h
        obtain ⟨gaps, hgaps, h⟩ := bind_eq_ok.mp h
        obtain ⟨c, hnew, h⟩ := bind_eq_ok.mp h
        obtain ⟨b₀, henter, h⟩ := bind_eq_ok.mp h
        obtain ⟨b, hfold, h⟩ := bind_eq_ok.mp h
        obtain ⟨d, hmask, hfinish⟩ := bind_eq_ok.mp h
        refine ⟨not_lt.mp hcount, b₀, gaps, b, d, ?_, ?_, hfold, hmask, hfinish⟩
        · rw [Store.begin_eq, hnew, ok_bind, hboundary, ok_bind, henter]
        · rw [Store.gapsAfter, haligned, enter_gapStart hnew henter, hwindow, ok_bind, hgaps]
  · rintro ⟨hcount, b₀, gaps, b, c, hbegin, hgaps, hfold, hmask, hfinish⟩
    rw [Store.begin_eq] at hbegin
    obtain ⟨d, hnew, hbegin⟩ := bind_eq_ok.mp hbegin
    obtain ⟨⟨⟩, hboundary, henter⟩ := bind_eq_ok.mp hbegin
    rw [Store.gapsAfter, haligned, enter_gapStart hnew henter] at hgaps
    obtain ⟨gapWindow, hwindow, hgaps⟩ := bind_eq_ok.mp hgaps
    rw [hboundary, ok_bind, if_neg (not_lt.mpr hcount), hwindow, ok_bind, hgaps, ok_bind, hnew,
      ok_bind, henter, ok_bind, hfold, ok_bind, hmask, ok_bind, hfinish]

/-- The summary of a bucket is what `raw` computes with room enough. -/
theorem Computes.raw {at_ : ℕ} {summary : Summary} (haligned : (spec.bucket at_).start = at_)
    (h : Computes s spec at_ summary) :
    ∃ bound, ∀ limits : Limits, bound ≤ limits.maxPoints →
      s.raw spec (spec.bucket at_) limits = .ok summary := by
  obtain ⟨max, b₀, gaps, b, c, hbegin, hgaps, hfold, hmask, hfinish⟩ := h
  refine ⟨Max.max max (s.bucketSamples spec at_).length, fun limits hlimits => ?_⟩
  have hle := (le_max_left _ _).trans hlimits
  have hlength := (le_max_right _ _).trans hlimits
  exact (raw_eq_ok haligned).mpr ⟨hlength, b₀, gaps, b, c, Store.begin_mono hbegin hle,
    gapsAfter_mono hgaps hle, maskAndPush_mono hfold hle, hmask,
    SummaryBuilder.finish_mono hfinish hle⟩

/-! ### A bucket in parts -/

theorem mem_bucketSamples {at_ : ℕ} {x : Sample} (hfiled : Filed s)
    (haligned : (spec.bucket at_).start = at_) (h : x ∈ s.bucketSamples spec at_) :
    at_ ≤ x.observedAt := by
  have hin := (mem_seriesWithin hfiled h).1
  rwa [haligned] at hin

/-- What follows the folded samples is at or after the last of them. -/
theorem Folds.reached {at_ : ℕ} {xs ys : List Sample} {b : SummaryBuilder} (hfiled : Filed s)
    (haligned : (spec.bucket at_).start = at_) (h : Folds s spec at_ xs b)
    (hsplit : s.bucketSamples spec at_ = xs ++ ys) :
    ∀ y ∈ ys, b.lastObservedAt.getD (spec.bucket at_).start ≤ y.observedAt := by
  intro y hy
  have hlow : at_ ≤ y.observedAt := by
    apply mem_bucketSamples hfiled haligned
    rw [hsplit]
    exact List.mem_append_right xs hy
  obtain ⟨max, b₀, gaps, hbegin, -, hfold⟩ := h
  rw [haligned]
  rcases List.eq_nil_or_concat xs with rfl | ⟨pre, x, rfl⟩
  · cases hfold
    cases hlast : b.lastObservedAt with
    | none => exact hlow
    | some last =>
        have hbefore := Store.begin_last hfiled hbegin last hlast
        rw [Option.getD_some]
        omega
  · rw [List.concat_eq_append] at hfold hsplit
    rw [maskAndPush_last hfold, Option.getD_some]
    have hsorted : (pre ++ [x] ++ ys).Pairwise Sample.Before := by
      rw [← hsplit]
      exact seriesWithin_sorted hfiled
    have hxy := (List.pairwise_append.mp hsorted).2.2 x (by simp) y hy
    unfold Sample.Before at hxy
    omega

/-- The deletions read after some samples are those of the bucket that end later. -/
theorem Folds.gaps {at_ max : ℕ} {xs : List Sample} {b : SummaryBuilder} {gaps : List (ℕ × ℕ)}
    (hfiled : Filed s) (haligned : (spec.bucket at_).start = at_) (h : Folds s spec at_ xs b)
    (hxs : ∀ x ∈ xs, at_ ≤ x.observedAt)
    (hgaps : s.gapsAfter spec b (spec.bucket at_) max = .ok gaps) :
    ∃ bound b₀ all, max ≤ bound ∧ s.begin spec at_ bound = .ok b₀ ∧
      s.gapsAfter spec b₀ (spec.bucket at_) bound = .ok all ∧
      maskAndPush all bound b₀ xs = .ok b ∧
      gaps = all.filter (fun gap => decide (b.lastObservedAt.getD (spec.bucket at_).start < gap.2)) := by
  obtain ⟨bound, b₀, all, hbegin, hall, hfold⟩ := h
  have hle := le_max_right max bound
  have hall' := gapsAfter_mono hall hle
  refine ⟨Max.max max bound, b₀, all, le_max_left _ _, Store.begin_mono hbegin hle, hall',
    maskAndPush_mono hfold hle, ?_⟩
  obtain ⟨hwindow, hgaps⟩ := gapsAfter_eq_ok.mp hgaps
  obtain ⟨hwindow', hall'⟩ := gapsAfter_eq_ok.mp hall'
  refine deletions_filter hall' hgaps ?_ rfl
  show b₀.lastObservedAt.getD _ ≤ b.lastObservedAt.getD _
  rcases List.eq_nil_or_concat xs with rfl | ⟨pre, x, rfl⟩
  · cases hfold
    rfl
  · rw [List.concat_eq_append] at hfold hxs
    rw [maskAndPush_last hfold, Option.getD_some, haligned]
    have hx := hxs x (by simp)
    cases hlast : b₀.lastObservedAt with
    | none => exact hx
    | some last =>
        have hbefore := Store.begin_last hfiled hbegin last hlast
        rw [Option.getD_some]
        omega

/-- A builder that goes on with the deletions it reads then has folded all samples in one go. -/
theorem Folds.extend {at_ max : ℕ} {xs ys zs : List Sample} {b c : SummaryBuilder}
    {gaps : List (ℕ × ℕ)} (hfiled : Filed s) (haligned : (spec.bucket at_).start = at_)
    (h : Folds s spec at_ xs b) (hsplit : s.bucketSamples spec at_ = xs ++ (ys ++ zs))
    (hgaps : s.gapsAfter spec b (spec.bucket at_) max = .ok gaps)
    (hfold : maskAndPush gaps max b ys = .ok c) : Folds s spec at_ (xs ++ ys) c := by
  have hlow : ∀ x ∈ xs, at_ ≤ x.observedAt := fun x hx =>
    mem_bucketSamples hfiled haligned (by rw [hsplit]; exact List.mem_append_left _ hx)
  have hreached := h.reached hfiled haligned hsplit
  obtain ⟨bound, b₀, all, hle, hbegin, hall, hprefix, rfl⟩ := h.gaps hfiled haligned hlow hgaps
  refine ⟨bound, b₀, all, hbegin, hall, ?_⟩
  have hsuffix := maskAndPush_mono hfold hle
  rw [maskAndPush_filter (fun last hlast => by rw [hlast, Option.getD_some])
    fun y hy => hreached y (List.mem_append_left zs hy)] at hsuffix
  rw [maskAndPush_append, hprefix, ok_bind, hsuffix]

/-- A builder that takes the rest of the bucket ends with the summary of the bucket. -/
theorem Folds.close {at_ max : ℕ} {xs ys : List Sample} {b c d : SummaryBuilder}
    {gaps : List (ℕ × ℕ)} {summary : Summary} (hfiled : Filed s)
    (haligned : (spec.bucket at_).start = at_) (h : Folds s spec at_ xs b)
    (hsplit : s.bucketSamples spec at_ = xs ++ ys)
    (hgaps : s.gapsAfter spec b (spec.bucket at_) max = .ok gaps)
    (hfold : maskAndPush gaps max b ys = .ok c) (hmask : mask gaps (spec.bucket at_).stop c = .ok d)
    (hfinish : d.finish max = .ok summary) : Computes s spec at_ summary := by
  have hlow : ∀ x ∈ xs, at_ ≤ x.observedAt := fun x hx =>
    mem_bucketSamples hfiled haligned (by rw [hsplit]; exact List.mem_append_left _ hx)
  have hreached := h.reached hfiled haligned hsplit
  obtain ⟨bound, b₀, all, hle, hbegin, hall, hprefix, rfl⟩ := h.gaps hfiled haligned hlow hgaps
  have hsuffix := maskAndPush_mono hfold hle
  have hstart : ∀ last ∈ b.lastObservedAt, b.lastObservedAt.getD (spec.bucket at_).start ≤ last :=
    fun last hlast => by rw [hlast, Option.getD_some]
  rw [maskAndPush_filter hstart hreached] at hsuffix
  have hlater : ∀ last ∈ c.lastObservedAt,
      b.lastObservedAt.getD (spec.bucket at_).start ≤ last := by
    rcases List.eq_nil_or_concat ys with rfl | ⟨pre, y, rfl⟩
    · cases hfold
      exact hstart
    · rw [List.concat_eq_append] at hfold hreached
      intro last hlast
      rw [maskAndPush_last hfold] at hlast
      cases hlast
      exact hreached y (by simp)
  rw [mask_filter all (spec.bucket at_).stop hlater] at hmask
  refine ⟨bound, b₀, all, c, d, hbegin, hall, ?_, hmask, SummaryBuilder.finish_mono hfinish hle⟩
  rw [hsplit, maskAndPush_append, hprefix, ok_bind, hsuffix]

end Rss.TimeseriesPostgres
