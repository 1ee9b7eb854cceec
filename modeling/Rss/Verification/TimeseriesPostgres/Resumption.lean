import Rss.Verification.TimeseriesPostgres.Recomputation

/-! # Plans that recompute

A plan stores the buckets of its window one after another. While the revision of its namespace
stays, what it has stored is what the raw samples give, and its fold stands where the last step
left it. -/

namespace Rss.TimeseriesPostgres

open Rss.Timeseries

variable {D : Digests} {s s' : Store} {r : MaintenanceRequest} {spec : SummarySpec}
  {window : Interval} {fold : Fold} {rest : List Sample} {limits : Limits}

/-! ### Buckets -/

/-- The time is the start of a bucket. -/
def Aligned (spec : SummarySpec) (at_ : ℕ) : Prop := (spec.bucket at_).start = at_

theorem aligned_iff {at_ : ℕ} : Aligned spec at_ ↔ spec.resolution ∣ at_ := by
  unfold Aligned SummarySpec.bucket
  constructor
  · intro h
    exact Dvd.intro_left _ h
  · exact Nat.div_mul_cancel

/-- Two starts are a resolution apart. -/
theorem Aligned.add_le {a b : ℕ} (ha : Aligned spec a) (hb : Aligned spec b) (h : a < b) :
    a + spec.resolution ≤ b := by
  obtain ⟨m, rfl⟩ := aligned_iff.mp ha
  obtain ⟨n, rfl⟩ := aligned_iff.mp hb
  have hmn : m < n := Nat.lt_of_mul_lt_mul_left h
  calc spec.resolution * m + spec.resolution = spec.resolution * (m + 1) := by ring
    _ ≤ spec.resolution * n := Nat.mul_le_mul_left _ hmn

theorem Aligned.stop {at_ : ℕ} (h : Aligned spec at_) :
    (spec.bucket at_).stop = max at_ (min (at_ + spec.resolution) timestampMax) := by
  unfold Aligned SummarySpec.bucket at h
  unfold SummarySpec.bucket
  simp only at h ⊢
  rw [h]

theorem aligned_start (spec : SummarySpec) (at_ : ℕ) : Aligned spec (spec.bucket at_).start := by
  rw [aligned_iff]
  exact Dvd.intro_left _ rfl

/-- The window a plan may recompute: buckets one after another. -/
structure Tiled (spec : SummarySpec) (window : Interval) : Prop where
  resolution : 0 < spec.resolution
  start : Aligned spec window.start
  nonempty : window.start < window.stop
  bounded : window.stop ≤ timestampMax
  stop : (spec.bucket (window.stop - 1)).stop = window.stop

/-- After a bucket of the window comes the end of the window, or the next bucket of it. -/
theorem Tiled.next {at_ : ℕ} (h : Tiled spec window) (haligned : Aligned spec at_)
    (hat : at_ < window.stop) : (spec.bucket at_).stop = window.stop ∨
      ((spec.bucket at_).stop = at_ + spec.resolution ∧ at_ + spec.resolution < window.stop) := by
  have hpos := h.resolution
  have hbounded := h.bounded
  have hlast := aligned_start spec (window.stop - 1)
  have hle : (spec.bucket (window.stop - 1)).start ≤ window.stop - 1 := Nat.div_mul_le_self _ _
  rcases Nat.lt_trichotomy at_ (spec.bucket (window.stop - 1)).start with hlt | heq | hgt
  · have hadd := haligned.add_le hlast hlt
    right
    rw [haligned.stop]
    omega
  · left
    have hstop := h.stop
    unfold SummarySpec.bucket at hstop heq ⊢
    simp only at hstop heq ⊢
    rw [← heq] at hstop
    rw [Nat.div_mul_cancel (aligned_iff.mp haligned)]
    exact hstop
  · exfalso
    have hadd := hlast.add_le haligned hgt
    have hstop := h.stop
    have hlastStop := hlast.stop
    have hsame : (spec.bucket (spec.bucket (window.stop - 1)).start).stop =
        (spec.bucket (window.stop - 1)).stop := by
      have hcancel := Nat.div_mul_cancel (aligned_iff.mp hlast)
      unfold SummarySpec.bucket at hcancel ⊢
      simp only at hcancel ⊢
      rw [hcancel]
    omega

/-- No bucket starts inside another. -/
theorem Aligned.le_of_lt_stop {at_ lo : ℕ} (haligned : Aligned spec at_) (hlo : Aligned spec lo)
    (hlt : lo < (spec.bucket at_).stop) : lo ≤ at_ := by
  by_contra hgt
  have hadd := haligned.add_le hlo (not_le.mp hgt)
  have hstop := haligned.stop
  omega

/-! ### Where a fold stands -/

/-- A fold before its bucket or after some of its samples, with those that are left. -/
inductive Paused (s : Store) (spec : SummarySpec) (fold : Fold) : List Sample → Prop where
  | fresh (builder : fold.builder = none) (last : fold.last = none) :
      Paused s spec fold (s.bucketSamples spec fold.at_)
  | midway {pre rest : List Sample} {x : Sample} {b : SummaryBuilder}
      (split : s.bucketSamples spec fold.at_ = (pre ++ [x]) ++ rest)
      (folds : Folds s spec fold.at_ (pre ++ [x]) b) (builder : fold.builder = some b)
      (last : fold.last = some (x.observedAt, x.sequence, x.id)) : Paused s spec fold rest

/-- The next step reads the samples that are left. -/
theorem Paused.remaining (hfiled : Filed s) (h : Paused s spec fold rest) :
    s.remaining spec (spec.bucket fold.at_) fold.last = rest := by
  cases h with
  | fresh builder last =>
      unfold Store.remaining
      rw [last, List.filter_eq_self.mpr fun _ _ => rfl]
      rfl
  | @midway pre rest x b split folds builder last =>
      have hsorted := @seriesWithin_sorted s spec (spec.bucket fold.at_).start
        (spec.bucket fold.at_).stop hfiled
      change (s.bucketSamples spec fold.at_).Pairwise Sample.Before at hsorted
      have hsplit : s.bucketSamples spec fold.at_ = pre ++ x :: rest := by
        rw [split, List.append_assoc]
        rfl
      rw [hsplit] at hsorted
      unfold Store.remaining
      change (s.bucketSamples spec fold.at_).filter _ = rest
      rw [last, hsplit]
      exact filter_after hsorted Sample.Before.irrefl
        fun a b hab hba => Sample.Before.irrefl a (hab.trans hba)

/-- The builder that a step opens has folded the samples before those that are left. -/
theorem Paused.folds {b : SummaryBuilder} {gaps : List (ℕ × ℕ)} (h : Paused s spec fold rest)
    (hopen : s.openBuilder spec fold limits = .ok b)
    (hgaps : s.gapsAfter spec b (spec.bucket fold.at_) limits.maxPoints = .ok gaps) :
    ∃ xs, s.bucketSamples spec fold.at_ = xs ++ rest ∧ Folds s spec fold.at_ xs b := by
  cases h with
  | fresh builder last =>
      rw [Store.openBuilder_none builder] at hopen
      exact ⟨[], rfl, limits.maxPoints, b, gaps, hopen, hgaps, rfl⟩
  | @midway pre rest x b' split folds builder last =>
      rw [Store.openBuilder_some builder] at hopen
      cases hopen
      exact ⟨pre ++ [x], split, folds⟩

/-! ### The same reads -/

namespace SameReads

variable (h : SameReads spec s s')
include h

theorem fencesWithin (w : Interval) {kinds : List FenceKind} (hkinds : FenceKind.cutoff ∉ kinds)
    (limit : ℕ) : s'.fencesWithin spec.selection w kinds limit =
      s.fencesWithin spec.selection w kinds limit := by
  rw [fencesWithin_eq, fencesWithin_eq, h.fences w kinds hkinds]

theorem deletions (w : Interval) (limit : ℕ) :
    s'.deletions spec w limit = s.deletions spec w limit := by
  unfold Store.deletions
  rw [h.fencesWithin w (by decide)]

theorem predecessor (at_ : ℕ) : s'.predecessor spec at_ = s.predecessor spec at_ := by
  unfold Store.predecessor
  rw [h.series]

theorem ensureBoundary (at_ : ℕ) (prior : Option Sample) (limit : ℕ) :
    s'.ensureBoundary spec at_ prior limit = s.ensureBoundary spec at_ prior limit := by
  have hpruned := fun w => @SameReads.fencesWithin s s' spec h w [.pruned] (by decide) limit
  unfold Store.ensureBoundary
  simp only [hpruned]

theorem begin_ (at_ max : ℕ) : s'.begin spec at_ max = s.begin spec at_ max := by
  rw [Store.begin_eq, Store.begin_eq, h.predecessor, h.ensureBoundary]

theorem gapsAfter (b : SummaryBuilder) (bucket : Interval) (max : ℕ) :
    s'.gapsAfter spec b bucket max = s.gapsAfter spec b bucket max := by
  unfold Store.gapsAfter
  simp only [h.deletions]

theorem bucketSamples (at_ : ℕ) : s'.bucketSamples spec at_ = s.bucketSamples spec at_ :=
  h.series _ _

theorem remaining (bucket : Interval) (last : Option (ℕ × ℕ × String)) :
    s'.remaining spec bucket last = s.remaining spec bucket last := by
  unfold Store.remaining
  rw [h.series]

end SameReads

/-- Where the reads give the same, a bucket has the same summary. -/
theorem Computes.congr {at_ : ℕ} {summary : Summary} (h : Computes s spec at_ summary)
    (hsame : SameReads spec s s') : Computes s' spec at_ summary := by
  obtain ⟨max, b₀, gaps, b, c, hbegin, hgaps, hfold, hmask, hfinish⟩ := h
  exact ⟨max, b₀, gaps, b, c, (hsame.begin_ at_ max).trans hbegin,
    (hsame.gapsAfter b₀ _ max).trans hgaps, by rw [hsame.bucketSamples, hfold], hmask, hfinish⟩

theorem Folds.congr {at_ : ℕ} {xs : List Sample} {b : SummaryBuilder} (h : Folds s spec at_ xs b)
    (hsame : SameReads spec s s') : Folds s' spec at_ xs b := by
  obtain ⟨max, b₀, gaps, hbegin, hgaps, hfold⟩ := h
  exact ⟨max, b₀, gaps, (hsame.begin_ at_ max).trans hbegin,
    (hsame.gapsAfter b₀ _ max).trans hgaps, hfold⟩

theorem Paused.congr (h : Paused s spec fold rest) (hsame : SameReads spec s s') :
    Paused s' spec fold rest := by
  cases h with
  | fresh builder last =>
      rw [← hsame.bucketSamples]
      exact .fresh builder last
  | midway split folds builder last =>
      exact .midway ((hsame.bucketSamples _).trans split) (folds.congr hsame) builder last

/-! ### One step -/

/-- The bucket is stored clean, with its summary. -/
def Published (s : Store) (spec : SummarySpec) (lo : ℕ) : Prop :=
  ∃ summary, s.summaries.get? (spec, lo) = some ⟨(spec.bucket lo).stop, false, summary⟩ ∧
    Computes s spec lo summary

theorem Published.congr {lo : ℕ} (h : Published s spec lo) (hsame : SameReads spec s s')
    (hrow : s'.summaries.get? (spec, lo) = s.summaries.get? (spec, lo)) : Published s' spec lo := by
  obtain ⟨summary, hstored, hcomputes⟩ := h
  exact ⟨summary, hrow.trans hstored, hcomputes.congr hsame⟩

/-- The second store has one bucket written over the first, with its summary. -/
def Stores (s s' : Store) (spec : SummarySpec) (lo : ℕ) : Prop :=
  ∃ summary, s'.summaries = s.summaries.upsert (spec, lo)
      ⟨(spec.bucket lo).stop, false, summary⟩ (fun _ => ⟨(spec.bucket lo).stop, false, summary⟩) ∧
    Computes s' spec lo summary

theorem stores_putSummary {at_ : ℕ} {summary : Summary} (h : Computes s spec at_ summary)
    (haligned : Aligned spec at_) : Stores s (s.putSummary spec summary) spec at_ := by
  refine ⟨summary, ?_, h.congr (.of_eq rfl rfl)⟩
  unfold Store.putSummary
  simp only
  rw [h.window, show (spec.bucket at_).start = at_ from haligned]
  rfl

theorem Stores.published {at_ : ℕ} (h : Stores s s' spec at_) : Published s' spec at_ := by
  obtain ⟨summary, hstored, hcomputes⟩ := h
  refine ⟨summary, ?_, hcomputes⟩
  rw [hstored, Table.get?_upsert_const, if_pos rfl]

theorem Published.stores {at_ lo : ℕ} (h : Published s spec lo) (hstores : Stores s s' spec at_)
    (hsame : SameReads spec s s') (hne : lo ≠ at_) : Published s' spec lo := by
  obtain ⟨summary, hstored, -⟩ := hstores
  refine h.congr hsame ?_
  rw [hstored, Table.get?_upsert_const, if_neg (by simpa using hne)]

/-- The buckets before the fold are stored, and the fold stands in its bucket. -/
structure Standing (s : Store) (spec : SummarySpec) (window : Interval) (fold : Fold)
    (rest : List Sample) : Prop where
  aligned : Aligned spec fold.at_
  lower : window.start ≤ fold.at_
  upper : fold.at_ < window.stop
  published : ∀ lo, Aligned spec lo → window.start ≤ lo → lo < fold.at_ → Published s spec lo
  paused : Paused s spec fold rest

/-- A step reads samples of its bucket, or stores the bucket and goes on with the next one, or
stores the last bucket. -/
inductive Advanced (s s' : Store) (spec : SummarySpec) (window : Interval) (fold : Fold)
    (rest : List Sample) : Work → Option Fold → Prop where
  | read {processed : ℕ} {fold' : Fold} {rest' : List Sample} (pos : 0 < processed)
      (standing : Standing s' spec window fold' rest') (revision : fold'.revision = fold.revision)
      (same : fold'.at_ = fold.at_) (shorter : rest'.length < rest.length)
      (kept : s'.summaries = s.summaries) :
      Advanced s s' spec window fold rest (.more processed) (some fold')
  | publish {processed : ℕ} {fold' : Fold} {rest' : List Sample}
      (stores : Stores s s' spec fold.at_) (standing : Standing s' spec window fold' rest')
      (revision : fold'.revision = fold.revision) (next : fold.at_ < fold'.at_) :
      Advanced s s' spec window fold rest (.more processed) (some fold')
  | complete {processed : ℕ} (stores : Stores s s' spec fold.at_)
      (published : ∀ lo, Aligned spec lo → window.start ≤ lo → lo < window.stop →
        Published s' spec lo) :
      Advanced s s' spec window fold rest (.done processed) none

theorem gapsAfter_bind {b : SummaryBuilder} {bucket : Interval} {max : ℕ} {α : Type}
    (f : List (ℕ × ℕ) → Except Error α) :
    (Interval.new (b.lastObservedAt.getD bucket.start) bucket.stop >>= fun w =>
      s.deletions spec w max >>= f) = s.gapsAfter spec b bucket max >>= f := by
  rw [Store.gapsAfter, bind_assoc]

/-- A bucket whose samples are all folded is stored with its summary. -/
theorem closeBucket_advanced {xs : List Sample} {b c : SummaryBuilder} {gaps : List (ℕ × ℕ)}
    {state state' : PlanState} {processed : ℕ} {result : Work} (hfiled : Filed s)
    (htiled : Tiled spec window) (hstanding : Standing s spec window fold rest)
    (hfolds : Folds s spec fold.at_ xs b) (hsplit : s.bucketSamples spec fold.at_ = xs ++ rest)
    (hgaps : s.gapsAfter spec b (spec.bucket fold.at_) limits.maxPoints = .ok gaps)
    (hfold : maskAndPush gaps limits.maxPoints b rest = .ok c)
    (h : s.closeBucket spec window state fold gaps c processed limits = .ok (result, state', s')) :
    Advanced s s' spec window fold rest result state'.fold := by
  unfold Store.closeBucket at h
  obtain ⟨d, hmask, h⟩ := bind_eq_ok.mp h
  obtain ⟨summary, hfinish, h⟩ := bind_eq_ok.mp h
  have haligned := hstanding.aligned
  have hcomputes : Computes s spec fold.at_ summary :=
    hfolds.close hfiled haligned hsplit hgaps hfold hmask hfinish
  have hstores := stores_putSummary hcomputes haligned
  have hbefore : ∀ lo, Aligned spec lo → window.start ≤ lo → lo < (spec.bucket fold.at_).stop →
      Published (s.putSummary spec summary) spec lo := by
    intro lo hlo hlower hlt
    rcases Nat.lt_or_eq_of_le (haligned.le_of_lt_stop hlo hlt) with hbelow | rfl
    · exact (hstanding.published lo hlo hlower hbelow).stores hstores (.of_eq rfl rfl)
        hbelow.ne
    · exact hstores.published
  simp only at h
  split at h
  · next hstop =>
      cases h
      refine .complete hstores ?_
      rw [← hstop]
      exact hbefore
  · next hstop =>
      cases h
      obtain ⟨hnext, hlt⟩ := (htiled.next haligned hstanding.upper).resolve_left hstop
      have hpos := htiled.resolution
      have hlower := hstanding.lower
      refine .publish hstores ⟨?_, ?_, ?_, hbefore, .fresh rfl rfl⟩ rfl ?_
      · simp only
        rw [hnext, aligned_iff]
        exact Dvd.dvd.add (aligned_iff.mp haligned) dvd_rfl
      · simp only
        omega
      · simp only
        omega
      · simp only
        omega

/-- A step opens the builder, reads the deletions and takes as many samples as it may. -/
theorem advanceFold_of {state : PlanState} {b c : SummaryBuilder} {gaps : List (ℕ × ℕ)}
    (hopen : s.openBuilder spec fold limits = .ok b)
    (hgaps : s.gapsAfter spec b (spec.bucket fold.at_) limits.maxPoints = .ok gaps)
    (hremaining : s.remaining spec (spec.bucket fold.at_) fold.last = rest)
    (hfold : maskAndPush gaps limits.maxPoints b (rest.take r.rows) = .ok c) :
    s.advanceFold r spec window state fold limits =
      if rest.length > r.rows then
        .ok (.more (rest.take r.rows).length, { state with fold := some { fold with
          builder := some c
          last := match (rest.take r.rows).getLast? with
            | some x => some (x.observedAt, x.sequence, x.id)
            | none => fold.last } }, s)
      else s.closeBucket spec window state fold gaps c (rest.take r.rows).length limits := by
  unfold Store.advanceFold
  rw [hopen, ok_bind, gapsAfter_bind, hgaps, ok_bind]
  simp only [hremaining]
  rw [hfold, ok_bind]
  rfl

/-- A step takes the fold from where it stands. -/
theorem advanceFold_advanced {state state' : PlanState} {result : Work} (hfiled : Filed s)
    (htiled : Tiled spec window) (hstanding : Standing s spec window fold rest)
    (h : s.advanceFold r spec window state fold limits = .ok (result, state', s')) :
    Advanced s s' spec window fold rest result state'.fold := by
  unfold Store.advanceFold at h
  obtain ⟨b, hopen, h⟩ := bind_eq_ok.mp h
  rw [gapsAfter_bind] at h
  obtain ⟨gaps, hgaps, h⟩ := bind_eq_ok.mp h
  obtain ⟨xs, hsplit, hfolds⟩ := hstanding.paused.folds hopen hgaps
  simp only [hstanding.paused.remaining hfiled] at h
  obtain ⟨c, hfold, h⟩ := bind_eq_ok.mp h
  split at h
  · next hmore =>
      cases h
      have hpos := r.rows_pos
      have hlength : (rest.take r.rows).length = r.rows := by
        rw [List.length_take]
        omega
      obtain ⟨pre, x, htaken⟩ : ∃ pre x, rest.take r.rows = pre ++ [x] := by
        rcases List.eq_nil_or_concat (rest.take r.rows) with hnil | ⟨pre, x, hconcat⟩
        · rw [hnil, List.length_nil] at hlength
          omega
        · exact ⟨pre, x, hconcat.trans List.concat_eq_append⟩
      have hrest : rest = (pre ++ [x]) ++ rest.drop r.rows := by
        rw [← htaken, List.take_append_drop]
      have hsplit' : s.bucketSamples spec fold.at_ =
          xs ++ ((pre ++ [x]) ++ rest.drop r.rows) := by
        rw [hsplit, ← hrest]
      have hextended : Folds s spec fold.at_ (xs ++ (pre ++ [x])) c :=
        hfolds.extend hfiled hstanding.aligned hsplit' hgaps (htaken ▸ hfold)
      rw [← List.append_assoc, ← List.append_assoc] at hsplit'
      rw [← List.append_assoc] at hextended
      refine .read (by omega) ⟨hstanding.aligned, hstanding.lower, hstanding.upper,
        hstanding.published, .midway hsplit' hextended rfl ?_⟩ rfl rfl ?_ rfl
      · simp [htaken]
      · rw [List.length_drop]
        omega
  · next hmore =>
      rw [List.take_of_length_le (not_lt.mp hmore)] at hfold h
      exact closeBucket_advanced hfiled htiled hstanding hfolds hsplit hgaps hfold h

/-! ### One step of a plan -/

/-- The revision of a namespace. -/
def Store.revision (s : Store) (scope : Scope) : ℕ := (s.lockNamespace scope).1

/-- Nothing that a summary reads is different, and no revision. -/
structure Quiet (s s' : Store) : Prop where
  revision : ∀ scope, s'.revision scope = s.revision scope
  samples : s'.samples = s.samples
  fences : s'.fences = s.fences

theorem Quiet.refl (s : Store) : Quiet s s := ⟨fun _ => rfl, rfl, rfl⟩

theorem Quiet.trans {s'' : Store} (h : Quiet s s') (h' : Quiet s' s'') : Quiet s s'' :=
  ⟨fun scope => (h'.revision scope).trans (h.revision scope), h'.samples.trans h.samples,
    h'.fences.trans h.fences⟩

theorem Quiet.same (h : Quiet s s') : SameReads spec s s' := .of_eq h.samples h.fences

/-- A namespace that is entered has no revision yet. -/
theorem Quiet.of_eq {scope : Scope} (hnamespaces : s'.namespaces = s.namespaces.insertNew scope 0)
    (hsamples : s'.samples = s.samples) (hfences : s'.fences = s.fences) : Quiet s s' := by
  refine ⟨fun scope' => ?_, hsamples, hfences⟩
  show (s'.namespaces.get? scope').getD 0 = (s.namespaces.get? scope').getD 0
  rw [hnamespaces, Table.get?_insertNew]
  split
  · next heq =>
      subst heq
      cases s.namespaces.get? scope'
      all_goals rfl
  · rfl

theorem lockNamespace_quiet (s : Store) (scope : Scope) : Quiet s (s.lockNamespace scope).2 :=
  .of_eq rfl rfl rfl

theorem enroll_quiet (s : Store) (spec : SummarySpec) (window : Interval) (fold : Option Fold) :
    Quiet s (s.enroll spec window fold) := by
  cases fold with
  | none => exact @Quiet.of_eq s _ spec.stream.scope rfl rfl rfl
  | some fold => exact .refl s

theorem advanceFold_quiet {state state' : PlanState} {result : Work}
    (h : s.advanceFold r spec window state fold limits = .ok (result, state', s')) : Quiet s s' := by
  unfold Store.advanceFold at h
  obtain ⟨b, -, h⟩ := bind_eq_ok.mp h
  obtain ⟨gapWindow, -, h⟩ := bind_eq_ok.mp h
  obtain ⟨gaps, -, h⟩ := bind_eq_ok.mp h
  obtain ⟨c, -, h⟩ := bind_eq_ok.mp h
  split at h
  · cases h
    exact .refl s
  · unfold Store.closeBucket at h
    obtain ⟨d, -, h⟩ := bind_eq_ok.mp h
    obtain ⟨summary, -, h⟩ := bind_eq_ok.mp h
    have hput : Quiet s (s.putSummary spec summary) :=
      @Quiet.of_eq s _ spec.stream.scope rfl rfl rfl
    simp only at h
    split at h
    · cases h
      exact hput
    · cases h
      exact hput

theorem putPlan_quiet {state : PlanState} {done : Bool} (h : s.putPlan r state done = .ok s') :
    Quiet s s' ∧ s'.summaries = s.summaries ∧ ∀ k, s'.plans.get? k =
      if k = (r.scope, r.id) then some ⟨r, state, done⟩ else s.plans.get? k := by
  unfold Store.putPlan at h
  simp only at h
  split at h
  · next old hold =>
      split at h
      · cases h
        refine ⟨@Quiet.of_eq s _ r.scope rfl rfl rfl, rfl, fun k => ?_⟩
        change (Table.modify _ _ _).get? k = _
        rw [Table.get?_modify]
        split
        · next heq =>
            subst heq
            change (s.plans.get? _).map _ = _
            rw [show s.plans.get? (r.scope, r.id) = some old from hold]
            rfl
        · rfl
      · cases h
  · next hnone =>
      cases h
      refine ⟨@Quiet.of_eq s _ r.scope rfl rfl rfl, rfl, fun k => ?_⟩
      change (Table.insertNew _ _ _).get? k = _
      rw [Table.get?_insertNew, hnone]
      rfl

theorem Standing.congr (h : Standing s spec window fold rest) (hsame : SameReads spec s s')
    (hpublished : ∀ lo, Published s spec lo → Published s' spec lo) :
    Standing s' spec window fold rest where
  aligned := h.aligned
  lower := h.lower
  upper := h.upper
  published := fun lo hlo hlower hlt => hpublished lo (h.published lo hlo hlower hlt)
  paused := h.paused.congr hsame

/-- The fold of a plan counts at the revision it was begun at. -/
def Stands (s : Store) (spec : SummarySpec) (window : Interval) (revision : ℕ)
    (fold : Option Fold) : Prop :=
  ∀ f, fold = some f → f.revision ≤ revision ∧
    (f.revision = revision → ∃ rest, Standing s spec window f rest)

/-- A step begins where the fold stands, or at the start of the window. -/
theorem Stands.resume {revision : ℕ} {kept : Option Fold} (h : Stands s spec window revision kept)
    (htiled : Tiled spec window) : ∃ rest, Standing s spec window
      (Store.resume kept window revision) rest ∧ (Store.resume kept window revision).revision = revision := by
  have hfresh : Standing s spec window ⟨window.start, revision, none, none⟩
      (s.bucketSamples spec window.start) :=
    ⟨htiled.start, le_rfl, htiled.nonempty, fun lo _ hlower hlt => absurd hlt (not_lt.mpr hlower),
      .fresh rfl rfl⟩
  cases kept with
  | none => exact ⟨_, hfresh, rfl⟩
  | some f =>
      unfold Store.resume
      simp only
      split
      · next heq =>
          obtain ⟨rest, hstanding⟩ := (h f rfl).2 heq
          exact ⟨rest, hstanding, heq⟩
      · exact ⟨_, hfresh, rfl⟩

theorem recompute_tiled {state state' : PlanState} {revision : ℕ} {result : Work}
    (haction : r.action = .recompute spec window)
    (h : s.recompute r spec window state revision limits = .ok (result, state', s')) :
    Tiled spec window := by
  have hvalid := r.valid
  rw [haction] at hvalid
  obtain ⟨-, hpos, hnonempty, hbounded⟩ := hvalid
  unfold Store.recompute at h
  split at h
  · cases h
  · next hwindow =>
      rw [not_or, not_not, not_not] at hwindow
      exact ⟨hpos, hwindow.1, hnonempty, hbounded, hwindow.2⟩

theorem Advanced.congr {s₀ s₁ s₂ : Store} {result : Work} {kept : Option Fold}
    (h : Advanced s s₁ spec window fold rest result kept) (hbefore : s₀.summaries = s.summaries)
    (hsame : SameReads spec s₁ s₂) (hsummaries : s₂.summaries = s₁.summaries) :
    Advanced s₀ s₂ spec window fold rest result kept := by
  have hstores : ∀ lo, Stores s s₁ spec lo → Stores s₀ s₂ spec lo := by
    intro lo hlo
    obtain ⟨summary, hstored, hcomputes⟩ := hlo
    refine ⟨summary, ?_, hcomputes.congr hsame⟩
    rw [hsummaries, hstored, hbefore]
  have hpublished : ∀ lo, Published s₁ spec lo → Published s₂ spec lo :=
    fun lo hlo => hlo.congr hsame (by rw [hsummaries])
  cases h with
  | read pos standing revision same shorter kept =>
      refine .read pos (standing.congr hsame hpublished) revision same shorter ?_
      rw [hsummaries, kept, hbefore]
  | publish stores standing revision next =>
      exact .publish (hstores _ stores) (standing.congr hsame hpublished) revision next
  | complete stores published =>
      exact .complete (hstores _ stores) fun lo hlo hlower hlt =>
        hpublished lo (published lo hlo hlower hlt)

/-- A step keeps the buckets that are stored, or stores them again. -/
theorem Advanced.published {result : Work} {kept : Option Fold}
    (h : Advanced s s' spec window fold rest result kept) (hsame : SameReads spec s s') {lo : ℕ}
    (hlo : Published s spec lo) : Published s' spec lo := by
  have hstored : ∀ at_, Stores s s' spec at_ → Published s' spec lo := by
    intro at_ hstores
    by_cases heq : lo = at_
    · exact heq ▸ hstores.published
    · exact hlo.stores hstores hsame heq
  cases h with
  | read pos standing revision same shorter kept => exact hlo.congr hsame (by rw [kept])
  | publish stores standing revision next => exact hstored _ stores
  | complete stores published => exact hstored _ stores

/-- A step leaves the summaries of other specifications. -/
theorem advanceFold_summaries {state state' : PlanState} {result : Work} {other : SummarySpec}
    (h : s.advanceFold r spec window state fold limits = .ok (result, state', s'))
    (hother : other ≠ spec) (lo : ℕ) :
    s'.summaries.get? (other, lo) = s.summaries.get? (other, lo) := by
  unfold Store.advanceFold at h
  obtain ⟨b, -, h⟩ := bind_eq_ok.mp h
  obtain ⟨gapWindow, -, h⟩ := bind_eq_ok.mp h
  obtain ⟨gaps, -, h⟩ := bind_eq_ok.mp h
  obtain ⟨c, -, h⟩ := bind_eq_ok.mp h
  split at h
  · cases h
    rfl
  · unfold Store.closeBucket at h
    obtain ⟨d, -, h⟩ := bind_eq_ok.mp h
    obtain ⟨summary, -, h⟩ := bind_eq_ok.mp h
    have hput : (s.putSummary spec summary).summaries.get? (other, lo) =
        s.summaries.get? (other, lo) := by
      show (Table.upsert _ _ _ _).get? (other, lo) = _
      rw [Table.get?_upsert_const, if_neg (by simp [hother])]
      rfl
    simp only at h
    split at h
    · cases h
      exact hput
    · cases h
      exact hput

/-- A step that recomputes reads and stores; nothing else. -/
theorem recompute_quiet {state state' : PlanState} {revision : ℕ} {result : Work}
    (h : s.recompute r spec window state revision limits = .ok (result, state', s')) :
    Quiet s s' ∧ ∀ other lo, other ≠ spec →
      s'.summaries.get? (other, lo) = s.summaries.get? (other, lo) := by
  have hsummaries : (s.enroll spec window state.fold).summaries = s.summaries := by
    cases state.fold
    all_goals rfl
  unfold Store.recompute at h
  split at h
  · cases h
  · obtain ⟨pruned, -, h⟩ := bind_eq_ok.mp h
    split at h
    · cases h
    · refine ⟨(enroll_quiet s spec window state.fold).trans (advanceFold_quiet h),
        fun other lo hother => ?_⟩
      rw [advanceFold_summaries h hother, hsummaries]

theorem recompute_advanced {state state' : PlanState} {revision : ℕ} {result : Work}
    (hfiled : Filed s)
    (hstanding : Standing s spec window (Store.resume state.fold window revision) rest)
    (htiled : Tiled spec window)
    (h : s.recompute r spec window state revision limits = .ok (result, state', s')) :
    Advanced s s' spec window (Store.resume state.fold window revision) rest result state'.fold := by
  have henroll := enroll_quiet s spec window state.fold
  have hsummaries : (s.enroll spec window state.fold).summaries = s.summaries := by
    cases state.fold
    all_goals rfl
  have hfiled' : Filed (s.enroll spec window state.fold) := by
    intro k t row hrow
    rw [henroll.samples] at hrow
    exact hfiled k t row hrow
  unfold Store.recompute at h
  split at h
  · cases h
  · obtain ⟨pruned, -, h⟩ := bind_eq_ok.mp h
    split at h
    · cases h
    · have hadvanced := advanceFold_advanced hfiled' htiled (hstanding.congr henroll.same
        fun lo hlo => hlo.congr henroll.same (by rw [hsummaries])) h
      exact hadvanced.congr hsummaries.symm (.of_eq rfl rfl) rfl

/-- A step of a plan answers again, or works on the plan it has loaded and writes it back. -/
theorem maintain_eq_ok {after : Option ℕ} {now clock : ℕ}
    {outcome : Outcome Store.MaintenanceProgress}
    (h : s.maintain D r after now clock limits = .ok (outcome, s')) :
    (∃ p, outcome = .replay p ∧ s' = (s.lockNamespace r.scope).2) ∨
      ∃ state result state' s₁ ordinal, s.load r = .ok (state, false) ∧
        (s.lockNamespace r.scope).2.work D r state (s.revision r.scope) now clock limits =
          .ok (result, state', s₁) ∧
        Store.nextOrdinal state' result = .ok ordinal ∧
        s₁.putPlan r { state' with ordinal } (Store.Work.isDone result) = .ok s' ∧
        outcome = .accepted (Store.progressOf r ordinal result) := by
  unfold Store.maintain at h
  split at h
  · cases h
  · unfold Store.resumePlan at h
    obtain ⟨⟨state, done⟩, hload, h⟩ := bind_eq_ok.mp h
    simp only at h
    split at h
    · cases h
    · split at h
      · cases h
      · split at h
        · cases h
          exact .inl ⟨_, rfl, rfl⟩
        · next hdone =>
            split at h
            · cases h
              exact .inl ⟨_, rfl, rfl⟩
            · obtain ⟨⟨result, state', s₁⟩, hwork, h⟩ := bind_eq_ok.mp h
              obtain ⟨ordinal, hordinal, h⟩ := bind_eq_ok.mp h
              obtain ⟨s₂, hput, h⟩ := bind_eq_ok.mp h
              cases h
              rw [Bool.not_eq_true] at hdone
              rw [hdone] at hload
              exact .inr ⟨state, result, state', s₁, ordinal, hload, hwork, hordinal, hput, rfl⟩

/-- A plan that is loaded and works is written back and answers. -/
theorem maintain_of {s₁ : Store} {state state' : PlanState} {result : Work}
    {now clock ordinal : ℕ}
    (hrows : r.rows ≤ limits.maxPoints) (hbuckets : r.buckets ≤ limits.maxPoints)
    (hwidth : r.rows < 2 ^ 31)
    (hload : s.load r = .ok (state, false)) (hnow : now + limits.cursorMicros < 2 ^ 63)
    (hwork : (s.lockNamespace r.scope).2.work D r state (s.revision r.scope) now clock limits =
      .ok (result, state', s₁)) (hordinal : Store.nextOrdinal state' result = .ok ordinal)
    (hput : s₁.putPlan r { state' with ordinal } (Store.Work.isDone result) = .ok s') :
    s.maintain D r none now clock limits =
      .ok (.accepted (Store.progressOf r ordinal result), s') := by
  have hload' : (s.lockNamespace r.scope).2.load r = .ok (state, false) := hload
  unfold Store.maintain Store.resumePlan
  rw [if_neg (by omega), hload', ok_bind]
  simp only
  rw [if_neg (by omega)]
  unfold Store.advancePlan
  change (((s.lockNamespace r.scope).2.work D r state (s.revision r.scope) now clock limits) >>= _) = _
  rw [hwork, ok_bind]
  simp only
  rw [hordinal, ok_bind, hput, ok_bind]
  rfl

theorem load_eq_ok {state : PlanState} {done : Bool} : s.load r = .ok (state, done) ↔
    (s.plans.get? (r.scope, r.id) = none ∧ state = ⟨0, none, none⟩ ∧ done = false) ∨
      s.plans.get? (r.scope, r.id) = some ⟨r, state, done⟩ := by
  unfold Store.load
  cases hrow : s.plans.get? (r.scope, r.id) with
  | none => simp [eq_comm]
  | some row =>
      obtain ⟨binding, state', done'⟩ := row
      by_cases hbinding : binding = r
      · simp [hbinding]
      · simp [hbinding]

/-- The plan of the request may go on from where its fold stands. -/
def Ongoing (s : Store) (r : MaintenanceRequest) (spec : SummarySpec) (window : Interval) : Prop :=
  ∀ state, s.load r = .ok (state, false) → Stands s spec window (s.revision r.scope) state.fold

/-- The accepted step of a plan that recomputes. -/
theorem maintain_advanced {after : Option ℕ} {now clock : ℕ} {p : Store.MaintenanceProgress}
    (hfiled : Filed s) (haction : r.action = .recompute spec window)
    (hongoing : Ongoing s r spec window)
    (h : s.maintain D r after now clock limits = .ok (.accepted p, s')) :
    ∃ state rest result state', Tiled spec window ∧ s.load r = .ok (state, false) ∧
      Standing s spec window (Store.resume state.fold window (s.revision r.scope)) rest ∧
      (Store.resume state.fold window (s.revision r.scope)).revision = s.revision r.scope ∧
      Quiet s s' ∧
      Advanced s s' spec window (Store.resume state.fold window (s.revision r.scope)) rest result
        state'.fold ∧
      s'.load r = .ok (state', Store.Work.isDone result) ∧ p = Store.progressOf r state'.ordinal result := by
  rcases maintain_eq_ok h with ⟨p', heq, -⟩ | ⟨state, result, state', s₁, ordinal, hload, hwork,
    -, hput, heq⟩
  · cases heq
  · cases heq
    have hlock := lockNamespace_quiet s r.scope
    have hfiled' : Filed (s.lockNamespace r.scope).2 := hfiled
    have hrecompute : (s.lockNamespace r.scope).2.recompute r spec window state
        (s.revision r.scope) limits = .ok (result, state', s₁) := by
      unfold Store.work at hwork
      rw [haction] at hwork
      exact hwork
    have htiled := recompute_tiled haction hrecompute
    obtain ⟨rest, hstanding, hrevision⟩ := (hongoing state hload).resume htiled
    have hadvanced := recompute_advanced hfiled'
      (hstanding.congr hlock.same fun lo hlo => hlo.congr hlock.same rfl) htiled hrecompute
    have hquiet := (recompute_quiet hrecompute).1
    obtain ⟨hwritten, hsummaries, hplan⟩ := putPlan_quiet hput
    exact ⟨state, rest, result, { state' with ordinal }, htiled, hload, hstanding, hrevision,
      hlock.trans (hquiet.trans hwritten), hadvanced.congr rfl hwritten.same hsummaries,
      load_eq_ok.mpr (.inr (by rw [hplan, if_pos rfl])), rfl⟩

end Rss.TimeseriesPostgres
