import Rss.Model.TimeseriesPostgres.Store

/-! # Reading summaries

`aggregate.rs` and the fence queries of `lifecycle.rs`. A budget of bytes is not modelled: a
transaction that exceeds it fails. -/

namespace Rss.TimeseriesPostgres

open Rss.Timeseries

/-- The bounds of a provider instance. -/
structure Limits where
  maxPoints : ℕ
  replayMicros : ℕ
  cursorMicros : ℕ
  maxPoints_pos : 0 < maxPoints
  replayMicros_pos : 0 < replayMicros

namespace Store

/-! ### Fences -/

/-- `lifecycle::fences`: those that meet the selection inside the window, restored deletions
apart. -/
def fencesWithin (s : Store) (selection : Selection) (window : Interval) (kinds : List FenceKind)
    (limit : ℕ) : Except Error (List Fence) :=
  let found := ((s.fences.rows.filter (fun row => row.1.1 = selection.scope &&
      row.2.selection.overlaps selection && decide (row.2.lo < window.stop) &&
      decide (window.start < row.2.hi) && decide (row.2.kind ∈ kinds) &&
      (decide (row.2.kind ≠ .delete) || !row.2.restored))).mergeSort
    (fun a b => ((compare a.2.lo b.2.lo).then
      ((compare a.2.hi b.2.hi).then (compare a.1.2 b.1.2))).isLE)).map Prod.snd
  if found.length > limit then .error .budgetExceeded else .ok found

/-- Some part of the window is pruned, as `availability` reports it. -/
def prunedWithin (s : Store) (selection : Selection) (window : Interval) (limit : ℕ) :
    Except Error Bool := do
  let found ← s.fencesWithin selection window [.pruned, .delete] limit
  return found.any (fun f => decide (f.kind = .pruned) &&
    decide (max f.lo window.start < min f.hi window.stop))

/-- The deleted intervals of the series, by their start. -/
def deletions (s : Store) (spec : SummarySpec) (window : Interval) (limit : ℕ) :
    Except Error (List (ℕ × ℕ)) := do
  let found ← s.fencesWithin spec.selection window [.delete] limit
  return (found.map (fun f => (f.lo, f.hi))).mergeSort (fun a b => a.1 ≤ b.1)

/-! ### Samples -/

def needsPredecessor (spec : SummarySpec) : Bool :=
  match spec.metric with
  | .counter _ .cumulative | .bool | .state _ => true
  | _ => false

/-- The visible samples of the series inside the bounds, in order. -/
def seriesWithin (s : Store) (spec : SummarySpec) (lo hi : ℕ) : List Sample :=
  ((s.samples.rows.filter (fun row => row.1.1.1 = spec.stream && row.2.raw.series = spec.series &&
      decide (lo ≤ row.1.2) && decide (row.1.2 < hi) && s.visible row.2.raw)).map
    (fun row => row.2.raw)).mergeSort (fun a b => !decide (b.Before a))

/-- The last visible sample before a time, for the metrics that need it. -/
def predecessor (s : Store) (spec : SummarySpec) (at_ : ℕ) : Option Sample :=
  if needsPredecessor spec then (s.seriesWithin spec 0 at_).getLast? else none

/-- No pruned fence may have taken what the window needs of the time before it. -/
def ensureBoundary (s : Store) (spec : SummarySpec) (at_ : ℕ) (prior : Option Sample)
    (limit : ℕ) : Except Error Unit := do
  if !needsPredecessor spec then return ()
  let start := match reach spec with
    | none => 0
    | some _ => at_ - spec.lookback
  if start = at_ then return ()
  let window ← Interval.new start at_
  let found ← s.fencesWithin spec.selection window [.pruned] limit
  if found.any (fun f => prior.all (fun p => p.observedAt < f.hi)) then throw .historyExpired

end Store

/-- The deletions up to a time that start at or after the last point cut the fold. -/
def mask (gaps : List (ℕ × ℕ)) (at_ : ℕ) (b : SummaryBuilder) : Except Error SummaryBuilder :=
  gaps.foldlM (fun b gap =>
    if gap.1 ≤ at_ ∧ b.lastObservedAt.any (fun last => last < gap.2 && last ≤ gap.1) = true then
      b.interrupt gap.1
    else .ok b) b

/-- The samples one after another, with the deletions before each. -/
def maskAndPush (gaps : List (ℕ × ℕ)) (maxItems : ℕ) (b : SummaryBuilder) (samples : List Sample) :
    Except Error SummaryBuilder :=
  samples.foldlM (fun b x => do
    let b ← mask gaps x.observedAt b
    b.push x maxItems) b

namespace Store

/-- `aggregate::raw`. -/
def raw (s : Store) (spec : SummarySpec) (window : Interval) (limits : Limits) :
    Except Error Summary := do
  let prior := s.predecessor spec window.start
  s.ensureBoundary spec window.start prior limits.maxPoints
  let samples := s.seriesWithin spec window.start window.stop
  if samples.length > limits.maxPoints then throw .budgetExceeded
  let gapWindow ← Interval.new (match prior with
    | some p => p.observedAt
    | none => window.start) window.stop
  let gaps ← s.deletions spec gapWindow limits.maxPoints
  let builder ← SummaryBuilder.new spec window
  let builder ← match prior with
    | some p => builder.push p limits.maxPoints
    | none => pure builder
  let builder ← maskAndPush gaps limits.maxPoints builder samples
  let builder ← mask gaps window.stop builder
  builder.finish limits.maxPoints

/-! ### Stored summaries -/

/-- The clean rows of the same semantics inside the window, by their start, the longest first. -/
def references (s : Store) (spec : SummarySpec) (window : Interval) : List (ℕ × SummaryRow) :=
  ((s.summaries.rows.filter (fun row => row.1.1.stream.scope = spec.stream.scope &&
      decide (row.1.1.semantics = spec.semantics) && decide (window.start ≤ row.1.2) &&
      decide (row.2.hi ≤ window.stop) && !row.2.dirty)).mergeSort
    (fun a b => ((compare a.1.2 b.1.2).then (compare b.2.hi a.2.hi)).isLE)).map
      (fun row => (row.1.2, row.2))

end Store

/-- The rows in order: each one that starts where the chain stands is merged to it. -/
def walk (stop maxPoints : ℕ) : ℕ → Option Summary → List (ℕ × SummaryRow) →
    Except Error (Option Summary)
  | _, _, [] => .ok none
  | at_, result, (lo, row) :: rest =>
      if lo ≠ at_ then walk stop maxPoints at_ result rest
      else do
        let window ← Interval.new lo row.hi
        if row.data.window ≠ window then throw .invariant
        let merged ← Summary.mergeAfter result row.data maxPoints
        if row.hi = stop then return some merged
        walk stop maxPoints row.hi (some merged) rest

namespace Store

/-- `aggregate::cached`. -/
def cached (s : Store) (spec : SummarySpec) (window : Interval) (limits : Limits) :
    Except Error (Option Summary) :=
  let rows := s.references spec window
  if rows.length > limits.maxPoints then .error .budgetExceeded
  else walk window.stop limits.maxPoints window.start none rows

end Store

end Rss.TimeseriesPostgres
