import Rss.Library.Fallible
import Rss.Model.Timeseries.Sample
import Mathlib.Data.Prod.Lex

/-! # Summaries

The shared arithmetic of `aggregate.rs`: a summary is folded from ordered samples, merged with
the summary of the next window, and projected to a bucket. -/

namespace Rss.Timeseries

/-! ### Numeric statistics -/

inductive Sum where
  | i128 (v : ℤ)
  | u128 (v : ℕ)
  | f64 (v : FiniteF64)
  deriving DecidableEq, Repr

namespace Sum

def zero : NumberKind → Sum
  | .i64 => .i128 0
  | .u64 => .u128 0
  | .f64 => .f64 .zero

def checkedAdd : Sum → Sum → Except Error Sum
  | .i128 a, .i128 b =>
      if -2 ^ 127 ≤ a + b ∧ a + b < 2 ^ 127 then .ok (.i128 (a + b)) else .error .numericRange
  | .u128 a, .u128 b => (okOr (Rss.checkedAdd 128 a b) .numericRange).map .u128
  | .f64 a, .f64 b => (FiniteF64.new (a.get + b.get)).map .f64
  | _, _ => .error .invalidInput

end Sum

/-- `as_sum`. -/
def Number.asSum : Number → Sum
  | .i64 v => .i128 v.toInt
  | .u64 v => .u128 v.toNat
  | .f64 v => .f64 v

structure Numeric where
  sum : Sum
  count : ℕ
  min : Option Number
  max : Option Number
  deriving DecidableEq, Repr

inductive AggregateOp where
  | min | max | sum | count | mean | increase | rate | timeline | transitions | coverage
  deriving DecidableEq, Repr

structure StateSegment where
  value : StateValue
  window : Interval

structure Transition where
  at_ : ℕ
  before : StateValue
  after : StateValue
  deriving DecidableEq, Repr

structure StateDuration where
  value : StateValue
  micros : ℕ
  deriving DecidableEq, Repr

inductive AggregateValue where
  | number (n : Number)
  | sum (s : Sum)
  | count (n : ℕ)
  | mean (sum : Sum) (count : ℕ)
  | rate (increase : Sum) (durationMicros : ℕ)
  | stateSegments (segments : List StateSegment)
  | transitions (transitions : List Transition)
  | stateCoverage (durations : List StateDuration)
  | missing

namespace Numeric

/-- `Numeric::compute` of no samples. -/
def empty (kind : NumberKind) : Numeric := ⟨.zero kind, 0, none, none⟩

/-- The number replaces a bound it compares to in the given way, or an absent one. -/
def replaces (n : Number) (bound : Option Number) (way : Ordering) : Except Error Bool :=
  match bound with
  | none => .ok true
  | some v => (Number.compare n v).map (· == way)

def extrema (s : Numeric) (n : Number) : Except Error Numeric := do
  let s := if ← replaces n s.min .lt then { s with min := some n } else s
  pure (if ← replaces n s.max .gt then { s with max := some n } else s)

def add (s : Numeric) (n : Number) : Except Error Numeric := do
  let sum ← s.sum.checkedAdd n.asSum
  let count ← okOr (checkedAdd 64 s.count 1) .numericRange
  extrema { s with sum, count } n

/-- The extrema of the other side, where it has them. -/
def extrema? (s : Numeric) : Option Number → Except Error Numeric
  | some n => s.extrema n
  | none => .ok s

def merge (s b : Numeric) : Except Error Numeric := do
  let sum ← s.sum.checkedAdd b.sum
  let count ← okOr (checkedAdd 64 s.count b.count) .numericRange
  let s ← extrema? { s with sum, count } b.min
  extrema? s b.max

def project (s : Numeric) (op : AggregateOp) : Except Error AggregateValue :=
  if s.count = 0 then .ok .missing
  else match op with
    | .sum => .ok (.sum s.sum)
    | .count => .ok (.count s.count)
    | .mean => .ok (.mean s.sum s.count)
    | .min => (okOr s.min .invariant).map .number
    | .max => (okOr s.max .invariant).map .number
    | _ => .error .unsupported

end Numeric

/-! ### Specifications -/

inductive CoveragePolicy where
  | observedOnly
  | holdLast (micros : ℕ)
  deriving DecidableEq, Repr

structure SummarySpec where
  stream : Stream
  series : Series
  resolution : ℕ
  coverage : CoveragePolicy
  maxGap : Option ℕ

def SummarySpec.metric (spec : SummarySpec) : Metric := spec.series.metric

def SummarySpec.validate (spec : SummarySpec) : Except Error Unit := do
  if spec.stream.scope ≠ spec.series.definition.scope then throw .invalidInput
  if spec.resolution > 2 ^ 63 - 1 then throw .numericRange
  let counter := match spec.metric with | .counter _ _ => true | _ => false
  let state := match spec.metric with | .bool | .state _ => true | _ => false
  if counter ≠ spec.maxGap.isSome ∨ (state = false ∧ spec.coverage ≠ .observedOnly) then
    throw .invalidInput

/-- `selection().matches(sample)` for the exact selection of a specification. -/
def SummarySpec.matches (spec : SummarySpec) (s : Sample) : Bool :=
  spec.stream = s.stream && spec.series = s.series

/-- What the digest `semantics()` is taken of: everything but the resolution. -/
structure Semantics where
  stream : Stream
  series : Series
  coverage : CoveragePolicy
  maxGap : Option ℕ
  deriving DecidableEq

def SummarySpec.semantics (spec : SummarySpec) : Semantics :=
  ⟨spec.stream, spec.series, spec.coverage, spec.maxGap⟩

/-! ### Counters and states -/

inductive Completeness where
  | gaps | overlap | resetBoundary | boundary
  deriving DecidableEq, Repr

structure Contribution where
  window : Interval
  increase : Sum

def difference : Number → Number → Except Error Sum
  | .i64 a, .i64 b => .ok (.i128 (b.toInt - a.toInt))
  | .u64 a, .u64 b => (okOr (checkedSub b.toNat a.toNat) .numericRange).map .u128
  | .f64 a, .f64 b => (FiniteF64.new (b.get - a.get)).map .f64
  | _, _ => .error .invalidInput

/-- The greatest sequence and id win at a shared timestamp. -/
def points (samples : List Sample) : List Sample :=
  samples.foldl (fun out s =>
    match out.getLast? with
    | some p => if p.observedAt = s.observedAt then out.dropLast ++ [s] else out ++ [s]
    | none => out ++ [s]) []

/-- The contribution of two points of a cumulative counter, with the defects it adds. -/
def cumulative (a b : Sample) (maxGap : ℕ) :
    Except Error (Option Contribution × Finset Completeness) :=
  match a.number, b.number with
  | some x, some y => do
      let ai ← okOr a.interval .invariant
      let bi ← okOr b.interval .invariant
      let reset ← if ai.start ≠ bi.start ∨ bi.widthMicros = 0 then pure true
        else (Number.compare y x).map (· == .lt)
      if reset then
        return (none, {.resetBoundary})
      let window ← Interval.new a.observedAt b.observedAt
      if window.widthMicros > maxGap then
        return (none, {.gaps})
      let increase ← difference x y
      return (some ⟨window, increase⟩, ∅)
  | _, _ => .ok (none, {.gaps})

/-- The contribution of one delta sample. -/
def delta (s : Sample) (maxGap : ℕ) : Except Error (Option Contribution × Finset Completeness) :=
  match s.number with
  | some n => do
      let w ← okOr s.interval .invariant
      if w.widthMicros > maxGap then
        return (none, {.gaps})
      return (some ⟨w, n.asSum⟩, ∅)
  | none => .ok (none, ∅)

/-- The contributions of delta samples inside the window. -/
def deltas (window : Interval) (maxGap : ℕ) :
    List Sample → Except Error (List Contribution × Finset Completeness)
  | [] => .ok ([], ∅)
  | s :: rest => do
      let (c, found) ← if inside s.observedAt window then delta s maxGap else pure (none, ∅)
      let (out, defects) ← deltas window maxGap rest
      return (c.toList ++ out, found ∪ defects)

/-- The contributions of neighbouring points whose second is inside the window. -/
def pairs (window : Interval) (maxGap : ℕ) :
    List Sample → Except Error (List Contribution × Finset Completeness)
  | a :: b :: rest => do
      let (c, found) ← if inside b.observedAt window then cumulative a b maxGap
        else pure (none, ∅)
      let (out, defects) ← pairs window maxGap (b :: rest)
      return (c.toList ++ out, found ∪ defects)
  | _ => .ok ([], ∅)

def counter (spec : SummarySpec) (window : Interval) (samples : List Sample)
    (temporality : Temporality) : Except Error (List Contribution × Finset Completeness) := do
  let maxGap ← okOr spec.maxGap .invariant
  match temporality with
  | .delta => deltas window maxGap samples
  | .cumulative => pairs window maxGap (points samples)

/-- What the loop of `project_counter` has seen. -/
structure Tally where
  sum : Sum
  covered : ℕ
  last : Option ℕ
  overlap : Bool
  defects : Finset Completeness

def Tally.take (window : Interval) (t : Tally) (c : Contribution) : Except Error Tally := do
  if c.window.start < window.start ∨ window.stop < c.window.stop then
    return { t with defects := insert .boundary t.defects }
  let overlap := t.overlap || t.last.any (fun stop => c.window.start < stop)
  let last := match t.last with
    | some stop => max stop c.window.stop
    | none => c.window.stop
  let sum ← t.sum.checkedAdd c.increase
  let covered ← okOr (checkedAdd 64 t.covered c.window.widthMicros) .numericRange
  return ⟨sum, covered, some last, overlap, t.defects⟩

def projectCounter (kind : NumberKind) (items : List Contribution) (window : Interval)
    (op : AggregateOp) (defects : Finset Completeness) :
    Except Error (AggregateValue × ℕ × Finset Completeness) := do
  let ordered := items.mergeSort
    (fun a b => a.window.start < b.window.start ||
      (a.window.start = b.window.start && a.window.stop ≤ b.window.stop))
  let t ← ordered.foldlM (Tally.take window) ⟨.zero kind, 0, none, false, defects⟩
  if t.overlap then
    return (.missing, 0, insert .overlap t.defects)
  if t.covered = 0 then
    return (.missing, 0, t.defects)
  match op with
  | .sum | .increase => return (.sum t.sum, t.covered, t.defects)
  | .rate => return (.rate t.sum t.covered, t.covered, t.defects)
  | _ => throw .unsupported

/-- The transition into the state of `s`, when the state before it still held. -/
def transitionInto (spec : SummarySpec) (window : Interval) (previous : Option Sample) (s : Sample)
    (value : StateValue) : Option Transition :=
  match previous with
  | none => none
  | some prev =>
      if inside s.observedAt window then
        match prev.stateValue with
        | none => none
        | some before =>
            let continuous := match spec.coverage with
              | .observedOnly => true
              | .holdLast n => decide (s.observedAt - prev.observedAt ≤ n)
            if continuous && decide (before ≠ value) then some ⟨s.observedAt, before, value⟩
            else none
      else none

/-- Where the state of a point ends: at once, or after its hold, before the next point and
within the window. -/
def holdEnd (spec : SummarySpec) (window : Interval) (at_ : ℕ) (next : Option ℕ) :
    ℕ :=
  match spec.coverage with
  | .observedOnly => at_
  | .holdLast n =>
      min (min (min (at_ + n) timestampMax) (next.getD window.stop)) window.stop

def statePiece (spec : SummarySpec) (window : Interval) (previous : Option Sample) (s : Sample)
    (next : Option ℕ) : Except Error (Option StateSegment × Option Transition) :=
  match s.stateValue with
  | none => .ok (none, none)
  | some value =>
      if s.observedAt ≥ window.stop then .ok (none, none)
      else
        let transition := transitionInto spec window previous s value
        let stop := holdEnd spec window s.observedAt next
        let start := max s.observedAt window.start
        if start ≤ stop then do
          let held ← Interval.new start stop
          pure (some ⟨value, held⟩, transition)
        else .ok (none, transition)

/-- What the loop of `project_state` has seen. -/
structure Timeline where
  durations : List StateDuration
  compact : List StateSegment
  covered : ℕ

/-- The time of the first entry with the value, or a new entry. -/
def addDuration (value : StateValue) (micros : ℕ) :
    List StateDuration → Except Error (List StateDuration)
  | [] => .ok [⟨value, micros⟩]
  | d :: rest =>
      if d.value = value then do
        let total ← okOr (checkedAdd 64 d.micros micros) .numericRange
        pure ({ d with micros := total } :: rest)
      else do
        let rest ← addDuration value micros rest
        pure (d :: rest)

/-- A segment that continues the last one lengthens it. -/
def compactInto (compact : List StateSegment) (s : StateSegment) :
    Except Error (List StateSegment) :=
  match compact.getLast? with
  | some last =>
      if last.value = s.value ∧ last.window.stop = s.window.start then do
        let window ← Interval.new last.window.start s.window.stop
        pure (compact.dropLast ++ [{ last with window }])
      else .ok (compact ++ [s])
  | none => .ok (compact ++ [s])

def Timeline.take (t : Timeline) (s : StateSegment) : Except Error Timeline := do
  let covered ← okOr (checkedAdd 64 t.covered s.window.widthMicros) .numericRange
  let durations ← addDuration s.value s.window.widthMicros t.durations
  let compact ← compactInto t.compact s
  pure ⟨durations, compact, covered⟩

def projectState (segments : List StateSegment) (transitions : List Transition)
    (op : AggregateOp) : Except Error (AggregateValue × ℕ) := do
  let t ← segments.foldlM Timeline.take ⟨[], [], 0⟩
  if segments.isEmpty then
    return (.missing, 0)
  match op with
  | .timeline => return (.stateSegments t.compact, t.covered)
  | .transitions => return (.transitions transitions, t.covered)
  | .coverage => return (.stateCoverage t.durations, t.covered)
  | _ => throw .unsupported

/-! ### Summaries -/

inductive Statistics where
  | numeric (n : Numeric)
  | counter (kind : NumberKind) (contributions : List Contribution)
  | state (segments : List StateSegment) (transitions : List Transition)

structure Summary where
  window : Interval
  semantics : Semantics
  valid : ℕ
  defects : Finset Completeness
  data : Statistics

structure AggregateBucket where
  window : Interval
  value : AggregateValue
  validSamples : ℕ
  coveredMicros : ℕ
  completeness : Finset Completeness

namespace Summary

def size (s : Summary) : ℕ :=
  match s.data with
  | .numeric _ => 1
  | .counter _ contributions => contributions.length
  | .state segments transitions => segments.length + transitions.length

def checkSize (s : Summary) (max : ℕ) : Except Error Unit :=
  if s.size > max then .error .budgetExceeded else .ok ()

/-- The statistics of two neighbouring windows. -/
def mergeData : Statistics → Statistics → Except Error Statistics
  | .numeric a, .numeric b => (a.merge b).map .numeric
  | .counter a x, .counter b y =>
      if a = b then .ok (.counter a (x ++ y)) else .error .invalidInput
  | .state a x, .state b y => .ok (.state (a ++ b) (x ++ y))
  | _, _ => .error .invalidInput

def merge (s other : Summary) (maxItems : ℕ) : Except Error Summary := do
  if s.window.stop ≠ other.window.start ∨ s.semantics ≠ other.semantics then
    throw .invalidInput
  let window ← Interval.new s.window.start other.window.stop
  let valid ← okOr (checkedAdd 64 s.valid other.valid) .numericRange
  let data ← mergeData s.data other.data
  let merged : Summary := ⟨window, s.semantics, valid, s.defects ∪ other.defects, data⟩
  merged.checkSize maxItems
  pure merged

/-- The next summary is merged to those before it, if there are any. -/
def mergeAfter (value : Option Summary) (next : Summary) (maxItems : ℕ) : Except Error Summary :=
  match value with
  | none => .ok next
  | some old => old.merge next maxItems

/-- The value, covered time and defects of each kind of statistics. -/
def projectData (s : Summary) (op : AggregateOp) :
    Except Error (AggregateValue × ℕ × Finset Completeness) :=
  match s.data with
  | .numeric n => (n.project op).map (fun value => (value, 0, s.defects))
  | .counter kind contributions => projectCounter kind contributions s.window op s.defects
  | .state segments transitions =>
      (projectState segments transitions op).map (fun r => (r.1, r.2, s.defects))

def isNumeric (s : Summary) : Bool :=
  match s.data with
  | .numeric _ => true
  | _ => false

def project (s : Summary) (op : AggregateOp) : Except Error AggregateBucket := do
  let (value, covered, defects) ← s.projectData op
  let defects :=
    if !s.isNumeric && covered < s.window.widthMicros then insert .gaps defects else defects
  pure ⟨s.window, value, s.valid, covered, defects⟩

end Summary

/-! ### Folding samples -/

structure SummaryBuilder where
  spec : SummarySpec
  summary : Summary
  previous : Option Sample
  pending : Option Sample

namespace SummaryBuilder

def new (spec : SummarySpec) (window : Interval) : Except Error SummaryBuilder := do
  spec.validate
  if window.widthMicros = 0 then throw .invalidInput
  let data := match spec.metric with
    | .gauge number => .numeric (.empty number)
    | .counter number _ => .counter number []
    | .bool | .state _ => .state [] []
  pure ⟨spec, ⟨window, spec.semantics, 0, ∅, data⟩, none, none⟩

/-- The statistics after a point, with the defects it adds. -/
def flushData (b : SummaryBuilder) (p : Sample) (next : Option Sample) :
    Except Error (Statistics × Finset Completeness) :=
  let w := b.summary.window
  match b.summary.data with
  | .numeric n =>
      match inside p.observedAt w, p.number with
      | true, some v => (n.add v).map (fun n => (.numeric n, ∅))
      | _, _ => .ok (.numeric n, ∅)
  | .counter kind contributions =>
      if inside p.observedAt w then
        match b.spec.metric with
        | .counter _ temporality => do
            let input := b.previous.toList ++ [p]
            let only := if temporality = .delta then [p] else input
            let (found, defects) ← counter b.spec w only temporality
            pure (.counter kind (contributions ++ found), defects)
        | _ => .error .invariant
      else .ok (.counter kind contributions, ∅)
  | .state segments transitions => do
      let (segment, transition) ←
        statePiece b.spec w b.previous p (next.map (fun s => s.observedAt))
      pure (.state (segments ++ segment.toList) (transitions ++ transition.toList), ∅)

/-- The pending point enters the statistics. -/
def flush (b : SummaryBuilder) (next : Option Sample) : Except Error SummaryBuilder :=
  match b.pending with
  | none => .ok b
  | some p => do
      let counted := inside p.observedAt b.summary.window
      let valid ← if counted && p.isValid then
          okOr (checkedAdd 64 b.summary.valid 1) .numericRange
        else pure b.summary.valid
      let defects := if counted && !p.isValid then insert .gaps b.summary.defects
        else b.summary.defects
      let (data, found) ← b.flushData p next
      pure { b with
        summary := { b.summary with valid, defects := found ∪ defects, data }
        previous := some p
        pending := none }

/-- Metrics of which only the last sample at a timestamp counts. -/
def ordered (metric : Metric) : Bool :=
  match metric with
  | .counter _ .cumulative | .bool | .state _ => true
  | _ => false

def push (b : SummaryBuilder) (sample : Sample) (maxItems : ℕ) : Except Error SummaryBuilder := do
  if !b.spec.matches sample then throw .invalidInput
  match b.pending with
  | some p =>
      if p.stream ≠ sample.stream ∨ p.series ≠ sample.series then throw .invalidInput
      if ¬ p.Before sample then throw .conflict
      if ordered b.spec.metric && decide (p.observedAt = sample.observedAt) then
        return { b with pending := some sample }
  | none => pure ()
  let b ← b.flush (some sample)
  let b := { b with pending := some sample }
  b.summary.checkSize maxItems
  pure b

/-- Unavailable time cuts the continuity: the pending point enters the part of the window before
it, and no point precedes what follows. -/
def interrupt (b : SummaryBuilder) (at_ : ℕ) : Except Error SummaryBuilder := do
  let full := b.summary.window
  let window ← Interval.new full.start (min (max at_ full.start) full.stop)
  let b ← flush { b with summary := { b.summary with window } } none
  pure { b with
    summary := { b.summary with window := full, defects := insert .gaps b.summary.defects }
    previous := none }

def lastObservedAt (b : SummaryBuilder) : Option ℕ :=
  (b.pending <|> b.previous).map (fun s => s.observedAt)

def finish (b : SummaryBuilder) (maxItems : ℕ) : Except Error Summary := do
  let b ← b.flush none
  b.summary.checkSize maxItems
  pure b.summary

end SummaryBuilder

/-- The samples are of the specification, strictly ordered and of distinct identity. -/
def checkCanonical (spec : SummarySpec) (previous : Option Sample) (ids : List String) :
    List Sample → Except Error Unit
  | [] => .ok ()
  | s :: rest => do
      if !spec.matches s then throw .invalidInput
      if previous.any (fun p => ¬ p.Before s) ∨ s.id ∈ ids then throw .conflict
      checkCanonical spec (some s) (s.id :: ids) rest

def Summary.compute (spec : SummarySpec) (window : Interval) (samples : List Sample)
    (maxItems : ℕ) : Except Error Summary := do
  if samples.length > maxItems ∨ window.widthMicros = 0 then throw .budgetExceeded
  checkCanonical spec none [] samples
  let builder ← SummaryBuilder.new spec window
  let builder ← samples.foldlM (fun b s => b.push s maxItems) builder
  builder.finish maxItems

/-! ### Statistics a provider computed -/

/-- Exact integer statistics of a gauge, reconstructed by a trusted provider. -/
structure GaugeStatistics where
  sum : Sum
  count : ℕ
  min : Option Number
  max : Option Number
  gaps : Bool
  count_lt : count < 2 ^ 64

/-- Multiplication of `i128`, which wraps where the build does not check for overflow. -/
def mulI128 (a b : ℤ) : ℤ := Int.bmod (a * b) (2 ^ 128)

/-- Multiplication of `u128`. -/
def mulU128 (a b : ℕ) : ℕ := a * b % 2 ^ 128

namespace Numeric

/-- The test of `from_integer_statistics`: an absent range has no values, and a range bounds the
sum of its values. -/
def consistent (kind : NumberKind) (stats : GaugeStatistics) : Bool :=
  match kind, stats.sum, stats.min, stats.max with
  | .i64, .i128 sum, some (.i64 lo), some (.i64 hi) =>
      decide (0 < stats.count) && decide (lo.toInt ≤ hi.toInt) &&
        decide (mulI128 lo.toInt stats.count ≤ sum) && decide (sum ≤ mulI128 hi.toInt stats.count)
  | .u64, .u128 sum, some (.u64 lo), some (.u64 hi) =>
      decide (0 < stats.count) && decide (lo.toNat ≤ hi.toNat) &&
        decide (mulU128 lo.toNat stats.count ≤ sum) && decide (sum ≤ mulU128 hi.toNat stats.count)
  | .i64, .i128 sum, none, none => decide (sum = 0) && decide (stats.count = 0)
  | .u64, .u128 sum, none, none => decide (sum = 0) && decide (stats.count = 0)
  | _, _, _, _ => false

def fromIntegerStatistics (kind : NumberKind) (stats : GaugeStatistics) : Except Error Numeric :=
  if consistent kind stats then .ok ⟨stats.sum, stats.count, stats.min, stats.max⟩
  else .error .invariant

end Numeric

def Summary.fromIntegerGauge (spec : SummarySpec) (window : Interval) (stats : GaugeStatistics) :
    Except Error Summary := do
  spec.validate
  match spec.metric with
  | .gauge number =>
      if window.widthMicros = 0 then throw .invalidInput
      let n ← Numeric.fromIntegerStatistics number stats
      pure ⟨window, spec.semantics, stats.count, if stats.gaps then {.gaps} else ∅, .numeric n⟩
  | _ => throw .unsupported

end Rss.Timeseries
