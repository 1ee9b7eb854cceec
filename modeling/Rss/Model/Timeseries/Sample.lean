import Mathlib.Algebra.Order.Ring.Int
import Mathlib.Data.Finset.Basic
import Rss.Library.Fallible

/-! # Observations of a series

Numbers, readings, definitions and validated samples of the timeseries crate. Timestamps are
microseconds. An `f64` is a `Float`, whose operations are those of IEEE binary64. -/

namespace Rss.Timeseries

inductive Error where
  | invalidInput | budgetExceeded | numericRange | conflict | incompatibleDefinition | retired
  | unsupported | invalidCursor | historyExpired | unavailable | invariant
  deriving DecidableEq, Repr

/-- The largest timestamp, reserved as an exclusive bound. -/
def timestampMax : ℕ := 2 ^ 63 - 1

/-- An ordered interval. -/
structure Interval where
  start : ℕ
  stop : ℕ
  le : start ≤ stop

namespace Interval

/-- `Interval::new`. -/
def new (start stop : ℕ) : Except Error Interval :=
  if h : start ≤ stop then .ok ⟨start, stop, h⟩ else .error .invalidInput

def widthMicros (w : Interval) : ℕ := w.stop - w.start

end Interval

def inside (at_ : ℕ) (w : Interval) : Bool := w.start ≤ at_ && at_ < w.stop

/-- `f64::partial_cmp`. -/
def partialCmp (a b : Float) : Option Ordering := a.toModel.compare b.toModel

/-- A finite value, whose zero is the positive one. -/
structure FiniteF64 where
  get : Float
  finite : get.isFinite = true
  canonical : (get == Float.ofBits 0) = true → get = Float.ofBits 0
  deriving DecidableEq

namespace FiniteF64

def zero : FiniteF64 := ⟨Float.ofBits 0, by decide, fun _ => rfl⟩

/-- `FiniteF64::new`. -/
def new (v : Float) : Except Error FiniteF64 :=
  if finite : v.isFinite = true then
    if isZero : (v == Float.ofBits 0) = true then .ok zero
    else .ok ⟨v, finite, fun h => absurd h isZero⟩
  else .error .numericRange

end FiniteF64

instance : Repr FiniteF64 := ⟨fun v => reprPrec v.get⟩

inductive NumberKind where
  | i64 | u64 | f64
  deriving DecidableEq, Repr

inductive Number where
  | i64 (v : Int64)
  | u64 (v : UInt64)
  | f64 (v : FiniteF64)
  deriving DecidableEq, Repr

namespace Number

def kind : Number → NumberKind
  | .i64 _ => .i64
  | .u64 _ => .u64
  | .f64 _ => .f64

def isNegative : Number → Bool
  | .i64 v => v.toInt < 0
  | .u64 _ => false
  | .f64 v => v.get < Float.ofBits 0

/-- `numeric::compare`. -/
def compare : Number → Number → Except Error Ordering
  | .i64 a, .i64 b => .ok (Ord.compare a.toInt b.toInt)
  | .u64 a, .u64 b => .ok (Ord.compare a.toNat b.toNat)
  | .f64 a, .f64 b => okOr (partialCmp a.get b.get) .numericRange
  | _, _ => .error .invalidInput

end Number

inductive Value where
  | number (n : Number)
  | bool (b : Bool)
  | state (id : String)
  deriving DecidableEq, Repr

inductive Reading where
  | valid (v : Value)
  | missing
  | failed
  deriving DecidableEq, Repr

inductive Temporality where
  | cumulative | delta
  deriving DecidableEq, Repr

inductive Metric where
  | gauge (number : NumberKind)
  | counter (number : NumberKind) (temporality : Temporality)
  | bool
  | state (members : Finset String)
  deriving DecidableEq

def Metric.accepts : Metric → Value → Bool
  | .gauge number, .number n => number = n.kind
  | .counter number _, .number n => number = n.kind && !n.isNegative
  | .bool, .bool _ => true
  | .state members, .state v => v ∈ members
  | _, _ => false

structure Scope where
  tenant : BitVec 128
  namespace_ : String
  deriving DecidableEq, Repr

structure DimensionRules where
  allowed : Finset String
  required : Finset String
  maxCount : ℕ
  maxValueBytes : ℕ
  maxTotalBytes : ℕ
  deriving DecidableEq

structure Definition where
  scope : Scope
  key : String
  version : ℕ
  unit : String
  metric : Metric
  dimensions : DimensionRules
  deriving DecidableEq

structure Stream where
  scope : Scope
  source : String
  generation : String
  deriving DecidableEq, Repr

/-- A series pins its definition. The dimensions are listed in key order. -/
structure Series where
  definition : Definition
  subject : String
  resource : String
  dimensions : List (String × String)
  deriving DecidableEq

def Series.metric (s : Series) : Metric := s.definition.metric

structure SampleInput where
  stream : Stream
  series : Series
  id : String
  sequence : ℕ
  observedAt : ℕ
  interval : Option Interval
  reading : Reading

/-- What `Sample::new` accepts. -/
structure SampleInput.Valid (i : SampleInput) : Prop where
  observed_lt : i.observedAt < timestampMax
  scope : i.stream.scope = i.series.definition.scope
  accepts : ∀ v, i.reading = .valid v → i.series.metric.accepts v = true
  interval_stop : ∀ w, i.interval = some w → w.stop = i.observedAt
  counter_interval : ∀ n t, i.series.metric = .counter n t → ∃ w, i.interval = some w ∧
    (t = .delta → w.widthMicros ≠ 0)

structure Sample extends SampleInput where
  valid : toSampleInput.Valid

namespace Sample

/-- The order of `latest_cmp`: time, sequence, identity. -/
def Before (a b : Sample) : Prop :=
  a.observedAt < b.observedAt ∨ (a.observedAt = b.observedAt ∧
    (a.sequence < b.sequence ∨ (a.sequence = b.sequence ∧ a.id < b.id)))

instance (a b : Sample) : Decidable (a.Before b) := inferInstanceAs (Decidable (_ ∨ _))

/-- `number` of the ordered semantics. -/
def number (s : Sample) : Option Number :=
  match s.reading with
  | .valid (.number n) => some n
  | _ => none

end Sample

inductive StateValue where
  | bool (b : Bool)
  | state (id : String)
  deriving DecidableEq, Repr

/-- `state_value`. -/
def Sample.stateValue (s : Sample) : Option StateValue :=
  match s.reading with
  | .valid (.bool v) => some (.bool v)
  | .valid (.state v) => some (.state v)
  | _ => none

/-- A valid reading, of any value. -/
def Sample.isValid (s : Sample) : Bool :=
  match s.reading with
  | .valid _ => true
  | _ => false

end Rss.Timeseries
