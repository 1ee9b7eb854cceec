import Rss.Model.Timeseries.Aggregate
import Mathlib.Data.Finset.Card

/-! # Selections, batches and maintenance requests

The inputs of a provider: what a selection covers, when a definition may follow another, what a
batch holds, and the maintenance actions. -/

namespace Rss.Timeseries

deriving instance DecidableEq for Interval
deriving instance DecidableEq for SummarySpec

/-! ### Selections -/

/-- An exact series of one stream, or the series of a resource; an empty key set selects all
resource keys. -/
inductive Selection where
  | exact (stream : Stream) (series : Series)
  | resource (scope : Scope) (subject resource : String) (keys : Finset String)
  deriving DecidableEq

namespace Selection

def scope : Selection → Scope
  | .exact stream _ => stream.scope
  | .resource scope _ _ _ => scope

def validate : Selection → Except Error Unit
  | .exact stream series =>
      if stream.scope ≠ series.definition.scope then .error .invalidInput else .ok ()
  | .resource _ _ _ keys => if keys.card > 64 then .error .budgetExceeded else .ok ()

/-- `Selection::matches`, `resource_matches` and the SQL function `matches`. -/
def matches_ (sel : Selection) (stream : Stream) (series : Series) : Bool :=
  match sel with
  | .exact s d => s = stream && d = series
  | .resource scope subject resource_ keys =>
      scope = stream.scope && subject = series.subject && resource_ = series.resource &&
        (decide (keys = ∅) || decide (series.definition.key ∈ keys))

def overlaps : Selection → Selection → Bool
  | .exact stream series, b => b.matches_ stream series
  | a, .exact stream series => a.matches_ stream series
  | .resource a b c d, .resource e f g h =>
      a = e && b = f && c = g && (decide (d = ∅) || decide (h = ∅) || !decide (Disjoint d h))

def covers : Selection → Selection → Bool
  | a, .exact stream series => a.matches_ stream series
  | .resource a b c d, .resource e f g h =>
      a = e && b = f && c = g && (decide (d = ∅) || (decide (h ≠ ∅) && decide (h ⊆ d)))
  | _, _ => false

end Selection

def SummarySpec.selection (spec : SummarySpec) : Selection := .exact spec.stream spec.series

/-- The aligned bucket of a time; its end saturates. -/
def SummarySpec.bucket (spec : SummarySpec) (at_ : ℕ) : Interval where
  start := at_ / spec.resolution * spec.resolution
  stop := max (at_ / spec.resolution * spec.resolution)
    (min (at_ / spec.resolution * spec.resolution + spec.resolution) timestampMax)
  le := Nat.le_max_left _ _

def SummarySpec.lookback (spec : SummarySpec) : ℕ :=
  match spec.coverage with
  | .holdLast n => n
  | .observedOnly => spec.maxGap.getD 0

/-! ### Definitions -/

def Metric.extends_ : Metric → Metric → Bool
  | .state new, .state old => decide (old ⊆ new)
  | new, old => decide (new = old)

def DimensionRules.extends_ (new old : DimensionRules) : Bool :=
  decide (old.allowed ⊆ new.allowed) && decide (new.required = old.required) &&
    decide (old.maxCount ≤ new.maxCount) && decide (old.maxValueBytes ≤ new.maxValueBytes) &&
    decide (old.maxTotalBytes ≤ new.maxTotalBytes)

namespace DimensionRules

def validate (r : DimensionRules) : Except Error Unit :=
  if 64 < r.allowed.card ∨ 64 < r.maxCount ∨ r.maxCount < r.required.card ∨
      ¬ r.required ⊆ r.allowed ∨ r.maxValueBytes = 0 ∨ 256 < r.maxValueBytes ∨
      r.maxTotalBytes = 0 ∨ 32768 < r.maxTotalBytes then .error .invalidInput
  else .ok ()

/-- The bytes of keys and values on top of those counted before. -/
def totalBytes (r : DimensionRules) : ℕ → List (String × String) → Except Error ℕ
  | bytes, [] => .ok bytes
  | bytes, (key, value) :: rest =>
      if r.maxValueBytes < value.utf8ByteSize then .error .budgetExceeded
      else r.totalBytes (bytes + (key.utf8ByteSize + value.utf8ByteSize)) rest

def validateValues (r : DimensionRules) (values : List (String × String)) : Except Error Unit := do
  r.validate
  if r.maxCount < values.length then .error .budgetExceeded
  else if ¬ ((∀ k ∈ r.required, k ∈ values.map Prod.fst) ∧
      ∀ k ∈ values.map Prod.fst, k ∈ r.allowed) then .error .invalidInput
  else do
    let bytes ← r.totalBytes 0 values
    if r.maxTotalBytes < bytes then .error .budgetExceeded else .ok ()

end DimensionRules

/-- `Definition::new`. -/
def Definition.check (d : Definition) : Except Error Unit :=
  if d.version = 0 then .error .invalidInput
  else do
    d.dimensions.validate
    match d.metric with
    | .state members => if members = ∅ ∨ 256 < members.card then .error .invalidInput else .ok ()
    | _ => .ok ()

inductive DefinitionChange where
  | replay | compatibleVersion
  deriving DecidableEq, Repr

/-- `Definition::compare`: against a stored version of the same key. -/
def Definition.compare (d old : Definition) : Except Error DefinitionChange :=
  if d.scope ≠ old.scope ∨ d.key ≠ old.key then .error .invalidInput
  else if d.version = old.version then
    if d = old then .ok .replay else .error .conflict
  else if d.version < old.version ∨ d.unit ≠ old.unit ∨ d.metric.extends_ old.metric = false ∨
      d.dimensions.extends_ old.dimensions = false then .error .incompatibleDefinition
  else .ok .compatibleVersion

structure DefinitionId where
  scope : Scope
  key : String
  version : ℕ
  deriving DecidableEq, Repr

def Definition.identity (d : Definition) : DefinitionId := ⟨d.scope, d.key, d.version⟩

/-! ### Batches -/

def Batch.maxSamples : ℕ := 4096

/-- A batch that `Batch::new` accepts: samples of one stream, no identity twice. -/
structure Batch where
  stream : Stream
  id : String
  samples : List Sample
  nonempty : samples ≠ []
  length_le : samples.length ≤ Batch.maxSamples
  of_stream : ∀ x ∈ samples, x.stream = stream
  distinct : (samples.map (fun x => x.id)).Nodup

/-! ### Maintenance -/

inductive MaintenanceAction where
  | recompute (spec : SummarySpec) (window : Interval)
  | advanceCutoff (selection : Selection) (before : ℕ)
  | prune (selection : Selection) (rawBefore summariesBefore : ℕ)
  | expireReceipts (stream : Stream) (before : ℕ)
  | delete (selection : Selection) (window : Interval) (restoreUntil : ℕ)
  | restore (selection : Selection) (window : Interval) (deletionFence : String)
  | closeStream (stream : Stream)
  | reclaim (stream : Stream)
  deriving DecidableEq

namespace MaintenanceAction

def scope : MaintenanceAction → Scope
  | .recompute spec _ => spec.stream.scope
  | .advanceCutoff selection _ | .prune selection _ _ | .delete selection _ _
  | .restore selection _ _ => selection.scope
  | .closeStream stream | .reclaim stream | .expireReceipts stream _ => stream.scope

/-- What the typed arguments and `validate` guarantee. -/
def Valid : MaintenanceAction → Prop
  | .recompute spec window => spec.validate = .ok () ∧ 0 < spec.resolution ∧
      window.start < window.stop ∧ window.stop ≤ timestampMax
  | .delete selection window restoreUntil => selection.validate = .ok () ∧
      window.start < window.stop ∧ window.stop ≤ timestampMax ∧ restoreUntil ≤ timestampMax
  | .restore selection window _ => selection.validate = .ok () ∧ window.start < window.stop ∧
      window.stop ≤ timestampMax
  | .advanceCutoff selection before => selection.validate = .ok () ∧ before ≤ timestampMax
  | .prune selection rawBefore summariesBefore => selection.validate = .ok () ∧
      rawBefore ≤ timestampMax ∧ summariesBefore ≤ timestampMax
  | .expireReceipts _ before => before ≤ timestampMax
  | .closeStream _ | .reclaim _ => True

end MaintenanceAction

/-- A plan: its name, what it does, and its budget for one step. -/
structure MaintenanceRequest where
  id : String
  action : MaintenanceAction
  rows : ℕ
  buckets : ℕ
  rows_pos : 0 < rows
  buckets_pos : 0 < buckets
  valid : action.Valid

instance : DecidableEq MaintenanceRequest := fun a b =>
  decidable_of_iff (a.id = b.id ∧ a.action = b.action ∧ a.rows = b.rows ∧ a.buckets = b.buckets)
    (by cases a; cases b; simp)

def MaintenanceRequest.scope (r : MaintenanceRequest) : Scope := r.action.scope

inductive MaintenanceBlock where
  | cutoff | dirtySummary | restoreWindow | replayGuarantee | streamOpen | retainedData
  deriving DecidableEq, Repr

inductive Outcome (α : Type) where
  | accepted (value : α)
  | replay (value : α)
  deriving DecidableEq, Repr

inductive Lookup (α : Type) where
  | found (value : α)
  | notVisible
  | expired
  deriving DecidableEq, Repr

end Rss.Timeseries
