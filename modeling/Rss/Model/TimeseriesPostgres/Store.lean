import Rss.Library.Fallible
import Rss.Library.Table
import Rss.Model.Timeseries.Lifecycle

/-! # Tables and functions of the schema

The tables of `tables.sql`, `samples.sql` and `functions.sql` with the functions that write them.
A function returns the new tables or the error its SQLSTATE is mapped to. The digests of samples,
batches and definitions are parameters; a digest that only names a series, a specification or a
request is modelled by what it names. -/

namespace Rss.TimeseriesPostgres

open Rss.Timeseries

abbrev Digest := BitVec 256

/-- The content digests, with their domains. -/
structure Digests where
  sample : Sample → Digest
  batch : Batch → Digest
  definition : Definition → Digest
  spec : SummarySpec → Digest

/-! ### Rows -/

structure DefinitionRow where
  raw : Definition
  digest : Digest
  retired : Bool
  deriving DecidableEq

structure StreamRow where
  closed : Bool
  reclaimed : Bool
  deriving DecidableEq, Repr

structure BatchRow where
  digest : Digest
  receivedAt : ℕ
  newSamples : ℕ
  replayedSamples : ℕ
  replayUntil : ℕ
  expired : Bool
  deriving DecidableEq, Repr

structure IdentityRow where
  digest : Digest
  observedAt : ℕ
  receivedAt : ℕ
  deriving DecidableEq, Repr

/-- The other columns are members of the raw document. -/
structure SampleRow where
  raw : Sample
  receivedAt : ℕ

inductive FenceKind where
  | cutoff | delete | pruned
  deriving DecidableEq, Repr

structure Fence where
  kind : FenceKind
  selection : Selection
  lo : ℕ
  hi : ℕ
  restoreUntil : Option ℕ
  restored : Bool
  deriving DecidableEq

/-- Progress of a `Recompute` plan inside a bucket. -/
structure Fold where
  at_ : ℕ
  revision : ℕ
  builder : Option SummaryBuilder
  last : Option (ℕ × ℕ × String)

structure PlanState where
  ordinal : ℕ
  fold : Option Fold
  rawLimit : Option ℕ

structure PlanRow where
  binding : MaintenanceRequest
  state : PlanState
  done : Bool

structure SummaryRow where
  hi : ℕ
  dirty : Bool
  data : Summary

/-- An identity of a stream: a batch or a sample. -/
abbrev Identity := Stream × String

structure Store where
  heads : Table (Scope × String) (Option ℕ)
  definitions : Table DefinitionId DefinitionRow
  streams : Table Stream StreamRow
  batches : Table Identity BatchRow
  identities : Table Identity IdentityRow
  samples : Table (Identity × ℕ) SampleRow
  namespaces : Table Scope ℕ
  fences : Table (Scope × String) Fence
  plans : Table (Scope × String) PlanRow
  ranges : Table (SummarySpec × ℕ × ℕ) Unit
  summaries : Table (SummarySpec × ℕ) SummaryRow

def Store.empty : Store :=
  ⟨.empty, .empty, .empty, .empty, .empty, .empty, .empty, .empty, .empty, .empty, .empty⟩

/-! ### Fences -/

namespace Fence

/-- The fence covers a time of a series. -/
def encloses (f : Fence) (stream : Stream) (series : Series) (at_ : ℕ) : Bool :=
  f.lo ≤ at_ && at_ < f.hi && f.selection.matches_ stream series

/-- The fence hides what it covers from reads. -/
def hides (f : Fence) : Bool :=
  match f.kind with
  | .pruned => true
  | .delete => !f.restored
  | .cutoff => false

end Fence

namespace Store

/-- The fences of a namespace. -/
def fencesOf (s : Store) (scope : Scope) : List Fence :=
  (s.fences.rows.filter (fun row => row.1.1 = scope)).map Prod.snd

def visible (s : Store) (x : Sample) : Bool :=
  !(s.fencesOf x.stream.scope).any (fun f => f.hides && f.encloses x.stream x.series x.observedAt)

/-! ### Locks -/

/-- The revision of a namespace, which is entered when absent. -/
def lockNamespace (s : Store) (scope : Scope) : ℕ × Store :=
  ((s.namespaces.get? scope).getD 0, { s with namespaces := s.namespaces.insertNew scope 0 })

def lockStream (s : Store) (stream : Stream) : Store :=
  let s := (s.lockNamespace stream.scope).2
  { s with streams := s.streams.insertNew stream ⟨false, false⟩ }

/-! ### Summaries -/

/-- How far after the changed interval a bucket may start and still be affected: everywhere for
observed states, the gap of a counter or the hold of a state otherwise. -/
def reach (spec : SummarySpec) : Option ℕ :=
  match spec.metric, spec.coverage with
  | .bool, .observedOnly | .state _, .observedOnly => none
  | _, _ => some (spec.maxGap.getD (match spec.coverage with | .holdLast n => n | .observedOnly => 0))

/-- The bucket may be changed by what happens in the interval. -/
def affected (sel : Selection) (lo hi : ℕ) (spec : SummarySpec) (bucketLo bucketHi : ℕ) : Bool :=
  lo < bucketHi && (match reach spec with | none => true | some n => decide (bucketLo < hi + n)) &&
    sel.matches_ spec.stream spec.series

/-- A new revision of the namespace; the buckets that may change are dirty. -/
def invalidate (s : Store) (scope : Scope) (sel : Selection) (lo hi : ℕ) : Except Error Store :=
  let (revision, s) := s.lockNamespace scope
  if revision + 1 < 2 ^ 63 then
    .ok { s with
      namespaces := s.namespaces.modify scope (fun _ => revision + 1)
      summaries := s.summaries.update (fun k row =>
        if k.1.stream.scope = scope ∧ affected sel lo hi k.1 k.2 row.hi = true then
          { row with dirty := true }
        else row) }
  else .error .unavailable

def putSummary (s : Store) (spec : SummarySpec) (summary : Summary) : Store :=
  let s := (s.lockNamespace spec.stream.scope).2
  let row : SummaryRow := ⟨summary.window.stop, false, summary⟩
  { s with summaries := s.summaries.upsert (spec, summary.window.start) row (fun _ => row) }

def registerSummary (s : Store) (spec : SummarySpec) (window : Interval) : Store :=
  let s := (s.lockNamespace spec.stream.scope).2
  { s with ranges := s.ranges.insertNew (spec, window.start, window.stop) () }

/-! ### Fences and plans -/

/-- The fences of the same kind and selection. -/
def earlierFences (s : Store) (scope : Scope) (f : Fence) : List ((Scope × String) × Fence) :=
  s.fences.rows.filter (fun row => row.1.1 = scope && decide (row.2.kind = f.kind) &&
    decide (row.2.selection = f.selection))

/-- The fence takes the place of the earlier ones and does not end before them. -/
def replaceFences (s : Store) (scope : Scope) (id : String) (f : Fence) :
    Table (Scope × String) Fence :=
  let earlier := s.earlierFences scope f
  (s.fences.delete (fun k => k ∈ earlier.map Prod.fst)).insertNew (scope, id)
    { f with hi := (earlier.map (fun row => row.2.hi)).foldl max f.hi }

def putFence (s : Store) (scope : Scope) (id : String) (f : Fence) : Except Error Store :=
  let s := (s.lockNamespace scope).2
  if (s.fences.get? (scope, id)).isSome then .error .conflict
  else
    match f.kind with
    | .cutoff | .pruned => .ok { s with fences := s.replaceFences scope id f }
    | .delete =>
        invalidate { s with fences := s.fences.insertNew (scope, id) f } scope f.selection f.lo f.hi

def restoreFence (s : Store) (scope : Scope) (id : String) (sel : Selection) (window : Interval)
    (now : ℕ) : Except Error Store :=
  let s := (s.lockNamespace scope).2
  match s.fences.get? (scope, id) with
  | some f =>
      if f.kind = .delete ∧ f.selection = sel ∧ f.lo = window.start ∧ f.hi = window.stop ∧
          f.restored = false ∧ f.restoreUntil.any (fun u => now < u) = true then
        invalidate { s with fences := s.fences.modify (scope, id) (fun f => { f with restored := true }) }
          scope sel window.start window.stop
      else .error .historyExpired
  | none => .error .historyExpired

def putPlan (s : Store) (r : MaintenanceRequest) (state : PlanState) (done : Bool) :
    Except Error Store :=
  let s := (s.lockNamespace r.scope).2
  let row : PlanRow := ⟨r, state, done⟩
  match s.plans.get? (r.scope, r.id) with
  | some old =>
      if old.binding = r then
        .ok { s with plans := s.plans.modify (r.scope, r.id) (fun _ => row) }
      else .error .conflict
  | none => .ok { s with plans := s.plans.insertNew (r.scope, r.id) row }

/-! ### Cleaning up -/

/-- The oldest raw rows, ended summaries and settled deletions of the selection, within the cap. -/
def pruneRows (D : Digests) (s : Store) (scope : Scope) (sel : Selection) (raw summaries cap : ℕ)
    (clock : ℕ) : ℕ × Store :=
  let s := (s.lockNamespace scope).2
  let samples := s.samples.select
    (fun k row => k.1.1.scope = scope && decide (k.2 < raw) &&
      sel.matches_ row.raw.stream row.raw.series)
    (fun a b => ((compare a.1.2 b.1.2).then ((compare a.1.1.1.source b.1.1.1.source).then
      ((compare a.1.1.1.generation b.1.1.1.generation).then (compare a.1.1.2 b.1.1.2)))).isLE) cap
  let stale := s.summaries.select
    (fun k row => k.1.stream.scope = scope && decide (row.hi ≤ summaries) &&
      sel.matches_ k.1.stream k.1.series)
    (fun a b => ((compare a.1.2 b.1.2).then
      (compare (D.spec a.1.1).toNat (D.spec b.1.1).toNat)).isLE) (cap - samples.length)
  let settled := s.fences.select
    (fun k f => k.1 = scope && decide (f.kind = .delete) && decide (f.selection = sel) &&
      decide (f.hi ≤ raw) && (f.restored || f.restoreUntil.any (fun u => u ≤ clock)))
    (fun a b => (compare a.1.2 b.1.2).isLE) (cap - (samples.length + stale.length))
  (samples.length + stale.length + settled.length,
    { s with
      samples := s.samples.delete (fun k => k ∈ samples)
      summaries := s.summaries.delete (fun k => k ∈ stale)
      fences := s.fences.delete (fun k => k ∈ settled) })

def expireReceipts (s : Store) (stream : Stream) (before cap clock : ℕ) : ℕ × Store :=
  let s := s.lockStream stream
  let ended := s.batches.select
    (fun k row => k.1 = stream && decide (row.receivedAt < before) &&
      decide (row.replayUntil ≤ clock) && !row.expired)
    (fun a b => ((compare a.2.receivedAt b.2.receivedAt).then (compare a.1.2 b.1.2)).isLE) cap
  (ended.length,
    { s with batches := s.batches.update (fun k row =>
        if k ∈ ended then { row with expired := true } else row) })

/-- The receipts and then the identities of a closed stream, within the cap. -/
def reclaimRows (s : Store) (stream : Stream) (cap : ℕ) : Except Error (ℕ × Store) :=
  let s := s.lockStream stream
  if (s.streams.get? stream).any (fun row => row.closed) then
    let batches := s.batches.select (fun k _ => k.1 = stream)
      (fun a b => (compare a.1.2 b.1.2).isLE) cap
    let identities := s.identities.select (fun k _ => k.1 = stream)
      (fun a b => (compare a.1.2 b.1.2).isLE) (cap - batches.length)
    .ok (batches.length + identities.length,
      { s with
        batches := s.batches.delete (fun k => k ∈ batches)
        identities := s.identities.delete (fun k => k ∈ identities)
        streams := s.streams.modify stream (fun row => { row with reclaimed := true }) })
  else .error .historyExpired

/-! ### Admission -/

def closed (s : Store) (stream : Stream) : Bool := (s.streams.get? stream).any (fun row => row.closed)

def reclaimed (s : Store) (stream : Stream) : Bool :=
  (s.streams.get? stream).any (fun row => row.reclaimed)

def closeStream (s : Store) (stream : Stream) : Store :=
  let s := s.lockStream stream
  { s with streams := s.streams.modify stream (fun row => { row with closed := true }) }

/-- The identity of a sample. -/
def identityOf (x : Sample) : Identity := (x.stream, x.id)

/-- The definition a sample pins, as it stands. -/
def pinned (s : Store) (x : Sample) : Except Error DefinitionRow :=
  match s.definitions.get? ⟨x.stream.scope, x.series.definition.key, x.series.definition.version⟩ with
  | some row => if row.raw = x.series.definition then .ok row else .error .invalidInput
  | none => .error .invalidInput

/-- Whether the sample is new. -/
def putSample (s : Store) (x : Sample) (digest : Digest) (received : ℕ) :
    Except Error (Bool × Store) := do
  let s := s.lockStream x.stream
  match s.identities.get? (identityOf x) with
  | some old => if old.digest ≠ digest then throw .conflict else return (false, s)
  | none =>
      if s.closed x.stream ∨
          (s.fencesOf x.stream.scope).any (fun f => f.encloses x.stream x.series x.observedAt) then
        throw .historyExpired
      let definition ← s.pinned x
      if definition.retired then throw .retired
      let s := { s with
        identities := s.identities.insertNew (identityOf x) ⟨digest, x.observedAt, received⟩
        samples := s.samples.insertNew (identityOf x, x.observedAt) ⟨x, received⟩ }
      let s ← s.invalidate x.stream.scope (.exact x.stream x.series) x.observedAt (x.observedAt + 1)
      return (true, s)

/-- The checks of the table hold of the row, and the identity is new. -/
def putBatch (s : Store) (key : Identity) (row : BatchRow) : Except Error Store :=
  let s := s.lockStream key.1
  if (s.batches.get? key).isSome then .error .conflict
  else if row.receivedAt < row.replayUntil ∧ 1 ≤ row.newSamples + row.replayedSamples ∧
      row.newSamples + row.replayedSamples ≤ Batch.maxSamples then
    .ok { s with batches := s.batches.insertNew key row }
  else .error .invariant

def putDefinition (s : Store) (d : Definition) (digest : Digest) (retire : Bool) :
    Except Error Store :=
  let s := { s with heads := s.heads.insertNew (d.scope, d.key) none }
  match s.definitions.get? d.identity with
  | some prior =>
      if prior.digest ≠ digest ∨ prior.raw ≠ d then .error .conflict
      else if retire then
        .ok { s with
          definitions := s.definitions.modify d.identity (fun row => { row with retired := true }) }
      else .ok s
  | none =>
      if retire then .error .invalidInput
      else
        .ok { s with
          definitions := s.definitions.insertNew d.identity ⟨d, digest, false⟩
          heads := s.heads.modify (d.scope, d.key) (fun _ => some d.version) }

end Store

end Rss.TimeseriesPostgres
