import Rss.Library.Runs
import Rss.Model.TimeseriesPostgres.Aggregate
import Rss.Model.TimeseriesPostgres.Write

/-! # Maintenance and runs

`maintain.rs`, `prune.rs` and `recompute.rs`: a plan advances by one transaction a step. Every
transaction of a namespace holds the namespace row from its first statement to its end, and a
change of a definition excludes the batches that pin it, so a run of the store is a sequence of
transactions. -/

namespace Rss.TimeseriesPostgres

open Rss.Timeseries

/-- What a step did: the rows it processed, or why it may not proceed. -/
inductive Work where
  | more (processed : ℕ)
  | done (processed : ℕ)
  | blocked (reason : MaintenanceBlock)
  deriving DecidableEq, Repr

namespace Store

/-! ### Recompute -/

/-- The fold a step continues: the stored one, or a new one at the start of the window. A fold of
another revision starts over. -/
def resume (fold : Option Fold) (window : Interval) (revision : ℕ) : Fold :=
  match fold with
  | some f => if f.revision = revision then f else ⟨window.start, revision, none, none⟩
  | none => ⟨window.start, revision, none, none⟩

/-- The builder of the bucket: the one of the fold, or a new one with the point before it. -/
def openBuilder (s : Store) (spec : SummarySpec) (fold : Fold) (limits : Limits) :
    Except Error SummaryBuilder :=
  match fold.builder with
  | some b => .ok b
  | none => do
      let builder ← SummaryBuilder.new spec (spec.bucket fold.at_)
      let prior := s.predecessor spec fold.at_
      s.ensureBoundary spec fold.at_ prior limits.maxPoints
      match prior with
      | some p => builder.push p limits.maxPoints
      | none => pure builder

/-- The samples of the bucket after the last one that was folded. -/
def remaining (s : Store) (spec : SummarySpec) (bucket : Interval)
    (last : Option (ℕ × ℕ × String)) : List Sample :=
  (s.seriesWithin spec bucket.start bucket.stop).filter (fun x =>
    match last with
    | none => true
    | some (t, q, id) => decide (t < x.observedAt ∨ (t = x.observedAt ∧
        (q < x.sequence ∨ (q = x.sequence ∧ id < x.id)))))

/-- The bucket is stored and the fold moves past it. -/
def closeBucket (s : Store) (spec : SummarySpec) (window : Interval) (state : PlanState)
    (fold : Fold) (gaps : List (ℕ × ℕ)) (builder : SummaryBuilder) (processed : ℕ)
    (limits : Limits) : Except Error (Work × PlanState × Store) := do
  let bucket := spec.bucket fold.at_
  let builder ← mask gaps bucket.stop builder
  let summary ← builder.finish limits.maxPoints
  let s := s.putSummary spec summary
  if bucket.stop = window.stop then
    return (.done processed, { state with fold := none }, s)
  else
    return (.more processed,
      { state with fold := some { fold with at_ := bucket.stop, builder := none, last := none } }, s)

/-- The samples of one step enter the bucket; when none is left, it is stored. -/
def advanceFold (s : Store) (r : MaintenanceRequest) (spec : SummarySpec) (window : Interval)
    (state : PlanState) (fold : Fold) (limits : Limits) :
    Except Error (Work × PlanState × Store) := do
  let bucket := spec.bucket fold.at_
  let builder ← s.openBuilder spec fold limits
  let gapWindow ← Interval.new (builder.lastObservedAt.getD bucket.start) bucket.stop
  let gaps ← s.deletions spec gapWindow limits.maxPoints
  let rows := s.remaining spec bucket fold.last
  let taken := rows.take r.rows
  let builder ← maskAndPush gaps limits.maxPoints builder taken
  if rows.length > r.rows then
    let last := match taken.getLast? with
      | some x => some (x.observedAt, x.sequence, x.id)
      | none => fold.last
    return (.more taken.length,
      { state with fold := some { fold with builder := some builder, last } }, s)
  else s.closeBucket spec window state fold gaps builder taken.length limits

/-- A plan registers its range before its first fold. -/
def enroll (s : Store) (spec : SummarySpec) (window : Interval) (fold : Option Fold) : Store :=
  match fold with
  | none => s.registerSummary spec window
  | some _ => s

def recompute (s : Store) (r : MaintenanceRequest) (spec : SummarySpec) (window : Interval)
    (state : PlanState) (revision : ℕ) (limits : Limits) :
    Except Error (Work × PlanState × Store) := do
  if (spec.bucket window.start).start ≠ window.start ∨
      (spec.bucket (window.stop - 1)).stop ≠ window.stop then throw .invalidInput
  if ← s.prunedWithin spec.selection window limits.maxPoints then throw .historyExpired
  (s.enroll spec window state.fold).advanceFold r spec window state
    (resume state.fold window revision) limits

/-! ### Prune -/

/-- The buckets of a registered range that must be stored before raw rows may go. -/
def wanted (spec : SummarySpec) (lo hi rawBefore summariesBefore : ℕ) : List ℕ :=
  let start := max lo (spec.bucket summariesBefore).start
  let stop := min hi (spec.bucket (rawBefore - 1)).stop
  (List.range ((stop - start + spec.resolution - 1) / spec.resolution)).map
    (fun i => start + i * spec.resolution)

/-- Every wanted bucket is stored and clean. -/
def complete (s : Store) (spec : SummarySpec) (buckets : List ℕ) : Bool :=
  buckets.all (fun lo => (s.summaries.get? (spec, lo)).any (fun row => !row.dirty))

/-- The point an observed state rests on may not be pruned. -/
def anchor (s : Store) (spec : SummarySpec) (rawBefore : ℕ) : ℕ :=
  match reach spec with
  | some _ => rawBefore
  | none => match s.predecessor spec rawBefore with
    | some p => min rawBefore p.observedAt
    | none => rawBefore

/-- How far raw rows may be pruned, or what forbids it. -/
def safeRaw (s : Store) (selection : Selection) (rawBefore summariesBefore now : ℕ)
    (limits : Limits) : Except Error (Except MaintenanceBlock ℕ) := do
  let found ← s.fencesWithin selection ⟨0, max rawBefore 1, Nat.zero_le _⟩ [.cutoff, .delete]
    limits.maxPoints
  if rawBefore > 0 ∧ found.any (fun f => decide (f.kind = .cutoff) &&
      f.selection.covers selection && decide (rawBefore ≤ f.hi)) = false then
    return .error .cutoff
  if found.any (fun f => decide (f.kind = .delete) && !f.restored &&
      f.restoreUntil.any (fun u => now < u) && decide (f.lo < rawBefore) &&
      f.selection.overlaps selection) = true then
    return .error .restoreWindow
  let ranges := (s.ranges.rows.map Prod.fst).filter (fun k => k.1.stream.scope = selection.scope &&
    decide (summariesBefore < k.2.2) && selection.matches_ k.1.stream k.1.series)
  if ranges.length > limits.maxPoints then throw .budgetExceeded
  -- No bucket ends before the epoch: the time before it is out of range.
  if rawBefore = 0 ∧ ranges ≠ [] then throw .numericRange
  if ranges.all (fun k => s.complete k.1 (wanted k.1 k.2.1 k.2.2 rawBefore summariesBefore)) then
    let halo := (ranges.map (fun k => k.1.lookback)).foldl max 0
    let anchors := (ranges.map (fun k => s.anchor k.1 rawBefore)).foldl min rawBefore
    return .ok (min (rawBefore - halo) anchors)
  return .error .dirtySummary

/-- The limit of the plan, which leaves its fence with the first step. -/
def placeFence (s : Store) (r : MaintenanceRequest) (selection : Selection) (rawLimit : Option ℕ)
    (limit : ℕ) : Except Error (ℕ × Store) :=
  match rawLimit with
  | some v => .ok (v, s)
  | none => (s.putFence r.scope r.id ⟨.pruned, selection, 0, limit, none, false⟩).map (limit, ·)

def prune (D : Digests) (s : Store) (r : MaintenanceRequest) (selection : Selection)
    (rawBefore summariesBefore : ℕ) (state : PlanState) (now clock : ℕ) (limits : Limits) :
    Except Error (Work × PlanState × Store) := do
  match ← s.safeRaw selection rawBefore summariesBefore now limits with
  | .error reason => return (.blocked reason, state, s)
  | .ok limit =>
      let (rawLimit, s) ← s.placeFence r selection state.rawLimit limit
      let state := { state with rawLimit := some rawLimit }
      if rawLimit > limit then
        return (.blocked .dirtySummary, state, s)
      else
        let (count, s) := pruneRows D s r.scope selection rawLimit summariesBefore r.rows clock
        return (if count < r.rows then .done count else .more count, state, s)

/-! ### Receipts and streams -/

/-- A receipt taken before the time is still promised. -/
def receiptGuarantee (s : Store) (stream : Stream) (before : Option ℕ) (now : ℕ) : Bool :=
  s.batches.rows.any (fun row => row.1.1 = stream && before.all (fun b => row.2.receivedAt < b) &&
    decide (now < row.2.replayUntil) && !row.2.expired)

def expire (s : Store) (r : MaintenanceRequest) (stream : Stream) (before now clock : ℕ) :
    Work × Store :=
  if s.receiptGuarantee stream (some before) now then (.blocked .replayGuarantee, s)
  else
    let (count, s) := s.expireReceipts stream before r.rows clock
    (if count < r.rows then .done count else .more count, s)

/-- Raw rows or summaries of the stream are still stored. -/
def retained (s : Store) (stream : Stream) : Bool :=
  s.samples.rows.any (fun row => row.1.1.1 = stream) ||
    s.summaries.rows.any (fun row => row.1.1.stream = stream)

def reclaim (s : Store) (r : MaintenanceRequest) (stream : Stream) (now : ℕ) :
    Except Error (Work × Store) := do
  if s.closed stream = false then return (.blocked .streamOpen, s)
  -- The bound of the query is the greatest timestamp, which no receipt reaches.
  if s.receiptGuarantee stream none now then return (.blocked .replayGuarantee, s)
  if s.retained stream then return (.blocked .retainedData, s)
  let (count, s) ← s.reclaimRows stream r.rows
  return (if count < r.rows then .done count else .more count, s)

/-- The actions of one step. -/
def simple (s : Store) (r : MaintenanceRequest) (now clock : ℕ) (limits : Limits) :
    Except Error (Work × Store) := do
  match r.action with
  | .advanceCutoff selection before =>
      let found ← s.fencesWithin selection ⟨0, timestampMax, Nat.zero_le _⟩ [.cutoff] limits.maxPoints
      if found.any (fun f => decide (f.kind = .cutoff) && selection.covers f.selection &&
          f.selection.covers selection && decide (before < f.hi)) = true then throw .conflict
      let s ← s.putFence r.scope r.id ⟨.cutoff, selection, 0, before, none, false⟩
      return (.done 1, s)
  | .delete selection window restoreUntil =>
      if restoreUntil ≤ now then throw .invalidInput
      let s ← s.putFence r.scope r.id
        ⟨.delete, selection, window.start, window.stop, some restoreUntil, false⟩
      return (.done 1, s)
  | .restore selection window deletionFence =>
      let s ← s.restoreFence r.scope deletionFence selection window clock
      return (.done 1, s)
  | .closeStream stream => return (.done 1, s.closeStream stream)
  | _ => throw .invariant

/-! ### A step of a plan -/

/-- The work of a request on the plan's state. -/
def work (D : Digests) (s : Store) (r : MaintenanceRequest) (state : PlanState) (revision : ℕ)
    (now clock : ℕ) (limits : Limits) : Except Error (Work × PlanState × Store) :=
  match r.action with
  | .recompute spec window => s.recompute r spec window state revision limits
  | .prune selection rawBefore summariesBefore =>
      s.prune D r selection rawBefore summariesBefore state now clock limits
  | .expireReceipts stream before =>
      let (done, s) := s.expire r stream before now clock
      .ok (done, state, s)
  | .reclaim stream => (s.reclaim r stream now).map (fun (done, s) => (done, state, s))
  | _ => (s.simple r now clock limits).map (fun (done, s) => (done, state, s))

inductive MaintenanceProgress where
  | more (processed : ℕ) (next : ℕ)
  | complete (processed : ℕ) (fence : String)
  | blocked (reason : MaintenanceBlock)
  deriving DecidableEq, Repr

/-- The plan of a request, or a new one. -/
def load (s : Store) (r : MaintenanceRequest) : Except Error (PlanState × Bool) :=
  match s.plans.get? (r.scope, r.id) with
  | none => .ok (⟨0, none, none⟩, false)
  | some row => if row.binding = r then .ok (row.state, row.done) else .error .conflict

def Work.isDone : Work → Bool
  | .done _ => true
  | _ => false

/-- The answer of a step; the next continuation seals the ordinal. -/
def progressOf (r : MaintenanceRequest) (ordinal : ℕ) : Work → MaintenanceProgress
  | .more processed => .more processed ordinal
  | .done processed => .complete processed r.id
  | .blocked reason => .blocked reason

/-- The ordinal after a step; a blocked one does not count. -/
def nextOrdinal (state : PlanState) : Work → Except Error ℕ
  | .blocked _ => .ok state.ordinal
  | _ => okOr (checkedAdd 64 state.ordinal 1) .numericRange

/-- The work of the request, and the plan as it stands after it. -/
def advancePlan (D : Digests) (s : Store) (r : MaintenanceRequest) (state : PlanState)
    (revision now clock : ℕ) (limits : Limits) :
    Except Error (Outcome MaintenanceProgress × Store) := do
  let (result, state, s) ← s.work D r state revision now clock limits
  let ordinal ← nextOrdinal state result
  let s ← s.putPlan r { state with ordinal } (Work.isDone result)
  return (.accepted (progressOf r ordinal result), s)

/-- A continuation stands for the ordinal it seals: one ahead of the plan is invalid, one behind it
is answered again. -/
def resumePlan (D : Digests) (s : Store) (r : MaintenanceRequest) (after : Option ℕ)
    (revision now clock : ℕ) (limits : Limits) :
    Except Error (Outcome MaintenanceProgress × Store) := do
  let (state, done) ← s.load r
  if now + limits.cursorMicros ≥ 2 ^ 63 then throw .numericRange
  if after.any (fun o => state.ordinal < o) then throw .invalidCursor
  if done then return (.replay (.complete 0 r.id), s)
  if after.any (fun o => o < state.ordinal) then return (.replay (.more 0 state.ordinal), s)
  s.advancePlan D r state revision now clock limits

/-- `Maintainer::step`. -/
def maintain (D : Digests) (s : Store) (r : MaintenanceRequest) (after : Option ℕ)
    (now clock : ℕ) (limits : Limits) : Except Error (Outcome MaintenanceProgress × Store) :=
  if r.rows > limits.maxPoints ∨ r.buckets > limits.maxPoints ∨ r.rows ≥ 2 ^ 31 then
    .error .budgetExceeded
  else (s.lockNamespace r.scope).2.resumePlan D r after (s.lockNamespace r.scope).1 now clock limits

end Store

/-! ### Runs -/

inductive Call where
  | write (batch : Batch) (now : ℕ)
  | register (d : Definition) (expected : Option Digest)
  | retire (id : DefinitionId) (expected : Digest)
  | maintain (r : MaintenanceRequest) (after : Option ℕ) (now clock : ℕ)

inductive Answer where
  | receipt (outcome : Outcome Receipt)
  | definition (outcome : Outcome DefinitionRecord)
  | progress (outcome : Outcome Store.MaintenanceProgress)

/-- The body of the transaction of a call, for an instance with the given limits. -/
def Store.execute (D : Digests) (limits : Limits) (s : Store) : Call → Except Error (Answer × Store)
  | .write batch now =>
      (s.admitBatch D batch limits.replayMicros now).map (fun (r, s) => (.receipt r, s))
  | .register d expected => (s.register D d expected).map (fun (r, s) => (.definition r, s))
  | .retire id expected => (s.retire D id expected).map (fun (r, s) => (.definition r, s))
  | .maintain r after now clock =>
      (s.maintain D r after now clock limits).map (fun (r, s) => (.progress r, s))

/-- How a transaction ended: committed with its answer, whether or not the caller learns it,
refused by its body, or rolled back for a deadline, a lost connection, a missing partition or a
byte budget. -/
inductive Ending where
  | committed (answer : Answer)
  | refused (e : Error)
  | aborted

/-- A transaction of the history, with the tables before and after it. -/
structure Event where
  call : Call
  ending : Ending
  before : Store
  after : Store

inductive Step (D : Digests) : Store → Event → Store → Prop where
  | commit {s s' : Store} {call : Call} {answer : Answer} (limits : Limits)
      (body : s.execute D limits call = .ok (answer, s')) :
      Step D s ⟨call, .committed answer, s, s'⟩ s'
  | refuse {s : Store} {call : Call} {e : Error} (limits : Limits)
      (body : s.execute D limits call = .error e) : Step D s ⟨call, .refused e, s, s⟩ s
  | abort {s : Store} (call : Call) : Step D s ⟨call, .aborted, s, s⟩ s

end Rss.TimeseriesPostgres
