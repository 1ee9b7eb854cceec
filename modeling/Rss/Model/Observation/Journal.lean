import Rss.Library.Locking
import Rss.Library.Ranking
import Rss.Library.Table
import Rss.Model.Observation.State
import Mathlib.Data.String.Basic
import Mathlib.Data.Prod.Lex

/-! # The observation journal

The tables of the PostgreSQL observation store for one tenant, the functions that write them,
the upgrade that adds the journal, and the transactions of `activate` and `receive` with the
locks they hold until they settle. -/

namespace Rss.Observation

instance : DecidableEq Policy := fun a b =>
  decidable_of_iff (a.retrySeconds = b.retrySeconds ∧ a.safetySeconds = b.safetySeconds ∧
    a.baselineSeconds = b.baselineSeconds) (by cases a; cases b; simp)

/-! ### Reports as they are stored -/

/-- The ordering and deduplication domain of a stream, within one tenant. -/
structure Scope where
  object : Id
  registration : Id
  source : Id
  dataset : Id
  epoch : Id
  deriving DecidableEq, Repr

/-- What is read off the JSON texts of scopes and reports. -/
structure Codec where
  text : Scope → String
  length : Batch → ℕ
  fingerprint : Scope → Batch → List UInt8

def maxBatch : ℕ := 4 * 1024 * 1024

/-- The changes of a body in key order, if there are not too many, none is too long and no key
stands twice; a snapshot has no deletes. -/
def normalizeChanges (snapshot : Bool) (changes : List Change) : Result (List Change) :=
  if changes.length > 1000 ∨
      changes.any (fun c => c.value.any (fun v => v.length > 65536) ||
        (snapshot && c.value.isNone)) then
    .error .invalidInput
  else
    let sorted := changes.mergeSort (fun a b => decide (a.key.value ≤ b.key.value))
    if (sorted.zip sorted.tail).any (fun p => p.1.key = p.2.key) then .error .invalidInput
    else .ok sorted

def Body.normalize : Body → Result Body
  | .snapshot changes => do .ok (.snapshot (← normalizeChanges true changes))
  | .delta baseline previous changes => do
      .ok (.delta baseline previous (← normalizeChanges false changes))
  | .partial_ changes => do .ok (.partial_ (← normalizeChanges false changes))
  | .failed code => .ok (.failed code)

/-- `Batch::validated`; `Batch::decode` of the stored bytes is this check of what they say. -/
def Batch.validated (c : Codec) (b : Batch) : Result Batch := do
  let body ← b.body.normalize
  let b := { b with body }
  if c.length b > maxBatch then .error .invalidInput else .ok b

/-- A report bound to its stream, as its constructor leaves it. -/
structure VerifiedBatch (c : Codec) where
  scope : Scope
  batch : Batch
  valid : batch.validated c = .ok batch

def VerifiedBatch.fingerprint {c : Codec} (input : VerifiedBatch c) : List UInt8 :=
  c.fingerprint input.scope input.batch

/-! ### Tables -/

structure ObjectRow where
  registration : Option Id
  revision : ℕ
  deriving DecidableEq, Repr

structure StreamRow where
  activationPrevious : Option ℕ
  activationRevision : ℕ
  policy : Policy
  state : State
  deriving DecidableEq, Repr

structure BatchRow where
  sequence : ℕ
  raw : Batch
  fingerprint : List UInt8
  receivedAt : ℕ
  policy : Policy
  decision : Decision
  applicable : Bool
  logPosition : Option ℕ
  deriving DecidableEq, Repr

inductive Revision where
  | v1 | v2
  deriving DecidableEq, Repr

structure Store where
  version : Revision
  objects : Table Id ObjectRow
  streams : Table Scope StreamRow
  batches : Table (Scope × Id) BatchRow
  /-- The journal row of the tenant. -/
  journal : Option ℕ

namespace Store

/-- Storage revision 1 on installation. -/
def empty : Store := ⟨.v1, .empty, .empty, .empty, none⟩

def lastPosition (s : Store) : ℕ := s.journal.getD 0

end Store

/-! ### Stored functions -/

/-- The rows a transaction has written and nobody else sees yet. -/
inductive Write where
  | activation (scope : Scope) (expected : Option ℕ) (policy : Policy) (revision : ℕ)
  | batch (scope : Scope) (id : Id) (row : BatchRow) (journal : Option ℕ)
  deriving DecidableEq, Repr

namespace Store

def apply (s : Store) : Write → Store
  | .activation scope expected policy revision =>
      { s with
        objects := s.objects.upsert scope.object ⟨some scope.registration, revision⟩
          (fun _ => ⟨some scope.registration, revision⟩)
        streams := s.streams.insertNew scope ⟨expected, revision, policy, .initial⟩ }
  | .batch scope id row journal =>
      { s with
        batches := s.batches.insertNew (scope, id) row
        streams := s.streams.modify scope (fun r => { r with state := row.decision.after })
        journal := journal.orElse (fun _ => s.journal) }

def maxRevision : ℕ := 2 ^ 64 - 1

/-- `rss_observation.activate`; an exact retry writes nothing. -/
def activate (s : Store) (scope : Scope) (expected : Option ℕ) (policy : Policy) :
    Result (ℕ × Option Write) :=
  let current := (s.objects.get? scope.object).getD ⟨none, 0⟩
  match s.streams.get? scope with
  | some prior =>
      if prior.activationPrevious = expected ∧ prior.policy = policy then
        .ok (prior.activationRevision, none)
      else .error .lifecycleConflict
  | none =>
      if ¬ (expected = none ∧ current.revision = 0 ∨ expected = some current.revision) then
        .error .lifecycleConflict
      else if current.registration ≠ some scope.registration ∧
          s.streams.rows.any (fun r => r.1.object = scope.object &&
            r.1.registration = scope.registration) then
        .error .lifecycleConflict
      else if current.revision + 1 > maxRevision then .error .invariant
      else
        .ok (current.revision + 1,
          some (.activation scope expected policy (current.revision + 1)))

/-- The first lock of `lock_stream`: the object, shared. -/
def lockObject (s : Store) (scope : Scope) : Result Unit :=
  if (s.objects.get? scope.object).bind ObjectRow.registration = some scope.registration then
    .ok ()
  else .error .staleEpoch

/-- The streams that the epochs of one dataset follow each other in. -/
def Scope.sameDataset (a b : Scope) : Bool :=
  a.object = b.object && a.registration = b.registration && a.source = b.source &&
    a.dataset = b.dataset

/-- The second lock of `lock_stream`: the stream row, if its epoch is the newest. -/
def selectStream (s : Store) (scope : Scope) : Result StreamRow :=
  match s.streams.get? scope with
  | none => .error .staleEpoch
  | some selected =>
      if ((s.streams.rows.filter (fun r => Scope.sameDataset r.1 scope)).map
          (fun r => r.2.activationRevision)).max? ≠ some selected.activationRevision then
        .error .staleEpoch
      else .ok selected

/-- `rss_observation.lock_stream`. -/
def lockStream (s : Store) (scope : Scope) : Result StreamRow := do
  s.lockObject scope
  s.selectStream scope

/-- The position of the next applicable report and the journal row that grants it; storage
revision 1 has neither. -/
def nextPosition (s : Store) (applicable : Bool) : Result (Option ℕ × Option ℕ) :=
  match s.version with
  | .v1 => .ok (none, none)
  | .v2 =>
      if s.lastPosition = 2 ^ 63 - 1 then .error .invariant
      else if applicable then .ok (some (s.lastPosition + 1), some (s.lastPosition + 1))
      else .ok (none, some s.lastPosition)

/-- `rss_observation.commit_batch`. -/
def commitBatch (s : Store) (scope : Scope) (id : Id) (sequence : ℕ) (raw : Batch)
    (fingerprint : List UInt8) (receivedAt : ℕ) (policy : Policy) (decision : Decision)
    (expected : ℕ) (applicable : Bool) : Result Write := do
  let current ← s.lockStream scope
  if current.state.revision ≠ expected ∨ current.state ≠ decision.before ∨
      decision.after.revision ≠ expected + 1 ∨ current.policy ≠ policy then
    .error .invariant
  else
    let (logPosition, journal) ← s.nextPosition applicable
    -- the primary key and the unique sequence of the stream
    if s.batches.rows.any (fun r => r.1.1 = scope && (r.1.2 = id || r.2.sequence = sequence)) then
      .error .conflict
    else
      .ok (.batch scope id
        ⟨sequence, raw, fingerprint, receivedAt, policy, decision, applicable, logPosition⟩
        journal)

/-! ### The upgrade -/

variable (c : Codec)

/-- The order of the backfill: by stream text, sequence and identifier. -/
def backfillKey (r : (Scope × Id) × BatchRow) : Lex (String × Lex (ℕ × String)) :=
  toLex (c.text r.1.1, toLex (r.2.sequence, r.1.2.value))

/-- The applicable reports in the order of the backfill. -/
def numbered (s : Store) : List (Scope × Id) :=
  ranking (s.batches.rows.filter (fun r => r.2.applicable)) (backfillKey c)

/-- Migration 2: the applicable reports are numbered from one, and the journal row, if there is
any such report, holds the last number. -/
def upgrade (s : Store) : Store :=
  { s with
    version := .v2
    batches := s.batches.update (fun key row =>
      { row with logPosition := rowNumber (s.numbered c) key })
    journal := if s.numbered c = [] then none else some (s.numbered c).length }

end Store

/-! ### Reading back -/

/-- An immutable receipt. -/
structure Record where
  scope : Scope
  batch : Batch
  receivedAt : ℕ
  policy : Policy
  decision : Decision
  deriving DecidableEq, Repr

inductive ReceiveOutcome where
  | accepted (record : Record)
  | replay (record : Record)
  deriving DecidableEq, Repr

def ReceiveOutcome.record : ReceiveOutcome → Record
  | .accepted r | .replay r => r

def Record.fromDurable (scope : Scope) (batch : Batch) (receivedAt : ℕ) (policy : Policy)
    (decision : Decision) : Result Record := do
  let recomputed ← decision.before.advance batch receivedAt policy
  if recomputed ≠ decision then .error .invariant
  else .ok ⟨scope, batch, receivedAt, policy, decision⟩

/-- The stored decision, if its states are valid and it recomputes exactly. -/
def Decision.restore (d : Decision) (batch : Batch) (receivedAt : ℕ) (policy : Policy) :
    Result Decision := do
  d.before.parsed
  d.after.parsed
  if d.version ≠ 1 then .error .invalidInput
  else
    let recomputed ← d.before.advance batch receivedAt policy
    if recomputed ≠ d then .error .invariant else .ok d

variable (c : Codec)

/-- `restore`; storage revision 1 has no positions to check. -/
def BatchRow.restore (version : Revision) (scope : Scope) (id : Id) (row : BatchRow) :
    Result Record :=
  Except.mapError (fun _ => ErrorKind.invariant) do
    let batch ← row.raw.validated c
    if batch.id ≠ id ∨ batch ≠ row.raw ∨ c.fingerprint scope batch ≠ row.fingerprint ∨
        batch.sequence ≠ row.sequence then
      .error .invariant
    else
      let decision ← row.decision.restore batch row.receivedAt row.policy
      if decision.outcome.isApplicable ≠ row.applicable then .error .invariant
      else if version = .v2 ∧ (decision.outcome.isApplicable ≠ row.logPosition.isSome ∨
          row.logPosition.any (fun p => p ≤ 0)) then
        .error .invariant
      else Record.fromDurable scope batch row.receivedAt row.policy decision

def Store.read (s : Store) (scope : Scope) (id : Id) : Result (Option Record) :=
  match s.batches.get? (scope, id) with
  | none => .ok none
  | some row => do .ok (some (← row.restore c s.version scope id))

def replay (record : Record) (batch : Batch) : Result ReceiveOutcome :=
  if record.batch ≠ batch then .error .conflict else .ok (.replay record)

/-! ### Transactions -/

inductive Lock where
  | objectShare (object : Id)
  | objectUpdate (object : Id)
  | stream (scope : Scope)
  | journal
  deriving DecidableEq, Repr

def Lock.conflicts : Lock → Lock → Prop
  | .objectShare o, .objectUpdate o' | .objectUpdate o, .objectShare o'
  | .objectUpdate o, .objectUpdate o' => o = o'
  | .stream scope, .stream scope' => scope = scope'
  | .journal, .journal => True
  | _, _ => False

/-- How far a transaction has come, with what it has read and written. -/
inductive Txn where
  | activating (scope : Scope) (revision : ℕ) (write : Option Write)
  | opened (input : VerifiedBatch c)
  | shared (input : VerifiedBatch c)
  | locked (input : VerifiedBatch c) (row : StreamRow)
  | decided (input : VerifiedBatch c) (row : StreamRow) (receivedAt : ℕ) (decision : Decision)
  | staged (input : VerifiedBatch c) (row : StreamRow) (write : BatchRow) (journal : Option ℕ)

variable {c}

def Txn.locks : Txn c → List Lock
  | .activating scope _ _ => [.objectUpdate scope.object]
  | .opened _ => []
  | .shared input => [.objectShare input.scope.object]
  | .locked input _ | .decided input _ _ _ =>
      [.objectShare input.scope.object, .stream input.scope]
  | .staged input _ _ journal =>
      [.objectShare input.scope.object, .stream input.scope] ++
        if journal.isSome then [.journal] else []

/-- What the callers see of a step. -/
inductive Event (c : Codec) where
  | internal
  | activated (scope : Scope) (revision : ℕ)
  | told (input : VerifiedBatch c) (result : Result ReceiveOutcome)
  | upgraded

inductive Begin : Store → Txn c → Event c → Prop where
  | activate {s : Store} {scope : Scope} {expected : Option ℕ} {policy : Policy} {revision : ℕ}
      {write : Option Write} (activated : s.activate scope expected policy = .ok (revision, write)) :
      Begin s (.activating scope revision write) .internal
  | receive {s : Store} {input : VerifiedBatch c}
      (missing : s.read c input.scope input.batch.id = .ok none) : Begin s (.opened input) .internal

inductive Advance : Store → Txn c → Txn c → Event c → Prop where
  | share {s : Store} {input : VerifiedBatch c} (active : s.lockObject input.scope = .ok ()) :
      Advance s (.opened input) (.shared input) .internal
  | lock {s : Store} {input : VerifiedBatch c} {row : StreamRow}
      (selected : s.selectStream input.scope = .ok row) :
      Advance s (.shared input) (.locked input row) .internal
  | decide {s : Store} {input : VerifiedBatch c} {row : StreamRow} {receivedAt : ℕ}
      {decision : Decision} (missing : s.read c input.scope input.batch.id = .ok none)
      (valid : row.state.validate = .ok ())
      (decided : row.state.advance input.batch receivedAt row.policy = .ok decision) :
      Advance s (.locked input row) (.decided input row receivedAt decision) .internal
  | stage {s : Store} {input : VerifiedBatch c} {row : StreamRow} {receivedAt : ℕ}
      {decision : Decision} {write : BatchRow} {journal : Option ℕ}
      (committed : s.commitBatch input.scope input.batch.id input.batch.sequence input.batch
        input.fingerprint receivedAt row.policy decision row.state.revision
        decision.outcome.isApplicable = .ok (.batch input.scope input.batch.id write journal)) :
      Advance s (.decided input row receivedAt decision) (.staged input row write journal) .internal

/-- The receipt the caller gets when the commit is acknowledged. -/
def BatchRow.receipt (scope : Scope) (row : BatchRow) : Record :=
  ⟨scope, row.raw, row.receivedAt, row.policy, row.decision⟩

inductive Commit : Store → Txn c → Store → Event c → Prop where
  | activated {s : Store} {scope : Scope} {revision : ℕ} {write : Write} :
      Commit s (.activating scope revision (some write)) (s.apply write)
        (.activated scope revision)
  | retried {s : Store} {scope : Scope} {revision : ℕ} :
      Commit s (.activating scope revision none) s (.activated scope revision)
  | overtaken {s : Store} {input : VerifiedBatch c} {row : StreamRow} {record : Record}
      (found : s.read c input.scope input.batch.id = .ok (some record)) :
      Commit s (.locked input row) s (.told input (replay record input.batch))
  | accepted {s : Store} {input : VerifiedBatch c} {row : StreamRow} {write : BatchRow}
      {journal : Option ℕ} :
      Commit s (.staged input row write journal)
        (s.apply (.batch input.scope input.batch.id write journal))
        (.told input (.ok (.accepted (write.receipt input.scope))))
  | unacknowledged {s : Store} {input : VerifiedBatch c} {row : StreamRow} {write : BatchRow}
      {journal : Option ℕ} :
      Commit s (.staged input row write journal)
        (s.apply (.batch input.scope input.batch.id write journal)) .internal

/-- A first read, or the read back after an unknown commit, that finds the receipt. -/
inductive Observe : Store → Event c → Prop where
  | found {s : Store} {input : VerifiedBatch c} {record : Record}
      (found : s.read c input.scope input.batch.id = .ok (some record)) :
      Observe s (.told input (replay record input.batch))

inductive Maintain : Store → Store → Event c → Prop where
  | upgrade {s : Store} (old : s.version = .v1) : Maintain s (s.upgrade c) .upgraded

/-- The transactions of one tenant. -/
def transactions (c : Codec) : Locking Store (Txn c) Lock (Event c) where
  locks := Txn.locks
  Conflict := Lock.conflicts
  Begin := Begin
  Advance := Advance
  Commit := Commit
  Observe := Observe
  Maintain := Maintain
  rolledBack := .internal

/-- The installed store before any transaction. -/
def installed (c : Codec) : Sessions Store (Txn c) := ⟨.empty, fun _ => none⟩

end Rss.Observation
