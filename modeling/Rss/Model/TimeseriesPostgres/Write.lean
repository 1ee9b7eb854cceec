import Rss.Model.TimeseriesPostgres.Store

/-! # Batches and definitions

`write.rs` and `definition.rs`. A call is the body of one transaction: it is committed as a whole
or leaves the tables as they were. -/

namespace Rss.TimeseriesPostgres

open Rss.Timeseries

structure ReceiptQuery where
  stream : Stream
  batchId : String
  digest : Digest
  deriving DecidableEq, Repr

structure Receipt where
  identity : ReceiptQuery
  receivedAt : ℕ
  newSamples : ℕ
  replayedSamples : ℕ
  replayUntil : ℕ
  deriving DecidableEq, Repr

/-- `Receipt::from_durable`. -/
def Receipt.fromDurable (r : Receipt) : Except Error Receipt := do
  let total ← okOr (checkedAdd 32 r.newSamples r.replayedSamples) .invariant
  if total = 0 ∨ total > Batch.maxSamples ∨ r.replayUntil ≤ r.receivedAt then throw .invariant
  return r

/-- The receipt a row stands for. -/
def BatchRow.receipt (row : BatchRow) (q : ReceiptQuery) : Receipt :=
  ⟨q, row.receivedAt, row.newSamples, row.replayedSamples, row.replayUntil⟩

/-! ### Definitions -/

inductive DefinitionState where
  | active | retired
  deriving DecidableEq, Repr

structure DefinitionRecord where
  definition : Definition
  state : DefinitionState
  deriving DecidableEq

/-- The stored document, checked against its digest. -/
def DefinitionRow.record (D : Digests) (row : DefinitionRow) : Except Error DefinitionRecord :=
  if D.definition row.raw ≠ row.digest then .error .invariant
  else .ok ⟨row.raw, if row.retired then .retired else .active⟩

namespace Store

/-- `definition::exact`. -/
def exact (D : Digests) (s : Store) (id : DefinitionId) :
    Except Error (Option DefinitionRecord) :=
  match s.definitions.get? id with
  | some row => (row.record D).map some
  | none => .ok none

/-- The definition at the head of a key. -/
def head (D : Digests) (s : Store) (scope : Scope) (key : String) :
    Except Error (Option DefinitionRecord) :=
  match s.heads.get? (scope, key) with
  | some (some version) => s.exact D ⟨scope, key, version⟩
  | _ => .ok none

/-- The head is the expected one, and the definition may follow it. -/
def checkHead (D : Digests) (d : Definition) (head : Option DefinitionRecord)
    (expected : Option Digest) : Except Error Unit :=
  if head.map (fun old => D.definition old.definition) ≠ expected then .error .conflict
  else match head with
    | some old => (d.compare old.definition).map (fun _ => ())
    | none => .ok ()

def register (D : Digests) (s : Store) (d : Definition) (expected : Option Digest) :
    Except Error (Outcome DefinitionRecord × Store) := do
  let s := { s with heads := s.heads.insertNew (d.scope, d.key) none }
  match ← s.exact D d.identity with
  | some old =>
      let _ ← d.compare old.definition
      return (.replay old, s)
  | none =>
      checkHead D d (← s.head D d.scope d.key) expected
      let s ← s.putDefinition d (D.definition d) false
      return (.accepted ⟨d, .active⟩, s)

def retire (D : Digests) (s : Store) (id : DefinitionId) (expected : Digest) :
    Except Error (Outcome DefinitionRecord × Store) := do
  let s := { s with heads := s.heads.insertNew (id.scope, id.key) none }
  match ← s.exact D id with
  | none => throw .invalidInput
  | some old =>
      if D.definition old.definition ≠ expected then throw .conflict
      if old.state = .retired then return (.replay old, s)
      let s ← s.putDefinition old.definition (D.definition old.definition) true
      return (.accepted { old with state := .retired }, s)

/-! ### Batches -/

def lookup (s : Store) (q : ReceiptQuery) : Except Error (Lookup Receipt) :=
  match s.batches.get? (q.stream, q.batchId) with
  | none => .ok (if s.reclaimed q.stream then .expired else .notVisible)
  | some row =>
      if row.digest ≠ q.digest then .error .conflict
      else if row.expired then .ok .expired
      else (row.receipt q).fromDurable.map .found

/-- The definitions of a batch in the order of their key and version: the last sample of each
counts. -/
def batchDefinitions (samples : List Sample) : List Definition :=
  (samples.foldr (fun x out =>
      let d := x.series.definition
      if out.any (fun d' => d'.key = d.key && d'.version = d.version) then out else d :: out)
    []).mergeSort
      (fun a b => ((compare a.key b.key).then (compare a.version b.version)).isLE)

/-- The stored definition of the batch is the one the samples pin. -/
def checkDefinition (D : Digests) (s : Store) (scope : Scope) (d : Definition) :
    Except Error Unit := do
  let stored ← okOr (← s.exact D ⟨scope, d.key, d.version⟩) .invalidInput
  if D.definition stored.definition ≠ D.definition d then throw .conflict

/-- The samples one after another, with the number of new ones. -/
def putSamples (D : Digests) (received : ℕ) : Store → List Sample → Except Error (ℕ × Store)
  | s, [] => .ok (0, s)
  | s, x :: rest => do
      let (inserted, s) ← s.putSample x (D.sample x) received
      let (added, s) ← putSamples D received s rest
      return (added + (if inserted then 1 else 0), s)

/-- A batch with no receipt: lifecycle, definitions, samples, and the receipt it leaves. -/
def admitNew (D : Digests) (s : Store) (batch : Batch) (q : ReceiptQuery) (horizon now : ℕ) :
    Except Error (Outcome Receipt × Store) := do
  if s.closed batch.stream then throw .historyExpired
  (batchDefinitions batch.samples).forM (s.checkDefinition D batch.stream.scope)
  if now + horizon ≥ 2 ^ 63 then throw .numericRange
  let (added, s) ← putSamples D now s batch.samples
  let total := batch.samples.length
  let s ← s.putBatch (batch.stream, batch.id)
    ⟨q.digest, now, added, total - added, now + horizon, false⟩
  match ← s.lookup q with
  | .found result =>
      if result.newSamples + result.replayedSamples ≠ total then throw .invariant
      return (.accepted result, s)
  | _ => throw .invariant

def admitBatch (D : Digests) (s : Store) (batch : Batch) (horizon now : ℕ) :
    Except Error (Outcome Receipt × Store) := do
  let s := s.lockStream batch.stream
  let q : ReceiptQuery := ⟨batch.stream, batch.id, D.batch batch⟩
  match ← s.lookup q with
  | .found old => return (.replay old, s)
  | .expired => throw .historyExpired
  | .notVisible => s.admitNew D batch q horizon now

end Store

end Rss.TimeseriesPostgres
