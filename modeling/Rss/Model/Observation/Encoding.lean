import Rss.Library.Framing
import Rss.Library.Sql
import Rss.Model.Observation.Journal

/-! # Canonical batches

`report.rs` with the bytes a batch is written to, and the part of `restore` that reads a stored
batch back. The derived JSON of the wire structs stands as the functions of `serde_json`. -/

namespace Rss.Observation.Encoding

open Rss.Sql

/-- The full ordering and deduplication domain of a stream; a `TenantId` is not nil. -/
@[ext] structure TenantScope where
  tenant : Uuid
  scope : Scope
  tenant_ne : tenant ≠ 0

instance : DecidableEq TenantScope := fun a b =>
  decidable_of_iff (a.tenant = b.tenant ∧ a.scope = b.scope) TenantScope.ext_iff.symm

structure WireBatch where
  version : ℕ
  id : Id
  sequence : ℕ
  observedAt : ℤ
  coverage : Coverage
  body : Body
  deriving DecidableEq, Repr

/-- The predecessor of a delta is a `u64`. -/
def Body.InRange : Body → Prop
  | .delta _ previous _ => previous < 2 ^ 64
  | _ => True

/-- Every number fits its field: a `u8`, a `u64` and an `i64`. -/
structure WireBatch.InRange (w : WireBatch) : Prop where
  version : w.version < 2 ^ 8
  sequence : w.sequence < 2 ^ 64
  observedAt : -2 ^ 63 ≤ w.observedAt ∧ w.observedAt < 2 ^ 63
  body : Body.InRange w.body

/-- `serde_json` on the wire structs: the pieces that `to_writer` hands to its writer one after
another, `from_slice`, and `to_string` with its inverse. -/
structure SerdeJson where
  pieces : WireBatch → List (List UInt8)
  fromSlice : List UInt8 → Option WireBatch
  scopeText : TenantScope → List UInt8
  parseScope : List UInt8 → Option TenantScope

/-- What is written is read back, and what is read fits its fields. -/
structure SerdeJson.RoundTrips (j : SerdeJson) : Prop where
  batch : ∀ w, w.InRange → j.fromSlice (j.pieces w).flatten = some w
  inRange : ∀ raw w, j.fromSlice raw = some w → w.InRange
  scope : ∀ s, j.parseScope (j.scopeText s) = some s

/-! ### The bounded writer -/

/-- `BoundedEncoding::write`; a piece beyond the limit is refused as a whole. -/
def BoundedEncoding.write (buffer bytes : List UInt8) : Result (List UInt8) :=
  if bytes.length > maxBatch - buffer.length then .error .invalidInput
  else .ok (buffer ++ bytes)

/-- `to_writer` into an empty bounded writer. -/
def toWriter (pieces : List (List UInt8)) : Result (List UInt8) :=
  pieces.foldlM BoundedEncoding.write []

/-! ### Batches -/

structure Batch where
  wire : WireBatch
  canonical : List UInt8
  deriving DecidableEq

namespace Batch

variable (j : SerdeJson) (sha256 : List UInt8 → List UInt8)

def validated (w : WireBatch) : Result Batch :=
  if w.version ≠ 1 ∨ w.observedAt < 0 then .error .invalidInput
  else do
    let body ← w.body.normalize
    let canonical ← toWriter (j.pieces { w with body })
    if canonical.length > maxBatch then .error .invalidInput
    else .ok ⟨{ w with body }, canonical⟩

def new (id : Id) (sequence : ℕ) (observedAt : ℤ) (coverage : Coverage) (body : Body) :
    Result Batch :=
  validated j ⟨1, id, sequence, observedAt, coverage, body⟩

def decode (raw : List UInt8) : Result Batch :=
  if raw.length > maxBatch then .error .invalidInput
  else do
    let w ← okOr (j.fromSlice raw) .invalidInput
    validated j w

def encode (b : Batch) : List UInt8 := b.canonical

/-- The bytes the digest is computed of. -/
def preimage (b : Batch) (scope : TenantScope) : List UInt8 :=
  "rss-observation-v1".toUTF8.toList ++
    [j.scopeText scope, b.encode].flatMap (fun bytes => beBytes 8 bytes.length ++ bytes)

def fingerprint (b : Batch) (scope : TenantScope) : List UInt8 := sha256 (b.preimage j scope)

end Batch

/-! ### Stored batches -/

/-- The columns that hold the batch. -/
structure Columns where
  raw : List UInt8
  fingerprint : List UInt8
  sequence : String

variable (j : SerdeJson) (sha256 : List UInt8 → List UInt8)

/-- What `receive` stores of a batch. -/
def columns (scope : TenantScope) (b : Batch) : Columns :=
  ⟨b.encode, b.fingerprint j sha256 scope, toString b.wire.sequence⟩

/-- The batch of a stored row. -/
def restoreBatch (row : Columns) (scope : TenantScope) (id : Id) : Result Batch := do
  let batch ← Batch.decode j row.raw
  if batch.wire.id ≠ id ∨ batch.encode ≠ row.raw ∨
      batch.fingerprint j sha256 scope ≠ row.fingerprint ∨
      toString batch.wire.sequence ≠ row.sequence then
    .error .invariant
  else .ok batch

/-- `restore`, with what it does after the batch was read. -/
def restore {α : Type} (row : Columns) (scope : TenantScope) (id : Id) (rest : Batch → Result α) :
    Result α :=
  Except.mapError (fun _ => ErrorKind.invariant) (restoreBatch j sha256 row scope id >>= rest)

/-- `replay`: an exact retry finds its own record. -/
def replay (recorded batch : Batch) : Result Batch :=
  if recorded ≠ batch then .error .conflict else .ok recorded

end Rss.Observation.Encoding
