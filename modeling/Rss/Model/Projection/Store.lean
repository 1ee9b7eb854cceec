import Rss.Library.Fallible
import Rss.Library.Sql
import Rss.Library.Table

/-! # The PostgreSQL projection store

The functions of `0003_bind_definition_identity.sql` over the checkpoint and receipt tables
of `0001` and `0002`, and the transaction that wraps a consumer's effect between
`lock_event` and `finish_event`. -/

namespace Rss.Projection

open Rss.Sql

/-! ### Tables -/

inductive Failure where
  | scopeMismatch
  | definitionRequired
  | baselineRequired
  | constraint
  | generationConflict
  | baselineConflict
  | tokenRequired
  | generationMissing
  | definitionConflict
  | fenced
  | outOfOrder
  | factInvalid
  | factConflict
  | outOfRange
  | effectFailed
  deriving DecidableEq, Repr

/-- Primary key of a checkpoint. -/
structure Generation where
  tenant : Uuid
  source : String
  projection : String
  generation : String
  deriving DecidableEq, Repr

structure Checkpoint where
  startPosition : Option ℤ
  position : Option ℤ
  replay : Bool
  endPosition : Option ℤ
  epoch : ℤ
  workerToken : Option Uuid
  definition : List UInt8
  deriving DecidableEq, Repr

structure Receipt where
  fingerprint : List UInt8
  baseline : Bool
  deriving DecidableEq, Repr

structure Db where
  checkpoints : Table Generation Checkpoint
  receipts : Table (Generation × String) Receipt

def Db.empty : Db := ⟨.empty, .empty⟩

/-- `'^[A-Za-z0-9_.:-]{1,128}$'`. -/
def nameOk (s : String) : Bool :=
  1 ≤ s.length && s.length ≤ 128 &&
    s.toList.all (fun c => c.isAlphanum || ['_', '.', ':', '-'].contains c)

def assertTenant (session : Option Uuid) (t : Uuid) : Except Failure Unit :=
  if session = some t then .ok () else .error .scopeMismatch

/-! ### Generations -/

/-- The `CHECK` constraints of a fresh checkpoint row. -/
def CheckpointOk (g : Generation) (start : Option ℤ) (replay : Bool) (stop : Option ℤ) : Prop :=
  nameOk g.source ∧ nameOk g.projection ∧ nameOk g.generation ∧ (∀ n ∈ start, 0 ≤ n) ∧
    (∀ n ∈ stop, 0 ≤ n) ∧ (replay → ∀ n ∈ start, ∃ m ∈ stop, n ≤ m) ∧
    (replay = false → stop = none)

instance (g : Generation) (start : Option ℤ) (replay : Bool) (stop : Option ℤ) :
    Decidable (CheckpointOk g start replay stop) := by
  unfold CheckpointOk
  infer_instance

/-- Identifiers and digests of the inherited facts, when the two arrays pair up and fit the
start position. -/
def baselineOf (start : Option ℤ) (ids : Option (List (Option String)))
    (digests : Option (List (Option (List UInt8)))) :
    Option (List (Option String × Option (List UInt8))) :=
  match ids, digests with
  | some ids, some digests =>
      if ids.length ≠ digests.length ∨ (start = none ∧ ids ≠ []) ∨ (start ≠ none ∧ ids = []) then
        none
      else
        some (ids.zip digests)
  | _, _ => none

/-- The receipt rows of a baseline; null, malformed or repeated facts violate the table. -/
def baselineRows : List (Option String × Option (List UInt8)) →
    Except Failure (List (String × List UInt8))
  | [] => .ok []
  | (some id, some digest) :: rest => do
      let rows ← baselineRows rest
      if nameOk id ∧ digest.length = 32 ∧ id ∉ rows.map Prod.fst then
        .ok ((id, digest) :: rows)
      else
        .error .constraint
  | _ :: _ => .error .constraint

/-- The baseline facts stored for a generation. -/
def Db.storedBaseline (db : Db) (g : Generation) : List (String × List UInt8) :=
  (db.receipts.rows.filter (fun row => row.1.1 = g ∧ row.2.baseline)).map
    (fun row => (row.1.2, row.2.fingerprint))

def insertBaseline (db : Db) (g : Generation) (rows : List (String × List UInt8)) : Db :=
  { db with
    receipts := rows.foldl (fun t row => t.insertNew (g, row.1) ⟨row.2, true⟩) db.receipts }

/-- The second component tells whether the generation was created. -/
def initializeGeneration (db : Db) (session : Option Uuid) (g : Generation) (start : Option ℤ)
    (replay : Bool) (stop : Option ℤ) (ids : Option (List (Option String)))
    (digests : Option (List (Option (List UInt8)))) (definition : Option (List UInt8)) :
    Except Failure (Db × Bool) := do
  assertTenant session g.tenant
  let definition ← okOr (definition.filter (fun d => d.length = 32)) .definitionRequired
  let supplied ← okOr (baselineOf start ids digests) .baselineRequired
  if ¬ CheckpointOk g start replay stop then
    .error .constraint
  else match db.checkpoints.get? g with
    | none => do
        let rows ← baselineRows supplied
        let db := { db with
          checkpoints := db.checkpoints.insertNew g
            ⟨start, start, replay, stop, 0, none, definition⟩ }
        .ok (insertBaseline db g rows, true)
    | some c =>
        if c.definition ≠ definition ∨ c.startPosition ≠ start ∨ c.replay ≠ replay ∨
            c.endPosition ≠ stop then
          .error .generationConflict
        else if (∃ fact ∈ supplied, ∀ row ∈ db.storedBaseline g,
              fact ≠ (some row.1, some row.2)) ∨
            (∃ row ∈ db.storedBaseline g, (some row.1, some row.2) ∉ supplied) then
          .error .baselineConflict
        else
          .ok (db, false)

def takeover (db : Db) (session : Option Uuid) (g : Generation) (token : Option Uuid)
    (definition : Option (List UInt8)) : Except Failure (Db × ℤ) := do
  assertTenant session g.tenant
  let token ← okOr token .tokenRequired
  match db.checkpoints.get? g with
  | none => .error .generationMissing
  | some c =>
      if some c.definition ≠ definition then
        .error .definitionConflict
      else do
        let epoch ← okOr (succ c.epoch) .outOfRange
        .ok ({ db with
          checkpoints := db.checkpoints.modify g
            (fun c => { c with epoch, workerToken := some token }) }, epoch)

/-! ### Events -/

/-- A worker's identity for one generation, current or stale. -/
structure Claim where
  generation : Generation
  definition : Option (List UInt8)
  epoch : Option ℤ
  token : Option Uuid
  deriving DecidableEq, Repr

/-- The fact a worker settles. -/
structure Event where
  position : Option ℤ
  id : String
  fingerprint : Option (List UInt8)
  deriving DecidableEq, Repr

/-- True when the fact already has a receipt. -/
def lockEvent (db : Db) (session : Option Uuid) (w : Claim) (expected : Option ℤ) (e : Event) :
    Except Failure Bool := do
  assertTenant session w.generation.tenant
  match db.checkpoints.get? w.generation with
  | none => .error .fenced
  | some c =>
      if some c.epoch ≠ w.epoch ∨ c.workerToken ≠ w.token ∨ w.token = none ∨
          c.position ≠ expected then
        .error .fenced
      else if some c.definition ≠ w.definition then
        .error .definitionConflict
      else match e.position with
        | none => .error .outOfOrder
        | some at' =>
            if at' < 0 ∨ (∃ n ∈ c.position, at' ≤ n) ∨
                (c.replay ∧ ∀ n ∈ c.endPosition, at' > n) then
              .error .outOfOrder
            else match e.fingerprint.filter (fun d => d.length = 32) with
              | none => .error .factInvalid
              | some digest =>
                  match db.receipts.get? (w.generation, e.id) with
                  | none => .ok false
                  | some previous =>
                      if previous.fingerprint ≠ digest then .error .factConflict
                      else .ok true

def finishEvent (db : Db) (session : Option Uuid) (w : Claim) (expected : Option ℤ)
    (e : Event) : Except Failure Db := do
  let _ ← lockEvent db session w expected e
  if ¬ nameOk e.id then
    .error .constraint
  else
    .ok {
      receipts := db.receipts.insertNew (w.generation, e.id) ⟨e.fingerprint.getD [], false⟩
      checkpoints := db.checkpoints.modify w.generation
        (fun c => { c with position := e.position }) }

inductive ApplyOutcome where
  | applied
  | filtered
  | duplicate
  deriving DecidableEq, Repr

inductive EffectOutcome where
  | applied
  | filtered
  deriving DecidableEq, Repr

/-- `PgProjection::execute`: one transaction around the consumer's effect, which is absent
when it fails. The effect runs only for a fact without a receipt. -/
def execute (db : Db) (session : Option Uuid) (w : Claim) (expected : Option ℤ) (e : Event)
    (effect : Option EffectOutcome) : Except Failure (Db × ApplyOutcome) := do
  let duplicate ← lockEvent db session w expected e
  let outcome ←
    (if duplicate then .ok .duplicate
    else match effect with
      | none => .error .effectFailed
      | some .applied => .ok .applied
      | some .filtered => .ok .filtered)
  let db ← finishEvent db session w expected e
  .ok (db, outcome)

/-- The tables after an execution, committed or rolled back. -/
def afterExecute (db : Db) (session : Option Uuid) (w : Claim) (expected : Option ℤ)
    (e : Event) (effect : Option EffectOutcome) : Db :=
  match execute db session w expected e effect with
  | .ok (db, _) => db
  | .error _ => db

/-- `PgCheckpoint::advance`: the checkpoint of a projection whose target is external. -/
def advance (db : Db) (session : Option Uuid) (w : Claim) (expected : Option ℤ) (e : Event) :
    Except Failure Db :=
  finishEvent db session w expected e

/-! ### Runs -/

/-- A committed transaction. A worker that crashes, or never learns the result of its
commit, still leaves either the whole transaction or nothing. -/
inductive Action where
  | initializeGeneration (session : Option Uuid) (g : Generation) (start : Option ℤ) (replay : Bool)
      (stop : Option ℤ) (ids : Option (List (Option String)))
      (digests : Option (List (Option (List UInt8)))) (definition : Option (List UInt8))
      (created : Bool)
  | takeover (session : Option Uuid) (g : Generation) (token : Option Uuid)
      (definition : Option (List UInt8)) (epoch : ℤ)
  | execute (session : Option Uuid) (w : Claim) (expected : Option ℤ) (e : Event)
      (effect : Option EffectOutcome) (outcome : ApplyOutcome)
  | advance (session : Option Uuid) (w : Claim) (expected : Option ℤ) (e : Event)
  | rollback

inductive Step : Db → Action → Db → Prop where
  | initializeGeneration {db db' : Db} {session : Option Uuid} {g : Generation} {start : Option ℤ}
      {replay : Bool} {stop : Option ℤ} {ids : Option (List (Option String))}
      {digests : Option (List (Option (List UInt8)))} {definition : Option (List UInt8)}
      {created : Bool}
      (h : Projection.initializeGeneration db session g start replay stop ids digests definition =
        .ok (db', created)) :
      Step db (.initializeGeneration session g start replay stop ids digests definition created) db'
  | takeover {db db' : Db} {session : Option Uuid} {g : Generation} {token : Option Uuid}
      {definition : Option (List UInt8)} {epoch : ℤ}
      (h : Projection.takeover db session g token definition = .ok (db', epoch)) :
      Step db (.takeover session g token definition epoch) db'
  | execute {db db' : Db} {session : Option Uuid} {w : Claim} {expected : Option ℤ} {e : Event}
      {effect : Option EffectOutcome} {outcome : ApplyOutcome}
      (h : Projection.execute db session w expected e effect = .ok (db', outcome)) :
      Step db (.execute session w expected e effect outcome) db'
  | advance {db db' : Db} {session : Option Uuid} {w : Claim} {expected : Option ℤ} {e : Event}
      (h : Projection.advance db session w expected e = .ok db') :
      Step db (.advance session w expected e) db'
  | rollback {db : Db} : Step db .rollback db

end Rss.Projection
