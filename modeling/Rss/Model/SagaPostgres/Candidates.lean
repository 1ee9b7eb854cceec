import Rss.Model.Saga.Sweep
import Rss.Model.SagaPostgres.Store

/-! # Candidates of the PostgreSQL store

`PgStore::candidates` over the table of instances. -/

namespace Rss.SagaPostgres

open Rss.Sql
open Rss.Saga (CandidateFilter ErrorKind)
open Rss.Sweep (Discovery)

/-- The part of the `WHERE` clause about the instance itself, at the time of the statement. -/
def Instance.qualifies (row : Instance) (filter : CandidateFilter) (now : ℤ) : Outcome Truth :=
  allOf [.ok (isIn (memberText (some row.progress) "status") ["Ready", "Running", "Compensating"]),
    do
      let holds ← runnable (some row.progress) (some row.definition) row.revision
        row.historyEncodedBytes row.historyEntryLimit row.historyByteLimit
      return equal holds (some (decide (filter = .runnable))),
    .ok (some (row.expiresAt.all fun expires => expires ≤ now))]

/-- The rows for which a condition holds; a condition that fails ends the statement. -/
def whereRows {α : Type} (p : α → Outcome Bool) : List α → Outcome (List α)
  | [] => .ok []
  | row :: rows => do
      let holds ← p row
      let rest ← whereRows p rows
      .ok (if holds then row :: rest else rest)

namespace Db

/-- `SELECT saga_id FROM rss_saga.instances WHERE … ORDER BY saga_id LIMIT …`. -/
def candidates (db : Db) (filter : CandidateFilter) (tenant : Uuid) (after : Option Uuid)
    (limit : ℕ) (now : ℤ) : Outcome (List Uuid) := do
  let rows ← whereRows (fun row =>
    if row.1.1 = tenant ∧ after.all (fun id => id < row.1.2) then
      return (← row.2.qualifies filter now) = some true
    else .ok false) db.instances.rows
  .ok (((rows.map fun row => row.1.2).mergeSort (fun a b => a ≤ b)).take limit)

end Db

namespace PgStore

def sqlError : Fault → ErrorKind
  | .raised "RS001" _ => .fenced
  | .raised "RS002" _ => .conflict
  | .raised "RS003" _ => .integrity
  | .raised "RS004" _ => .historyLimited .durableCapacity
  | _ => .store

/-- `PgStore::candidates`. A transaction reads the tables and the clock as it finds them, or it
fails: to begin, to commit or within the time that is left. -/
def candidates {σ : Type} (transact : σ → Except ErrorKind (Db × ℤ) × σ) : Discovery σ :=
  fun filter tenant after limit s =>
    if limit = 0 ∨ limit > 10000 then (.error .invalidBudget, s)
    else
      match transact s with
      | (.error e, s) => (.error e, s)
      | (.ok (db, now), s) =>
          match db.candidates filter tenant after limit now with
          | .error fault => (.error (sqlError fault), s)
          | .ok ids => (.ok (ids.map fun id => ⟨tenant, id⟩), s)

end PgStore

end Rss.SagaPostgres
