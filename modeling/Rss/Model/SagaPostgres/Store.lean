import Rss.Library.Table
import Rss.Model.SagaPostgres.History

/-! # The PostgreSQL saga store

The functions of `0002_add_history_bounds.sql` over the two tables of the schema. A call is
one transaction of a session whose tenant is set: it returns the new tables, or it fails and
leaves them alone. Every insert and update evaluates the `CHECK` constraints of its row. -/

namespace Rss.SagaPostgres

open Rss.Sql

/-! ### Tables -/

/-- Tenant and saga id, the primary key of an instance. -/
abbrev Key := Uuid × Uuid

structure Instance where
  definition : Json
  revision : ℤ
  leaseToken : Option Uuid
  epoch : ℤ
  expiresAt : Option ℤ
  progress : Json
  historyEncodedBytes : ℤ
  historyEntryLimit : ℤ
  historyByteLimit : ℤ
  deriving DecidableEq, Repr

/-- A journal row without its key; `receipt` is the column `protected`. -/
structure JournalRow where
  step : ℤ
  attempt : ℤ
  effectKey : List UInt8
  kind : String
  receipt : Option Json
  encodedBytes : ℤ
  deriving DecidableEq, Repr

structure Db where
  instances : Table Key Instance
  journal : Table (Key × ℤ) JournalRow

/-- The column default of `progress`. -/
def emptyProgress : Json :=
  .obj [("status", .str "Ready"), ("forward", .num 0), ("forwardAttempt", .num 0),
    ("forwardFailures", .num 0), ("compensation", .null), ("compensationAttempt", .num 0),
    ("pending", .null), ("lastKind", .null)]

/-! ### Constraints -/

/-- A condition over one bigint member of a document. -/
def memberBetween (j : Option Json) (key : String) (low high : ℤ) : Outcome Truth := do
  return between (← bigint j key) low high

def validInstance (d p : Json) (q bytes entries limitBytes : ℤ) : Outcome Bool := do
  let p := some p
  let pending := member p "pending"
  let valid ← allOf [.ok (some (decide (Json.octets d.render ≤ 2097152))),
    .ok (p.map (fun p => decide (Json.octets p.render ≤ 2048))), .ok (some (decide (0 ≤ q))),
    .ok (some (decide (0 ≤ bytes))), .ok (some (decide (0 < entries))),
    .ok (some (decide (0 < limitBytes))), .ok (some (decide (q ≤ entries))),
    .ok (some (decide (bytes ≤ limitBytes))), .ok (hasType p "object"),
    .ok (isIn (memberText p "status") ["Ready", "Running", "Compensating", "CompensationFailed",
      "Succeeded", "Compensated"]),
    memberBetween p "forward" 0 1024, memberBetween p "forwardAttempt" 0 4294967295,
    memberBetween p "forwardFailures" 0 4294967295,
    memberBetween p "compensationAttempt" 0 4294967295,
    anyOf [.ok (equal (member p "compensation") (some .null)),
      memberBetween p "compensation" 0 1023],
    anyOf [.ok (equal pending (some .null)),
      allOf [.ok (isIn (memberText pending "kind") ["ForwardIntent", "CompensationIntent"]),
        memberBetween pending "step" 0 1023, memberBetween pending "attempt" 1 4294967295]]]
  return valid = some true

/-- The kinds the journal admits. -/
def journalKinds : List String :=
  ["ForwardIntent", "ForwardApplied", "ForwardNotApplied", "ForwardProbeNotApplied", "Abort",
    "CompensationIntent", "CompensationApplied", "CompensationNotApplied", "CompensationFailed",
    "Resume"]

def validJournal (k : String) (q a : ℤ) (key : List UInt8) (r : Option Json) (bytes : ℤ) :
    Outcome Bool := do
  let charged ← historyCharge r
  let valid ← allOf [.ok (some (decide (k ∈ journalKinds))), .ok (some (decide (key.length = 32))),
    .ok (some (decide (0 ≤ q))), .ok (some (decide (1 ≤ a ∧ a ≤ 4294967295))),
    .ok (equal (some bytes) charged), .ok (some ((k = "ForwardApplied") = r.isSome)),
    anyOf [.ok (some (r = none)),
      allOf [do return equal (← bigint r "seq") (some q),
        do return equal (← bigint r "attempt") (some a)]]]
  return valid = some true

/-- The `CHECK` constraints of an instance row. A `NULL` condition is satisfied. -/
def Instance.check (row : Instance) : Outcome Unit := do
  let steps ← arrayLength (member (some row.definition) "steps")
  let valid ← validInstance row.definition row.progress row.revision row.historyEncodedBytes
    row.historyEntryLimit row.historyByteLimit
  if 0 ≤ row.revision ∧ 0 ≤ row.epoch ∧ row.leaseToken.isNone = row.expiresAt.isNone ∧
      between steps 1 1024 ≠ some false ∧ 0 ≤ row.historyEncodedBytes ∧
      0 < row.historyEntryLimit ∧ 0 < row.historyByteLimit ∧ valid then
    .ok ()
  else
    .error .checkViolation

def JournalRow.check (q : ℤ) (row : JournalRow) : Outcome Unit := do
  let valid ← validJournal row.kind q row.attempt row.effectKey row.receipt row.encodedBytes
  if 0 ≤ q ∧ 0 ≤ row.step ∧ 1 ≤ row.attempt ∧ row.attempt ≤ 4294967295 ∧
      row.effectKey.length = 32 ∧ row.kind ∈ journalKinds ∧ valid then
    .ok ()
  else
    .error .checkViolation

namespace Db

/-- `UPDATE rss_saga.instances … WHERE tenant_id = t AND saga_id = p_id`. -/
def updateInstance (db : Db) (key : Key) (row : Instance) : Outcome Db := do
  row.check
  .ok { db with instances := db.instances.modify key (fun _ => row) }

/-- Another completed step with this step number, or with this effect key in the tenant. -/
def Completed (db : Db) (key : Key) (row : JournalRow) : Prop :=
  ∃ entry ∈ db.journal.rows, entry.2.kind = "ForwardApplied" ∧
    (entry.1.1 = key ∧ entry.2.step = row.step ∨
      entry.1.1.1 = key.1 ∧ entry.2.effectKey = row.effectKey)

instance (db : Db) (key : Key) (row : JournalRow) : Decidable (db.Completed key row) :=
  inferInstanceAs (Decidable (∃ entry ∈ db.journal.rows, _))

/-- `INSERT INTO rss_saga.journal`, with its primary key and its two partial unique indexes. -/
def insertJournal (db : Db) (key : Key) (q : ℤ) (row : JournalRow) : Outcome Db := do
  row.check q
  if (db.journal.get? (key, q)).isSome ∨
      row.kind = "ForwardApplied" ∧ db.Completed key row then
    .error .uniqueViolation
  else
    .ok { db with journal := db.journal.insertNew (key, q) row }

end Db

/-! ### Functions -/

/-- The row that `INSERT INTO rss_saga.instances(…)` builds from the column defaults. -/
def newInstance (definition : Json) (entries bytes : ℤ) : Instance where
  definition
  revision := 0
  leaseToken := none
  epoch := 0
  expiresAt := none
  progress := emptyProgress
  historyEncodedBytes := 0
  historyEntryLimit := entries
  historyByteLimit := bytes

def identityText (d : Json) (part : String) : Option String :=
  memberText (member (some d) "identity") part

/-- A registered definition of the same contract and version that differs. -/
def VersionConflict (db : Db) (t : Uuid) (d : Json) : Prop :=
  ∃ entry ∈ db.instances.rows, entry.1.1 = t ∧
    equal (identityText entry.2.definition "contract") (identityText d "contract") = some true ∧
    equal (identityText entry.2.definition "version") (identityText d "version") = some true ∧
    entry.2.definition ≠ d

instance (db : Db) (t : Uuid) (d : Json) : Decidable (VersionConflict db t d) :=
  inferInstanceAs (Decidable (∃ entry ∈ db.instances.rows, _))

def register (db : Db) (t id : Uuid) (definition capacity : Json) : Outcome Db := do
  let entries ← bigint (some capacity) "maxEntries"
  let bytes ← bigint (some capacity) "maxEncodedBytes"
  match entries, bytes with
  | some entries, some bytes =>
      if entries ≤ 0 ∨ bytes ≤ 0 then
        raise "RS004" "saga capacity invalid"
      else if VersionConflict db t definition then
        raise "RS002" "saga version conflict"
      else do
        let row := newInstance definition entries bytes
        -- constraints are checked before the conflict is looked for
        row.check
        let db := { db with instances := db.instances.insertNew (t, id) row }
        let existing ← notNull (db.instances.get? (t, id))
        if existing.definition ≠ definition ∨ existing.historyEntryLimit ≠ entries ∨
            existing.historyByteLimit ≠ bytes then
          raise "RS002" "saga registration conflict"
        else
          .ok db
  | _, _ => raise "RS004" "saga capacity invalid"

/-- The metadata that `lock_instance` returns. -/
def Instance.head (row : Instance) : Json :=
  .obj [("revision", .num row.revision), ("encodedBytes", .num row.historyEncodedBytes),
    ("capacity", .obj [("maxEntries", .num row.historyEntryLimit),
      ("maxEncodedBytes", .num row.historyByteLimit)]),
    ("progress", row.progress)]

/-- The row is held by this token and epoch at the instant `now`. -/
def Instance.HeldBy (row : Instance) (token : Option Uuid) (epoch : Option ℤ) (now : ℤ) : Prop :=
  token.isSome ∧ row.leaseToken = token ∧ epoch = some row.epoch ∧ 0 < row.epoch ∧
    ∃ expires ∈ row.expiresAt, now < expires

instance (row : Instance) (token : Option Uuid) (epoch : Option ℤ) (now : ℤ) :
    Decidable (row.HeldBy token epoch now) :=
  inferInstanceAs (Decidable (_ ∧ _ ∧ _ ∧ _ ∧ ∃ expires ∈ row.expiresAt, _))

def lockInstance (db : Db) (t id : Uuid) (token : Option Uuid) (epoch : Option ℤ) (clock : Clock) :
    Outcome Instance :=
  match db.instances.get? (t, id) with
  | some row =>
      if row.HeldBy token epoch clock.now then .ok row else raise "RS001" "saga lease lost"
  | none => raise "RS001" "saga lease lost"

def extendHistory (db : Db) (clock : Clock) (t id : Uuid) (token : Option Uuid)
    (epoch : Option ℤ) (revision : ℤ) (expected capacity : Json) : Outcome Db := do
  let entries ← bigint (some capacity) "maxEntries"
  let bytes ← bigint (some capacity) "maxEncodedBytes"
  let row ← lockInstance db t id token epoch clock
  let h := some row.head
  let held := member h "capacity"
  let conflict ← anyOf [do return some ((← bigint h "revision") ≠ some revision),
    .ok (some (held ≠ some expected)), .ok (some (entries = none)), .ok (some (bytes = none)),
    do return less entries (← bigint held "maxEntries"),
    do return less bytes (← bigint held "maxEncodedBytes"),
    .ok (some (capacity = expected))]
  if conflict = some true then
    raise "RS002" "saga capacity conflict"
  else do
    let entries ← notNull entries
    let bytes ← notNull bytes
    db.updateInstance (t, id) { row with historyEntryLimit := entries, historyByteLimit := bytes }

/-- `IF h IS DISTINCT FROM p_before OR (e->>'seq')::bigint IS DISTINCT FROM q`, the second
half. -/
def checkSeq (q : Option ℤ) (e : Json) : Outcome Unit := do
  let seq ← bigint (some e) "seq"
  if seq ≠ q then raise "RS002" "saga revision conflict" else .ok ()

/-- `n` and `p`: the charged bytes and the projection after the event. -/
def project (h d e : Json) : Outcome (Option ℤ × Json) := do
  let charge ← historyCharge (member (some e) "receipt")
  let n ← add (← bigint (some h) "encodedBytes") charge
  let p ← nextProgress (member (some h) "progress") (some d) (some e)
  .ok (n, p)

/-- The capacity comparison; it returns the reserve it made. -/
def checkCapacity (h : Json) (q n : Option ℤ) (p : Json) : Outcome Json := do
  let reserve ← historyReserve (some p)
  let capacity := member (some h) "capacity"
  let excess ← anyOf [
    do
      let entries ← add (← add q (some 1)) (← bigint (some reserve) "entries")
      return less (← bigint capacity "maxEntries") entries,
    do
      let bytes ← add n (← bigint (some reserve) "bytes")
      return less (← bigint capacity "maxEncodedBytes") bytes]
  if excess = some true then raise "RS004" "saga history capacity" else .ok reserve

/-- The checks of `commit_event` that depend on the head, the definition and the event alone,
with the projection, the charged bytes and the reserve they compute. -/
def commitChecks (h d e : Json) : Outcome (Json × Option ℤ × Json) := do
  let q ← bigint (some h) "revision"
  checkSeq q e
  let (n, p) ← project h d e
  let reserve ← checkCapacity h q n p
  .ok (p, n, reserve)

def commitEvent (db : Db) (clock : Clock) (t id : Uuid) (token : Option Uuid) (epoch : Option ℤ)
    (e : Json) (key : List UInt8) (before after : Json) : Outcome Db := do
  let row ← lockInstance db t id token epoch clock
  let h := row.head
  let q ← bigint (some h) "revision"
  if h ≠ before then
    raise "RS002" "saga revision conflict"
  else do
    checkSeq q e
    if key.length ≠ 32 then
      raise "RS003" "saga effect key invalid"
    else if unequal (member (member (some h) "progress") "pending") (some .null) = some true ∧
        (db.journal.get? ((t, id), row.revision - 1)).map JournalRow.effectKey ≠ some key then
      raise "RS003" "saga pending key mismatch"
    else do
      let (n, p) ← project h row.definition e
      let next ← add q (some 1)
      let actual : Json := .obj [("revision", ofInteger next), ("encodedBytes", ofInteger n),
        ("capacity", ofJson (member (some h) "capacity")), ("progress", p)]
      if actual ≠ after then
        raise "RS003" "saga projection mismatch"
      else do
        let _ ← checkCapacity h q n p
        let receipt := member (some e) "receipt"
        let step ← notNull (← integer (some e) "step")
        let attempt ← notNull (← bigint (some e) "attempt")
        let kind ← notNull (memberText (some e) "kind")
        let encodedBytes ← notNull (← historyCharge receipt)
        let db ← db.insertJournal (t, id) row.revision
          { step, attempt, effectKey := key, kind,
            receipt := if receipt = some .null then none else receipt, encodedBytes }
        let revision ← notNull next
        let bytes ← notNull n
        db.updateInstance (t, id)
          { row with revision, progress := p, historyEncodedBytes := bytes }

/-- The new epoch is returned beside the tables. -/
def claim (db : Db) (clock : Clock) (t id : Uuid) (token : Option Uuid) (ttl : Option ℤ) :
    Outcome (Db × ℤ) :=
  match token, ttl with
  | some token, some ttl =>
      if ttl ≤ 0 ∨ ttl > 86400000 then
        raise "RS003" "saga lease ttl"
      else
        match db.instances.get? (t, id) with
        | none => raise "RS001" "saga lease unavailable"
        | some row =>
            if ∃ expires ∈ row.expiresAt, clock.now < expires then
              raise "RS001" "saga lease unavailable"
            else do
              let epoch ← ranged 64 (row.epoch + 1)
              let db ← db.updateInstance (t, id) { row with
                leaseToken := some token
                epoch
                expiresAt := some (clock.now + milliseconds ttl) }
              .ok (db, epoch)
  | _, _ => raise "RS003" "saga lease ttl"

/-- Release with a ttl of zero, otherwise renew from a second clock reading. -/
def lease (db : Db) (clock : Clock) (t id : Uuid) (token : Option Uuid) (epoch : Option ℤ)
    (ttl : Option ℤ) : Outcome Db := do
  let row ← lockInstance db t id token epoch clock
  match ttl with
  | none => raise "RS003" "saga lease ttl"
  | some ttl =>
      if ttl = 0 then
        db.updateInstance (t, id) { row with leaseToken := none, expiresAt := none }
      else if 0 < ttl ∧ ttl ≤ 86400000 then
        db.updateInstance (t, id) { row with
          expiresAt := some (clock.tick.now + milliseconds ttl) }
      else
        raise "RS003" "saga lease ttl"

/-! ### Replay -/

/-- `jsonb_build_object('seq',j.seq,'step',j.step,…)` of a journal row. -/
def JournalRow.event (q : ℤ) (row : JournalRow) : Json :=
  .obj [("seq", .num q), ("step", .num row.step), ("attempt", .num row.attempt),
    ("kind", .str row.kind), ("receipt", ofJson row.receipt)]

/-- The variables `q`, `p` and `bytes_` of the replay loop. -/
structure Replay where
  q : ℤ
  p : Json
  bytes : Option ℤ
  deriving DecidableEq, Repr

/-- One round of the replay loop over rows in `seq` order. -/
def replayStep (d : Json) (state : Replay) (row : JournalRow) : Outcome Replay := do
  let charge ← historyCharge row.receipt
  let bytes ← add state.bytes charge
  let p ← nextProgress (some state.p) (some d) (some (row.event state.q))
  let q ← ranged 64 (state.q + 1)
  .ok { q, p, bytes }

def replay (d : Json) (rows : List JournalRow) : Outcome Replay :=
  rows.foldlM (replayStep d) { q := 0, p := emptyProgress, bytes := some 0 }

/-- The rows of an instance with `seq` below `n`, in order; absent when one is missing. -/
def history (journal : Table (Key × ℤ) JournalRow) (key : Key) : ℕ → Option (List JournalRow)
  | 0 => some []
  | n + 1 => do
      let rows ← history journal key n
      let row ← journal.get? (key, n)
      some (rows ++ [row])

/-! ### Transactions -/

inductive Call where
  | register (definition capacity : Json)
  | claim (token : Option Uuid) (ttl : Option ℤ)
  | lease (token : Option Uuid) (epoch : Option ℤ) (ttl : Option ℤ)
  | extendHistory (token : Option Uuid) (epoch : Option ℤ) (revision : ℤ)
      (expected capacity : Json)
  | commitEvent (token : Option Uuid) (epoch : Option ℤ) (event : Json) (key : List UInt8)
      (before after : Json)

/-- One transaction on an instance, its documents bound as `jsonb`. The second result is the
epoch a claim returns. -/
def execute (db : Db) (clock : Clock) (t id : Uuid) : Call → Outcome (Db × Option ℤ)
  | .register definition capacity => do
      let definition ← jsonbIn definition
      let capacity ← jsonbIn capacity
      return (← register db t id definition capacity, none)
  | .claim token ttl => do
      let (db, epoch) ← claim db clock t id token ttl
      return (db, some epoch)
  | .lease token epoch ttl => do
      return (← lease db clock t id token epoch ttl, none)
  | .extendHistory token epoch revision expected capacity => do
      let expected ← jsonbIn expected
      let capacity ← jsonbIn capacity
      return (← extendHistory db clock t id token epoch revision expected capacity, none)
  | .commitEvent token epoch event key before after => do
      let event ← jsonbIn event
      let before ← jsonbIn before
      let after ← jsonbIn after
      return (← commitEvent db clock t id token epoch event key before after, none)

/-- The tables after a transaction, committed or rolled back. -/
def Db.after (db : Db) (clock : Clock) (t id : Uuid) (call : Call) : Db :=
  match execute db clock t id call with
  | .ok (db, _) => db
  | .error _ => db

/-- The token and epoch a call acts under. -/
def Call.authority : Call → Option (Option Uuid × Option ℤ)
  | .register _ _ | .claim _ _ => none
  | .lease token epoch _ => some (token, epoch)
  | .extendHistory token epoch _ _ _ => some (token, epoch)
  | .commitEvent token epoch _ _ _ _ => some (token, epoch)

/-- A transaction some worker runs against some instance, with its clock readings. -/
structure Action where
  clock : Clock
  tenant : Uuid
  id : Uuid
  call : Call

def Action.key (a : Action) : Key := (a.tenant, a.id)

def Db.empty : Db := ⟨.empty, .empty⟩

def Db.step (db : Db) (a : Action) : Db := db.after a.clock a.tenant a.id a.call

/-- The tables after a serialised sequence of transactions on the fresh schema. -/
def Db.run (actions : List Action) : Db := actions.foldl Db.step .empty

end Rss.SagaPostgres
