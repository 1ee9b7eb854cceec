import Rss.Model.Outbox.Store

/-! # Appending and settling

How a message enters the outbox, and what a relay does with a claim: `append_outbox` and
`prepare_outbox_partitions` (`0009`, `0010`), `outbox_lease` and `settle_outbox` (`0007`). -/

namespace Rss.Outbox

open Rss.Sql
open Rss.Messaging.Inbox (Digest)

/-! ### Append -/

/-- `prepare_outbox_partitions` over the distinct pairs, in the transaction `xid`. -/
def preparePartitions (db : Db) (s : Session) (xid : ℕ) (pairs : List (String × String)) :
    Outcome Db := do
  checkExecution db s
  if pairs = [] then return db
  else if db.partitions.rows.any (fun row => row.1.1 = s.tenant && row.2.preparedBy = xid) then
    raise "PZ002" "partition set already declared"
  else
    return { db with
      partitions := pairs.foldl (fun t pair =>
        t.upsert (s.tenant, pair.1, pair.2) ⟨0, xid⟩ fun a => { a with preparedBy := xid })
        db.partitions }

/-- What `append_outbox` reads of a decoded message. -/
structure NewMessage where
  tenant : Uuid
  id : String
  domain : String
  partition : Option String
  contract : String
  causation : Option String
  fingerprint : Digest
  deriving DecidableEq, Repr

inductive AppendReply where
  | inserted | alreadyPresent | conflict
  deriving DecidableEq, Repr

/-- `SELECT … FROM outbox WHERE tenant_id = … AND message_id = …`. -/
def Db.findSource (db : Db) (tenant : Uuid) (message : String) : Option (ℤ × Source) :=
  db.sources.rows.find? fun row => row.2.tenant = tenant && row.2.messageId = message

/-- The allocator row of a partition this transaction declared. -/
def Db.declared (db : Db) (tenant : Uuid) (domain key : String) (xid : ℕ) : Option Allocator :=
  (db.partitions.get? (tenant, domain, key)).filter fun a => a.preparedBy = xid

/-- The row as inserted, with its defaults and what the trigger writes. -/
def newSource (s : Session) (m : NewMessage) (ordinal : Option ℤ) (now : ℤ) : Source where
  tenant := s.tenant
  messageId := m.id
  domain := m.domain
  partition := m.partition.bind fun key => ordinal.map fun i => (key, i)
  contract := m.contract
  causation := m.causation
  fingerprint := m.fingerprint
  status := .pending
  retryCount := 0
  retryAfter := now
  automaticRetryDeadline := none
  claimEpoch := s.epoch
  claimLineage := some s.lineage
  recoveryVersion := 1

/-- `append_outbox`; `seq` is the next value of the identity column. -/
def appendOutbox (db : Db) (s : Session) (xid : ℕ) (seq : ℤ) (m : NewMessage) (now : ℤ) :
    Outcome (Db × AppendReply) := do
  checkExecution db s
  if m.tenant ≠ s.tenant then raise "22023" "message tenant mismatch"
  else match db.findSource s.tenant m.id with
    | some (_, persisted) =>
        match m.partition with
        | some key =>
            if (db.declared s.tenant m.domain key xid).isNone then
              raise "PZ002" "partition was not declared by this transaction"
            else return (db, if persisted.fingerprint = m.fingerprint then .alreadyPresent else .conflict)
        | none =>
            return (db, if persisted.fingerprint = m.fingerprint then .alreadyPresent else .conflict)
    | none =>
        if (db.sources.get? seq).isSome then .error .uniqueViolation
        else match m.partition with
          | none =>
              return ({ db with
                sources := db.sources.insertNew seq (newSource s m none now) }, .inserted)
          | some key =>
              match db.declared s.tenant m.domain key xid with
              | none => raise "PZ002" "partition was not declared by this transaction"
              | some a => do
                  let ordinal ← okOr (succ a.lastSequence) Fault.numericOutOfRange
                  return ({ db with
                    partitions := db.partitions.modify (s.tenant, m.domain, key)
                      fun a => { a with lastSequence := ordinal }
                    sources := db.sources.insertNew seq (newSource s m (some ordinal) now) },
                    .inserted)

/-! ### Leases -/

/-- What identifies a claim to the functions that extend and settle it. -/
structure ClaimRef where
  seq : ℤ
  token : Uuid
  leaseUs : ℤ
  operation : Option Uuid
  deriving DecidableEq, Repr

/-- The status of the claimed row, of the source or of the member of this generation. -/
def Db.claimedLease (db : Db) (s : Session) (c : ClaimRef) (o : Source) : Option Lease :=
  match c.operation with
  | none =>
      if o.claimEpoch = s.epoch ∧ o.claimLineage = some s.lineage then
        o.status.lease?.filter fun lease => lease.token = c.token
      else none
  | some op =>
      match db.findMember s.tenant op c.seq with
      | none => none
      | some m =>
          if db.current s.generation m.1 then
            m.2.status.lease?.filter fun lease => lease.token = c.token
          else none

structure LeaseReply where
  leaseUs : ℤ
  remainingUs : ℤ
  deliveryUs : ℤ
  deriving DecidableEq, Repr

/-- The row a claim still holds at `n`, with its lease. -/
def Db.heldBy (db : Db) (s : Session) (c : ClaimRef) (n : ℤ) : Option (Source × Lease) :=
  match (db.sources.get? c.seq).filter fun o => o.tenant = s.tenant with
  | none => none
  | some o =>
      ((db.claimedLease s c o).filter fun lease =>
        decide (n < lease.until') && decide (lease.until' = c.leaseUs)).map fun lease => (o, lease)

def Status.extended (until' : ℤ) : Status → Status
  | .publishing lease => .publishing { lease with until' }
  | status => status

def MemberStatus.extended (until' : ℤ) : MemberStatus → MemberStatus
  | .publishing lease => .publishing { lease with until' }
  | status => status

/-- Both windows a lease reply reports at `n`. -/
def leaseReply (o : Source) (deadline n : ℤ) : LeaseReply :=
  ⟨deadline, max 0 (deadline - n),
    match o.automaticRetryDeadline with
    | none => 0
    | some automatic => max 0 (automatic - n)⟩

/-- `outbox_lease`, without a reply when the claim is lost. -/
def outboxLease (db : Db) (s : Session) (tenant : Uuid) (c : ClaimRef) (extendMs : ℤ) (env : Env) :
    Outcome (Db × Option LeaseReply × Env) := do
  checkExecution db s
  let env := env.tick
  if tenant ≠ s.tenant ∨ extendMs < 0 ∨ 86400000 < extendMs then return (db, none, env)
  else match db.heldBy s c env.now with
    | none => return (db, none, env)
    | some (o, lease) =>
        if extendMs = 0 then return (db, some (leaseReply o lease.until' env.now), env)
        else
          let until' := env.now + milliseconds extendMs
          let db' := match c.operation with
            | none => { db with
                sources := db.sources.modify c.seq fun o =>
                  { o with status := o.status.extended until' } }
            | some op => db.updateMembers s.tenant op c.seq fun m =>
                { m with status := m.status.extended until' }
          return (db', some (leaseReply o until' env.now), env)

/-! ### Settlement -/

inductive Disposition where
  | published | retry | deadLetter
  deriving DecidableEq, Repr

/-- `LEAST(3600, 1 << LEAST(retry_count, 12)) * interval '1 second'`. -/
def backoff (retryCount : ℤ) : ℤ := min 3600 (2 ^ (min retryCount 12).toNat) * 1000000

/-- `retry_count + 1` in `integer` arithmetic. -/
def nextCount (n : ℤ) : Outcome ℤ :=
  if n < 2 ^ 31 - 1 then .ok (n + 1) else .error .numericOutOfRange

/-- The update of an ordinary settlement, with what the trigger writes. -/
def Source.settle (o : Source) (s : Session) (d : Disposition) (n : ℤ) : Outcome Source := do
  match d with
  | .published => return o.rebind { o with status := .published } s
  | .retry =>
      let retryCount ← nextCount o.retryCount
      return o.rebind { o with
        status := .pending, retryCount, retryAfter := n + backoff o.retryCount } s
  | .deadLetter =>
      let recoveryVersion ← okOr (succ o.recoveryVersion) Fault.numericOutOfRange
      return o.rebind { o with status := .deadLetter, recoveryVersion } s

/-- The status a member is left in; `remaining` is its delivery window. -/
def settledStatus (d : Disposition) (remaining : ℤ) : MemberStatus :=
  match d with
  | .published => .completed
  | .retry => if 0 < remaining then .pending else .blocked .deadlineExpired
  | .deadLetter =>
      if remaining ≤ 0 then .blocked .deadlineExpired else .blocked .permanentPublishFailure

def Member.settle (m : Member) (d : Disposition) (remaining n : ℤ) : Outcome Member := do
  let retryCount ← nextCount m.retryCount
  return { m with
    status := settledStatus d remaining, retryAfter := n + backoff m.retryCount, retryCount }

/-- The columns that a settlement of a member sets. -/
def Member.become (m m' : Member) : Member :=
  { m with status := m'.status, retryAfter := m'.retryAfter, retryCount := m'.retryCount }

inductive SettleReply where
  | settled | lostLease
  deriving DecidableEq, Repr

/-- `settle_outbox`. -/
def settleOutbox (db : Db) (s : Session) (tenant : Uuid) (c : ClaimRef) (d : Disposition)
    (env : Env) : Outcome (Db × SettleReply × Env) := do
  match ← outboxLease db s tenant c 0 env with
  | (_, none, env) => return (db, .lostLease, env)
  | (_, some reply, env) =>
      let env := env.tick
      match c.operation with
      | none =>
          match db.sources.get? c.seq with
          | none => return (db, .settled, env)
          | some o => do
              let o' ← o.settle s d env.now
              return ({ db with sources := db.sources.modify c.seq fun _ => o' }, .settled, env)
      | some op =>
          match db.findMember s.tenant op c.seq with
          | none => return (db, .settled, env)
          | some m => do
              let m' ← m.2.settle d reply.deliveryUs env.now
              return (db.updateMembers s.tenant op c.seq fun m => m.become m', .settled, env)

end Rss.Outbox
