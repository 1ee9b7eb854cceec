import Rss.Model.Outbox.Recovery

/-! # Local projection

The consumer whose effect, receipt and source settlement share one transaction
(`projection.rs`), and the runs of the database under everything that writes it. Each step is
one committed transaction; those that fail or roll back change nothing. -/

namespace Rss.Outbox

open Rss.Sql
open Rss.Messaging.Inbox (Digest Row)

abbrev TerminalDisposition := Messaging.Inbox.Disposition

/-- `PgProjectionRecovery`. -/
structure Recovery where
  seq : ℤ
  operation : Option Uuid
  tenant : Uuid
  message : String
  group : String
  contract : String
  fingerprint : Digest
  domain : String
  deriving DecidableEq, Repr

/-- The identity an attempt keeps of the source it was given. -/
def recoveryOf (src : Source) (c : ClaimRef) (group : String) : Recovery :=
  ⟨c.seq, c.operation, src.tenant, src.messageId, group, src.contract, src.fingerprint, src.domain⟩

/-- What a terminal result asks of the source. -/
def settlementOf : TerminalDisposition → Disposition
  | .succeeded => .published
  | .rejected _ => .deadLetter

namespace Db

variable (db : Db)

/-- `CLAIM_SQL` of the inbox; absent when the row is not to be had. -/
def acquire (s : Session) (r : Recovery) (ttl : ℤ) (token : Uuid) (now : ℤ) : Option Row :=
  match db.inbox.get? (s.tenant, r.message, r.group) with
  | none => some (Messaging.Inbox.insertClaim s.binding r.contract ttl token now)
  | some row =>
      if row.Claimable s.binding r.contract now then
        (succ row.receiveCount).map fun count => row.reclaimed s.binding ttl token count now
      else none

/-- The end of the effect transaction: the receipt, then the source in the same commit. -/
def commitEffect (s : Session) (r : Recovery) (inbox : Messaging.Inbox.Claim) (c : ClaimRef)
    (d : TerminalDisposition) (env : Env) : Outcome (Option Db) :=
  match (db.inbox.get? (s.tenant, r.message, r.group)).filter
      fun row => row.HeldBy inbox env.tick.now with
  | none => .ok none
  | some row => do
      let written ← db.writeInbox s r.message r.group { row with receipt := some ⟨r.fingerprint, d⟩ }
      match ← settleOutbox written s s.tenant c (settlementOf d) env.tick with
      | (db, .settled, _) => return some db
      | (_, .lostLease, _) => return none

/-- `finish_existing`: a receipt that is already there settles the source again. -/
def finishExisting (s : Session) (r : Recovery) (c : ClaimRef) (env : Env) :
    Outcome (Option Db) :=
  match ((db.inbox.get? (s.tenant, r.message, r.group)).filter
      fun row => row.contract = r.contract).bind Row.receipt with
  | none => .ok none
  | some receipt =>
      if receipt.fingerprint ≠ r.fingerprint then .ok none
      else do
        match ← settleOutbox db s s.tenant c (settlementOf receipt.disposition) env with
        | (db, .settled, _) => return some db
        | (_, .lostLease, _) => return none

/-! ### Readback -/

inductive ResolveError where
  | invariant | conflict
  deriving DecidableEq, Repr

/-- The rows that one snapshot of `resolve` joins. -/
def resolveRows (r : Recovery) : Option (Row × Source) :=
  match db.inbox.get? (r.tenant, r.message, r.group), db.sources.get? r.seq with
  | some row, some src =>
      if src.tenant = r.tenant ∧ src.messageId = r.message then some (row, src) else none
  | _, _ => none

/-- The comparison of a receipt with the member it was delivered through. -/
def resolveMember (r : Recovery) (operation : Uuid) (d : TerminalDisposition) :
    Except ResolveError (Option TerminalDisposition) :=
  match db.findMember r.tenant operation r.seq with
  | none => .ok none
  | some (_, m) =>
      if m.fingerprint ≠ r.fingerprint then .error .invariant
      else match d, m.status with
        | .succeeded, .completed => .ok (some d)
        | .rejected _, .blocked _ => .ok (some d)
        | _, _ => .ok none

/-- The comparison of a receipt with the status of its source. -/
def resolveSource (src : Source) (d : TerminalDisposition) :
    Except ResolveError (Option TerminalDisposition) :=
  match d, src.status with
  | _, .pending | _, .publishing _ => .ok none
  | .succeeded, .published => .ok (some d)
  | .rejected _, .deadLetter => .ok (some d)
  | _, _ => .error .invariant

/-- `PgLocalProjection::resolve`. -/
def resolve (r : Recovery) : Except ResolveError (Option TerminalDisposition) :=
  match db.resolveRows r with
  | none => .ok none
  | some (row, src) =>
      if src.domain ≠ r.domain ∨ src.fingerprint ≠ r.fingerprint then .error .invariant
      else if row.contract ≠ r.contract then .error .conflict
      else match row.receipt with
        | none => .ok none
        | some receipt =>
            if receipt.fingerprint ≠ r.fingerprint then .error .invariant
            else match r.operation with
              | some operation => db.resolveMember r operation receipt.disposition
              | none => resolveSource src receipt.disposition

end Db

/-! ### Runs -/

/-- The database, and the identities that attempts were given, whatever became of them. -/
structure State where
  db : Db
  issued : List Recovery

inductive Event where
  | fenced
  | prepared
  | appended (reply : AppendReply)
  | claimed (claimed : List Claimed)
  | leased (c : ClaimRef)
  | settled (s : Session) (c : ClaimRef) (d : Disposition)
  | planned (operation : Uuid)
  | received (tenant : Uuid) (message group : String)
  | mutated (m : Mutation) (receipt : Receipt)
  | begun (r : Recovery)
  | met (r : Recovery)
  | renewed (r : Recovery)
  | released (r : Recovery)
  | committed (r : Recovery) (d : TerminalDisposition)
  | finished (r : Recovery)

/-- One committed transaction. -/
inductive Step (digest : Mutation → Digest) : State → Event → State → Prop where
  | fence {st : State} (storage : Option Messaging.Storage) (epochs : Table Uuid ℤ) :
      Step digest st .fenced { st with db := { st.db with storage, epochs } }
  | prepare {st : State} {s : Session} {xid : ℕ} {pairs : List (String × String)} {db : Db}
      (h : preparePartitions st.db s xid pairs = .ok db) :
      Step digest st .prepared { st with db }
  | append {st : State} {s : Session} {xid : ℕ} {seq : ℤ} {m : NewMessage} {now : ℤ} {db : Db}
      {reply : AppendReply} (h : appendOutbox st.db s xid seq m now = .ok (db, reply)) :
      Step digest st (.appended reply) { st with db }
  | claim {st : State} {s : Session} {tenant : Uuid} {domain : String} {limit ttl : ℤ} {env : Env}
      {fuel : ℕ} {result : Claiming}
      (h : claimOutbox st.db s tenant domain limit ttl env fuel = .ok (some result)) :
      Step digest st (.claimed result.claimed) { st with db := result.db }
  | lease {st : State} {s : Session} {tenant : Uuid} {c : ClaimRef} {extendMs : ℤ} {env env' : Env}
      {db : Db} {reply : Option LeaseReply}
      (h : outboxLease st.db s tenant c extendMs env = .ok (db, reply, env')) :
      Step digest st (.leased c) { st with db }
  | settle {st : State} {s : Session} {tenant : Uuid} {c : ClaimRef} {d : Disposition}
      {env env' : Env} {db : Db}
      (h : settleOutbox st.db s tenant c d env = .ok (db, .settled, env')) :
      Step digest st (.settled s c d) { st with db }
  | plan {st : State} {s : Session} {operation : Uuid} {request : PlanRequest} {d : Digest}
      {expected epoch : ℤ} {clock : Clock} {db : Db}
      (h : st.db.applyDr s operation d request expected clock = .ok (db, epoch)) :
      Step digest st (.planned operation) { st with db }
  | receive {st : State} {s : Session} {message group : String} {row : Row} {db : Db}
      (h : st.db.writeInbox s message group row = .ok db) :
      Step digest st (.received s.tenant message group) { st with db }
  | mutate {st : State} {s : Session} {m : Mutation} {clock : Clock} {db : Db} {receipt : Receipt}
      (tenant : m.tenant = s.tenant) (h : st.db.mutate digest s m clock = .ok (db, receipt)) :
      Step digest st (.mutated m receipt) { st with db }
  | begin {st : State} {s : Session} {c : ClaimRef} {src : Source} {group : String} {ttl : ℤ}
      {token : Uuid} {now : ℤ} {row : Row} {db : Db}
      (source : st.db.sources.get? c.seq = some src) (tenant : src.tenant = s.tenant)
      (acquired : st.db.acquire s (recoveryOf src c group) ttl token now = some row)
      (h : st.db.writeInbox s src.messageId group row = .ok db) :
      Step digest st (.begun (recoveryOf src c group))
        ⟨db, recoveryOf src c group :: st.issued⟩
  | renew {st : State} {s : Session} {r : Recovery} {inbox : Messaging.Inbox.Claim} {row : Row}
      {now until' : ℤ} {db : Db} (issued : r ∈ st.issued) (tenant : r.tenant = s.tenant)
      (held : st.db.inbox.get? (s.tenant, r.message, r.group) = some row)
      (claim : row.HeldBy inbox now)
      (h : st.db.writeInbox s r.message r.group { row with leaseUntil := until' } = .ok db) :
      Step digest st (.renewed r) { st with db }
  | release {st : State} {s : Session} {r : Recovery} {inbox : Messaging.Inbox.Claim} {row : Row}
      {now : ℤ} (issued : r ∈ st.issued) (tenant : r.tenant = s.tenant)
      (held : st.db.inbox.get? (s.tenant, r.message, r.group) = some row)
      (claim : row.HeldBy inbox now) :
      Step digest st (.released r)
        { st with db := { st.db with
            inbox := st.db.inbox.delete fun k => k = (s.tenant, r.message, r.group) } }
  | commit {st : State} {s : Session} {r : Recovery} {inbox : Messaging.Inbox.Claim} {c : ClaimRef}
      {d : TerminalDisposition} {env : Env} {db : Db} (issued : r ∈ st.issued)
      (tenant : r.tenant = s.tenant) (seq : c.seq = r.seq) (operation : c.operation = r.operation)
      (h : st.db.commitEffect s r inbox c d env = .ok (some db)) :
      Step digest st (.committed r d) { st with db }
  | meet {st : State} {s : Session} {c : ClaimRef} {src : Source} {group : String} {row : Row}
      (source : st.db.sources.get? c.seq = some src) (tenant : src.tenant = s.tenant)
      (held : st.db.inbox.get? (s.tenant, src.messageId, group) = some row)
      (terminal : row.receipt.isSome) :
      Step digest st (.met (recoveryOf src c group))
        { st with issued := recoveryOf src c group :: st.issued }
  | finish {st : State} {s : Session} {r : Recovery} {c : ClaimRef} {env : Env} {db : Db}
      (issued : r ∈ st.issued) (tenant : r.tenant = s.tenant) (seq : c.seq = r.seq)
      (operation : c.operation = r.operation)
      (h : st.db.finishExisting s r c env = .ok (some db)) :
      Step digest st (.finished r) { st with db }

/-- A database with its tables installed and nothing in them. -/
def Db.initial (storage : Option Messaging.Storage) (epochs : Table Uuid ℤ) : Db where
  storage
  epochs
  partitions := .empty
  sources := .empty
  inbox := .empty
  plans := .empty
  members := .empty
  operations := .empty

def State.initial (storage : Option Messaging.Storage) (epochs : Table Uuid ℤ) : State :=
  ⟨.initial storage epochs, []⟩

end Rss.Outbox
