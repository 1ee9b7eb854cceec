import Rss.Model.Outbox.Delivery

/-! # Recovery

The plans of disaster recovery (`apply_dr` and the trigger `dr_consumer`, `0008`) and the
operator's redrive and resolution of dead letters (`recovery/mutation.rs`). -/

namespace Rss.Outbox

open Rss.Sql
open Rss.Messaging.Inbox (Digest Row)

/-! ### Plans -/

structure DatabaseItem where
  message : String
  fingerprint : Digest
  version : ℤ
  deriving DecidableEq, Repr

structure BrokerItem where
  message : String
  group : String
  contract : String
  fingerprint : Digest
  deriving DecidableEq, Repr

/-- `p_kind` with the arguments it takes. -/
inductive PlanRequest where
  | database (items : List DatabaseItem)
  | broker (items : List BrokerItem)
  | terminate (operation : Uuid) (digest : Digest)
  deriving DecidableEq, Repr

namespace PlanRequest

def kind : PlanRequest → PlanKind
  | .database _ => .database
  | .broker _ => .broker
  | .terminate _ _ => .terminate

/-- The plan row a request leaves. -/
def plan (r : PlanRequest) (digest : Digest) (lineage : Lineage) (epoch : ℤ) : Plan :=
  ⟨digest, lineage, epoch, r.kind,
    match r with | .terminate operation _ => some operation | _ => none,
    match r with | .terminate _ digest => some digest | _ => none⟩

end PlanRequest

namespace Db

variable (db : Db)

/-- `INSERT INTO dr_plans`, under its three unique constraints. -/
def insertPlan (tenant operation : Uuid) (p : Plan) : Outcome Db :=
  if db.plans.rows.any (fun row => row.1.1 = tenant &&
      (row.1.2 = operation || (row.2.lineage = p.lineage && row.2.epoch = p.epoch) ||
        (p.targetOperation.isSome && row.2.targetOperation = p.targetOperation))) then
    .error .uniqueViolation
  else .ok { db with plans := db.plans.insertNew (tenant, operation) p }

/-- `INSERT INTO dr_members`, under its keys and its shape. -/
def insertMember (k : MemberKey) (m : Member) : Outcome Db :=
  if db.members.rows.any (fun row => row.1 = k || (row.1.tenant = k.tenant &&
      row.1.operation = k.operation && row.2.messageId = m.messageId &&
      row.2.consumerGroup = m.consumerGroup)) then .error .uniqueViolation
  else if m.outboxSeq.isSome ∧ (m.consumerGroup ≠ "" ∨ m.contract.isSome) ∨
      m.outboxSeq = none ∧ (m.consumerGroup = "" ∨ m.contract = none) then
    .error .checkViolation
  else .ok { db with members := db.members.insertNew k m }

/-- One turn of the loop of `apply_dr` for a database plan. -/
def addSource (s : Session) (operation : Uuid) (ordinal : ℕ) (item : DatabaseItem) (now : ℤ) :
    Outcome Db :=
  match db.findSource s.tenant item.message with
  | none => raise "P0002" "member absent"
  | some (seq, src) =>
      if src.status ≠ .published ∨ src.fingerprint ≠ item.fingerprint ∨
          src.recoveryVersion ≠ item.version then raise "23505" "member conflict"
      else if src.expired now then raise "PZ004" "redrive expired"
      else db.insertMember ⟨s.tenant, operation, ordinal⟩
        ⟨src.messageId, "", none, src.fingerprint, some seq, .pending, now, 0⟩

/-- One turn of the loop of `apply_dr` for a broker plan. -/
def addConsumer (s : Session) (operation : Uuid) (ordinal : ℕ) (item : BrokerItem) (now : ℤ) :
    Outcome Db :=
  let terminal := db.inbox.get? (s.tenant, item.message, item.group)
  if terminal.any (fun row => row.contract ≠ item.contract ||
      row.receipt.any fun receipt => receipt.fingerprint ≠ item.fingerprint) then
    raise "23505" "consumer conflict"
  else db.insertMember ⟨s.tenant, operation, ordinal⟩
    ⟨item.message, item.group, some item.contract, item.fingerprint, none,
      if terminal.any (fun row => row.receipt.isSome) then .completed else .pending, now, 0⟩

/-- The loop of `apply_dr` over its items, with the clock it reads. -/
def addMembers {α : Type} (db : Db) (add : Db → ℕ → α → ℤ → Outcome Db) :
    ℕ → List α → Clock → Outcome Db
  | _, [], _ => .ok db
  | ordinal, item :: items, clock => do
      let db ← add db ordinal item clock.tick.now
      addMembers db add (ordinal + 1) items clock.tick

/-- The target of a termination is a plan of this epoch and lineage that terminates nothing. -/
def checkTarget (s : Session) (current : ℤ) (operation : Uuid) (digest : Digest) : Outcome Unit :=
  match db.plans.get? (s.tenant, operation) with
  | none => raise "P0002" "target absent"
  | some target =>
      if target.kind = .terminate ∨ target.requestDigest ≠ digest ∨
          target.lineage ≠ s.lineage ∨ target.epoch ≠ current then
        raise "23505" "termination conflict"
      else .ok ()

def checkRequest (s : Session) (current : ℤ) : PlanRequest → Outcome Unit
  | .database items =>
      if items.length < 1 ∨ 500 < items.length then raise "22023" "invalid members" else .ok ()
  | .broker items =>
      if items.length < 1 ∨ 500 < items.length then raise "22023" "invalid members" else .ok ()
  | .terminate operation digest => db.checkTarget s current operation digest

/-- A new plan: the epoch moves, then the plan and its members are stored under it. -/
def applyNew (s : Session) (operation : Uuid) (digest : Digest) (request : PlanRequest)
    (clock : Clock) : Outcome (Db × ℤ) := do
  let next ← okOr (succ s.epoch) Fault.numericOutOfRange
  let moved : Db := { db with epochs := db.epochs.modify s.tenant fun _ => next }
  let planned ← moved.insertPlan s.tenant operation (request.plan digest s.lineage next)
  match request with
  | .database items =>
      let db ← planned.addMembers (fun db i item now => db.addSource s operation i item now) 0
        items clock
      return (db, next)
  | .broker items =>
      let db ← planned.addMembers (fun db i item now => db.addConsumer s operation i item now) 0
        items clock
      return (db, next)
  | .terminate _ _ => return (planned, next)

/-- `apply_dr`. -/
def applyDr (s : Session) (operation : Uuid) (digest : Digest) (request : PlanRequest)
    (expected : ℤ) (clock : Clock) : Outcome (Db × ℤ) := do
  if db.storage ≠ some s.binding.storage then raise "PZ001" "execution fenced"
  else match db.epochs.get? s.tenant with
    | none => raise "PZ001" "execution fenced"
    | some current =>
        match db.plans.get? (s.tenant, operation) with
        | some prior =>
            if prior.requestDigest ≠ digest ∨ prior.lineage ≠ s.lineage then
              raise "23505" "plan conflict"
            else return (db, prior.epoch)
        | none =>
            if current ≠ s.epoch ∨ current ≠ expected then raise "PZ001" "execution fenced"
            else if operation = 0 then raise "22023" "invalid plan"
            else do
              db.checkRequest s current request
              db.applyNew s operation digest request clock

/-! ### Consumers under a plan -/

/-- The loop of `guard_dr_consumer` over one member. -/
def completeMember (row : MemberKey × Member) (r : Row) (db : Db) : Outcome Db :=
  if row.2.contract ≠ some r.contract ∨
      r.receipt.any (fun receipt => receipt.fingerprint ≠ row.2.fingerprint) then
    raise "23505" "consumer recovery evidence"
  else if r.receipt = none then .ok db
  else match row.2.status with
    | .pending | .completed =>
        .ok { db with members := db.members.modify row.1 fun m => { m with status := .completed } }
    | .publishing _ | .blocked _ => .error .checkViolation

/-- An insert or update of an inbox row, with the trigger `dr_consumer` after it. -/
def writeInbox (s : Session) (message group : String) (r : Row) : Outcome Db := do
  checkExecution db s
  let written : Db := { db with
    inbox := db.inbox.upsert (s.tenant, message, group) r fun _ => r }
  (db.members.rows.filter fun row => row.1.tenant = s.tenant && row.2.messageId = message &&
    row.2.consumerGroup = group && db.current s.generation row.1).foldlM
      (fun db row => completeMember row r db) written

end Db

/-! ### Operator mutations -/

/-- What ends a recovery transaction. -/
inductive RecoveryError where
  | notFound | conflict | expired | notExpired | evidence | store (fault : Fault)
  deriving DecidableEq, Repr

inductive Action where
  | redrive
  | acceptedGap
  | compensated (evidence : String)
  deriving DecidableEq, Repr

/-- A `Mutation` of an outbox target. -/
structure Mutation where
  tenant : Uuid
  operation : Uuid
  message : String
  version : ℤ
  action : Action
  deriving DecidableEq, Repr

structure Receipt where
  request : Mutation
  outcome : RecoveryOutcome
  version : ℤ
  deriving DecidableEq, Repr

namespace Db

variable (db : Db)

/-- `read_receipt`. -/
def readReceipt (digest : Mutation → Digest) (m : Mutation) :
    Except RecoveryError (Option Receipt) :=
  match db.operations.get? (m.tenant, m.operation) with
  | none => .ok none
  | some row =>
      if row.requestDigest ≠ digest m then .error .conflict
      else .ok (some ⟨m, row.outcome, row.resultVersion⟩)

/-- `next_version`. -/
def nextVersion (src : Source) (m : Mutation) : Except RecoveryError ℤ :=
  if src.recoveryVersion ≠ m.version then .error .conflict
  else okOr (succ src.recoveryVersion) RecoveryError.conflict

/-- `validate_evidence`: a published message that the target caused. -/
def validateEvidence (m : Mutation) (evidence : String) : Except RecoveryError Unit :=
  match db.findSource m.tenant evidence with
  | none => .error .evidence
  | some (_, src) =>
      if src.status = .published ∧ src.causation = some m.message then .ok ()
      else .error .evidence

/-- What a mutation makes of a dead letter whose window is or is not over. -/
def target (m : Mutation) (expired : Bool) : Except RecoveryError (Status × RecoveryOutcome) :=
  match m.action with
  | .redrive => if expired then .error .expired else .ok (.pending, .redriven)
  | .acceptedGap => if expired then .ok (.resolved, .resolved) else .error .notExpired
  | .compensated evidence =>
      if expired then do
        db.validateEvidence m evidence
        return (.resolved, .resolved)
      else .error .notExpired

/-- The condition of the update, which reads the clock again. -/
def windowAllows (status : Status) (deadline n : ℤ) : Bool :=
  match status with
  | .pending => decide (n < deadline)
  | .resolved => decide (deadline ≤ n)
  | _ => false

/-- `transition`. -/
def transition (m : Mutation) (clock : Clock) : Except RecoveryError (Db × Receipt) :=
  match db.findSource m.tenant m.message with
  | none => .error .notFound
  | some (seq, src) => do
      let version ← nextVersion src m
      if src.status ≠ .deadLetter then .error .conflict
      else do
        let deadline ← okOr src.automaticRetryDeadline RecoveryError.conflict
        let (status, outcome) ← db.target m (decide (deadline ≤ clock.tick.now))
        if windowAllows status deadline clock.tick.tick.now then
          return ({ db with
            sources := db.sources.modify seq fun src => { src with
              status, recoveryVersion := version, retryAfter := clock.tick.tick.tick.now } },
            ⟨m, outcome, version⟩)
        else .error .expired

/-- `mutate`, under the advisory lock of its operation. -/
def mutate (digest : Mutation → Digest) (s : Session) (m : Mutation) (clock : Clock) :
    Except RecoveryError (Db × Receipt) := do
  (checkExecution db s).mapError RecoveryError.store
  match ← db.readReceipt digest m with
  | some receipt => return (db, receipt)
  | none => do
      let (db, receipt) ← db.transition m clock
      return ({ db with
        operations := db.operations.insertNew (m.tenant, m.operation)
          ⟨digest m, m.message, receipt.outcome, receipt.version⟩ }, receipt)

end Db

end Rss.Outbox
