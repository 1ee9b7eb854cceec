import Rss.Library.Query
import Rss.Library.Table
import Rss.Model.Messaging.Inbox

/-! # The PostgreSQL outbox

The tables of the outbox and of disaster recovery, the candidate query in both of its forms,
and the functions that claim, extend and settle a delivery (`0001`, `0007`, `0011`, `0014`). -/

namespace Rss.Outbox

open Rss.Sql
open Rss.Messaging (Binding Fence Storage)
open Rss.Messaging.Inbox (Digest)

abbrev Lineage := BitVec 128

/-! ### Tables -/

/-- `lease_token` and `lease_until`, which a check ties to the status `publishing`. -/
structure Lease where
  token : Uuid
  until' : ℤ
  deriving DecidableEq, Repr

inductive Status where
  | pending
  | publishing (lease : Lease)
  | published
  | deadLetter
  | resolved
  deriving DecidableEq, Repr

/-- `status IN ('pending','publishing')`. -/
def Status.open' : Status → Bool
  | .pending | .publishing _ => true
  | _ => false

/-- `status IN ('published','resolved')`. -/
def Status.finished : Status → Bool
  | .published | .resolved => true
  | _ => false

def Status.lease? : Status → Option Lease
  | .publishing lease => some lease
  | _ => none

/-- A row of `outbox`; its partition is `partition_key` with `partition_seq`, its contract and
causation are those of the envelope. -/
structure Source where
  tenant : Uuid
  messageId : String
  domain : String
  partition : Option (String × ℤ)
  contract : String
  causation : Option String
  fingerprint : Digest
  status : Status
  retryCount : ℤ
  retryAfter : ℤ
  automaticRetryDeadline : Option ℤ
  claimEpoch : ℤ
  claimLineage : Option Lineage
  recoveryVersion : ℤ
  deriving DecidableEq, Repr

inductive PlanKind where
  | database | broker | terminate
  deriving DecidableEq, Repr

/-- A row of `dr_plans`. -/
structure Plan where
  requestDigest : Digest
  lineage : Lineage
  epoch : ℤ
  kind : PlanKind
  targetOperation : Option Uuid
  targetDigest : Option Digest
  deriving DecidableEq, Repr

inductive BlockReason where
  | deadlineExpired | permanentPublishFailure
  deriving DecidableEq, Repr

inductive MemberStatus where
  | pending
  | publishing (lease : Lease)
  | completed
  | blocked (reason : BlockReason)
  deriving DecidableEq, Repr

/-- `status IN ('pending','publishing')`. -/
def MemberStatus.open' : MemberStatus → Bool
  | .pending | .publishing _ => true
  | _ => false

def MemberStatus.lease? : MemberStatus → Option Lease
  | .publishing lease => some lease
  | _ => none

structure MemberKey where
  tenant : Uuid
  operation : Uuid
  ordinal : ℕ
  deriving DecidableEq, Repr

/-- A row of `dr_members`: one of a source, or one of a consumer group and its contract. -/
structure Member where
  messageId : String
  consumerGroup : String
  contract : Option String
  fingerprint : Digest
  outboxSeq : Option ℤ
  status : MemberStatus
  retryAfter : ℤ
  retryCount : ℤ
  deriving DecidableEq, Repr

/-- A row of `outbox_partitions`; `prepared_by` is the transaction that declared it. -/
structure Allocator where
  lastSequence : ℤ
  preparedBy : ℕ
  deriving DecidableEq, Repr

inductive RecoveryOutcome where
  | replayed | redriven | resolved
  deriving DecidableEq, Repr

/-- A row of `recovery_operations`. -/
structure Operation where
  requestDigest : Digest
  target : String
  outcome : RecoveryOutcome
  resultVersion : ℤ
  deriving DecidableEq, Repr

/-- The tables; an outbox row is keyed by its `seq`, an inbox row by tenant, message and group,
the others by their primary keys. -/
structure Db where
  storage : Option Storage
  epochs : Table Uuid ℤ
  partitions : Table (Uuid × String × String) Allocator
  sources : Table ℤ Source
  inbox : Table (Uuid × String × String) Rss.Messaging.Inbox.Row
  plans : Table (Uuid × Uuid) Plan
  members : Table MemberKey Member
  operations : Table (Uuid × Uuid) Operation

/-- What a transaction is bound to: `rss.tenant_id`, `rss.storage_lineage` and
`rss.execution_epoch`. -/
structure Session where
  tenant : Uuid
  binding : Binding
  deriving DecidableEq, Repr

namespace Session

def epoch (s : Session) : ℤ := s.binding.epoch

def lineage (s : Session) : Lineage := s.binding.storage.lineage

end Session

/-- The generation a query compares with; an unset setting is `NULL`. -/
structure Generation where
  epoch : Option ℤ
  lineage : Option Lineage
  deriving DecidableEq, Repr

def Session.generation (s : Session) : Generation := ⟨some s.epoch, some s.lineage⟩

/-! ### Candidates -/

structure Candidate where
  seq : ℤ
  operation : Option Uuid
  eligibleAt : ℤ
  deriving DecidableEq, Repr

/-- `greatest(a, b)`, where `b` is absent for `NULL` and for `-infinity`. -/
def greatest (a : ℤ) (b : Option ℤ) : ℤ :=
  match b with
  | none => a
  | some b => max a b

/-- The same partition, and an earlier place in it. -/
def Source.precedes (a b : Source) : Bool :=
  a.tenant = b.tenant && a.domain = b.domain &&
    match a.partition, b.partition with
    | some (k, i), some (k', j) => k = k' && decide (i < j)
    | _, _ => false

/-- The lease that keeps an ordinary claim, when it was taken in this generation. -/
def Source.leaseUntil (src : Source) (g : Generation) : Option ℤ :=
  match src.status with
  | .publishing lease =>
      if some src.claimEpoch = g.epoch ∧ src.claimLineage = g.lineage then some lease.until'
      else none
  | _ => none

def Member.leaseUntil (m : Member) : Option ℤ := m.status.lease?.map Lease.until'

namespace Db

variable (db : Db)

/-- The join with `dr_plans` of this generation. -/
def current (g : Generation) (k : MemberKey) : Bool :=
  match db.plans.get? (k.tenant, k.operation) with
  | some p => some p.epoch = g.epoch && some p.lineage = g.lineage
  | none => false

/-- The members of this generation that are not completed, for one source. -/
def unfinishedMembers (g : Generation) (seq : ℤ) : List (MemberKey × Member) :=
  db.members.rows.filter fun row =>
    row.2.outboxSeq = some seq && row.2.status ≠ .completed && db.current g row.1

/-- `outbox_candidates` of `0011`: one outer join. -/
def outboxCandidatesPlain (g : Generation) (tenant : Uuid) (domain : String) : List Candidate :=
  let joined : List (ℤ × Source × Option (MemberKey × Member)) :=
    db.sources.rows.flatMap fun row =>
      match db.unfinishedMembers g row.1 with
      | [] => [(row.1, row.2, none)]
      | ds => ds.map fun d => (row.1, row.2, some d)
  let kept := joined.filter fun row =>
    row.2.1.tenant = tenant && row.2.1.domain = domain &&
    (match row.2.2 with
      | none => row.2.1.status.open'
      | some d => d.2.status.open') &&
    (row.2.1.partition.isNone || !db.sources.rows.any fun predecessor =>
      predecessor.2.precedes row.2.1 &&
        (!predecessor.2.status.finished || !(db.unfinishedMembers g predecessor.1).isEmpty))
  kept.map fun row =>
    match row.2.2 with
    | none => ⟨row.1, none, greatest row.2.1.retryAfter (row.2.1.leaseUntil g)⟩
    | some d => ⟨row.1, some d.1.operation, greatest d.2.retryAfter d.2.leaseUntil⟩

/-- The materialised members of the optimised query. -/
def currentDr (g : Generation) (tenant : Uuid) : List (MemberKey × Member) :=
  db.members.rows.filter fun row =>
    row.1.tenant = tenant && db.current g row.1 && row.2.outboxSeq.isSome &&
      row.2.status ≠ .completed

/-- `outbox_candidates` of `0014`: a union over the materialised members. -/
def outboxCandidates (g : Generation) (tenant : Uuid) (domain : String) : List Candidate :=
  let currentDr := db.currentDr g tenant
  let ordinary : List (Source × Candidate) :=
    (db.sources.rows.filter fun row =>
      row.2.tenant = tenant && row.2.domain = domain && row.2.status.open' &&
        !currentDr.any fun d => d.2.outboxSeq = some row.1).map fun row =>
      (row.2, ⟨row.1, none, greatest row.2.retryAfter (row.2.leaseUntil g)⟩)
  let recovery : List (Source × Candidate) :=
    currentDr.flatMap fun d =>
      (db.sources.rows.filter fun row =>
        d.2.outboxSeq = some row.1 && row.2.tenant = tenant && row.2.domain = domain &&
          d.2.status.open').map fun row =>
        (row.2, ⟨row.1, some d.1.operation, greatest d.2.retryAfter d.2.leaseUntil⟩)
  ((ordinary ++ recovery).filter fun c =>
    c.1.partition.isNone ||
      (!db.sources.rows.any fun predecessor =>
        predecessor.2.precedes c.1 && !predecessor.2.status.finished) &&
      !currentDr.any fun d => db.sources.rows.any fun predecessor =>
        d.2.outboxSeq = some predecessor.1 && predecessor.2.precedes c.1).map Prod.snd

end Db

/-! ### Claims -/

/-- The clock and the values of `gen_random_uuid()` during one transaction. -/
structure Env where
  clock : Clock
  tokens : ℕ → Uuid

namespace Env

def now (env : Env) : ℤ := env.clock.now

/-- The next reading of `clock_timestamp()`. -/
def tick (env : Env) : Env := { env with clock := env.clock.tick }

def token (env : Env) : Uuid := env.tokens 0

def draw (env : Env) : Env := { env with tokens := fun i => env.tokens (i + 1) }

end Env

/-- The columns a claim reports of its lease. -/
structure Claimed where
  seq : ℤ
  lease : Lease
  operation : Option Uuid
  deriving DecidableEq, Repr

/-- The condition under which an ordinary claim takes a locked row. -/
def Source.claimable (src : Source) (g : Generation) (n : ℤ) : Bool :=
  (match src.status with
    | .pending => true
    | .publishing lease =>
        decide (lease.until' ≤ n) || some src.claimEpoch ≠ g.epoch || src.claimLineage ≠ g.lineage
    | _ => false) && decide (src.retryAfter ≤ n)

def Member.claimable (m : Member) (n : ℤ) : Bool :=
  (match m.status with
    | .pending => true
    | .publishing lease => decide (lease.until' ≤ n)
    | _ => false) && decide (m.retryAfter ≤ n)

/-- A changed token rebinds the row to the session, as the trigger `execution_fence` does. -/
def Source.rebind (old next : Source) (s : Session) : Source :=
  if next.status.lease?.map Lease.token = old.status.lease?.map Lease.token then next
  else { next with claimEpoch := s.epoch, claimLineage := some s.lineage }

/-- `interval '24 hours'`. -/
def automaticWindow : ℤ := 24 * 60 * 60 * 1000000

def Source.claim (src : Source) (s : Session) (lease : Lease) (n : ℤ) : Source :=
  src.rebind { src with
    status := .publishing lease
    automaticRetryDeadline := some (src.automaticRetryDeadline.getD (n + automaticWindow)) } s

/-- The window of a recovery member has passed, or never began. -/
def Source.expired (src : Source) (n : ℤ) : Bool :=
  match src.automaticRetryDeadline with
  | none => true
  | some deadline => decide (deadline ≤ n)

/-- A claim in progress: the database, the clock, and what was claimed so far. -/
structure Claiming where
  db : Db
  env : Env
  claimed : List Claimed

namespace Db

variable (db : Db)

/-- `UPDATE dr_members … WHERE tenant_id = … AND operation_id = … AND outbox_seq = …`. -/
def updateMembers (tenant operation : Uuid) (seq : ℤ) (f : Member → Member) : Db :=
  { db with
    members := db.members.update fun k m =>
      if k.tenant = tenant ∧ k.operation = operation ∧ m.outboxSeq = some seq then f m else m }

def findMember (tenant operation : Uuid) (seq : ℤ) : Option (MemberKey × Member) :=
  db.members.rows.find? fun row =>
    row.1.tenant = tenant && row.1.operation = operation && row.2.outboxSeq = some seq

end Db

/-- One turn of the inner loop, over a row it has locked. -/
def claimRow (s : Session) (ttl : ℤ) (st : Claiming) (r : Candidate) : Claiming :=
  let env := st.env.tick
  let lease : Lease := ⟨env.token, env.now + milliseconds ttl⟩
  match st.db.sources.get? r.seq with
  | none => st
  | some o =>
      match r.operation with
      | none =>
          if o.claimable s.generation env.now then
            ⟨{ st.db with sources := st.db.sources.modify r.seq fun o => o.claim s lease env.now },
              env.draw, st.claimed ++ [⟨r.seq, lease, none⟩]⟩
          else { st with env }
      | some op =>
          match st.db.findMember s.tenant op r.seq with
          | none => { st with env }
          | some m =>
              if m.2.claimable env.now then
                if o.expired env.now then
                  ⟨st.db.updateMembers s.tenant op r.seq fun m =>
                    { m with status := .blocked .deadlineExpired }, env, st.claimed⟩
                else
                  ⟨st.db.updateMembers s.tenant op r.seq fun m =>
                    { m with status := .publishing lease }, env.draw,
                    st.claimed ++ [⟨r.seq, lease, some op⟩]⟩
              else { st with env }

/-- `WHERE c.eligible_at <= clock_timestamp()`, which reads the clock for every row. -/
def dueRows : List Candidate → Env → List Candidate × Env
  | [], env => ([], env)
  | c :: cs, env =>
      let (rest, env') := dueRows cs env.tick
      (if c.eligibleAt ≤ env.tick.now then c :: rest else rest, env')

/-- One page: the first due rows in the order of `seq`, as many as the caller may still get. -/
def claimPage (s : Session) (domain : String) (limit : ℕ) (ttl : ℤ) (st : Claiming) :
    Bool × Claiming :=
  let (due, env) := dueRows (st.db.outboxCandidates s.generation s.tenant domain) st.env
  let rows := (due.mergeSort fun a b => a.seq ≤ b.seq).take (limit - st.claimed.length)
  (!rows.isEmpty, rows.foldl (claimRow s ttl) { st with env })

/-- The outer loop, for at most the given number of turns. -/
def claimLoop (s : Session) (domain : String) (limit : ℕ) (ttl : ℤ) : ℕ → Claiming → Option Claiming
  | 0, _ => none
  | fuel + 1, st =>
      let (fetched, st) := claimPage s domain limit ttl st
      if limit ≤ st.claimed.length ∨ fetched = false then some st
      else claimLoop s domain limit ttl fuel st

/-- The rows that `check_execution` reads for one tenant. -/
def Db.fence (db : Db) (tenant : Uuid) : Fence := ⟨db.storage, db.epochs.get? tenant⟩

def checkExecution (db : Db) (s : Session) : Outcome Unit :=
  if (db.fence s.tenant).checkExecution s.binding then .ok ()
  else if db.storage = some s.binding.storage then raise "PZ001" "tenant epoch fenced"
  else raise "PZ001" "storage lineage fenced"

/-- `claim_outbox` of `0014`; absent when the loop took more turns than allowed. -/
def claimOutbox (db : Db) (s : Session) (tenant : Uuid) (domain : String) (limit ttl : ℤ)
    (env : Env) (fuel : ℕ) : Outcome (Option Claiming) := do
  checkExecution db s
  if tenant ≠ s.tenant ∨ limit < 1 ∨ ttl < 1 ∨ 86400000 < ttl then raise "22023" "invalid claim"
  else return claimLoop s domain limit.toNat ttl fuel ⟨db, env, []⟩

/-! ### Wake-up -/

structure Wakeup where
  dueNow : Bool
  nextUs : Option ℤ
  deriving DecidableEq, Repr

/-- The aggregates of `next_outbox_wakeup` at one reading of the clock. -/
def wakeupAt (candidates : List Candidate) (observed : ℤ) : Wakeup :=
  ⟨candidates.any fun c => decide (c.eligibleAt ≤ observed),
    ((candidates.map Candidate.eligibleAt).filter (observed < ·)).min?.map (· - observed)⟩

def nextOutboxWakeup (db : Db) (s : Session) (tenant : Uuid) (domain : String) (env : Env) :
    Outcome Wakeup := do
  checkExecution db s
  if tenant ≠ s.tenant then raise "22023" "invalid wakeup scope"
  else return wakeupAt (db.outboxCandidates s.generation tenant domain) env.tick.now

end Rss.Outbox
