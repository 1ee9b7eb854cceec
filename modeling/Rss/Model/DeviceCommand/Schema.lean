import Rss.Library.Checks
import Rss.Library.Table
import Rss.Model.DeviceCommand.Command

/-! # The schema of device commands

The tables and functions of `0001_create_device_command.sql` with the columns as they are stored,
and the decoding and the calls of `persistence.rs` and `store.rs` on them. -/

namespace Rss.DeviceCommand

open Rss.Sql

/-! ### Stored texts -/

def Status.all : List Status :=
  [.queued, .published, .received, .applied, .rejected, .timedOut, .superseded, .cancelled]

def Status.asStr : Status → String
  | .queued => "queued"
  | .published => "published"
  | .received => "received"
  | .applied => "applied"
  | .rejected => "rejected"
  | .timedOut => "timed_out"
  | .superseded => "superseded"
  | .cancelled => "cancelled"

def Status.restore (raw : String) : Result Status :=
  okOr (Status.all.find? fun s => s.asStr = raw) .invalidSnapshot

def DeviceId.new (uuid : Uuid) : Result DeviceId :=
  if h : uuid = 0 then .error .invalidValue else .ok ⟨uuid, h⟩

def CommandId.parse (raw : String) : Result CommandId :=
  if h : commandIdOk raw = true then .ok ⟨raw, h⟩ else .error .invalidValue

def Coordinate.new (generation epoch : ℤ) : Result Coordinate :=
  if h : generation < 1 ∨ epoch < 1 then .error .invalidValue
  else .ok ⟨generation, epoch, by omega, by omega⟩

namespace Schema

/-- Identities of messages have the syntax of those of commands. -/
structure MessageId where
  value : String
  valid : commandIdOk value = true

instance : DecidableEq MessageId := fun a b =>
  decidable_of_iff (a.value = b.value) (by cases a; cases b; simp)

structure MessagingDomain where
  value : String
  valid : commandIdOk value = true

instance : DecidableEq MessagingDomain := fun a b =>
  decidable_of_iff (a.value = b.value) (by cases a; cases b; simp)

/-- `TenantId::parse` of a stored tenant. -/
def parseTenant (uuid : Uuid) : Result Uuid :=
  if uuid = 0 then .error .invalidSnapshot else .ok uuid

def MessageId.parse (raw : String) : Result MessageId :=
  if h : commandIdOk raw = true then .ok ⟨raw, h⟩ else .error .invalidSnapshot

def MessagingDomain.parse (raw : String) : Result MessagingDomain :=
  if h : commandIdOk raw = true then .ok ⟨raw, h⟩ else .error .invalidSnapshot

/-! ### Tables -/

/-- The columns of `commands` besides its key. -/
structure CommandRow where
  deviceId : Uuid
  generation : ℤ
  authorityEpoch : ℤ
  expectedDigest : Bytea
  deadline : ℤ
  queuedAt : ℤ
  outboxDomain : String
  outboxMessageId : String
  outboxFingerprint : Bytea
  status : String
  version : ℤ
  publishedAt : Option ℤ
  receivedAt : Option ℤ
  terminalAt : Option ℤ

/-- `text ~ '^[A-Za-z0-9_.:-]{1,255}$'`. -/
def identity (text : String) : Bool :=
  1 ≤ text.length && text.length ≤ 255 &&
    text.toList.all (fun c => c.isAlphanum || ['_', '.', ':', '-'].contains c)

def atLeast : Option ℤ → Option ℤ → Truth := comparing fun x y => decide (y ≤ x)

/-- The `CHECK` constraints of `commands`, in their order. -/
def checks (commandId : String) (r : CommandRow) : List Truth :=
  [ some (identity commandId),
    less (some 0) (some r.generation),
    less (some 0) (some r.authorityEpoch),
    some (r.expectedDigest.octets = 32),
    some (identity r.outboxDomain),
    some (r.outboxFingerprint.octets = 32),
    isIn (some r.status) ["queued", "published", "received", "applied", "rejected", "timed_out",
      "superseded", "cancelled"],
    less (some 0) (some r.version),
    less (some r.queuedAt) (some r.deadline),
    (Truth.isNull r.publishedAt).or
      ((atLeast r.publishedAt (some r.queuedAt)).and (less r.publishedAt (some r.deadline))),
    (Truth.isNull r.receivedAt).or
      ((Truth.isNotNull r.publishedAt).and
        ((atLeast r.receivedAt r.publishedAt).and (less r.receivedAt (some r.deadline)))),
    (Truth.isNull r.terminalAt).or
      (atLeast r.terminalAt ((r.receivedAt <|> r.publishedAt) <|> some r.queuedAt)),
    equal (isIn (some r.status) ["applied", "rejected", "timed_out", "superseded", "cancelled"])
      (Truth.isNotNull r.terminalAt),
    (unequal (some r.status) (some "queued")).or
      ((Truth.isNull r.publishedAt).and (Truth.isNull r.receivedAt)),
    (unequal (some r.status) (some "published")).or
      ((Truth.isNotNull r.publishedAt).and (Truth.isNull r.receivedAt)),
    Truth.or (some (r.status ∉ ["received", "applied"])) (Truth.isNotNull r.receivedAt),
    (unequal (some r.status) (some "rejected")).or (Truth.isNotNull r.publishedAt),
    (unequal (some r.status) (some "timed_out")).or (atLeast r.terminalAt (some r.deadline)),
    (unequal (some r.status) (some "applied")).or (less r.terminalAt (some r.deadline)) ]

/-- The rows by tenant and device, and by tenant and command. -/
structure Database where
  authorities : Table (Uuid × Uuid) (ℤ × ℤ)
  commands : Table (Uuid × String) CommandRow

/-! ### The functions of the schema -/

namespace Database

variable (db : Database)

/-- `rss_device_command.initialize`. -/
def insertAuthority (t d : Uuid) (g e : ℤ) : Sql.Outcome Database :=
  if ¬ Admitted [less (some 0) (some g), less (some 0) (some e)] then .error .checkViolation
  else .ok { db with authorities := db.authorities.insertNew (t, d) (g, e) }

def advance (t d : Uuid) (g e ng ne : ℤ) : Sql.Outcome (Database × Bool) :=
  if db.authorities.get? (t, d) = some (g, e) ∧ ng ≥ g ∧ ne > e then
    if ¬ Admitted [less (some 0) (some ng), less (some 0) (some ne)] then .error .checkViolation
    else .ok ({ db with authorities := db.authorities.modify (t, d) fun _ => (ng, ne) }, true)
  else .ok (db, false)

/-- Nothing is inserted where the authority is another one. -/
def enqueue (t d : Uuid) (c : String) (g e : ℤ) (digest : Bytea) (expires atTime : ℤ) (m : String)
    (f : Bytea) (domainName : String) : Sql.Outcome Database :=
  let row : CommandRow := {
    deviceId := d
    generation := g
    authorityEpoch := e
    expectedDigest := digest
    deadline := expires
    queuedAt := atTime
    outboxDomain := domainName
    outboxMessageId := m
    outboxFingerprint := f
    status := "queued"
    version := 1
    publishedAt := none
    receivedAt := none
    terminalAt := none }
  if db.authorities.get? (t, d) ≠ some (g, e) then .ok db
  else if ¬ Admitted (checks c row) then .error .checkViolation
  else if (db.commands.get? (t, c)).isSome ∨
      db.commands.rows.any (fun other => other.1.1 = t ∧ other.2.outboxMessageId = m) then
    .error .uniqueViolation
  else .ok { db with commands := db.commands.insertNew (t, c) row }

/-- A row is changed at its version and before it is terminal. -/
def save (t d : Uuid) (c : String) (v : ℤ) (s : String) (p r done : Option ℤ) :
    Sql.Outcome (Database × Bool) :=
  match db.commands.get? (t, c) with
  | none => .ok (db, false)
  | some row =>
      if row.deviceId = d ∧ row.version = v ∧ row.terminalAt = none then do
        let version ← ranged 64 (v + 1)
        let row := { row with
          status := s
          version
          publishedAt := p
          receivedAt := r
          terminalAt := done }
        if ¬ Admitted (checks c row) then .error .checkViolation
        else .ok ({ db with commands := db.commands.modify (t, c) fun _ => row }, true)
      else .ok (db, false)

end Database

/-! ### Decoding and saving -/

structure Stored where
  command : Command
  messageId : MessageId
  fingerprint : Digest
  domain : MessagingDomain

def decode (key : Uuid × String) (row : CommandRow) : Result Stored := do
  let tenant ← parseTenant key.1
  let device ← DeviceId.new row.deviceId
  let id ← CommandId.parse key.2
  let coordinate ← Coordinate.new row.generation row.authorityEpoch
  let expected ← okOr (row.expectedDigest.sized 32) .invalidSnapshot
  let status ← Status.restore row.status
  let command ← Command.restore {
    spec := ⟨⟨tenant, device⟩, id, coordinate, expected, row.deadline⟩
    version := row.version
    status
    queuedAt := row.queuedAt
    publishedAt := row.publishedAt
    receivedAt := row.receivedAt
    terminalAt := row.terminalAt }
  let messageId ← MessageId.parse row.outboxMessageId
  let fingerprint ← okOr (row.outboxFingerprint.sized 32) .invalidSnapshot
  let domain ← MessagingDomain.parse row.outboxDomain
  .ok ⟨command, messageId, fingerprint, domain⟩

/-- A statement failed, or the call was refused. -/
inductive Failure where
  | statement (fault : Fault)
  | refused (error : Error)

/-- `persistence::save`. -/
def save (db : Database) (command : Command) (previous : ℤ) : Except Failure Database :=
  if command.version = previous then .ok db
  else
    let r := command.record
    match db.save r.spec.scope.tenant r.spec.scope.device.uuid r.spec.id.value previous
        r.status.asStr r.publishedAt r.receivedAt r.terminalAt with
    | .error fault => .error (.statement fault)
    | .ok (db, changed) => if changed then .ok db else .error (.refused .fenced)

/-- The statement of `queue`. -/
def enqueue (db : Database) (command : Command) (messageId : MessageId) (fingerprint : Digest)
    (domain : MessagingDomain) : Except Failure Database :=
  let r := command.record
  (db.enqueue r.spec.scope.tenant r.spec.scope.device.uuid r.spec.id.value
    r.spec.coordinate.generation r.spec.coordinate.epoch ⟨32, r.spec.expected⟩ r.spec.deadline
    r.queuedAt messageId.value ⟨32, fingerprint⟩ domain.value).mapError .statement

/-! ### Histories -/

/-- The key a command is stored under. -/
def keyOf (c : Command) : Uuid × String := (c.spec.scope.tenant, c.spec.id.value)

/-- The database, and the commands that callers have read at any time before. -/
structure State where
  db : Database
  held : List Command

inductive Call where
  | initialized (scope : Scope) (coordinate : Coordinate)
  | advance (scope : Scope) (expected next : Coordinate)
  | enqueue (command : Command) (messageId : MessageId) (fingerprint : Digest)
      (domain : MessagingDomain)
  | read (key : Uuid × String)
  | save (command : Command) (previous : ℤ)

/-- A call that succeeds. Scopes are of parsed tenants, which are not nil; a command is enqueued as
it was queued, and it is saved after a transition of one that was read, maybe long before. -/
inductive Step : State → Call → State → Prop where
  | initialized {s : State} {db : Database} {scope : Scope} {coordinate : Coordinate}
      (execute : s.db.insertAuthority scope.tenant scope.device.uuid coordinate.generation
        coordinate.epoch = .ok db) :
      Step s (.initialized scope coordinate) { s with db }
  | advance {s : State} {db : Database} {scope : Scope} {expected next : Coordinate}
      (execute : s.db.advance scope.tenant scope.device.uuid expected.generation expected.epoch
        next.generation next.epoch = .ok (db, true)) :
      Step s (.advance scope expected next) { s with db }
  | enqueue {s : State} {db : Database} {spec : CommandSpec} {now : ℤ} {command : Command}
      {messageId : MessageId} {fingerprint : Digest} {domain : MessagingDomain}
      (tenant : spec.scope.tenant ≠ 0) (queue : Command.queue spec now = .ok command)
      (execute : Schema.enqueue s.db command messageId fingerprint domain = .ok db) :
      Step s (.enqueue command messageId fingerprint domain) { s with db }
  | read {s : State} {key : Uuid × String} {row : CommandRow} {stored : Stored}
      (found : s.db.commands.get? key = some row) (decoded : decode key row = .ok stored) :
      Step s (.read key) { s with held := stored.command :: s.held }
  | save {s : State} {db : Database} {command next : Command} {event : Event}
      {current : Coordinate} {now : ℤ} {outcome : DeviceCommand.Outcome}
      (held : command ∈ s.held)
      (transition : command.transition event current now = .ok (outcome, next))
      (execute : Schema.save s.db next command.version = .ok db) :
      Step s (.save next command.version) { s with db }

end Schema

end Rss.DeviceCommand
