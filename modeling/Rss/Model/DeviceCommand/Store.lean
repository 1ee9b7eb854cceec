import Mathlib.Data.List.Sort
import Rss.Library.Table
import Rss.Model.DeviceCommand.Command

/-! # The PostgreSQL command store

The operations of `store.rs` and `persistence.rs` over the tables of
`0001_create_device_command.sql`, inside one transaction that also appends to the outbox. -/

namespace Rss.DeviceCommand

open Rss.Sql

/-! ### Tables -/

/-- A row of `commands`, without the columns of its key. -/
structure Row where
  device : DeviceId
  coordinate : Coordinate
  expected : Digest
  deadline : ℤ
  queuedAt : ℤ
  status : Status
  version : ℤ
  publishedAt : Option ℤ
  receivedAt : Option ℤ
  terminalAt : Option ℤ
  messageId : String
  fingerprint : Digest
  domain : String
  deriving DecidableEq, Repr

/-- The `CHECK` constraints of `commands`. -/
structure Row.Checked (r : Row) : Prop where
  version : 0 < r.version
  deadline : r.queuedAt < r.deadline
  published : ∀ t ∈ r.publishedAt, r.queuedAt ≤ t ∧ t < r.deadline
  received : ∀ t ∈ r.receivedAt, ∃ p ∈ r.publishedAt, p ≤ t ∧ t < r.deadline
  terminal : ∀ t ∈ r.terminalAt, ((r.receivedAt <|> r.publishedAt).getD r.queuedAt) ≤ t
  closed : r.status.isTerminal = r.terminalAt.isSome
  queuedShape : r.status = .queued → r.publishedAt = none ∧ r.receivedAt = none
  publishedShape : r.status = .published → r.publishedAt.isSome ∧ r.receivedAt = none
  receivedShape : r.status = .received ∨ r.status = .applied → r.receivedAt.isSome
  rejectedShape : r.status = .rejected → r.publishedAt.isSome
  timedOut : r.status = .timedOut → ∀ t ∈ r.terminalAt, r.deadline ≤ t
  applied : r.status = .applied → ∀ t ∈ r.terminalAt, t < r.deadline

instance (r : Row) : Decidable r.Checked :=
  decidable_of_iff
    (0 < r.version ∧ r.queuedAt < r.deadline ∧
      (∀ t ∈ r.publishedAt, r.queuedAt ≤ t ∧ t < r.deadline) ∧
      (∀ t ∈ r.receivedAt, ∃ p ∈ r.publishedAt, p ≤ t ∧ t < r.deadline) ∧
      (∀ t ∈ r.terminalAt, ((r.receivedAt <|> r.publishedAt).getD r.queuedAt) ≤ t) ∧
      r.status.isTerminal = r.terminalAt.isSome ∧
      (r.status = .queued → r.publishedAt = none ∧ r.receivedAt = none) ∧
      (r.status = .published → r.publishedAt.isSome ∧ r.receivedAt = none) ∧
      (r.status = .received ∨ r.status = .applied → r.receivedAt.isSome) ∧
      (r.status = .rejected → r.publishedAt.isSome) ∧
      (r.status = .timedOut → ∀ t ∈ r.terminalAt, r.deadline ≤ t) ∧
      (r.status = .applied → ∀ t ∈ r.terminalAt, t < r.deadline))
    ⟨fun ⟨a, b, c, d, e, f, g, h, i, j, k, l⟩ => ⟨a, b, c, d, e, f, g, h, i, j, k, l⟩,
      fun ⟨a, b, c, d, e, f, g, h, i, j, k, l⟩ => ⟨a, b, c, d, e, f, g, h, i, j, k, l⟩⟩

inductive OutboxStatus where
  | pending
  | publishing
  | published
  | deadLetter
  | resolved
  deriving DecidableEq, Repr

structure OutboxRow where
  domain : String
  fingerprint : Digest
  status : OutboxStatus
  deriving DecidableEq, Repr

structure Db where
  authorities : Table (Uuid × DeviceId) Coordinate
  commands : Table (Uuid × CommandId) Row
  outbox : Table (Uuid × String) OutboxRow
  deriving DecidableEq

/-- A message ready to be sent; `content` is what the fingerprint covers besides the rest. -/
structure Message where
  tenant : Uuid
  id : String
  domain : String
  content : List UInt8
  deriving DecidableEq, Repr

/-- A statement that changed a command or sent its message. -/
inductive Write where
  | enqueued (key : Uuid × CommandId) (messageId : String) (fingerprint : Digest)
  | appended (key : Uuid × String) (fingerprint : Digest)
  | saved (key : Uuid × CommandId) (status : Status)
  deriving DecidableEq, Repr

/-- The tenant a transaction is scoped to, the domain of the store's outbox, and whether the
outbox admits appends: the execution is not fenced and the partition was declared. -/
structure Session where
  tenant : Uuid
  domain : String
  appends : Bool
  deriving DecidableEq, Repr

structure Tx where
  session : Session
  db : Db
  clock : Clock
  writes : List Write

/-! ### Reading and saving -/

def Row.record (key : Uuid × CommandId) (r : Row) : Record where
  spec := {
    scope := ⟨key.1, r.device⟩
    id := key.2
    coordinate := r.coordinate
    expected := r.expected
    deadline := r.deadline }
  version := r.version
  status := r.status
  queuedAt := r.queuedAt
  publishedAt := r.publishedAt
  receivedAt := r.receivedAt
  terminalAt := r.terminalAt

structure Stored where
  command : Command
  messageId : String
  fingerprint : Digest
  domain : String
  deriving DecidableEq, Repr

def decode (key : Uuid × CommandId) (r : Row) : Result Stored := do
  let command ← Command.restore (r.record key)
  .ok ⟨command, r.messageId, r.fingerprint, r.domain⟩

namespace Tx

def now (tx : Tx) : Tx × ℤ := ({ tx with clock := tx.clock.tick }, tx.clock.tick.now)

def scope (tx : Tx) (s : Scope) : Result Unit :=
  if tx.session.tenant ≠ s.tenant then .error .fenced else .ok ()

def authority (tx : Tx) (s : Scope) : Result Coordinate := do
  tx.scope s
  okOr (tx.db.authorities.get? (s.tenant, s.device)) .fenced

def read (tx : Tx) (s : Scope) (id : CommandId) : Result (Option Stored) := do
  tx.scope s
  match tx.db.commands.get? (s.tenant, id) with
  | none => .ok none
  | some row =>
      let stored ← decode (s.tenant, id) row
      if stored.command.spec.scope ≠ s then .error .fenced else .ok (some stored)

def save (tx : Tx) (command : Command) (previous : ℤ) : Result Tx :=
  if command.version = previous then
    .ok tx
  else
    let r := command.record
    let key := (r.spec.scope.tenant, r.spec.id)
    match tx.db.commands.get? key with
    | none => .error .fenced
    | some row =>
        if row.device = r.spec.scope.device ∧ row.version = previous ∧ row.terminalAt = none then do
          let version ← okOr (succ previous) .storage
          let next := { row with
            version
            status := r.status
            publishedAt := r.publishedAt
            receivedAt := r.receivedAt
            terminalAt := r.terminalAt }
          if next.Checked then
            .ok { tx with
              db := { tx.db with commands := tx.db.commands.modify key (fun _ => next) }
              writes := tx.writes ++ [.saved key r.status] }
          else
            .error .storage
        else
          .error .fenced

/-- The active rows of a device, the first `limit` of them in the order of their ids. -/
def pageRows (tx : Tx) (s : Scope) (after : Option CommandId) (limit : ℕ) :
    List ((Uuid × CommandId) × Row) :=
  ((tx.db.commands.rows.filter (fun row => row.1.1 = s.tenant ∧ row.2.device = s.device ∧
      row.2.terminalAt = none ∧ ∀ id ∈ after, id.value < row.1.2.value)).insertionSort
    (fun a b => a.1.2.value ≤ b.1.2.value)).take limit

def page (tx : Tx) (s : Scope) (after : Option CommandId) (limit : ℕ) :
    Result (List Stored) := do
  tx.scope s
  (tx.pageRows s after limit).mapM (fun row => decode row.1 row.2)

/-! ### The outbox -/

variable (fingerprint : Message → Digest)

def isPublished (tx : Tx) (domain messageId : String) (expected : Digest) : Result Bool :=
  match tx.db.outbox.get? (tx.session.tenant, messageId) with
  | none => .error .storage
  | some row =>
      if row.domain ≠ domain ∨ row.fingerprint ≠ expected then .error .storage
      else .ok (row.status = .published)

def append (tx : Tx) (message : Message) : Result Tx :=
  let key := (message.tenant, message.id)
  let appended := tx.writes ++ [.appended key (fingerprint message)]
  if tx.session.appends = false ∨ tx.session.tenant ≠ message.tenant ∨
      message.domain ≠ tx.session.domain then
    .error .storage
  else
    match tx.db.outbox.get? key with
    | some row =>
        if row.fingerprint = fingerprint message then .ok { tx with writes := appended }
        else .error .storage
    | none =>
        .ok { tx with
          db := { tx.db with
            outbox := tx.db.outbox.insertNew key
              ⟨message.domain, fingerprint message, .pending⟩ }
          writes := appended }

/-! ### Authority -/

def initializeDevice (tx : Tx) (s : Scope) (coordinate : Coordinate) : Result Tx := do
  tx.scope s
  let tx := { tx with
    db := { tx.db with
      authorities := tx.db.authorities.insertNew (s.tenant, s.device) coordinate } }
  let stored ← tx.authority s
  if stored ≠ coordinate then .error .conflict else .ok tx

/-- One page of the loop in `advance`. -/
def supersede (next : Coordinate) : List Stored → Tx → Result Tx
  | [], tx => .ok tx
  | row :: rows, tx => do
      let previous := row.command.version
      let (tx, time) := tx.now
      let (outcome, command) ← row.command.transition .supersede next time
      if outcome ≠ .advanced then
        .error .invalidSnapshot
      else
        let tx ← tx.save command previous
        supersede next rows tx

/-- The loop of `advance`; absent while it has not ended. -/
def supersedePages (s : Scope) (next : Coordinate) : ℕ → Tx → Option (Result Tx)
  | 0, _ => none
  | pages + 1, tx =>
      match tx.page s none 64 with
      | .error e => some (.error e)
      | .ok [] => some (.ok tx)
      | .ok rows =>
          match supersede next rows tx with
          | .error e => some (.error e)
          | .ok tx => supersedePages s next pages tx

/-- `rss_device_command.advance`. -/
def advanceAuthority (tx : Tx) (s : Scope) (expected next : Coordinate) : Result Tx :=
  if tx.db.authorities.get? (s.tenant, s.device) = some expected ∧ next.Supersedes expected then
    .ok { tx with
      db := { tx.db with
        authorities := tx.db.authorities.modify (s.tenant, s.device) (fun _ => next) } }
  else
    .error .fenced

def advance (pages : ℕ) (tx : Tx) (s : Scope) (expected next : Coordinate) : Option (Result Tx) :=
  if ¬ next.Supersedes expected then
    some (.error .invalidValue)
  else
    match tx.authority s with
    | .error e => some (.error e)
    | .ok current =>
        if current = next then
          some (.ok tx)
        else if current ≠ expected then
          some (.error .fenced)
        else
          match tx.advanceAuthority s expected next with
          | .error e => some (.error e)
          | .ok tx => supersedePages s next pages tx

/-! ### Commands -/

/-- `rss_device_command.enqueue`; nothing is inserted when the authority is another one. -/
def enqueue (tx : Tx) (command : Command) (message : Message) : Result Tx :=
  let r := command.record
  let key := (r.spec.scope.tenant, r.spec.id)
  let row : Row := {
    device := r.spec.scope.device
    coordinate := r.spec.coordinate
    expected := r.spec.expected
    deadline := r.spec.deadline
    queuedAt := r.queuedAt
    status := .queued
    version := 1
    publishedAt := none
    receivedAt := none
    terminalAt := none
    messageId := message.id
    fingerprint := fingerprint message
    domain := message.domain }
  if tx.db.authorities.get? (r.spec.scope.tenant, r.spec.scope.device) ≠ some r.spec.coordinate then
    .ok tx
  else if (tx.db.commands.get? key).isSome ∨
      (tx.db.commands.rows.any (fun other => other.1.1 = key.1 ∧ other.2.messageId = message.id)) ∨
      ¬ row.Checked then
    .error .storage
  else
    .ok { tx with
      db := { tx.db with commands := tx.db.commands.insertNew key row }
      writes := tx.writes ++ [.enqueued key message.id (fingerprint message)] }

def queue (tx : Tx) (spec : CommandSpec) (message : Message) : Result (Tx × Command) := do
  let current ← tx.authority spec.scope
  if message.tenant ≠ spec.scope.tenant then
    .error .fenced
  else
    match ← tx.read spec.scope spec.id with
    | some existing =>
        if existing.command.spec ≠ spec ∨ existing.messageId ≠ message.id ∨
            existing.fingerprint ≠ fingerprint message ∨ existing.domain ≠ message.domain then
          .error .conflict
        else
          let _ ← tx.isPublished existing.domain existing.messageId existing.fingerprint
          .ok (tx, existing.command)
    | none =>
        if current ≠ spec.coordinate then
          .error .fenced
        else
          let (tx, time) := tx.now
          let command ← Command.queue spec time
          let tx ← tx.enqueue fingerprint command message
          let tx ← tx.append fingerprint message
          .ok (tx, command)

def load (tx : Tx) (s : Scope) (id : CommandId) : Result (Option Command) := do
  let row ← tx.read s id
  .ok (row.map Stored.command)

def report (tx : Tx) (input : DeviceReport) : Result (Tx × Outcome × Command) := do
  let current ← tx.authority input.scope
  let found ← tx.read input.scope input.commandId
  let row ← okOr found .fenced
  let previous := row.command.version
  let (tx, time) := tx.now
  let (outcome, command) ← row.command.report input current time
  let tx ← tx.save command previous
  .ok (tx, outcome, command)

def mutate (tx : Tx) (s : Scope) (id : CommandId) (event : Event) (coordinate : Coordinate) :
    Result (Tx × Outcome × Command) := do
  let current ← tx.authority s
  if coordinate ≠ current then
    .error .fenced
  else
    let found ← tx.read s id
    let stored ← okOr found .fenced
    let previous := stored.command.version
    let (tx, time) := tx.now
    let (outcome, command) ← stored.command.transition event current time
    let tx ← tx.save command previous
    .ok (tx, outcome, command)

def cancel (tx : Tx) (s : Scope) (id : CommandId) (coordinate : Coordinate) :
    Result (Tx × Outcome × Command) :=
  tx.mutate s id .cancel coordinate

/-! ### Recovery -/

/-- The event `recover_stored` decides on, and the time it is applied at. -/
def recoveryEvent (tx : Tx) (current : Coordinate) (row : Stored) : Result (Tx × Event × ℤ) :=
  let (tx, time) := tx.now
  if current ≠ row.command.spec.coordinate then
    .ok (tx, .supersede, time)
  else if time ≥ row.command.spec.deadline then
    .ok (tx, .expire, time)
  else if row.command.status = .queued then do
    let published ← tx.isPublished row.domain row.messageId row.fingerprint
    let (tx, time) := tx.now
    .ok (tx, if published then .published else .expire, time)
  else
    .ok (tx, .expire, time)

def recoverStored (tx : Tx) (current : Coordinate) (row : Stored) : Result (Tx × Command) :=
  if row.command.status.isTerminal then
    .ok (tx, row.command)
  else do
    let previous := row.command.version
    let (tx, event, time) ← tx.recoveryEvent current row
    let (outcome, command) ← row.command.transition event current time
    if outcome = .outOfOrder ∨ outcome = .late then
      .error .invalidSnapshot
    else
      let tx ← tx.save command previous
      .ok (tx, command)

def recoverRows (current : Coordinate) : List Stored → Tx → Result (Tx × List Command)
  | [], tx => .ok (tx, [])
  | row :: rows, tx => do
      let (tx, command) ← tx.recoverStored current row
      let (tx, commands) ← recoverRows current rows tx
      .ok (tx, command :: commands)

/-- The recovered commands and the id the next page starts after. -/
def recover (tx : Tx) (s : Scope) (limit : ℕ) (after : Option CommandId) :
    Result (Tx × List Command × Option CommandId) := do
  let current ← tx.authority s
  let rows ← tx.page s after limit
  let (tx, commands) ← recoverRows current rows tx
  .ok (tx, commands, commands.getLast?.map (fun c => c.spec.id))

def recoverExact (tx : Tx) (s : Scope) (id : CommandId) : Result (Tx × Option Command) := do
  let current ← tx.authority s
  match ← tx.read s id with
  | none => .ok (tx, none)
  | some row =>
      let (tx, command) ← tx.recoverStored current row
      .ok (tx, some command)

end Tx

/-! ### Transactions -/

inductive Call where
  | initializeDevice (scope : Scope) (coordinate : Coordinate)
  | advance (scope : Scope) (expected next : Coordinate)
  | queue (spec : CommandSpec) (message : Message)
  | load (scope : Scope) (id : CommandId)
  | report (input : DeviceReport)
  | cancel (scope : Scope) (id : CommandId) (coordinate : Coordinate)
  | recover (scope : Scope) (limit : ℕ) (after : Option CommandId)
  | recoverExact (scope : Scope) (id : CommandId)
  deriving DecidableEq, Repr

inductive Reply where
  | done
  | command (command : Command)
  | found (command : Option Command)
  | transition (outcome : Outcome) (command : Command)
  | page (commands : List Command) (after : Option CommandId)
  deriving DecidableEq, Repr

section Execution

variable (fingerprint : Message → Digest)

/-- One call inside a transaction, absent while the loop of `advance` needs more pages. -/
def Call.execute (pages : ℕ) (tx : Tx) : Call → Option (Result (Tx × Reply))
  | .initializeDevice scope coordinate =>
      some (do .ok (← tx.initializeDevice scope coordinate, .done))
  | .advance scope expected next =>
      (tx.advance pages scope expected next).map (fun r => do .ok (← r, .done))
  | .queue spec message => some (do
      let (tx, command) ← tx.queue fingerprint spec message
      .ok (tx, .command command))
  | .load scope id => some (do .ok (tx, .found (← tx.load scope id)))
  | .report input => some (do
      let (tx, outcome, command) ← tx.report input
      .ok (tx, .transition outcome command))
  | .cancel scope id coordinate => some (do
      let (tx, outcome, command) ← tx.cancel scope id coordinate
      .ok (tx, .transition outcome command))
  | .recover scope limit after => some (do
      let (tx, commands, after) ← tx.recover scope limit after
      .ok (tx, .page commands after))
  | .recoverExact scope id => some (do
      let (tx, command) ← tx.recoverExact scope id
      .ok (tx, .found command))

structure State where
  db : Db
  now : ℤ
  deriving DecidableEq

def State.begin (s : State) (session : Session) (steps : ℕ → ℕ) : Tx :=
  ⟨session, s.db, ⟨s.now, steps⟩, []⟩

inductive Action where
  | committed (session : Session) (call : Call) (reply : Reply) (writes : List Write)
  | other

/-- Other components add messages to the outbox and change the status of those it holds. -/
structure OutboxGrows (Sent : Message → Prop) (o o' : Table (Uuid × String) OutboxRow) : Prop where
  kept : ∀ key row, o.get? key = some row → ∃ status, o'.get? key = some { row with status }
  sent : ∀ key row, o'.get? key = some row → o.get? key = none →
    ∃ message, Sent message ∧ row.domain = message.domain ∧ row.fingerprint = fingerprint message

/-- Transactions commit one at a time; one that fails is rolled back and only takes time.
`Sent` are the messages ever handed to the outbox. -/
inductive Step (Sent : Message → Prop) : State → Action → State → Prop where
  | commit {s : State} {session : Session} {steps : ℕ → ℕ} {pages : ℕ} {call : Call} {tx : Tx}
      {reply : Reply} (sent : ∀ spec message, call = .queue spec message → Sent message)
      (execute : call.execute fingerprint pages (s.begin session steps) = some (.ok (tx, reply))) :
      Step Sent s (.committed session call reply tx.writes) ⟨tx.db, tx.clock.now⟩
  | other {s : State} {outbox : Table (Uuid × String) OutboxRow} (elapsed : ℕ)
      (grows : OutboxGrows fingerprint Sent s.db.outbox outbox) :
      Step Sent s .other ⟨{ s.db with outbox }, s.now + elapsed⟩

end Execution

end Rss.DeviceCommand
