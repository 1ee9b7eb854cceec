import Mathlib.Data.List.Basic
import Rss.Library.Fallible
import Rss.Library.Sql

/-! # Device commands

Identities, coordinates and the lifecycle reducer of one command. -/

namespace Rss.DeviceCommand

open Rss.Sql

/-- `storage` stands for the failures of the database and of the outbox. -/
inductive Error where
  | invalidValue
  | invalidSnapshot
  | deadlineElapsed
  | fenced
  | conflict
  | versionOverflow
  | storage
  deriving DecidableEq, Repr

abbrev Result (α : Type) : Type := Except Error α

/-- A 32-byte digest. -/
abbrev Digest := BitVec 256

/-! ### Identities -/

structure DeviceId where
  uuid : Uuid
  ne_nil : uuid ≠ 0
  deriving DecidableEq, Repr

def commandIdOk (raw : String) : Bool :=
  raw ≠ "" && raw.utf8ByteSize ≤ 255 &&
    raw.toList.all (fun c => c.isAlphanum || ['_', '.', ':', '-'].contains c)

/-- Tenant-local command identity. -/
structure CommandId where
  value : String
  valid : commandIdOk value = true
  deriving DecidableEq, Repr

structure Scope where
  tenant : Uuid
  device : DeviceId
  deriving DecidableEq, Repr

/-- Generation and authority epoch, both positive. -/
structure Coordinate where
  generation : ℤ
  epoch : ℤ
  generation_pos : 1 ≤ generation
  epoch_pos : 1 ≤ epoch
  deriving DecidableEq, Repr

/-- Every authority change strictly increases the epoch. -/
def Coordinate.Supersedes (c old : Coordinate) : Prop :=
  c.generation ≥ old.generation ∧ c.epoch > old.epoch

instance (c old : Coordinate) : Decidable (c.Supersedes old) :=
  inferInstanceAs (Decidable (_ ∧ _))

structure CommandSpec where
  scope : Scope
  id : CommandId
  coordinate : Coordinate
  expected : Digest
  deadline : ℤ
  deriving DecidableEq, Repr

inductive DeviceEvent where
  | received
  | rejected
  | reported (digest : Digest)
  deriving DecidableEq, Repr

structure DeviceReport where
  scope : Scope
  commandId : CommandId
  coordinate : Coordinate
  event : DeviceEvent
  deriving DecidableEq, Repr

/-! ### The lifecycle -/

inductive Status where
  | queued
  | published
  | received
  | applied
  | rejected
  | timedOut
  | superseded
  | cancelled
  deriving DecidableEq, Repr

def Status.isTerminal : Status → Bool
  | .queued | .published | .received => false
  | _ => true

inductive Event where
  | published
  | received
  | reported (digest : Digest)
  | rejected
  | expire
  | cancel
  | supersede
  deriving DecidableEq, Repr

/-- The event reports another state than the expected one. -/
def Event.contradicts (event : Event) (expected : Digest) : Bool :=
  match event with
  | .reported digest => digest ≠ expected
  | _ => false

inductive Outcome where
  | advanced
  | duplicate
  | late
  | outOfOrder
  deriving DecidableEq, Repr

structure Record where
  spec : CommandSpec
  version : ℤ
  status : Status
  queuedAt : ℤ
  publishedAt : Option ℤ
  receivedAt : Option ℤ
  terminalAt : Option ℤ
  deriving DecidableEq, Repr

/-- `i64::from(time.is_some())`. -/
def reached (time : Option ℤ) : ℤ := if time.isSome then 1 else 0

/-- No time lies before the one preceding it. -/
def ordered (previous : ℤ) : List ℤ → Bool
  | [] => true
  | time :: times => previous ≤ time && ordered time times

def Record.shape (r : Record) : Bool :=
  match r.status with
  | .queued => r.publishedAt.isNone && r.receivedAt.isNone && r.terminalAt.isNone
  | .published => r.publishedAt.isSome && r.receivedAt.isNone && r.terminalAt.isNone
  | .received => r.publishedAt.isSome && r.receivedAt.isSome && r.terminalAt.isNone
  | .applied => r.receivedAt.isSome && r.terminalAt.isSome
  | .rejected => r.publishedAt.isSome && r.terminalAt.isSome
  | _ => r.terminalAt.isSome

def validate (r : Record) : Result Unit :=
  let steps := 1 + reached r.publishedAt + reached r.receivedAt + reached r.terminalAt
  if r.version ≠ steps ∨ r.queuedAt ≥ r.spec.deadline then
    .error .invalidSnapshot
  else if ordered r.queuedAt [r.publishedAt, r.receivedAt, r.terminalAt].reduceOption = false then
    .error .invalidSnapshot
  else if r.receivedAt.isSome ∧ r.publishedAt.isNone then
    .error .invalidSnapshot
  else if r.shape = false ∨ (∃ t ∈ r.publishedAt, t ≥ r.spec.deadline) ∨
      ∃ t ∈ r.receivedAt, t ≥ r.spec.deadline then
    .error .invalidSnapshot
  else if ∃ t ∈ r.terminalAt, r.status = .timedOut ∧ t < r.spec.deadline ∨
      r.status = .applied ∧ t ≥ r.spec.deadline then
    .error .invalidSnapshot
  else
    .ok ()

/-- A validated record. -/
structure Command where
  record : Record
  valid : validate record = .ok ()
  deriving DecidableEq, Repr

def decision (status : Status) (event : Event) (expired : Bool) : Except Outcome Status :=
  if status.isTerminal then
    .error (match status, event with
      | .applied, .reported _ | .rejected, .rejected | .timedOut, .expire
      | .cancelled, .cancel | .superseded, .supersede => .duplicate
      | _, _ => .late)
  else match event with
    | .cancel => .ok .cancelled
    | .supersede => .ok .superseded
    | .rejected =>
        if status = .published ∨ status = .received then .ok .rejected else .error .outOfOrder
    | event =>
        if expired then
          .ok .timedOut
        else match status, event with
          | _, .expire => .error .duplicate
          | .queued, .published => .ok .published
          | .published, .received => .ok .received
          | .received, .reported _ => .ok .applied
          | .published, .published | .received, .published | .received, .received =>
              .error .duplicate
          | _, _ => .error .outOfOrder

namespace Command

def restore (record : Record) : Result Command :=
  match h : validate record with
  | .ok () => .ok ⟨record, h⟩
  | .error e => .error e

def queue (spec : CommandSpec) (now : ℤ) : Result Command :=
  if now ≥ spec.deadline then
    .error .deadlineElapsed
  else
    restore {
      spec
      version := 1
      status := .queued
      queuedAt := now
      publishedAt := none
      receivedAt := none
      terminalAt := none }

def spec (c : Command) : CommandSpec := c.record.spec

def status (c : Command) : Status := c.record.status

def version (c : Command) : ℤ := c.record.version

/-- The record after a decision, with the milestone it sets. -/
def advanced (r : Record) (status : Status) (version now : ℤ) : Record :=
  match status with
  | .published => { r with version, status, publishedAt := some now }
  | .received => { r with version, status, receivedAt := some now }
  | _ => { r with version, status, terminalAt := some now }

def transition (c : Command) (event : Event) (current : Coordinate) (now : ℤ) :
    Result (Outcome × Command) :=
  let authorized :=
    if event = .supersede then current.Supersedes c.spec.coordinate
    else current = c.spec.coordinate
  if ¬ authorized then
    .error .fenced
  else if event.contradicts c.spec.expected then
    .error .conflict
  else
    match decision c.status event (now ≥ c.spec.deadline) with
    | .error outcome => .ok (outcome, c)
    | .ok status => do
        let version ← okOr (succ c.version) .versionOverflow
        let next ← restore (advanced c.record status version now)
        .ok (.advanced, next)

/-- `transition` as the call on `&mut self` it is. -/
def transitionMut (event : Event) (current : Coordinate) (now : ℤ) :
    ExceptT Error (StateM Command) Outcome := do
  let c ← get
  let authorized :=
    if event = .supersede then current.Supersedes c.spec.coordinate
    else current = c.spec.coordinate
  if ¬ authorized then
    throw .fenced
  else if event.contradicts c.spec.expected then
    throw .conflict
  else
    match decision c.status event (now ≥ c.spec.deadline) with
    | .error outcome => return outcome
    | .ok status => do
        let version ← liftExcept (okOr (succ c.version) Error.versionOverflow)
        let next ← liftExcept (restore (advanced c.record status version now))
        set next
        return .advanced

def report (c : Command) (input : DeviceReport) (current : Coordinate) (now : ℤ) :
    Result (Outcome × Command) :=
  if input.scope ≠ c.spec.scope ∨ input.commandId ≠ c.spec.id ∨
      input.coordinate ≠ c.spec.coordinate then
    .error .fenced
  else
    let event := match input.event with
      | .received => .received
      | .rejected => .rejected
      | .reported digest => .reported digest
    c.transition event current now

end Command

end Rss.DeviceCommand
