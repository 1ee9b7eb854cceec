import Rss.Library.Sql

/-! # One bounded run of a projection

`runner.rs` over the ports it awaits. An environment answers every awaited operation; the number of
operations before it stands for the time at which it answers, so an environment is any source, any
execution and any interruption, however they depend on what went before. -/

namespace Rss.Projection.Runner

open Rss.Sql

inductive ErrorKind where
  | invalidInput | scopeMismatch | outOfOrder | sourceContract | conflict | fenced | unavailable
  | rejected | cancelled | deadline | commitUnknown | rollbackFailed | storageContract
  deriving DecidableEq, Repr

/-- An interrupted operation may have taken effect. -/
def ErrorKind.uncertain : ErrorKind → ErrorKind
  | .cancelled | .deadline => .commitUnknown
  | kind => kind

/-! ### Values of the ports -/

structure SourceScope where
  tenant : Uuid
  source : String
  deriving DecidableEq, Repr

structure Event where
  source : SourceScope
  position : ℕ
  id : String
  payload : List UInt8
  deriving DecidableEq, Repr

inductive ReplayBound where
  | live
  | through (stop : Option ℕ)
  deriving DecidableEq, Repr

structure Checkpoint where
  position : Option ℕ
  bound : ReplayBound
  deriving DecidableEq, Repr

inductive ApplyOutcome where
  | applied | duplicate | filtered
  deriving DecidableEq, Repr

structure BatchLimit where
  val : ℕ
  pos : 0 < val
  le : val ≤ 1000

instance : DecidableEq BatchLimit := fun a b =>
  decidable_of_iff (a.val = b.val) (by cases a; cases b; simp)

def BatchLimit.new (value : ℕ) : Except ErrorKind BatchLimit :=
  if h : value = 0 ∨ 1000 < value then .error .invalidInput
  else .ok ⟨value, by omega, by omega⟩

structure RunLimit where
  batch : BatchLimit
  events : ℕ
  pos : 0 < events
  lt : events < 2 ^ 64

inductive Stop where
  | caughtUp
  | eventLimit
  | failed (kind : ErrorKind)
  deriving DecidableEq, Repr

structure Report where
  position : Option ℕ
  applied : ℕ
  duplicates : ℕ
  filtered : ℕ
  stop : Stop
  deriving DecidableEq, Repr

/-! ### Checks -/

def validateNext (checkpoint : Checkpoint) (event : Event) : Except ErrorKind Unit :=
  if checkpoint.position.any (fun p => event.position ≤ p) then .error .outOfOrder
  else match checkpoint.bound with
    | .through none => .error .outOfOrder
    | .through (some stop) => if stop < event.position then .error .outOfOrder else .ok ()
    | .live => .ok ()

/-- The events from one on, after the position of the one before. -/
def validateEvents (scope : SourceScope) : Option ℕ → List Event → Except ErrorKind Unit
  | _, [] => .ok ()
  | previous, event :: rest =>
      if event.source ≠ scope then .error .scopeMismatch
      else if previous.any (fun p => event.position ≤ p) then .error .outOfOrder
      else validateEvents scope (some event.position) rest

def validateBatch (events : List Event) (scope : SourceScope) (after : Option ℕ)
    (limit : BatchLimit) : Except ErrorKind Unit :=
  if limit.val < events.length then .error .sourceContract else validateEvents scope after events

def replayDone (checkpoint : Checkpoint) : Bool :=
  match checkpoint.bound with
  | .live => false
  | .through none => true
  | .through (some stop) => checkpoint.position.any (fun p => stop ≤ p)

def emptyStop (checkpoint : Checkpoint) : Except ErrorKind Stop :=
  match checkpoint.bound with
  | .through (some _) => if replayDone checkpoint then .ok .caughtUp else .error .sourceContract
  | _ => .ok .caughtUp

/-- The event lies past the end of the replay. -/
def beyond (bound : ReplayBound) (event : Event) : Bool :=
  match bound with
  | .through (some stop) => stop < event.position
  | _ => false

/-! ### The environment and what is asked of it -/

/-- What the execution's scope, its checkpoint and each awaited operation answer. An operation
under control answers the interruption in its place. -/
structure Environment where
  scope : SourceScope
  checkpoint : Except ErrorKind Checkpoint
  check : ℕ → Except ErrorKind Unit
  read : ℕ → Option ℕ → BatchLimit → Except ErrorKind (List Event)
  execute : ℕ → Option ℕ → Event → Except ErrorKind ApplyOutcome

/-- A batch as it was read. -/
structure Batch where
  after : Option ℕ
  limit : BatchLimit
  events : List Event

/-- A call of `execute`, with its answer. -/
structure Call where
  expected : Option ℕ
  event : Event
  answer : Except ErrorKind ApplyOutcome
  batch : Batch

def Call.acknowledged (c : Call) : Bool :=
  match c.answer with
  | .ok _ => true
  | .error _ => false

/-! ### The loop -/

/-- The variables of `drive`, with the operations so far and the calls of `execute`. -/
structure Session where
  tick : ℕ
  checkpoint : Checkpoint
  remaining : ℕ
  report : Report
  calls : List Call

def Report.count (r : Report) : ApplyOutcome → Report
  | .applied => { r with applied := r.applied + 1 }
  | .duplicate => { r with duplicates := r.duplicates + 1 }
  | .filtered => { r with filtered := r.filtered + 1 }

/-- A call that was answered; the answer is not taken yet. -/
def Session.call (s : Session) (batch : Batch) (event : Event)
    (answer : Except ErrorKind ApplyOutcome) : Session :=
  { s with
    tick := s.tick + 2
    calls := s.calls ++ [⟨s.checkpoint.position, event, answer, batch⟩] }

def Session.acknowledge (s : Session) (event : Event) (outcome : ApplyOutcome) : Session :=
  { s with
    checkpoint := { s.checkpoint with position := some event.position }
    remaining := s.remaining - 1
    report := { s.report.count outcome with position := some event.position } }

/-- The events of a batch one after another; no answer means that the batch is through. -/
def executeBatch (env : Environment) (batch : Batch) :
    Session → List Event → Session × Option (Except ErrorKind Stop)
  | s, [] => (s, none)
  | s, event :: rest =>
      if beyond s.checkpoint.bound event then (s, some (.error .sourceContract))
      else match env.check s.tick with
        | .error e => (s, some (.error e))
        | .ok () =>
            match env.execute (s.tick + 1) s.checkpoint.position event with
            | .error e => (s.call batch event (.error e), some (.error e.uncertain))
            | .ok outcome =>
                let s := (s.call batch event (.ok outcome)).acknowledge event outcome
                if replayDone s.checkpoint then (s, some (.ok .caughtUp))
                else executeBatch env batch s rest

/-- One turn of the loop. -/
def turn (env : Environment) (limit : RunLimit) (s : Session) :
    Session × Option (Except ErrorKind Stop) :=
  match env.check s.tick with
  | .error e => (s, some (.error e))
  | .ok () =>
      if s.remaining = 0 then (s, some (.ok .eventLimit))
      else if replayDone s.checkpoint then (s, some (.ok .caughtUp))
      else match BatchLimit.new (min s.remaining limit.batch.val) with
        | .error e => (s, some (.error e))
        | .ok batch =>
            match env.read (s.tick + 1) s.checkpoint.position batch with
            | .error e => (s, some (.error e))
            | .ok events =>
                match validateBatch events env.scope s.checkpoint.position batch with
                | .error e => (s, some (.error e))
                | .ok () =>
                    if events = [] then (s, some (emptyStop s.checkpoint))
                    else executeBatch env ⟨s.checkpoint.position, batch, events⟩
                      { s with tick := s.tick + 2 } events

/-- The loop, for so many turns at most. -/
def turns (env : Environment) (limit : RunLimit) :
    ℕ → Session → Session × Option (Except ErrorKind Stop)
  | 0, s => (s, none)
  | fuel + 1, s =>
      match turn env limit s with
      | (s, some stop) => (s, some stop)
      | (s, none) => turns env limit fuel s

/-- The local variables before the loop. -/
def Session.new (checkpoint : Checkpoint) (limit : RunLimit) : Session :=
  ⟨1, checkpoint, limit.events, ⟨checkpoint.position, 0, 0, 0, .caughtUp⟩, []⟩

/-- `drive`: every turn but the last acknowledges an event, so the limit bounds the turns. -/
def drive (env : Environment) (limit : RunLimit) : Session × Option (Except ErrorKind Stop) :=
  match env.checkpoint with
  | .error e => (⟨1, ⟨none, .live⟩, limit.events, ⟨none, 0, 0, 0, .caughtUp⟩, []⟩, some (.error e))
  | .ok checkpoint => turns env limit (limit.events + 1) (.new checkpoint limit)

/-- The report of a run. -/
def run (env : Environment) (limit : RunLimit) : Report :=
  match drive env limit with
  | (s, some (.ok stop)) => { s.report with stop }
  | (s, some (.error e)) => { s.report with stop := .failed e }
  | (s, none) => s.report

end Rss.Projection.Runner
