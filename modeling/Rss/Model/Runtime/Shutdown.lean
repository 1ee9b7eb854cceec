import Mathlib.Data.Nat.Notation

/-! # The shutdown drain

`drain_resources` and `shutdown_one` as a state machine. The driver takes a resource, polls its
select and joins an aborted task; between its steps the spawned shutdown task runs and the timers
fire in any order. The log lists what happened, with resources by their place of registration. -/

namespace Rss.Shutdown

/-! ### Resources and failures -/

inductive ShutdownErrorKind where
  | operation | taskPanicked | taskCancelled | taskUnknown | deadlineExceeded
  deriving DecidableEq, Repr

inductive ShutdownFailureKind where
  | failed (source : ShutdownErrorKind)
  | timedOut (budget : ℕ)
  | panicked | cancelled | taskUnknown | deadlineExceeded | budgetExhausted
  deriving DecidableEq, Repr

structure ResourceShutdownError where
  name : String
  kind : ShutdownFailureKind
  deriving DecidableEq, Repr

/-- A registered resource by its metadata, absent where reading it panics. The wrapper of deferred
cancellation keeps what it read at registration. -/
inductive Resource where
  | plain (name : Option String) (shutdownTimeout : Option ℕ)
  | deferred (name : String) (shutdownTimeout : ℕ)
  deriving DecidableEq, Repr

namespace Resource

def name : Resource → Option String
  | plain name _ => name
  | deferred name _ => some name

def shutdownTimeout : Resource → Option ℕ
  | plain _ shutdownTimeout => shutdownTimeout
  | deferred _ shutdownTimeout => some shutdownTimeout

def isDeferred : Resource → Bool
  | plain _ _ => false
  | deferred _ _ => true

end Resource

def panickedResourceName : String := "<resource-metadata-panicked>"

/-- Thirty seconds, in nanoseconds. -/
def defaultShutdownTimeout : ℕ := 30000000000

def safeResourceName (r : Resource) : String := r.name.getD panickedResourceName

def safeResourceMetadata (r : Resource) : String × ℕ × Option ResourceShutdownError :=
  let name := safeResourceName r
  match r.shutdownTimeout with
  | some budget => (name, budget, if r.name.isNone then some ⟨name, .panicked⟩ else none)
  | none => (name, defaultShutdownTimeout, some ⟨name, .panicked⟩)

def budgetExhausted (name : String) : ResourceShutdownError := ⟨name, .budgetExhausted⟩

def observeReturnedShutdownError : ShutdownErrorKind → ShutdownFailureKind
  | .operation => .failed .operation
  | .taskPanicked => .panicked
  | .taskCancelled => .cancelled
  | .taskUnknown => .taskUnknown
  | .deadlineExceeded => .deadlineExceeded

/-- How a spawned shutdown task ends: its result, or the two kinds of a join error. -/
inductive Outcome where
  | returned (result : Except ShutdownErrorKind Unit)
  | panicked | cancelled

/-! ### The driver -/

inductive Task where
  | spawned | polled
  | ended (outcome : Outcome)

/-- The resource in flight, with what was read of it. -/
structure Current where
  index : ℕ
  resource : Resource
  name : String
  budget : ℕ
  metadataFailure : Option ResourceShutdownError
  task : Task
  timerFired : Bool

inductive Phase where
  | between
  | selecting (c : Current)
  -- The task is aborted and awaited; the flag tells the total deadline from the resource's own.
  | joining (c : Current) (exhausted : Bool)
  | returned

inductive DrainCompletion where
  | complete | budgetExhausted
  deriving DecidableEq, Repr

inductive Event where
  -- The root token is cancelled.
  | broadcast
  | started (i : ℕ)
  | cancelled (i : ℕ)
  | ended (i : ℕ) (outcome : Outcome)
  | aborted (i : ℕ)
  | timer (i : ℕ)
  | deadline
  -- The driver knows how the resource came out.
  | terminal (i : ℕ)

structure State where
  registered : ℕ
  remaining : List (Resource × ℕ)
  phase : Phase
  deadlineFired : Bool
  failures : List ResourceShutdownError
  completion : DrainCompletion
  log : List Event

/-- The drain as `shutdown` and the drop of the stack both submit it. -/
def spawnOwnedDrain (resources : List Resource) : State where
  registered := resources.length
  remaining := resources.zipIdx.reverse
  phase := .between
  deadlineFired := false
  failures := []
  completion := .complete
  log := [.broadcast]

structure ShutdownReceipt where
  registeredResources : ℕ
  completion : DrainCompletion
  failures : List ResourceShutdownError

def ShutdownReceipt.isClean (r : ShutdownReceipt) : Bool :=
  r.completion = .complete && r.failures.isEmpty

namespace State

def receipt (s : State) : Option ShutdownReceipt :=
  match s.phase with
  | .returned => some ⟨s.registered, s.completion, s.failures⟩
  | _ => none

def emit (s : State) (events : List Event) : State := { s with log := s.log ++ events }

/-- Cancelling the token of a deferred resource; others have none. -/
def cancel (r : Resource) (i : ℕ) : List Event := if r.isDeferred then [.cancelled i] else []

/-- The resource is taken from the stack, its metadata is read and its shutdown is spawned. -/
def take (s : State) : Option State :=
  match s.phase, s.remaining with
  | .between, [] => some { s with phase := .returned }
  | .between, (r, i) :: rest =>
      let (name, budget, metadataFailure) := safeResourceMetadata r
      some (({ s with
        remaining := rest
        phase := .selecting ⟨i, r, name, budget, metadataFailure, .spawned, false⟩ } : State).emit
          [.started i])
  | _, _ => none

/-- The failure of a resource whose task has ended. -/
def failure (c : Current) : Outcome → Option ResourceShutdownError
  | .returned (.ok ()) => c.metadataFailure
  | .returned (.error source) => some ⟨c.name, observeReturnedShutdownError source⟩
  | .panicked | .cancelled => some ⟨c.name, .panicked⟩

/-- The select, in the order of its branches; a poll that finds nothing ready is no step. -/
def poll (s : State) : Option State :=
  match s.phase with
  | .selecting c =>
      if s.deadlineFired then
        some (({ s with phase := .joining c true } : State).emit [.terminal c.index])
      else
        match c.task with
        | .ended outcome =>
            some (({ s with
              phase := .between
              failures := s.failures ++ (failure c outcome).toList } : State).emit
                [.terminal c.index])
        | _ =>
            if c.timerFired then
              some (({ s with phase := .joining c false } : State).emit [.terminal c.index])
            else none
  | _ => none

/-- The current and the remaining resources are reported, and the remaining ones are dropped. -/
def drainBudgetExhausted (s : State) (name : String) : State :=
  ({ s with
    phase := .returned
    remaining := []
    completion := .budgetExhausted
    failures := s.failures ++ budgetExhausted name ::
      s.remaining.map fun entry => budgetExhausted (safeResourceName entry.1) } : State).emit
        (s.remaining.flatMap fun entry => .terminal entry.2 :: cancel entry.1 entry.2)

/-- The aborted task is gone. -/
def join (s : State) : Option State :=
  match s.phase with
  | .joining c exhausted =>
      match c.task with
      | .ended _ =>
          if exhausted then some (s.drainBudgetExhausted c.name)
          else some { s with
            phase := .between
            failures := s.failures ++ [⟨c.name, .timedOut c.budget⟩] }
      | _ => none
  | _ => none

/-- The resource in flight, aborted or not. -/
def current (s : State) : Option Current :=
  match s.phase with
  | .selecting c | .joining c _ => some c
  | _ => none

def setCurrent (s : State) (c : Current) : State :=
  match s.phase with
  | .selecting _ => { s with phase := .selecting c }
  | .joining _ exhausted => { s with phase := .joining c exhausted }
  | _ => s

/-- The runtime polls the spawned task, which begins the shutdown. -/
def pollTask (s : State) : Option State :=
  match s.current with
  | some c =>
      match c.task with
      | .spawned => some ((s.setCurrent { c with task := .polled }).emit (cancel c.resource c.index))
      | _ => none
  | none => none

def endTask (s : State) (outcome : Outcome) : Option State :=
  match s.current with
  | some c =>
      match c.task with
      | .polled =>
          some ((s.setCurrent { c with task := .ended outcome }).emit [.ended c.index outcome])
      | _ => none
  | none => none

/-- An aborted task that has not ended is dropped, and with it the resource. -/
def abortTask (s : State) : Option State :=
  match s.phase with
  | .joining c _ =>
      match c.task with
      | .ended _ => none
      | _ =>
          some ((s.setCurrent { c with task := .ended .cancelled }).emit
            (cancel c.resource c.index ++ [.aborted c.index]))
  | _ => none

def fireTimer (s : State) : Option State :=
  match s.phase with
  | .selecting c =>
      if c.timerFired then none
      else some ((s.setCurrent { c with timerFired := true }).emit [.timer c.index])
  | _ => none

def fireDeadline (s : State) : Option State :=
  if s.deadlineFired then none
  else some (({ s with deadlineFired := true } : State).emit [.deadline])

end State

inductive Action where
  | take | poll | join
  | pollTask
  | endTask (outcome : Outcome)
  | abortTask | fireTimer | fireDeadline

def State.step (s : State) : Action → Option State
  | .take => s.take
  | .poll => s.poll
  | .join => s.join
  | .pollTask => s.pollTask
  | .endTask outcome => s.endTask outcome
  | .abortTask => s.abortTask
  | .fireTimer => s.fireTimer
  | .fireDeadline => s.fireDeadline

def Step (s : State) (a : Action) (s' : State) : Prop := s.step a = some s'

end Rss.Shutdown
