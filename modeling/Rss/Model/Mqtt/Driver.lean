import Rss.Library.Fallible
import Rss.Library.Table
import Rss.Model.Mqtt.Client

/-! # The MQTT driver

One task owns the connection (`driver.rs`). It shares flags and queues with the settlement
handles, the publishers and the owner of the resource (`handles.rs`), each of which runs on its
own. This module is the state they share and what each operation does to it. -/

namespace Rss.Mqtt

open Rss.Messaging

/-! ### State -/

/-- Where a `Settlement` is: in the delivery queue, with the application, inside `settle` before
or after its command was sent, inside `settle` with the driver's response, or in `drop` before
and after the retire mark was raised and the driver was woken. -/
inductive Stage where
  | queued
  | held
  | sending (reason : PubAckReason) (deadline : ℕ)
  | waiting (deadline : ℕ)
  | answered (result : Except MqttError Unit)
  | dropping
  | marked
  | abandoned
  | decided

/-- The application has the settlement, or a call that it can drop. -/
def Stage.isHeld : Stage → Bool
  | .held | .sending _ _ | .waiting _ | .answered _ => true
  | _ => false

/-- What the end of `settle` makes of the handle. -/
def Stage.concluded : Except MqttError Unit → Stage
  | .ok () | .error .staleDelivery => .decided
  | .error _ => .dropping

/-- A `Settlement`: the receipt it was minted for, and where it is. -/
structure Handle where
  generation : ℕ
  pkid : ℕ
  stage : Stage

/-- A response reaches the call that still waits for it. -/
def Handle.answer (x : Handle) (result : Except MqttError Unit) : Handle :=
  match x.stage with
  | .waiting _ => { x with stage := .answered result }
  | _ => x

/-- Where a call of `publish_until` is: waiting for room in the command queue, in that queue,
with a notice of the client library, with an outcome to return, or over. -/
inductive CallStage where
  | reserving
  | queued
  | tracked
  | answered (outcome : PublishOutcome Unit)
  | returned (outcome : PublishOutcome Unit)
  | cancelled

/-- The command was sent, and the call has not returned. -/
def CallStage.isSent : CallStage → Bool
  | .queued | .tracked | .answered _ => true
  | _ => false

structure Call where
  cutoff : ℕ
  stage : CallStage

/-- The driver and the client library are gone: the response and the notice fail. -/
def Call.abandoned (call : Call) : Call :=
  match call.stage with
  | .queued => { call with stage := .answered (ambiguous .transportUnavailable) }
  | .tracked => { call with stage := .answered (Mqtt.notice .otherError) }
  | _ => call

/-- A response reaches the call that still waits for it. -/
def Call.answer (call : Call) (stage : CallStage) : Call :=
  match call.stage with
  | .queued => { call with stage := stage }
  | _ => call

inductive Command where
  | publish (call deadline : ℕ)
  | settle (generation pkid : ℕ) (reason : PubAckReason) (deadline response : ℕ)
  | shutdown (deadline : ℕ)
  deriving DecidableEq, Repr

/-- The handle a settle command answers to. -/
def Command.settles : Command → Option ℕ
  | .settle _ _ _ _ response => some response
  | _ => none

/-- The call a publish command answers to. -/
def Command.publishes : Command → Option ℕ
  | .publish call _ => some call
  | _ => none

inductive DeliveryState where
  | delivered
  | settling (deadline response : ℕ)
  deriving DecidableEq, Repr

/-- How far `handle_command` is with a publish command: its call still waited, the connection was
found open and ready, the deadline was found ahead. -/
inductive Admission where
  | received | opened | timely
  deriving DecidableEq

/-- Where the driver's task is: at the head of the loop in `next`, in its `select!`, in
`wait_reconnect`, in either with a publish command in hand, in `shutdown`, on its way out, or
gone. -/
inductive Phase where
  | top | parked | waiting | closing | ended | stopped
  | publishing (admission : Admission) (call deadline : ℕ) (reconnecting : Bool)
  deriving DecidableEq

structure State where
  maxDeliveries : ℕ
  /-- Whether the fixed set of subscriptions has any filter. -/
  subscribes : Bool
  /-- The room in the command channel. -/
  room : ℕ
  now : ℕ
  closing : Bool
  generation : ℕ
  retire : ℕ
  /-- The stored permit of `wake`. -/
  wake : Bool
  cancelled : Bool
  connection : ConnectionState
  deliveries : List ℕ
  commands : List Command
  outstanding : Table ℕ DeliveryState
  /-- A subscription notice is pending. -/
  subscription : Bool
  sessionPresent : Bool
  phase : Phase
  /-- Manual acknowledgements the client library holds for the current connection. -/
  acks : List (ℕ × PubAckReason)
  handles : ℕ → Option Handle
  calls : ℕ → Option Call

namespace State

/-- The state `connect` spawns the driver in. -/
def start (maxDeliveries : ℕ) (subscribes : Bool) (room : ℕ) : State where
  maxDeliveries := maxDeliveries
  subscribes := subscribes
  room := room
  now := 0
  closing := false
  generation := 1
  retire := 0
  wake := false
  cancelled := false
  connection := .connecting
  deliveries := []
  commands := []
  outstanding := .empty
  subscription := false
  sessionPresent := false
  phase := .top
  acks := []
  handles := fun _ => none
  calls := fun _ => none

/-! ### Shared operations -/

def mapHandles (s : State) (f : ℕ → Handle → Handle) : State :=
  { s with handles := fun h => (s.handles h).map (f h) }

def setStage (s : State) (h : ℕ) (stage : Stage) : State :=
  s.mapHandles (fun j x => if j = h then { x with stage := stage } else x)

/-- `response.send` of a settle command. -/
def respond (s : State) (h : ℕ) (result : Except MqttError Unit) : State :=
  s.mapHandles (fun j x => if j = h then x.answer result else x)

def setCall (s : State) (k : ℕ) (call : Call) : State :=
  { s with calls := fun j => if j = k then some call else s.calls j }

def setCallStage (s : State) (k : ℕ) (stage : CallStage) : State :=
  { s with calls := fun j =>
      if j = k then (s.calls j).map (fun call => { call with stage := stage }) else s.calls j }

/-- `response.send` of a publish command. -/
def answerCall (s : State) (k : ℕ) (stage : CallStage) : State :=
  { s with calls := fun j =>
      if j = k then (s.calls j).map (fun call => call.answer stage) else s.calls j }

/-- A command is received, which frees its room. -/
def dequeue (s : State) (rest : List Command) : State :=
  { s with commands := rest, room := s.room + 1 }

/-- `Shared::abandon`, by the driver itself. -/
def abandon (s : State) (generation : ℕ) : State :=
  { s with retire := max s.retire generation, wake := true }

/-- `Shared::clear_deliveries`: every queued delivery is dropped. -/
def clearDeliveries (s : State) : State :=
  { s.mapHandles (fun h x => if h ∈ s.deliveries then { x with stage := .dropping } else x) with
    deliveries := [] }

/-- `Shared::invalidate`. -/
def invalidate (s : State) : Except MqttError State :=
  match checkedAdd 64 s.generation 1 with
  | some generation => .ok { s with generation := generation }.clearDeliveries
  | none => .error .closed

/-! ### Driver operations -/

/-- The drain of `outstanding` in `Driver::retire`. -/
def drain (s : State) : State :=
  { s.mapHandles (fun h x =>
      if s.outstanding.rows.any (fun row => match row.2 with
        | .settling _ response => response = h
        | .delivered => false)
      then x.answer (.error .settlementUnknown) else x) with
    outstanding := .empty }

/-- `Driver::retire`. The library's acknowledgements go with the connection, or are written where
the driver no longer looks. -/
def retireGeneration (s : State) : State :=
  let s := match s.invalidate with
    | .ok s => s
    | .error _ => { s with cancelled := true }
  { s.drain with subscription := false, acks := [] }

def fail (s : State) (error : MqttError) : State :=
  { s with connection := .failed error }

def ready (s : State) : State :=
  { s with connection := .ready s.generation s.sessionPresent }

def reconnecting (s : State) (cause : MqttError) : State :=
  { s with connection := .reconnecting cause s.generation }

/-- A settlement is in flight: `settlement_wait` has a timer, which keeps a clock of its own. -/
def settlementWait (s : State) : Bool :=
  s.outstanding.rows.any (fun row => match row.2 with
    | .settling _ _ => true
    | .delivered => false)

/-- `Driver::submit_settlement`; `accepts` is whether `try_manual_ack` takes the packet. -/
def submitSettlement (s : State) (generation pkid deadline : ℕ) (accepts : Bool) :
    Except MqttError Unit :=
  if generation ≠ s.generation then .error .staleDelivery
  else if s.closing then .error .closed
  else if deadline ≤ s.now then .error .deadlineElapsed
  else if s.outstanding.get? pkid ≠ some .delivered then .error .staleDelivery
  else if accepts then .ok () else .error .unavailable

/-- The settle branch of `handle_command`. -/
def handleSettle (s : State) (generation pkid : ℕ) (reason : PubAckReason)
    (deadline response : ℕ) (accepts : Bool) : State :=
  match s.submitSettlement generation pkid deadline accepts with
  | .ok () =>
      { s with
        outstanding := s.outstanding.upsert pkid (.settling deadline response)
          (fun _ => .settling deadline response)
        acks := s.acks ++ [(pkid, reason)] }
  | .error error => s.respond response (.error error)

/-- The first refusal of the publish branch of `handle_command`. -/
def refuseClosed (s : State) : Option (PublishOutcome Unit) :=
  if s.closing || !s.connection.isReady then
    some (definite .transient .admission .transportUnavailable)
  else none

/-- The second one. -/
def refuseLate (s : State) (deadline : ℕ) : Option (PublishOutcome Unit) :=
  if deadline ≤ s.now then some (definite .transient .admission .deadlineElapsed) else none

/-- What that branch makes of the answer of `try_publish_tracked`, an error if it has one. -/
def publishResult (answer : Option ClientError) : CallStage :=
  match answer with
  | some error => .answered (Mqtt.admission error)
  | none => .tracked

/-- What `EventLoop::poll` yields, with the answers of the library that handling it needs. -/
inductive Event where
  | connAck (sessionPresent tracked : Bool)
  | publish (atLeastOnce : Bool) (pkid : ℕ)
  | pubAckReceived (reason : PubAckReason)
  | pubAckWritten (pkid : ℕ)
  | other

/-- `Driver::receive`; a new receipt is given the handle `fresh`. -/
def receive (s : State) (fresh : ℕ) (atLeastOnce : Bool) (pkid : ℕ) : Except MqttError State :=
  if !atLeastOnce then .error .unsupportedQos
  -- A retransmission on the same connection keeps its sole settlement authority.
  else if (s.outstanding.get? pkid).isSome then .ok s
  else if s.maxDeliveries ≤ s.outstanding.rows.length then .error .receiveCapacity
  else
    .ok { s with
      deliveries := s.deliveries ++ [fresh]
      handles := fun h => if h = fresh then some ⟨s.generation, pkid, .queued⟩ else s.handles h
      outstanding := s.outstanding.insertNew pkid .delivered }

/-- The `Outgoing::PubAck` branch of `Driver::event`. -/
def acknowledge (s : State) (pkid : ℕ) : State :=
  let entry := s.outstanding.get? pkid
  let s := { s with
    outstanding := s.outstanding.delete (fun p => p = pkid)
    acks := s.acks.eraseP (fun ack => ack.1 = pkid) }
  match entry with
  | some (.settling deadline response) =>
      if deadline ≤ s.now then
        (s.abandon s.generation).respond response (.error .settlementUnknown)
      else s.respond response (.ok ())
  | _ => s

/-- `Driver::event`. -/
def event (s : State) (fresh : ℕ) : Event → Except MqttError State
  | .connAck sessionPresent tracked =>
      let s := { s with sessionPresent := sessionPresent }
      if !s.subscribes then .ok s.ready
      else if tracked then .ok { s with subscription := true }
      else .error .subscriptionRejected
  | .publish atLeastOnce pkid => s.receive fresh atLeastOnce pkid
  | .pubAckReceived reason =>
      .ok (if reason = .packetIdentifierInUse then s.abandon s.generation else s)
  | .pubAckWritten pkid => .ok (s.acknowledge pkid)
  | .other => .ok s

/-- What the subscription notice shows when it is inspected: nothing yet, every filter granted,
some filters refused for now, or an error. -/
inductive Subscribed where
  | pending
  | granted
  | transient
  | rejected (store : Bool)

/-- `Driver::check_subscription`. -/
def checkSubscription (s : State) (notice : Subscribed) : Except MqttError State :=
  if !s.subscription then .ok s
  else
    match notice with
    | .pending => .ok s
    | .granted => .ok { s with subscription := false }.ready
    | .transient => .error .brokerBusy
    | .rejected store => .error (if store then .sessionStore else .subscriptionRejected)

/-- What `run` makes of a handled event once the subscription is checked. -/
def inspect (s : State) (notice : Subscribed) : State :=
  match s.checkSubscription notice with
  | .ok s => { s with phase := .top }
  | .error error =>
      if error = .brokerBusy then { s.retireGeneration.reconnecting error with phase := .waiting }
      else { s.fail error with phase := .ended }

/-- What `run` makes of a finished poll. -/
def handleEvent (s : State) (fresh : ℕ) (event : Event) (notice : Subscribed) : State :=
  match s.event fresh event with
  | .ok s => s.inspect notice
  | .error error => { s.fail error with phase := .ended }

/-- What `run` makes of a failed poll. -/
def lose (s : State) (cause : MqttError) (retryable : Bool) : State :=
  if retryable then { s.retireGeneration.reconnecting cause with phase := .waiting }
  else { s.retireGeneration.fail cause with phase := .ended }

/-- `Next::Retire`. -/
def renew (s : State) : State :=
  { s.retireGeneration.reconnecting .settlementUnknown with phase := .top }

/-- `Next::Shutdown`, up to the connection's own farewell. -/
def beginShutdown (s : State) : State :=
  { s.retireGeneration with phase := .closing }

/-- The end of `shutdown`. -/
def endShutdown (s : State) (result : Except MqttError Unit) : State :=
  match result with
  | .ok () => { s with phase := .ended }
  | .error error => { s.fail error with phase := .ended }

/-- The driver's loop goes on where it took the command from. -/
def resume (s : State) : State :=
  if s.phase = .parked then { s with phase := .top } else s

/-- The publish branch of `handle_command`, up to the check that the call still waits. -/
def takePublish (s : State) (k deadline : ℕ) : State :=
  match (s.calls k).map Call.stage with
  | some .queued => { s with phase := .publishing .received k deadline (s.phase = .waiting) }
  | _ => s.resume

/-- The response at the end of that branch. -/
def respondPublish (s : State) (k : ℕ) (reconnecting : Bool) (result : CallStage) : State :=
  { s.answerCall k result with phase := if reconnecting then .waiting else .top }

/-- A check of that branch. -/
def checkPublish (s : State) (refusal : Option (PublishOutcome Unit)) (passed : Admission)
    (k deadline : ℕ) (reconnecting : Bool) : State :=
  match refusal with
  | some outcome => s.respondPublish k reconnecting (.answered outcome)
  | none => { s with phase := .publishing passed k deadline reconnecting }

/-- The drop of the driver, of its end of the command channel and of the event loop. -/
def finish (s : State) : State :=
  let s := { s with closing := true }.retireGeneration
  let s := s.mapHandles fun _ x => x.answer (.error .settlementUnknown)
  { s with
    connection := if s.connection.isFailed then s.connection else .closed
    commands := []
    calls := fun k => (s.calls k).map Call.abandoned
    phase := .stopped }

end State

/-! ### Steps -/

/-- What a step shows of deliveries and publications: a receipt and its handle, a call of `settle`
that was admitted, an acknowledgement handed to the client library for a handle, one that was
written, the result of `settle`, a publication taken by the client library, its notice, and the
outcome of `publish`. -/
inductive Label where
  | quiet
  | received (handle generation pkid : ℕ)
  | called (handle : ℕ) (reason : PubAckReason) (deadline : ℕ)
  | acked (handle generation pkid : ℕ) (reason : PubAckReason)
  | written (generation pkid time : ℕ)
  | settled (handle : ℕ) (result : Except MqttError Unit)
  | submitted (call : ℕ)
  | noticed (call : ℕ) (notice : Notice)
  | returned (call : ℕ) (outcome : PublishOutcome Unit)

namespace State

/-- What a poll shows. -/
def observation (s : State) (fresh : ℕ) : Event → Label
  | .publish atLeastOnce pkid =>
      if atLeastOnce && (s.outstanding.get? pkid).isNone &&
          decide (s.outstanding.rows.length < s.maxDeliveries) then
        .received fresh s.generation pkid
      else .quiet
  | .pubAckWritten pkid => .written s.generation pkid s.now
  | _ => .quiet

/-- What a settle command shows. -/
def submission (s : State) (generation pkid : ℕ) (reason : PubAckReason)
    (deadline response : ℕ) (accepts : Bool) : Label :=
  match s.submitSettlement generation pkid deadline accepts with
  | .ok () => .acked response s.generation pkid reason
  | .error _ => .quiet

/-- What a publish command shows. -/
def publication (k : ℕ) (answer : Option ClientError) : Label :=
  match publishResult answer with
  | .tracked => .submitted k
  | _ => .quiet

end State

/-- The steps of the receiver and of settlements. -/
inductive SettlementStep (s : State) : Label → State → Prop where
  | next {h : ℕ} {rest : List ℕ} {x : Handle} (queue : s.deliveries = h :: rest)
      (handle : s.handles h = some x) (current : x.generation = s.generation) :
      SettlementStep s .quiet { s.setStage h .held with deliveries := rest }
  | skip {h : ℕ} {rest : List ℕ} {x : Handle} (queue : s.deliveries = h :: rest)
      (handle : s.handles h = some x) (stale : x.generation ≠ s.generation) :
      SettlementStep s .quiet { s.setStage h .dropping with deliveries := rest }
  | settle {h : ℕ} {x : Handle} (handle : s.handles h = some x) (stage : x.stage = .held)
      (current : x.generation = s.generation) (running : s.closing = false)
      (reason : PubAckReason) (deadline : ℕ) :
      SettlementStep s (.called h reason deadline) (s.setStage h (.sending reason deadline))
  | refuse {h : ℕ} {x : Handle} (handle : s.handles h = some x) (stage : x.stage = .held)
      {error : MqttError} (refused : error = .staleDelivery ∧ x.generation ≠ s.generation ∨
        error = .closed ∧ s.closing = true ∨ error = .invalidConfig) :
      SettlementStep s (.settled h (.error error)) (s.setStage h .dropping)
  | send {h : ℕ} {x : Handle} {reason : PubAckReason} {deadline : ℕ}
      (handle : s.handles h = some x) (stage : x.stage = .sending reason deadline)
      (space : 0 < s.room) (running : s.phase ≠ .stopped) :
      SettlementStep s .quiet { s.setStage h (.waiting deadline) with
        room := s.room - 1
        commands := s.commands ++ [.settle x.generation x.pkid reason deadline h] }
  | sendClosed {h : ℕ} {x : Handle} {reason : PubAckReason} {deadline : ℕ}
      (handle : s.handles h = some x) (stage : x.stage = .sending reason deadline)
      (stopped : s.phase = .stopped) :
      SettlementStep s (.settled h (.error .closed)) (s.setStage h .dropping)
  | expire {h : ℕ} {x : Handle} {deadline : ℕ} (handle : s.handles h = some x)
      (stage : (∃ reason, x.stage = .sending reason deadline) ∨ x.stage = .waiting deadline) :
      SettlementStep s (.settled h (.error .settlementUnknown)) (s.setStage h .dropping)
  | conclude {h : ℕ} {x : Handle} {result : Except MqttError Unit}
      (handle : s.handles h = some x) (stage : x.stage = .answered result) :
      SettlementStep s (.settled h result) (s.setStage h (Stage.concluded result))
  | abandon {h : ℕ} {x : Handle} (handle : s.handles h = some x) (stage : x.stage.isHeld = true) :
      SettlementStep s .quiet (s.setStage h .dropping)
  | mark {h : ℕ} {x : Handle} (handle : s.handles h = some x) (stage : x.stage = .dropping) :
      SettlementStep s .quiet { s.setStage h .marked with retire := max s.retire x.generation }
  | notify {h : ℕ} {x : Handle} (handle : s.handles h = some x) (stage : x.stage = .marked) :
      SettlementStep s .quiet { s.setStage h .abandoned with wake := true }

/-- The failures of `publish` before its command is sent, by what it reads. -/
inductive State.Refuses (s : State) (cutoff : ℕ) : PublishOutcome Unit → Prop where
  | elapsed (late : cutoff ≤ s.now) :
      s.Refuses cutoff (definite .transient .admission .deadlineElapsed)
  | closed (stopping : s.closing = true ∨ s.phase = .stopped) :
      s.Refuses cutoff (definite .transient .admission .transportUnavailable)

/-- The steps of the calls of `publish`, and of the notices they wait for. -/
inductive CallStep (s : State) : Label → State → Prop where
  | reserve {k cutoff : ℕ} (fresh : s.calls k = none) (early : s.now < cutoff)
      (running : s.closing = false) :
      CallStep s .quiet (s.setCall k ⟨cutoff, .reserving⟩)
  | refuse {k cutoff : ℕ} {outcome : PublishOutcome Unit} (fresh : s.calls k = none)
      (refused : s.Refuses cutoff outcome ∨
        outcome = definite .permanent .admission .invalidMessage ∨
        outcome = definite .permanent .encode .invalidMessage) :
      CallStep s (.returned k outcome) (s.setCall k ⟨cutoff, .returned outcome⟩)
  | send {k cutoff : ℕ} (call : s.calls k = some ⟨cutoff, .reserving⟩) (space : 0 < s.room)
      (open_ : s.phase ≠ .stopped) (running : s.closing = false) (early : s.now < cutoff) :
      CallStep s .quiet { s.setCallStage k .queued with
        room := s.room - 1
        commands := s.commands ++ [.publish k cutoff] }
  -- The wait for room has a timer, which keeps a clock of its own.
  | sendRefused {k cutoff : ℕ} {outcome : PublishOutcome Unit}
      (call : s.calls k = some ⟨cutoff, .reserving⟩)
      (refused : s.Refuses cutoff outcome ∨
        outcome = definite .transient .admission .deadlineElapsed) :
      CallStep s (.returned k outcome) (s.setCallStage k (.returned outcome))
  | notice {k cutoff : ℕ} (call : s.calls k = some ⟨cutoff, .tracked⟩) (notice : Notice) :
      CallStep s (.noticed k notice) (s.setCallStage k (.answered (Mqtt.notice notice)))
  | return_ {k cutoff : ℕ} {outcome : PublishOutcome Unit}
      (call : s.calls k = some ⟨cutoff, .answered outcome⟩) (early : s.now < cutoff) :
      CallStep s (.returned k outcome) (s.setCallStage k (.returned outcome))
  | expire {k cutoff : ℕ} {stage : CallStage} (call : s.calls k = some ⟨cutoff, stage⟩)
      (sent : stage.isSent = true) :
      CallStep s (.returned k (ambiguous .deadlineElapsed))
        (s.setCallStage k (.returned (ambiguous .deadlineElapsed)))
  | cancel {k cutoff : ℕ} {stage : CallStage} (call : s.calls k = some ⟨cutoff, stage⟩)
      (pending : stage = .reserving ∨ stage.isSent = true) :
      CallStep s .quiet (s.setCallStage k .cancelled)

/-- The driver waits in a `select!`, where commands reach it. -/
def State.Awaits (s : State) : Prop := s.phase = .parked ∨ s.phase = .waiting

/-- The steps of the driver's task. -/
inductive DriverStep (s : State) : Label → State → Prop where
  | park (top : s.phase = .top) (current : s.retire < s.generation) :
      DriverStep s .quiet { s with phase := .parked }
  | retire (top : s.phase = .top) (due : s.generation ≤ s.retire) : DriverStep s .quiet s.renew
  -- What `next` does with the permit is what it does at the head of its loop.
  | wake (parked : s.phase = .parked) (running : s.cancelled = false) (permit : s.wake = true) :
      DriverStep s .quiet { s with wake := false, phase := .top }
  | timer (parked : s.phase = .parked) (running : s.cancelled = false)
      (wait : s.settlementWait = true) : DriverStep s .quiet s.renew
  -- The client library writes only what it was handed on this connection.
  | poll {fresh : ℕ} {event : State.Event} (parked : s.phase = .parked)
      (running : s.cancelled = false) (unused : s.handles fresh = none)
      (held : ∀ pkid, event = .pubAckWritten pkid → ∃ reason, (pkid, reason) ∈ s.acks)
      (notice : State.Subscribed) :
      DriverStep s (s.observation fresh event) (s.handleEvent fresh event notice)
  | lose (parked : s.phase = .parked) (running : s.cancelled = false) (cause : MqttError)
      (retryable : Bool) : DriverStep s .quiet (s.lose cause retryable)
  | retry (waiting : s.phase = .waiting) (running : s.cancelled = false) :
      DriverStep s .quiet { s with phase := .top }
  | stop (awaits : s.Awaits) (cancelled : s.cancelled = true) :
      DriverStep s .quiet { s with phase := .ended }
  | settle {generation pkid deadline response : ℕ} {reason : PubAckReason} {rest : List Command}
      (awaits : s.Awaits) (running : s.cancelled = false)
      (queue : s.commands = .settle generation pkid reason deadline response :: rest)
      (accepts : Bool) :
      DriverStep s (s.submission generation pkid reason deadline response accepts)
        ((s.dequeue rest).handleSettle generation pkid reason deadline response accepts).resume
  | take {k deadline : ℕ} {rest : List Command} (awaits : s.Awaits)
      (running : s.cancelled = false) (queue : s.commands = .publish k deadline :: rest) :
      DriverStep s .quiet ((s.dequeue rest).takePublish k deadline)
  -- Between its checks and the call of the client library the driver does not hold the others.
  | checkOpen {k deadline : ℕ} {reconnecting : Bool}
      (publishing : s.phase = .publishing .received k deadline reconnecting) :
      DriverStep s .quiet (s.checkPublish s.refuseClosed .opened k deadline reconnecting)
  | checkDeadline {k deadline : ℕ} {reconnecting : Bool}
      (publishing : s.phase = .publishing .opened k deadline reconnecting) :
      DriverStep s .quiet
        (s.checkPublish (s.refuseLate deadline) .timely k deadline reconnecting)
  | hand {k deadline : ℕ} {reconnecting : Bool}
      (publishing : s.phase = .publishing .timely k deadline reconnecting)
      (answer : Option ClientError) :
      DriverStep s (State.publication k answer)
        (s.respondPublish k reconnecting (State.publishResult answer))
  | shutdown {deadline : ℕ} {rest : List Command} (awaits : s.Awaits)
      (running : s.cancelled = false) (queue : s.commands = .shutdown deadline :: rest) :
      DriverStep s .quiet (s.dequeue rest).beginShutdown
  | farewell (closing : s.phase = .closing) (result : Except MqttError Unit) :
      DriverStep s .quiet (s.endShutdown result)
  | finish (gone : s.phase = .ended ∨ s.cancelled = true ∧ (s.Awaits ∨ s.phase = .closing)) :
      DriverStep s .quiet s.finish

/-- The clock, and the drop of the receiver or the shutdown of the resource. -/
inductive OwnerStep (s : State) : State → Prop where
  | elapse (elapsed : ℕ) : OwnerStep s { s with now := s.now + elapsed }
  | close : OwnerStep s { s with closing := true }
  | cancel (closing : s.closing = true) : OwnerStep s { s with cancelled := true }
  | shutdown (closing : s.closing = true) (space : 0 < s.room) (running : s.phase ≠ .stopped)
      (deadline : ℕ) :
      OwnerStep s { s with
        room := s.room - 1
        commands := s.commands ++ [.shutdown deadline] }

inductive Step (s : State) : Label → State → Prop where
  | settlement {a : Label} {s' : State} (step : SettlementStep s a s') : Step s a s'
  | call {a : Label} {s' : State} (step : CallStep s a s') : Step s a s'
  | driver {a : Label} {s' : State} (step : DriverStep s a s') : Step s a s'
  | owner {s' : State} (step : OwnerStep s s') : Step s .quiet s'

end Rss.Mqtt
