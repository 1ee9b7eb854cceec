import Rss.Library.Fallible

/-! # The publisher's transports

One slot holds the connection the publisher may use, with the admission word that counts the
attempts on it. A failed attempt retires the connection it used; one recovery task drains and
closes it and connects the next. Connections, admission words, tasks and attempts are numbered
in the order they are made. -/

namespace Rss.Amqp

/-! ### The admission word -/

/-- `1 << (usize::BITS - 1)`. -/
def admissionClosed : UInt64 := (1 : UInt64) <<< 63

def admissionCountMask : UInt64 := admissionClosed - 1

inductive TransportError where
  | admissionClosed | admissionSaturated | recovering | unavailable | shuttingDown
  deriving DecidableEq, Repr

namespace Admission

/-- The number of admitted attempts. -/
def count (word : UInt64) : UInt64 := word &&& admissionCountMask

def acquire (word : UInt64) : Except TransportError UInt64 :=
  if word &&& admissionClosed ≠ 0 ∨ count word = admissionCountMask then
    if word &&& admissionClosed ≠ 0 then .error .admissionClosed else .error .admissionSaturated
  else .ok (word + 1)

def close (word : UInt64) : UInt64 := word ||| admissionClosed

/-- Dropping a permit; whether the count was one decides about the notification. -/
def release (word : UInt64) : Option (UInt64 × Bool) :=
  if count word > 0 then some (word - 1, count word == 1) else none

end Admission

/-! ### The slot -/

structure Retiring where
  transport : ℕ
  admission : ℕ
  deriving DecidableEq, Repr

/-- `TransportSlot`. -/
inductive Slot where
  | ready (generation transport admission : ℕ)
  | recovering (generation : ℕ) (retiring : Option Retiring)
  | unavailable (generation : ℕ)
  | shuttingDown (retiring : Option Retiring)
  deriving DecidableEq, Repr

/-- `TransportRecovery`. -/
structure Recovery where
  generation : ℕ
  retiring : Option Retiring
  deriving DecidableEq, Repr

/-- The slot with the admission words it refers to. -/
structure Gate where
  slot : Slot
  words : ℕ → UInt64
  /-- Words opened so far. -/
  opened : ℕ

namespace Gate

def setWord (g : Gate) (a : ℕ) (w : UInt64) : Gate :=
  { g with words := fun b => if b = a then w else g.words b }

def ready (transport : ℕ) : Gate := ⟨.ready 0 transport 0, fun _ => 0, 1⟩

/-- `snapshot`: the generation and transport of a granted permit. -/
def snapshot (g : Gate) : Except TransportError (ℕ × ℕ × ℕ × Gate) :=
  match g.slot with
  | .ready generation transport admission => do
      let w ← Admission.acquire (g.words admission)
      .ok (generation, transport, admission, g.setWord admission w)
  | .recovering _ _ => .error .recovering
  | .unavailable _ => .error .unavailable
  | .shuttingDown _ => .error .shuttingDown

def beginRecovery (g : Gate) (expected : ℕ) : Option (Recovery × Gate) :=
  match g.slot with
  | .ready generation transport admission =>
      if generation = expected then
        let retiring : Retiring := ⟨transport, admission⟩
        let g := g.setWord admission (Admission.close (g.words admission))
        some (⟨generation, some retiring⟩, { g with slot := .recovering generation (some retiring) })
      else none
  | _ => none

def beginUnavailableRecovery (g : Gate) : Option (Recovery × Gate) :=
  match g.slot with
  | .unavailable generation =>
      some (⟨generation, none⟩, { g with slot := .recovering generation none })
  | _ => none

/-- The replacement becomes the transport of the next generation, unless the slot is no longer
of this recovery or the generations are used up. -/
def installReplacement (g : Gate) (recovery transport : ℕ) : Bool × Gate :=
  match g.slot with
  | .recovering generation _ =>
      if generation = recovery then
        match checkedAdd 64 generation 1 with
        | none => (false, { g with slot := .unavailable generation })
        | some next =>
            (true,
              { (g.setWord g.opened 0) with
                slot := .ready next transport g.opened
                opened := g.opened + 1 })
      else (false, g)
  | _ => (false, g)

def failRecovery (g : Gate) (recovery : ℕ) : Gate :=
  match g.slot with
  | .recovering generation _ =>
      if generation = recovery then { g with slot := .unavailable recovery } else g
  | _ => g

def takeForResourceShutdown (g : Gate) : Option Retiring × Gate :=
  let (retiring, g) : Option Retiring × Gate := match g.slot with
    | .ready _ transport admission =>
        (some ⟨transport, admission⟩, g.setWord admission (Admission.close (g.words admission)))
    | .recovering _ retiring => (retiring, g)
    | .shuttingDown retiring => (retiring, g)
    | .unavailable _ => (none, g)
  (retiring, { g with slot := .shuttingDown none })

end Gate

/-! ### Tasks -/

/-- `wait_until_idle`: before registering, between registering and reading the count, and
asleep; a registered waiter may have been notified. -/
inductive Waiter where
  | entering
  | registered (notified : Bool)
  | asleep (notified : Bool)
  deriving DecidableEq, Repr

def Waiter.notify : Waiter → Waiter
  | .registered _ => .registered true
  | .asleep _ => .asleep true
  | .entering => .entering

/-- One step of the loop on the word; the second component tells that it returned. -/
def Waiter.poll (w : Waiter) (word : UInt64) : Option (Waiter × Bool) :=
  match w with
  | .entering => some (.registered false, false)
  | .registered notified =>
      if Admission.count word = 0 then some (w, true) else some (.asleep notified, false)
  | .asleep true => some (.entering, false)
  | .asleep false => none

/-- How far a recovery has come. `connected` holds a replacement that is not yet installed,
`orphaned` one that could not be. -/
inductive Stage where
  | spawned
  | idling (waiter : Waiter)
  | confirming
  | closing
  | connecting
  | connected (replacement : ℕ)
  | failed
  | orphaned (replacement : ℕ)
  | ended
  deriving DecidableEq, Repr

/-- The recovery may still change the slot. -/
def Stage.active : Stage → Bool
  | .orphaned _ | .ended => false
  | _ => true

/-- A recovery task and what its owner asked of it. -/
structure Task where
  recovery : Recovery
  stage : Stage
  cancelled : Bool
  aborted : Bool
  deriving DecidableEq, Repr

/-- The connections the guards of a recovery close when its task goes. -/
def Recovery.guards (r : Recovery) (stage : Stage) : List ℕ :=
  (r.retiring.map Retiring.transport).toList ++
    match stage with
    | .connected c | .orphaned c => [c]
    | _ => []

def Task.notify (a : ℕ) (t : Task) : Task :=
  match t.stage, t.recovery.retiring with
  | .idling w, some r => if r.admission = a then { t with stage := .idling w.notify } else t
  | _, _ => t

/-- `shutdown_resource_transport` after it took the transport. -/
inductive Closing where
  | joining (recovery : Option ℕ)
  | idling (waiter : Waiter)
  | waiting
  deriving DecidableEq, Repr

structure Shutdown where
  retiring : Option Retiring
  stage : Closing
  deriving DecidableEq, Repr

def Shutdown.notify (a : ℕ) (d : Shutdown) : Shutdown :=
  match d.stage, d.retiring with
  | .idling w, some r => if r.admission = a then { d with stage := .idling w.notify } else d
  | _, _ => d

/-! ### The publisher -/

structure State where
  gate : Gate
  /-- `lifecycle.recovery`. -/
  owned : Option ℕ
  tasks : ℕ → Option Task
  spawned : ℕ
  shutdown : Option Shutdown
  /-- Admission words of the live permits. -/
  permits : List ℕ
  /-- Permits whose count reached zero and whose notification is due. -/
  notifying : List ℕ
  /-- Connections made so far. -/
  connections : ℕ
  closeRequested : ℕ → Bool

namespace State

def start : State where
  gate := .ready 0
  owned := none
  tasks := fun _ => none
  spawned := 0
  shutdown := none
  permits := []
  notifying := []
  connections := 1
  closeRequested := fun _ => false

def setTask (s : State) (i : ℕ) (t : Option Task) : State :=
  { s with tasks := fun j => if j = i then t else s.tasks j }

/-- `close.request_now()` on each of the connections. -/
def requestClose (s : State) (cs : List ℕ) : State :=
  { s with closeRequested := fun c => s.closeRequested c || decide (c ∈ cs) }

/-- Dropping `OwnedTransportRecovery` cancels the task and asks for its abortion. -/
def dropRecovery (s : State) : State :=
  match s.owned with
  | none => s
  | some i =>
      { s.setTask i ((s.tasks i).map (fun t : Task => { t with cancelled := true, aborted := true })) with
        owned := none }

/-- `spawn_transport_recovery`. -/
def spawn (s : State) (r : Recovery) : State :=
  { (s.dropRecovery.setTask s.spawned (some ⟨r, .spawned, false, false⟩)) with
    owned := some s.spawned
    spawned := s.spawned + 1 }

/-- `transport_snapshot`; only a granted permit returns a generation. -/
def transportSnapshot (s : State) : Except TransportError (ℕ × ℕ × ℕ) × State :=
  match s.gate.snapshot with
  | .ok (generation, transport, admission, gate) =>
      (.ok (generation, transport, admission),
        { s with gate, permits := admission :: s.permits })
  | .error .unavailable =>
      match s.gate.beginUnavailableRecovery with
      | some (r, gate) => (.error .unavailable, { s with gate }.spawn r)
      | none => (.error .unavailable, s)
  | .error e => (.error e, s)

/-- `retire_transport`. -/
def retireTransport (s : State) (generation : ℕ) : State :=
  match s.gate.beginRecovery generation with
  | some (r, gate) => { s with gate }.spawn r
  | none => s

/-- Dropping a permit of the word: the counting half. -/
def dropPermit (s : State) (a : ℕ) : State :=
  match Admission.release (s.gate.words a) with
  | some (w, last) =>
      { s with
        gate := s.gate.setWord a w
        permits := s.permits.erase a
        notifying := if last then a :: s.notifying else s.notifying }
  | none => { s with permits := s.permits.erase a }

/-- `idle.notify_waiters()`. -/
def notifyWaiters (s : State) (a : ℕ) : State :=
  { s with
    tasks := fun i => (s.tasks i).map (Task.notify a)
    shutdown := s.shutdown.map (Shutdown.notify a)
    notifying := s.notifying.erase a }

/-- `request_shutdown`. -/
def requestShutdown (s : State) : State :=
  let (retiring, gate) := s.gate.takeForResourceShutdown
  State.requestClose (dropRecovery { s with gate }) (retiring.map Retiring.transport).toList

/-- `shutdown_resource_transport` up to its first wait, which cancels the recovery it joins;
absent when a shutdown has begun. -/
def beginShutdown (s : State) : Option State :=
  match s.gate.slot with
  | .shuttingDown _ => none
  | _ =>
      let (retiring, gate) := s.gate.takeForResourceShutdown
      let s' := match s.owned with
        | none => s
        | some i => s.setTask i ((s.tasks i).map (fun t : Task => { t with cancelled := true }))
      some { s' with
        gate := gate
        owned := none
        shutdown := some ⟨retiring, .joining s.owned⟩ }

/-- The end of a shutdown, or its cancellation: a recovery it still joins is aborted, and its
guard closes the transport. -/
def endShutdown (s : State) (d : Shutdown) : State :=
  let s' := match d.stage with
    | .joining (some i) => s.setTask i ((s.tasks i).map (fun t : Task => { t with aborted := true }))
    | _ => s
  State.requestClose { s' with shutdown := none } (d.retiring.map Retiring.transport).toList

/-- The end of a task: its guards close what they hold. -/
def endTask (s : State) (i : ℕ) (t : Task) : State :=
  (s.setTask i none).requestClose (t.recovery.guards t.stage)

end State

/-! ### Interleavings -/

inductive Action where
  | granted (generation : ℕ)
  | refused
  | released
  | notified
  | retired (generation : ℕ)
  | progressed
  | idle (admission : ℕ)
  | installed (generation : ℕ)
  | shutdownBegan
  | stopped
  deriving DecidableEq, Repr

/-- One step of a recovery on its own, other than installing a connection: polling the waiter,
leaving a stage by success, error or deadline, or by cancellation. -/
inductive TaskStep (s : State) : Task → Stage → Prop where
  | begin_ {t : Task} (stage : t.stage = .spawned) (retiring : t.recovery.retiring.isSome) :
      TaskStep s t (.idling .entering)
  | connect {t : Task} (stage : t.stage = .spawned) (fresh : t.recovery.retiring = none) :
      TaskStep s t .connecting
  | poll {t : Task} {w w' : Waiter} {r : Retiring} (stage : t.stage = .idling w)
      (retiring : t.recovery.retiring = some r)
      (polled : w.poll (s.gate.words r.admission) = some (w', false)) : TaskStep s t (.idling w')
  | drainOver {t : Task} {w : Waiter} (stage : t.stage = .idling w) : TaskStep s t .closing
  | confirmed {t : Task} (stage : t.stage = .confirming) : TaskStep s t .closing
  | closed {t : Task} (stage : t.stage = .closing)
      (requested : ∀ r ∈ t.recovery.retiring, s.closeRequested r.transport) :
      TaskStep s t .connecting
  | notConnected {t : Task} (stage : t.stage = .connecting) : TaskStep s t .failed
  | cancel {t : Task} (cancelled : t.cancelled) (active : t.stage.active)
      (held : ∀ c, t.stage ≠ .connected c) : TaskStep s t .failed

/-- One step of a party. -/
inductive Step : State → Action → State → Prop where
  | grant {s s' : State} {generation transport admission : ℕ}
      (snapshot : s.transportSnapshot = (.ok (generation, transport, admission), s')) :
      Step s (.granted generation) s'
  | refuse {s s' : State} {e : TransportError} (snapshot : s.transportSnapshot = (.error e, s')) :
      Step s .refused s'
  | release {s : State} {a : ℕ} (live : a ∈ s.permits) : Step s .released (s.dropPermit a)
  | notify {s : State} {a : ℕ} (due : a ∈ s.notifying) : Step s .notified (s.notifyWaiters a)
  | retire {s : State} (generation : ℕ) :
      Step s (.retired generation) (s.retireTransport generation)
  | advance {s : State} {i : ℕ} {t : Task} {stage : Stage} (running : s.tasks i = some t)
      (step : TaskStep s t stage) : Step s .progressed (s.setTask i (some { t with stage }))
  | drained {s : State} {i : ℕ} {t : Task} {w w' : Waiter} {r : Retiring}
      (running : s.tasks i = some t) (stage : t.stage = .idling w)
      (retiring : t.recovery.retiring = some r)
      (polled : w.poll (s.gate.words r.admission) = some (w', true)) :
      Step s (.idle r.admission) (s.setTask i (some { t with stage := .confirming }))
  | closing {s : State} {i : ℕ} {t : Task} {r : Retiring} (running : s.tasks i = some t)
      (stage : t.stage = .closing) (retiring : t.recovery.retiring = some r) :
      Step s .progressed (s.requestClose [r.transport])
  | connect {s : State} {i : ℕ} {t : Task} (running : s.tasks i = some t)
      (stage : t.stage = .connecting) :
      Step s .progressed
        { s.setTask i (some { t with stage := .connected s.connections }) with
          connections := s.connections + 1 }
  | install {s : State} {i : ℕ} {t : Task} {c : ℕ} {gate : Gate} (running : s.tasks i = some t)
      (stage : t.stage = .connected c)
      (installed : s.gate.installReplacement t.recovery.generation c = (true, gate)) :
      Step s (.installed (t.recovery.generation + 1))
        { s.setTask i (some { t with stage := .ended }) with gate }
  | reject {s : State} {i : ℕ} {t : Task} {c : ℕ} {gate : Gate} (running : s.tasks i = some t)
      (stage : t.stage = .connected c)
      (rejected : s.gate.installReplacement t.recovery.generation c = (false, gate)) :
      Step s .progressed { s.setTask i (some { t with stage := .orphaned c }) with gate }
  | fail {s : State} {i : ℕ} {t : Task} (running : s.tasks i = some t)
      (stage : t.stage = .failed) :
      Step s .progressed
        { s.setTask i (some { t with stage := .ended }) with
          gate := s.gate.failRecovery t.recovery.generation }
  | finish {s : State} {i : ℕ} {t : Task} (running : s.tasks i = some t)
      (ended : t.stage.active = false) : Step s .progressed (s.endTask i t)
  | abort {s : State} {i : ℕ} {t : Task} (running : s.tasks i = some t) (aborted : t.aborted) :
      Step s .progressed (s.endTask i t)
  | requestShutdown {s : State} : Step s .shutdownBegan s.requestShutdown
  | beginShutdown {s s' : State} (begun : s.beginShutdown = some s') :
      Step s .shutdownBegan s'
  | joined {s : State} {d : Shutdown} {recovery : Option ℕ} (running : s.shutdown = some d)
      (stage : d.stage = .joining recovery)
      (ended : ∀ i ∈ recovery, s.tasks i = none) :
      Step s .progressed { s with shutdown := some { d with stage := .idling .entering } }
  | poll {s : State} {d : Shutdown} {w w' : Waiter} {r : Retiring} (running : s.shutdown = some d)
      (stage : d.stage = .idling w) (retiring : d.retiring = some r)
      (polled : w.poll (s.gate.words r.admission) = some (w', false)) :
      Step s .progressed { s with shutdown := some { d with stage := .idling w' } }
  | idled {s : State} {d : Shutdown} {w w' : Waiter} {r : Retiring}
      (running : s.shutdown = some d) (stage : d.stage = .idling w) (retiring : d.retiring = some r)
      (polled : w.poll (s.gate.words r.admission) = some (w', true)) :
      Step s (.idle r.admission)
        ({ s with shutdown := some { d with stage := .waiting } }.requestClose [r.transport])
  | stop {s : State} {d : Shutdown} (running : s.shutdown = some d) :
      Step s .stopped (s.endShutdown d)

end Rss.Amqp
