import Rss.Library.Fallible
import Rss.Library.Sql
import Rss.Library.Table
import Mathlib.Data.List.Dedup

/-! # The PostgreSQL reconcile store

The functions of `0002_coordinate_resources.sql` over its four tables. A call is one
transaction: it either returns the new tables or is refused and leaves them alone.
`CHECK` constraints other than the name patterns are invariants of these functions and
reject nothing. -/

namespace Rss.Reconcile

open Rss.Sql

/-! ### Tables -/

/-- Refusals, in the words of the raised messages. -/
inductive Failure where
  | scopeMismatch
  | claimLost
  | claimExpired
  | resourceLost
  | invalidResources
  | missingTarget
  | invalidClaimLimits
  | invalidLease
  | invalidCompletion
  | invalidWakeVersion
  | bindingChanged
  | missingResource
  | unboundTargets
  | outOfRange
  | invalidName
  deriving DecidableEq, Repr

/-- Primary key of a target. -/
structure Key where
  tenant : Uuid
  reconciler : String
  entity : String
  deriving DecidableEq, Repr

inductive RunResult where
  | pending
  | running
  | applied
  | converged
  | retry
  | suspended
  deriving DecidableEq, Repr

structure Target where
  wakeVersion : ℤ
  epoch : ℤ
  token : Option Uuid
  leaseUntil : Option ℤ
  nextRun : Option ℤ
  failures : ℤ
  result : RunResult
  bindingRevision : ℤ
  queueTicket : Option ℤ
  deriving DecidableEq, Repr

/-- The four owner columns of a resource, which are null together. -/
structure Owner where
  reconciler : String
  entity : String
  token : Uuid
  epoch : ℤ
  deriving DecidableEq, Repr

structure Scan where
  cursorTicket : ℤ
  highWatermark : ℤ
  deriving DecidableEq, Repr

structure Db where
  targets : Table Key Target
  resources : Table (Uuid × String) (Option Owner)
  targetResources : Table (Key × String) (Option ℤ)
  scans : Table (Uuid × String) Scan
  queueTickets : ℤ

namespace Db

/-- Resources declared by a target. -/
def declared (db : Db) (key : Key) : List String :=
  (db.targetResources.rows.filter (fun row => row.1.1 = key)).map (fun row => row.1.2)

/-- Resources whose owner columns name a target, whatever token they carry. -/
def named (db : Db) (key : Key) : List String :=
  (db.resources.rows.filter (fun row => row.1.1 = key.tenant ∧
    ∃ o ∈ row.2, o.reconciler = key.reconciler ∧ o.entity = key.entity)).map
      (fun row => row.1.2)

/-- `UPDATE target_resources SET waiting_ticket = …` for one target. -/
def setWaiting (db : Db) (key : Key) (ticket : Option ℤ) : Db :=
  { db with
    targetResources := db.targetResources.update
      (fun k waiting => if k.1 = key then ticket else waiting) }

end Db

/-- The owner columns are those of one claim of a target. -/
def OwnedBy (o : Option Owner) (key : Key) (token : Option Uuid) (epoch : Option ℤ) : Prop :=
  ∃ w ∈ o, w.reconciler = key.reconciler ∧ w.entity = key.entity ∧ token = some w.token ∧
    epoch = some w.epoch

instance (o : Option Owner) (key : Key) (token : Option Uuid) (epoch : Option ℤ) :
    Decidable (OwnedBy o key token epoch) := by
  unfold OwnedBy
  infer_instance

/-- `'^[A-Za-z0-9_.:-]{1,128}$'`. -/
def nameOk (s : String) : Bool :=
  1 ≤ s.length && s.length ≤ 128 &&
    s.toList.all (fun c => c.isAlphanum || ['_', '.', ':', '-'].contains c)

/-- A lease or a delay of one millisecond up to a day. -/
def validMillis (n : Option ℤ) : Option ℤ := n.filter (fun n => 1 ≤ n ∧ n ≤ 86400000)

/-- No lease, or one that has run out. -/
def expired (leaseUntil : Option ℤ) (now : ℤ) : Prop := ∀ u ∈ leaseUntil, u ≤ now

instance (leaseUntil : Option ℤ) (now : ℤ) : Decidable (expired leaseUntil now) :=
  inferInstanceAs (Decidable (∀ u ∈ leaseUntil, u ≤ now))

/-! ### Locks and authority -/

def assertTenant (session : Option Uuid) (t : Uuid) : Except Failure Unit :=
  if session = some t then .ok () else .error .scopeMismatch

/-- Every resource the target declares, is named by, or is about to declare exists. -/
def lockResources (db : Db) (session : Option Uuid) (key : Key) (extra : List String) :
    Except Failure Unit := do
  assertTenant session key.tenant
  if ∀ k ∈ db.declared key ++ db.named key ++ extra,
      (db.resources.get? (key.tenant, k)).isSome then
    .ok ()
  else
    .error .missingResource

def lockAuthority (db : Db) (clock : Clock) (session : Option Uuid) (key : Key)
    (k : Option Uuid) (g : Option ℤ) : Except Failure (Target × Clock) := do
  assertTenant session key.tenant
  match db.targets.get? key with
  | none => .error .claimLost
  | some row =>
      if k = none ∨ row.token ≠ k ∨ some row.epoch ≠ g ∨
          expired row.leaseUntil clock.tick.now then
        .error .claimLost
      else do
        lockResources db session key []
        if expired row.leaseUntil clock.tick.tick.now then
          .error .claimExpired
        else
          .ok (row, clock.tick.tick)

/-- True when the caller still runs under the binding it claimed with. -/
def lockExecution (db : Db) (clock : Clock) (session : Option Uuid) (key : Key)
    (k : Option Uuid) (g b : Option ℤ) : Except Failure (Bool × Clock) := do
  let (row, clock) ← lockAuthority db clock session key k g
  if b = none ∨ b = some 0 ∨ some row.bindingRevision ≠ b then
    .ok (false, clock)
  else if ∃ res ∈ db.declared key, ∃ o ∈ db.resources.get? (key.tenant, res),
      ¬ OwnedBy o key k g then
    .error .resourceLost
  else
    .ok (true, clock)

/-! ### Binding and waking -/

/-- The declared keys when all of them are well formed. -/
def validKeys (keys : Option (List (Option String))) : Option (List String) := do
  let keys ← keys
  if keys.length > 1000 then none else keys.mapM (fun k => k.filter nameOk)

/-- `array_agg(DISTINCT k ORDER BY k)`. -/
def canonical (keys : List String) : List String := keys.dedup.mergeSort

/-- The ticket a new declaration waits with: the target's own, if it was waiting, is due
and holds no lease. -/
def waitingTicket (row : Target) (wasWaiting : Bool) (clock : Clock) : Option ℤ :=
  if wasWaiting ∧ (∃ n ∈ row.nextRun, n ≤ clock.tick.now) ∧
      expired row.leaseUntil clock.tick.tick.now then
    row.queueTicket
  else
    none

def declare (key : Key) (row : Target) (wasWaiting : Bool) :
    List String → Table (Key × String) (Option ℤ) → Clock →
      Table (Key × String) (Option ℤ) × Clock
  | [], table, clock => (table, clock)
  | res :: rest, table, clock =>
      declare key row wasWaiting rest
        (table.insertNew (key, res) (waitingTicket row wasWaiting clock)) clock.tick.tick

def bindResources (db : Db) (clock : Clock) (session : Option Uuid) (key : Key)
    (keys : Option (List (Option String))) : Except Failure (Db × Clock) := do
  assertTenant session key.tenant
  let keys ← okOr (validKeys keys) .invalidResources
  let row ← okOr (db.targets.get? key) .missingTarget
  if row.bindingRevision > 0 ∧ (db.declared key).mergeSort = canonical keys then
    .ok (db, clock)
  else do
    let db := { db with
      resources := db.resources.insertAll ((canonical keys).map (fun k => (key.tenant, k)))
        (fun _ => none) }
    lockResources db session key (canonical keys)
    let wasWaiting :=
      db.targetResources.rows.any (fun row => row.1.1 = key ∧ row.2.isSome)
    let (targetResources, clock) := declare key row wasWaiting (canonical keys)
      (db.targetResources.delete (fun k => k.1 = key)) clock
    let revision ← okOr (succ row.bindingRevision) .outOfRange
    .ok ({ db with
      targetResources
      targets := db.targets.modify key
        (fun row => { row with bindingRevision := revision }) }, clock)

/-- A first wake inserts the target with its column defaults. -/
def newTarget (now ticket : ℤ) : Target where
  wakeVersion := 1
  epoch := 0
  token := none
  leaseUntil := none
  nextRun := some now
  failures := 0
  result := .pending
  bindingRevision := 0
  queueTicket := some ticket

/-- A later wake makes the target due again and keeps its place in the queue. -/
def Target.woken (row : Target) (version now ticket : ℤ) : Target :=
  { row with
    wakeVersion := version
    nextRun := some now
    failures := 0
    result := .pending
    queueTicket := some (row.queueTicket.getD ticket) }

def wake (db : Db) (clock : Clock) (session : Option Uuid) (key : Key)
    (keys : Option (List (Option String))) : Except Failure (Db × Clock) := do
  assertTenant session key.tenant
  if ¬ (nameOk key.reconciler ∧ nameOk key.entity) then
    .error .invalidName
  else do
    let ticket ← okOr (succ db.queueTickets) .outOfRange
    let version ← okOr (succ (((db.targets.get? key).map Target.wakeVersion).getD 0)) .outOfRange
    let db := { db with
      scans := db.scans.insertNew (key.tenant, key.reconciler) ⟨0, 0⟩
      targets := db.targets.upsert key (newTarget clock.tick.now ticket)
        (fun row => row.woken version clock.tick.tick.now ticket)
      queueTickets := ticket }
    bindResources db clock.tick.tick session key keys

/-! ### Claiming -/

/-- What a claim finds in its surroundings: a scan row locked by another transaction,
targets locked or with a locked resource, and the identifiers the server generates. -/
structure Surroundings where
  scanLocked : Bool
  locked : String → Bool
  uuids : ℕ → Uuid

/-- Smallest ticket waiting for a resource. -/
def waitingHead (db : Db) (tenant : Uuid) (res : String) : Option ℤ :=
  (db.targetResources.rows.filterMap (fun row =>
    if row.1.1.tenant = tenant ∧ row.1.2 = res then row.2 else none)).min?

/-- Another live claim owns the resource. -/
def Held (db : Db) (tenant : Uuid) (res : String) (now : ℤ) : Prop :=
  ∃ o ∈ db.resources.get? (tenant, res), ∃ w ∈ o,
    ∃ holder ∈ db.targets.get? ⟨tenant, w.reconciler, w.entity⟩,
      holder.token = some w.token ∧ holder.epoch = w.epoch ∧ ∃ u ∈ holder.leaseUntil, u > now

instance (db : Db) (tenant : Uuid) (res : String) (now : ℤ) :
    Decidable (Held db tenant res now) := by
  unfold Held
  infer_instance

/-- An older waiter or a live holder stands before the candidate. -/
def blocked (db : Db) (tenant : Uuid) (ticket : Option ℤ) : List String → Clock → Bool × Clock
  | [], clock => (false, clock)
  | res :: rest, clock =>
      if (∃ head ∈ waitingHead db tenant res, some head ≠ ticket) ∨
          Held db tenant res clock.tick.now then
        (true, clock.tick)
      else
        blocked db tenant ticket rest clock.tick

def Target.claimed (row : Target) (token : Uuid) (epoch leaseUntil : ℤ) : Target :=
  { row with
    token := some token
    epoch
    leaseUntil := some leaseUntil
    result := .running }

/-- The tables after a candidate was granted its claim. -/
def grant (db : Db) (key : Key) (row : Target) : Db :=
  { db.setWaiting key none with
    targets := db.targets.modify key (fun _ => row)
    resources := db.resources.update (fun k o =>
      if k.1 = key.tenant ∧ k.2 ∈ db.declared key then
        row.token.map (fun token => ⟨key.reconciler, key.entity, token, row.epoch⟩)
      else o) }

/-- Clear the resources that still carry a claim of the target. -/
def disown (resources : Table (Uuid × String) (Option Owner)) (key : Key)
    (token : Option Uuid) (epoch : Option ℤ) : Table (Uuid × String) (Option Owner) :=
  resources.update (fun k o =>
    if k.1 = key.tenant ∧ OwnedBy o key token epoch then none else o)

def claimCandidate (db : Db) (clock : Clock) (session : Option Uuid) (key : Key) (ticket : ℤ)
    (locked : Bool) (token : Uuid) (ttl : ℤ) : Except Failure (Db × Clock × Option Target) :=
  if locked then
    .ok (db, clock, none)
  else match db.targets.get? key with
    | none => .ok (db, clock, none)
    | some row =>
        if row.queueTicket ≠ some ticket ∨ row.nextRun = none ∨
            (∃ n ∈ row.nextRun, n > clock.tick.now) ∨ ¬ expired row.leaseUntil clock.tick.now then
          .ok (db, clock.tick, none)
        else do
          lockResources db session key []
          let db := db.setWaiting key row.queueTicket
          let (isBlocked, clock) :=
            blocked db key.tenant row.queueTicket (db.declared key).mergeSort clock.tick
          if isBlocked then
            .ok (db, clock, none)
          else do
            let epoch ← okOr (succ row.epoch) .outOfRange
            let claimed := row.claimed token epoch (clock.tick.now + milliseconds ttl)
            let db := { db with
              resources := disown db.resources key row.token (some row.epoch) }
            .ok (grant db key claimed, clock.tick, some claimed)

structure ClaimLoop where
  db : Db
  clock : Clock
  cursor : ℤ
  claims : List (Key × Target)

def claimLoop (session : Option Uuid) (t : Uuid) (r : String) (n ttl : ℤ)
    (around : Surroundings) : List (String × ℤ) → ClaimLoop → Except Failure ClaimLoop
  | [], st => .ok st
  | (entity, ticket) :: rest, st => do
      let (db, clock, claimed) ← claimCandidate st.db st.clock session ⟨t, r, entity⟩ ticket
        (around.locked entity) (around.uuids st.claims.length) ttl
      let claims := st.claims ++ claimed.toList.map (fun row => (⟨t, r, entity⟩, row))
      let st := { db, clock, cursor := ticket, claims }
      if claims.length = n then
        .ok st
      else
        claimLoop session t r n ttl around rest st

/-- Queued targets of a reconciler, with their tickets. -/
def queued (db : Db) (t : Uuid) (r : String) : List (String × ℤ) :=
  db.targets.rows.filterMap (fun (key, row) =>
    if key.tenant = t ∧ key.reconciler = r ∧ row.nextRun.isSome then
      row.queueTicket.map (fun ticket => (key.entity, ticket))
    else none)

def candidates (db : Db) (t : Uuid) (r : String) (scan : Scan) : List (String × ℤ) :=
  (((queued db t r).filter
    (fun c => scan.cursorTicket < c.2 ∧ c.2 ≤ scan.highWatermark)).mergeSort
      (fun a b => a.2 ≤ b.2)).take 64

/-- A finished scan starts over below the newest ticket. -/
def restartScan (db : Db) (t : Uuid) (r : String) (scan : Scan) : Scan :=
  if scan.cursorTicket ≥ scan.highWatermark then
    { cursorTicket := 0
      highWatermark := (((queued db t r).map Prod.snd).max?).getD 0 }
  else
    scan

def claimDue (db : Db) (clock : Clock) (session : Option Uuid) (t : Uuid) (r : String)
    (n ttl : Option ℤ) (around : Surroundings) :
    Except Failure (Db × Clock × List (Key × Target) × Bool) := do
  assertTenant session t
  match n.filter (fun n => 1 ≤ n ∧ n ≤ 64), validMillis ttl with
  | some n, some ttl =>
      if ∃ row ∈ db.targets.rows, row.1.tenant = t ∧ row.1.reconciler = r ∧
          row.2.bindingRevision = 0 ∧ row.2.nextRun.isSome then
        .error .unboundTargets
      else
        match (if around.scanLocked then none else db.scans.get? (t, r)) with
        | none => .ok (db, clock, [], false)
        | some scan => do
            let scan := restartScan db t r scan
            let st ← claimLoop session t r n ttl around (candidates db t r scan)
              ⟨db, clock, scan.cursorTicket, []⟩
            let more := (queued st.db t r).any
              (fun c => st.cursor < c.2 ∧ c.2 ≤ scan.highWatermark)
            let cursor := if more then st.cursor else scan.highWatermark
            .ok ({ st.db with
              scans := st.db.scans.modify (t, r) (fun _ => ⟨cursor, scan.highWatermark⟩) },
              st.clock, st.claims, more)
  | _, _ => .error .invalidClaimLimits

/-! ### Ending and prolonging a claim -/

inductive Outcome where
  | converged
  | pending
  | retry
  | suspended
  | deferred
  deriving DecidableEq, Repr

def Outcome.final : Outcome → Bool
  | .converged | .suspended => true
  | _ => false

def Outcome.result : Outcome → RunResult
  | .converged => .converged
  | .pending | .deferred => .pending
  | .retry => .retry
  | .suspended => .suspended

/-- An operation of the lease holder under its claimed binding. -/
def underBinding (db : Db) (clock : Clock) (session : Option Uuid) (key : Key)
    (k : Option Uuid) (g b : Option ℤ) : Except Failure Clock := do
  let (same, clock) ← lockExecution db clock session key k g b
  if same then .ok clock else .error .bindingChanged

def renew (db : Db) (clock : Clock) (session : Option Uuid) (key : Key) (k : Option Uuid)
    (g b ttl : Option ℤ) : Except Failure (Db × Clock) := do
  let clock ← underBinding db clock session key k g b
  let ttl ← okOr (validMillis ttl) .invalidLease
  .ok ({ db with
    targets := db.targets.modify key
      (fun row => { row with leaseUntil := some (clock.tick.now + milliseconds ttl) }) },
    clock.tick)

/-- The delay an outcome needs; a final outcome ignores the argument. -/
def completionDelay (outcome : Outcome) (delay : Option ℤ) : Option ℤ :=
  if outcome.final then some 0 else validMillis delay

/-- The row a completion leaves; `version` is the wake version the caller has seen. -/
def Target.finished (row : Target) (outcome : Outcome) (version now delay f ticket : ℤ) :
    Target :=
  let newer := row.wakeVersion ≠ version
  let nextRun :=
    if newer then some (least row.nextRun now)
    else if outcome.final then none
    else some (now + milliseconds delay)
  { row with
    token := none
    leaseUntil := none
    nextRun
    failures := if newer ∨ outcome = .deferred then row.failures else f
    result := if newer ∨ outcome = .deferred then .pending else outcome.result
    queueTicket :=
      if nextRun = none then none
      else if newer ∨ outcome = .deferred then row.queueTicket
      else some ticket }

/-- A completion draws a new ticket only when it queues the target again. -/
def Target.requeues (row : Target) (outcome : Outcome) (version : ℤ) : Prop :=
  row.wakeVersion = version ∧ outcome.final = false ∧ outcome ≠ .deferred

instance (row : Target) (outcome : Outcome) (version : ℤ) :
    Decidable (row.requeues outcome version) :=
  inferInstanceAs (Decidable (_ ∧ _ ∧ _))

/-- `outcome` is absent for a null or unknown text. -/
def finish (db : Db) (clock : Clock) (session : Option Uuid) (key : Key) (k : Option Uuid)
    (g b w : Option ℤ) (outcome : Option Outcome) (delay f : Option ℤ) :
    Except Failure (Db × Clock) := do
  let (row, clock) ← lockAuthority db clock session key k g
  let clock ←
    (if outcome ≠ some .deferred then underBinding db clock session key k g b else .ok clock)
  let clock := clock.tick
  let outcome ← okOr outcome .invalidCompletion
  let f ← okOr (f.filter (fun f => 0 ≤ f ∧ f ≤ 4294967295)) .invalidCompletion
  let delay ← okOr (completionDelay outcome delay) .invalidCompletion
  let version ← okOr (w.filter (fun w => w ≤ row.wakeVersion)) .invalidWakeVersion
  let ticket ←
    (if row.requeues outcome version then okOr (succ db.queueTickets) .outOfRange
    else .ok db.queueTickets)
  .ok ({ db.setWaiting key none with
    resources := disown db.resources key k g
    targets := db.targets.modify key
      (fun _ => row.finished outcome version clock.now delay f ticket)
    queueTickets := ticket }, clock)

def release (db : Db) (clock : Clock) (session : Option Uuid) (key : Key) (k : Option Uuid)
    (g : Option ℤ) : Except Failure (Db × Clock) := do
  let (_, clock) ← lockAuthority db clock session key k g
  .ok ({ db with
    resources := disown db.resources key k g
    targets := db.targets.modify key
      (fun row => { row with token := none, leaseUntil := none }) }, clock)

def markApplied (db : Db) (clock : Clock) (session : Option Uuid) (key : Key)
    (k : Option Uuid) (g b : Option ℤ) : Except Failure (Db × Clock) := do
  let clock ← underBinding db clock session key k g b
  .ok ({ db with
    targets := db.targets.modify key
      (fun row => { row with nextRun := some (least row.nextRun clock.tick.now),
                             result := .applied }) }, clock.tick)

/-! ### Runs -/

/-- A call with all of its arguments, null ones included. -/
inductive Call where
  | wake (key : Key) (keys : Option (List (Option String)))
  | bindResources (key : Key) (keys : Option (List (Option String)))
  | claimDue (t : Uuid) (r : String) (n ttl : Option ℤ) (around : Surroundings)
  | renew (key : Key) (k : Option Uuid) (g b ttl : Option ℤ)
  | markApplied (key : Key) (k : Option Uuid) (g b : Option ℤ)
  | finish (key : Key) (k : Option Uuid) (g b w : Option ℤ) (outcome : Option Outcome)
      (delay f : Option ℤ)
  | release (key : Key) (k : Option Uuid) (g : Option ℤ)

/-- The tables a committed call leaves, the time it ends, and the claims it returns. -/
def execute (db : Db) (clock : Clock) (session : Option Uuid) :
    Call → Except Failure (Db × Clock × List (Key × Target))
  | .wake key keys => do
      let (db, clock) ← wake db clock session key keys
      .ok (db, clock, [])
  | .bindResources key keys => do
      let (db, clock) ← bindResources db clock session key keys
      .ok (db, clock, [])
  | .claimDue t r n ttl around => do
      let (db, clock, claims, _) ← claimDue db clock session t r n ttl around
      .ok (db, clock, claims)
  | .renew key k g b ttl => do
      let (db, clock) ← renew db clock session key k g b ttl
      .ok (db, clock, [])
  | .markApplied key k g b => do
      let (db, clock) ← markApplied db clock session key k g b
      .ok (db, clock, [])
  | .finish key k g b w outcome delay f => do
      let (db, clock) ← finish db clock session key k g b w outcome delay f
      .ok (db, clock, [])
  | .release key k g => do
      let (db, clock) ← release db clock session key k g
      .ok (db, clock, [])

/-- The target, token and epoch a call acts under. -/
def Call.authority : Call → Option (Key × Option Uuid × Option ℤ)
  | .renew key k g _ _ => some (key, k, g)
  | .markApplied key k g _ => some (key, k, g)
  | .finish key k g _ _ _ _ _ => some (key, k, g)
  | .release key k g => some (key, k, g)
  | _ => none

structure State where
  db : Db
  now : ℤ

/-- The tables after a call, committed or rolled back. -/
def State.tablesAfter (s : State) (session : Option Uuid) (steps : ℕ → ℕ) (call : Call) : Db :=
  match execute s.db ⟨s.now, steps⟩ session call with
  | .ok (db, _, _) => db
  | .error _ => s.db

/-- What happens between two states of the store. A refused call is idle time: it leaves
the tables alone, though a ticket it drew is not given back. -/
inductive Action where
  | commit (session : Option Uuid) (steps : ℕ → ℕ) (call : Call)
      (claims : List (Key × Target))
  | idle (elapsed tickets : ℕ)

/-- Claims handed out by an action. -/
def Action.claims : Action → List (Key × Target)
  | .commit _ _ _ claims => claims
  | .idle _ _ => []

inductive Step : State → Action → State → Prop where
  | commit {s : State} {session : Option Uuid} {steps : ℕ → ℕ} {call : Call} {db : Db}
      {clock : Clock} {claims : List (Key × Target)}
      (h : execute s.db ⟨s.now, steps⟩ session call = .ok (db, clock, claims)) :
      Step s (.commit session steps call claims) ⟨db, clock.now⟩
  | idle {s : State} (elapsed tickets : ℕ) :
      Step s (.idle elapsed tickets)
        ⟨{ s.db with queueTickets := s.db.queueTickets + tickets }, s.now + elapsed⟩

/-- The store after installation: targets carried over from the first revision hold no
live lease, are queued exactly when they have a ticket, and nothing is bound yet. -/
structure State.Installed (s : State) : Prop where
  drained : ∀ key row, s.db.targets.get? key = some row → expired row.leaseUntil s.now
  queue : ∀ key row, s.db.targets.get? key = some row →
    (row.nextRun = none ↔ row.queueTicket = none) ∧ (row.token.isSome → row.nextRun.isSome)
  resources : s.db.resources = .empty
  targetResources : s.db.targetResources = .empty

end Rss.Reconcile
