import Rss.Library.Fallible
import Rss.Model.Messaging.Fence

/-! # The PostgreSQL inbox

One row of the inbox, and the transactions of `inbox.rs` and `consumer.rs` on it, statement by
statement. A transaction that changes the row holds its lock until it ends; between the
statements of one transaction those of others run. -/

namespace Rss.Messaging.Inbox

open Rss.Sql

/-- A 32-byte digest. -/
abbrev Digest := BitVec 256

inductive RejectKind where
  | permanent
  | invariant
  deriving DecidableEq, Repr

inductive Disposition where
  | succeeded
  | rejected (kind : RejectKind)
  deriving DecidableEq, Repr

/-- The columns `fingerprint` and `disposition`, null together. -/
structure Receipt where
  fingerprint : Digest
  disposition : Disposition
  deriving DecidableEq, Repr

/-- The row of one tenant, message and consumer group. -/
structure Row where
  contract : String
  leaseToken : Uuid
  leaseUntil : ℤ
  receiveCount : ℤ
  claimEpoch : ℤ
  claimLineage : BitVec 128
  receipt : Option Receipt
  deriving DecidableEq, Repr

/-- `PgInboxClaim`. -/
structure Claim where
  token : Uuid
  binding : Binding
  deriving DecidableEq, Repr

/-- The row a claim may still act on. -/
def Row.HeldBy (r : Row) (claim : Claim) (now : ℤ) : Prop :=
  r.leaseToken = claim.token ∧ r.receipt = none ∧ now < r.leaseUntil

instance (r : Row) (claim : Claim) (now : ℤ) : Decidable (r.HeldBy claim now) :=
  inferInstanceAs (Decidable (_ ∧ _))

/-! ### Statements -/

/-- The `INSERT` arm of `CLAIM_SQL`, as the triggers leave the row. -/
def insertClaim (b : Binding) (contract : String) (ttl : ℤ) (token : Uuid) (now : ℤ) : Row where
  contract := contract
  leaseToken := token
  leaseUntil := now + milliseconds ttl
  receiveCount := 1
  claimEpoch := b.epoch
  claimLineage := b.storage.lineage
  receipt := none

/-- The row may be claimed anew: it is open and its lease ended, in time or by the fence. -/
def Row.Claimable (r : Row) (b : Binding) (contract : String) (now : ℤ) : Prop :=
  r.receipt = none ∧
    (r.leaseUntil ≤ now ∨ r.claimEpoch ≠ b.epoch ∨ r.claimLineage ≠ b.storage.lineage) ∧
    r.contract = contract

instance (r : Row) (b : Binding) (contract : String) (now : ℤ) :
    Decidable (r.Claimable b contract now) :=
  inferInstanceAs (Decidable (_ ∧ _))

/-- The `UPDATE` arm; a new token rebinds the claim's epoch and lineage. -/
def Row.reclaimed (r : Row) (b : Binding) (ttl : ℤ) (token : Uuid) (receiveCount now : ℤ) : Row :=
  { r with
    leaseToken := token
    leaseUntil := now + milliseconds ttl
    receiveCount
    claimEpoch := if token = r.leaseToken then r.claimEpoch else b.epoch
    claimLineage := if token = r.leaseToken then r.claimLineage else b.storage.lineage }

/-- What a transaction is for. -/
inductive Work where
  | claim (contract : String) (ttl : ℤ)
  | extend (claim : Claim) (ttl : ℤ)
  | release (claim : Claim)
  | execute (claim : Claim) (fingerprint : Digest)
  deriving DecidableEq, Repr

def Work.heldClaim : Work → Option Claim
  | .claim _ _ => none
  | .extend c _ | .release c | .execute c _ => some c

inductive Reply where
  | acquired (token : Uuid)
  | terminal (receipt : Receipt)
  | inProgress
  | held (remaining : ℤ)
  | lost
  | released
  | committed (disposition : Disposition)
  deriving DecidableEq, Repr

/-- How far a transaction has come. -/
inductive Phase where
  | ready
  | checked
  | applied (disposition : Disposition)
  | locked (disposition : Option Disposition)
  | written
  deriving DecidableEq, Repr

/-- An open transaction. `effect` tells whether the handler's effect is part of it, `staged`
is the row it will leave, `reply` what it will report; without a reply it can only end in a
rollback. -/
structure Open where
  work : Work
  binding : Binding
  phase : Phase
  effect : Bool
  locked : Bool
  staged : Option (Option Row)
  reply : Option Reply
  deriving DecidableEq, Repr

namespace Open

def start (work : Work) (binding : Binding) : Open :=
  ⟨work, binding, .ready, false, false, none, none⟩

/-- No other transaction may lock or write the row. -/
def holds (o : Open) : Bool := o.locked || o.staged.isSome

/-- The handler returned; a rejection rolls its effect back to the savepoint. -/
def apply (o : Open) (disposition : Disposition) : Open :=
  { o with phase := .applied disposition, effect := disposition = .succeeded }

/-- `SELECT … FOR UPDATE`, which locks the row if there is one. -/
def lock (o : Open) (row : Option Row) : Option Open :=
  match o.work, o.phase with
  | .extend _ _, .ready | .release _, .ready =>
      some { o with phase := .locked none, locked := row.isSome }
  | .execute _ _, .applied d => some { o with phase := .locked (some d), locked := row.isSome }
  | _, _ => none

def stage (o : Open) (next : Option Row) (reply : Reply) : Open :=
  { o with phase := .written, staged := some next, reply := some reply }

/-- `CLAIM_SQL` and the reading that follows when it returns nothing. -/
def writeClaim (o : Open) (contract : String) (ttl : ℤ) (row : Option Row) (token : Uuid)
    (clock : Clock) : Option (Open × Clock) :=
  match row with
  | none =>
      some (o.stage (some (insertClaim o.binding contract ttl token clock.tick.now))
        (.acquired token), clock.tick)
  | some r =>
      if r.Claimable o.binding contract clock.tick.now then
        (succ r.receiveCount).map (fun count =>
          (o.stage (some (r.reclaimed o.binding ttl token count clock.tick.tick.now))
            (.acquired token), clock.tick.tick))
      else if r.contract ≠ contract then
        some ({ o with phase := .written, locked := true }, clock.tick)
      else
        some ({ o with
          phase := .written
          locked := true
          reply := some (match r.receipt with
            | some receipt => .terminal receipt
            | none => .inProgress) }, clock.tick)

/-- The writing statement of a transaction; absent when it is not due. -/
def write (o : Open) (row : Option Row) (token : Uuid) (clock : Clock) : Option (Open × Clock) :=
  match o.work, o.phase with
  | .claim contract ttl, .ready => o.writeClaim contract ttl row token clock
  | .extend c ttl, .locked _ =>
      let held := row.filter (fun r => r.HeldBy c clock.tick.now)
      match held with
      | some r =>
          let until' := clock.tick.tick.now + milliseconds ttl
          some (o.stage (some { r with leaseUntil := until' })
            (.held (max 0 (until' - clock.tick.tick.tick.now))), clock.tick.tick.tick)
      | none => some ({ o with phase := .written, reply := some .lost }, clock.tick)
  | .release c, .locked _ =>
      match row.filter (fun r => r.HeldBy c clock.tick.now) with
      | some _ => some (o.stage none .released, clock.tick)
      | none => some ({ o with phase := .written }, clock.tick)
  | .execute c fingerprint, .locked (some disposition) =>
      match row.filter (fun r => r.HeldBy c clock.tick.now) with
      | some r =>
          some (o.stage (some { r with receipt := some ⟨fingerprint, disposition⟩ })
            (.committed disposition), clock.tick)
      | none => some ({ o with phase := .written }, clock.tick)
  | _, _ => none

end Open

/-! ### Interleavings -/

structure State where
  fence : Fence
  row : Option Row
  now : ℤ
  transactions : ℕ → Option Open

/-- The transaction of one worker set to something else. -/
def State.set (s : State) (i : ℕ) (o : Option Open) : State :=
  { s with transactions := fun j => if j = i then o else s.transactions j }

/-- No other worker's transaction holds the row. -/
def State.Free (s : State) (i : ℕ) : Prop :=
  ∀ j o, j ≠ i → s.transactions j = some o → o.holds = false

inductive Action where
  | started (worker : ℕ) (work : Work)
  | checked (worker : ℕ)
  | applied (worker : ℕ) (disposition : Disposition)
  | locked (worker : ℕ)
  | wrote (worker : ℕ)
  | committed (worker : ℕ) (transaction : Open) (reply : Reply)
  | aborted (worker : ℕ)
  | elapsed
  | fenced
  deriving DecidableEq, Repr

/-- One statement of one worker, or the world. A worker may crash at any point, which rolls
its transaction back, and a commit takes effect whether or not its acknowledgement arrives.
The fence moves only while no admitted transaction shares it. -/
inductive Step : State → Action → State → Prop where
  | start {s : State} {i : ℕ} {work : Work} {binding : Binding}
      (idle : s.transactions i = none)
      (same : ∀ claim ∈ work.heldClaim, claim.binding = binding)
      (admitted : s.fence.checkExecution binding) :
      Step s (.started i work) (s.set i (some (.start work binding)))
  | check {s : State} {i : ℕ} {o : Open} {claim : Claim} {fingerprint : Digest} {r : Row}
      (running : s.transactions i = some o) (work : o.work = .execute claim fingerprint)
      (ready : o.phase = .ready) (row : s.row = some r) (held : r.HeldBy claim s.now) :
      Step s (.checked i) (s.set i (some { o with phase := .checked }))
  | apply {s : State} {i : ℕ} {o : Open} (disposition : Disposition)
      (running : s.transactions i = some o) (checked : o.phase = .checked) :
      Step s (.applied i disposition) (s.set i (some (o.apply disposition)))
  | lock {s : State} {i : ℕ} {o o' : Open} (running : s.transactions i = some o)
      (free : s.Free i) (locked : o.lock s.row = some o') :
      Step s (.locked i) (s.set i (some o'))
  | write {s : State} {i : ℕ} {o o' : Open} {token : Uuid} {steps : ℕ → ℕ} {clock : Clock}
      (running : s.transactions i = some o) (free : s.Free i)
      (triggers : o'.staged.isSome → s.fence.checkExecution o.binding)
      (written : o.write s.row token ⟨s.now, steps⟩ = some (o', clock)) :
      Step s (.wrote i) { s.set i (some o') with now := clock.now }
  | commit {s : State} {i : ℕ} {o : Open} {reply : Reply}
      (running : s.transactions i = some o) (answered : o.reply = some reply) :
      Step s (.committed i o reply) { s.set i none with row := o.staged.getD s.row }
  | abort {s : State} {i : ℕ} {o : Open} (running : s.transactions i = some o) :
      Step s (.aborted i) (s.set i none)
  | elapse {s : State} (elapsed : ℕ) : Step s .elapsed { s with now := s.now + elapsed }
  | refence {s : State} (fence : Fence) (quiet : ∀ i, s.transactions i = none) :
      Step s .fenced { s with fence }

end Rss.Messaging.Inbox
