import Rss.Library.Fallible
import Rss.Model.Saga.Definition

/-! # Journal events and the replayed progress

One transition function serves live execution and restart. Counters that the code keeps
in `u32`, `u64` and `usize` are natural numbers; the additions that can overflow are the
checked ones. -/

namespace Rss.Saga

/-! ### Byte accounting -/

/-- Conservative bytes of a receipt-free event. -/
def eventBytes : ℕ := 256

/-- Maximum plaintext, also the work charged for one authentication. -/
def plaintextBytes : ℕ := 1024 * 1024

def aadBytes : ℕ := 4096

/-- Largest accounted protected receipt. -/
def receiptBytes : ℕ := 1024 + 6 * (1024 + 64) + 5 * (2 * 1024 * 1024 + 4096 + 32)

/-! ### Protected receipts -/

structure Ciphertext where
  keyRef : String
  bytes : List UInt8
  deriving DecidableEq, Repr

def Ciphertext.new (keyRef : String) (bytes : List UInt8) : Result Ciphertext :=
  if keyRef.isEmpty ∨ keyRef.utf8ByteSize > 1024 ∨ bytes.isEmpty ∨
      bytes.length > 2 * 1024 * 1024 then
    .error .protection
  else
    .ok { keyRef, bytes }

/-- Encrypted receipt and integrity metadata; stored bytes prove nothing by themselves. -/
structure ProtectedReceipt where
  ciphertext : Ciphertext
  keyId : String
  digest : List UInt8
  aad : List UInt8
  format : ℕ
  attempt : ℕ
  seq : ℕ
  deriving DecidableEq, Repr

/-- Conservative JSON envelope charge, after all variable-size parts are validated. -/
def ProtectedReceipt.encodedBytes (r : ProtectedReceipt) : Result ℕ :=
  if r.ciphertext.keyRef.isEmpty ∨ r.ciphertext.keyRef.utf8ByteSize > 1024 ∨
      r.ciphertext.bytes.isEmpty ∨ r.ciphertext.bytes.length > 2 * 1024 * 1024 ∨
      r.aad.length > aadBytes ∨ r.keyId.isEmpty ∨ r.keyId.utf8ByteSize > 64 ∨
      r.digest.length ≠ 32 ∨ r.format ≠ 1 then
    .error .integrity
  else
    .ok (1024 + 6 * (r.ciphertext.keyRef.utf8ByteSize + r.keyId.utf8ByteSize) +
      5 * (r.ciphertext.bytes.length + r.aad.length + r.digest.length))

/-! ### Events -/

/-- Durable instance status. Compensation failure is paused rather than terminal. -/
inductive Status where
  | ready
  | running
  | compensating
  | compensationFailed
  | succeeded
  | compensated
  deriving DecidableEq, Repr

def Status.isTerminal : Status → Bool
  | .succeeded | .compensated => true
  | _ => false

inductive EventKind where
  | forwardIntent
  | forwardApplied
  | forwardNotApplied
  | forwardProbeNotApplied
  | abort
  | compensationIntent
  | compensationApplied
  | compensationNotApplied
  | compensationFailed
  | resume
  deriving DecidableEq, Repr

def EventKind.phase : EventKind → Phase
  | .forwardIntent | .forwardApplied | .forwardNotApplied | .forwardProbeNotApplied
  | .abort => .forward
  | _ => .compensation

/-- Untrusted journal data; replay validates order, transition and receipt pairing. -/
structure Event where
  seq : ℕ
  step : ℕ
  attempt : ℕ
  kind : EventKind
  receipt : Option ProtectedReceipt
  deriving DecidableEq, Repr

/-- Conservative complete event charge. -/
def Event.encodedBytes (e : Event) : Result ℕ :=
  match e.receipt with
  | none => .ok eventBytes
  | some r => do
      let n ← r.encodedBytes
      return eventBytes + n

structure Intent where
  step : ℕ
  attempt : ℕ
  kind : EventKind
  deriving DecidableEq, Repr

def Intent.event (i : Intent) (seq : ℕ) : Event :=
  { seq, step := i.step, attempt := i.attempt, kind := i.kind, receipt := none }

/-! ### Progress -/

/-- Fixed-size projection of a journal prefix. -/
structure Progress where
  status : Status
  forward : ℕ
  forwardAttempt : ℕ
  forwardFailures : ℕ
  compensation : Option ℕ
  compensationAttempt : ℕ
  pending : Option Intent
  lastKind : Option EventKind
  deriving DecidableEq, Repr

namespace Progress

def empty : Progress where
  status := .ready
  forward := 0
  forwardAttempt := 0
  forwardFailures := 0
  compensation := none
  compensationAttempt := 0
  pending := none
  lastKind := none

/-- Entries and bytes that already admitted obligations still need. -/
def reserve (p : Progress) : Result (ℕ × ℕ) :=
  if p.forward > 1024 ∨ (∃ c ∈ p.compensation, c ≥ 1024) ∨
      (∃ i ∈ p.pending, i.step ≥ 1024 ∨
        ¬ (i.kind = .forwardIntent ∨ i.kind = .compensationIntent)) then
    .error .integrity
  else if p.status.isTerminal then
    .ok (0, 0)
  else if p.status = .ready ∨ p.status = .running then
    let entries := 2 * p.forward + 1 + if p.pending.isSome then 3 else 0
    .ok (entries, entries * eventBytes + if p.pending.isSome then receiptBytes else 0)
  else
    let earlier := p.compensation.getD 0
    let current :=
      if p.pending.isSome then 1
      else if p.compensationAttempt = 0 ∨ p.lastKind = some .resume then 2
      else 0
    let entries := 2 * earlier + current
    .ok (entries, entries * eventBytes)

/-- The pending intent is the one of the given kind at the coordinates of the event. -/
def Matches (p : Progress) (e : Event) (kind : EventKind) : Prop :=
  p.pending = some { step := e.step, attempt := e.attempt, kind }

instance (p : Progress) (e : Event) (kind : EventKind) : Decidable (p.Matches e kind) :=
  inferInstanceAs (Decidable (_ = _))

/-- The part of a transition that depends on the event kind. -/
def advance (p : Progress) (d : Definition) (e : Event) : Result Progress :=
  match e.kind with
  | .forwardIntent =>
      if ¬ (p.status = .ready ∨ p.status = .running) ∨ p.pending.isSome ∨
          e.step ≠ p.forward ∨ some e.attempt ≠ checkedAdd 32 p.forwardAttempt 1 ∨
          p.forwardFailures ≥ d.maxFailures e.step then
        .error .integrity
      else
        .ok { p with
          forwardAttempt := e.attempt
          pending := some { step := e.step, attempt := e.attempt, kind := e.kind }
          status := .running }
  | .forwardApplied =>
      if ¬ p.Matches e .forwardIntent then
        .error .integrity
      else match e.receipt with
        | none => .error .integrity
        | some receipt =>
            if receipt.attempt ≠ e.attempt ∨ receipt.seq ≠ e.seq then
              .error .integrity
            else
              .ok { p with
                forward := p.forward + 1
                forwardAttempt := 0
                forwardFailures := 0
                pending := none
                status := if p.forward + 1 = d.steps.length then .succeeded else .running }
  | .forwardNotApplied =>
      if ¬ p.Matches e .forwardIntent then
        .error .integrity
      else do
        let failures ← okOr (checkedAdd 32 p.forwardFailures 1) .integrity
        .ok { p with pending := none, forwardFailures := failures, status := .ready }
  | .forwardProbeNotApplied =>
      if ¬ p.Matches e .forwardIntent then
        .error .integrity
      else
        .ok { p with pending := none, status := .ready }
  | .abort =>
      if p.status ≠ .ready ∨ p.pending.isSome ∨ e.step ≠ p.forward ∨
          e.attempt ≠ p.forwardAttempt ∨ p.forwardFailures < d.maxFailures e.step ∨
          p.lastKind ≠ some .forwardNotApplied then
        .error .integrity
      else
        .ok { p with
          compensation := checkedSub p.forward 1
          compensationAttempt := 0
          status := if checkedSub p.forward 1 = none then .compensated else .compensating }
  | .compensationIntent =>
      if p.status ≠ .compensating ∨ p.pending.isSome ∨ p.compensation ≠ some e.step ∨
          some e.attempt ≠ checkedAdd 32 p.compensationAttempt 1 then
        .error .integrity
      else
        .ok { p with
          compensationAttempt := e.attempt
          pending := some { step := e.step, attempt := e.attempt, kind := e.kind } }
  | .compensationApplied =>
      if p.status ≠ .compensating ∨ ¬ p.Matches e .compensationIntent then
        .error .integrity
      else
        .ok { p with
          pending := none
          compensation := checkedSub e.step 1
          compensationAttempt := 0
          status := if checkedSub e.step 1 = none then .compensated else .compensating }
  | .compensationNotApplied =>
      if p.status ≠ .compensating ∨ ¬ p.Matches e .compensationIntent then
        .error .integrity
      else
        .ok { p with pending := none }
  | .compensationFailed =>
      if p.status ≠ .compensating ∨ ¬ p.Matches e .compensationIntent then
        .error .integrity
      else
        .ok { p with pending := none, status := .compensationFailed }
  | .resume =>
      if p.status ≠ .compensationFailed ∨ p.pending.isSome ∨ p.compensation ≠ some e.step ∨
          e.attempt ≠ p.compensationAttempt then
        .error .integrity
      else
        .ok { p with status := .compensating }

def transition (p : Progress) (d : Definition) (e : Event) : Result Progress :=
  if p.status.isTerminal ∨ e.step ≥ d.steps.length ∨ e.attempt = 0 ∨
      decide (e.kind = .forwardApplied) ≠ e.receipt.isSome then
    .error .integrity
  else do
    let q ← p.advance d e
    .ok { q with lastKind := some e.kind }

end Progress

end Rss.Saga
