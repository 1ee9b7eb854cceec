import Mathlib.Data.List.Basic
import Rss.Library.Fallible

/-! # Observation streams

Policies, reported batches and the integrity state of one stream. -/

namespace Rss.Observation

inductive ErrorKind where
  | invalidInput
  | invariant
  | conflict
  | staleEpoch
  | lifecycleConflict
  deriving DecidableEq, Repr

abbrev Result (α : Type) : Type := Except ErrorKind α

/-! ### Identifiers and reports -/

/-- `char::is_control`, the category `Cc`. -/
def isControl (c : Char) : Bool := c.val < 32 || (127 ≤ c.val && c.val < 160)

/-- Bounded opaque identifier. -/
structure Id where
  value : String
  nonempty : value ≠ ""
  size_le : value.utf8ByteSize ≤ 256
  printable : ∀ c ∈ value.toList, isControl c = false
  deriving DecidableEq, Repr

def Id.new (value : String) : Result Id :=
  if h : value = "" ∨ value.utf8ByteSize > 256 ∨ value.toList.any isControl = true then
    .error .invalidInput
  else
    .ok ⟨value, fun he => h (.inl he), Nat.not_lt.mp (fun hs => h (.inr (.inl hs))),
      fun c hc => Bool.eq_false_iff.mpr
        (fun ht => h (.inr (.inr (List.any_eq_true.mpr ⟨c, hc, ht⟩))))⟩

structure Coverage where
  id : Id
  version : Id
  definition : Id
  format : Id
  deriving DecidableEq, Repr

/-- One explicit fact operation; no value is a delete. -/
structure Change where
  key : Id
  value : Option (List UInt8)
  deriving DecidableEq, Repr

inductive Body where
  | snapshot (changes : List Change)
  | delta (baseline : Id) (previous : ℕ) (changes : List Change)
  | partial_ (changes : List Change)
  | failed (code : Id)
  deriving DecidableEq, Repr

structure Batch where
  id : Id
  sequence : ℕ
  observedAt : ℕ
  coverage : Coverage
  body : Body
  deriving DecidableEq, Repr

/-! ### Policies -/

/-- `i64::MAX` seconds. -/
def maxSeconds : ℕ := 2 ^ 63 - 1

structure Policy where
  retrySeconds : ℕ
  safetySeconds : ℕ
  baselineSeconds : ℕ
  retry_pos : 0 < retrySeconds
  safety_pos : 0 < safetySeconds
  baseline_pos : 0 < baselineSeconds
  retention_le : retrySeconds + safetySeconds ≤ maxSeconds
  baseline_le : baselineSeconds ≤ maxSeconds
  deriving Repr

def Policy.new (retrySeconds safetySeconds baselineSeconds : ℕ) : Result Policy :=
  if h : retrySeconds = 0 ∨ safetySeconds = 0 ∨ baselineSeconds = 0 ∨
      ¬ retrySeconds + safetySeconds ≤ maxSeconds ∨ baselineSeconds > maxSeconds then
    .error .invalidInput
  else
    .ok ⟨retrySeconds, safetySeconds, baselineSeconds, by omega, by omega, by omega, by omega,
      by omega⟩

/-! ### Integrity state -/

/-- Persisted reasons an incremental chain cannot safely advance. -/
inductive NeedSnapshot where
  | missingBaseline
  | baselineMismatch
  | gap
  | baselineExpired
  | partial_
  | collectionFailed
  deriving DecidableEq, Repr

inductive SyncOutcome where
  | snapshot
  | delta
  | needSnapshot (reason : NeedSnapshot)
  | stale
  deriving DecidableEq, Repr

def SyncOutcome.isApplicable : SyncOutcome → Bool
  | .snapshot | .delta => true
  | _ => false

structure Baseline where
  id : Id
  coverage : Coverage
  expiresAt : ℕ
  deriving DecidableEq, Repr

structure State where
  version : ℕ
  revision : ℕ
  highWater : Option ℕ
  cursor : Option ℕ
  baseline : Option Baseline
  need : Option NeedSnapshot
  deriving DecidableEq, Repr

/-- A transition with its immutable before and after. -/
structure Decision where
  version : ℕ
  before : State
  after : State
  outcome : SyncOutcome
  deriving DecidableEq, Repr

namespace State

def initial : State where
  version := 1
  revision := 0
  highWater := none
  cursor := none
  baseline := none
  need := none

def require (s : State) (reason : NeedSnapshot) : State × SyncOutcome :=
  ({ s with need := some reason }, .needSnapshot reason)

def deltaFailure (s : State) (batch : Batch) (baseline : Id) (previous now : ℕ) :
    Option NeedSnapshot :=
  match s.need with
  | some reason => some reason
  | none =>
      match s.baseline with
      | none => some .missingBaseline
      | some active =>
          if now ≥ active.expiresAt then
            some .baselineExpired
          else if active.id ≠ baseline ∨ active.coverage ≠ batch.coverage then
            some .baselineMismatch
          else if s.cursor ≠ some previous ∨ checkedAdd 64 previous 1 ≠ some batch.sequence then
            some .gap
          else
            none

def applyNew (s : State) (batch : Batch) (receivedAt : ℕ) (policy : Policy) :
    Result (State × SyncOutcome) :=
  match batch.body with
  | .snapshot _ => do
      let expiresAt ← okOr (checkedAdd 64 receivedAt policy.baselineSeconds) .invalidInput
      .ok ({ s with
        baseline := some ⟨batch.id, batch.coverage, expiresAt⟩
        cursor := some batch.sequence
        need := none }, .snapshot)
  | .partial_ _ => .ok (s.require .partial_)
  | .failed _ => .ok (s.require .collectionFailed)
  | .delta baseline previous _ =>
      match s.deltaFailure batch baseline previous receivedAt with
      | some reason => .ok (s.require reason)
      | none => .ok ({ s with cursor := some batch.sequence }, .delta)

def advance (s : State) (batch : Batch) (receivedAt : ℕ) (policy : Policy) :
    Result Decision := do
  let revision ← okOr (checkedAdd 64 s.revision 1) .invariant
  let next := { s with revision }
  let (after, outcome) ←
    (if ∃ h ∈ s.highWater, batch.sequence ≤ h then
      .ok (next, .stale)
    else
      applyNew { next with highWater := some batch.sequence } batch receivedAt policy)
  .ok { version := 1, before := s, after, outcome }

def validBaseline (s : State) : Bool :=
  match s.baseline, s.cursor, s.need with
  | none, none, some .missingBaseline | none, none, some .partial_
  | none, none, some .collectionFailed => true
  | some b, some c, none => b.expiresAt > 0 && s.highWater = some c
  | some b, some c, some reason =>
      b.expiresAt > 0 && reason ≠ .missingBaseline && s.highWater.any (· > c)
  | _, _, _ => false

/-- The check a stored state passes before it is used. -/
def validate (s : State) : Result Unit :=
  if s.version ≠ 1 then
    .error .invalidInput
  else if s.revision = 0 then
    if s = initial then .ok () else .error .invariant
  else if s.highWater = none ∨ s.cursor.isSome ≠ s.baseline.isSome ∨ s.validBaseline = false then
    .error .invariant
  else
    .ok ()

/-- The check as parsing makes it, which has one error for every text it cannot read. -/
def parsed (s : State) : Result Unit := Except.mapError (fun _ => ErrorKind.invalidInput) s.validate

end State

/-! ### Folding reports -/

/-- What the provider hands to one transition. -/
structure Report where
  batch : Batch
  receivedAt : ℕ
  policy : Policy
  deriving Repr

/-- A recorded transition of the stream. -/
structure Entry extends Report where
  outcome : SyncOutcome
  deriving Repr

/-- The stream after a report; a report that fails to advance leaves no trace. -/
def State.record (stream : State × List Entry) (r : Report) : State × List Entry :=
  match stream.1.advance r.batch r.receivedAt r.policy with
  | .ok d => (d.after, stream.2 ++ [⟨r, d.outcome⟩])
  | .error _ => stream

def State.fold (s : State) (reports : List Report) : State × List Entry :=
  reports.foldl record (s, [])

end Rss.Observation
