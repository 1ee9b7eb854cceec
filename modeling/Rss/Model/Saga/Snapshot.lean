import Rss.Model.Saga.Progress

/-! # Bounded history and snapshots

Finite capacity, read budgets and the validated journal prefix they bound. -/

namespace Rss.Saga

/-- `i64::MAX`, the largest capacity the PostgreSQL owner can represent. -/
def i64Max : ℕ := 2 ^ 63 - 1

/-! ### Capacity and read budget -/

/-- Positive finite per-instance capacity. -/
structure HistoryCapacity where
  maxEntries : ℕ
  maxEncodedBytes : ℕ
  entries_pos : 0 < maxEntries
  bytes_pos : 0 < maxEncodedBytes
  entries_le : maxEntries ≤ i64Max
  bytes_le : maxEncodedBytes ≤ i64Max
  deriving Repr

instance : DecidableEq HistoryCapacity := fun a b =>
  decidable_of_iff (a.maxEntries = b.maxEntries ∧ a.maxEncodedBytes = b.maxEncodedBytes)
    (by cases a; cases b; simp)

namespace HistoryCapacity

def new (maxEntries maxEncodedBytes : ℕ) : Result HistoryCapacity :=
  if h : maxEntries = 0 ∨ maxEncodedBytes = 0 ∨ maxEntries > i64Max ∨
      maxEncodedBytes > i64Max then
    .error .invalidBudget
  else
    .ok ⟨maxEntries, maxEncodedBytes, by omega, by omega, by omega, by omega⟩

/-- Both measured coordinates fit. -/
def Contains (c : HistoryCapacity) (entries bytes : ℕ) : Prop :=
  entries ≤ c.maxEntries ∧ bytes ≤ c.maxEncodedBytes

instance (c : HistoryCapacity) (entries bytes : ℕ) : Decidable (c.Contains entries bytes) :=
  inferInstanceAs (Decidable (_ ∧ _))

/-- Monotonic explicit growth. -/
def Extends (c previous : HistoryCapacity) : Prop :=
  c.maxEntries ≥ previous.maxEntries ∧ c.maxEncodedBytes ≥ previous.maxEncodedBytes ∧
    c ≠ previous

instance (c previous : HistoryCapacity) : Decidable (c.Extends previous) :=
  inferInstanceAs (Decidable (_ ∧ _ ∧ _))

end HistoryCapacity

/-- Per-read bounds on loaded history and authenticated plaintext. -/
structure ReadBudget where
  history : HistoryCapacity
  authenticationBytes : ℕ
  authentication_pos : 0 < authenticationBytes
  authentication_le : authenticationBytes ≤ i64Max
  deriving Repr

instance : DecidableEq ReadBudget := fun a b =>
  decidable_of_iff (a.history = b.history ∧ a.authenticationBytes = b.authenticationBytes)
    (by cases a; cases b; simp)

namespace ReadBudget

def new (history : HistoryCapacity) (authenticationBytes : ℕ) : Result ReadBudget :=
  if h : authenticationBytes = 0 ∨ authenticationBytes > i64Max then
    .error .invalidBudget
  else
    .ok ⟨history, authenticationBytes, by omega, by omega⟩

def check (read : ReadBudget) (entries bytes receipts : ℕ) : Result Unit := do
  let work ← okOr (checkedMul 64 receipts plaintextBytes) .historyReadLimit
  if ¬ read.history.Contains entries bytes ∨ work > read.authenticationBytes then
    .error .historyReadLimit
  else
    .ok ()

end ReadBudget

/-! ### Heads -/

/-- Small provider metadata: the projection recovery compares with its own replay. -/
structure HistoryHead where
  revision : ℕ
  encodedBytes : ℕ
  capacity : HistoryCapacity
  progress : Progress
  deriving DecidableEq, Repr

namespace HistoryHead

/-- Observed history fits the caller's budget. -/
def checkRead (h : HistoryHead) (read : ReadBudget) : Result Unit :=
  read.check h.revision h.encodedBytes h.progress.forward

def reserve (h : HistoryHead) : Result (ℕ × ℕ) := h.progress.reserve

def checkCapacity (h : HistoryHead) : Result (ℕ × ℕ) := do
  let (entries, bytes) ← h.reserve
  let entries ← okOr (checkedAdd 64 h.revision entries) (.historyLimited .durableCapacity)
  let bytes ← okOr (checkedAdd 64 h.encodedBytes bytes) (.historyLimited .durableCapacity)
  if ¬ h.capacity.Contains entries bytes then
    .error (.historyLimited .durableCapacity)
  else
    .ok (entries, bytes)

/-- Receipts an admitted settlement may leave to authenticate. -/
def admittedReceipts (h : HistoryHead) : ℕ :=
  h.progress.forward +
    if h.progress.pending.isSome ∨ h.progress.lastKind = some .resume then 1 else 0

/-- Durable capacity and the worker's ability to recover the settlement. -/
def checkAdmission (h : HistoryHead) (read : ReadBudget) : Result Unit := do
  let (entries, bytes) ← h.checkCapacity
  (read.check entries bytes h.admittedReceipts).mapError
    (fun _ => .historyLimited .readBudget)

end HistoryHead

/-! ### Snapshots -/

/-- Independent discovery sets derived from the same admission rule. -/
inductive CandidateFilter where
  | runnable
  | capacityBlocked
  deriving DecidableEq, Repr

/-- Complete bounded validated history. -/
structure Snapshot where
  definition : Definition
  events : List Event
  receiptSequences : List ℕ
  head : HistoryHead
  read : ReadBudget
  deriving DecidableEq, Repr

namespace Snapshot

def empty (H : Hashing) (definition : Definition) (capacity : HistoryCapacity)
    (read : ReadBudget) : Result Snapshot := do
  definition.validate H
  .ok {
    definition
    events := []
    receiptSequences := []
    head := { revision := 0, encodedBytes := 0, capacity, progress := Progress.empty }
    read }

def revision (s : Snapshot) : ℕ := s.head.revision

def status (s : Snapshot) : Status := s.head.progress.status

def progress (s : Snapshot) : Progress := s.head.progress

def transition (s : Snapshot) (e : Event) : Result HistoryHead := do
  let progress ← s.head.progress.transition s.definition e
  let revision ← okOr (checkedAdd 64 s.revision 1) (.historyLimited .durableCapacity)
  let charge ← e.encodedBytes
  let encodedBytes ←
    okOr (checkedAdd 64 s.head.encodedBytes charge) (.historyLimited .durableCapacity)
  .ok { revision, encodedBytes, capacity := s.head.capacity, progress }

def prepare (s : Snapshot) (e : Event) (admission : Bool) : Result HistoryHead :=
  if e.seq ≠ s.revision then
    .error (if admission then .conflict else .integrity)
  else do
    let after ← s.transition e
    let _ ← (if admission then after.checkAdmission s.read else after.checkRead s.read)
    .ok after

def accept (s : Snapshot) (e : Event) (head : HistoryHead) : Snapshot :=
  { s with
    receiptSequences :=
      if e.kind = .forwardApplied then s.receiptSequences ++ [s.events.length]
      else s.receiptSequences
    events := s.events ++ [e]
    head }

/-- Replay one persisted event; its admission is not decided again. -/
def replay (s : Snapshot) (e : Event) : Result Snapshot := do
  let after ← s.prepare e false
  .ok (s.accept e after)

/-- One new transition including its settlement reservation. -/
def apply (s : Snapshot) (e : Event) : Result Snapshot := do
  let after ← s.prepare e true
  .ok (s.accept e after)

/-- `replay` as the call on `&mut self` it is. -/
def replayMut (e : Event) : ExceptT ErrorKind (StateM Snapshot) Unit := do
  let s ← get
  let after ← liftExcept (s.prepare e false)
  set (s.accept e after)

/-- `apply` as the call on `&mut self` it is. -/
def applyMut (e : Event) : ExceptT ErrorKind (StateM Snapshot) Unit := do
  let s ← get
  let after ← liftExcept (s.prepare e true)
  set (s.accept e after)

def receipt (s : Snapshot) (step : ℕ) : Result Event :=
  okOr (do let seq ← s.receiptSequences[step]?; s.events[seq]?) .receiptUnavailable

def extendCapacity (s : Snapshot) (expected next : HistoryCapacity) : Result Snapshot :=
  if s.head.capacity ≠ expected ∨ ¬ next.Extends expected then
    .error .conflict
  else
    .ok { s with head := { s.head with capacity := next } }

/-- The event that would continue the saga; absent when the attempt ordinal is exhausted. -/
def nextEvent (s : Snapshot) : Result (Option Event) := do
  let p := s.progress
  let (step, attempt, kind) ←
    if p.status = .compensating then do
      let step ← okOr p.compensation .integrity
      pure (step, checkedAdd 32 p.compensationAttempt 1, EventKind.compensationIntent)
    else do
      let spec ← okOr s.definition.steps[p.forward]? .integrity
      if p.forwardFailures ≥ spec.maxFailures.toNat then
        pure (p.forward, some p.forwardAttempt, EventKind.abort)
      else
        pure (p.forward, checkedAdd 32 p.forwardAttempt 1, EventKind.forwardIntent)
  .ok (attempt.map (fun attempt => { seq := s.revision, step, attempt, kind, receipt := none }))

/-- Discovery set of a validated snapshot, independent of the worker's read budget. -/
def candidateFilter (s : Snapshot) : Result (Option CandidateFilter) :=
  if s.status.isTerminal ∨ s.status = .compensationFailed then
    .ok none
  else if s.progress.pending.isSome then
    .ok (some .runnable)
  else do
    match ← s.nextEvent with
    | none => .ok none
    | some e =>
        let after ← s.transition e
        match after.checkCapacity with
        | .ok _ => .ok (some .runnable)
        | .error (.historyLimited .durableCapacity) => .ok (some .capacityBlocked)
        | .error e => .error e

end Snapshot

end Rss.Saga
