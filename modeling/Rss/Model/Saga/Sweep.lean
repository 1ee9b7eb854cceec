import Rss.Library.Sql
import Rss.Model.Saga.Snapshot

/-! # Sweeps of the saga executor

`Executor::run_once` with the part of `Executor::run` that spends an advance budget. What the
executor awaits is a service of the world it runs in: a call answers and leaves a world, in which
other workers may have done anything. Uuids are compared as their 128 bits are. -/

namespace Rss.Sweep

open Rss.Sql (Uuid)
open Rss.Saga (ErrorKind HistoryLimit Result Status CandidateFilter)

structure Scope where
  tenant : Uuid
  id : Uuid
  deriving DecidableEq, Repr

/-- What a `Control` reports of its own accord. -/
inductive Interruption where
  | cancelled | deadline
  deriving DecidableEq, Repr

def Interruption.kind : Interruption → ErrorKind
  | .cancelled => .cancelled
  | .deadline => .deadline

/-! ### One invocation -/

inductive RunStop where
  | completed | paused | yielded
  | historyLimited (reason : HistoryLimit)
  deriving DecidableEq, Repr

structure Report where
  advances : ℕ
  stop : RunStop
  deriving DecidableEq, Repr

/-- What the executor awaits for an instance. The lease is renewed beside `prepare` and `advance`:
a failed renewal drops them and is the outcome of the whole work, `none` where they end first. -/
structure Services (σ : Type) where
  check : σ → Option Interruption × σ
  claim : Scope → σ → Result Unit × σ
  prepare : Scope → σ → (Result Unit × Option ErrorKind) × σ
  status : Scope → σ → Status
  advance : Scope → σ → (Result Unit × Option ErrorKind) × σ
  release : Scope → σ → Result Unit × σ

variable {σ : Type}

def report (status : Status) (advances : ℕ) : Report where
  advances
  stop :=
    if status.isTerminal then .completed
    else if status = .compensationFailed then .paused
    else .yielded

def settled (status : Status) : Bool := status.isTerminal || status = .compensationFailed

namespace Services

/-- The loop of `recover`, with the advances left and those consumed. -/
def drive (W : Services σ) (scope : Scope) : ℕ → ℕ → σ → Result Report × σ
  | 0, advances, s => (.ok (report (W.status scope s) advances), s)
  | left + 1, advances, s =>
      match W.check s with
      | (some i, s) => (.error i.kind, s)
      | (none, s) =>
          if settled (W.status scope s) then
            (.ok (report (W.status scope s) advances), s)
          else
            match W.advance scope s with
            | ((_, some renewal), s) => (.error renewal, s)
            | ((.error (.historyLimited reason), none), s) =>
                (.ok { report (W.status scope s) advances with stop := .historyLimited reason }, s)
            | ((.error e, none), s) => (.error e, s)
            | ((.ok (), none), s) => drive W scope left (advances + 1) s

def recover (W : Services σ) (scope : Scope) (budget : ℕ) (s : σ) : Result Report × σ :=
  match W.prepare scope s with
  | ((_, some renewal), s) => (.error renewal, s)
  | ((.error e, none), s) => (.error e, s)
  | ((.ok (), none), s) => W.drive scope budget 0 s

/-- Outcomes after which the lease is left to expire. -/
def keepsLease : Result Report → Bool
  | .error .commitUnknown | .error .rollbackUnknown | .error .cancelled | .error .deadline
  | .error .fenced => true
  | _ => false

/-- `Executor::run`, the entry without a resumption. -/
def run (W : Services σ) (scope : Scope) (budget : ℕ) (s : σ) : Result Report × σ :=
  if budget = 0 then (.error .invalidBudget, s)
  else
    match W.check s with
    | (some i, s) => (.error i.kind, s)
    | (none, s) =>
        match W.claim scope s with
        | (.error e, s) => (.error e, s)
        | (.ok (), s) =>
            let (result, s) := W.recover scope budget s
            if keepsLease result then (result, s)
            else
              match W.release scope s with
              | (.error e, s) => (.error e, s)
              | (.ok (), s) => (result, s)

end Services

/-! ### One sweep -/

structure SweepBudget where
  instances : ℕ
  advances : ℕ
  instances_pos : 0 < instances
  instances_le : instances ≤ 10000
  advances_pos : 0 < advances

def SweepBudget.new (instances advances : UInt32) : Result SweepBudget :=
  if h : instances = 0 ∨ instances > 10000 ∨ advances = 0 then .error .invalidBudget
  else .ok {
    instances := instances.toNat
    advances := advances.toNat
    instances_pos := Nat.pos_of_ne_zero fun h' => h (.inl (UInt32.toNat.inj h'))
    instances_le := Nat.le_of_not_lt fun h' => h (.inr (.inl h'))
    advances_pos := Nat.pos_of_ne_zero fun h' => h (.inr (.inr (UInt32.toNat.inj h'))) }

structure InstanceResult where
  scope : Scope
  result : Result Report

inductive SweepStop where
  | pageComplete | cancelled | deadline
  deriving DecidableEq, Repr

structure SweepReport where
  items : List InstanceResult
  nextCursor : Option Scope
  stop : SweepStop

def sweepStop (kind : ErrorKind) : SweepStop :=
  if kind = .cancelled then .cancelled else .deadline

/-- The loop of `validate_candidates`. -/
def inOrder (tenant : Uuid) : Option Uuid → List Scope → Bool
  | _, [] => true
  | after, scope :: scopes =>
      scope.tenant = tenant && !after.any (fun id => scope.id ≤ id) &&
        inOrder tenant (some scope.id) scopes

def validateCandidates (candidates : List Scope) (tenant : Uuid) (cursor : Option Scope)
    (limit : ℕ) : Result Unit :=
  if candidates.length > limit then .error .integrity
  else if inOrder tenant (cursor.map Scope.id) candidates then .ok ()
  else .error .integrity

/-- `Store::candidates` under the control of the caller. -/
abbrev Discovery (σ : Type) :=
  CandidateFilter → Uuid → Option Uuid → ℕ → σ → Result (List Scope) × σ

def interrupted : Result Report → Option ErrorKind
  | .error .cancelled => some .cancelled
  | .error .deadline => some .deadline
  | _ => none

/-- The loop of `run_once` over the candidates. -/
def admitPage (W : Services σ) : List Scope → SweepReport → σ → SweepReport × σ
  | [], report, s => (report, s)
  | scope :: scopes, report, s =>
      match W.check s with
      | (some i, s) => ({ report with stop := sweepStop i.kind }, s)
      | (none, s) =>
          let (result, s) := W.run scope 1 s
          let report := { report with
            items := report.items ++ [⟨scope, result⟩], nextCursor := some scope }
          match interrupted result with
          | some kind => ({ report with stop := sweepStop kind }, s)
          | none => admitPage W scopes report s

def runOnce (W : Services σ) (candidates : Discovery σ) (tenant : Uuid) (cursor : Option Scope)
    (budget : SweepBudget) (s : σ) : Result SweepReport × σ :=
  if cursor.any fun scope => scope.tenant ≠ tenant then (.error .definition, s)
  else
    let limit := min budget.instances budget.advances
    match candidates .runnable tenant (cursor.map Scope.id) limit s with
    | (.error e, s) => (.error e, s)
    | (.ok scopes, s) =>
        match validateCandidates scopes tenant cursor limit with
        | .error e => (.error e, s)
        | .ok () =>
            if scopes.isEmpty then (.ok ⟨[], none, .pageComplete⟩, s)
            else
              let (report, s) := admitPage W scopes ⟨[], cursor, .pageComplete⟩ s
              (.ok report, s)

end Rss.Sweep
