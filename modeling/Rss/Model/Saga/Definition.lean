import Mathlib.Algebra.Order.Ring.Int
import Mathlib.Data.List.Basic

/-! # Saga definitions, scopes and effect keys

The pinned metadata of a saga and the failures every saga operation reports.
Hashing and canonical JSON are library code outside the repository; they enter as the
fields of `Hashing`. -/

namespace Rss.Saga

/-- Resource owner that stops an invocation. -/
inductive HistoryLimit where
  | durableCapacity
  | readBudget
  | authenticationAllowance
  deriving DecidableEq, Repr

/-- Closed recovery decisions. Diagnostics never change control flow and are left out. -/
inductive ErrorKind where
  | historyLimited (reason : HistoryLimit)
  | historyReadLimit
  | definition
  | unsupportedDefinition
  | integrity
  | protection
  | store
  | commitUnknown
  | rollbackUnknown
  | fenced
  | conflict
  | cancelled
  | deadline
  | effectUnknown
  | invalidBudget
  | storageContract
  | leaseInput
  | receiptUnavailable
  | receiptType
  deriving DecidableEq, Repr

/-- An interruption around a possibly mutating operation proves nothing about it. -/
def ErrorKind.uncertain : ErrorKind → ErrorKind
  | .cancelled | .deadline => .commitUnknown
  | kind => kind

abbrev Result := Except ErrorKind

/-- External effect phase, part of the stable idempotency key. -/
inductive Phase where
  | forward
  | compensation
  deriving DecidableEq, Repr

def Phase.asStr : Phase → String
  | .forward => "forward"
  | .compensation => "compensation"

structure Uuid where
  bytes : List UInt8
  length_eq : bytes.length = 16
  deriving DecidableEq, Repr

/-- Tenant-scoped instance identity; the tenant is kept in its canonical text. -/
structure Scope where
  tenant : String
  id : Uuid
  deriving DecidableEq, Repr

/-- Pinned contract identity and action generation, in their canonical texts. -/
structure Identity where
  contract : String
  version : String
  schema : String
  generation : String
  deriving DecidableEq, Repr

def validateName (value : String) : Result Unit :=
  if value.isEmpty ∨ value.utf8ByteSize > 255 ∨
      ¬ value.toList.all (fun c => c.isAlphanum || ['_', '.', ':', '-'].contains c) then
    .error .definition
  else
    .ok ()

structure StepSpec where
  name : String
  receiptSchema : String
  forwardScope : String
  compensationScope : String
  maxFailures : UInt32
  deriving DecidableEq, Repr

def StepSpec.new (name receiptSchema forwardScope compensationScope : String)
    (maxFailures : UInt32) : Result StepSpec := do
  for value in [name, receiptSchema, forwardScope, compensationScope] do
    validateName value
  if maxFailures = 0 then
    .error .definition
  else
    .ok { name, receiptSchema, forwardScope, compensationScope, maxFailures }

/-- Validated immutable saga metadata together with its recorded fingerprint. -/
structure Definition where
  owner : String
  identity : Identity
  steps : List StepSpec
  fingerprint : List UInt8
  deriving DecidableEq, Repr

/-- Library code used by the saga core: `serde_json_canonicalizer` and `sha2`. -/
structure Hashing where
  canonicalJson : String → Identity → List StepSpec → Option (List UInt8)
  sha256 : List UInt8 → List UInt8

namespace Definition

/-- Every step passes its own constructor and no step name was seen before. -/
def checkSteps : List String → List StepSpec → Result Unit
  | _, [] => .ok ()
  | names, step :: steps => do
      let _ ← StepSpec.new step.name step.receiptSchema step.forwardScope
        step.compensationScope step.maxFailures
      if names.contains step.name then
        .error .definition
      else
        checkSteps (step.name :: names) steps

def new (H : Hashing) (owner : String) (identity : Identity) (steps : List StepSpec) :
    Result Definition := do
  validateName owner
  if steps.isEmpty ∨ steps.length > 1024 then
    .error .definition
  else do
    checkSteps [] steps
    match H.canonicalJson owner identity steps with
    | none => .error .definition
    | some bytes => .ok { owner, identity, steps, fingerprint := H.sha256 bytes }

/-- Untrusted storage data is valid when rebuilding it gives the same value. -/
def validate (H : Hashing) (d : Definition) : Result Unit := do
  let expected ← new H d.owner d.identity d.steps
  if expected ≠ d then .error .definition else .ok ()

/-- `definition.steps()[step].max_failures()`; callers index within bounds. -/
def maxFailures (d : Definition) (step : ℕ) : ℕ :=
  match d.steps[step]? with
  | some spec => spec.maxFailures.toNat
  | none => 0

end Definition

/-- Opaque retry-stable external idempotency key. -/
structure EffectKey where
  bytes : List UInt8
  deriving DecidableEq, Repr

/-- `u64::to_be_bytes`. -/
def toBeBytes (n : ℕ) : List UInt8 :=
  (List.range 8).map (fun i => UInt8.ofNat (n / 256 ^ (7 - i)))

def textBytes (s : String) : List UInt8 := s.toUTF8.toList

/-- The historical v1 key: tenant, instance, pinned identity, step name, phase and effect
scope, each framed by its length. Attempts do not enter it. -/
def Definition.effectKey (H : Hashing) (d : Definition) (scope : Scope) (step : ℕ)
    (phase : Phase) : Result EffectKey :=
  match d.steps[step]? with
  | none => .error .integrity
  | some spec =>
      let effect := match phase with
        | .forward => spec.forwardScope
        | .compensation => spec.compensationScope
      let fields := [textBytes scope.tenant, scope.id.bytes, textBytes d.identity.contract,
        textBytes d.identity.version, textBytes d.identity.schema,
        textBytes d.identity.generation, textBytes spec.name, textBytes phase.asStr,
        textBytes effect]
      let frames := fields.flatMap (fun bytes => toBeBytes bytes.length ++ bytes)
      .ok ⟨H.sha256 (textBytes "rss.saga.idempotency-key.v1" ++ frames)⟩

end Rss.Saga
