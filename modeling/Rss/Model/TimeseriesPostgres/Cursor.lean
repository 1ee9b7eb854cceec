import Rss.Model.TimeseriesPostgres.Maintain

/-! # Continuations

`CursorKey::seal`, `CursorKey::open` and `Maintainer::step` with the continuation it is given. The
MAC of the deployment's key and the JSON text of a token are parameters. A token stands for what its
Base64 text decodes to, a payload and the tag behind it; a digest stands for what it names. -/

namespace Rss.TimeseriesPostgres

open Rss.Timeseries

/-- The domains that keep raw, aggregate and maintenance tokens apart. -/
inductive Domain where
  | raw | aggregate | maintenance
  deriving DecidableEq, Repr

def Domain.text : Domain → String
  | .raw => "rss.timeseries.pg.cursor.v1\x00"
  | .aggregate => "rss.timeseries.aggregate.v2"
  | .maintenance => "rss.timeseries.maintenance.v2"

/-- What the digest of a continuation names. -/
inductive Binding where
  | maintenance (r : MaintenanceRequest)
  | query (digest : Digest)
  deriving DecidableEq

structure Payload where
  version : ℕ
  binding : Binding
  instance_ : String
  expires : ℕ
  ordinal : ℕ
  deriving DecidableEq

structure Token (τ : Type) where
  payload : String
  tag : τ

/-- A continuation names its request; its text need not decode to a token. -/
structure Continuation (τ : Type) where
  binding : Binding
  token : Option (Token τ)

structure CursorKey (τ : Type) where
  /-- HMAC-SHA256 under the key of the deployment. -/
  mac : String → τ
  write : Payload → String
  read : String → Option Payload

namespace CursorKey

variable {τ : Type}

def seal_ (K : CursorKey τ) (domain : Domain) (p : Payload) : Continuation τ :=
  ⟨p.binding, some ⟨K.write p, K.mac (domain.text ++ K.write p)⟩⟩

/-- The ordinal of a token that was sealed for the request, here, and has not expired. -/
def open_ [DecidableEq τ] (K : CursorKey τ) (domain : Domain) (cursor : Continuation τ)
    (binding : Binding) (instance_ : String) (now : ℕ) : Except Error ℕ :=
  if cursor.binding ≠ binding then .error .invalidCursor
  else match cursor.token with
    | none => .error .invalidCursor
    | some t =>
        if K.mac (domain.text ++ t.payload) ≠ t.tag then .error .invalidCursor
        else match K.read t.payload with
          | none => .error .invalidCursor
          | some p =>
              if p.version ≠ 2 ∨ p.binding ≠ binding ∨ p.instance_ ≠ instance_ ∨ p.expires ≤ now then
                .error .invalidCursor
              else .ok p.ordinal

end CursorKey

/-! ### A step with its continuation -/

inductive Progress (τ : Type) where
  | more (processed : ℕ) (next : Continuation τ)
  | complete (processed : ℕ) (fence : String)
  | blocked (reason : MaintenanceBlock)

/-- A storage deployment: what it digests and seals with, and its name. -/
structure Provider (τ : Type) where
  digests : Digests
  key : CursorKey τ
  instance_ : String

namespace Provider

variable {τ : Type}

/-- The answer of a step, its ordinal sealed. -/
def seal_ (P : Provider τ) (r : MaintenanceRequest) (expires : ℕ) :
    Store.MaintenanceProgress → Progress τ
  | .more processed next =>
      .more processed
        (P.key.seal_ .maintenance ⟨2, .maintenance r, P.instance_, expires, next⟩)
  | .complete processed fence => .complete processed fence
  | .blocked reason => .blocked reason

def sealed (P : Provider τ) (r : MaintenanceRequest) (expires : ℕ) :
    Outcome Store.MaintenanceProgress → Outcome (Progress τ)
  | .accepted p => .accepted (P.seal_ r expires p)
  | .replay p => .replay (P.seal_ r expires p)

variable [DecidableEq τ]

/-- The ordinal the caller continues after. -/
def after (P : Provider τ) (r : MaintenanceRequest) (token : Option (Continuation τ)) (now : ℕ) :
    Except Error (Option ℕ) :=
  match token with
  | none => .ok none
  | some t => (P.key.open_ .maintenance t (.maintenance r) P.instance_ now).map some

/-- `Maintainer::step`: the plan is loaded before the token is opened, and only then resumed. -/
def step (P : Provider τ) (s : Store) (r : MaintenanceRequest) (token : Option (Continuation τ))
    (now clock : ℕ) (limits : Limits) : Except Error (Outcome (Progress τ) × Store) :=
  if r.rows > limits.maxPoints ∨ r.buckets > limits.maxPoints ∨ r.rows ≥ 2 ^ 31 then
    .error .budgetExceeded
  else do
    let _ ← (s.lockNamespace r.scope).2.load r
    if now + limits.cursorMicros ≥ 2 ^ 63 then .error .numericRange
    else do
      let after ← P.after r token now
      let (outcome, s) ← (s.lockNamespace r.scope).2.resumePlan P.digests r after
        (s.lockNamespace r.scope).1 now clock limits
      return (P.sealed r (now + limits.cursorMicros) outcome, s)

end Provider

/-! ### Histories of a deployment -/

/-- A call of a client; the steps of a plan carry the continuation they were given. -/
inductive Attempt (τ : Type) where
  | write (batch : Batch) (now : ℕ)
  | register (d : Definition) (expected : Option Digest)
  | retire (id : DefinitionId) (expected : Digest)
  | step (r : MaintenanceRequest) (token : Option (Continuation τ)) (now clock : ℕ)

inductive Reply (τ : Type) where
  | receipt (outcome : Outcome Receipt)
  | definition (outcome : Outcome DefinitionRecord)
  | progress (outcome : Outcome (Progress τ))

def Provider.serve {τ : Type} [DecidableEq τ] (P : Provider τ) (limits : Limits) (s : Store) :
    Attempt τ → Except Error (Reply τ × Store)
  | .write batch now =>
      (s.admitBatch P.digests batch limits.replayMicros now).map (fun (r, s) => (.receipt r, s))
  | .register d expected =>
      (s.register P.digests d expected).map (fun (r, s) => (.definition r, s))
  | .retire id expected => (s.retire P.digests id expected).map (fun (r, s) => (.definition r, s))
  | .step r token now clock =>
      (P.step s r token now clock limits).map (fun (r, s) => (.progress r, s))

/-- How an attempt ended. A committed one may be unknown to its caller; one that is rolled back for
a deadline or a lost connection is aborted. -/
inductive Verdict (τ : Type) where
  | committed (reply : Reply τ)
  | refused (e : Error)
  | aborted

structure Exchange (τ : Type) where
  attempt : Attempt τ
  verdict : Verdict τ
  before : Store
  after : Store

inductive Served {τ : Type} [DecidableEq τ] (P : Provider τ) :
    Store → Exchange τ → Store → Prop where
  | commit {s s' : Store} {attempt : Attempt τ} {reply : Reply τ} (limits : Limits)
      (body : P.serve limits s attempt = .ok (reply, s')) :
      Served P s ⟨attempt, .committed reply, s, s'⟩ s'
  | refuse {s : Store} {attempt : Attempt τ} {e : Error} (limits : Limits)
      (body : P.serve limits s attempt = .error e) : Served P s ⟨attempt, .refused e, s, s⟩ s
  | abort {s : Store} (attempt : Attempt τ) : Served P s ⟨attempt, .aborted, s, s⟩ s

end Rss.TimeseriesPostgres
