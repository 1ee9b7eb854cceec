import Rss.Model.Observation.Journal

/-! # Persisted states and decisions

The texts that the provider stores for a state and for a decision, and what reading them back
checks. The derived JSON of the wire structs stands as a pair of functions. -/

namespace Rss.Observation

/-! ### Ranges of the wire structs -/

/-- Every number of the state fits its field. -/
structure State.InRange (s : State) : Prop where
  version : s.version < 2 ^ 8
  revision : s.revision < 2 ^ 64
  highWater : ∀ h ∈ s.highWater, h < 2 ^ 64
  cursor : ∀ c ∈ s.cursor, c < 2 ^ 64
  expiresAt : ∀ b ∈ s.baseline, b.expiresAt < 2 ^ 64

instance (s : State) : Decidable s.InRange :=
  decidable_of_iff (s.version < 2 ^ 8 ∧ s.revision < 2 ^ 64 ∧ (∀ h ∈ s.highWater, h < 2 ^ 64) ∧
      (∀ c ∈ s.cursor, c < 2 ^ 64) ∧ ∀ b ∈ s.baseline, b.expiresAt < 2 ^ 64)
    ⟨fun ⟨h₁, h₂, h₃, h₄, h₅⟩ => ⟨h₁, h₂, h₃, h₄, h₅⟩,
      fun ⟨h₁, h₂, h₃, h₄, h₅⟩ => ⟨h₁, h₂, h₃, h₄, h₅⟩⟩

structure Decision.InRange (d : Decision) : Prop where
  version : d.version < 2 ^ 8
  before : d.before.InRange
  after : d.after.InRange

/-- A report as its constructors leave it. The byte limit of a whole batch is not part of it. -/
structure Report.WellFormed (r : Report) : Prop where
  sequence : r.batch.sequence < 2 ^ 64
  observedAt : r.batch.observedAt < 2 ^ 63
  receivedAt : r.receivedAt < 2 ^ 64
  previous : ∀ baseline previous changes, r.batch.body = .delta baseline previous changes →
    previous < 2 ^ 64
  normalized : r.batch.body.normalize = .ok r.batch.body

/-! ### Texts -/

/-- The text of a value and the value of a text, as `serde_json` derives them. -/
structure Wire (τ : Type) where
  state : State → τ
  parseState : τ → Option State
  decision : Decision → τ
  parseDecision : τ → Option Decision

/-- What is written is read back, and what is read back fits its fields. -/
structure Wire.RoundTrips {τ : Type} (w : Wire τ) : Prop where
  state : ∀ s, s.InRange → w.parseState (w.state s) = some s
  state_inRange : ∀ raw s, w.parseState raw = some s → s.InRange
  decision : ∀ d, d.InRange → w.parseDecision (w.decision d) = some d

section

variable {τ : Type} (w : Wire τ)

def State.encode (s : State) : τ := w.state s

def State.decode (raw : τ) : Result State := do
  let s ← okOr (w.parseState raw) .invalidInput
  s.parsed
  .ok s

def Decision.encode (d : Decision) : τ := w.decision d

/-- `Decision::restore`, from the stored text. -/
def Decision.restoreText (raw : τ) (batch : Batch) (receivedAt : ℕ) (policy : Policy) :
    Result Decision := do
  let d ← okOr (w.parseDecision raw) .invalidInput
  d.restore batch receivedAt policy

end

end Rss.Observation
