import Rss.Library.Json
import Rss.Model.Saga.Snapshot

/-! # Saga documents

The JSON that `serde` writes for the values the PostgreSQL adapter binds. -/

namespace Rss.Saga

def Status.text : Status → String
  | .ready => "Ready"
  | .running => "Running"
  | .compensating => "Compensating"
  | .compensationFailed => "CompensationFailed"
  | .succeeded => "Succeeded"
  | .compensated => "Compensated"

def EventKind.text : EventKind → String
  | .forwardIntent => "ForwardIntent"
  | .forwardApplied => "ForwardApplied"
  | .forwardNotApplied => "ForwardNotApplied"
  | .forwardProbeNotApplied => "ForwardProbeNotApplied"
  | .abort => "Abort"
  | .compensationIntent => "CompensationIntent"
  | .compensationApplied => "CompensationApplied"
  | .compensationNotApplied => "CompensationNotApplied"
  | .compensationFailed => "CompensationFailed"
  | .resume => "Resume"

/-- An unsigned integer of any width. -/
def encodeNat (n : ℕ) : Json := .num n

def encodeOption {α : Type} (f : α → Json) : Option α → Json
  | none => .null
  | some a => f a

/-- `Vec<u8>` and `[u8; 32]`. -/
def encodeBytes (bytes : List UInt8) : Json := .arr (bytes.map (fun b => encodeNat b.toNat))

def Intent.encode (i : Intent) : Json :=
  .obj [("step", encodeNat i.step), ("attempt", encodeNat i.attempt), ("kind", .str i.kind.text)]

def Progress.encode (p : Progress) : Json :=
  .obj [("status", .str p.status.text), ("forward", encodeNat p.forward),
    ("forwardAttempt", encodeNat p.forwardAttempt),
    ("forwardFailures", encodeNat p.forwardFailures),
    ("compensation", encodeOption encodeNat p.compensation),
    ("compensationAttempt", encodeNat p.compensationAttempt),
    ("pending", encodeOption Intent.encode p.pending),
    ("lastKind", encodeOption (fun k => .str k.text) p.lastKind)]

def Ciphertext.encode (c : Ciphertext) : Json :=
  .obj [("key_ref", .str c.keyRef), ("bytes", encodeBytes c.bytes)]

def ProtectedReceipt.encode (r : ProtectedReceipt) : Json :=
  .obj [("ciphertext", r.ciphertext.encode), ("key_id", .str r.keyId),
    ("digest", encodeBytes r.digest), ("aad", encodeBytes r.aad),
    ("format", encodeNat r.format), ("attempt", encodeNat r.attempt), ("seq", encodeNat r.seq)]

def Event.encode (e : Event) : Json :=
  .obj [("seq", encodeNat e.seq), ("step", encodeNat e.step), ("attempt", encodeNat e.attempt),
    ("kind", .str e.kind.text), ("receipt", encodeOption ProtectedReceipt.encode e.receipt)]

def HistoryCapacity.encode (c : HistoryCapacity) : Json :=
  .obj [("maxEntries", encodeNat c.maxEntries), ("maxEncodedBytes", encodeNat c.maxEncodedBytes)]

def HistoryHead.encode (h : HistoryHead) : Json :=
  .obj [("revision", encodeNat h.revision), ("encodedBytes", encodeNat h.encodedBytes),
    ("capacity", h.capacity.encode), ("progress", h.progress.encode)]

def Identity.encode (i : Identity) : Json :=
  .obj [("contract", .str i.contract), ("version", .str i.version), ("schema", .str i.schema),
    ("generation", .str i.generation)]

def StepSpec.encode (s : StepSpec) : Json :=
  .obj [("name", .str s.name), ("receipt_schema", .str s.receiptSchema),
    ("forward_scope", .str s.forwardScope), ("compensation_scope", .str s.compensationScope),
    ("max_failures", encodeNat s.maxFailures.toNat)]

def Definition.encode (d : Definition) : Json :=
  .obj [("owner", .str d.owner), ("identity", d.identity.encode),
    ("steps", .arr (d.steps.map StepSpec.encode)), ("fingerprint", encodeBytes d.fingerprint)]

end Rss.Saga
