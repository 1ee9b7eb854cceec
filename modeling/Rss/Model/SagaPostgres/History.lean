import Rss.Library.Query

/-! # History functions of the saga schema

`history_charge`, `history_reserve` and `next_progress` of `0002_add_history_bounds.sql`,
over arbitrary documents. -/

namespace Rss.SagaPostgres

open Rss.Sql

/-! ### Charging a receipt -/

/-- `'^[1-9][0-9]{0,n}$'` as a predicate on the characters. -/
def positiveDigits (n : ℕ) : List Char → Bool
  | [] => false
  | c :: cs => '1' ≤ c && c ≤ '9' && cs.all Char.isDigit && cs.length ≤ n

/-- `'^(0|[1-9][0-9]{0,n})$'`. -/
def naturalDigits (n : ℕ) (cs : List Char) : Bool := cs == ['0'] || positiveDigits n cs

/-- `t !~ '…'`. -/
def unmatched (pattern : List Char → Bool) (t : Option String) : Truth :=
  t.map (fun s => !pattern s.toList)

/-- A value of an array that is not an unsigned byte. -/
def outsideByte (value : Json) : Bool :=
  value.typeof != "number" || !naturalDigits 2 value.render || value.exceeds 255

/-- `jsonb_array_elements`. -/
def arrayElements : Option Json → List Json
  | some (.arr items) => items
  | _ => []

/-- `n`; the bounds checked before keep its sums of `integer` and `bigint` from overflow. -/
def receiptCharge (keyRef keyId bytes aad digest : Option ℤ) : Option ℤ := do
  return 256 + 1024 + 6 * ((← keyRef) + (← keyId)) + 5 * ((← bytes) + (← aad) + (← digest))

/-- The last two checks: the rendered envelope and the domain of its bytes. -/
def checkEnvelope (r : Option Json) (items : List Json) (n : Option ℤ) : Outcome (Option ℤ) :=
  if less (n.map (· - 256)) (r.map (fun j => (Json.octets j.render : ℤ))) = some true then
    raise "RS003" "saga receipt encoding"
  else if items.any outsideByte then
    raise "RS003" "saga receipt byte domain"
  else
    .ok n

def historyCharge (r : Option Json) : Outcome (Option ℤ) :=
  if r = none ∨ r = some .null then
    .ok (some 256)
  else do
    let ciphertext := member r "ciphertext"
    let bytes := member ciphertext "bytes"
    let aad := member r "aad"
    let digest := member r "digest"
    let keyRef := octetLength (memberText ciphertext "key_ref")
    let keyId := octetLength (memberText r "key_id")
    let shape ← allOf [.ok (hasType r "object"), .ok (hasType ciphertext "object"),
      .ok (hasType bytes "array"), .ok (hasType aad "array"), .ok (hasType digest "array"),
      .ok (hasType (member ciphertext "key_ref") "string"),
      .ok (hasType (member r "key_id") "string"), .ok (hasType (member r "format") "number"),
      .ok (equal (memberText r "format") (some "1")),
      .ok (hasType (member r "attempt") "number"), .ok (hasType (member r "seq") "number")]
    if shape ≠ some true then raise "RS003" "saga receipt shape"
    else do
      let coordinates ← anyOf [.ok (unmatched (positiveDigits 9) (memberText r "attempt")),
        .ok (exceeds (member r "attempt") 4294967295),
        .ok (unmatched (naturalDigits 18) (memberText r "seq")),
        .ok (exceeds (member r "seq") 9223372036854775807)]
      if coordinates = some true then raise "RS003" "saga receipt coordinates"
      else do
        let n₁ ← arrayLength bytes
        let n₂ ← arrayLength aad
        let n₃ ← arrayLength digest
        let bound ← anyOf [.ok (notBetween n₁ 1 2097152), .ok (less (some 4096) n₂),
          .ok (unequal n₃ (some 32)), .ok (notBetween keyRef 1 1024),
          .ok (notBetween keyId 1 64)]
        if bound = some true then raise "RS003" "saga receipt bound"
        else
          checkEnvelope r (arrayElements bytes ++ arrayElements aad ++ arrayElements digest)
            (receiptCharge keyRef keyId n₁ n₂ n₃)

/-! ### Reserving for admitted obligations -/

/-- Bytes reserved for the receipt of an open forward intent. -/
def receiptReserve : ℤ := 1024 + 6 * (1024 + 64) + 5 * (2097152 + 4096 + 32)

/-- `n` and `receipt`. -/
def reserveEntries (p : Option Json) : Outcome (Option ℤ × Truth) :=
  let state := memberText p "status"
  let open_ := unequal (member p "pending") (some .null)
  if isIn state ["Ready", "Running"] = some true then do
    let n ← mul (some 2) (← bigint p "forward")
    let n ← add n (some 1)
    let n ← add n (some (if open_ = some true then 3 else 0))
    .ok (n, open_)
  else if isIn state ["Compensating", "CompensationFailed"] = some true then do
    let c ← bigint p "compensation"
    let n ← mul (some 2) (some (c.getD 0))
    let current ← (
      if open_ = some true then .ok 1
      else do
        let fresh ← anyOf [do return equal (← bigint p "compensationAttempt") (some 0),
          .ok (equal (memberText p "lastKind") (some "Resume"))]
        .ok (if fresh = some true then 2 else 0))
    let n ← add n (some current)
    .ok (n, some false)
  else if (isIn state ["Succeeded", "Compensated"]).map not = some true then
    raise "RS003" "saga reserve state"
  else
    .ok (some 0, some false)

def historyReserve (p : Option Json) : Outcome Json := do
  let (n, receipt) ← reserveEntries p
  let bytes ← mul n (some 256)
  let bytes ← add bytes (some (if receipt = some true then receiptReserve else 0))
  .ok (.obj [("entries", ofInteger n), ("bytes", ofInteger bytes)])

/-! ### The incremental projection -/

/-- The variables that a transition assigns. -/
structure Vars where
  state : Option String
  f : Option ℤ
  fa : Option ℤ
  ff : Option ℤ
  c : Option ℤ
  ca : Option ℤ
  pending : Option Json
  deriving DecidableEq, Repr

/-- `DECLARE`, from the stored projection. -/
def Vars.read (p : Option Json) : Outcome Vars := do
  let state := memberText p "status"
  let f ← bigint p "forward"
  let fa ← bigint p "forwardAttempt"
  let ff ← bigint p "forwardFailures"
  let c ← bigint p "compensation"
  let ca ← bigint p "compensationAttempt"
  .ok { state, f, fa, ff, c, ca, pending := member p "pending" }

/-- `jsonb_build_object('step',s,'attempt',a,'kind',k)`. -/
def intentObject (s a : Option ℤ) (k : Option String) : Json :=
  .obj [("step", ofInteger s), ("attempt", ofInteger a), ("kind", ofText k)]

/-- `(d->'steps'->s::integer->>'max_failures')::bigint`. -/
def maxFailures (d : Option Json) (s : Option ℤ) : Outcome (Option ℤ) := do
  let index ← (match s with
    | none => .ok none
    | some s => do return some (← ranged 32 s))
  bigint (element (member d "steps") index) "max_failures"

/-- The step below, or none left: `CASE WHEN n=0 THEN NULL ELSE n-1 END`. -/
def below (n : Option ℤ) : Outcome (Option ℤ) :=
  if equal n (some 0) = some true then .ok none else sub n (some 1)

def compensationState (c : Option ℤ) : Option String :=
  some (if c = none then "Compensated" else "Compensating")

/-- The branches of `next_progress`: whether the event is valid, and the assignments. -/
def branch (v : Vars) (lastKind : Option String) (d e : Option Json) (k : Option String)
    (s a : Option ℤ) : Outcome (Truth × Vars) :=
  if k = some "ForwardIntent" then do
    let valid ← allOf [.ok (isIn v.state ["Ready", "Running"]),
      .ok (equal v.pending (some .null)), .ok (equal s v.f),
      do return equal a (← add v.fa (some 1)), do return less v.ff (← maxFailures d s)]
    .ok (valid, { v with fa := a, state := some "Running", pending := some (intentObject s a k) })
  else if k = some "ForwardApplied" then do
    let receipt := member e "receipt"
    let valid ← allOf [.ok (equal v.pending (some (intentObject s a (some "ForwardIntent")))),
      do return equal (← bigint receipt "seq") (← bigint e "seq"),
      do return equal (← bigint receipt "attempt") a]
    let f ← add v.f (some 1)
    let count ← arrayLength (member d "steps")
    let state := if equal f count = some true then "Succeeded" else "Running"
    .ok (valid, { v with
      pending := some .null, f, fa := some 0, ff := some 0, state := some state })
  else if k = some "ForwardNotApplied" ∨ k = some "ForwardProbeNotApplied" then do
    let valid := equal v.pending (some (intentObject s a (some "ForwardIntent")))
    let ff ← (if k = some "ForwardNotApplied" then add v.ff (some 1) else .ok v.ff)
    .ok (valid, { v with pending := some .null, state := some "Ready", ff })
  else if k = some "Abort" then do
    let valid ← allOf [.ok (equal v.state (some "Ready")), .ok (equal v.pending (some .null)),
      .ok (equal s v.f), .ok (equal a v.fa), .ok (equal lastKind (some "ForwardNotApplied")),
      do return (less v.ff (← maxFailures d s)).map not]
    let c ← below v.f
    .ok (valid, { v with c, ca := some 0, state := compensationState c })
  else if k = some "CompensationIntent" then do
    let valid ← allOf [.ok (equal v.state (some "Compensating")),
      .ok (equal v.pending (some .null)), .ok (equal s v.c),
      do return equal a (← add v.ca (some 1))]
    .ok (valid, { v with ca := a, pending := some (intentObject s a k) })
  else if k = some "CompensationApplied" ∨ k = some "CompensationNotApplied" ∨
      k = some "CompensationFailed" then do
    let valid ← allOf [.ok (equal v.state (some "Compensating")),
      .ok (equal v.pending (some (intentObject s a (some "CompensationIntent"))))]
    let v := { v with pending := some .null }
    if k = some "CompensationApplied" then do
      let c ← below s
      .ok (valid, { v with c, ca := some 0, state := compensationState c })
    else if k = some "CompensationFailed" then
      .ok (valid, { v with state := some "CompensationFailed" })
    else
      .ok (valid, v)
  else if k = some "Resume" then do
    let valid ← allOf [.ok (equal v.state (some "CompensationFailed")),
      .ok (equal v.pending (some .null)), .ok (equal s v.c), .ok (equal a v.ca)]
    .ok (valid, { v with state := some "Compensating" })
  else
    .ok (some false, v)

/-- `RETURN jsonb_build_object('status',state_,…,'lastKind',k)`. -/
def Vars.object (v : Vars) (k : Option String) : Json :=
  .obj [("status", ofText v.state), ("forward", ofInteger v.f),
    ("forwardAttempt", ofInteger v.fa), ("forwardFailures", ofInteger v.ff),
    ("compensation", ofInteger v.c), ("compensationAttempt", ofInteger v.ca),
    ("pending", ofJson v.pending), ("lastKind", ofText k)]

/-- `e->'receipt' IS NOT NULL AND e->'receipt'<>'null'::jsonb`. -/
def hasReceipt (e : Option Json) : Bool :=
  member e "receipt" ≠ none && member e "receipt" ≠ some .null

def nextProgress (p d e : Option Json) : Outcome Json := do
  let v ← Vars.read p
  let k := memberText e "kind"
  let s ← bigint e "step"
  let a ← bigint e "attempt"
  let invalid ← anyOf [.ok (some (s = none)), .ok (less s (some 0)),
    do return (less s (← arrayLength (member d "steps"))).map not, .ok (some (a = none)),
    .ok (notBetween a 1 4294967295), .ok (isIn v.state ["Succeeded", "Compensated"])]
  if invalid = some true then raise "RS003" "saga event invalid"
  else if equal k (some "ForwardApplied") ≠ some (hasReceipt e) then
    raise "RS003" "saga receipt pairing"
  else do
    let (valid, v) ← branch v (memberText p "lastKind") d e k s a
    if valid ≠ some true then raise "RS003" "saga transition invalid"
    else
      .ok (v.object k)

/-! ### Discovery -/

/-- `(j ->> 'key')::numeric`, of the integers that a reserve holds. -/
def numeric (j : Option Json) (key : String) : Outcome (Option ℤ) :=
  match memberText j key with
  | none => .ok none
  | some s => (okOr (integer? s.toList) .invalidText).map some

/-- `q::numeric+a+b<=limit`, in arithmetic without bounds. -/
def within (q a : ℤ) (b : Option ℤ) (limit : ℤ) : Truth := b.map (fun b => q + a + b ≤ limit)

/-- The end of `runnable`: whether the next intent and what it owes fit. -/
def intentFits (p d : Option Json) (q bytes entries capacityBytes : ℤ) (step attempt : Option ℤ)
    (kind : String) : Outcome Truth :=
  -- An exhausted ordinal cannot be resolved by capacity growth.
  if less (some 4294967295) attempt = some true then .ok none
  else do
    let e := .obj [("seq", ofInteger (some q)), ("step", ofInteger step),
      ("attempt", ofInteger attempt), ("kind", ofText (some kind)), ("receipt", .null)]
    let next ← nextProgress p d (some e)
    let reserve ← historyReserve (some next)
    let owedEntries ← numeric (some reserve) "entries"
    let owedBytes ← numeric (some reserve) "bytes"
    .ok ((within q 1 owedEntries entries).and (within bytes 256 owedBytes capacityBytes))

def runnable (p d : Option Json) (q bytes entries capacityBytes : ℤ) : Outcome Truth :=
  let status := memberText p "status"
  if (isIn status ["Ready", "Running", "Compensating"]).map not = some true then .ok (some false)
  else if unequal (member p "pending") (some .null) = some true then .ok (some true)
  else if equal status (some "Compensating") = some true then do
    let step ← bigint p "compensation"
    let attempt ← add (← bigint p "compensationAttempt") (some 1)
    intentFits p d q bytes entries capacityBytes step attempt "CompensationIntent"
  else do
    let step ← bigint p "forward"
    let attempt ← add (← bigint p "forwardAttempt") (some 1)
    let failures ← bigint p "forwardFailures"
    let limit ← maxFailures d step
    if (less failures limit).map not = some true then .ok (some true)
    else intentFits p d q bytes entries capacityBytes step attempt "ForwardIntent"

end Rss.SagaPostgres
