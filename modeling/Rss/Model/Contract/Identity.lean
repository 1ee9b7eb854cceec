import Rss.Library.Fallible
import Rss.Library.Query

/-! # Contract identities

The identifiers of an authored contract, the time of a message and the texts they are read from. -/

namespace Rss.Contract

open Rss.Sql (natural?)

/-! ### Texts -/

/-- The bytes of a text. -/
def utf8 (s : String) : List UInt8 := s.toList.flatMap String.utf8EncodeChar

/-- `str::strip_prefix`. -/
def stripPrefix? (p s : String) : Option String :=
  (p.toList.isPrefixOf? s.toList).map String.ofList

/-- A decimal number, as `Display` writes it. -/
def decimal (n : ℤ) : String := String.ofList (Json.digits n)

/-- A sign and decimal digits. -/
def signed? : List Char → Option ℤ
  | '-' :: cs => (natural? cs).map fun n => -(n : ℤ)
  | '+' :: cs => (natural? cs).map fun n => (n : ℤ)
  | cs => (natural? cs).map fun n => (n : ℤ)

/-- `str::parse::<i64>`. -/
def parseI64 (s : String) : Option ℤ :=
  (signed? s.toList).filter fun n => decide (-2 ^ 63 ≤ n ∧ n < 2 ^ 63)

def isAsciiLowercase (b : UInt8) : Bool := 97 ≤ b && b ≤ 122

def isAsciiUppercase (b : UInt8) : Bool := 65 ≤ b && b ≤ 90

def isAsciiDigit (b : UInt8) : Bool := 48 ≤ b && b ≤ 57

def isAsciiAlphanumeric (b : UInt8) : Bool :=
  isAsciiLowercase b || isAsciiUppercase b || isAsciiDigit b

def isAsciiControl (b : UInt8) : Bool := b < 32 || b == 127

/-! ### Checked texts -/

/-- A text that passed the check of its type. -/
structure Checked {ε : Type} (check : String → Except ε Unit) where
  asStr : String
  valid : check asStr = .ok ()

/-- The constructor of a checked text. -/
def Checked.parse {ε : Type} (check : String → Except ε Unit) (raw : String) :
    Except ε (Checked check) :=
  match h : check raw with
  | .ok () => .ok ⟨raw, h⟩
  | .error e => .error e

instance {ε : Type} {check : String → Except ε Unit} : DecidableEq (Checked check) := fun a b =>
  decidable_of_iff (a.asStr = b.asStr) (by cases a; cases b; simp)

/-! ### Contracts -/

inductive IdentityError where
  | empty | tooLong | invalidFormat | zeroVersion
  deriving DecidableEq, Repr

/-- The loop of `valid_contract_id`, from a byte on. -/
def contractIdFrom (segmentStart dotted : Bool) : List UInt8 → Bool
  | [] => dotted && !segmentStart
  | b :: bs =>
      if segmentStart then isAsciiLowercase b && contractIdFrom false dotted bs
      else if b = 46 then contractIdFrom true true bs
      else if b = 45 then
        bs.head?.any (fun n => isAsciiLowercase n || isAsciiDigit n) && contractIdFrom false dotted bs
      else (isAsciiLowercase b || isAsciiDigit b) && contractIdFrom false dotted bs

def validContractId (value : String) : Bool :=
  1 ≤ value.utf8ByteSize && value.utf8ByteSize ≤ 255 && contractIdFrom true false (utf8 value)

def validateContractId (value : String) : Except IdentityError Unit :=
  if value = "" then .error .empty
  else if value.utf8ByteSize > 255 then .error .tooLong
  else if !validContractId value then .error .invalidFormat
  else .ok ()

abbrev ContractId := Checked validateContractId

def ContractId.parse (raw : String) : Except IdentityError ContractId := Checked.parse _ raw

structure ContractVersion where
  major : ℕ
  pos : 0 < major
  range : major < 2 ^ 32
  deriving DecidableEq

def ContractVersion.fromMajor (major : ℕ) (range : major < 2 ^ 32) :
    Except IdentityError ContractVersion :=
  if h : major = 0 then .error .zeroVersion else .ok ⟨major, Nat.pos_of_ne_zero h, range⟩

def ContractVersion.parse (value : String) : Except IdentityError ContractVersion := do
  let digits ← okOr (stripPrefix? "v" value) .invalidFormat
  if digits = "" || digits.toList.head? = some '0' || !(utf8 digits).all isAsciiDigit then
    .error .invalidFormat
  else
    match natural? digits.toList with
    | none => .error .invalidFormat
    | some major =>
        if h : major < 2 ^ 32 then ContractVersion.fromMajor major h else .error .invalidFormat

def ContractVersion.text (v : ContractVersion) : String := "v" ++ decimal v.major

/-- The loop of `parse_static_version`, with the number read so far. -/
def staticMajor : ℕ → List UInt8 → Option ℕ
  | major, [] => some major
  | major, b :: bs =>
      if !isAsciiDigit b then none
      else if major > (2 ^ 32 - 1 - (b.toNat - 48)) / 10 then none
      else staticMajor (major * 10 + (b.toNat - 48)) bs

/-- A failed assertion has no value. -/
def parseStaticVersion (value : String) : Option ContractVersion :=
  let bytes := utf8 value
  if !(2 ≤ bytes.length && bytes.head? = some 118) then none
  else if !(bytes.length = 2 || bytes[1]? ≠ some 48) then none
  else
    (staticMajor 0 (bytes.drop 1)).bind fun major =>
      if h : 0 < major ∧ major < 2 ^ 32 then some ⟨major, h.1, h.2⟩ else none

def validSchemaDigest (value : String) : Bool :=
  (utf8 value).length = 71 && (utf8 "sha256:").isPrefixOf (utf8 value) &&
    ((utf8 value).drop 7).all fun b => isAsciiDigit b || (97 ≤ b && b ≤ 102)

def validateSchemaDigest (value : String) : Except IdentityError Unit :=
  if !validSchemaDigest value then .error .invalidFormat else .ok ()

abbrev SchemaDigest := Checked validateSchemaDigest

def SchemaDigest.parse (raw : String) : Except IdentityError SchemaDigest := Checked.parse _ raw

/-! ### Times -/

/-- Non-negative Unix seconds on 64 bits with a sign. -/
structure Timepoint where
  unixSeconds : ℤ
  nonneg : 0 ≤ unixSeconds
  range : unixSeconds < 2 ^ 63
  deriving DecidableEq

/-- `Timepoint::try_from` of an `i64`. -/
def Timepoint.tryFrom (value : ℤ) : Option Timepoint :=
  if h : 0 ≤ value ∧ value < 2 ^ 63 then some ⟨value, h.1, h.2⟩ else none

end Rss.Contract
