import Rss.Model.Contract.Identity

/-! # Page cursors

The opaque pagination token and the check that it is canonical unpadded base64url. -/

namespace Rss.Contract

inductive PageCursorError where
  | malformed | tooLong | stale
  deriving DecidableEq, Repr

def base64urlValue (b : UInt8) : Option UInt8 :=
  if 65 ≤ b ∧ b ≤ 90 then some (b - 65)
  else if 97 ≤ b ∧ b ≤ 122 then some (b - 97 + 26)
  else if 48 ≤ b ∧ b ≤ 57 then some (b - 48 + 52)
  else if b = 45 then some 62
  else if b = 95 then some 63
  else none

/-- The bits of the last letter that belong to no byte. -/
def trailingBits (bytes : List UInt8) (mask : UInt8) : Bool :=
  (bytes.getLast?.bind base64urlValue).any fun value => value &&& mask = 0

def canonicalBase64urlNoPad (value : String) : Bool :=
  let bytes := utf8 value
  if bytes.isEmpty || bytes.length % 4 = 1 then false
  else if !bytes.all (fun b => (base64urlValue b).isSome) then false
  else if bytes.length % 4 = 2 then trailingBits bytes 0x0f
  else if bytes.length % 4 = 3 then trailingBits bytes 0x03
  else true

def validatePageCursor (raw : String) : Except PageCursorError Unit :=
  if raw.utf8ByteSize > 4096 then .error .tooLong
  else if !canonicalBase64urlNoPad raw then .error .malformed
  else .ok ()

abbrev PageCursor := Checked validatePageCursor

def PageCursor.parse (raw : String) : Except PageCursorError PageCursor := Checked.parse _ raw

end Rss.Contract
