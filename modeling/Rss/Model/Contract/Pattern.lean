import Rss.Library.Grammar

/-! # Contract ids in the outbox

The check of a contract id in `decode_outbox_message` of the PostgreSQL outbox, whose pattern is
matched in the C collation: its ranges are ranges of code points. -/

namespace Rss.Contract

open RegularExpression

/-- A range of a bracket expression. -/
def charRange (first last : Char) : List Char :=
  (List.range (last.toNat + 1 - first.toNat)).map fun i => Char.ofNat (first.toNat + i)

/-- `[a-z]` -/
def letters : RegularExpression Char := choiceOf (charRange 'a' 'z')

/-- `[a-z0-9]` -/
def lettersAndDigits : RegularExpression Char := choiceOf (charRange 'a' 'z' ++ charRange '0' '9')

/-- `r+` -/
def oneOrMore (r : RegularExpression Char) : RegularExpression Char := r * star r

/-- `[a-z][a-z0-9]*(-[a-z0-9]+)*` -/
def segmentPattern : RegularExpression Char :=
  letters * star lettersAndDigits * star (char '-' * oneOrMore lettersAndDigits)

/-- `^[a-z][a-z0-9]*(-[a-z0-9]+)*(\.[a-z][a-z0-9]*(-[a-z0-9]+)*)+$` -/
def contractPattern : RegularExpression Char :=
  segmentPattern * oneOrMore (char '.' * segmentPattern)

/-- A contract id that raises no error. -/
def outboxContractId (value : String) : Bool :=
  !(value.utf8ByteSize > 255 || !contractPattern.rmatch value.toList)

end Rss.Contract
