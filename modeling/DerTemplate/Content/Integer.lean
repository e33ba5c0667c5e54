import DerTemplate.Bytes
import DerTemplate.Options

namespace DerTemplate.Content

def isPadded (content : Bytes) (policy : IntegerPolicy) : Outcome Bool :=
  match content with
  | [] => refuse (.invalidEncoding .emptyInteger)
  | [_] => .ok false
  | first :: next :: _ =>
    if first = 0x00 then
      if next &&& 0x80 = 0 ∧ policy = .strict then refuse (.invalidEncoding .integerLeadingZero)
      else .ok true
    else if first = 0xFF ∧ next &&& 0x80 ≠ 0 ∧ policy = .strict then
      refuse (.invalidEncoding .integerLeadingOnes)
    else .ok false

def unsignedSize (n : Nat) : Nat :=
  let size := octetCount n
  if n / Nat.pow 256 (size - 1) % 256 < 0x80 then size else size + 1

def integerSize (n : Int) : Nat :=
  bitLength (if n < 0 then n.natAbs - 1 else n.natAbs) / 8 + 1

/-- The low 32 bits of the number that at most `width` octets of `content` hold. -/
def readUnsigned (content : Bytes) (width : Nat) : Outcome Nat :=
  if content = [] then refuse (.invalidEncoding .emptyNumber)
  else if width < content.length then
    refuse (.invalidEncoding (.numberTooWide content.length width))
  else .ok (content.toNat % 0x100000000)

def hasTopBit (content : Bytes) : Bool :=
  match content with
  | [] => false
  | first :: _ => first &&& 0x80 != 0

end DerTemplate.Content
