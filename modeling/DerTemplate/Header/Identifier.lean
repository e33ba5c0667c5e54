import DerTemplate.Bytes

namespace DerTemplate.Header

def readTag (input : Bytes) (idx bound : Nat) : Outcome Tag :=
  if idx < min bound input.length then fetch input idx
  else refuse (.truncatedInput (.noTag idx))

def numberOctetLimit : Nat := 5

def numberOctets (input : Bytes) (start bound : Nat) : Nat → Nat → Outcome Nat
  | 0, _ => refuse (.invalidEncoding (.tagNumberTooLong start))
  | room + 1, pos =>
    if pos < bound then do
      let b ← fetch input pos
      if b &&& 0x80 = 0 then return 1
      else
        let more ← numberOctets input start bound room (pos + 1)
        return more + 1
    else refuse (.truncatedInput (.tagNumber pos))

def identifierSize (input : Bytes) (idx bound : Nat) : Outcome Nat := do
  let tag ← readTag input idx bound
  if tag.hasLongNumber then
    let number ← numberOctets input idx (min bound input.length) numberOctetLimit (idx + 1)
    return number + 1
  else return 1

end DerTemplate.Header
