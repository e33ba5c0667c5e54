import DerTemplate.Bytes

namespace DerTemplate.Content

def lowBits (unused : UInt8) : Outcome UInt8 :=
  if unused < 16 then .ok (UInt8.ofNat ((1 <<< unused.toNat) - 1)) else fault

def unusedBitCount (content : Bytes) : Outcome UInt8 :=
  match content with
  | [] => refuse (.invalidEncoding .noUnusedBitsOctet)
  | unused :: bits =>
    if 7 < unused then refuse (.invalidEncoding (.unusedBitsRange unused))
    else match bits.getLast? with
      | none => if unused = 0 then .ok 0 else refuse (.invalidEncoding .emptyWithUnusedBits)
      | some last => do
        let mask ← lowBits unused
        if last &&& mask = 0 then return unused
        else refuse (.invalidEncoding .unusedBitsSet)

def clearUnused (bits : Bytes) (unused : UInt8) : Outcome Bytes :=
  match bits.getLast? with
  | none => .ok []
  | some last => do
    let mask ← lowBits unused
    return bits.dropLast ++ [last &&& ~~~mask]

end DerTemplate.Content
