import DerTemplate.Content.BitString
import DerTemplate.Content.Integer
import DerTemplate.Encoding.Slot
import DerTemplate.Oid.Lookup

/-!
The content of an item: at most one lead octet, which counts unused bits or is a zero pad, and a
payload. The layout gives the sizes, and `payload` the octets.
-/

namespace DerTemplate.Encoding

structure Layout where
  lead : Option UInt8
  payload : Nat
deriving DecidableEq, Repr

namespace Layout

def leadSize (layout : Layout) : Nat := if layout.lead.isSome then 1 else 0

def size (layout : Layout) : Outcome Nat := Word.add layout.leadSize layout.payload

end Layout

def isBits (entry : Entry) (tag : Tag) : Bool := !entry.constructed && tag == Tag.bitString

def isNumber (entry : Entry) (tag : Tag) : Bool := !entry.constructed && tag.isInteger

def wholeBits (entry : Entry) (tag : Tag) : Option UInt8 :=
  if isBits entry tag then some 0 else none

def smallLayout (entry : Entry) (tag : Tag) (n index : Nat) : Outcome Layout :=
  if tag = Tag.boolean then
    if 0xFF < n then refuse (.internalError (.booleanRange index n))
    else .ok ⟨none, 1⟩
  else .ok ⟨wholeBits entry tag,
    if isNumber entry tag then Content.unsignedSize n else octetCount n⟩

/-- How `value` is laid out under a tag, given without its constructed bit. -/
def layout (entry : Entry) (tag : Tag) (value : Value) (index : Nat) : Outcome Layout :=
  match value with
  | .none => .ok ⟨wholeBits entry tag, 0⟩
  | .uint8 n => smallLayout entry tag n.toNat index
  | .uint16 n => smallLayout entry tag n.toNat index
  | .uint32 n => smallLayout entry tag n.toNat index
  | .integer n => .ok ⟨wholeBits entry tag, Content.integerSize n⟩
  | .bytes data =>
    if isNumber entry tag ∧ (data = [] ∨ Content.hasTopBit data) then .ok ⟨some 0, data.length⟩
    else .ok ⟨wholeBits entry tag, data.length⟩
  | .bits data unused =>
    if 7 < unused ∨ (data = [] ∧ unused ≠ 0) then
      refuse (.invalidEncoding (.valueUnusedBits index unused data.length))
    else .ok ⟨some unused, data.length⟩
  | .oid category sum =>
    match category.bySum? sum with
    | some known => .ok ⟨none, known.der.length⟩
    | none => refuse (.unknownOid category sum)
  | .placeholder length => .ok ⟨wholeBits entry tag, length⟩
  | .replace encoded => .ok ⟨none, encoded.length⟩

def smallPayload (tag : Tag) (n size : Nat) : Bytes :=
  if tag = Tag.boolean then [UInt8.ofNat n] else Bytes.ofNat size n

def payload (tag : Tag) (value : Value) (size index : Nat) : Outcome (Option Bytes) :=
  match value with
  | .none | .replace _ | .placeholder _ => .ok none
  | .uint8 n => .ok (some (smallPayload tag n.toNat size))
  | .uint16 n => .ok (some (smallPayload tag n.toNat size))
  | .uint32 n => .ok (some (smallPayload tag n.toNat size))
  | .integer n =>
    if (Bytes.ofInt n).length = size then .ok (some (Bytes.ofInt n))
    else refuse (.internalError (.integerResized index))
  | .bytes data => .ok (some data)
  | .bits data unused => do
    let cleared ← Content.clearUnused data unused
    return some cleared
  | .oid category sum =>
    match category.bySum? sum with
    | some known => .ok (some known.der)
    | none => refuse (.unknownOid category sum)

end DerTemplate.Encoding
