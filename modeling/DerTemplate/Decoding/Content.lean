import DerTemplate.Content.BitString
import DerTemplate.Content.Integer
import DerTemplate.Decoding.Slot
import DerTemplate.Header.Length
import DerTemplate.Oid.Dotted
import DerTemplate.Oid.Lookup

namespace DerTemplate.Decoding

inductive Lead where
  | absent
  | zeroPad
  | unusedBits (unused : UInt8)
deriving DecidableEq, Repr

namespace Lead

def size : Lead → Nat
  | .absent => 0
  | _ => 1

def unused : Lead → UInt8
  | .unusedBits n => n
  | _ => 0

def ofContent (policy : IntegerPolicy) (tag : Tag) (raw : Bytes) : Outcome Lead :=
  if tag.isConstructed then .ok .absent
  else if tag.isInteger then do
    let padded ← Content.isPadded raw policy
    return if padded then .zeroPad else .absent
  else if tag = Tag.bitString then do
    let unused ← Content.unusedBitCount raw
    return .unusedBits unused
  else .ok .absent

end Lead

structure Item where
  tag : Tag
  start : Nat
  contentStart : Nat
  stop : Nat
  lead : Lead
  raw : Bytes
  content : Bytes
deriving DecidableEq, Repr

def readSmall (item : Item) (width index : Nat) : Outcome Nat :=
  let width := if item.tag = Tag.boolean then 1 else width
  if width < item.content.length ∨ (item.tag = Tag.boolean ∧ item.content.length ≠ 1) then
    refuse (.unexpectedTag index item.start item.tag)
  else if item.tag.isInteger ∧ item.lead = .absent ∧ Content.hasTopBit item.content then
    refuse (.invalidEncoding .negativeNumber)
  else Content.readUnsigned item.content width

def readInteger (item : Item) (signed : Bool) (index : Nat) : Outcome Int :=
  -- The sign is in the first octet, so a lead octet is read with the number.
  if signed then .ok item.raw.toInt
  else if item.tag.isInteger ∧ item.lead = .absent ∧ Content.hasTopBit item.content then
    refuse (.invalidEncoding (.negativeEntry index))
  else .ok item.content.toNat

def readOid (options : Options) (category : Oid.Category) (item : Item) : Outcome Value := do
  (if item.tag = Tag.objectIdentifier then Oid.checkContent item.content else .ok ())
  let sum ← Oid.octetSum item.content
  (if options.verifyOids then category.verify sum item.content else .ok ())
  return .oid sum item.content

def readValue (options : Options) (destination : Destination) (item : Item) (index : Nat) :
    Outcome Value :=
  match destination with
  | .none => .ok .nothing
  | .content | .choice _ => .ok (.bytes item.content)
  | .uint8 => Value.number <$> readSmall item 1 index
  | .uint16 => Value.number <$> readSmall item 2 index
  | .uint32 => Value.number <$> readSmall item 4 index
  | .integer signed => Value.integer <$> readInteger item signed index
  | .oid category => readOid options category item
  | .expect bytes =>
    if bytes = item.content then .ok .nothing
    else refuse (.invalidEncoding (.unexpectedValue index))
  | .bounded capacity =>
    if capacity < item.content.length then
      refuse (.truncatedInput (.destinationFull index item.content.length capacity))
    else .ok (.bytes item.content)

def readHeader (destination : Destination) (item : Item) (index : Nat) : Outcome Value :=
  match destination with
  | .none => .ok .nothing
  | .content => .ok (.bytes item.content)
  | other => refuse (.internalError (.headerDestination index other.kind))

def Slot.fill (slot : Slot) (options : Options) (entry : Entry) (input : Bytes)
    (start bound : Nat) (tag : Tag) (index : Nat) : Attempt Slot (Slot × Item) := do
  let (length, next) ← (Header.readLength input (start + 1) bound true).leaving slot
  let stop ← (Word.add next length).leaving slot
  let raw ← (input.slice next stop).leaving slot
  let slot := { slot with present := true, tag := tag, offset := start }
  let lead ← (Lead.ofContent options.integerPolicy tag raw).leaving slot
  let slot := { slot with zeroPadded := lead == .zeroPad, unusedBits := lead.unused }
  let contentStart := next + lead.size
  let length ← (Word.sub stop contentStart).leaving slot
  let slot := { slot with contentOffset := contentStart, length := length }
  let content ← (input.slice contentStart stop).leaving slot
  let item : Item := ⟨tag, start, contentStart, stop, lead, raw, content⟩
  let value ← (if entry.headerOnly then readHeader slot.destination item index
    else readValue options slot.destination item index).leaving slot
  return ({ slot with value := value }, item)

end DerTemplate.Decoding
