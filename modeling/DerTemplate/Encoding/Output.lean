import DerTemplate.Encoding.Sizing

namespace DerTemplate.Encoding

structure Output where
  buffer : Bytes
  limit : Nat
deriving DecidableEq, Repr

def Output.put (out : Output) (pos : Nat) (bytes : Bytes) : Outcome Output :=
  if pos + bytes.length ≤ out.limit then .ok { out with buffer := out.buffer.overlay pos bytes }
  else fault

def Output.keep (out : Output) (pos length : Nat) : Outcome Output :=
  if pos + length ≤ out.limit then .ok out else fault

def leadBytes (lead : Option UInt8) : Bytes := lead.toList

def writeItem (entry : Entry) (slot : Slot) (out : Output) (start index : Nat) :
    Outcome (Output × Nat) :=
  match slot.value with
  | .replace encoded =>
    if encoded.length = slot.length then do
      let out ← out.put start encoded
      return (out, start + encoded.length)
    else refuse (.internalError (.replacementResized index))
  | value => do
    let fullTag := slot.wireTag entry
    let tag := fullTag.base
    let header := fullTag :: Header.lengthOctets slot.contentLength
    let out ← out.put start header
    let pos := start + header.length
    if entry.headerOnly ∧ value.isNone then
      let lead := leadBytes (wholeBits entry tag)
      let out ← out.put pos lead
      return (out, pos + lead.length)
    else
      let layout ← layout entry tag value index
      let size ← layout.size
      if size = slot.contentLength then
        let lead := leadBytes layout.lead
        let out ← out.put pos lead
        let pos := pos + lead.length
        if entry.headerOnly then return (out, pos)
        else
          let out ← out.keep pos layout.payload
          match ← payload tag value layout.payload index with
          | none => return (out, pos + layout.payload)
          | some bytes =>
            let out ← out.put pos bytes
            return (out, pos + layout.payload)
      else refuse (.internalError (.resized index))

def placeholderStart (entry : Entry) (slot : Slot) (stop : Nat) : Option Nat :=
  match slot.value with
  | .placeholder length => some (if entry.headerOnly then stop else stop - length)
  | _ => slot.placeholderAt

structure Written where
  slots : List Slot
  output : Output
deriving DecidableEq, Repr

def writeEntry (written : Written) (i : Nat) (entry : Entry) (slot : Slot) : Outcome Written := do
  let start ← Word.sub written.output.limit slot.offset
  let (output, stop) ← writeItem entry slot written.output start i
  let slot := { slot with placeholderAt := placeholderStart entry slot stop }
  return ⟨written.slots.set i slot, output⟩

def writeFrom (schema : Schema) (written : Written) (i : Nat) : Attempt (List Slot) Written :=
  if h : i < schema.length then
    match written.slots[i]? with
    | none => fault.leaving written.slots
    | some slot =>
      if slot.suppressed then writeFrom schema written (schema.subtreeEnd i)
      else do
        let next ← (writeEntry written i schema[i] slot).leaving written.slots
        writeFrom schema next (i + 1)
  else .ok written
termination_by schema.length - i
decreasing_by
  · have := schema.lt_subtreeEnd i
    omega
  · omega

def sizedTotal (slots : List Slot) : Nat := (slots.map Slot.offset).foldr max 0

def write (schema : Schema) (slots : List Slot) (buffer : Bytes) : Attempt (List Slot) Written :=
  if slots.length = schema.length ∧ slots.all Slot.sized then
    if sizedTotal slots ≤ buffer.length then
      writeFrom schema ⟨slots, ⟨buffer, sizedTotal slots⟩⟩ 0
    else Outcome.leaving (refuse (.bufferTooSmall (sizedTotal slots) buffer.length)) slots
  else Outcome.leaving (refuse (.internalError .notSized)) slots

def encode (schema : Schema) (slots : List Slot) : Attempt (List Slot) Written := do
  let sizing ← size schema slots
  let buffer ← (Bytes.zeros sizing.total).leaving sizing.slots
  write schema sizing.slots buffer

end DerTemplate.Encoding
