import DerTemplate.Encoding.Layout
import DerTemplate.Header.Length

/-!
The first pass of an encoder. It goes over the schema from its end, so that what an entry nests is
sized before the entry itself, and measures every position from the end of the encoding.
-/

namespace DerTemplate.Encoding

def excluded (schema : Schema) (slots : List Slot) (i : Nat) : Bool :=
  (i :: schema.ancestors i).any fun j => slots[j]?.any Slot.suppressed

/-- Turns down a second written member of a choice run. The entries left begin at index `i`, and
`written` says whether the run last begun has a written member. -/
def checkChoicesFrom (schema : Schema) (slots : List Slot) (i : Nat) (written : Bool) :
    List Entry → Outcome Unit
  | [] => .ok ()
  | entry :: rest =>
    match entry.choiceGroup with
    | none => checkChoicesFrom schema slots (i + 1) written rest
    | some group =>
      let written := written && !schema.startsRun i
      if excluded schema slots i then checkChoicesFrom schema slots (i + 1) written rest
      else if written then refuse (.internalError (.choiceWritten group))
      else checkChoicesFrom schema slots (i + 1) true rest

def checkChoices (schema : Schema) (slots : List Slot) : Outcome Unit :=
  checkChoicesFrom schema slots 0 false schema

def childLengths (schema : Schema) (slots : List Slot) (i depth : Nat) : Outcome Nat :=
  let below := ((schema.zip slots).drop (i + 1)).takeWhile fun p => depth < p.1.depth
  let children := below.filter fun p => p.1.depth == depth + 1
  let sum := children.foldl (fun n p => n + p.2.length) 0
  if sum < wordLimit then .ok sum else fault

structure Measure where
  contentLength : Nat
  own : Nat
  length : Nat
deriving DecidableEq, Repr

def measureHeader (entry : Entry) (tag : Tag) (children : Nat) : Outcome Measure := do
  let lead := if isBits entry tag then 1 else 0
  let content ← Word.add children lead
  let header := 1 + Header.lengthSize content
  let length ← Word.add header content
  return ⟨content, header + lead, length⟩

def measureItem (entry : Entry) (tag : Tag) (value : Value) (index : Nat) : Outcome Measure := do
  let layout ← layout entry tag value index
  let content ← layout.size
  let header := 1 + Header.lengthSize content
  let own ← Word.add header (if entry.headerOnly then layout.leadSize else content)
  return ⟨content, own, own⟩

def measure (schema : Schema) (slots : List Slot) (i : Nat) (entry : Entry) (slot : Slot) :
    Outcome Measure := do
  let tag := (slot.wireTag entry).base
  let children ← (if entry.headerOnly then childLengths schema slots i entry.depth
    else .ok 0 : Outcome Nat)
  match slot.value with
  | .replace encoded =>
    if entry.headerOnly then refuse (.internalError (.headerReplaced i))
    else return ⟨encoded.length, encoded.length, encoded.length⟩
  | value =>
    if value.isNone ∧ entry.headerOnly then measureHeader entry tag children
    else if 0 < children then refuse (.internalError (.payloadAndChildren i))
    else measureItem entry tag value i

structure Sizing where
  slots : List Slot
  total : Nat
deriving DecidableEq, Repr

def sizeEntry (schema : Schema) (sizing : Sizing) (i : Nat) : Outcome Sizing :=
  match schema[i]?, sizing.slots[i]? with
  | some entry, some slot =>
    if excluded schema sizing.slots i then
      let slot := { slot with length := 0, contentLength := 0, offset := 0, sized := true }
      .ok ⟨sizing.slots.set i slot, sizing.total⟩
    else do
      let m ← measure schema sizing.slots i entry slot
      let total := sizing.total + m.own
      if total < wordLimit then
        let slot := { slot with
          length := m.length, contentLength := m.contentLength, offset := total, sized := true }
        return ⟨sizing.slots.set i slot, total⟩
      else refuse (.resourceExhausted .encodedSize)
  | _, _ => fault

def sizeBelow (schema : Schema) : Nat → Sizing → Attempt (List Slot) Sizing
  | 0, sizing => .ok sizing
  | n + 1, sizing => do
    let next ← (sizeEntry schema sizing n).leaving sizing.slots
    sizeBelow schema n next

def checkSlots (schema : Schema) (slots : List Slot) : Outcome Unit := do
  schema.validate
  if slots.length = schema.length then checkChoices schema slots
  else refuse (.internalError (.slotCount slots.length schema.length))

/-- Sizes every entry. The slots keep the results, also those that come before a failure. -/
def size (schema : Schema) (slots : List Slot) : Attempt (List Slot) Sizing := do
  (checkSlots schema slots).leaving slots
  sizeBelow schema schema.length ⟨slots, 0⟩

end DerTemplate.Encoding
