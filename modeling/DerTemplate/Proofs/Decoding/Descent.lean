import DerTemplate.Decoding.Walk
import DerTemplate.Proofs.Schema.Forest

namespace DerTemplate.Decoding

def seek (entry : Entry) (destination : Destination) (input : Bytes) (index stop : Nat)
    (taken : Bool) (pos : Nat) : Outcome (Option Tag) :=
  match if pos < stop then input[pos]? else none with
  | none =>
    if entry.presence = .required then refuse (missing destination entry index pos none)
    else .ok none
  | some tag =>
    if taken then .ok none
    else if destination.admits entry tag then .ok (some tag)
    else if destination.wrongForm entry tag then refuse (.unexpectedTag index pos tag)
    else if entry.presence = .required then
      refuse (missing destination entry index pos (some tag))
    else .ok none

def readItem (options : Options) (entry : Entry) (destination : Destination) (input : Bytes)
    (start bound : Nat) (tag : Tag) (index : Nat) : Outcome (Slot × Item) := do
  let (length, next) ← Header.readLength input (start + 1) bound true
  let raw := (input.drop next).take length
  let lead ← Lead.ofContent options.integerPolicy tag raw
  let content := raw.drop lead.size
  let item : Item := ⟨tag, start, next + lead.size, next + length, lead, raw, content⟩
  let value ← (if entry.headerOnly then readHeader destination item index
    else readValue options destination item index : Outcome Value)
  return (⟨destination, value, true, tag, start, item.contentStart, content.length, lead.unused,
    lead == .zeroPad⟩, item)

def checkRun (entry : Entry) (after : Option Presence) (taken : Bool) : Outcome Unit :=
  match entry.presence with
  | .choice group =>
    if after ≠ some entry.presence ∧ !taken then refuse (.missingChoice group) else .ok ()
  | _ => .ok ()

def checkEnd (closed : Bool) (stop pos : Nat) : Outcome Unit :=
  if closed ∧ pos ≠ stop then refuse (.trailingData stop pos) else .ok ()

/-- Decodes the entries of a forest, the first of them entry `index`, from `pos` on in a region that
ends at `stop`. `met` is the choice group of the sibling before, if its run has its member. With
`more`, something comes after the region, so that all of it has to be taken. -/
def descend (options : Options) (input : Bytes) : Forest Slot → (index stop : Nat) →
    (more : Bool) → (met : Option Nat) → (pos : Nat) → Outcome (List Slot × Nat)
  | .nil, _, _, _, _, pos => .ok ([], pos)
  | .node entry slot below next, index, stop, more, met, pos => do
    let taken := met.isSome && met == entry.choiceGroup
    let after := index + 1 + below.size
    match ← seek entry slot.destination input index stop taken pos with
    | none =>
      checkRun entry next.firstPresence taken
      let (slots, reached) ←
        descend options input next after stop more (if taken then met else none) pos
      return (slot.markAbsent pos :: (below.slots.map (fun s => s.markAbsent pos) ++ slots),
        reached)
    | some tag =>
      let (slot, item) ← readItem options entry slot.destination input pos stop tag index
      let (inner, last) ← (if entry.headerOnly then do
          let closed := more || next.size != 0
          let (inner, last) ←
            descend options input below (index + 1) item.stop closed none item.contentStart
          checkEnd closed item.stop last
          return (inner, last)
        else .ok (below.slots, item.stop) : Outcome (List Slot × Nat))
      let (slots, reached) ← descend options input next after stop more entry.choiceGroup last
      return (slot :: (inner ++ slots), reached)

def Session.descend (session : Session) (options : Options) (schema : Schema) (input : Bytes)
    (complete : Bool) (maxIndex : Nat) : Outcome Session := do
  let stop := min maxIndex input.length
  session.check schema stop
  let forest := Forest.plant schema (session.slots.map Slot.clear)
  let (slots, cursor) ←
    Decoding.descend options input forest 0 stop complete none session.cursor
  checkEnd complete stop cursor
  return ⟨cursor, slots⟩

end DerTemplate.Decoding
